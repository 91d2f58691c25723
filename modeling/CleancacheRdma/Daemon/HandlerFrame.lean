import Mathlib
import CleancacheRdma.Daemon.CompletionQueue

/-!
# What the handlers read

Two daemons with the same store do the same with a completion if they agree on
the few words its handler reads: the page it carried, the region of the client
it came from, the pages the store holds. Both change their store and append the
same receives to the queue, and the replies are the same.
-/

namespace CleancacheRdma.Daemon

namespace Server

variable {Page : Type} {hash : HashFuncs} {exclusivePolicy : Bool} {s t s' : Server Page}
  {cid qid : ℕ} {q : ℕ × ℕ}

/-- Another store, and more receives on a queue. -/
def after (s : Server Page) (q : ℕ × ℕ) (kv : KV) (post : List Value) : Server Page :=
  { s with kv, recvs := Function.update s.recvs q (s.recvs q ++ post) }

theorem after_nil (s : Server Page) (q : ℕ × ℕ) (kv : KV) : s.after q kv [] = { s with kv } := by
  unfold after
  rw [List.append_nil, Function.update_eq_self]

theorem after_after (s : Server Page) (q : ℕ × ℕ) (kv kv' : KV) (post post' : List Value) :
    (s.after q kv post).after q kv' post' = s.after q kv' (post ++ post') := by
  unfold after
  dsimp only
  rw [Function.update_self, Function.update_idem, List.append_assoc]

theorem after_recvs_self (s : Server Page) (q : ℕ × ℕ) (kv : KV) (post : List Value) :
    (s.after q kv post).recvs q = s.recvs q ++ post := Function.update_self _ _ _

theorem after_recvs_of_ne (s : Server Page) {q q' : ℕ × ℕ} (hne : q' ≠ q) (kv : KV)
    (post : List Value) : (s.after q kv post).recvs q' = s.recvs q' :=
  Function.update_of_ne hne _ _

theorem postRecv_eq_after (s : Server Page) (cid qid : ℕ) (addr : Value) :
    s.postRecv cid qid addr = s.after (cid, qid) s.kv [addr] := rfl

/-! ## Puts and filter requests -/

theorem processPut_congr (hkv : t.kv = s.kv) {addr : Value} (hmem : t.mem addr = s.mem addr)
    {mid : ℕ} {d : Draw} {r : Option (Reply Page)}
    (h : s.processPut hash cid qid mid addr d = .ok (s', r)) :
    ∃ kv post, s' = s.after (cid, qid) kv post ∧
      t.processPut hash cid qid mid addr d = .ok (t.after (cid, qid) kv post, r) := by
  unfold processPut at h ⊢
  rw [hkv, hmem]
  cases halloc : s.kv.allocate cid none d.rand with
  | none =>
      rw [halloc] at h
      simp only [Except.map] at h ⊢
      refine ⟨s.kv, [addr], ?_⟩
      split at h
      next hmid =>
        cases h
        exact ⟨rfl, by rw [if_pos hmid, postRecv_eq_after, hkv]⟩
      next hmid =>
        cases h
        exact ⟨rfl, by rw [if_neg hmid, postRecv_eq_after, hkv]⟩
  | some v =>
      obtain ⟨value, kv⟩ := v
      rw [halloc] at h
      dsimp only [postRecv] at h ⊢
      cases hins : kv.insert hash (s.mem addr).key addr cid d.inserts with
      | error e =>
          rw [hins] at h
          cases h
      | ok kv' =>
          rw [hins] at h
          simp only [Except.map] at h ⊢
          refine ⟨kv', [value], ?_⟩
          split at h
          next hmid =>
            cases h
            exact ⟨rfl, by rw [if_pos hmid]; rfl⟩
          next hmid =>
            cases h
            exact ⟨rfl, by rw [if_neg hmid]; rfl⟩

theorem processRecv_congr (hkv : t.kv = s.kv) {addr : Value} (hmem : t.mem addr = s.mem addr)
    {imm : BitVec 32}
    (hmr : qid = numDataQps ∧ imm = FILTER_UPDATE_BEGIN → t.clientMR cid = s.clientMR cid)
    {d : Draw} {r : Option (Reply Page)}
    (h : s.processRecv hash cid qid addr imm d = .ok (s', r)) :
    ∃ kv post, s' = s.after (cid, qid) kv post ∧
      t.processRecv hash cid qid addr imm d = .ok (t.after (cid, qid) kv post, r) := by
  unfold processRecv at h ⊢
  split at h
  next hask =>
    cases h
    rw [if_pos hask]
    refine ⟨_, [NONE], rfl, ?_⟩
    unfold sendBf
    dsimp only
    rw [hkv, hmr hask]
    rfl
  next hask =>
    rw [if_neg hask]
    split at h
    next hnone =>
      cases h
      rw [if_pos hnone]
      refine ⟨s.kv, [], (after_nil s (cid, qid) s.kv).symm, ?_⟩
      rw [after_nil, ← hkv]
    next hnone =>
      rw [if_neg hnone]
      exact processPut_congr hkv hmem h

/-! ## Requests -/

variable (exclusivePolicy cid) in
/-- What a get finds under its key, under either policy. -/
theorem processGet_value (hinv : s.kv.table.TableInv (hash 0)) {key : Key} (hkey : Usable key)
    (now : BitVec 32) :
    (if exclusivePolicy then s.kv.remove hash key cid
      else s.kv.getWithFlag hash key true now).2 = (s.kv.table.view (hash 0) key).getD NONE := by
  cases exclusivePolicy with
  | true => exact KV.remove_value hinv hkey cid
  | false => exact (hinv.getWithFlag hkey true now).2.2

variable (exclusivePolicy) in
theorem processGet_congr (hinv : s.kv.table.TableInv (hash 0)) (hkv : t.kv = s.kv)
    (hkey : Usable (s.metaRegion cid (readKeyOffset qid)))
    (hread : t.metaRegion cid (readKeyOffset qid) = s.metaRegion cid (readKeyOffset qid))
    (haddr : t.metaRegion cid (addrOffset qid) = s.metaRegion cid (addrOffset qid))
    (hmem : ∀ key p, s.kv.table.view (hash 0) key = some p → t.mem p = s.mem p) (mid : ℕ)
    (d : Draw) :
    ∃ kv, s.processGet hash exclusivePolicy cid qid mid d =
        ({ s with kv }, (s.processGet hash exclusivePolicy cid qid mid d).2) ∧
      t.processGet hash exclusivePolicy cid qid mid d =
        ({ t with kv }, (s.processGet hash exclusivePolicy cid qid mid d).2) := by
  have hvalue := processGet_value exclusivePolicy cid hinv hkey d.now
  have hsame : (if exclusivePolicy then s.kv.remove hash (s.metaRegion cid (readKeyOffset qid)) cid
        else s.kv.getWithFlag hash (s.metaRegion cid (readKeyOffset qid)) true d.now).2 ≠ NONE →
      t.mem (if exclusivePolicy then s.kv.remove hash (s.metaRegion cid (readKeyOffset qid)) cid
        else s.kv.getWithFlag hash (s.metaRegion cid (readKeyOffset qid)) true d.now).2 =
      s.mem (if exclusivePolicy then s.kv.remove hash (s.metaRegion cid (readKeyOffset qid)) cid
        else s.kv.getWithFlag hash (s.metaRegion cid (readKeyOffset qid)) true d.now).2 := by
    rw [hvalue]
    intro hne
    cases hview : s.kv.table.view (hash 0) (s.metaRegion cid (readKeyOffset qid)) with
    | none => exact absurd (by rw [hview]; rfl) hne
    | some p => exact hmem _ p hview
  unfold processGet readKey
  dsimp only
  rw [hkv, hread, haddr]
  generalize (if exclusivePolicy then _ else _ : KV × Value) = found at hsame
  refine ⟨_, rfl, ?_⟩
  by_cases hfound : found.2 ≠ NONE
  · rw [if_pos hfound, if_pos hfound, if_pos hfound, hsame hfound]
  · rw [if_neg hfound, if_neg hfound, if_neg hfound]

variable (hash) in
theorem processInvalidatePage_congr (hkv : t.kv = s.kv) {mid : ℕ}
    (hread : t.metaRegion cid (invKeyOffset qid mid) = s.metaRegion cid (invKeyOffset qid mid))
    (d : Draw) :
    ∃ kv, s.processInvalidatePage hash cid qid mid d =
        ({ s with kv }, (s.processInvalidatePage hash cid qid mid d).2) ∧
      t.processInvalidatePage hash cid qid mid d =
        ({ t with kv }, (s.processInvalidatePage hash cid qid mid d).2) := by
  unfold processInvalidatePage invKey
  dsimp only
  rw [hkv, hread]
  exact ⟨_, rfl, rfl⟩

variable (exclusivePolicy) in
theorem processImm_congr (hinv : s.kv.table.TableInv (hash 0)) (hkv : t.kv = s.kv)
    {imm : BitVec 32} (hkey : ∀ key ∈ s.requestKey cid qid imm, Usable key)
    (hread : ∀ k ∈ requestCells qid imm, t.metaRegion cid k = s.metaRegion cid k)
    (hmem : ∀ key p, s.kv.table.view (hash 0) key = some p → t.mem p = s.mem p) (d : Draw) :
    ∃ kv post, s.processImm hash exclusivePolicy cid qid imm d =
        (s.after (cid, qid) kv post, (s.processImm hash exclusivePolicy cid qid imm d).2) ∧
      t.processImm hash exclusivePolicy cid qid imm d =
        (t.after (cid, qid) kv post, (s.processImm hash exclusivePolicy cid qid imm d).2) := by
  unfold requestKey at hkey
  unfold requestCells at hread
  unfold processImm
  cases htype : MsgType.ofCode (bitUnmask (ntohl imm)).msg with
  | none =>
      refine ⟨s.kv, [], ?_, ?_⟩
      · simp only [htype, after_nil]
      · simp only [htype, after_nil, ← hkv]
  | some m =>
      cases m with
      | read =>
          simp only [htype] at hkey hread ⊢
          obtain ⟨kv, hs, ht⟩ := processGet_congr exclusivePolicy
            (s := s.postRecv cid qid NONE) (t := t.postRecv cid qid NONE) hinv hkv
            (hkey _ rfl) (hread _ (by simp)) (hread _ (by simp)) hmem
            (bitUnmask (ntohl imm)).mid d
          refine ⟨kv, [NONE], ?_, ?_⟩
          · exact congrArg (fun r : Server Page × Reply Page => (r.1, some r.2)) hs
          · exact congrArg (fun r : Server Page × Reply Page => (r.1, some r.2)) ht
      | invPage =>
          simp only [htype] at hread ⊢
          obtain ⟨kv, hs, ht⟩ := processInvalidatePage_congr hash
            (s := s.postRecv cid qid NONE) (t := t.postRecv cid qid NONE) hkv
            (hread _ (List.mem_singleton.mpr rfl)) d
          exact ⟨kv, [NONE], hs, ht⟩
      | _ =>
          refine ⟨s.kv, [], ?_, ?_⟩
          · simp only [htype, after_nil]
          · simp only [htype, after_nil, ← hkv]

/-- What the handler of a completion reads is the same in both. -/
structure Agrees (hash : HashFuncs) (cid qid : ℕ) (c : Completion Page) (s t : Server Page) :
    Prop where
  kv : t.kv = s.kv
  page : ∀ msg imm, c.arrival = .send msg imm → t.mem c.wrId = s.mem c.wrId
  stored : ∀ key p, s.kv.table.view (hash 0) key = some p → t.mem p = s.mem p
  reads : ∀ k ∈ c.arrival.reads qid, t.metaRegion cid k = s.metaRegion cid k
  asks : c.arrival.AsksFilter qid → t.clientMR cid = s.clientMR cid

theorem process_congr {c : Completion Page} (h : s.Agrees hash cid qid c t)
    (hinv : s.kv.table.TableInv (hash 0))
    (hkey : ∀ off ws imm, c.arrival = .writeImm off ws imm →
      ∀ key ∈ s.requestKey cid qid imm, Usable key)
    {d : Draw} {r : Option (Reply Page)}
    (hs : s.process hash exclusivePolicy cid qid c d = some (s', r)) :
    ∃ kv post, s' = s.after (cid, qid) kv post ∧
      t.process hash exclusivePolicy cid qid c d = some (t.after (cid, qid) kv post, r) := by
  obtain ⟨wrId, x⟩ := c
  cases x with
  | send msg imm =>
      obtain ⟨kv, post, heq, ht⟩ :=
        processRecv_congr h.kv (h.page msg imm rfl) h.asks (toOption_some hs)
      refine ⟨kv, post, heq, ?_⟩
      simp only [process, ht, Except.toOption]
  | writeImm off ws imm =>
      obtain ⟨kv, post, heq, ht⟩ := processImm_congr exclusivePolicy hinv h.kv
        (hkey off ws imm rfl) h.reads h.stored d
      cases (Option.some.inj hs).symm.trans heq
      refine ⟨kv, post, rfl, ?_⟩
      simp only [process, ht]

/-! ## Start-up -/

theorem prePostRecv_congr (s : Server Page) (cid qid : ℕ) :
    ∃ kv post, ∀ t : Server Page, t.kv = s.kv →
      t.prePostRecv cid qid = t.after (cid, qid) kv post := by
  unfold prePostRecv
  by_cases hqid : qid < numDataQps
  · simp only [if_pos hqid]
    cases halloc : s.kv.allocate cid (some qid) 0 with
    | none =>
        refine ⟨s.kv, [FAILED], fun t ht => ?_⟩
        rw [ht, halloc, ← ht]
        rfl
    | some v =>
        refine ⟨v.2, [v.1], fun t ht => ?_⟩
        rw [ht, halloc]
        rfl
  · simp only [if_neg hqid]
    exact ⟨s.kv, [NONE], fun t ht => by rw [postRecv_eq_after, ht]⟩

theorem prePostRecvs_congr (s : Server Page) (cid qid : ℕ) :
    ∃ kv post, ∀ t : Server Page, t.kv = s.kv →
      t.prePostRecvs cid qid = t.after (cid, qid) kv post := by
  have hloop : ∀ n, ∃ kv post, ∀ t : Server Page, t.kv = s.kv →
      (fun s => prePostRecv s cid qid)^[n] t = t.after (cid, qid) kv post := by
    intro n
    induction n with
    | zero =>
        refine ⟨s.kv, [], fun t ht => ?_⟩
        rw [after_nil, ← ht]
        rfl
    | succ n ih =>
        obtain ⟨kv, post, hn⟩ := ih
        obtain ⟨kv', post', hone⟩ := prePostRecv_congr (s.after (cid, qid) kv post) cid qid
        refine ⟨kv', post ++ post', fun t ht => ?_⟩
        rw [Function.iterate_succ_apply', hn t ht, hone (t.after (cid, qid) kv post) rfl, after_after]
  exact hloop maxQpsRecvs

/-- A step that no message causes reads the store only. -/
theorem step_own_congr (hkv : t.kv = s.kv) {a : ServerStep Page} (ha : a.queue = none)
    {r : Option (Reply Page)} (hs : s.step hash exclusivePolicy a = some (s', r)) :
    ∃ q kv post, s' = s.after q kv post ∧
      t.step hash exclusivePolicy a = some (t.after q kv post, none) := by
  cases a with
  | prePostRecvs cid qid =>
      obtain ⟨kv, post, hall⟩ := prePostRecvs_congr s cid qid
      refine ⟨(cid, qid), kv, post, ?_, ?_⟩
      · simp only [step, Option.some.injEq, Prod.mk.injEq] at hs
        rw [← hs.1, hall s rfl]
      · simp only [step, hall t hkv]
  | recvMr cid =>
      cases hs
      refine ⟨(cid, 0), s.kv, [NONE], rfl, ?_⟩
      rw [← hkv]
      rfl
  | send cid qid msg imm d => cases ha
  | writeImm cid qid off words imm d => cases ha
  | evict draws rand =>
      obtain ⟨kv, hev, rfl, -⟩ := step_evict hs
      refine ⟨(0, 0), kv, [], (after_nil s _ kv).symm, ?_⟩
      rw [after_nil, step, hkv, hev]
      rfl
  | allocateFromPeer fl =>
      obtain ⟨a, pool, halloc, rfl, -⟩ := step_allocateFromPeer hs
      refine ⟨(0, 0), { s.kv with pool }, [], (after_nil s _ _).symm, ?_⟩
      rw [after_nil, step, hkv, halloc]
      rfl

end Server

end CleancacheRdma.Daemon
