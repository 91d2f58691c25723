import CleancacheRdma.Daemon.FilterCount
import CleancacheRdma.Daemon.Rdma
import CleancacheRdma.Lib.Bitmap

/-!
# The snapshot a client is sent

`ToOrdinaryBF` bit by bit, the words that `send_bf` ships, and the shape of the
filters through whole runs of the daemon.
-/

namespace CleancacheRdma.Daemon

open Lib (Bitmap)

namespace CountingBloomFilter

variable {f : CountingBloomFilter}

/-- The loop over the bytes, `n` of them. -/
theorem test_foldl_bytes {b : Bitmap 64} {n i : ℕ} :
    Bitmap.Test ((List.range n).foldl
      (fun bf i => if 0 < f.cbfByteBitarr i then Bitmap.set bf i else bf) b) i ↔
    b.Test i ∨ i < n ∧ 0 < f.cbfByteBitarr i := by
  induction n with
  | zero => simp
  | succ n ih =>
      rw [List.range_succ, List.foldl_append, List.foldl_cons, List.foldl_nil]
      split
      next hpos =>
        rw [Bitmap.test_set (by decide), ih]
        constructor
        · rintro ((hb | ⟨hi, hbyte⟩) | rfl)
          · exact Or.inl hb
          · exact Or.inr ⟨Nat.lt_succ_of_lt hi, hbyte⟩
          · exact Or.inr ⟨Nat.lt_succ_self i, hpos⟩
        · rintro (hb | ⟨hi, hbyte⟩)
          · exact Or.inl (Or.inl hb)
          · rcases Nat.lt_succ_iff_lt_or_eq.mp hi with hi | rfl
            · exact Or.inl (Or.inr ⟨hi, hbyte⟩)
            · exact Or.inr rfl
      next hzero =>
        rw [ih]
        refine or_congr Iff.rfl ⟨fun h => ⟨Nat.lt_succ_of_lt h.1, h.2⟩, fun h => ⟨?_, h.2⟩⟩
        rcases Nat.lt_succ_iff_lt_or_eq.mp h.1 with hi | rfl
        · exact hi
        · exact absurd h.2 hzero

theorem word_lt {i : ℕ} (hi : i < f.numBits) : i / 64 < f.numLongs := by
  unfold numLongs
  omega

/-- A bit of the snapshot is set exactly if its byte counts something. -/
theorem test_toOrdinaryBF {i : ℕ} (hi : i < f.numBits) :
    Bitmap.Test f.toOrdinaryBF.bfLongBitarr i ↔ 0 < f.cbfByteBitarr i := by
  have hzero : ¬ Bitmap.Test (fun j => if j < f.numLongs then 0 else f.bfLongBitarr j) i := by
    intro htest
    simp [Bitmap.Test, word_lt hi] at htest
  have hloop := test_foldl_bytes (f := f) (n := f.numBits) (i := i)
    (b := fun j => if j < f.numLongs then 0 else f.bfLongBitarr j)
  exact hloop.trans ⟨fun h => (h.resolve_left hzero).2, fun h => Or.inr ⟨hi, h⟩⟩

end CountingBloomFilter

/-! ## Filters keep their shape -/

namespace KV

variable {hash : HashFuncs} {kv kv' : KV} {numHash numBits : ℕ}

theorem allocate_cbfs {cid : ℕ} {qid : Option ℕ} {rand : ℕ} {value : Value}
    (h : kv.allocate cid qid rand = some (value, kv')) : kv'.cbfs = kv.cbfs := by
  obtain ⟨⟨a, pool⟩, -, heq⟩ := Option.map_eq_some_iff.mp h
  cases heq
  rfl

theorem Shaped.insert (h : Shaped numHash numBits kv) {key : Key} {value : Value} {cid : ℕ}
    {draws : List InsertDraw} (hr : kv.insert hash key value cid draws = .ok kv') :
    Shaped numHash numBits kv' := by
  rw [KV.insert] at hr
  cases hretry : KV.insertRetry hash key value cid kv draws with
  | error e =>
      rw [hretry] at hr
      cases hr
  | ok r =>
      rw [hretry] at hr
      cases hr
      dsimp only
      split
      · exact (Shaped.insertRetry h hretry).cbfInsert cid key
      · exact Shaped.insertRetry h hretry

theorem Shaped.removeFree (h : Shaped numHash numBits kv) (key : Key) (cid rand : ℕ) :
    Shaped numHash numBits (kv.removeFree hash key cid rand) := by
  have hremove : Shaped numHash numBits (kv.remove hash key cid).1 := by
    simp only [remove]
    split
    · exact Shaped.cbfRemove h cid key
    · exact h
  unfold KV.removeFree
  split
  · exact hremove
  · exact hremove

theorem Shaped.toOrdinaryBF (h : Shaped numHash numBits kv) (cid : ℕ) :
    Shaped numHash numBits
      { kv with cbfs := Function.update kv.cbfs cid (kv.cbfs cid).toOrdinaryBF } := by
  intro c
  by_cases hc : c = cid
  · subst hc
    simp only [Function.update_self]
    exact h c
  · simp only [Function.update_of_ne hc]
    exact h c

end KV

namespace Server

variable {Page : Type} {hash : HashFuncs} {exclusivePolicy : Bool} {s s' : Server Page}
  {numHash numBits : ℕ}

theorem prePostRecv_cbfs (cid qid : ℕ) : (s.prePostRecv cid qid).kv.cbfs = s.kv.cbfs := by
  unfold prePostRecv
  split
  · split
    next value kv halloc => exact KV.allocate_cbfs halloc
    · rfl
  · rfl

theorem prePostRecvs_cbfs (cid qid : ℕ) : (s.prePostRecvs cid qid).kv.cbfs = s.kv.cbfs := by
  have hloop : ∀ n, ((fun s => Server.prePostRecv s cid qid)^[n] s).kv.cbfs = s.kv.cbfs := by
    intro n
    induction n with
    | zero => rfl
    | succ n ih => rw [Function.iterate_succ_apply', prePostRecv_cbfs, ih]
  unfold prePostRecvs
  exact hloop maxQpsRecvs

/-- The filter queue: the snapshot is taken and its words are sent. -/
theorem step_filterUpdate {cid : ℕ} {d : Draw} {r : Option (Reply Page)}
    (hstep : s.step hash exclusivePolicy
      (.send cid numDataQps .empty FILTER_UPDATE_BEGIN d) = some (s', r)) :
    r = some
      { imm := FILTER_UPDATE_END
        payload := .bitmap ((List.range (s.kv.cbfs cid).numLongs).map
          (s.kv.cbfs cid).toOrdinaryBF.bfLongBitarr)
        raddr := s.clientMR cid } := by
  obtain ⟨addr, t, -, hdeliver, hrecv⟩ := step_send hstep
  have hkv := (deliver_some hdeliver).1
  have hmr : t.clientMR = s.clientMR := by
    simp only [deliver] at hdeliver
    split at hdeliver
    · cases hdeliver
      rfl
    · cases hdeliver
  unfold processRecv at hrecv
  rw [if_pos ⟨rfl, rfl⟩] at hrecv
  obtain ⟨-, hr⟩ := Prod.mk.inj (Except.ok.inj hrecv)
  rw [← hr]
  simp only [sendBf, Function.update_self, hmr, hkv]
  rfl

theorem step_filterUpdate_some (hash : HashFuncs) (exclusivePolicy : Bool) {cid : ℕ} (d : Draw)
    (hrecv : (s.recvs (cid, numDataQps)).head? = some NONE) :
    ∃ r, s.step hash exclusivePolicy (.send cid numDataQps .empty FILTER_UPDATE_BEGIN d) =
      some r := by
  simp only [step, hrecv, deliver, if_true, Option.bind_some, processRecv, true_and]
  exact ⟨_, rfl⟩

theorem prePostRecv_recvs_of_ne {cid qid : ℕ} {q : ℕ × ℕ} (hq : q ≠ (cid, qid)) :
    (s.prePostRecv cid qid).recvs q = s.recvs q := by
  unfold prePostRecv
  split
  · split
    · exact Function.update_of_ne hq _ _
    · exact Function.update_of_ne hq _ _
  · exact Function.update_of_ne hq _ _

theorem prePostRecvs_recvs_of_ne {cid qid : ℕ} {q : ℕ × ℕ} (hq : q ≠ (cid, qid)) :
    (s.prePostRecvs cid qid).recvs q = s.recvs q := by
  have hloop : ∀ n, ((fun s => prePostRecv s cid qid)^[n] s).recvs q = s.recvs q := by
    intro n
    induction n with
    | zero => rfl
    | succ n ih => rw [Function.iterate_succ_apply', prePostRecv_recvs_of_ne hq, ih]
  unfold prePostRecvs
  exact hloop maxQpsRecvs

/-- The filter queue gets receives without a buffer. -/
theorem prePostRecvs_filter {cid qid : ℕ} (hqid : ¬ qid < numDataQps) :
    (s.prePostRecvs cid qid).recvs (cid, qid) =
      s.recvs (cid, qid) ++ List.replicate maxQpsRecvs NONE := by
  have hone : ∀ t : Server Page, (t.prePostRecv cid qid).recvs (cid, qid) =
      t.recvs (cid, qid) ++ [NONE] := by
    intro t
    rw [prePostRecv, if_neg hqid]
    exact Function.update_self _ _ _
  have hloop : ∀ n, ((fun s => prePostRecv s cid qid)^[n] s).recvs (cid, qid) =
      s.recvs (cid, qid) ++ List.replicate n NONE := by
    intro n
    induction n with
    | zero => simp
    | succ n ih =>
        rw [Function.iterate_succ_apply', hone, ih, List.replicate_succ', List.append_assoc]
  unfold prePostRecvs
  exact hloop maxQpsRecvs

/-- No step of the daemon changes the number of hashes or bits of a filter. -/
theorem step_shaped (h : KV.Shaped numHash numBits s.kv) {a : ServerStep Page}
    {r : Option (Reply Page)} (hstep : s.step hash exclusivePolicy a = some (s', r)) :
    KV.Shaped numHash numBits s'.kv := by
  cases a with
  | prePostRecvs cid qid =>
      simp only [step, Option.some.injEq, Prod.mk.injEq] at hstep
      rw [← hstep.1]
      intro c
      rw [prePostRecvs_cbfs]
      exact h c
  | recvMr cid =>
      cases hstep
      exact h
  | send cid qid msg imm d =>
      obtain ⟨addr, t, -, hdeliver, hrecv⟩ := step_send hstep
      have ht : KV.Shaped numHash numBits t.kv := by
        rw [(deliver_some hdeliver).1]
        exact h
      unfold processRecv at hrecv
      split at hrecv
      · cases hrecv
        exact ht.toOrdinaryBF cid
      · split at hrecv
        · cases hrecv
          exact ht
        · rcases processPut_ok hrecv with ⟨-, rfl⟩ | ⟨value, kv, kv', halloc, hins, rfl⟩
          · exact ht
          · have hkv : KV.Shaped numHash numBits kv := by
              intro c
              rw [KV.allocate_cbfs halloc]
              exact ht c
            exact hkv.insert hins
  | writeImm cid qid off words imm d =>
      obtain ⟨addr, -, himm⟩ := step_writeImm hstep
      rcases processImm_cases hash exclusivePolicy ((s.popRecv cid qid).remoteWrite cid off words)
        cid qid imm d with ⟨-, mid, heq⟩ | ⟨mid, -, heq⟩ | ⟨-, heq⟩
      · rw [heq] at himm
        obtain rfl := congrArg Prod.fst himm
        cases exclusivePolicy
        · dsimp only
          rw [processGet_inclusive]
          dsimp only
          split
          · exact h
          · exact h
        · dsimp only
          rw [processGet_exclusive]
          exact h.removeFree _ _ _
      · rw [heq] at himm
        obtain rfl := congrArg Prod.fst himm
        rw [processInvalidatePage_fst]
        exact h.removeFree _ _ _
      · rw [heq] at himm
        obtain rfl := congrArg Prod.fst himm
        exact h
  | evict draws rand =>
      obtain ⟨kv, hev, rfl, -⟩ := step_evict hstep
      obtain ⟨slot, -, rfl⟩ := KV.evict_ok hev
      exact KV.Shaped.cbfRemove h _ _
  | allocateFromPeer fl =>
      obtain ⟨a, pool, -, rfl, -⟩ := step_allocateFromPeer hstep
      exact h

end Server

end CleancacheRdma.Daemon
