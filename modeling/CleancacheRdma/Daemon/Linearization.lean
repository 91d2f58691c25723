import Mathlib
import CleancacheRdma.Lib.Simulation
import CleancacheRdma.Daemon.HandlerFrame

/-!
# The daemon as if it handled every message at once

A completion can wait as long as it likes, and the completions of different
queues can be handled in any order: the daemon sends the replies, and comes to
the store, of a run in which each message arrives when it is handled. That run
has written less to memory. Nothing that waits is read meanwhile, since a page
that waits is in a receive and not in the store, and clients leave the words of
their own requests alone.
-/

namespace CleancacheRdma.Daemon

open Lib (System Ahead overlay)

/-! ## What was sent and what was answered -/

/-- The message of a step, if it is one on queue `q`. -/
def ServerStep.arrivalOn {Page : Type} (q : ℕ × ℕ) : ServerStep Page → Option (Arrival Page)
  | .send cid qid msg imm _ => if (cid, qid) = q then some (.send msg imm) else none
  | .writeImm cid qid off words imm _ =>
      if (cid, qid) = q then some (.writeImm off words imm) else none
  | .prePostRecvs _ _ | .recvMr _ | .evict _ _ | .allocateFromPeer _ => none

def QueuedStep.arrivalOn {Page : Type} (q : ℕ × ℕ) : QueuedStep Page → Option (Arrival Page)
  | .arrive cid qid x => if (cid, qid) = q then some x else none
  | .handle _ _ _ | .own _ => none

namespace Server

variable {Page : Type} (hash : HashFuncs) (exclusivePolicy : Bool)

/-- The replies of a run, with the queues they are sent on. -/
def repliesOf : Server Page → List (ServerStep Page) → List ((ℕ × ℕ) × Reply Page)
  | _, [] => []
  | s, a :: as =>
      match s.step hash exclusivePolicy a, a.queue with
      | none, _ => []
      | some (s', some r), some q => (q, r) :: repliesOf s' as
      | some (s', _), _ => repliesOf s' as

variable {hash exclusivePolicy} {s₀ s t : Server Page}

theorem repliesOf_append {as bs : List (ServerStep Page)}
    (h : (serverSystem hash exclusivePolicy s₀).exec s as = some t) :
    s.repliesOf hash exclusivePolicy (as ++ bs) =
      s.repliesOf hash exclusivePolicy as ++ t.repliesOf hash exclusivePolicy bs := by
  induction as generalizing s with
  | nil =>
      cases h
      rfl
  | cons a as ih =>
      obtain ⟨m, hstep, hrest⟩ := System.exec_cons_some.mp h
      obtain ⟨r, hs⟩ := serverSystem_step hstep
      rw [List.cons_append, repliesOf, repliesOf, hs]
      cases r with
      | none => exact ih hrest
      | some r =>
          cases a.queue with
          | none => exact ih hrest
          | some q => exact congrArg (List.cons (q, r)) (ih hrest)

/-- A message and its reply. -/
theorem repliesOf_singleton {a : ServerStep Page} {r : Option (Reply Page)} {q : ℕ × ℕ}
    (hqueue : a.queue = some q) (hs : s.step hash exclusivePolicy a = some (t, r)) :
    s.repliesOf hash exclusivePolicy [a] = r.toList.map fun r => (q, r) := by
  rw [repliesOf, hs, hqueue]
  cases r with
  | none => rfl
  | some r => rfl

theorem repliesOf_own {a : ServerStep Page} {r : Option (Reply Page)} (hqueue : a.queue = none)
    (hs : s.step hash exclusivePolicy a = some (t, r)) :
    s.repliesOf hash exclusivePolicy [a] = [] := by
  rw [repliesOf, hs, hqueue]
  cases r with
  | none => rfl
  | some r => rfl

end Server

/-! ## The daemon that lags behind -/

variable {Page : Type} {hash : HashFuncs} {exclusivePolicy : Bool} {s s' : QueuedServer Page}
  {t t' : Server Page} {cid qid : ℕ} {q : ℕ × ℕ} {c : Completion Page}

/-- A completion and the queue it waits on. -/
def QueuedServer.Waiting (s : QueuedServer Page) (i : (ℕ × ℕ) × Completion Page) : Prop :=
  i.2 ∈ s.cqs i.1

/-- The keys a waiting message is about are its client's. -/
def Completion.WellFormed (s : Server Page) (q : ℕ × ℕ) (c : Completion Page) : Prop :=
  match c.arrival with
  | .send msg _ => msg.WellFormed q.1 q.2
  | .writeImm _ _ imm => ∀ key ∈ s.requestKey q.1 q.2 imm, Usable key ∧ longkeyToCid key = q.1

/-- `t` is the daemon for which the messages that wait in `s` are still to come. -/
structure Lags (t : Server Page) (s : QueuedServer Page) : Prop where
  kv : t.kv = s.server.kv
  recvs : ∀ q, t.recvs q = (s.cqs q).map Completion.wrId ++ s.server.recvs q
  pages : Ahead (fun i : (ℕ × ℕ) × Completion Page => i.2.arrival.page i.2.wrId) s.Waiting
    t.mem s.server.mem
  words : Ahead (fun i : (ℕ × ℕ) × Completion Page => i.2.arrival.words i.1.1) s.Waiting
    (fun k => t.metaRegion k.1 k.2) (fun k => s.server.metaRegion k.1 k.2)
  bases : Ahead (fun i : (ℕ × ℕ) × Completion Page => i.2.arrival.base i.1.1) s.Waiting
    t.clientMR s.server.clientMR
  fits : ∀ q, ∀ c ∈ s.cqs q, c.arrival.Fits c.wrId
  known : ∀ q, ∀ c ∈ s.cqs q, q.1 < s.server.kv.pool.numClients ∧ q.2 < numQps
  wellFormed : ∀ q, ∀ c ∈ s.cqs q, c.WellFormed s.server q
  apart : ∀ q, (s.cqs q).Pairwise fun c c' => c.arrival.Apart q.2 q.2 c'.arrival
  apartFrom : ∀ q q', q ≠ q' → q.1 = q'.1 → ∀ c ∈ s.cqs q, ∀ c' ∈ s.cqs q',
    c.arrival.Apart q.2 q'.2 c'.arrival

namespace Lags

theorem init (t : Server Page) : Lags t { server := t } where
  kv := rfl
  recvs _ := rfl
  pages := .of_empty fun _ => List.not_mem_nil
  words := .of_empty fun _ => List.not_mem_nil
  bases := .of_empty fun _ => List.not_mem_nil
  fits _ _ hc := absurd hc List.not_mem_nil
  known _ _ hc := absurd hc List.not_mem_nil
  wellFormed _ _ hc := absurd hc List.not_mem_nil
  apart _ := List.Pairwise.nil
  apartFrom _ _ _ _ _ hc := absurd hc List.not_mem_nil

/-- With nothing waiting both are the same. -/
theorem eq_of_idle (h : Lags t s) (hidle : ∀ q, s.cqs q = []) : s.server = t := by
  have hnone : ∀ i, ¬ s.Waiting i := by
    intro i hi
    unfold QueuedServer.Waiting at hi
    rw [hidle] at hi
    exact List.not_mem_nil hi
  have hmem := h.pages.eq_of_empty hnone
  have hregion : s.server.metaRegion = t.metaRegion := by
    funext c k
    exact congrFun (h.words.eq_of_empty hnone) (c, k)
  have hmr := h.bases.eq_of_empty hnone
  have hrecvs : s.server.recvs = t.recvs := by
    ext1 q
    rw [h.recvs, hidle]
    rfl
  obtain ⟨kv, mem, region, mr, recvs⟩ := t
  cases hserver : s.server with
  | mk kv' mem' region' mr' recvs' =>
      have hkv := h.kv
      rw [hserver] at hmem hregion hmr hrecvs hkv
      simp only at hmem hregion hmr hrecvs hkv
      rw [hmem, hregion, hmr, hrecvs, hkv]

/-! ### Steps that no message causes -/

theorem after (h : Lags t s) {kv : KV} (hnum : kv.pool.numClients = s.server.kv.pool.numClients)
    (q : ℕ × ℕ) (post : List Value) (replies : List ((ℕ × ℕ) × Reply Page)) :
    Lags (t.after q kv post) { s with server := s.server.after q kv post, replies } where
  kv := rfl
  recvs q' := by
    by_cases hq : q' = q
    · subst hq
      rw [Server.after_recvs_self, h.recvs, List.append_assoc]
      exact congrArg _ (Server.after_recvs_self _ _ _ _).symm
    · rw [Server.after_recvs_of_ne _ hq, h.recvs]
      exact congrArg _ (Server.after_recvs_of_ne _ hq _ _).symm
  pages := h.pages
  words := h.words
  bases := h.bases
  fits := h.fits
  known q' c hc := by
    show q'.1 < kv.pool.numClients ∧ _
    rw [hnum]
    exact h.known q' c hc
  wellFormed := h.wellFormed
  apart := h.apart
  apartFrom := h.apartFrom

/-! ### Arrivals -/

/-- A receive with a buffer is taken by one message only. -/
theorem wrId_ne (h : Lags t s) (hone : t.SinglePlace) {q' : ℕ × ℕ}
    (hq : q.1 < s.server.kv.pool.numClients ∧ q.2 < numQps)
    (hq' : q'.1 < s.server.kv.pool.numClients ∧ q'.2 < numQps) {addr : Value} (hnull : addr ≠ NONE)
    (hfailed : addr ≠ FAILED) (hhead : addr ∈ s.server.recvs q) : ∀ c ∈ s.cqs q', c.wrId ≠ addr := by
  rintro c hc rfl
  have hle := hone c.wrId hnull hfailed
  have hposted : t.posted c.wrId ≤ 1 := Nat.le_trans (Nat.le_add_left _ _) hle
  have hwaits : c.wrId ∈ (s.cqs q').map Completion.wrId := List.mem_map.mpr ⟨c, hc, rfl⟩
  rw [← h.kv] at hq hq'
  have hqueue : q ∈ Server.queues t.kv.pool.numClients := Server.mem_queues hq.1 hq.2
  have hqueue' : q' ∈ Server.queues t.kv.pool.numClients := Server.mem_queues hq'.1 hq'.2
  by_cases hne : q' = q
  · subst hne
    have hcount := Lib.count_le_occurrences hqueue t.recvs c.wrId
    rw [h.recvs, List.count_append] at hcount
    have hfirst := List.count_pos_iff.mpr hwaits
    have hsecond := List.count_pos_iff.mpr hhead
    unfold Server.posted at hposted
    omega
  · have hpair := Finset.add_le_sum (f := fun i => (t.recvs i).count c.wrId)
      (fun _ _ => Nat.zero_le _) hqueue' hqueue hne
    have hfirst : 0 < (t.recvs q').count c.wrId := by
      rw [List.count_pos_iff, h.recvs]
      exact List.mem_append_left _ hwaits
    have hsecond : 0 < (t.recvs q).count c.wrId := by
      rw [List.count_pos_iff, h.recvs]
      exact List.mem_append_right _ hhead
    unfold Server.posted Lib.occurrences at hposted
    omega

theorem mem_update_append {f : ℕ × ℕ → List (Completion Page)} {i : (ℕ × ℕ) × Completion Page} :
    i.2 ∈ Function.update f q (f q ++ [c]) i.1 ↔ i = (q, c) ∨ i.2 ∈ f i.1 := by
  obtain ⟨q', c'⟩ := i
  by_cases hq : q' = q
  · subst hq
    simp [or_comm]
  · simp [hq]

theorem mem_cons_iff {f : ℕ × ℕ → List (Completion Page)} {rest : List (Completion Page)}
    (hf : f q = c :: rest) {i : (ℕ × ℕ) × Completion Page} :
    i.2 ∈ f i.1 ↔ i = (q, c) ∨ i.2 ∈ Function.update f q rest i.1 := by
  obtain ⟨q', c'⟩ := i
  by_cases hq : q' = q
  · subst hq
    simp [hf]
  · simp [hq]

theorem requestKey_congr {s t : Server Page} {imm : BitVec 32}
    (h : ∀ k ∈ requestCells qid imm, t.metaRegion cid k = s.metaRegion cid k) :
    t.requestKey cid qid imm = s.requestKey cid qid imm := by
  unfold requestCells at h
  unfold Server.requestKey Server.readKey Server.invKey
  cases htype : MsgType.ofCode (bitUnmask (ntohl imm)).msg with
  | none => rfl
  | some m =>
      cases m with
      | read =>
          simp only [htype] at h ⊢
          rw [h _ (by simp)]
      | invPage =>
          simp only [htype] at h ⊢
          rw [h _ (List.mem_singleton.mpr rfl)]
      | _ => rfl

/-- A message that may arrive is apart from those of its client that wait. -/
theorem apart_of_orderly (h : Lags t s) {x : Arrival Page} (hok : s.Orderly (.arrive cid qid x))
    {i : (ℕ × ℕ) × Completion Page} (hi : s.Waiting i) (hcid : i.1.1 = cid) :
    x.Apart qid i.1.2 i.2.arrival := by
  obtain ⟨⟨a, b⟩, c⟩ := i
  cases hcid
  exact hok.2 b (h.known _ c hi).2 c hi

theorem wellFormed_landed (h : Lags t s) {x : Arrival Page} (hok : s.Orderly (.arrive cid qid x))
    (addr : Value) (hi : c ∈ s.cqs q) :
    c.WellFormed ((s.server.popRecv cid qid).landed cid addr x) q := by
  have hold := h.wellFormed q c hi
  unfold Completion.WellFormed at hold ⊢
  obtain ⟨wrId, y⟩ := c
  cases y with
  | send msg imm => exact hold
  | writeImm off ws imm =>
      have hsame : ((s.server.popRecv cid qid).landed cid addr x).requestKey q.1 q.2 imm =
          s.server.requestKey q.1 q.2 imm := by
        refine requestKey_congr fun k hk => ?_
        refine Lib.overlay_none (f := fun k : ℕ × ℕ => s.server.metaRegion k.1 k.2)
          (k := (q.1, k)) ?_
        by_contra hne
        have hcid := (Arrival.mem_cells_of_words hne).1
        exact hne ((h.apart_of_orderly hok (i := (q, _)) hi hcid).reads_none hk)
      dsimp only
      rw [hsame]
      exact hold

theorem wellFormed_arrived {x : Arrival Page} (hok : s.Orderly (.arrive cid qid x)) (addr : Value) :
    (⟨addr, x⟩ : Completion Page).WellFormed ((s.server.popRecv cid qid).landed cid addr x)
      (cid, qid) := by
  have hwf := hok.1
  cases x with
  | send msg imm => exact hwf.2.2
  | writeImm off ws imm =>
      unfold Completion.WellFormed
      dsimp only
      rw [← Server.remoteWrite_eq]
      exact hwf.2.2

theorem known_arrived {x : Arrival Page} (hok : s.Orderly (.arrive cid qid x)) :
    cid < s.server.kv.pool.numClients ∧ qid < numQps := by
  have hwf := hok.1
  cases x with
  | send msg imm => exact ⟨hwf.1, hwf.2.1⟩
  | writeImm off ws imm => exact ⟨hwf.1, hwf.2.1⟩

theorem arrive (h : Lags t s) (hone : t.SinglePlace) {x : Arrival Page}
    (hok : s.Orderly (.arrive cid qid x)) {addr : Value}
    (hhead : (s.server.recvs (cid, qid)).head? = some addr) (hfits : x.Fits addr) :
    Lags t { s with
      server := (s.server.popRecv cid qid).landed cid addr x
      cqs := Function.update s.cqs (cid, qid) (s.cqs (cid, qid) ++ [⟨addr, x⟩]) } := by
  have hmem : ∀ {q : ℕ × ℕ} {c : Completion Page},
      c ∈ Function.update s.cqs (cid, qid) (s.cqs (cid, qid) ++ [⟨addr, x⟩]) q →
        (q, c) = ((cid, qid), ⟨addr, x⟩) ∨ c ∈ s.cqs q :=
    fun {q c} hc => (mem_update_append (i := (q, c))).mp hc
  have hknown := known_arrived hok
  refine ⟨h.kv, ?_, ?_, ?_, ?_, ?_, ?_, ?_, ?_, ?_⟩
  · intro q
    rw [h.recvs]
    by_cases hq : q = (cid, qid)
    · subst hq
      obtain ⟨l, hl⟩ := List.head?_eq_some_iff.mp hhead
      simp [Server.landed, Server.popRecv, hl]
    · simp [Server.landed, Server.popRecv, hq]
  · refine h.pages.push (j := ((cid, qid), ⟨addr, x⟩)) (fun i => mem_update_append) ?_
    intro i hi k hk
    obtain ⟨rfl, hnull, hfailed⟩ := Arrival.fits_of_page hfits hk
    by_contra hother
    have haddr := (Arrival.fits_of_page (h.fits _ _ hi) hother).1
    exact h.wrId_ne hone (q := (cid, qid)) hknown (h.known _ _ hi) hnull hfailed
      (List.mem_of_mem_head? hhead) _ hi haddr.symm
  · refine h.words.push (j := ((cid, qid), ⟨addr, x⟩)) (fun i => mem_update_append) ?_
    intro i hi k hk
    by_contra hother
    have hcid := (Arrival.mem_cells_of_words hk).1
    have hcid' := (Arrival.mem_cells_of_words hother).1
    exact hother ((h.apart_of_orderly hok hi (hcid'.symm.trans hcid)).words_none hk)
  · refine h.bases.push (j := ((cid, qid), ⟨addr, x⟩)) (fun i => mem_update_append) ?_
    intro i hi k hk
    by_contra hother
    have hcid := (Arrival.isMmInfo_of_base hk).1
    have hcid' := (Arrival.isMmInfo_of_base hother).1
    exact hother ((h.apart_of_orderly hok hi (hcid'.symm.trans hcid)).base_none hk)
  · intro q c hc
    rcases hmem hc with he | hc
    · cases he
      exact hfits
    · exact h.fits q c hc
  · intro q c hc
    rcases hmem hc with he | hc
    · cases he
      exact hknown
    · exact h.known q c hc
  · intro q c hc
    rcases hmem hc with he | hc
    · cases he
      exact wellFormed_arrived hok addr
    · exact h.wellFormed_landed hok addr hc
  · intro q
    by_cases hq : q = (cid, qid)
    · subst hq
      dsimp only
      rw [Function.update_self]
      refine List.pairwise_append.mpr ⟨h.apart (cid, qid), List.pairwise_singleton _ _, ?_⟩
      intro c hc c' hc'
      cases List.mem_singleton.mp hc'
      exact (h.apart_of_orderly hok (i := ((cid, qid), c)) hc rfl).symm
    · dsimp only
      rw [Function.update_of_ne hq]
      exact h.apart q
  · intro q q' hne hcid c hc c' hc'
    rcases hmem hc with he | hc
    · cases he
      rcases hmem hc' with he | hc'
      · cases he
        exact absurd rfl hne
      · exact h.apart_of_orderly hok (i := (q', c')) hc' hcid.symm
    · rcases hmem hc' with he | hc'
      · cases he
        exact (h.apart_of_orderly hok (i := (q, c)) hc hcid).symm
      · exact h.apartFrom q q' hne hcid c hc c' hc'

/-! ### Handlers -/

/-- The others that wait are apart from the oldest of a queue. -/
theorem apart_rest (h : Lags t s) {rest : List (Completion Page)}
    (hcq : s.cqs (cid, qid) = c :: rest) {i : (ℕ × ℕ) × Completion Page}
    (hi : i.2 ∈ Function.update s.cqs (cid, qid) rest i.1) (hcid : i.1.1 = cid) :
    i.2.arrival.Apart i.1.2 qid c.arrival := by
  obtain ⟨q, c'⟩ := i
  by_cases hq : q = (cid, qid)
  · subst hq
    rw [Function.update_self] at hi
    have hpair := h.apart (cid, qid)
    rw [hcq] at hpair
    exact (List.rel_of_pairwise_cons hpair hi).symm
  · rw [Function.update_of_ne hq] at hi
    exact h.apartFrom q (cid, qid) hq hcid c' hi c (by rw [hcq]; exact List.mem_cons_self)

/-- The oldest message of a queue reaches the daemon that lags behind. -/
theorem catchUp (h : Lags t s) {rest : List (Completion Page)}
    (hcq : s.cqs (cid, qid) = c :: rest) :
    Lags ((t.popRecv cid qid).landed cid c.wrId c.arrival)
      { s with cqs := Function.update s.cqs (cid, qid) rest } := by
  have hsub : ∀ {q : ℕ × ℕ} {c' : Completion Page},
      c' ∈ Function.update s.cqs (cid, qid) rest q → c' ∈ s.cqs q :=
    fun {q c'} hc' => (mem_cons_iff hcq (i := (q, c'))).mpr (Or.inr hc')
  refine ⟨h.kv, ?_, ?_, ?_, ?_, ?_, ?_, ?_, ?_, ?_⟩
  · intro q
    have hrecvs := h.recvs q
    by_cases hq : q = (cid, qid)
    · subst hq
      rw [hcq] at hrecvs
      simp [Server.landed, Server.popRecv, hrecvs]
    · simp [Server.landed, Server.popRecv, hq, hrecvs]
  · exact h.pages.pop (j := ((cid, qid), c)) fun i => mem_cons_iff hcq
  · exact h.words.pop (j := ((cid, qid), c)) fun i => mem_cons_iff hcq
  · exact h.bases.pop (j := ((cid, qid), c)) fun i => mem_cons_iff hcq
  · exact fun q c' hc' => h.fits q c' (hsub hc')
  · exact fun q c' hc' => h.known q c' (hsub hc')
  · exact fun q c' hc' => h.wellFormed q c' (hsub hc')
  · intro q
    by_cases hq : q = (cid, qid)
    · subst hq
      dsimp only
      rw [Function.update_self]
      have hpair := h.apart (cid, qid)
      rw [hcq] at hpair
      exact hpair.of_cons
    · dsimp only
      rw [Function.update_of_ne hq]
      exact h.apart q
  · exact fun q q' hne hcid c' hc' d hd => h.apartFrom q q' hne hcid c' (hsub hc') d (hsub hd)

/-- The words a handler reads are those its own message brought, or older ones. -/
theorem reads_eq (h : Lags t s) {rest : List (Completion Page)}
    (hcq : s.cqs (cid, qid) = c :: rest) {k : ℕ} (hk : k ∈ c.arrival.reads qid) :
    ((t.popRecv cid qid).landed cid c.wrId c.arrival).metaRegion cid k =
      s.server.metaRegion cid k := by
  refine ((h.catchUp hcq).words.same (cid, k) fun i hi => ?_).symm
  by_contra hne
  have hcid := (Arrival.mem_cells_of_words hne).1
  exact hne ((h.apart_rest hcq hi hcid.symm).reads_none hk)

/-- Both daemons show the handler of the oldest message the same. -/
theorem agrees (h : Lags t s) (hinv : t.Inv hash) (hone : t.SinglePlace)
    {rest : List (Completion Page)} (hcq : s.cqs (cid, qid) = c :: rest) :
    s.server.Agrees hash cid qid c ((t.popRecv cid qid).landed cid c.wrId c.arrival) where
  kv := h.kv
  page msg imm harrival := by
    have hc : c ∈ s.cqs (cid, qid) := by rw [hcq]; exact List.mem_cons_self
    cases hpage : c.arrival.page c.wrId c.wrId with
    | some b =>
        have hseen := h.pages.seen ((cid, qid), c) hc c.wrId b hpage
        rw [hseen]
        exact Lib.overlay_some hpage
    | none =>
        refine ((h.catchUp hcq).pages.same c.wrId fun i hi => ?_).symm
        by_contra hne
        -- without a page the receive has no buffer
        have hnone : c.wrId = NONE := by
          have hfits := h.fits (cid, qid) c hc
          rw [harrival] at hpage hfits
          cases msg with
          | slot b => simp [Arrival.page] at hpage
          | mmInfo baseaddr => exact hfits
          | empty => exact hfits
        obtain ⟨heq, hnull, -⟩ :=
          Arrival.fits_of_page (h.fits _ _ ((mem_cons_iff hcq).mpr (Or.inr hi))) hne
        exact hnull (heq.symm.trans hnone)
  stored key p hview := by
    refine ((h.catchUp hcq).pages.same p fun i hi => ?_).symm
    by_contra hne
    have hi' : s.Waiting i := (mem_cons_iff hcq).mpr (Or.inr hi)
    obtain ⟨rfl, hnull, hfailed⟩ := Arrival.fits_of_page (h.fits _ _ hi') hne
    have hposted := (hone.of_view hinv hnull hfailed (by rw [h.kv]; exact hview)).2
    have hqueue : i.1 ∈ Server.queues t.kv.pool.numClients := by
      have hknown := h.known _ _ hi'
      rw [← h.kv] at hknown
      exact Server.mem_queues hknown.1 hknown.2
    have hcount := Lib.count_le_occurrences hqueue t.recvs i.2.wrId
    have hpos : 0 < (t.recvs i.1).count i.2.wrId := by
      rw [List.count_pos_iff, h.recvs]
      exact List.mem_append_left _ (List.mem_map.mpr ⟨i.2, hi', rfl⟩)
    unfold Server.posted at hposted
    omega
  reads k hk := h.reads_eq hcq hk
  asks hask := by
    refine ((h.catchUp hcq).bases.same cid fun i hi => ?_).symm
    by_contra hne
    obtain ⟨hcid, hinfo⟩ := Arrival.isMmInfo_of_base hne
    exact (h.apart_rest hcq hi hcid.symm).base.1 ⟨hinfo, Or.inr hask⟩

end Lags

/-! ## The run -/

/-- The step of the other daemon that handles the oldest message of a queue. -/
theorem Lags.handle (h : Lags t s) (hinv : t.Inv hash) (hone : t.SinglePlace) {d : Draw}
    (hstep : s.step hash exclusivePolicy (.handle cid qid d) = some s') :
    ∃ c rest t' r, s.cqs (cid, qid) = c :: rest ∧ s'.cqs = Function.update s.cqs (cid, qid) rest ∧
      s'.replies = s.replies ++ r.toList.map (fun r => ((cid, qid), r)) ∧
      t.WellFormed (c.arrival.atOnce cid qid d) ∧
      t.step hash exclusivePolicy (c.arrival.atOnce cid qid d) = some (t', r) ∧ Lags t' s' := by
  obtain ⟨c, rest, server, r, hcq, hprocess, rfl⟩ := QueuedServer.step_handle hstep
  have hc : c ∈ s.cqs (cid, qid) := by rw [hcq]; exact List.mem_cons_self
  have hfits := h.fits (cid, qid) c hc
  have hhead : (t.recvs (cid, qid)).head? = some c.wrId := by
    rw [h.recvs, hcq]
    rfl
  have hkeys : ∀ off ws imm, c.arrival = .writeImm off ws imm →
      ∀ key ∈ s.server.requestKey cid qid imm, Usable key ∧ longkeyToCid key = cid := by
    intro off ws imm harrival
    have hwf := h.wellFormed (cid, qid) c hc
    unfold Completion.WellFormed at hwf
    rw [harrival] at hwf
    exact hwf
  have htable : s.server.kv.table.TableInv (hash 0) := by
    rw [← h.kv]
    exact hinv.kv.table
  obtain ⟨kv, post, rfl, hsame⟩ := Server.process_congr (h.agrees hinv hone hcq) htable
    (fun off ws imm harrival key hkey => (hkeys off ws imm harrival key hkey).1) hprocess
  have hatOnce : t.step hash exclusivePolicy (c.arrival.atOnce cid qid d) =
      some (((t.popRecv cid qid).landed cid c.wrId c.arrival).after (cid, qid) kv post, r) :=
    (Server.step_atOnce hhead hfits).trans hsame
  have hwf : t.WellFormed (c.arrival.atOnce cid qid d) := by
    have hknown := h.known (cid, qid) c hc
    rw [← h.kv] at hknown
    have hreads := fun k hk => h.reads_eq (k := k) hcq hk
    have hmsg := h.wellFormed (cid, qid) c hc
    unfold Completion.WellFormed at hmsg
    cases harrival : c.arrival with
    | send msg imm =>
        rw [harrival] at hmsg
        exact ⟨hknown.1, hknown.2, hmsg⟩
    | writeImm off ws imm =>
        rw [harrival] at hreads
        refine ⟨hknown.1, hknown.2, ?_⟩
        have hlanded : t.remoteWrite cid off ws = t.landed cid c.wrId (.writeImm off ws imm) :=
          Server.remoteWrite_eq off ws imm
        rw [hlanded]
        rw [show (t.landed cid c.wrId (.writeImm off ws imm)).requestKey cid qid imm =
          s.server.requestKey cid qid imm from Lags.requestKey_congr hreads]
        exact hkeys off ws imm harrival
  refine ⟨c, rest, _, r, hcq, rfl, rfl, hwf, hatOnce, ?_⟩
  refine (h.catchUp hcq).after ?_ (cid, qid) post _
  have hnum := (hinv.step hwf hatOnce).numClients
  rw [← h.kv]
  exact hnum

/-- Between the run of the daemon and that of the one that does everything at
once: the same replies, and on every queue the same messages in the same order,
less those that still wait. -/
structure Owes (hash : HashFuncs) (exclusivePolicy : Bool) (s₀ : Server Page)
    (as : List (QueuedStep Page)) (bs : List (ServerStep Page)) (s : QueuedServer Page)
    (t : Server Page) : Prop where
  inv : t.Inv hash
  single : t.SinglePlace
  lags : Lags t s
  replies : s.replies = s₀.repliesOf hash exclusivePolicy bs
  inOrder : ∀ q, bs.filterMap (ServerStep.arrivalOn q) ++ (s.cqs q).map Completion.arrival =
    as.filterMap (QueuedStep.arrivalOn q)

theorem Owes.init {s₀ : Server Page} (hinv : s₀.Inv hash) (hone : s₀.SinglePlace) :
    Owes hash exclusivePolicy s₀ [] [] { server := s₀ } s₀ where
  inv := hinv
  single := hone
  lags := .init s₀
  replies := rfl
  inOrder _ := rfl

theorem Owes.arrive {s₀ : Server Page} {as : List (QueuedStep Page)} {bs : List (ServerStep Page)}
    (h : Owes hash exclusivePolicy s₀ as bs s t) {x : Arrival Page}
    (hok : s.Orderly (.arrive cid qid x))
    (hstep : s.step hash exclusivePolicy (.arrive cid qid x) = some s') :
    Owes hash exclusivePolicy s₀ (as ++ [.arrive cid qid x]) bs s' t := by
  obtain ⟨addr, server, hhead, hland, rfl⟩ := QueuedServer.step_arrive hstep
  have hfits := Server.fits_of_land hland
  cases (Server.land_of_fits hfits).symm.trans hland
  refine ⟨h.inv, h.single, h.lags.arrive h.single hok hhead hfits, h.replies, fun q => ?_⟩
  rw [List.filterMap_append, ← h.inOrder q, List.append_assoc]
  by_cases hq : (cid, qid) = q
  · subst hq
    simp [QueuedStep.arrivalOn]
  · simp [QueuedStep.arrivalOn, hq, Ne.symm hq]

theorem Owes.handle {s₀ : Server Page} {as : List (QueuedStep Page)} {bs : List (ServerStep Page)}
    (h : Owes hash exclusivePolicy s₀ as bs s t)
    (hexec : (serverSystem hash exclusivePolicy s₀).exec s₀ bs = some t) {d : Draw}
    (hstep : s.step hash exclusivePolicy (.handle cid qid d) = some s') :
    ∃ b t', t.WellFormed b ∧ (serverSystem hash exclusivePolicy s₀).step t b = some t' ∧
      Owes hash exclusivePolicy s₀ (as ++ [.handle cid qid d]) (bs ++ [b]) s' t' := by
  obtain ⟨c, rest, t', r, hcq, hcqs, hreplies, hwf, htstep, hlags⟩ :=
    h.lags.handle h.inv h.single hstep
  have hfollows := h.inv.step hwf htstep
  have hqueue : (c.arrival.atOnce cid qid d).queue = some (cid, qid) := by
    cases c.arrival with
    | send msg imm => rfl
    | writeImm off ws imm => rfl
  have harrival : ∀ q, (c.arrival.atOnce cid qid d).arrivalOn q =
      if (cid, qid) = q then some c.arrival else none := by
    intro q
    cases c.arrival with
    | send msg imm => rfl
    | writeImm off ws imm => rfl
  refine ⟨c.arrival.atOnce cid qid d, t', hwf, ?_, hfollows.inv, h.single.of_follows hfollows,
    hlags, ?_, fun q => ?_⟩
  · simp only [serverSystem, htstep, Option.map_some]
  · rw [hreplies, h.replies, Server.repliesOf_append hexec,
      Server.repliesOf_singleton hqueue htstep]
  · have horder := h.inOrder q
    rw [List.filterMap_append, List.filterMap_append, hcqs]
    by_cases hq : (cid, qid) = q
    · subst hq
      rw [hcq] at horder
      simpa [harrival, List.filterMap_cons, QueuedStep.arrivalOn] using horder
    · simpa [harrival, List.filterMap_cons, QueuedStep.arrivalOn, hq, Ne.symm hq] using horder

theorem Owes.own {s₀ : Server Page} {as : List (QueuedStep Page)} {bs : List (ServerStep Page)}
    (h : Owes hash exclusivePolicy s₀ as bs s t)
    (hexec : (serverSystem hash exclusivePolicy s₀).exec s₀ bs = some t) {a : ServerStep Page}
    (hok : s.Orderly (.own a)) (hstep : s.step hash exclusivePolicy (.own a) = some s') :
    ∃ t', t.WellFormed a ∧ (serverSystem hash exclusivePolicy s₀).step t a = some t' ∧
      Owes hash exclusivePolicy s₀ (as ++ [.own a]) (bs ++ [a]) s' t' := by
  obtain ⟨hqueue, server, r, hs, rfl⟩ := QueuedServer.step_own hstep
  obtain ⟨q, kv, post, rfl, htstep⟩ := Server.step_own_congr h.lags.kv hqueue hs
  have hwf : t.WellFormed a := by
    have hok : s.server.WellFormed a := hok
    have hkv := h.lags.kv
    cases a with
    | prePostRecvs c i => exact ⟨hkv ▸ hok.1, hok.2⟩
    | recvMr c =>
        show c < t.kv.pool.numClients
        rw [hkv]
        exact hok
    | send c i msg imm d => cases hqueue
    | writeImm c i off ws imm d => cases hqueue
    | evict draws rand => trivial
    | allocateFromPeer fl =>
        show fl < t.kv.pool.totalFl
        rw [hkv]
        exact hok
  have hfollows := h.inv.step hwf htstep
  have hnum : kv.pool.numClients = s.server.kv.pool.numClients := by
    rw [← h.lags.kv]
    exact hfollows.numClients
  refine ⟨_, hwf, ?_, hfollows.inv, h.single.of_follows hfollows,
    h.lags.after hnum q post s.replies, ?_, fun q => ?_⟩
  · simp only [serverSystem, htstep, Option.map_some]
  · rw [Server.repliesOf_append hexec, Server.repliesOf_own hqueue htstep, List.append_nil]
    exact h.replies
  · have hnone : a.arrivalOn q = none := by
      cases a with
      | send c i msg imm d => cases hqueue
      | writeImm c i off ws imm d => cases hqueue
      | _ => rfl
    rw [List.filterMap_append, List.filterMap_append]
    simpa [hnone, List.filterMap_cons, QueuedStep.arrivalOn] using h.inOrder q

/-- The run `bs` handles the messages that the run to `s` has handled, each
when it arrives. -/
structure AtOnce (hash : HashFuncs) (exclusivePolicy : Bool) (s₀ : Server Page)
    (as : List (QueuedStep Page)) (bs : List (ServerStep Page)) (s : QueuedServer Page)
    (t : Server Page) : Prop where
  wellFormed : (serverSystem hash exclusivePolicy s₀).Meets Server.WellFormed s₀ bs
  run : (serverSystem hash exclusivePolicy s₀).exec s₀ bs = some t
  store : t.kv = s.server.kv
  replies : s₀.repliesOf hash exclusivePolicy bs = s.replies
  inOrder : ∀ q, bs.filterMap (ServerStep.arrivalOn q) ++ (s.cqs q).map Completion.arrival =
    as.filterMap (QueuedStep.arrivalOn q)
  idle : (∀ q, s.cqs q = []) → s.server = t

theorem exec_atOnce {s₀ : Server Page} (hinv : s₀.Inv hash) (hone : s₀.SinglePlace)
    {as : List (QueuedStep Page)} {s : QueuedServer Page}
    (hok : (queuedSystem hash exclusivePolicy s₀).Meets QueuedServer.Orderly { server := s₀ } as)
    (hrun : (queuedSystem hash exclusivePolicy s₀).exec { server := s₀ } as = some s) :
    ∃ bs t, AtOnce hash exclusivePolicy s₀ as bs s t := by
  obtain ⟨bs, t, hwf, hexec, howes⟩ := System.simulates (Q := Server.WellFormed)
    (R := Owes hash exclusivePolicy s₀)
    (fun as bs m n a m' hrel hexec hok hstep => by
      cases a with
      | arrive cid qid x =>
          refine ⟨[], n, trivial, rfl, ?_⟩
          rw [List.append_nil]
          exact hrel.arrive hok hstep
      | handle cid qid d =>
          obtain ⟨b, n', hwf, hn, hrel'⟩ := hrel.handle hexec hstep
          exact ⟨[b], n', ⟨hwf, fun _ _ => trivial⟩, System.exec_cons_some.mpr ⟨n', hn, rfl⟩, hrel'⟩
      | own a =>
          obtain ⟨n', hwf, hn, hrel'⟩ := hrel.own hexec hok hstep
          exact ⟨[a], n', ⟨hwf, fun _ _ => trivial⟩, System.exec_cons_some.mpr ⟨n', hn, rfl⟩, hrel'⟩)
    (.init hinv hone) hok hrun
  exact ⟨bs, t, hwf, hexec, howes.lags.kv, howes.replies.symm, howes.inOrder, howes.lags.eq_of_idle⟩

/-- Whenever and in whatever order the queues are served, the replies and the
store are those of a run in which messages do not wait. -/
theorem handled_at_once (hash : HashFuncs) (exclusivePolicy : Bool) (startAddr : Value)
    (memPoolSize numClients numHash numBits : ℕ) (mem : Value → Slot Page)
    {as : List (QueuedStep Page)} {s : QueuedServer Page}
    (hok : (queuedSystem hash exclusivePolicy
      (.new startAddr memPoolSize numClients numHash numBits mem)).Meets QueuedServer.Orderly
      { server := .new startAddr memPoolSize numClients numHash numBits mem } as)
    (hrun : (queuedSystem hash exclusivePolicy
      (.new startAddr memPoolSize numClients numHash numBits mem)).exec
      { server := .new startAddr memPoolSize numClients numHash numBits mem } as = some s) :
    ∃ bs t, AtOnce hash exclusivePolicy
      (.new startAddr memPoolSize numClients numHash numBits mem) as bs s t :=
  exec_atOnce (Server.new_inv startAddr memPoolSize numClients numHash numBits mem)
    (Server.new_singlePlace startAddr memPoolSize numClients numHash numBits mem) hok hrun

/-! ## A get that overtakes a put -/

/-- The start-up of `startUp`, with the message of the connection in the queue
for a moment. -/
def queuedStartUp : List (QueuedStep ℕ) :=
  [.own (.recvMr 0), .arrive 0 0 (.send (.mmInfo 1) 0), .handle 0 0 {}, .own (.prePostRecvs 0 0),
   .own (.prePostRecvs 0 2)]

/-- The daemon behind it, with the server `server`. -/
def behindStartUp (server : Server ℕ) : QueuedServer ℕ where
  server
  cqs := Function.update (Function.update (fun _ => []) (0, 0) [⟨NONE, .send (.mmInfo 1) 0⟩])
    (0, 0) []

/-- The put arrives first, and the get of the same key is handled first. -/
def overtaken : List (QueuedStep ℕ) :=
  [.arrive 0 0 (.send (.slot ⟨7, 1⟩) (immOf .write)),
   .arrive 0 2 (.writeImm (readKeyOffset 2) [1, 0x1000] (immOf .read)),
   .handle 0 2 {}, .handle 0 0 { rand := 6, inserts := [{}, {}] },
   .arrive 0 2 (.writeImm (readKeyOffset 2) [1, 0x1000] (immOf .read)), .handle 0 2 {}]

theorem queuedStartUp_trace :
    (queuedSystem keyHash true smallServer).Meets QueuedServer.Orderly { server := smallServer }
      queuedStartUp ∧
    (queuedSystem keyHash true smallServer).exec { server := smallServer } queuedStartUp =
      some (behindStartUp started) := by
  have hpost : ∀ {a b : Server ℕ} {qid : ℕ}, a.prePostRecvs 0 qid = b →
      (queuedSystem keyHash true smallServer).step (behindStartUp a) (.own (.prePostRecvs 0 qid)) =
        some (behindStartUp b) := by
    intro a b qid hab
    simp only [queuedSystem, QueuedServer.step, ServerStep.queue, Server.step, Option.map_some,
      behindStartUp, hab]
  have hput : connected.prePostRecvs 0 0 = connected.postRest 0 4 :=
    Server.prePostRecvs_exhausted (by decide) (n := 4) (by decide) rfl
      (Option.isNone_iff_eq_none.mp (by decide +kernel))
  have hget : (connected.postRest 0 4).prePostRecvs 0 2 = started :=
    Server.prePostRecvs_exhausted (by decide) (n := 2) (by decide) rfl
      (Option.isNone_iff_eq_none.mp (by decide +kernel))
  refine System.trace_cons (by decide) rfl (System.trace_cons (by decide) rfl ?_)
  refine System.trace_cons (m := behindStartUp connected) trivial rfl ?_
  refine System.trace_cons (m := behindStartUp (connected.postRest 0 4)) (by decide) (hpost hput)
    (System.trace_cons (by decide +kernel) (hpost hget) ⟨trivial, rfl⟩)

/-- The run with the messages at once has the get in front of the put. -/
theorem handled_at_once_overtaken :
    ∃ s, (queuedSystem keyHash true smallServer).exec { server := smallServer }
        (queuedStartUp ++ overtaken) = some s ∧
      s.replies.map (fun r => r.2.payload) = [.empty, .page 7] ∧
      ∃ bs t, AtOnce keyHash true smallServer (queuedStartUp ++ overtaken) bs s t := by
  obtain ⟨hok, hstart⟩ := queuedStartUp_trace
  have hreplies : ((queuedSystem keyHash true smallServer).exec (behindStartUp started)
      overtaken).map (fun s => s.replies.map fun r => r.2.payload) = some [.empty, .page 7] := by
    decide +kernel
  obtain ⟨s, hrun, hs⟩ := Option.map_eq_some_iff.mp hreplies
  have hexec := System.exec_append_some.mpr ⟨behindStartUp started, hstart, hrun⟩
  exact ⟨s, hexec, hs, handled_at_once keyHash true 4096 1048576 16 1 8 _
    (System.meets_append hok hstart (by decide +kernel)) hexec⟩

end CleancacheRdma.Daemon
