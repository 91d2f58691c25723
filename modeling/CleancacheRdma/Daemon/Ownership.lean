import Mathlib
import CleancacheRdma.Daemon.Pages
import CleancacheRdma.Daemon.Rdma

/-!
# A page is in one place

Free lists, table values and posted receives together hold every page of the
pool at most once, in every run of the daemon. A step takes pages out of one of
the three before it puts them into another; what it holds in between is the
receive that completed and the page `Allocate` handed out.
-/

namespace CleancacheRdma.Daemon

open Lib (System occurrences)

/-! ## Steps of the clients -/

/-- Pages are sent on the data queues, with keys that carry the client. -/
def Message.WellFormed {Page : Type} (cid qid : ℕ) : Message Page → Prop
  | .slot b => qid < numDataQps ∧ Usable b.key ∧ longkeyToCid b.key = cid
  | .mmInfo _ => True
  | .empty => True

instance {Page : Type} (cid qid : ℕ) : (msg : Message Page) → Decidable (msg.WellFormed cid qid)
  | .slot _ => inferInstanceAs (Decidable (_ ∧ _ ∧ _))
  | .mmInfo _ => isTrue trivial
  | .empty => isTrue trivial

namespace Server

variable {Page : Type} {hash : HashFuncs} {exclusivePolicy : Bool} {s s' s'' : Server Page}

/-- Queues and clients exist, keys are not reserved and carry their client. -/
def WellFormed (s : Server Page) : ServerStep Page → Prop
  | .prePostRecvs cid qid => cid < s.kv.pool.numClients ∧ qid < numQps
  | .recvMr cid => cid < s.kv.pool.numClients
  | .send cid qid msg _ _ => cid < s.kv.pool.numClients ∧ qid < numQps ∧ msg.WellFormed cid qid
  | .writeImm cid qid off words imm _ => cid < s.kv.pool.numClients ∧ qid < numQps ∧
      ∀ key ∈ (s.remoteWrite cid off words).requestKey cid qid imm,
        Usable key ∧ longkeyToCid key = cid
  | .evict _ _ => True
  | .allocateFromPeer fl => fl < s.kv.pool.totalFl

instance : (a : ServerStep Page) → Decidable (s.WellFormed a)
  | .prePostRecvs _ _ => inferInstanceAs (Decidable (_ ∧ _))
  | .recvMr _ => inferInstanceAs (Decidable (_ < _))
  | .send _ _ _ _ _ => inferInstanceAs (Decidable (_ ∧ _ ∧ _))
  | .writeImm cid qid off words imm _ =>
      have := Option.decidableForallMem (p := fun key => Usable key ∧ longkeyToCid key = cid)
        ((s.remoteWrite cid off words).requestKey cid qid imm)
      inferInstanceAs (Decidable (_ ∧ _ ∧ _))
  | .evict _ _ => isTrue trivial
  | .allocateFromPeer _ => inferInstanceAs (Decidable (_ < _))

/-! ## Places -/

def queues (numClients : ℕ) : Finset (ℕ × ℕ) := Finset.range numClients ×ˢ Finset.range numQps

theorem mem_queues {numClients cid qid : ℕ} (hcid : cid < numClients) (hqid : qid < numQps) :
    (cid, qid) ∈ queues numClients :=
  Finset.mem_product.mpr ⟨Finset.mem_range.mpr hcid, Finset.mem_range.mpr hqid⟩

/-- How often an address is in a posted receive. -/
def posted (s : Server Page) (p : Value) : ℕ :=
  occurrences (queues s.kv.pool.numClients) s.recvs p

/-- How often an address is on a free list, the value of a valid bucket, or in
a posted receive. -/
def places (s : Server Page) (p : Value) : ℕ := s.kv.places p + s.posted p

structure Inv (hash : HashFuncs) (s : Server Page) : Prop where
  kv : s.kv.Inv hash
  perCliFl : s.kv.pool.perCliFl = numDataQps

/-- `s'` has the invariant and the shape of `s`. Of the addresses that a page
can have it holds none more often than `s` and `extra` together. -/
structure Follows (hash : HashFuncs) (s s' : Server Page) (extra : Value → ℕ) : Prop where
  inv : s'.Inv hash
  numClients : s'.kv.pool.numClients = s.kv.pool.numClients
  places : ∀ p, p ≠ NONE → p ≠ FAILED → s'.places p ≤ s.places p + extra p

theorem Follows.refl (h : s.Inv hash) : Follows hash s s fun _ => 0 :=
  ⟨h, rfl, fun _ _ _ => Nat.le_refl _⟩

theorem Follows.trans {e e' : Value → ℕ} (h : Follows hash s s' e)
    (h' : Follows hash s' s'' e') : Follows hash s s'' fun p => e p + e' p where
  inv := h'.inv
  numClients := h'.numClients.trans h.numClients
  places p hnull hfailed := by
    have := h.places p hnull hfailed
    have := h'.places p hnull hfailed
    omega

/-- What the store does alone. -/
theorem Follows.of_kv {kv : KV} {e : Value → ℕ} (h : s.Inv hash)
    (hkv : KV.Follows hash s.kv kv e) : Follows hash s { s with kv } e where
  inv := ⟨hkv.inv, hkv.perCliFl.trans h.perCliFl⟩
  numClients := hkv.numClients
  places p _ _ := by
    have hplaces := hkv.places p
    have hposted : ({ s with kv } : Server Page).posted p = s.posted p := by
      show occurrences (queues kv.pool.numClients) s.recvs p = _
      rw [hkv.numClients]
      rfl
    unfold Server.places
    rw [hposted]
    show kv.places p + _ ≤ _
    omega

/-! ## Receives -/

theorem count_singleton (addr p : Value) : [addr].count p = KV.single addr p := by
  unfold KV.single
  rw [List.count_singleton]
  simp only [beq_iff_eq]

theorem posted_postRecv {cid qid : ℕ} (hcid : cid < s.kv.pool.numClients) (hqid : qid < numQps)
    (addr p : Value) :
    (s.postRecv cid qid addr).posted p = s.posted p + KV.single addr p := by
  have hsum := Lib.occurrences_update (mem_queues hcid hqid) s.recvs
    (s.recvs (cid, qid) ++ [addr]) p
  rw [List.count_append, count_singleton] at hsum
  change (s.postRecv cid qid addr).posted p + _ = s.posted p + _ at hsum
  omega

/-- The receive that completes leaves its queue. -/
theorem posted_popRecv {cid qid : ℕ} (hcid : cid < s.kv.pool.numClients) (hqid : qid < numQps)
    {addr : Value} (hhead : (s.recvs (cid, qid)).head? = some addr) (p : Value) :
    (s.popRecv cid qid).posted p + KV.single addr p = s.posted p := by
  have hsum := Lib.occurrences_update (mem_queues hcid hqid) s.recvs (s.recvs (cid, qid)).tail p
  obtain ⟨l, hl⟩ := List.head?_eq_some_iff.mp hhead
  rw [hl, List.tail_cons] at hsum
  rw [← List.singleton_append, List.count_append, count_singleton] at hsum
  have hpop : (s.popRecv cid qid).posted p =
      occurrences (queues s.kv.pool.numClients) (Function.update s.recvs (cid, qid) l) p := by
    unfold posted popRecv
    rw [hl]
    rfl
  unfold posted at hpop ⊢
  omega

theorem Inv.postRecv (h : s.Inv hash) {cid qid : ℕ} (hcid : cid < s.kv.pool.numClients)
    (hqid : qid < numQps) (addr : Value) :
    Follows hash s (s.postRecv cid qid addr) (KV.single addr) where
  inv := ⟨h.kv, h.perCliFl⟩
  numClients := rfl
  places p _ _ := by
    have hposted := posted_postRecv hcid hqid addr p
    unfold Server.places
    rw [hposted]
    exact Nat.le_of_eq (Nat.add_assoc _ _ _).symm

/-- Receives without a page, or whose page could not be allocated. -/
theorem Inv.postRecv_none (h : s.Inv hash) {cid qid : ℕ} (hcid : cid < s.kv.pool.numClients)
    (hqid : qid < numQps) {addr : Value} (haddr : addr = NONE ∨ addr = FAILED) :
    Follows hash s (s.postRecv cid qid addr) fun _ => 0 := by
  have hpost := h.postRecv hcid hqid addr
  refine ⟨hpost.inv, rfl, fun p hnull hfailed => ?_⟩
  have hplaces := hpost.places p hnull hfailed
  have hne : addr ≠ p := by
    rintro rfl
    rcases haddr with he | he
    · exact hnull he
    · exact hfailed he
  rwa [KV.single, if_neg hne] at hplaces

theorem Inv.prePostRecv (h : s.Inv hash) {cid qid : ℕ} (hcid : cid < s.kv.pool.numClients)
    (hqid : qid < numQps) : Follows hash s (s.prePostRecv cid qid) fun _ => 0 := by
  unfold Server.prePostRecv
  split
  next hdata =>
    split
    next value kv halloc =>
      obtain ⟨hinv, -, -, hcli, hper, hplaces⟩ := h.kv.allocate hcid
        (by rintro q ⟨⟩; rw [h.perCliFl]; exact hdata) halloc
      have hmid : Server.Inv hash { s with kv } := ⟨hinv, hper.trans h.perCliFl⟩
      have hpost := hmid.postRecv (s := { s with kv }) (by rw [hcli]; exact hcid) hqid value
      refine ⟨hpost.inv, hpost.numClients.trans hcli, fun p hnull hfailed => ?_⟩
      have hlast := hpost.places p hnull hfailed
      have hposted : ({ s with kv } : Server Page).posted p = s.posted p := by
        show occurrences (queues kv.pool.numClients) s.recvs p = _
        rw [hcli]
        rfl
      have hkv := hplaces p
      unfold Server.places at hlast ⊢
      rw [hposted] at hlast
      change _ ≤ kv.places p + _ + _ at hlast
      omega
    next => exact h.postRecv_none hcid hqid (Or.inr rfl)
  next => exact h.postRecv_none hcid hqid (Or.inl rfl)

theorem Inv.prePostRecvs (h : s.Inv hash) {cid qid : ℕ} (hcid : cid < s.kv.pool.numClients)
    (hqid : qid < numQps) : Follows hash s (s.prePostRecvs cid qid) fun _ => 0 := by
  have hloop : ∀ n, Follows hash s ((fun s => Server.prePostRecv s cid qid)^[n] s) fun _ => 0 := by
    intro n
    induction n with
    | zero => exact Follows.refl h
    | succ n ih =>
        rw [Function.iterate_succ_apply']
        exact ih.trans (ih.inv.prePostRecv (by rw [ih.numClients]; exact hcid) hqid)
  exact hloop maxQpsRecvs

/-! ## Completions -/

/-- Memory and regions are no places. -/
theorem Follows.of_eq (h : s.Inv hash) (hkv : s'.kv = s.kv) (hrecvs : s'.recvs = s.recvs) :
    Follows hash s s' fun _ => 0 where
  inv := ⟨hkv ▸ h.kv, hkv ▸ h.perCliFl⟩
  numClients := by rw [hkv]
  places p _ _ := by
    unfold Server.places posted
    rw [hkv, hrecvs]
    exact Nat.le_refl _

/-- The page that was received is in the handler's hands before and in no more
than one place after. -/
theorem Inv.processPut (h : s.Inv hash) {cid qid mid : ℕ} (hcid : cid < s.kv.pool.numClients)
    (hqid : qid < numQps) {recvAddr : Value} (haddr : recvAddr ≠ NONE)
    (hkey : Usable (s.mem recvAddr).key) (howner : longkeyToCid (s.mem recvAddr).key = cid)
    {d : Draw} {r : Option (Reply Page)}
    (hr : s.processPut hash cid qid mid recvAddr d = .ok (s', r)) :
    Follows hash s s' (KV.single recvAddr) := by
  rcases processPut_ok hr with ⟨-, rfl⟩ | ⟨value, kv, kv', halloc, hins, rfl⟩
  · exact h.postRecv hcid hqid recvAddr
  · obtain ⟨hinv, -, -, hcli, hper, hplaces⟩ := h.kv.allocate hcid (by rintro q ⟨⟩) halloc
    subst howner
    have hinsert := hinv.insert hkey haddr (by rw [hcli]; exact hcid) hins
    have hkv : kv'.pool.numClients = s.kv.pool.numClients := hinsert.numClients.trans hcli
    refine ⟨⟨hinsert.inv, (hinsert.perCliFl.trans hper).trans h.perCliFl⟩, hkv, ?_⟩
    intro p _ _
    have hposted := posted_postRecv hcid hqid value p
    have hsame : ({ s.postRecv (longkeyToCid (s.mem recvAddr).key) qid value with kv := kv' } :
        Server Page).posted p =
        (s.postRecv (longkeyToCid (s.mem recvAddr).key) qid value).posted p := by
      show occurrences (queues kv'.pool.numClients) _ p = _
      rw [hkv]
      rfl
    have hbefore := hplaces p
    have hafter := hinsert.places p
    unfold Server.places
    rw [hsame, hposted]
    show kv'.places p + _ ≤ _
    omega

theorem Inv.processRecv (h : s.Inv hash) {cid qid : ℕ} (hcid : cid < s.kv.pool.numClients)
    (hqid : qid < numQps) {wrId : Value}
    (hslot : wrId ≠ NONE → Usable (s.mem wrId).key ∧ longkeyToCid (s.mem wrId).key = cid)
    {imm : BitVec 32} {d : Draw} {r : Option (Reply Page)}
    (hr : s.processRecv hash cid qid wrId imm d = .ok (s', r)) :
    Follows hash s s' (KV.single wrId) := by
  have hweaken : ∀ {t : Server Page}, Follows hash s t (fun _ => 0) →
      Follows hash s t (KV.single wrId) := fun hf =>
    ⟨hf.inv, hf.numClients, fun p hnull hfailed =>
      Nat.le_trans (hf.places p hnull hfailed) (Nat.le_add_right _ _)⟩
  unfold Server.processRecv at hr
  split at hr
  · cases hr
    -- the filter's request: the ordinary filter is made and the receive posted again
    have hcbf : KV.Follows hash s.kv { s.kv with
        cbfs := Function.update s.kv.cbfs cid (s.kv.cbfs cid).toOrdinaryBF } fun _ => 0 :=
      ⟨⟨h.kv.table, h.kv.pool, h.kv.owners⟩, rfl, rfl, fun _ => Nat.le_refl _⟩
    have hmid := Follows.of_kv h hcbf
    exact hweaken (hmid.trans (hmid.inv.postRecv_none hcid hqid (Or.inl rfl)))
  · split at hr
    next hnone =>
      cases hr
      exact hweaken (Follows.refl h)
    next hne => exact h.processPut hcid hqid hne (hslot hne).1 (hslot hne).2 hr

theorem Inv.removeFree (h : s.Inv hash) {cid : ℕ} (hcid : cid < s.kv.pool.numClients)
    {key : Key} (hkey : Usable key) (howner : longkeyToCid key = cid) (rand : ℕ) :
    Follows hash s { s with kv := s.kv.removeFree hash key cid rand } fun _ => 0 := by
  subst howner
  exact Follows.of_kv h (h.kv.removeFree hkey hcid rand)

theorem Inv.processGet (h : s.Inv hash) {cid qid : ℕ} (hcid : cid < s.kv.pool.numClients)
    (hkey : Usable (s.metaRegion cid (readKeyOffset qid)))
    (howner : longkeyToCid (s.metaRegion cid (readKeyOffset qid)) = cid) (mid : ℕ) (d : Draw) :
    Follows hash s (s.processGet hash exclusivePolicy cid qid mid d).1 fun _ => 0 := by
  cases exclusivePolicy with
  | true =>
      rw [processGet_exclusive]
      exact h.removeFree hcid hkey howner d.rand
  | false =>
      have hflag := h.kv.getWithFlag (s.metaRegion cid (readKeyOffset qid)) true d.now
      rw [processGet_inclusive]
      apply Follows.of_kv h
      split
      · exact hflag.trans (hflag.inv.getWithFlag _ false d.nowEnd)
      · exact hflag

theorem Inv.processImm (h : s.Inv hash) {cid qid : ℕ} (hcid : cid < s.kv.pool.numClients)
    (hqid : qid < numQps) {imm : BitVec 32}
    (hreq : ∀ key ∈ s.requestKey cid qid imm, Usable key ∧ longkeyToCid key = cid) {d : Draw}
    {r : Option (Reply Page)} (hr : s.processImm hash exclusivePolicy cid qid imm d = (s', r)) :
    Follows hash s s' fun _ => 0 := by
  have hpost := h.postRecv_none hcid hqid (Or.inl rfl)
  rcases processImm_cases hash exclusivePolicy s cid qid imm d with
    ⟨hkey, mid, heq⟩ | ⟨mid, hkey, heq⟩ | ⟨-, heq⟩
  · obtain ⟨husable, howner⟩ := hreq _ hkey
    cases heq.symm.trans hr
    exact hpost.trans (hpost.inv.processGet hcid husable howner mid d)
  · obtain ⟨husable, howner⟩ := hreq _ hkey
    have hfst := congrArg Prod.fst (heq.symm.trans hr)
    rw [processInvalidatePage_fst] at hfst
    subst hfst
    exact hpost.trans (hpost.inv.removeFree hcid husable howner d.rand)
  · cases heq.symm.trans hr
    exact Follows.refl h

/-! ## The run -/

theorem Inv.step (h : s.Inv hash) {a : ServerStep Page} (hwf : s.WellFormed a)
    {r : Option (Reply Page)} (hstep : s.step hash exclusivePolicy a = some (s', r)) :
    Follows hash s s' fun _ => 0 := by
  cases a with
  | prePostRecvs cid qid =>
      simp only [Server.step, Option.some.injEq, Prod.mk.injEq] at hstep
      rw [← hstep.1]
      exact h.prePostRecvs hwf.1 hwf.2
  | recvMr cid =>
      simp only [Server.step, Option.some.injEq, Prod.mk.injEq] at hstep
      rw [← hstep.1]
      exact h.postRecv_none hwf (by decide) (Or.inl rfl)
  | send cid qid msg imm d =>
      obtain ⟨hcid, hqid, hmsg⟩ := hwf
      obtain ⟨addr, t, hhead, hdeliver, hrecv⟩ := step_send hstep
      obtain ⟨hkv, hrecvs, haddr⟩ := deliver_some hdeliver
      have hslot : addr ≠ NONE → Usable (t.mem addr).key ∧ longkeyToCid (t.mem addr).key = cid := by
        intro hne
        rcases haddr with ⟨hnone, -⟩ | ⟨-, -, b, rfl, hmem⟩
        · exact absurd hnone hne
        · rw [hmem, Function.update_self]
          exact hmsg.2
      have htinv : t.Inv hash := ⟨hkv ▸ h.kv, hkv ▸ h.perCliFl⟩
      have hlast := htinv.processRecv (by rw [hkv]; exact hcid) hqid hslot hrecv
      refine ⟨hlast.inv, hlast.numClients.trans (by rw [hkv]; rfl), fun p hnull hfailed => ?_⟩
      have hplaces := hlast.places p hnull hfailed
      have hpop := posted_popRecv hcid hqid hhead p
      have hposted : t.posted p = (s.popRecv cid qid).posted p := by
        unfold posted
        rw [hkv, hrecvs]
      unfold Server.places at hplaces ⊢
      rw [hkv, hposted] at hplaces
      change _ ≤ s.kv.places p + _ + _ at hplaces
      omega
  | writeImm cid qid off words imm d =>
      obtain ⟨hcid, hqid, hreq⟩ := hwf
      obtain ⟨addr, hhead, himm⟩ := step_writeImm hstep
      have hmid : Follows hash s ((s.popRecv cid qid).remoteWrite cid off words) fun _ => 0 := by
        refine ⟨⟨h.kv, h.perCliFl⟩, rfl, fun p _ _ => ?_⟩
        have hpop := posted_popRecv hcid hqid hhead p
        show s.kv.places p + (s.popRecv cid qid).posted p ≤ s.kv.places p + s.posted p + 0
        omega
      exact hmid.trans (hmid.inv.processImm hcid hqid hreq himm)
  | evict draws rand =>
      obtain ⟨kv, hev, rfl, -⟩ := step_evict hstep
      exact Follows.of_kv h (h.kv.evict hev)
  | allocateFromPeer fl =>
      obtain ⟨a, pool, halloc, rfl, -⟩ := step_allocateFromPeer hstep
      exact Follows.of_kv h (h.kv.allocateFromPeer hwf halloc)

/-! ## What a step frees -/

theorem prePostRecv_freed (h : s.Inv hash) (cid qid : ℕ) :
    (s.prePostRecv cid qid).kv.pool.freed = s.kv.pool.freed := by
  unfold prePostRecv
  split
  next hdata =>
    split
    next value kv halloc =>
      exact h.kv.allocate_freed (by rintro q ⟨⟩; rw [h.perCliFl]; exact hdata) halloc
    · rfl
  · rfl

theorem prePostRecvs_freed (h : s.Inv hash) {cid qid : ℕ} (hcid : cid < s.kv.pool.numClients)
    (hqid : qid < numQps) : (s.prePostRecvs cid qid).kv.pool.freed = s.kv.pool.freed := by
  have hloop : ∀ n, ∀ t : Server Page, t.Inv hash → cid < t.kv.pool.numClients →
      ((fun s => Server.prePostRecv s cid qid)^[n] t).kv.pool.freed = t.kv.pool.freed := by
    intro n
    induction n with
    | zero => intro t _ _; rfl
    | succ n ih =>
        intro t ht hlt
        have hone := ht.prePostRecv hlt hqid
        rw [Function.iterate_succ_apply, ih _ hone.inv (by rw [hone.numClients]; exact hlt)]
        exact prePostRecv_freed ht cid qid
  unfold prePostRecvs
  exact hloop maxQpsRecvs s h hcid

/-- The pages a step may free: one that a receive has just delivered, or one
that is stored. -/
def Spare (s : Server Page) (p : Value) : Prop :=
  0 < s.posted p ∨ s.kv.Stores (fun _ => True) p

theorem Spare.of_stores {P : LPABkt → Prop} {p : Value} (h : s.kv.Stores P p) : s.Spare p := by
  obtain ⟨slot, hs, hu, hv, -⟩ := h
  exact Or.inr ⟨slot, hs, hu, hv, trivial⟩

theorem Inv.processPut_frees (h : s.Inv hash) {cid qid mid : ℕ} {recvAddr : Value}
    (haddr : recvAddr ≠ NONE) (hkey : Usable (s.mem recvAddr).key) {d : Draw}
    {r : Option (Reply Page)}
    (hr : s.processPut hash cid qid mid recvAddr d = .ok (s', r)) :
    KV.Frees s.kv s'.kv fun p => p = recvAddr ∨ s.kv.Stores (fun _ => True) p := by
  rcases processPut_ok hr with ⟨-, rfl⟩ | ⟨value, kv, kv', halloc, hins, rfl⟩
  · exact KV.Frees.of_eq rfl
  · have hfreed := h.kv.allocate_freed (by rintro q ⟨⟩) halloc
    have htable : kv.table = s.kv.table := by
      obtain ⟨⟨a, pool⟩, -, heq⟩ := Option.map_eq_some_iff.mp halloc
      cases heq
      rfl
    have hkvinv : kv.Inv hash := by
      obtain ⟨⟨a, pool⟩, hpool, heq⟩ := Option.map_eq_some_iff.mp halloc
      cases heq
      obtain ⟨fl, f, -, -, rfl⟩ := PerCPUPool.allocate_some h.kv.pool (by rintro q ⟨⟩) hpool
      exact ⟨h.kv.table, ⟨h.kv.pool.perCliFl_pos, h.kv.pool.totalFl_eq⟩, h.kv.owners⟩
    have hfrees := hkvinv.insert_frees hkey haddr hins
    unfold KV.Frees at hfrees ⊢
    rw [hfreed] at hfrees
    rcases hfrees with heq | ⟨p, hp, heq⟩
    · exact Or.inl heq
    · refine Or.inr ⟨p, ?_, heq⟩
      rcases hp with rfl | ⟨slot, hs, hu, hv, -⟩
      · exact Or.inl rfl
      · rw [htable] at hs hu hv
        exact Or.inr ⟨slot, hs, hu, hv, trivial⟩

theorem Inv.step_frees (h : s.Inv hash) {a : ServerStep Page} (hwf : s.WellFormed a)
    {r : Option (Reply Page)} (hstep : s.step hash exclusivePolicy a = some (s', r)) :
    KV.Frees s.kv s'.kv fun p => p ≠ NONE ∧ s.Spare p := by
  cases a with
  | prePostRecvs cid qid =>
      simp only [Server.step, Option.some.injEq, Prod.mk.injEq] at hstep
      rw [← hstep.1]
      exact KV.Frees.of_eq (prePostRecvs_freed h hwf.1 hwf.2)
  | recvMr cid =>
      simp only [Server.step, Option.some.injEq, Prod.mk.injEq] at hstep
      rw [← hstep.1]
      exact KV.Frees.of_eq rfl
  | send cid qid msg imm d =>
      obtain ⟨hcid, hqid, hmsg⟩ := hwf
      obtain ⟨addr, t, hhead, hdeliver, hrecv⟩ := step_send hstep
      obtain ⟨hkv, hrecvs, haddr⟩ := deliver_some hdeliver
      have hposted : 0 < s.posted addr := by
        have hpop := posted_popRecv hcid hqid hhead addr
        rw [KV.single, if_pos rfl] at hpop
        omega
      have hkv : t.kv = s.kv := hkv
      unfold Server.processRecv at hrecv
      split at hrecv
      · cases hrecv
        exact KV.Frees.of_eq (by rw [← hkv]; rfl)
      · split at hrecv
        · cases hrecv
          exact KV.Frees.of_eq (by rw [hkv])
        next hne =>
          rcases haddr with ⟨hnone, -⟩ | ⟨-, -, b, rfl, hmem⟩
          · exact absurd hnone hne
          · have htinv : t.Inv hash := ⟨hkv ▸ h.kv, hkv ▸ h.perCliFl⟩
            have hfrees := htinv.processPut_frees hne
              (by rw [hmem, Function.update_self]; exact hmsg.2.1) hrecv
            rw [hkv] at hfrees
            refine hfrees.mono fun p hp => ?_
            rcases hp with rfl | hp
            · exact ⟨hne, Or.inl hposted⟩
            · exact ⟨hp.ne_none h.kv, Or.inr hp⟩
  | writeImm cid qid off words imm d =>
      obtain ⟨hcid, hqid, hreq⟩ := hwf
      obtain ⟨addr, hhead, himm⟩ := step_writeImm hstep
      have hremove : ∀ {key : Key}, Usable key → KV.Frees s.kv
          (s.kv.removeFree hash key cid d.rand) fun p => p ≠ NONE ∧ s.Spare p := fun hkey =>
        (h.kv.removeFree_frees hkey cid d.rand).mono fun p hp =>
          ⟨hp.ne_none h.kv, Spare.of_stores hp⟩
      rcases processImm_cases hash exclusivePolicy ((s.popRecv cid qid).remoteWrite cid off words)
        cid qid imm d with ⟨hkey, mid, heq⟩ | ⟨mid, hkey, heq⟩ | ⟨-, heq⟩
      · cases heq.symm.trans himm
        cases exclusivePolicy with
        | true => exact hremove (hreq _ hkey).1
        | false =>
            rw [processGet_inclusive]
            apply KV.Frees.of_eq
            dsimp only
            split
            · rfl
            · rfl
      · have hfst := congrArg Prod.fst (heq.symm.trans himm)
        rw [processInvalidatePage_fst] at hfst
        subst hfst
        exact hremove (hreq _ hkey).1
      · cases heq.symm.trans himm
        exact KV.Frees.of_eq rfl
  | evict draws rand =>
      obtain ⟨kv, hev, rfl, -⟩ := step_evict hstep
      exact (KV.evict_frees hev).mono fun p hp => ⟨hp.ne_none h.kv, Spare.of_stores hp⟩
  | allocateFromPeer fl =>
      obtain ⟨a, pool, halloc, rfl, -⟩ := step_allocateFromPeer hstep
      obtain ⟨_, _, _, _, _, _, _, rfl⟩ :=
        PerCPUPool.allocateFromPeer_some h.kv.pool hwf halloc
      exact KV.Frees.of_eq rfl

/-! ## Every run -/

theorem new_inv (startAddr : Value) (memPoolSize numClients numHash numBits : ℕ)
    (mem : Value → Slot Page) :
    (new startAddr memPoolSize numClients numHash numBits mem).Inv hash :=
  ⟨KV.new_inv _ _ _ _ _, rfl⟩

theorem new_places_le_one (startAddr : Value) (memPoolSize numClients numHash numBits : ℕ)
    (mem : Value → Slot Page) (p : Value) :
    (new startAddr memPoolSize numClients numHash numBits mem).places p ≤ 1 := by
  have hposted : (new startAddr memPoolSize numClients numHash numBits mem).posted p = 0 :=
    Finset.sum_eq_zero fun _ _ => List.count_nil
  unfold places
  rw [hposted]
  exact KV.new_places_le_one startAddr memPoolSize numClients numHash numBits p

/-- No address of a page is in two places. -/
def SinglePlace (s : Server Page) : Prop := ∀ p, p ≠ NONE → p ≠ FAILED → s.places p ≤ 1

theorem new_singlePlace (startAddr : Value) (memPoolSize numClients numHash numBits : ℕ)
    (mem : Value → Slot Page) :
    (new startAddr memPoolSize numClients numHash numBits mem).SinglePlace :=
  fun p _ _ => new_places_le_one startAddr memPoolSize numClients numHash numBits mem p

theorem SinglePlace.of_follows (h : s.SinglePlace) (hf : Follows hash s s' fun _ => 0) :
    s'.SinglePlace :=
  fun p hnull hfailed => Nat.le_trans (hf.places p hnull hfailed) (h p hnull hfailed)

theorem exec_singlePlace {s₀ : Server Page} (hinv : s₀.Inv hash) (hone : s₀.SinglePlace)
    {as : List (ServerStep Page)}
    (hwf : (serverSystem hash exclusivePolicy s₀).Meets WellFormed s₀ as)
    (hrun : (serverSystem hash exclusivePolicy s₀).exec s₀ as = some s) :
    s.Inv hash ∧ s.SinglePlace := by
  refine System.exec_invariant (P := WellFormed) (I := fun s => s.Inv hash ∧ s.SinglePlace)
    ?_ ⟨hinv, hone⟩ hwf hrun
  rintro s a s' ⟨hinv, hone⟩ hwf hstep
  obtain ⟨r, hs⟩ := serverSystem_step hstep
  have hfollows := hinv.step hwf hs
  exact ⟨hfollows.inv, hone.of_follows hfollows⟩

/-- A stored page is on no free list and in no receive. -/
theorem SinglePlace.of_view (h : s.SinglePlace) (hinv : s.Inv hash) {key : Key} {p : Value}
    (hnull : p ≠ NONE) (hfailed : p ≠ FAILED)
    (hview : s.kv.table.view (hash 0) key = some p) :
    s.kv.pool.count p = 0 ∧ s.posted p = 0 := by
  have hle := h p hnull hfailed
  have hsum := hinv.kv.table.le_sum hview fun _ v => KV.single v p
  simp only [KV.single, if_true] at hsum
  unfold places KV.places at hle
  unfold KV.single at hle
  omega

/-- A page that a step may free is on no free list. -/
theorem SinglePlace.of_spare (h : s.SinglePlace) (hinv : s.Inv hash) {p : Value}
    (hnull : p ≠ NONE) (hfailed : p ≠ FAILED) (hp : s.Spare p) : s.kv.pool.count p = 0 := by
  have hle := h p hnull hfailed
  unfold places at hle
  rcases hp with hposted | hstored
  · unfold KV.places at hle
    omega
  · have hone := hstored.one_le_places hinv.kv
    omega

/-- A page of the pool in a state of the daemon: it is in one place at most, in
none besides the table while a key maps to it, and a step that frees it does
not find it on a free list. -/
structure Unaliased (hash : HashFuncs) (exclusivePolicy : Bool) (s : Server Page) (p : Value) :
    Prop where
  place : s.places p ≤ 1
  mapped : ∀ key, s.kv.table.view (hash 0) key = some p →
    s.kv.pool.count p = 0 ∧ s.posted p = 0
  freed : ∀ a s' r, s.WellFormed a → s.step hash exclusivePolicy a = some (s', r) →
    s'.kv.pool.freed = s.kv.pool.freed ∨
      ∃ q, s'.kv.pool.freed = q :: s.kv.pool.freed ∧ (q = p → s.kv.pool.count p = 0)

theorem SinglePlace.unaliased (h : s.SinglePlace) (hinv : s.Inv hash) {p : Value}
    (hnull : p ≠ NONE) (hfailed : p ≠ FAILED) : s.Unaliased hash exclusivePolicy p where
  place := h p hnull hfailed
  mapped key hview := h.of_view hinv hnull hfailed hview
  freed a s' r hwf hstep := by
    rcases hinv.step_frees hwf hstep with heq | ⟨q, ⟨-, hspare⟩, heq⟩
    · exact Or.inl heq
    · refine Or.inr ⟨q, heq, ?_⟩
      rintro rfl
      exact h.of_spare hinv hnull hfailed hspare

end Server

/-- Page `j` of a pool inside the address space is no null pointer and no
failure value. -/
theorem page_ne {startAddr : Value} {memPoolSize : ℕ} (hstart : startAddr ≠ NONE)
    (hend : startAddr + memPoolSize ≤ 2 ^ 64) {j : ℕ} (hj : (j + 1) * SLOT_SIZE ≤ memPoolSize) :
    PerCPUPool.page startAddr j ≠ NONE ∧ PerCPUPool.page startAddr j ≠ FAILED := by
  have hpos : 0 < startAddr := Nat.pos_of_ne_zero hstart
  have hlt : PerCPUPool.page startAddr j + SLOT_SIZE ≤ 2 ^ 64 := by
    refine Nat.le_trans ?_ hend
    rw [PerCPUPool.page, Nat.add_assoc, ← Nat.succ_mul]
    exact Nat.add_le_add_left hj startAddr
  constructor
  · exact Nat.ne_of_gt (Nat.lt_of_lt_of_le hpos (Nat.le_add_right _ _))
  · intro he
    rw [he] at hlt
    exact absurd hlt (by decide)

/-- In every run of the daemon every page of the pool is in one place at most,
and it is neither posted nor freed while a key maps to it. -/
theorem page_in_one_place {Page : Type} (hash : HashFuncs) (exclusivePolicy : Bool)
    {startAddr : Value} {memPoolSize : ℕ} (numClients numHash numBits : ℕ)
    (mem : Value → Slot Page) (hstart : startAddr ≠ NONE)
    (hend : startAddr + memPoolSize ≤ 2 ^ 64) {as : List (ServerStep Page)} {s : Server Page}
    (hwf : (serverSystem hash exclusivePolicy
      (.new startAddr memPoolSize numClients numHash numBits mem)).Meets Server.WellFormed
      (.new startAddr memPoolSize numClients numHash numBits mem) as)
    (hrun : (serverSystem hash exclusivePolicy
      (.new startAddr memPoolSize numClients numHash numBits mem)).exec
      (.new startAddr memPoolSize numClients numHash numBits mem) as = some s) :
    ∀ j, (j + 1) * SLOT_SIZE ≤ memPoolSize →
      s.Unaliased hash exclusivePolicy (PerCPUPool.page startAddr j) := by
  intro j hj
  obtain ⟨hnull, hfailed⟩ := page_ne hstart hend hj
  obtain ⟨hinv, hone⟩ := Server.exec_singlePlace
    (Server.new_inv startAddr memPoolSize numClients numHash numBits mem)
    (Server.new_singlePlace startAddr memPoolSize numClients numHash numBits mem)
    hwf hrun
  exact hone.unaliased hinv hnull hfailed

/-! ## A small daemon -/

/-- One mebibyte for sixteen clients: one page for each list. -/
def smallServer : Server ℕ := .new 4096 1048576 16 1 8 fun _ => ⟨0, 0⟩

def keyHash : HashFuncs := fun _ key => key.toNat

/-- The immediate of a first message. -/
def immOf (m : MsgType) : BitVec 32 := htonl (bitMask 0 m.code 0 0 0)

/-- Client 0 connects, its put queue and one of its get queues get receives. -/
def startUp : List (ServerStep ℕ) :=
  [.recvMr 0, .send 0 0 (.mmInfo 1) 0 {}, .prePostRecvs 0 0, .prePostRecvs 0 2]

def connected : Server ℕ :=
  let s := (smallServer.recvMr 0).popRecv 0 0
  { s with clientMR := Function.update s.clientMR 0 1 }

/-- The receives of a queue that got `n` pages. -/
def Server.postRest (s : Server ℕ) (qid n : ℕ) : Server ℕ :=
  let t := (fun s => Server.prePostRecv s 0 qid)^[n] s
  { t with
    recvs := Function.update t.recvs (0, qid)
      (t.recvs (0, qid) ++ List.replicate (maxQpsRecvs - n) FAILED) }

/-- Queue 0 has the pages of the lists 0 to 3, queue 2 those of 4 and 5. -/
def started : Server ℕ := (connected.postRest 0 4).postRest 2 2

theorem startUp_trace (exclusivePolicy : Bool) :
    (serverSystem keyHash exclusivePolicy smallServer).Meets Server.WellFormed smallServer startUp ∧
    (serverSystem keyHash exclusivePolicy smallServer).exec smallServer startUp = some started := by
  have hput : connected.prePostRecvs 0 0 = connected.postRest 0 4 :=
    Server.prePostRecvs_exhausted (by decide) (n := 4) (by decide) rfl
      (Option.isNone_iff_eq_none.mp (by decide +kernel))
  have hget : (connected.postRest 0 4).prePostRecvs 0 2 = started :=
    Server.prePostRecvs_exhausted (by decide) (n := 2) (by decide) rfl
      (Option.isNone_iff_eq_none.mp (by decide +kernel))
  refine System.trace_cons (by decide) rfl (System.trace_cons (m := connected) (by decide) rfl ?_)
  refine System.trace_cons (m := connected.postRest 0 4) (by decide)
    (serverSystem_prePostRecvs hput)
    (System.trace_cons (by decide +kernel) (serverSystem_prePostRecvs hget) ⟨trivial, rfl⟩)

/-- A put, an update of its key and an exclusive get. -/
def putPutGet : List (ServerStep ℕ) :=
  [.send 0 0 (.slot ⟨7, 1⟩) (immOf .write) { rand := 6, inserts := [{}, {}] },
   .send 0 0 (.slot ⟨8, 1⟩) (immOf .write) { rand := 7, inserts := [{}, {}] },
   .writeImm 0 2 (readKeyOffset 2) [1, 0x1000] (immOf .read) {}]

/-- The update freed page 0 and the get page 1. -/
theorem page_in_one_place_putPutGet :
    ∃ s, (serverSystem keyHash true smallServer).exec smallServer (startUp ++ putPutGet) = some s ∧
      s.kv.pool.freed = [PerCPUPool.page 4096 1, PerCPUPool.page 4096 0] ∧
      s.Unaliased keyHash true (PerCPUPool.page 4096 0) := by
  obtain ⟨hwf, hstart⟩ := startUp_trace true
  have hfreed : ((serverSystem keyHash true smallServer).exec started putPutGet).map
      (fun s => s.kv.pool.freed) = some [PerCPUPool.page 4096 1, PerCPUPool.page 4096 0] := by
    decide +kernel
  obtain ⟨s, hrun, hs⟩ := Option.map_eq_some_iff.mp hfreed
  have hexec := System.exec_append_some.mpr ⟨started, hstart, hrun⟩
  exact ⟨s, hexec, hs, page_in_one_place keyHash true 16 1 8 _ (by decide) (by decide)
    (System.meets_append hwf hstart (by decide +kernel)) hexec 0 (by decide)⟩

end CleancacheRdma.Daemon
