import Mathlib
import CleancacheRdma.Daemon.Stock

/-!
# The pages of the pool circulate

A step moves pages between free lists, buckets and receives. Two things go
wrong: `pre_post_recvs` posts what `Allocate` returns, the failure value
included, and `process_imm` gives back a receive without a buffer for every
receive it takes, also for one that carried a page.
-/

namespace CleancacheRdma.Daemon

open Lib (System)
open LinearProbingApprox (lockSize)

/-- `FLAGS_mem_pool_size_mb << 20`. -/
def memPoolSize (mb : ℕ) : ℕ := mb <<< 20

namespace PerCPUPool

/-- The addresses on the free lists. -/
def pages (p : PerCPUPool) : Finset Value :=
  (Finset.range p.totalFl).biUnion fun fl => (p.freelist fl).addrs.toFinset

theorem mem_pages {p : PerCPUPool} {a : Value} : a ∈ p.pages ↔ 0 < p.count a := by
  simp only [pages, Finset.mem_biUnion, Finset.mem_range, List.mem_toFinset]
  constructor
  · rintro ⟨fl, hfl, hmem⟩
    exact Nat.lt_of_lt_of_le (List.count_pos_iff.mpr hmem)
      (Finset.single_le_sum (f := fun i => (p.freelist i).addrs.count a)
        (fun _ _ => Nat.zero_le _) (Finset.mem_range.mpr hfl))
  · intro hpos
    obtain ⟨fl, hfl, hne⟩ := Finset.exists_ne_zero_of_sum_ne_zero (Nat.ne_of_gt hpos)
    exact ⟨fl, Finset.mem_range.mp hfl, List.count_pos_iff.mp (Nat.pos_of_ne_zero hne)⟩

variable (startAddr : Value) (memPoolSize numClients perCliFl : ℕ)

/-- The lists of a new pool hold no more pages than there are slots. -/
theorem new_pages_card :
    (new startAddr memPoolSize numClients perCliFl).pages.card ≤ memPoolSize / SLOT_SIZE := by
  have hlist : ∀ fl ∈ Finset.range (numClients * perCliFl),
      ((new startAddr memPoolSize numClients perCliFl).freelist fl).addrs.toFinset.card ≤
        memPoolSize / SLOT_SIZE / (numClients * perCliFl) := by
    intro fl hfl
    refine Nat.le_trans (List.toFinset_card_le _) ?_
    rw [new_addrs _ _ _ _ (Finset.mem_range.mp hfl), List.length_map, List.length_range]
  refine Nat.le_trans (Finset.card_biUnion_le_card_mul _ _ _ hlist) ?_
  rw [Finset.card_range]
  exact Nat.mul_div_le _ _

/-- A page of a new pool is a slot of its region. -/
theorem new_pages_slot (a : Value)
    (ha : a ∈ (new startAddr memPoolSize numClients perCliFl).pages) :
    ∃ j, a = page startAddr j ∧ (j + 1) * SLOT_SIZE ≤ memPoolSize := by
  obtain ⟨fl, hfl, hmem⟩ := Finset.mem_biUnion.mp ha
  have hfl : fl < numClients * perCliFl := Finset.mem_range.mp hfl
  rw [List.mem_toFinset, new_addrs _ _ _ _ hfl] at hmem
  obtain ⟨j, hj, rfl⟩ := List.mem_map.mp hmem
  refine ⟨_, rfl, Nat.le_trans (Nat.mul_le_mul_right _ ?_) (Nat.div_mul_le_self _ SLOT_SIZE)⟩
  calc fl * (memPoolSize / SLOT_SIZE / (numClients * perCliFl)) + j + 1
      ≤ (fl + 1) * (memPoolSize / SLOT_SIZE / (numClients * perCliFl)) := by
        rw [Nat.succ_mul]
        exact Nat.add_le_add_left (List.mem_range.mp hj) _
    _ ≤ numClients * perCliFl * (memPoolSize / SLOT_SIZE / (numClients * perCliFl)) :=
        Nat.mul_le_mul_right _ hfl
    _ ≤ memPoolSize / SLOT_SIZE := Nat.mul_div_le _ _

end PerCPUPool

namespace Server

variable {Page : Type} {hash : HashFuncs} {exclusivePolicy : Bool} {s s' s'' : Server Page}
variable {stock : Finset Value}

/-! ## Keeping pages -/

/-- `s'` has the shape of `s`. It holds every page of the stock that `s` and
`got` together hold, less those that are `lost`, and no other address. -/
structure Retains (stock : Finset Value) (s s' : Server Page) (got lost : Value → ℕ) : Prop where
  capacity : s'.kv.table.capacity = s.kv.table.capacity
  maxChunks : ∀ fl, (s'.kv.pool.freelist fl).maxChunks = (s.kv.pool.freelist fl).maxChunks
  foreign : ∀ p ∉ stock, s'.kv.places p ≤ s.kv.places p
  places : ∀ p ∈ stock, s.places p + got p ≤ s'.places p + lost p

theorem Retains.refl (s : Server Page) : Retains stock s s (fun _ => 0) fun _ => 0 :=
  ⟨rfl, fun _ => rfl, fun _ _ => Nat.le_refl _, fun _ _ => Nat.le_refl _⟩

theorem Retains.trans {g g' l l' : Value → ℕ} (h : Retains stock s s' g l)
    (h' : Retains stock s' s'' g' l') :
    Retains stock s s'' (fun p => g p + g' p) fun p => l p + l' p where
  capacity := h'.capacity.trans h.capacity
  maxChunks fl := (h'.maxChunks fl).trans (h.maxChunks fl)
  foreign p hp := Nat.le_trans (h'.foreign p hp) (h.foreign p hp)
  places p hp := by
    have := h.places p hp
    have := h'.places p hp
    omega

theorem Retains.congr {g g' l l' : Value → ℕ} (h : Retains stock s s' g l)
    (hg : ∀ p ∈ stock, g' p + l p ≤ g p + l' p) : Retains stock s s' g' l' :=
  ⟨h.capacity, h.maxChunks, h.foreign, fun p hp => by
    have := h.places p hp
    have := hg p hp
    omega⟩

/-- What the store does alone. -/
theorem Retains.of_kv {kv : KV} {e : Value → ℕ} (hf : KV.Follows hash s.kv kv e)
    (hk : KV.Keeps s.kv kv e) (he : ∀ p ∉ stock, e p = 0) :
    Retains stock s { s with kv } e fun _ => 0 where
  capacity := hk.capacity
  maxChunks := hk.maxChunks
  foreign p hp := by
    have hplaces := hf.places p
    rwa [he p hp] at hplaces
  places p _ := by
    have hplaces := hk.places p
    have hposted : ({ s with kv } : Server Page).posted p = s.posted p := by
      show Lib.occurrences (queues kv.pool.numClients) s.recvs p = _
      rw [hf.numClients]
      rfl
    unfold Server.places
    rw [hposted]
    show _ ≤ kv.places p + _ + 0
    omega

/-- Memory and regions are no places. -/
theorem Retains.of_eq (hkv : s'.kv = s.kv) (hrecvs : s'.recvs = s.recvs) :
    Retains stock s s' (fun _ => 0) fun _ => 0 where
  capacity := by rw [hkv]
  maxChunks fl := by rw [hkv]
  foreign p _ := by rw [hkv]
  places p _ := by
    unfold Server.places posted
    rw [hkv, hrecvs]

theorem retains_postRecv {cid qid : ℕ} (hcid : cid < s.kv.pool.numClients) (hqid : qid < numQps)
    (addr : Value) : Retains stock s (s.postRecv cid qid addr) (KV.single addr) fun _ => 0 where
  capacity := rfl
  maxChunks _ := rfl
  foreign _ _ := Nat.le_refl _
  places p _ := by
    have hposted := posted_postRecv hcid hqid addr p
    unfold Server.places
    rw [hposted]
    exact Nat.le_of_eq (Nat.add_assoc _ _ _)

theorem retains_postRecv_same {cid qid : ℕ} (hcid : cid < s.kv.pool.numClients)
    (hqid : qid < numQps) (addr : Value) :
    Retains stock s (s.postRecv cid qid addr) (fun _ => 0) fun _ => 0 :=
  (retains_postRecv hcid hqid addr).congr fun _ _ => Nat.zero_le _

/-- A receive that completes is in the hands of its handler. -/
theorem retains_popRecv {cid qid : ℕ} (hcid : cid < s.kv.pool.numClients) (hqid : qid < numQps)
    {addr : Value} (hhead : (s.recvs (cid, qid)).head? = some addr) :
    Retains stock s (s.popRecv cid qid) (fun _ => 0) (KV.single addr) where
  capacity := rfl
  maxChunks _ := rfl
  foreign _ _ := Nat.le_refl _
  places p _ := by
    have hposted := posted_popRecv hcid hqid hhead p
    unfold Server.places
    rw [← hposted]
    exact Nat.le_of_eq (Nat.add_assoc _ _ _).symm

/-! ## The invariant -/

/-- A daemon whose pages are those of `stock`. -/
structure Stocked (hash : HashFuncs) (stock : Finset Value) (s : Server Page) : Prop where
  inv : s.Inv hash
  kv : s.kv.Stocked stock
  once : s.SinglePlace
  foreign : ∀ p ∉ stock, p ≠ NONE → p ≠ FAILED → s.posted p = 0
  null : NONE ∉ stock
  failed : FAILED ∉ stock

theorem Stocked.ne (h : s.Stocked hash stock) {p : Value} (hp : p ∈ stock) :
    p ≠ NONE ∧ p ≠ FAILED :=
  ⟨fun he => h.null (he ▸ hp), fun he => h.failed (he ▸ hp)⟩

theorem Inv.totalFl (h : s.Inv hash) (h' : s'.Inv hash)
    (hcli : s'.kv.pool.numClients = s.kv.pool.numClients) :
    s'.kv.pool.totalFl = s.kv.pool.totalFl := by
  rw [h.kv.pool.totalFl_eq, h'.kv.pool.totalFl_eq, h.perCliFl, h'.perCliFl, hcli]

/-- The two halves together: no address in two places, no page in none. -/
theorem Stocked.of_retains (h : s.Stocked hash stock) (hf : Follows hash s s' fun _ => 0)
    {g l : Value → ℕ} (hk : Retains stock s s' g l) : s'.Stocked hash stock := by
  have honce : s'.SinglePlace := h.once.of_follows hf
  have hzero : ∀ p ∉ stock, s'.kv.places p = 0 := fun p hp =>
    Nat.eq_zero_of_le_zero (Nat.le_trans (hk.foreign p hp) (Nat.le_of_eq (h.kv.pages p hp)))
  refine ⟨hf.inv, ⟨fun p => ?_, hzero, ?_, fun fl hfl => ?_⟩, honce, fun p hp hnull hfailed => ?_,
    h.null, h.failed⟩
  · by_cases hp : p ∈ stock
    · obtain ⟨hnull, hfailed⟩ := h.ne hp
      exact Nat.le_trans (Nat.le_add_right _ _) (honce p hnull hfailed)
    · rw [hzero p hp]
      exact Nat.zero_le 1
  · rw [hk.capacity]
    exact h.kv.capacity
  · rw [hk.maxChunks]
    exact h.kv.maxChunks fl (h.inv.totalFl hf.inv hf.numClients ▸ hfl)
  · have hle := hf.places p hnull hfailed
    have hkv := h.kv.pages p hp
    have hposted := h.foreign p hp hnull hfailed
    unfold Server.places at hle
    omega

/-- The receive that a message takes away from a queue. -/
theorem Stocked.popRecv (h : s.Stocked hash stock) {cid qid : ℕ}
    (hcid : cid < s.kv.pool.numClients) (hqid : qid < numQps) {addr : Value}
    (hhead : (s.recvs (cid, qid)).head? = some addr) :
    (s.popRecv cid qid).Stocked hash stock ∧
      (addr ≠ NONE → addr ≠ FAILED → addr ∈ stock ∧ (s.popRecv cid qid).places addr = 0) := by
  have hpop := posted_popRecv hcid hqid hhead
  have hf : Follows hash s (s.popRecv cid qid) fun _ => 0 := by
    refine ⟨⟨h.inv.kv, h.inv.perCliFl⟩, rfl, fun p _ _ => ?_⟩
    have := hpop p
    show s.kv.places p + _ ≤ s.kv.places p + _ + 0
    omega
  refine ⟨h.of_retains hf (retains_popRecv hcid hqid hhead), fun hnull hfailed => ?_⟩
  have hone := hpop addr
  rw [KV.single, if_pos rfl] at hone
  have hmem : addr ∈ stock := by
    by_contra hnot
    have hzero := h.foreign addr hnot hnull hfailed
    omega
  have honce := h.once addr hnull hfailed
  refine ⟨hmem, ?_⟩
  unfold Server.places at honce ⊢
  change s.kv.places addr + _ = 0
  omega

/-! ## The handlers -/

theorem Stocked.prePostRecv (h : s.Stocked hash stock) {cid qid : ℕ}
    (hcid : cid < s.kv.pool.numClients) (hqid : qid < numQps) :
    Retains stock s (s.prePostRecv cid qid) (fun _ => 0) fun _ => 0 := by
  unfold Server.prePostRecv
  split
  next hdata =>
    split
    next value kv halloc =>
      have hlt : ∀ q, some qid = some q → q < s.kv.pool.perCliFl := by
        rintro q ⟨⟩
        rw [h.inv.perCliFl]
        exact hdata
      obtain ⟨-, htable, -, hcli, -, hplaces⟩ := h.inv.kv.allocate hcid hlt halloc
      have hpost : Retains stock { s with kv } (Server.postRecv { s with kv } cid qid value)
          (KV.single value) fun _ => 0 :=
        retains_postRecv (by rw [hcli]; exact hcid) hqid value
      refine ⟨hpost.capacity.trans (by rw [htable]), fun fl => (hpost.maxChunks fl).trans
        (h.inv.kv.allocate_maxChunks hlt halloc fl), fun p hp => ?_, fun p hp => ?_⟩
      · have := hplaces p
        have := hpost.foreign p hp
        dsimp only at this
        omega
      · have hlast := hpost.places p hp
        have hposted : ({ s with kv } : Server Page).posted p = s.posted p := by
          show Lib.occurrences (queues kv.pool.numClients) s.recvs p = _
          rw [hcli]
          rfl
        have hkv := hplaces p
        unfold Server.places at hlast ⊢
        rw [hposted] at hlast
        change kv.places p + _ + _ ≤ _ at hlast
        omega
    next => exact retains_postRecv_same hcid hqid FAILED
  next => exact retains_postRecv_same hcid hqid NONE

theorem Stocked.iterate_prePostRecv (h : s.Stocked hash stock) {cid qid : ℕ}
    (hcid : cid < s.kv.pool.numClients) (hqid : qid < numQps) (n : ℕ) :
    Follows hash s ((fun s => Server.prePostRecv s cid qid)^[n] s) (fun _ => 0) ∧
      Retains stock s ((fun s => Server.prePostRecv s cid qid)^[n] s) (fun _ => 0)
        fun _ => 0 := by
  induction n with
  | zero => exact ⟨Follows.refl h.inv, Retains.refl s⟩
  | succ n ih =>
      rw [Function.iterate_succ_apply']
      obtain ⟨hf, hk⟩ := ih
      have hcid' : cid < ((fun s => Server.prePostRecv s cid qid)^[n] s).kv.pool.numClients := by
        rw [hf.numClients]
        exact hcid
      exact ⟨hf.trans (hf.inv.prePostRecv hcid' hqid),
        hk.trans ((h.of_retains hf hk).prePostRecv hcid' hqid)⟩

/-- The page that was received is stored, freed or posted again. -/
theorem Stocked.processPut (h : s.Stocked hash stock) {cid qid mid : ℕ}
    (hcid : cid < s.kv.pool.numClients) (hqid : qid < numQps) {recvAddr : Value}
    (hpage : recvAddr ∈ stock) (hfresh : s.places recvAddr = 0)
    (hkey : Usable (s.mem recvAddr).key) (howner : longkeyToCid (s.mem recvAddr).key = cid)
    {d : Draw} {r : Option (Reply Page)}
    (hr : s.processPut hash cid qid mid recvAddr d = .ok (s', r)) :
    Retains stock s s' (KV.single recvAddr) fun _ => 0 := by
  rcases processPut_ok hr with ⟨-, rfl⟩ | ⟨value, kv, kv', halloc, hins, rfl⟩
  · exact retains_postRecv hcid hqid recvAddr
  · subst howner
    have hnone : ∀ q, (none : Option ℕ) = some q → q < s.kv.pool.perCliFl := by rintro q ⟨⟩
    obtain ⟨hinv, htable, -, hcli, -, hplaces⟩ := h.inv.kv.allocate hcid hnone halloc
    obtain ⟨hstocked, -⟩ := h.kv.allocate h.inv.kv hcid hnone halloc
    have hfree : kv.places recvAddr = 0 := by
      have := hplaces recvAddr
      unfold Server.places at hfresh
      omega
    have hcid' : longkeyToCid (s.mem recvAddr).key < kv.pool.numClients := by
      rw [hcli]
      exact hcid
    have hf := hinv.insert hkey (h.ne hpage).1 hcid' hins
    have hk := hinv.insert_keeps hstocked hkey hpage hfree (h.ne hpage).1 hcid' hins
    refine ⟨hk.capacity.trans (by rw [htable]), fun fl => (hk.maxChunks fl).trans
      (h.inv.kv.allocate_maxChunks hnone halloc fl), fun p hp => ?_, fun p hp => ?_⟩
    · have hne : recvAddr ≠ p := fun he => hp (he ▸ hpage)
      have hle := hf.places p
      have := hplaces p
      rw [KV.single, if_neg hne] at hle
      dsimp only
      omega
    · have hposted := posted_postRecv hcid hqid value p
      have hsame : ({ s.postRecv (longkeyToCid (s.mem recvAddr).key) qid value with kv := kv' } :
          Server Page).posted p =
          (s.postRecv (longkeyToCid (s.mem recvAddr).key) qid value).posted p := by
        show Lib.occurrences (queues kv'.pool.numClients) _ p = _
        rw [hf.numClients, hcli]
        rfl
      have := hplaces p
      have := hk.places p
      unfold Server.places
      rw [hsame, hposted]
      show _ ≤ kv'.places p + _ + 0
      omega

/-- A receive without a buffer, or one with a page of the stock, was taken from
its queue. -/
theorem Stocked.processRecv (h : s.Stocked hash stock) {cid qid : ℕ}
    (hcid : cid < s.kv.pool.numClients) (hqid : qid < numQps) {wrId : Value}
    (hslot : wrId ≠ NONE → qid < numDataQps ∧ wrId ∈ stock ∧ s.places wrId = 0 ∧
      Usable (s.mem wrId).key ∧ longkeyToCid (s.mem wrId).key = cid)
    {imm : BitVec 32} {d : Draw} {r : Option (Reply Page)}
    (hr : s.processRecv hash cid qid wrId imm d = .ok (s', r)) :
    Retains stock s s' (KV.single wrId) fun _ => 0 := by
  have hnone : wrId = NONE → ∀ {t : Server Page}, Retains stock s t (fun _ => 0) (fun _ => 0) →
      Retains stock s t (KV.single wrId) fun _ => 0 := by
    rintro rfl t ht
    refine ht.congr fun p hp => ?_
    rw [KV.single, if_neg (h.ne hp).1.symm]
  unfold Server.processRecv at hr
  split at hr
  next hfilter =>
    cases hr
    have hwr : wrId = NONE := by
      by_contra hne
      have hlt := (hslot hne).1
      omega
    apply hnone hwr
    have hcbf : Retains stock s { s with kv := { s.kv with
        cbfs := Function.update s.kv.cbfs cid (s.kv.cbfs cid).toOrdinaryBF } }
        (fun _ => 0) fun _ => 0 :=
      ⟨rfl, fun _ => rfl, fun _ _ => Nat.le_refl _, fun _ _ => Nat.le_refl _⟩
    exact hcbf.trans (retains_postRecv_same (s := { s with kv := { s.kv with
      cbfs := Function.update s.kv.cbfs cid (s.kv.cbfs cid).toOrdinaryBF } }) hcid hqid NONE)
  next =>
    split at hr
    next hwr =>
      cases hr
      exact hnone hwr (Retains.refl s)
    next hne =>
      obtain ⟨-, hpage, hfresh, hkey, howner⟩ := hslot hne
      exact h.processPut hcid hqid hpage hfresh hkey howner hr

theorem Stocked.removeFree (h : s.Stocked hash stock) {cid : ℕ}
    (hcid : cid < s.kv.pool.numClients) {key : Key} (hkey : Usable key)
    (howner : longkeyToCid key = cid) (rand : ℕ) :
    Retains stock s { s with kv := s.kv.removeFree hash key cid rand } (fun _ => 0)
      fun _ => 0 := by
  subst howner
  exact .of_kv (h.inv.kv.removeFree hkey hcid rand) (h.inv.kv.removeFree_keeps h.kv hkey hcid rand)
    fun _ _ => rfl

theorem Stocked.processGet (h : s.Stocked hash stock) {cid qid : ℕ}
    (hcid : cid < s.kv.pool.numClients) (hkey : Usable (s.metaRegion cid (readKeyOffset qid)))
    (howner : longkeyToCid (s.metaRegion cid (readKeyOffset qid)) = cid) (mid : ℕ) (d : Draw) :
    Retains stock s (s.processGet hash exclusivePolicy cid qid mid d).1 (fun _ => 0)
      fun _ => 0 := by
  cases exclusivePolicy with
  | true =>
      rw [processGet_exclusive]
      exact h.removeFree hcid hkey howner d.rand
  | false =>
      have hflag := h.inv.kv.getWithFlag (s.metaRegion cid (readKeyOffset qid)) true d.now
      have hflag' := KV.getWithFlag_keeps hash s.kv (s.metaRegion cid (readKeyOffset qid)) true d.now
      rw [processGet_inclusive]
      split
      · exact .of_kv (hflag.trans (hflag.inv.getWithFlag _ false d.nowEnd))
          (hflag'.trans (KV.getWithFlag_keeps hash _ _ false d.nowEnd)) fun _ _ => rfl
      · exact .of_kv hflag hflag' fun _ _ => rfl

theorem Stocked.processImm (h : s.Stocked hash stock) {cid qid : ℕ}
    (hcid : cid < s.kv.pool.numClients) (hqid : qid < numQps) {imm : BitVec 32}
    (hreq : ∀ key ∈ s.requestKey cid qid imm, Usable key ∧ longkeyToCid key = cid) {d : Draw}
    {r : Option (Reply Page)} (hr : s.processImm hash exclusivePolicy cid qid imm d = (s', r)) :
    Retains stock s s' (fun _ => 0) fun _ => 0 := by
  have hpost : Retains stock s (s.postRecv cid qid NONE) (fun _ => 0) fun _ => 0 :=
    retains_postRecv_same hcid hqid NONE
  have hstocked := h.of_retains (h.inv.postRecv_none hcid hqid (Or.inl rfl)) hpost
  rcases processImm_cases hash exclusivePolicy s cid qid imm d with
    ⟨hkey, mid, heq⟩ | ⟨mid, hkey, heq⟩ | ⟨-, heq⟩
  · obtain ⟨husable, howner⟩ := hreq _ hkey
    cases heq.symm.trans hr
    exact hpost.trans (hstocked.processGet hcid husable howner mid d)
  · obtain ⟨husable, howner⟩ := hreq _ hkey
    have hfst := congrArg Prod.fst (heq.symm.trans hr)
    rw [processInvalidatePage_fst] at hfst
    subst hfst
    exact hpost.trans (hstocked.removeFree hcid husable howner d.rand)
  · cases heq.symm.trans hr
    exact Retains.refl s

/-! ## One step -/

/-- The receive that the completion of a get or an invalidation takes. -/
def taken (s : Server Page) : ServerStep Page → Option Value
  | .writeImm cid qid _ _ _ _ => (s.recvs (cid, qid)).head?
  | _ => none

/-- It carries no page. -/
def TakesNoPage (s : Server Page) (a : ServerStep Page) : Prop :=
  ∀ addr ∈ s.taken a, addr = NONE ∨ addr = FAILED

/-- The lists that `pre_post_recvs` takes the pages of a data queue from hold
enough of them. -/
def Supplied (s : Server Page) : ServerStep Page → Prop
  | .prePostRecvs cid qid => qid < numDataQps → maxQpsRecvs ≤ s.kv.pool.available cid qid
  | _ => True

/-- A step loses the page of a receive it takes, and no other. -/
theorem Stocked.step_retains (h : s.Stocked hash stock) {a : ServerStep Page}
    (hwf : s.WellFormed a) {r : Option (Reply Page)}
    (hstep : s.step hash exclusivePolicy a = some (s', r)) :
    Retains stock s s' (fun _ => 0) fun p => if s.taken a = some p then 1 else 0 := by
  have hnone : s.taken a = none → Retains stock s s' (fun _ => 0) (fun _ => 0) →
      Retains stock s s' (fun _ => 0) fun p => if s.taken a = some p then 1 else 0 :=
    fun _ hr => hr.congr fun p _ => Nat.le_add_right _ _
  cases a with
  | prePostRecvs cid qid =>
      simp only [Server.step, Option.some.injEq, Prod.mk.injEq] at hstep
      rw [← hstep.1] at hnone ⊢
      exact hnone rfl (h.iterate_prePostRecv hwf.1 hwf.2 maxQpsRecvs).2
  | recvMr cid =>
      simp only [Server.step, Option.some.injEq, Prod.mk.injEq] at hstep
      rw [← hstep.1] at hnone ⊢
      exact hnone rfl (retains_postRecv_same hwf (by decide) NONE)
  | send cid qid msg imm d =>
      obtain ⟨hcid, hqid, hmsg⟩ := hwf
      obtain ⟨addr, t, hhead, hdeliver, hrecv⟩ := step_send hstep
      obtain ⟨hkv, hrecvs, haddr⟩ := deliver_some hdeliver
      obtain ⟨hpopped, hpage⟩ := h.popRecv hcid hqid hhead
      have hmid : Retains stock s t (fun _ => 0) (KV.single addr) :=
        (retains_popRecv hcid hqid hhead).trans (.of_eq hkv hrecvs)
      have hplaces : t.places addr = (s.popRecv cid qid).places addr := by
        unfold Server.places posted
        rw [hkv, hrecvs]
      have hstocked : t.Stocked hash stock :=
        hpopped.of_retains (.of_eq hpopped.inv hkv hrecvs) (.of_eq hkv hrecvs)
      have hslot : addr ≠ NONE → qid < numDataQps ∧ addr ∈ stock ∧ t.places addr = 0 ∧
          Usable (t.mem addr).key ∧ longkeyToCid (t.mem addr).key = cid := by
        intro hne
        rcases haddr with ⟨hnull, -⟩ | ⟨-, hfailed, b, rfl, hmem⟩
        · exact absurd hnull hne
        · obtain ⟨hin, hzero⟩ := hpage hne hfailed
          rw [hmem, Function.update_self, hplaces]
          exact ⟨hmsg.1, hin, hzero, hmsg.2⟩
      have hcid' : cid < t.kv.pool.numClients := by
        rw [hkv]
        exact hcid
      apply hnone rfl
      refine (hmid.trans (hstocked.processRecv hcid' hqid hslot hrecv)).congr fun p _ => ?_
      omega
  | writeImm cid qid off words imm d =>
      obtain ⟨hcid, hqid, hreq⟩ := hwf
      obtain ⟨addr, hhead, himm⟩ := step_writeImm hstep
      obtain ⟨hpopped, -⟩ := h.popRecv hcid hqid hhead
      have heq : Retains stock (s.popRecv cid qid)
          ((s.popRecv cid qid).remoteWrite cid off words) (fun _ => 0) fun _ => 0 := .of_eq rfl rfl
      have hsame : Follows hash (s.popRecv cid qid)
          ((s.popRecv cid qid).remoteWrite cid off words) fun _ => 0 := .of_eq hpopped.inv rfl rfl
      have hstocked := hpopped.of_retains hsame heq
      refine ((retains_popRecv hcid hqid hhead).trans
        (heq.trans (hstocked.processImm hcid hqid hreq himm))).congr fun p _ => ?_
      have htaken : s.taken (.writeImm cid qid off words imm d) = some addr := hhead
      simp only [htaken, KV.single, Option.some.injEq]
      omega
  | evict draws rand =>
      obtain ⟨kv, hev, rfl, -⟩ := step_evict hstep
      exact hnone rfl (.of_kv (h.inv.kv.evict hev) (h.inv.kv.evict_keeps h.kv hev) fun _ _ => rfl)
  | allocateFromPeer fl =>
      obtain ⟨a, pool, halloc, rfl, -⟩ := step_allocateFromPeer hstep
      exact hnone rfl (.of_kv (h.inv.kv.allocateFromPeer hwf halloc)
        (h.inv.kv.allocateFromPeer_keeps h.kv hwf halloc) fun _ _ => rfl)

theorem Stocked.step (h : s.Stocked hash stock) {a : ServerStep Page} (hwf : s.WellFormed a)
    {r : Option (Reply Page)} (hstep : s.step hash exclusivePolicy a = some (s', r)) :
    s'.Stocked hash stock :=
  h.of_retains (h.inv.step hwf hstep) (h.step_retains hwf hstep)

/-! ## Where a page is -/

def Somewhere (s : Server Page) (p : Value) : Prop :=
  p ∈ s.kv.pool.pages ∨ s.kv.Stores (fun _ => True) p ∨
    ∃ cid < s.kv.pool.numClients, ∃ qid < numQps, p ∈ s.recvs (cid, qid)

theorem posted_pos {p : Value} : 0 < s.posted p ↔
    ∃ cid < s.kv.pool.numClients, ∃ qid < numQps, p ∈ s.recvs (cid, qid) := by
  constructor
  · intro hpos
    obtain ⟨⟨cid, qid⟩, hq, hne⟩ := Finset.exists_ne_zero_of_sum_ne_zero (Nat.ne_of_gt hpos)
    obtain ⟨hcid, hqid⟩ := Finset.mem_product.mp hq
    exact ⟨cid, Finset.mem_range.mp hcid, qid, Finset.mem_range.mp hqid,
      List.count_pos_iff.mp (Nat.pos_of_ne_zero hne)⟩
  · rintro ⟨cid, hcid, qid, hqid, hmem⟩
    exact Nat.lt_of_lt_of_le (List.count_pos_iff.mpr hmem)
      (Lib.count_le_occurrences (mem_queues hcid hqid) s.recvs p)

theorem Inv.somewhere_iff (h : s.Inv hash) {p : Value} : s.Somewhere p ↔ 0 < s.places p := by
  rw [Somewhere, ← posted_pos, PerCPUPool.mem_pages, Server.places]
  constructor
  · rintro (hpool | hstored | hposted)
    · unfold KV.places
      omega
    · have hle := hstored.one_le_places h.kv
      omega
    · omega
  · intro hpos
    by_cases hpool : 0 < s.kv.pool.count p
    · exact Or.inl hpool
    by_cases hposted : 0 < s.posted p
    · exact Or.inr (Or.inr hposted)
    · refine Or.inr (Or.inl (KV.stores_of_sum ?_))
      unfold KV.places at hpos
      omega

/-! ## No page is lost -/

/-- A page in a receive that a get or an invalidation takes is nowhere
afterwards: it was posted once, and a receive without it is posted instead. -/
theorem Stocked.step_loses (h : s.Stocked hash stock) {a : ServerStep Page}
    (hwf : s.WellFormed a) {r : Option (Reply Page)}
    (hstep : s.step hash exclusivePolicy a = some (s', r)) {addr : Value}
    (htaken : s.taken a = some addr) (hnull : addr ≠ NONE) (hfailed : addr ≠ FAILED) :
    addr ∈ stock ∧ ¬ s'.Somewhere addr := by
  have hinv' := (h.step hwf hstep).inv
  cases a with
  | writeImm cid qid off words imm d =>
      obtain ⟨hcid, hqid, hreq⟩ := hwf
      obtain ⟨-, -, himm⟩ := step_writeImm hstep
      obtain ⟨hpopped, hzero⟩ := h.popRecv hcid hqid htaken
      obtain ⟨hmem, hgone⟩ := hzero hnull hfailed
      have hsame : Follows hash (s.popRecv cid qid)
          ((s.popRecv cid qid).remoteWrite cid off words) fun _ => 0 :=
        .of_eq hpopped.inv rfl rfl
      have hle := (hsame.trans (hsame.inv.processImm hcid hqid hreq himm)).places addr
        hnull hfailed
      refine ⟨hmem, fun hsome => ?_⟩
      have hpos := hinv'.somewhere_iff.mp hsome
      omega
  | prePostRecvs _ _ | recvMr _ | send _ _ _ _ _ | evict _ _ | allocateFromPeer _ =>
      cases htaken

theorem Stocked.step_somewhere_iff (h : s.Stocked hash stock)
    (hall : ∀ p ∈ stock, s.Somewhere p) {a : ServerStep Page} (hwf : s.WellFormed a)
    {r : Option (Reply Page)} (hstep : s.step hash exclusivePolicy a = some (s', r)) :
    (∀ p ∈ stock, s'.Somewhere p) ↔ s.TakesNoPage a := by
  constructor
  · intro hall' addr htaken
    by_contra hpage
    push Not at hpage
    obtain ⟨hmem, hlost⟩ := h.step_loses hwf hstep htaken hpage.1 hpage.2
    exact hlost (hall' addr hmem)
  · intro htakes p hp
    have hpos := h.inv.somewhere_iff.mp (hall p hp)
    have hle := (h.step_retains hwf hstep).places p hp
    have hne : s.taken a ≠ some p := by
      intro htaken
      obtain ⟨hnull, hfailed⟩ := h.ne hp
      rcases htakes p htaken with he | he
      · exact hnull he
      · exact hfailed he
    rw [if_neg hne] at hle
    exact (h.step hwf hstep).inv.somewhere_iff.mpr (by omega)

/-! ## Only pages are posted, stored and freed -/

/-- One of the slots of the region behind `start_addr`. -/
def InPool (startAddr : Value) (memPoolSize : ℕ) (p : Value) : Prop :=
  ∃ j, p = PerCPUPool.page startAddr j ∧ (j + 1) * SLOT_SIZE ≤ memPoolSize

structure OnlyPages (startAddr : Value) (memPoolSize : ℕ) (s : Server Page) : Prop where
  posted : ∀ cid < s.kv.pool.numClients, ∀ qid < numQps, ∀ addr ∈ s.recvs (cid, qid),
    addr ≠ NONE → InPool startAddr memPoolSize addr
  stored : ∀ p, s.kv.Stores (fun _ => True) p → InPool startAddr memPoolSize p
  listed : ∀ p ∈ s.kv.pool.pages, InPool startAddr memPoolSize p
  freed : ∀ p ∈ s.kv.pool.freed, InPool startAddr memPoolSize p

variable {startAddr : Value} {memPoolSize : ℕ}

/-- Among the posted addresses only the failure value can be no page. -/
theorem Stocked.onlyPages_iff (h : s.Stocked hash stock)
    (hstock : ∀ p ∈ stock, InPool startAddr memPoolSize p)
    (hfailed : ¬ InPool startAddr memPoolSize FAILED) :
    s.OnlyPages startAddr memPoolSize ↔
      s.posted FAILED = 0 ∧ ∀ p ∈ s.kv.pool.freed, InPool startAddr memPoolSize p := by
  constructor
  · intro hall
    refine ⟨Nat.eq_zero_of_not_pos fun hpos => ?_, hall.freed⟩
    obtain ⟨cid, hcid, qid, hqid, hmem⟩ := posted_pos.mp hpos
    exact hfailed (hall.posted cid hcid qid hqid FAILED hmem (by decide))
  · rintro ⟨hzero, hfreed⟩
    refine ⟨fun cid hcid qid hqid addr hmem hnull => hstock addr ?_, fun p hp =>
      hstock p (h.kv.of_stores h.inv.kv hp).1, fun p hp => hstock p ?_, hfreed⟩
    · have hpos := posted_pos.mpr ⟨cid, hcid, qid, hqid, hmem⟩
      by_contra hnot
      by_cases he : addr = FAILED
      · rw [he] at hpos
        omega
      · have := h.foreign addr hnot hnull he
        omega
    · have hpos := PerCPUPool.mem_pages.mp hp
      by_contra hnot
      have hzero := h.kv.pages p hnot
      unfold KV.places at hzero
      omega

/-! ### The failure value -/

/-- A receive is posted with the failure value exactly if the lists are empty,
else there is one page less on them. -/
theorem Stocked.prePostRecv_failed (h : s.Stocked hash stock) {cid qid : ℕ}
    (hcid : cid < s.kv.pool.numClients) (hqid : qid < numDataQps) :
    (s.kv.pool.available cid qid = 0 ∧
      (s.prePostRecv cid qid).kv.pool.available cid qid = 0 ∧
      (s.prePostRecv cid qid).posted FAILED = s.posted FAILED + 1) ∨
    ((s.prePostRecv cid qid).kv.pool.available cid qid + 1 = s.kv.pool.available cid qid ∧
      (s.prePostRecv cid qid).posted FAILED = s.posted FAILED) := by
  have hlt : qid < numQps := Nat.lt_of_lt_of_le hqid (Nat.le_add_right _ _)
  unfold Server.prePostRecv
  rw [if_pos hqid]
  cases halloc : s.kv.allocate cid (some qid) 0 with
  | none =>
      have hzero := PerCPUPool.available_of_none (Option.map_eq_none_iff.mp halloc)
      refine Or.inl ⟨hzero, hzero, ?_⟩
      have hposted := posted_postRecv hcid hlt FAILED FAILED
      rwa [KV.single, if_pos rfl] at hposted
  | some v =>
      obtain ⟨value, kv⟩ := v
      have hper : ∀ q, some qid = some q → q < s.kv.pool.perCliFl := by
        rintro q ⟨⟩
        rw [h.inv.perCliFl]
        exact hqid
      obtain ⟨-, hpage⟩ := h.kv.allocate h.inv.kv hcid hper halloc
      obtain ⟨-, -, -, hcli, -, -⟩ := h.inv.kv.allocate hcid hper halloc
      have hposted := posted_postRecv (s := { s with kv }) (hcli ▸ hcid) hlt value FAILED
      have hsame : ({ s with kv } : Server Page).posted FAILED = s.posted FAILED := by
        show Lib.occurrences (queues kv.pool.numClients) s.recvs FAILED = _
        rw [hcli]
        rfl
      obtain ⟨⟨a, pool⟩, hpool, heq⟩ := Option.map_eq_some_iff.mp halloc
      cases heq
      refine Or.inr ⟨PerCPUPool.available_of_some hpool, hposted.trans ?_⟩
      rw [KV.single, if_neg (h.ne hpage).2, hsame, Nat.add_zero]

theorem iterate_prePostRecv_failed {cid qid : ℕ} (hqid : qid < numDataQps) (n : ℕ) :
    ∀ {s : Server Page}, s.Stocked hash stock → cid < s.kv.pool.numClients →
      ((fun s => prePostRecv s cid qid)^[n] s).posted FAILED =
        s.posted FAILED + (n - s.kv.pool.available cid qid) := by
  induction n with
  | zero =>
      intro s _ _
      rw [Nat.zero_sub]
      rfl
  | succ n ih =>
      intro s h hcid
      have hlt : qid < numQps := Nat.lt_of_lt_of_le hqid (Nat.le_add_right _ _)
      have hf := h.inv.prePostRecv hcid hlt
      rw [Function.iterate_succ_apply,
        ih (h.of_retains hf (h.prePostRecv hcid hlt)) (hf.numClients ▸ hcid)]
      rcases h.prePostRecv_failed hcid hqid with ⟨hzero, hzero', hposted⟩ | ⟨hone, hposted⟩
      · rw [hposted, hzero, hzero']
        omega
      · rw [hposted, ← hone]
        omega

theorem failed_of_postRecv {cid qid : ℕ} {addr : Value} (haddr : addr ≠ FAILED) {q : ℕ × ℕ}
    (h : FAILED ∈ (s.postRecv cid qid addr).recvs q) : FAILED ∈ s.recvs q := by
  change FAILED ∈ Function.update s.recvs (cid, qid) _ q at h
  by_cases hq : q = (cid, qid)
  · subst hq
    rw [Function.update_self, List.mem_append, List.mem_singleton] at h
    exact h.resolve_right haddr.symm
  · rwa [Function.update_of_ne hq] at h

theorem failed_of_popRecv {cid qid : ℕ} {q : ℕ × ℕ} (h : FAILED ∈ (s.popRecv cid qid).recvs q) :
    FAILED ∈ s.recvs q := by
  change FAILED ∈ Function.update s.recvs (cid, qid) _ q at h
  by_cases hq : q = (cid, qid)
  · subst hq
    rw [Function.update_self] at h
    exact List.mem_of_mem_tail h
  · rwa [Function.update_of_ne hq] at h

/-- The filter's queue gets receives without a buffer. -/
theorem failed_of_prePostRecvs {cid qid : ℕ} (hqid : ¬ qid < numDataQps) {q : ℕ × ℕ}
    (h : FAILED ∈ (s.prePostRecvs cid qid).recvs q) : FAILED ∈ s.recvs q := by
  have hloop : ∀ n, FAILED ∈ ((fun s => prePostRecv s cid qid)^[n] s).recvs q →
      FAILED ∈ s.recvs q := by
    intro n
    induction n with
    | zero => exact id
    | succ n ih =>
        rw [Function.iterate_succ_apply']
        intro hmem
        rw [prePostRecv, if_neg hqid] at hmem
        exact ih (failed_of_postRecv (by decide) hmem)
  unfold prePostRecvs at h
  exact hloop maxQpsRecvs h

theorem Stocked.failed_of_processRecv (h : s.Stocked hash stock) {cid qid : ℕ}
    (hcid : cid < s.kv.pool.numClients) {wrId : Value} (hwr : wrId ≠ FAILED)
    {imm : BitVec 32} {d : Draw} {r : Option (Reply Page)}
    (hr : s.processRecv hash cid qid wrId imm d = .ok (s', r)) {q : ℕ × ℕ}
    (hmem : FAILED ∈ s'.recvs q) : FAILED ∈ s.recvs q := by
  unfold Server.processRecv at hr
  split at hr
  · cases hr
    exact failed_of_postRecv (by decide) hmem
  · split at hr
    · cases hr
      exact hmem
    next hnull =>
      rcases processPut_ok hr with ⟨-, rfl⟩ | ⟨value, kv, kv', halloc, -, rfl⟩
      · exact failed_of_postRecv hwr hmem
      · obtain ⟨-, hpage⟩ := h.kv.allocate h.inv.kv hcid (by rintro q ⟨⟩) halloc
        exact failed_of_postRecv (h.ne hpage).2 hmem

theorem failed_of_processImm {cid qid : ℕ} {imm : BitVec 32} {d : Draw}
    {r : Option (Reply Page)} (hr : s.processImm hash exclusivePolicy cid qid imm d = (s', r))
    {q : ℕ × ℕ} (hmem : FAILED ∈ s'.recvs q) : FAILED ∈ s.recvs q := by
  rcases processImm_cases hash exclusivePolicy s cid qid imm d with
    ⟨-, mid, heq⟩ | ⟨mid, -, heq⟩ | ⟨-, heq⟩
  · cases heq.symm.trans hr
    exact failed_of_postRecv (by decide) hmem
  · have hfst := congrArg Prod.fst (heq.symm.trans hr)
    rw [processInvalidatePage_fst] at hfst
    subst hfst
    exact failed_of_postRecv (by decide) hmem
  · cases heq.symm.trans hr
    exact hmem

/-- A step posts the failure value exactly if it runs out of pages. -/
theorem Stocked.step_failed_iff (h : s.Stocked hash stock) (hzero : s.posted FAILED = 0)
    {a : ServerStep Page} (hwf : s.WellFormed a) {r : Option (Reply Page)}
    (hstep : s.step hash exclusivePolicy a = some (s', r)) :
    s'.posted FAILED = 0 ↔ s.Supplied a := by
  have hcli := (h.inv.step hwf hstep).numClients
  -- a step that posts no failure value anywhere
  have hkept : (∀ q, FAILED ∈ s'.recvs q → FAILED ∈ s.recvs q) → s'.posted FAILED = 0 := by
    intro hmem
    by_contra hne
    obtain ⟨cid, hcid, qid, hqid, hin⟩ := posted_pos.mp (Nat.pos_of_ne_zero hne)
    have hpos := posted_pos.mpr ⟨cid, hcli ▸ hcid, qid, hqid, hmem _ hin⟩
    omega
  cases a with
  | prePostRecvs cid qid =>
      simp only [Server.step, Option.some.injEq, Prod.mk.injEq] at hstep
      rw [← hstep.1] at hkept ⊢
      by_cases hqid : qid < numDataQps
      · have hposted := iterate_prePostRecv_failed hqid maxQpsRecvs h hwf.1
        change (s.prePostRecvs cid qid).posted FAILED = _ at hposted
        rw [hposted, hzero, Nat.zero_add, Nat.sub_eq_zero_iff_le]
        exact ⟨fun hle _ => hle, fun hle => hle hqid⟩
      · exact ⟨fun _ hlt => absurd hlt hqid, fun _ => hkept fun q => failed_of_prePostRecvs hqid⟩
  | recvMr cid =>
      simp only [Server.step, Option.some.injEq, Prod.mk.injEq] at hstep
      rw [← hstep.1] at hkept ⊢
      exact ⟨fun _ => trivial, fun _ => hkept fun q => failed_of_postRecv (by decide)⟩
  | send cid qid msg imm d =>
      obtain ⟨hcid, hqid, -⟩ := hwf
      obtain ⟨addr, t, hhead, hdeliver, hrecv⟩ := step_send hstep
      obtain ⟨hkv, hrecvs, haddr⟩ := deliver_some hdeliver
      obtain ⟨hpopped, -⟩ := h.popRecv hcid hqid hhead
      have hstocked : t.Stocked hash stock :=
        hpopped.of_retains (.of_eq hpopped.inv hkv hrecvs) (.of_eq hkv hrecvs)
      have haddr : addr ≠ FAILED := by
        rcases haddr with ⟨rfl, -⟩ | ⟨-, hne, -⟩
        · decide
        · exact hne
      have hcid' : cid < t.kv.pool.numClients := by
        rw [hkv]
        exact hcid
      refine ⟨fun _ => trivial, fun _ => hkept fun q hmem => ?_⟩
      have hpopped := hstocked.failed_of_processRecv hcid' haddr hrecv hmem
      rw [hrecvs] at hpopped
      exact failed_of_popRecv hpopped
  | writeImm cid qid off words imm d =>
      obtain ⟨addr, hhead, himm⟩ := step_writeImm hstep
      refine ⟨fun _ => trivial, fun _ => hkept fun q hmem => ?_⟩
      have hpopped : FAILED ∈ (s.popRecv cid qid).recvs q := failed_of_processImm himm hmem
      exact failed_of_popRecv hpopped
  | evict draws rand =>
      obtain ⟨kv, hev, rfl, -⟩ := step_evict hstep
      exact ⟨fun _ => trivial, fun _ => hkept fun q hmem => hmem⟩
  | allocateFromPeer fl =>
      obtain ⟨a, pool, halloc, rfl, -⟩ := step_allocateFromPeer hstep
      exact ⟨fun _ => trivial, fun _ => hkept fun q hmem => hmem⟩

theorem Stocked.step_onlyPages_iff (h : s.Stocked hash stock)
    (hstock : ∀ p ∈ stock, InPool startAddr memPoolSize p)
    (hfailed : ¬ InPool startAddr memPoolSize FAILED) (hall : s.OnlyPages startAddr memPoolSize)
    {a : ServerStep Page} (hwf : s.WellFormed a) {r : Option (Reply Page)}
    (hstep : s.step hash exclusivePolicy a = some (s', r)) :
    s'.OnlyPages startAddr memPoolSize ↔ s.Supplied a := by
  obtain ⟨hzero, hfreed⟩ := (h.onlyPages_iff hstock hfailed).mp hall
  have hfreed' : ∀ p ∈ s'.kv.pool.freed, InPool startAddr memPoolSize p := by
    rcases h.inv.step_frees hwf hstep with heq | ⟨p, ⟨hnull, hspare⟩, heq⟩
    · rw [heq]
      exact hfreed
    · rw [heq]
      refine List.forall_mem_cons.mpr ⟨?_, hfreed⟩
      rcases hspare with hposted | hstored
      · obtain ⟨cid, hcid, qid, hqid, hmem⟩ := posted_pos.mp hposted
        exact hall.posted cid hcid qid hqid p hmem hnull
      · exact hall.stored p hstored
  rw [(h.step hwf hstep).onlyPages_iff hstock hfailed, h.step_failed_iff hzero hwf hstep]
  exact ⟨fun hs => hs.1, fun hs => ⟨hs, hfreed'⟩⟩

end Server

/-! ## Every run -/

section Run

variable {Page : Type} (hash : HashFuncs) (exclusivePolicy : Bool) {startAddr : Value}
  {mb numClients numHash numBits : ℕ} {mem : Value → Slot Page}

theorem memPoolSize_eq (mb : ℕ) : memPoolSize mb = mb * 2 ^ 20 := Nat.shiftLeft_eq mb 20

theorem lockSize_le_tableCapacity (hmb : 0 < mb) :
    lockSize ≤ KV.tableCapacity (memPoolSize mb) := by
  have hcap : ∀ size, 1048576 ≤ size → lockSize ≤ KV.tableCapacity size := by
    intro size hsize
    have hle : 16 ≤ size / 4096 * 110 / 100 := by omega
    rw [KV.tableCapacity]
    show 16 ≤ _
    split
    · omega
    · omega
  have hsize := memPoolSize_eq mb
  exact hcap _ (by omega)

/-- A page of the region is neither the null pointer nor the failure value. -/
theorem InPool.ne {size : ℕ} (hstart : startAddr ≠ NONE) (hend : startAddr + size ≤ 2 ^ 64)
    {p : Value} (hp : Server.InPool startAddr size p) : p ≠ NONE ∧ p ≠ FAILED := by
  obtain ⟨j, rfl, hj⟩ := hp
  exact page_ne hstart hend hj

theorem new_stocked (hstart : startAddr ≠ NONE) (hend : startAddr + memPoolSize mb ≤ 2 ^ 64) :
    (Server.new startAddr (memPoolSize mb) numClients numHash numBits mem).Stocked hash
      (PerCPUPool.new startAddr (memPoolSize mb) numClients numDataQps).pages := by
  have hinv : (Server.new startAddr (memPoolSize mb) numClients numHash numBits mem).Inv hash :=
    Server.new_inv startAddr (memPoolSize mb) numClients numHash numBits mem
  have hsum := LinearProbingApprox.new_sum (KV.tableCapacity (memPoolSize mb))
  have hslot := PerCPUPool.new_pages_slot startAddr (memPoolSize mb) numClients numDataQps
  have hcard := PerCPUPool.new_pages_card startAddr (memPoolSize mb) numClients numDataQps
  refine ⟨hinv, ⟨?_, fun p hp => ?_, fun hne => ?_, fun fl hfl => ?_⟩, fun p _ _ => ?_,
    fun p _ _ _ => Finset.sum_eq_zero fun _ _ => List.count_nil, fun hp => ?_, fun hp => ?_⟩
  · exact KV.new_places_le_one startAddr (memPoolSize mb) numClients numHash numBits
  · -- nothing is stored yet
    have hcount : (PerCPUPool.new startAddr (memPoolSize mb) numClients numDataQps).count p = 0 :=
      Nat.eq_zero_of_not_pos fun hpos => hp (PerCPUPool.mem_pages.mpr hpos)
    exact Nat.add_eq_zero_iff.mpr ⟨hcount, hsum fun _ v => KV.single v p⟩
  · apply lockSize_le_tableCapacity
    by_contra hzero
    obtain rfl : mb = 0 := Nat.eq_zero_of_not_pos hzero
    have hpos := Finset.card_pos.mpr hne
    have hsize : memPoolSize 0 = 0 := Nat.zero_shiftLeft 20
    rw [hsize, Nat.zero_div] at hcard
    exact absurd hpos (Nat.not_lt_of_le hcard)
  · have hchunks : ((PerCPUPool.new startAddr (memPoolSize mb) numClients numDataQps).freelist
        fl).maxChunks = memPoolSize mb / SLOT_SIZE := PerCPUPool.new_maxChunks _ _ _ _ hfl
    exact Nat.le_trans hcard (Nat.le_of_eq hchunks.symm)
  · exact Server.new_places_le_one startAddr (memPoolSize mb) numClients numHash numBits mem p
  · exact (InPool.ne hstart hend (hslot _ hp)).1 rfl
  · exact (InPool.ne hstart hend (hslot _ hp)).2 rfl

variable {as : List (ServerStep Page)} {s : Server Page}

/-- The pages that the constructor put on the lists stay in a free list, a
bucket or a receive throughout a run if and only if no completion of a get or
an invalidation in it takes a receive that carries a page. -/
theorem no_page_lost_iff (hstart : startAddr ≠ NONE) (hend : startAddr + memPoolSize mb ≤ 2 ^ 64)
    (hwf : (serverSystem hash exclusivePolicy
      (.new startAddr (memPoolSize mb) numClients numHash numBits mem)).Meets Server.WellFormed
      (.new startAddr (memPoolSize mb) numClients numHash numBits mem) as)
    (hrun : (serverSystem hash exclusivePolicy
      (.new startAddr (memPoolSize mb) numClients numHash numBits mem)).exec
      (.new startAddr (memPoolSize mb) numClients numHash numBits mem) as = some s) :
    (serverSystem hash exclusivePolicy
        (.new startAddr (memPoolSize mb) numClients numHash numBits mem)).Always
      (fun t => ∀ p ∈ (PerCPUPool.new startAddr (memPoolSize mb) numClients numDataQps).pages,
        t.Somewhere p)
      (.new startAddr (memPoolSize mb) numClients numHash numBits mem) as ↔
    (serverSystem hash exclusivePolicy
        (.new startAddr (memPoolSize mb) numClients numHash numBits mem)).Meets
      Server.TakesNoPage (.new startAddr (memPoolSize mb) numClients numHash numBits mem) as := by
  refine System.always_iff_meets (P := Server.WellFormed) (J := Server.Stocked hash
    (PerCPUPool.new startAddr (memPoolSize mb) numClients numDataQps).pages) ?_ ?_
    (new_stocked hash hstart hend) (fun p hp => Or.inl hp) hwf hrun
  · intro t a t' h hw hstep
    obtain ⟨r, hs⟩ := serverSystem_step hstep
    exact h.step hw hs
  · intro t a t' h hall hw hstep
    obtain ⟨r, hs⟩ := serverSystem_step hstep
    exact h.step_somewhere_iff hall hw hs

/-- Every address that is posted, stored, on a free list or freed in a run is a
slot of the pool if and only if each `pre_post_recvs` of a data queue finds
enough pages on the lists it tries. -/
theorem only_pages_circulate_iff (hstart : startAddr ≠ NONE)
    (hend : startAddr + memPoolSize mb ≤ 2 ^ 64)
    (hwf : (serverSystem hash exclusivePolicy
      (.new startAddr (memPoolSize mb) numClients numHash numBits mem)).Meets Server.WellFormed
      (.new startAddr (memPoolSize mb) numClients numHash numBits mem) as)
    (hrun : (serverSystem hash exclusivePolicy
      (.new startAddr (memPoolSize mb) numClients numHash numBits mem)).exec
      (.new startAddr (memPoolSize mb) numClients numHash numBits mem) as = some s) :
    (serverSystem hash exclusivePolicy
        (.new startAddr (memPoolSize mb) numClients numHash numBits mem)).Always
      (Server.OnlyPages startAddr (memPoolSize mb))
      (.new startAddr (memPoolSize mb) numClients numHash numBits mem) as ↔
    (serverSystem hash exclusivePolicy
        (.new startAddr (memPoolSize mb) numClients numHash numBits mem)).Meets
      Server.Supplied (.new startAddr (memPoolSize mb) numClients numHash numBits mem) as := by
  have hslot := PerCPUPool.new_pages_slot startAddr (memPoolSize mb) numClients numDataQps
  have hfailed : ¬ Server.InPool startAddr (memPoolSize mb) FAILED := fun hp =>
    (InPool.ne hstart hend hp).2 rfl
  have hnew : (Server.new startAddr (memPoolSize mb) numClients numHash numBits mem).Stocked hash
      (PerCPUPool.new startAddr (memPoolSize mb) numClients numDataQps).pages :=
    new_stocked hash hstart hend
  have hposted : (Server.new startAddr (memPoolSize mb) numClients numHash numBits mem).posted
      FAILED = 0 := Finset.sum_eq_zero fun _ _ => List.count_nil
  refine System.always_iff_meets (P := Server.WellFormed) (J := Server.Stocked hash
    (PerCPUPool.new startAddr (memPoolSize mb) numClients numDataQps).pages) ?_ ?_ hnew
    ((hnew.onlyPages_iff hslot hfailed).mpr ⟨hposted, nofun⟩) hwf hrun
  · intro t a t' h hw hstep
    obtain ⟨r, hs⟩ := serverSystem_step hstep
    exact h.step hw hs
  · intro t a t' h hall hw hstep
    obtain ⟨r, hs⟩ := serverSystem_step hstep
    exact h.step_onlyPages_iff hslot hfailed hall hw hs

end Run

/-! ## Small pools -/

/-- Puts alone take no page away. -/
def putPut : List (ServerStep ℕ) :=
  [.send 0 0 (.slot ⟨7, 1⟩) (immOf .write) { rand := 6, inserts := [{}, {}] },
   .send 0 0 (.slot ⟨8, 1⟩) (immOf .write) { rand := 7, inserts := [{}, {}] }]

theorem no_page_lost_iff_putPut :
    ∃ s, (serverSystem keyHash true smallServer).exec smallServer (startUp ++ putPut) = some s ∧
      ∀ p ∈ smallServer.kv.pool.pages, s.Somewhere p := by
  obtain ⟨hwf, hstart⟩ := startUp_trace true
  have hsome : ((serverSystem keyHash true smallServer).exec started putPut).isSome := by
    decide +kernel
  obtain ⟨s, hrun⟩ := Option.isSome_iff_exists.mp hsome
  have hexec := System.exec_append_some.mpr ⟨started, hstart, hrun⟩
  have htakes : (serverSystem keyHash true smallServer).Meets Server.TakesNoPage smallServer
      (startUp ++ putPut) := by
    refine System.meets_of_mem smallServer _ fun a ha t addr htaken => ?_
    have hnot : ∀ a ∈ startUp ++ putPut, ∀ t : Server ℕ, t.taken a = none := by
      simp [startUp, putPut, Server.taken]
    rw [hnot a ha t] at htaken
    cases htaken
  have hend : 4096 + memPoolSize 1 ≤ 2 ^ 64 := by decide
  exact ⟨s, hexec, (no_page_lost_iff keyHash true (by decide) hend
    (System.meets_append hwf hstart (by decide +kernel)) hexec).mpr htakes _
    (List.prefix_refl _) s hexec⟩

/-- The first get takes the receive with the page of list 4. -/
def firstGet : List (ServerStep ℕ) :=
  [.writeImm 0 2 (readKeyOffset 2) [1, 0x1000] (immOf .read) {}]

theorem page_lost :
    (serverSystem keyHash true smallServer).Meets Server.WellFormed smallServer
      (startUp ++ firstGet) ∧
    ∃ s, (serverSystem keyHash true smallServer).exec smallServer (startUp ++ firstGet) = some s ∧
      PerCPUPool.page 4096 4 ∈ smallServer.kv.pool.pages ∧
      ¬ s.Somewhere (PerCPUPool.page 4096 4) := by
  obtain ⟨hwf, hstart⟩ := startUp_trace true
  have hmeets : (serverSystem keyHash true smallServer).Meets Server.WellFormed started firstGet := by
    decide +kernel
  have hend : 4096 + memPoolSize 1 ≤ 2 ^ 64 := by decide
  have hnew : (Server.new 4096 (memPoolSize 1) 16 1 8 fun _ => ⟨0, 0⟩ : Server ℕ).Stocked keyHash
      (PerCPUPool.new 4096 (memPoolSize 1) 16 numDataQps).pages :=
    new_stocked keyHash (by decide) hend
  have hstocked : started.Stocked keyHash smallServer.kv.pool.pages := by
    refine System.exec_invariant (P := Server.WellFormed) ?_ hnew hwf hstart
    intro t a t' h hw hs
    obtain ⟨r, hs⟩ := serverSystem_step hs
    exact h.step hw hs
  have hsome : ((serverSystem keyHash true smallServer).exec started firstGet).isSome := by
    decide +kernel
  obtain ⟨s, hrun⟩ := Option.isSome_iff_exists.mp hsome
  obtain ⟨m, hstep, hm⟩ := System.exec_cons_some.mp hrun
  obtain rfl : m = s := Option.some.inj hm
  obtain ⟨r, hs⟩ := serverSystem_step hstep
  have htaken : started.taken (.writeImm 0 2 (readKeyOffset 2) [1, 0x1000] (immOf .read) {}) =
      some (PerCPUPool.page 4096 4) := by decide +kernel
  exact ⟨System.meets_append hwf hstart hmeets, m,
    System.exec_append_some.mpr ⟨started, hstart, hrun⟩,
    hstocked.step_loses hmeets.1 hs htaken (by decide) (by decide)⟩

/-- Sixty-four mebibytes are enough for the put queue of one client. -/
def roomyPool : Server ℕ := .new 4096 (memPoolSize 64) 1 1 8 fun _ => ⟨0, 0⟩

theorem only_pages_circulate_iff_putQueue :
    ∃ s, (serverSystem keyHash true roomyPool).exec roomyPool [.prePostRecvs 0 0] = some s ∧
      s.OnlyPages 4096 (memPoolSize 64) := by
  have hrun : (serverSystem keyHash true roomyPool).exec roomyPool [.prePostRecvs 0 0] =
      some (roomyPool.prePostRecvs 0 0) :=
    System.exec_cons_some.mpr ⟨_, serverSystem_prePostRecvs rfl, rfl⟩
  have hlists : ∀ fl ∈ roomyPool.kv.pool.probed 0 0,
      2043 ≤ (roomyPool.kv.pool.freelist fl).addrs.length := by
    intro fl hfl
    have hprobed : roomyPool.kv.pool.probed 0 0 = {0, 1, 2, 3} := by decide
    have hlt : fl < 1 * numDataQps := by
      rw [hprobed] at hfl
      revert fl
      decide
    have haddrs := PerCPUPool.new_addrs 4096 (memPoolSize 64) 1 numDataQps hlt
    change (roomyPool.kv.pool.freelist fl).addrs = _ at haddrs
    rw [haddrs, List.length_map, List.length_range]
    decide
  have hsupplied : roomyPool.Supplied (.prePostRecvs 0 0) := by
    intro _
    refine Nat.le_trans ?_ (Finset.card_nsmul_le_sum _ _ 2043 hlists)
    decide
  have hend : 4096 + memPoolSize 64 ≤ 2 ^ 64 := by decide
  refine ⟨_, hrun, (only_pages_circulate_iff keyHash true (by decide) hend
    ?_ hrun).mpr ?_ _ (List.prefix_refl _) _ hrun⟩
  · exact ⟨⟨by decide, by decide⟩, fun _ _ => trivial⟩
  · exact ⟨hsupplied, fun _ _ => trivial⟩

theorem failure_value_posted :
    (serverSystem keyHash true smallServer).Meets Server.WellFormed smallServer startUp ∧
    (serverSystem keyHash true smallServer).exec smallServer startUp = some started ∧
      FAILED ∈ started.recvs (0, 0) ∧ ¬ started.OnlyPages 4096 (memPoolSize 1) := by
  obtain ⟨hwf, hstart⟩ := startUp_trace true
  have hmem : FAILED ∈ started.recvs (0, 0) := by
    have hrecvs : started.recvs (0, 0) =
        ((fun s => Server.prePostRecv s 0 0)^[4] connected).recvs (0, 0) ++
          List.replicate (maxQpsRecvs - 4) FAILED := by rfl
    rw [hrecvs]
    exact List.mem_append_right _ (List.mem_replicate.mpr ⟨by decide, rfl⟩)
  refine ⟨hwf, hstart, hmem, fun hall => ?_⟩
  have hpage := hall.posted 0 (by decide) 0 (by decide) FAILED hmem (by decide)
  exact (InPool.ne (by decide) (by decide) hpage).2 rfl

end CleancacheRdma.Daemon
