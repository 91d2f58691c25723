import CleancacheRdma.Daemon.Ownership

/-!
# Pages that stay

What `Ownership` leaves open: an operation loses no page either, as long as the
free list that a page is given to has a node left for it. Each list has as many
nodes as the pool has pages, so a page that is on no list finds one.
-/

namespace CleancacheRdma.Daemon

open LinearProbingApprox (EvictDraw lockSize)

namespace KV

variable {hash : HashFuncs} {kv kv' kv'' : KV} {stock : Finset Value}

/-- `kv'` has the shape of `kv` and holds every page that `kv` and `extra`
hold together. -/
structure Keeps (kv kv' : KV) (extra : Value → ℕ) : Prop where
  capacity : kv'.table.capacity = kv.table.capacity
  maxChunks : ∀ fl, (kv'.pool.freelist fl).maxChunks = (kv.pool.freelist fl).maxChunks
  places : ∀ p, kv.places p + extra p ≤ kv'.places p

theorem Keeps.refl (kv : KV) : Keeps kv kv fun _ => 0 :=
  ⟨rfl, fun _ => rfl, fun _ => Nat.le_refl _⟩

theorem Keeps.trans {e e' : Value → ℕ} (h : Keeps kv kv' e) (h' : Keeps kv' kv'' e') :
    Keeps kv kv'' fun p => e p + e' p where
  capacity := h'.capacity.trans h.capacity
  maxChunks fl := (h'.maxChunks fl).trans (h.maxChunks fl)
  places p := by
    have := h.places p
    have := h'.places p
    omega

/-- The store of a pool with the pages `stock`: every address is in one place
at most, no address is foreign. -/
structure Stocked (stock : Finset Value) (kv : KV) : Prop where
  once : ∀ p, kv.places p ≤ 1
  pages : ∀ p ∉ stock, kv.places p = 0
  capacity : stock.Nonempty → lockSize ≤ kv.table.capacity
  maxChunks : ∀ fl < kv.pool.totalFl, stock.card ≤ (kv.pool.freelist fl).maxChunks

/-- While a page is on no list, every list has a node for it. -/
theorem Stocked.room (h : kv.Stocked stock) {p : Value} (hp : p ∈ stock)
    (hfree : kv.pool.count p = 0) : kv.pool.Room := by
  intro fl hfl
  have hcount : ∀ x, (kv.pool.freelist fl).addrs.count x ≤ kv.pool.count x := fun x =>
    Finset.single_le_sum (f := fun i => (kv.pool.freelist i).addrs.count x)
      (fun _ _ => Nat.zero_le _) (Finset.mem_range.mpr hfl)
  have hplaces : ∀ x, kv.pool.count x ≤ kv.places x := fun x => Nat.le_add_right _ _
  have hnodup : (kv.pool.freelist fl).addrs.Nodup := List.nodup_iff_count_le_one.mpr fun x =>
    Nat.le_trans (hcount x) (Nat.le_trans (hplaces x) (h.once x))
  have hsub : ∀ x ∈ (kv.pool.freelist fl).addrs, x ∈ stock := by
    intro x hx
    by_contra hnot
    have hpos := List.count_pos_iff.mpr hx
    have hzero := h.pages x hnot
    have := hcount x
    have := hplaces x
    omega
  have hnot : p ∉ (kv.pool.freelist fl).addrs := by
    intro hmem
    have hpos := List.count_pos_iff.mpr hmem
    have := hcount p
    omega
  exact Nat.lt_of_lt_of_le (Lib.length_lt_card hnodup hsub hp hnot) (h.maxChunks fl hfl)

/-- A stored page is one of the stock and on no list. -/
theorem Stocked.of_stores (h : kv.Stocked stock) (hinv : Inv hash kv) {P : LPABkt → Prop}
    {p : Value} (hp : kv.Stores P p) : p ∈ stock ∧ kv.pool.Room := by
  have hle := hp.one_le_places hinv
  have hmem : p ∈ stock := by
    by_contra hnot
    have hzero := h.pages p hnot
    omega
  have honce := h.once p
  exact ⟨hmem, h.room hmem (by omega)⟩

/-! ## The pool -/

theorem Inv.free_keeps (h : Inv hash kv) (hroom : kv.pool.Room) (value : Value) {cid : ℕ}
    (hcid : cid < kv.pool.numClients) (rand : ℕ) :
    Keeps kv (kv.free value cid rand) (single value) where
  capacity := rfl
  maxChunks := PerCPUPool.give_maxChunks _ value
  places p := by
    have hfl := (PerCPUPool.owns_mod h.pool cid rand).lt_totalFl h.pool hcid
    have hgive := PerCPUPool.count_give hfl hroom value p
    change kv.pool.count p + _ + single value p ≤
      (kv.pool.give (cid * kv.pool.perCliFl + rand % kv.pool.perCliFl) value).count p + _
    rw [single, hgive]
    exact Nat.le_of_eq (Nat.add_right_comm _ _ _)

theorem Inv.allocate_maxChunks (h : Inv hash kv) {cid : ℕ} {qid : Option ℕ}
    (hqid : ∀ q, qid = some q → q < kv.pool.perCliFl) {rand : ℕ} {a : Value}
    (ha : kv.allocate cid qid rand = some (a, kv')) (fl : ℕ) :
    (kv'.pool.freelist fl).maxChunks = (kv.pool.freelist fl).maxChunks := by
  obtain ⟨⟨a', pool⟩, hpool, heq⟩ := Option.map_eq_some_iff.mp ha
  cases heq
  obtain ⟨fl', f, -, hget, rfl⟩ := PerCPUPool.allocate_some h.pool hqid hpool
  exact PerCPUPool.take_maxChunks hget fl

/-- Without the allocated page the rest of the stock is there. -/
theorem Stocked.allocate (hs : kv.Stocked stock) (h : Inv hash kv) {cid : ℕ}
    (hcid : cid < kv.pool.numClients) {qid : Option ℕ}
    (hqid : ∀ q, qid = some q → q < kv.pool.perCliFl) {rand : ℕ} {a : Value}
    (ha : kv.allocate cid qid rand = some (a, kv')) : kv'.Stocked stock ∧ a ∈ stock := by
  have htotal : kv'.pool.totalFl = kv.pool.totalFl := by
    obtain ⟨⟨a', pool⟩, hpool, heq⟩ := Option.map_eq_some_iff.mp ha
    cases heq
    obtain ⟨_, _, -, -, rfl⟩ := PerCPUPool.allocate_some h.pool hqid hpool
    rfl
  have hchunks := h.allocate_maxChunks hqid ha
  obtain ⟨-, htable, -, -, -, hplaces⟩ := h.allocate hcid hqid ha
  refine ⟨⟨fun p => ?_, fun p hp => ?_, ?_, fun fl hfl => ?_⟩, ?_⟩
  · have := hplaces p
    have := hs.once p
    omega
  · have := hplaces p
    have := hs.pages p hp
    omega
  · rw [htable]
    exact hs.capacity
  · rw [hchunks]
    exact hs.maxChunks fl (htotal ▸ hfl)
  · by_contra hnot
    have hone := hplaces a
    have hzero := hs.pages a hnot
    rw [single, if_pos rfl] at hone
    omega

/-- A page on a free list is one of the stock, and without it every list has a
node left. -/
theorem Stocked.lent_room (hs : kv.Stocked stock) {peerFl : ℕ} (hpeerFl : peerFl < kv.pool.totalFl)
    {a : Value} {f : FreeList} (hget : (kv.pool.freelist peerFl).getFreeAddr = some (a, f)) :
    a ∈ stock ∧ (kv.pool.take peerFl f).Room := by
  have htake := PerCPUPool.count_take hpeerFl hget
  have hlent : Stocked stock { kv with pool := kv.pool.take peerFl f } := by
    refine ⟨fun p => ?_, fun p hp => ?_, hs.capacity, fun i hi => ?_⟩
    · have := htake p
      have honce := hs.once p
      unfold places at honce ⊢
      dsimp only
      omega
    · have := htake p
      have hzero := hs.pages p hp
      unfold places at hzero ⊢
      dsimp only
      omega
    · rw [PerCPUPool.take_maxChunks hget]
      exact hs.maxChunks i hi
  have hone := htake a
  rw [if_pos rfl] at hone
  have hplaces : kv.pool.count a ≤ kv.places a := Nat.le_add_right _ _
  have ha : a ∈ stock := by
    by_contra hnot
    have hzero := hs.pages a hnot
    omega
  have hfree : (kv.pool.take peerFl f).count a = 0 := by
    have := hs.once a
    omega
  exact ⟨ha, hlent.room ha hfree⟩

theorem Inv.allocateFromPeer_keeps (h : Inv hash kv) (hs : kv.Stocked stock) {fl : ℕ}
    (hfl : fl < kv.pool.totalFl) {a : Value} {pool : PerCPUPool}
    (ha : kv.pool.allocateFromPeer fl = some (a, pool)) :
    Keeps kv { kv with pool } fun _ => 0 := by
  obtain ⟨peer, peerFl, f, hpeer, -, howns, hget, rfl⟩ :=
    PerCPUPool.allocateFromPeer_some h.pool hfl ha
  have hpeerFl := howns.lt_totalFl h.pool hpeer
  have hroom := (hs.lent_room hpeerFl hget).2
  refine ⟨rfl, PerCPUPool.borrow_maxChunks hget, fun p => ?_⟩
  have hborrow := PerCPUPool.count_borrow hfl hpeerFl hget hroom p
  show kv.pool.count p + _ + 0 ≤ (kv.pool.borrow fl peerFl a f).count p + _
  rw [hborrow]
  exact Nat.le_refl _

/-! ## The table -/

theorem Inv.discard_keeps (h : Inv hash kv) (hroom : kv.pool.Room) {slot : ℕ}
    (hs : slot < kv.table.capacity) (hu : Usable (kv.table.buckets slot).key) {cid : ℕ}
    (hcid : cid < kv.pool.numClients) (rand : ℕ) : Keeps kv
      ({ kv with table := kv.table.bury slot }.free (kv.table.buckets slot).value cid rand)
      fun _ => 0 := by
  have hburied : Inv hash { kv with table := kv.table.bury slot } :=
    ⟨h.table.bury slot, h.pool, h.owners_bury slot⟩
  have hfree := hburied.free_keeps hroom (kv.table.buckets slot).value hcid rand
  refine ⟨rfl, hfree.maxChunks, fun p => ?_⟩
  exact (places_bury hs hu p).symm.trans_le (hfree.places p)

theorem Attempt.keeps {key : Key} {value : Value} {d : InsertDraw} {r : KV × ℤ}
    (hatt : Attempt hash kv key value d r) (h : Inv hash kv) (hroom : kv.pool.Room)
    (hcap : lockSize ≤ kv.table.capacity) (hkey : Usable key) (hvalue : value ≠ NONE)
    (hnone : kv.table.view (hash 0) key = none) (hcid : longkeyToCid key < kv.pool.numClients) :
    Keeps kv r.1 (single value) := by
  have htable := hatt.tableInv h.table hkey hvalue hnone
  cases hatt with
  | @added i hi hfill hvac =>
      have hlt : kv.table.window (hash 0) key i < kv.table.capacity :=
        LinearProbingApprox.window_lt (by omega) key i
      refine ⟨rfl, fun _ => rfl, fun p => ?_⟩
      exact Nat.le_of_eq (places_added hlt hvac hkey value d.now p).symm
  | @replaced i hi hfull hbusy =>
      have hlt : kv.table.window (hash 0) key i < kv.table.capacity :=
        LinearProbingApprox.window_lt (by omega) key i
      have hstored : Inv hash { kv with
          table := kv.table.setBucket (kv.table.window (hash 0) key i) key value d.now } :=
        ⟨htable, h.pool, h.owners_setBucket hcid value d.now⟩
      have hfree := hstored.free_keeps hroom
        (kv.table.buckets (kv.table.window (hash 0) key i)).value
        (h.owners _ hlt (hfull i hi)) d.rand
      refine ⟨rfl, hfree.maxChunks, fun p => ?_⟩
      exact (places_replaced hlt (hfull i hi) hkey value d.now p).symm.trans_le (hfree.places p)
  | refused hfull => exact h.free_keeps hroom value hcid d.rand
  -- a table shorter than a window would drop the page
  | dropped hfull hlt => exact absurd hlt (Nat.not_lt_of_le hcap)

/-- `Insert` stores the page it is given or frees it. -/
theorem Inv.insert_keeps (h : Inv hash kv) (hs : kv.Stocked stock) {key : Key}
    (hkey : Usable key) {value : Value} (hpage : value ∈ stock) (hfresh : kv.places value = 0)
    (hvalue : value ≠ NONE) (hcid : longkeyToCid key < kv.pool.numClients)
    {draws : List InsertDraw}
    (hr : kv.insert hash key value (longkeyToCid key) draws = .ok kv') :
    Keeps kv kv' (single value) := by
  obtain ⟨r, hretry, rfl⟩ := insert_ok hr
  have hroom : kv.pool.Room := hs.room hpage (Nat.eq_zero_of_le_zero
    (Nat.le_trans (Nat.le_add_right _ _) (Nat.le_of_eq hfresh)))
  have hkeeps : Keeps kv r.1 (single value) := by
    rcases insertRetry_ok h.table hkey hvalue hretry with
      ⟨hnone, d, hatt⟩ | ⟨slot, hslot, rfl, rand, d, hatt⟩
    · exact hatt.keeps h hroom (hs.capacity ⟨value, hpage⟩) hkey hvalue hnone hcid
    · -- the older version is freed, the new one takes a vacant bucket
      have hold := h.discard_keeps hroom hslot hkey hcid rand
      obtain ⟨i, hi, hfill, hvac, rfl⟩ := hatt.of_supersede h.table hslot hkey
      have hlt : (kv.table.bury slot).window (hash 0) (kv.table.buckets slot).key i <
          (kv.table.bury slot).capacity :=
        LinearProbingApprox.window_lt (Nat.zero_lt_of_lt hslot) _ i
      refine ⟨rfl, hold.maxChunks, fun p => ?_⟩
      have hsum := LinearProbingApprox.sum_setBucket_vacant hlt hvac hkey value d.now
        fun _ v => single v p
      refine Nat.le_trans (Nat.add_le_add_right (hold.places p) _) (Nat.le_of_eq ?_)
      exact (Nat.add_assoc _ _ _).trans (congrArg _ hsum.symm)
  split
  · exact ⟨hkeeps.capacity, hkeeps.maxChunks, hkeeps.places⟩
  · exact hkeeps

theorem Inv.removeFree_keeps (h : Inv hash kv) (hs : kv.Stocked stock) {key : Key}
    (hkey : Usable key) (hcid : longkeyToCid key < kv.pool.numClients) (rand : ℕ) :
    Keeps kv (kv.removeFree hash key (longkeyToCid key) rand) fun _ => 0 := by
  unfold KV.removeFree
  rcases remove_cases h.table hkey (longkeyToCid key) with ⟨slot, hslot, hk, -, hr⟩ | ⟨-, hr⟩
  · have hu : Usable (kv.table.buckets slot).key := by rw [hk]; exact hkey
    have hroom := (hs.of_stores h (P := fun _ => True) ⟨slot, hslot, hu, rfl, trivial⟩).2
    have hd := h.discard_keeps hroom hslot hu hcid rand
    rw [hr, if_pos (h.table.nonNull slot hslot hu)]
    exact ⟨hd.capacity, hd.maxChunks, hd.places⟩
  · rw [hr, if_neg (not_not.mpr rfl)]
    exact Keeps.refl kv

theorem Inv.evict_keeps (h : Inv hash kv) (hs : kv.Stocked stock) {draws : List EvictDraw}
    {rand : ℕ} (hr : kv.evict hash draws rand = .ok kv') : Keeps kv kv' fun _ => 0 := by
  obtain ⟨slot, ⟨hslot, hu, -⟩, rfl⟩ := evict_ok hr
  have hroom := (hs.of_stores h (P := fun _ => True) ⟨slot, hslot, hu, rfl, trivial⟩).2
  have hd := h.discard_keeps hroom hslot hu (h.owners slot hslot hu) rand
  exact ⟨hd.capacity, hd.maxChunks, hd.places⟩

theorem put_same_keeps (slot : ℕ) {b : LPABkt} (hkey : b.key = (kv.table.buckets slot).key)
    (hvalue : b.value = (kv.table.buckets slot).value) :
    Keeps kv { kv with table := kv.table.put slot b } fun _ => 0 where
  capacity := rfl
  maxChunks _ := rfl
  places p := by
    unfold places
    rw [LinearProbingApprox.sum_put_same hkey hvalue]
    exact Nat.le_refl _

theorem getWithFlag_keeps (hash : HashFuncs) (kv : KV) (key : Key) (busy : Bool)
    (now : BitVec 32) : Keeps kv (kv.getWithFlag hash key busy now).1 fun _ => 0 := by
  rcases LinearProbingApprox.lookup_scanned (kv.table.flagBucket busy now) key with
    ⟨i, -, hr⟩ | ⟨-, hr⟩
  · rw [KV.getWithFlag, LinearProbingApprox.getWithFlag, hr]
    cases busy with
    | true => exact put_same_keeps _ rfl rfl
    | false => exact put_same_keeps _ rfl rfl
  · rw [KV.getWithFlag, LinearProbingApprox.getWithFlag, hr]
    exact Keeps.refl kv

end KV

end CleancacheRdma.Daemon
