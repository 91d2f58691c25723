import CleancacheRdma.Daemon.KV

/-!
# Where a page is: the store's share

`places p` counts the free lists and the table values that hold the address
`p`. No operation of `KV` raises it except by the page that is handed in, so a
page handed in once is never in two places.
-/

namespace CleancacheRdma.Daemon.KV

open LinearProbingApprox (EvictDraw)

variable {hash : HashFuncs} {kv kv' kv'' : KV}

/-- One for the page itself. -/
def single (v p : Value) : ℕ := if v = p then 1 else 0

/-- How often an address stands on a free list or is the value of a valid
bucket. -/
def places (kv : KV) (p : Value) : ℕ :=
  kv.pool.count p + kv.table.sum fun _ v => single v p

/-- The table's and the pool's invariants, and every stored key carries a
client the pool has lists for. -/
structure Inv (hash : HashFuncs) (kv : KV) : Prop where
  table : kv.table.TableInv (hash 0)
  pool : kv.pool.WF
  owners : ∀ slot < kv.table.capacity, Usable (kv.table.buckets slot).key →
    longkeyToCid (kv.table.buckets slot).key < kv.pool.numClients

theorem new_inv (startAddr : Value) (memPoolSize numClients numHash numBits : ℕ) :
    Inv hash (new startAddr memPoolSize numClients numHash numBits) where
  table := LinearProbingApprox.new_inv _
  pool := PerCPUPool.new_wf startAddr memPoolSize numClients (by decide)
  owners _ _ hu := absurd rfl hu.1

theorem new_places_le_one (startAddr : Value) (memPoolSize numClients numHash numBits : ℕ)
    (p : Value) : (new startAddr memPoolSize numClients numHash numBits).places p ≤ 1 := by
  have hcount := PerCPUPool.new_count_le_one startAddr memPoolSize numClients numDataQps p
  have hsum := LinearProbingApprox.new_sum (tableCapacity memPoolSize) fun _ v => single v p
  unfold places new
  rw [hsum]
  exact hcount

/-! ## A bucket's page -/

theorem places_bury {slot : ℕ} (hs : slot < kv.table.capacity)
    (hu : Usable (kv.table.buckets slot).key) (p : Value) :
    KV.places { kv with table := kv.table.bury slot } p + single (kv.table.buckets slot).value p =
      kv.places p := by
  have hsum := LinearProbingApprox.sum_bury hs hu fun _ v => single v p
  rw [places, places, Nat.add_assoc, hsum]

theorem places_added {slot : ℕ} (hs : slot < kv.table.capacity)
    (hvac : ¬ Usable (kv.table.buckets slot).key) {key : Key} (hkey : Usable key) (value : Value)
    (now : BitVec 32) (p : Value) :
    KV.places { kv with table := kv.table.setBucket slot key value now } p =
      kv.places p + single value p := by
  have hsum := LinearProbingApprox.sum_setBucket_vacant hs hvac hkey value now
    fun _ v => single v p
  rw [places, places, hsum, Nat.add_assoc]

theorem places_replaced {slot : ℕ} (hs : slot < kv.table.capacity)
    (hu : Usable (kv.table.buckets slot).key) {key : Key} (hkey : Usable key) (value : Value)
    (now : BitVec 32) (p : Value) :
    KV.places { kv with table := kv.table.setBucket slot key value now } p +
        single (kv.table.buckets slot).value p = kv.places p + single value p := by
  have hsum := LinearProbingApprox.sum_setBucket_evicted hs hu hkey value now
    fun _ v => single v p
  rw [places, places, Nat.add_assoc, hsum, Nat.add_assoc]

/-! ## The table's operations -/

/-- `kv'` has the invariant and the shape of `kv`, and holds no address more
often than `kv` and `extra` together. -/
structure Follows (hash : HashFuncs) (kv kv' : KV) (extra : Value → ℕ) : Prop where
  inv : Inv hash kv'
  numClients : kv'.pool.numClients = kv.pool.numClients
  perCliFl : kv'.pool.perCliFl = kv.pool.perCliFl
  places : ∀ p, kv'.places p ≤ kv.places p + extra p

theorem Follows.refl (h : Inv hash kv) : Follows hash kv kv fun _ => 0 :=
  ⟨h, rfl, rfl, fun _ => Nat.le_refl _⟩

theorem Follows.trans {e e' : Value → ℕ} (h : Follows hash kv kv' e)
    (h' : Follows hash kv' kv'' e') : Follows hash kv kv'' fun p => e p + e' p where
  inv := h'.inv
  numClients := h'.numClients.trans h.numClients
  perCliFl := h'.perCliFl.trans h.perCliFl
  places p := by
    have := h.places p
    have := h'.places p
    omega

/-- Filters hold no pages. -/
theorem Inv.cbfInsert (h : Inv hash kv) (cid : ℕ) (key : Key) :
    Follows hash kv (kv.cbfInsert hash cid key) fun _ => 0 :=
  ⟨⟨h.table, h.pool, h.owners⟩, rfl, rfl, fun _ => Nat.le_refl _⟩

theorem Inv.cbfRemove (h : Inv hash kv) (cid : ℕ) (key : Key) :
    Follows hash kv (kv.cbfRemove hash cid key) fun _ => 0 :=
  ⟨⟨h.table, h.pool, h.owners⟩, rfl, rfl, fun _ => Nat.le_refl _⟩

/-! ## The pool -/

theorem Inv.free (h : Inv hash kv) (value : Value) {cid : ℕ} (hcid : cid < kv.pool.numClients)
    (rand : ℕ) : Follows hash kv (kv.free value cid rand) (single value) where
  inv := ⟨h.table, ⟨h.pool.perCliFl_pos, h.pool.totalFl_eq⟩, h.owners⟩
  numClients := rfl
  perCliFl := rfl
  places p := by
    have hfl := (PerCPUPool.owns_mod h.pool cid rand).lt_totalFl h.pool hcid
    have hgive := PerCPUPool.count_give_le hfl value p
    change (kv.pool.give _ value).count p + _ ≤ kv.pool.count p + _ + single value p
    unfold single
    exact Nat.le_trans (Nat.add_le_add_right hgive _) (Nat.le_of_eq (Nat.add_right_comm _ _ _))

/-- An allocated page leaves the store. -/
theorem Inv.allocate (h : Inv hash kv) {cid : ℕ} (hcid : cid < kv.pool.numClients)
    {qid : Option ℕ} (hqid : ∀ q, qid = some q → q < kv.pool.perCliFl) {rand : ℕ} {a : Value}
    (ha : kv.allocate cid qid rand = some (a, kv')) :
    Inv hash kv' ∧ kv'.table = kv.table ∧ kv'.cbfs = kv.cbfs ∧
      kv'.pool.numClients = kv.pool.numClients ∧ kv'.pool.perCliFl = kv.pool.perCliFl ∧
      ∀ p, kv'.places p + single a p = kv.places p := by
  simp only [KV.allocate, Option.map_eq_some_iff] at ha
  obtain ⟨⟨a', pool⟩, hpool, heq⟩ := ha
  cases heq
  obtain ⟨fl, f, howns, hget, rfl⟩ := PerCPUPool.allocate_some h.pool hqid hpool
  refine ⟨⟨h.table, ⟨h.pool.perCliFl_pos, h.pool.totalFl_eq⟩, h.owners⟩, rfl, rfl, rfl, rfl, ?_⟩
  intro p
  have hcount := PerCPUPool.count_take (howns.lt_totalFl h.pool hcid) hget p
  simp only [KV.places, single] at hcount ⊢
  omega

/-- Borrowing moves a page between free lists. -/
theorem Inv.allocateFromPeer (h : Inv hash kv) {fl : ℕ} (hfl : fl < kv.pool.totalFl) {a : Value}
    {pool : PerCPUPool} (ha : kv.pool.allocateFromPeer fl = some (a, pool)) :
    Follows hash kv { kv with pool } fun _ => 0 := by
  obtain ⟨peer, peerFl, f, hpeer, -, howns, hget, rfl⟩ :=
    PerCPUPool.allocateFromPeer_some h.pool hfl ha
  refine ⟨⟨h.table, ⟨h.pool.perCliFl_pos, h.pool.totalFl_eq⟩, h.owners⟩, rfl, rfl, ?_⟩
  intro p
  exact Nat.add_le_add_right
    (PerCPUPool.count_borrow_le hfl (howns.lt_totalFl h.pool hpeer) hget p) _

/-! ## The table -/

theorem Inv.owners_bury (h : Inv hash kv) (slot : ℕ) : ∀ s < kv.table.capacity,
    Usable ((kv.table.bury slot).buckets s).key →
    longkeyToCid ((kv.table.bury slot).buckets s).key < kv.pool.numClients := by
  intro s hs hu
  by_cases he : s = slot
  · subst he
    simp [LinearProbingApprox.bury, Usable] at hu
  · simp only [LinearProbingApprox.bury, LinearProbingApprox.put_buckets,
      Function.update_of_ne he] at hu ⊢
    exact h.owners s hs hu

theorem Inv.owners_setBucket (h : Inv hash kv) {slot : ℕ} {key : Key}
    (hcid : longkeyToCid key < kv.pool.numClients) (value : Value) (now : BitVec 32) :
    ∀ s < kv.table.capacity, Usable ((kv.table.setBucket slot key value now).buckets s).key →
      longkeyToCid ((kv.table.setBucket slot key value now).buckets s).key < kv.pool.numClients := by
  intro s hs hu
  by_cases he : s = slot
  · subst he
    simpa [LinearProbingApprox.setBucket] using hcid
  · simp only [LinearProbingApprox.setBucket, LinearProbingApprox.put_buckets,
      Function.update_of_ne he] at hu ⊢
    exact h.owners s hs hu

/-- A page that leaves the table and is freed. -/
theorem Inv.discard (h : Inv hash kv) {slot : ℕ} (hs : slot < kv.table.capacity)
    (hu : Usable (kv.table.buckets slot).key) {cid : ℕ} (hcid : cid < kv.pool.numClients)
    (rand : ℕ) : Follows hash kv
      ({ kv with table := kv.table.bury slot }.free (kv.table.buckets slot).value cid rand)
      fun _ => 0 := by
  have hburied : Inv hash { kv with table := kv.table.bury slot } :=
    ⟨h.table.bury slot, h.pool, h.owners_bury slot⟩
  have hfree := hburied.free (kv.table.buckets slot).value hcid rand
  refine ⟨hfree.inv, rfl, rfl, fun p => ?_⟩
  exact (hfree.places p).trans_eq (places_bury hs hu p)

theorem Inv.supersede (h : Inv hash kv) {slot : ℕ} (hs : slot < kv.table.capacity)
    (hu : Usable (kv.table.buckets slot).key) {cid : ℕ} (hcid : cid < kv.pool.numClients)
    (rand : ℕ) : Follows hash kv (kv.supersede slot cid rand) fun _ => 0 :=
  h.discard hs hu hcid rand

/-- An attempt stores the page, frees it or drops it. -/
theorem Attempt.follows {key : Key} {value : Value} {d : InsertDraw} {r : KV × ℤ}
    (hatt : Attempt hash kv key value d r) (h : Inv hash kv) (hkey : Usable key)
    (hvalue : value ≠ NONE) (hnone : kv.table.view (hash 0) key = none)
    (hcid : longkeyToCid key < kv.pool.numClients) : Follows hash kv r.1 (single value) := by
  have htable := hatt.tableInv h.table hkey hvalue hnone
  cases hatt with
  | @added i hi hfill hvac =>
      have hlt : kv.table.window (hash 0) key i < kv.table.capacity :=
        LinearProbingApprox.window_lt (by omega) key i
      refine ⟨⟨htable, h.pool, h.owners_setBucket hcid value d.now⟩, rfl, rfl, fun p => ?_⟩
      exact Nat.le_of_eq (places_added hlt hvac hkey value d.now p)
  | @replaced i hi hfull hbusy =>
      have hlt : kv.table.window (hash 0) key i < kv.table.capacity :=
        LinearProbingApprox.window_lt (by omega) key i
      have hstored : Inv hash { kv with
          table := kv.table.setBucket (kv.table.window (hash 0) key i) key value d.now } :=
        ⟨htable, h.pool, h.owners_setBucket hcid value d.now⟩
      -- the victim's page goes to the client its key names
      have hfree := hstored.free (kv.table.buckets (kv.table.window (hash 0) key i)).value
        (h.owners _ hlt (hfull i hi)) d.rand
      refine ⟨⟨hfree.inv.table, hfree.inv.pool, hfree.inv.owners⟩, rfl, rfl, fun p => ?_⟩
      exact (hfree.places p).trans_eq (places_replaced hlt (hfull i hi) hkey value d.now p)
  | refused hfull => exact h.free value hcid d.rand
  | dropped hfull hlt => exact ⟨h, rfl, rfl, fun p => Nat.le_add_right _ _⟩

/-- `Insert` takes in the page it is given and nothing else. -/
theorem Inv.insert (h : Inv hash kv) {key : Key} (hkey : Usable key) {value : Value}
    (hvalue : value ≠ NONE) (hcid : longkeyToCid key < kv.pool.numClients)
    {draws : List InsertDraw}
    (hr : kv.insert hash key value (longkeyToCid key) draws = .ok kv') :
    Follows hash kv kv' (single value) := by
  obtain ⟨r, hretry, rfl⟩ := insert_ok hr
  have hfollows : Follows hash kv r.1 (single value) := by
    rcases insertRetry_ok h.table hkey hvalue hretry with
      ⟨hnone, d, hatt⟩ | ⟨slot, hs, hk, rand, d, hatt⟩
    · exact hatt.follows h hkey hvalue hnone hcid
    · have hu : Usable (kv.table.buckets slot).key := by rw [hk]; exact hkey
      have hsup := h.supersede hs hu hcid rand
      have hgone : (kv.supersede slot (longkeyToCid key) rand).table.view (hash 0) key = none := by
        rw [supersede_view h.table hs hu, hk, Function.update_self]
      have hlast := hatt.follows hsup.inv hkey hvalue hgone hcid
      exact ⟨hlast.inv, hlast.numClients.trans hsup.numClients,
        hlast.perCliFl.trans hsup.perCliFl, fun p =>
          Nat.le_trans (hlast.places p) (Nat.add_le_add_right (hsup.places p) _)⟩
  split
  · have hlast := hfollows.trans (hfollows.inv.cbfInsert (longkeyToCid key) key)
    exact ⟨hlast.inv, hlast.numClients, hlast.perCliFl, hlast.places⟩
  · exact hfollows

/-- `Remove` and the `Free` its caller makes of the page. -/
theorem Inv.removeFree (h : Inv hash kv) {key : Key} (hkey : Usable key)
    (hcid : longkeyToCid key < kv.pool.numClients) (rand : ℕ) :
    Follows hash kv (kv.removeFree hash key (longkeyToCid key) rand) fun _ => 0 := by
  unfold KV.removeFree
  rcases remove_cases h.table hkey (longkeyToCid key) with ⟨slot, hs, hk, -, hr⟩ | ⟨-, hr⟩
  · have hu : Usable (kv.table.buckets slot).key := by rw [hk]; exact hkey
    have hd := h.discard hs hu hcid rand
    rw [hr, if_pos (h.table.nonNull slot hs hu)]
    exact ⟨⟨hd.inv.table, hd.inv.pool, hd.inv.owners⟩, rfl, rfl, hd.places⟩
  · rw [hr, if_neg (not_not.mpr rfl)]
    exact Follows.refl h

/-- A removed page is handed to the caller. -/
theorem Inv.remove (h : Inv hash kv) {key : Key} (hkey : Usable key) (cid : ℕ) :
    Inv hash (kv.remove hash key cid).1 ∧
      (kv.remove hash key cid).1.pool = kv.pool ∧
      ∀ p, (kv.remove hash key cid).1.places p +
        (if (kv.remove hash key cid).2 ≠ NONE then single (kv.remove hash key cid).2 p else 0) ≤
          kv.places p := by
  rcases remove_cases h.table hkey cid with ⟨slot, hs, rfl, -, hr⟩ | ⟨-, hr⟩
  · rw [hr]
    refine ⟨⟨h.table.bury slot, h.pool, h.owners_bury slot⟩, rfl, fun p => ?_⟩
    rw [if_pos (h.table.nonNull slot hs hkey)]
    exact Nat.le_of_eq (places_bury hs hkey p)
  · rw [hr]
    exact ⟨h, rfl, fun p => by simp⟩

theorem Inv.evict (h : Inv hash kv) {draws : List EvictDraw} {rand : ℕ}
    (hr : kv.evict hash draws rand = .ok kv') : Follows hash kv kv' fun _ => 0 := by
  obtain ⟨slot, ⟨hs, hu, -⟩, rfl⟩ := evict_ok hr
  have hd := h.discard hs hu (h.owners slot hs hu) rand
  exact ⟨⟨hd.inv.table, hd.inv.pool, hd.inv.owners⟩, rfl, rfl, hd.places⟩

/-! ## What is freed -/

/-- An operation frees nothing or one page, which meets `P`. -/
def Frees (kv kv' : KV) (P : Value → Prop) : Prop :=
  kv'.pool.freed = kv.pool.freed ∨ ∃ p, P p ∧ kv'.pool.freed = p :: kv.pool.freed

theorem Frees.mono {P Q : Value → Prop} (h : Frees kv kv' P) (hpq : ∀ p, P p → Q p) :
    Frees kv kv' Q := by
  rcases h with heq | ⟨p, hp, heq⟩
  · exact Or.inl heq
  · exact Or.inr ⟨p, hpq p hp, heq⟩

theorem Frees.of_eq {P : Value → Prop} (h : kv'.pool.freed = kv.pool.freed) : Frees kv kv' P :=
  Or.inl h

theorem Inv.allocate_freed (h : Inv hash kv) {cid : ℕ} {qid : Option ℕ}
    (hqid : ∀ q, qid = some q → q < kv.pool.perCliFl) {rand : ℕ} {a : Value}
    (ha : kv.allocate cid qid rand = some (a, kv')) : kv'.pool.freed = kv.pool.freed := by
  simp only [KV.allocate, Option.map_eq_some_iff] at ha
  obtain ⟨⟨a', pool⟩, hpool, heq⟩ := ha
  cases heq
  obtain ⟨fl, f, -, -, rfl⟩ := PerCPUPool.allocate_some h.pool hqid hpool
  rfl

/-- `p` is the value of a valid bucket that meets `P`. -/
def Stores (kv : KV) (P : LPABkt → Prop) (p : Value) : Prop :=
  ∃ slot < kv.table.capacity, Usable (kv.table.buckets slot).key ∧
    (kv.table.buckets slot).value = p ∧ P (kv.table.buckets slot)

/-- `Insert` frees the older version of its key, a page that is not busy, or
the page it was given. -/
theorem Inv.insert_frees (h : Inv hash kv) {key : Key} (hkey : Usable key) {value : Value}
    (hvalue : value ≠ NONE) {cid : ℕ} {draws : List InsertDraw}
    (hr : kv.insert hash key value cid draws = .ok kv') :
    Frees kv kv' fun p => p = value ∨ kv.Stores (fun b => b.key = key ∨ b.busy = false) p := by
  obtain ⟨r, hretry, rfl⟩ := insert_ok hr
  have hfreed : (if r.2 = 0 then r.1.cbfInsert hash cid key else r.1).pool.freed =
      r.1.pool.freed := by
    split
    · rfl
    · rfl
  unfold Frees
  rw [hfreed]
  rcases insertRetry_ok h.table hkey hvalue hretry with
    ⟨hnone, d, hatt⟩ | ⟨slot, hs, rfl, rand, d, hatt⟩
  · cases hatt with
    | added _ _ _ => exact Or.inl rfl
    | @replaced i hi hfull hbusy =>
        have hlt : kv.table.window (hash 0) key i < kv.table.capacity :=
          LinearProbingApprox.window_lt (by omega) key i
        exact Or.inr ⟨_, Or.inr ⟨_, hlt, hfull i hi, rfl, Or.inr hbusy⟩, rfl⟩
    | refused _ => exact Or.inr ⟨value, Or.inl rfl, rfl⟩
    | dropped _ _ => exact Or.inl rfl
  · obtain ⟨i, hi, hfill, hvac, rfl⟩ := hatt.of_supersede h.table hs hkey
    exact Or.inr ⟨_, Or.inr ⟨slot, hs, hkey, rfl, Or.inl rfl⟩, rfl⟩

theorem Inv.removeFree_frees (h : Inv hash kv) {key : Key} (hkey : Usable key) (cid rand : ℕ) :
    Frees kv (kv.removeFree hash key cid rand) (kv.Stores fun b => b.key = key) := by
  unfold KV.removeFree
  rcases remove_cases h.table hkey cid with ⟨slot, hs, rfl, -, hr⟩ | ⟨-, hr⟩
  · rw [hr, if_pos (h.table.nonNull slot hs hkey)]
    exact Or.inr ⟨_, ⟨slot, hs, hkey, rfl, rfl⟩, rfl⟩
  · rw [hr, if_neg (not_not.mpr rfl)]
    exact Or.inl rfl

theorem evict_frees {draws : List EvictDraw} {rand : ℕ} (hr : kv.evict hash draws rand = .ok kv') :
    Frees kv kv' (kv.Stores fun b => b.busy = false) := by
  obtain ⟨slot, ⟨hs, hu, hbusy⟩, rfl⟩ := evict_ok hr
  exact Or.inr ⟨_, ⟨slot, hs, hu, rfl, hbusy⟩, rfl⟩

theorem Stores.ne_none {P : LPABkt → Prop} {p : Value} (h : kv.Stores P p)
    (hinv : Inv hash kv) : p ≠ NONE := by
  obtain ⟨slot, hs, hu, rfl, -⟩ := h
  exact hinv.table.nonNull slot hs hu

/-- A stored page has a place in the table. -/
theorem Stores.one_le_places {P : LPABkt → Prop} {p : Value} (h : kv.Stores P p)
    (hinv : Inv hash kv) : kv.pool.count p + 1 ≤ kv.places p := by
  obtain ⟨slot, hs, hu, rfl, -⟩ := h
  have hle := hinv.table.le_sum (hinv.table.view_of_bucket hs hu) fun _ v =>
    single v (kv.table.buckets slot).value
  simp only [single, if_true] at hle
  unfold places single
  omega

/-- An address that the table counts is stored. -/
theorem stores_of_sum {p : Value} (h : 0 < kv.table.sum fun _ v => single v p) :
    kv.Stores (fun _ => True) p := by
  rw [LinearProbingApprox.sum, Lib.Probing.total] at h
  obtain ⟨slot, hslot, hne⟩ := Finset.exists_ne_zero_of_sum_ne_zero (Nat.ne_of_gt h)
  by_cases hu : Usable (kv.table.buckets slot).key
  · refine ⟨slot, Finset.mem_range.mp hslot, hu, ?_, trivial⟩
    change Lib.Probing.weight _ (kv.table.buckets slot).cell ≠ 0 at hne
    rw [LinearProbingApprox.weight_cell_usable hu] at hne
    by_contra hv
    exact hne (if_neg hv)
  · exact absurd (LinearProbingApprox.weight_cell_vacant hu _) hne

/-! ## Lookups -/

/-- Timestamps and flags hold no pages. -/
theorem Inv.put_same (h : Inv hash kv) (slot : ℕ) {b : LPABkt}
    (hkey : b.key = (kv.table.buckets slot).key)
    (hvalue : b.value = (kv.table.buckets slot).value) :
    Follows hash kv { kv with table := kv.table.put slot b } fun _ => 0 where
  inv := by
    refine ⟨(h.table.put_same slot hkey hvalue).1, h.pool, fun s hs hu => ?_⟩
    by_cases he : s = slot
    · subst he
      simp only [LinearProbingApprox.put_buckets, Function.update_self] at hu ⊢
      rw [hkey] at hu ⊢
      exact h.owners s hs hu
    · simp only [LinearProbingApprox.put_buckets, Function.update_of_ne he] at hu ⊢
      exact h.owners s hs hu
  numClients := rfl
  perCliFl := rfl
  places p := by
    unfold places
    rw [LinearProbingApprox.sum_put_same hkey hvalue]
    exact Nat.le_refl _

theorem Inv.getWithFlag (h : Inv hash kv) (key : Key) (busy : Bool) (now : BitVec 32) :
    Follows hash kv (kv.getWithFlag hash key busy now).1 fun _ => 0 := by
  rcases LinearProbingApprox.lookup_scanned (kv.table.flagBucket busy now) key with
    ⟨i, -, hr⟩ | ⟨-, hr⟩
  · rw [KV.getWithFlag, LinearProbingApprox.getWithFlag, hr]
    cases busy with
    | true => exact h.put_same _ rfl rfl
    | false => exact h.put_same _ rfl rfl
  · rw [KV.getWithFlag, LinearProbingApprox.getWithFlag, hr]
    exact Follows.refl h

end CleancacheRdma.Daemon.KV
