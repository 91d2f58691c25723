import Mathlib
import CleancacheRdma.Daemon.KV
import CleancacheRdma.Lib.System

/-!
# The counting filters against the table

Runs of `KV::Insert`, `KV::Remove` and `KV::Evict`. Every path that moves a key
in or out of the table is compared with what it does to the filter of the key's
client: the filter covers the table as long as no byte restarts, and counts it
exactly as long as no stored key is put again.
-/

namespace CleancacheRdma.Daemon

open Lib (System)
open LinearProbingApprox (EvictDraw lockSize)

/-! ## Runs of the store -/

inductive KVStep where
  | insert (key : Key) (value : Value) (cid : ℕ) (draws : List KV.InsertDraw)
  | remove (key : Key) (cid : ℕ)
  | evict (draws : List EvictDraw) (rand : ℕ)

/-- Keys are not the reserved patterns and carry the client that uses them. -/
def KVStep.WellFormed : KVStep → Prop
  | .insert key value cid _ => Usable key ∧ value ≠ NONE ∧ longkeyToCid key = cid
  | .remove key cid => Usable key ∧ longkeyToCid key = cid
  | .evict _ _ => True

instance : DecidablePred KVStep.WellFormed := fun a => by
  cases a <;> unfold KVStep.WellFormed <;> infer_instance

namespace KV

def step (hash : HashFuncs) (kv : KV) : KVStep → Option KV
  | .insert key value cid draws => (kv.insert hash key value cid draws).toOption
  | .remove key cid => some (kv.remove hash key cid).1
  | .evict draws rand => (kv.evict hash draws rand).toOption

end KV

/-- The store, from its constructor on. -/
def kvSystem (hash : HashFuncs) (kv₀ : KV) : System KV KVStep where
  init kv := kv = kv₀
  step := KV.step hash

namespace KV

variable {hash : HashFuncs} {kv kv' : KV} {numHash numBits : ℕ}

/-! ## What is counted -/

/-- The byte `cbf[c][i]`. -/
def byte (kv : KV) (c i : ℕ) : ℕ := ((kv.cbfs c).cbfByteBitarr i).toNat

/-- The pairs of a stored key of client `c` and one of its hashes that is `i`. -/
def trueCount (hash : HashFuncs) (kv : KV) (c i : ℕ) : ℕ :=
  ((kv.table.storedKeys ×ˢ Finset.range (kv.cbfs c).numHash).filter fun p =>
    longkeyToCid p.1 = c ∧ (kv.cbfs c).computeHash hash p.1 p.2 = i).card

/-- All filters have the shape the constructor gave them. -/
def Shaped (numHash numBits : ℕ) (kv : KV) : Prop :=
  ∀ c, (kv.cbfs c).numHash = numHash ∧ (kv.cbfs c).numBits = numBits

/-- What a key of client `c` adds to index `i`. -/
def load (hash : HashFuncs) (numHash numBits c i : ℕ) (k : Key) : ℕ :=
  if longkeyToCid k = c then ((CountingBloomFilter.new numHash numBits).indices hash k).count i
  else 0

/-- The true count as a sum over the buckets. -/
def held (hash : HashFuncs) (numHash numBits : ℕ) (kv : KV) (c i : ℕ) : ℕ :=
  kv.table.sum fun k _ => load hash numHash numBits c i k

theorem Shaped.indices (hs : Shaped numHash numBits kv) (c : ℕ) (k : Key) :
    (kv.cbfs c).indices hash k = (CountingBloomFilter.new numHash numBits).indices hash k :=
  CountingBloomFilter.indices_congr (hs c).1 (hs c).2 k

theorem count_indices (f : CountingBloomFilter) (k : Key) (i : ℕ) :
    (f.indices hash k).count i =
      ((Finset.range f.numHash).filter fun j => f.computeHash hash k j = i).card := by
  rw [CountingBloomFilter.indices, List.count, List.countP_map, ← Nat.count_eq_card_filter_range,
    Nat.count]
  refine List.countP_congr fun j _ => ?_
  simp

theorem trueCount_eq_held (h : kv.table.TableInv (hash 0)) (hs : Shaped numHash numBits kv)
    (c i : ℕ) : kv.trueCount hash c i = kv.held hash numHash numBits c i := by
  rw [trueCount, Finset.card_filter, Finset.sum_product, held, ← h.sum_storedKeys]
  refine Finset.sum_congr rfl fun k _ => ?_
  rw [← Finset.card_filter, load, ← hs.indices c, count_indices]
  by_cases hc : longkeyToCid k = c
  · simp [hc]
  · simp [hc]

/-! ## Moving one byte -/

theorem byte_cbfInsert (hs : Shaped numHash numBits kv) {key : Key}
    (hfit : (kv.cbfs (longkeyToCid key)).Fits hash key) (c i : ℕ) :
    (kv.cbfInsert hash (longkeyToCid key) key).byte c i =
      kv.byte c i + load hash numHash numBits c i key := by
  by_cases hc : longkeyToCid key = c
  · subst hc
    rw [byte, cbfInsert_cbfs, Function.update_self, CountingBloomFilter.insert_toNat hfit, load,
      if_pos rfl, hs.indices, byte]
  · rw [byte, cbfInsert_cbfs, Function.update_of_ne (fun h => hc h.symm), load, if_neg hc, byte,
      Nat.add_zero]

/-- Taking a key off the filter that counted it. -/
theorem byte_cbfRemove (kv : KV) (hs : Shaped numHash numBits kv) {key : Key}
    (hle : ∀ c i, load hash numHash numBits c i key ≤ kv.byte c i) (c i : ℕ) :
    (kv.cbfRemove hash (longkeyToCid key) key).byte c i + load hash numHash numBits c i key =
      kv.byte c i := by
  by_cases hc : longkeyToCid key = c
  · subst hc
    have hle' : ∀ i, ((kv.cbfs (longkeyToCid key)).indices hash key).count i ≤
        ((kv.cbfs (longkeyToCid key)).cbfByteBitarr i).toNat := by
      intro i
      have := hle (longkeyToCid key) i
      rwa [load, if_pos rfl, ← hs.indices (longkeyToCid key)] at this
    rw [byte, cbfRemove_cbfs, Function.update_self, CountingBloomFilter.remove_toNat hle', load,
      if_pos rfl, ← hs.indices (longkeyToCid key), byte]
    exact Nat.sub_add_cancel (hle' i)
  · rw [byte, cbfRemove_cbfs, Function.update_of_ne (fun h => hc h.symm), load, if_neg hc, byte,
      Nat.add_zero]

/-- The bytes before a key was expelled, at the key's client. -/
theorem byte_expel (kv : KV) (hs : Shaped numHash numBits kv) {b : LPABkt} (rand : ℕ)
    (hle : ∀ c i, load hash numHash numBits c i b.key ≤ kv.byte c i) (c i : ℕ) :
    (kv.expel hash b rand).byte c i + load hash numHash numBits c i b.key = kv.byte c i :=
  byte_cbfRemove (kv.free b.value (longkeyToCid b.key) rand) hs hle c i

/-- `Insert` after its last statement. -/
def settle (hash : HashFuncs) (key : Key) (r : KV × ℤ) : KV :=
  if r.2 = 0 then r.1.cbfInsert hash (longkeyToCid key) key else r.1

theorem settle_table (key : Key) (r : KV × ℤ) : (settle hash key r).table = r.1.table := by
  rw [settle]
  split <;> rfl

theorem step_insert {key : Key} {value : Value} {cid : ℕ} {draws : List InsertDraw}
    (hcid : longkeyToCid key = cid)
    (hstep : kv.step hash (.insert key value cid draws) = some kv') :
    ∃ r, insertRetry hash key value cid kv draws = .ok r ∧ kv' = settle hash key r := by
  subst hcid
  exact insert_ok (toOption_some hstep)

/-! ## The shape of the filters -/

theorem Shaped.cbfInsert (hs : Shaped numHash numBits kv) (cid : ℕ) (key : Key) :
    Shaped numHash numBits (kv.cbfInsert hash cid key) := by
  intro c
  by_cases hc : c = cid
  · subst hc
    simpa [KV.cbfInsert] using hs c
  · simpa [KV.cbfInsert, Function.update_of_ne hc] using hs c

theorem Shaped.cbfRemove (hs : Shaped numHash numBits kv) (cid : ℕ) (key : Key) :
    Shaped numHash numBits (kv.cbfRemove hash cid key) := by
  intro c
  by_cases hc : c = cid
  · subst hc
    simpa [KV.cbfRemove] using hs c
  · simpa [KV.cbfRemove, Function.update_of_ne hc] using hs c

theorem Shaped.insertRetry {key : Key} {value : Value} {cid : ℕ} :
    ∀ {draws : List InsertDraw} {kv : KV} {r : KV × ℤ}, Shaped numHash numBits kv →
      KV.insertRetry hash key value cid kv draws = .ok r → Shaped numHash numBits r.1 := by
  intro draws
  induction draws with
  | nil => intro kv r _ hr; simp [KV.insertRetry] at hr
  | cons d ds ih =>
      intro kv r hs hr
      rw [KV.insertRetry] at hr
      split at hr
      · cases hr
      · simp only at hr
        split at hr
        · split at hr
          · cases hr
            exact Shaped.cbfRemove hs _ _
          · cases hr
            exact hs
        · split at hr
          · split at hr
            · cases hr
            · exact ih (by exact hs) hr
          · cases hr
            exact hs

theorem Shaped.settle {key : Key} {r : KV × ℤ} (hs : Shaped numHash numBits r.1) :
    Shaped numHash numBits (settle hash key r) := by
  rw [KV.settle]
  split
  · exact hs.cbfInsert _ _
  · exact hs

/-- No step changes the shape of a filter. -/
theorem Shaped.step (hs : Shaped numHash numBits kv) {a : KVStep} (hwf : a.WellFormed)
    (hstep : kv.step hash a = some kv') : Shaped numHash numBits kv' := by
  cases a with
  | insert key value cid draws =>
      obtain ⟨r, hr, rfl⟩ := step_insert hwf.2.2 hstep
      exact (hs.insertRetry hr).settle
  | remove key cid =>
      obtain rfl := Option.some.inj hstep
      simp only [remove]
      split
      · exact Shaped.cbfRemove hs _ _
      · exact hs
  | evict draws rand =>
      obtain ⟨slot, -, rfl⟩ := evict_ok (toOption_some hstep)
      exact Shaped.cbfRemove hs _ _

/-! ## The filter covers the table -/

/-- Every byte is at least the true count. -/
structure Covered (hash : HashFuncs) (numHash numBits : ℕ) (kv : KV) : Prop where
  table : kv.table.TableInv (hash 0)
  shape : Shaped numHash numBits kv
  cover : ∀ c i, kv.held hash numHash numBits c i ≤ kv.byte c i

theorem Covered.load_le (h : Covered hash numHash numBits kv) {slot : ℕ}
    (hs : slot < kv.table.capacity) (hu : Usable (kv.table.buckets slot).key) (c i : ℕ) :
    load hash numHash numBits c i (kv.table.buckets slot).key ≤ kv.byte c i :=
  Nat.le_trans (h.table.le_sum (h.table.view_of_bucket hs hu) fun k _ =>
    load hash numHash numBits c i k) (h.cover c i)

theorem step_tableInv (h : kv.table.TableInv (hash 0)) {a : KVStep} (hwf : a.WellFormed)
    (hstep : kv.step hash a = some kv') : kv'.table.TableInv (hash 0) := by
  cases a with
  | insert key value cid draws => exact insert_tableInv (toOption_some hstep) h hwf.1 hwf.2.1
  | remove key cid =>
      obtain rfl := Option.some.inj hstep
      exact remove_tableInv h hwf.1 cid
  | evict draws rand => exact evict_tableInv (toOption_some hstep) h

/-- What an attempt leaves open for the last `if (!ret)`: the key it stored is
not counted yet. The second case is a table shorter than a probe window. -/
structure AttemptCounts (hash : HashFuncs) (numHash numBits : ℕ) (kv : KV) (key : Key)
    (r : KV × ℤ) : Prop where
  table : r.1.table.TableInv (hash 0)
  capacity : r.1.table.capacity = kv.table.capacity
  balance : (∀ c i, r.1.held hash numHash numBits c i + kv.byte c i =
      kv.held hash numHash numBits c i + r.1.byte c i +
        if r.2 = 0 then load hash numHash numBits c i key else 0) ∨
    (kv.table.capacity < lockSize ∧ r.1 = kv)

theorem Attempt.counts {key : Key} {value : Value} {d : InsertDraw} {r : KV × ℤ}
    (h : Attempt hash kv key value d r) (hc : Covered hash numHash numBits kv)
    (hkey : Usable key) (hvalue : value ≠ NONE) (hnone : kv.table.view (hash 0) key = none) :
    AttemptCounts hash numHash numBits kv key r := by
  have htable := h.tableInv hc.table hkey hvalue hnone
  cases h with
  | @added i hi hfill hvac =>
      have hlt : kv.table.window (hash 0) key i < kv.table.capacity :=
        LinearProbingApprox.window_lt (by omega) key i
      refine ⟨htable, rfl, Or.inl fun c j => ?_⟩
      have hsum := LinearProbingApprox.sum_setBucket_vacant hlt hvac hkey value d.now
        fun k _ => load hash numHash numBits c j k
      simp only [held, byte, if_true]
      rw [hsum]
      omega
  | @replaced i hi hfull hbusy =>
      have hlt : kv.table.window (hash 0) key i < kv.table.capacity :=
        LinearProbingApprox.window_lt (by omega) key i
      refine ⟨htable, rfl, Or.inl fun c j => ?_⟩
      have hsum := LinearProbingApprox.sum_setBucket_evicted hlt
        (hfull _ hi) hkey value d.now fun k _ => load hash numHash numBits c j k
      have hbyte := byte_expel { kv with
          table := kv.table.setBucket (kv.table.window (hash 0) key i) key value d.now }
        hc.shape d.rand (hc.load_le hlt (hfull _ hi)) c j
      change _ = kv.byte c j at hbyte
      simp only [held, expel_table, if_true]
      omega
  | refused hfull => exact ⟨htable, rfl, Or.inl fun c i => rfl⟩
  | dropped _ hlt => exact ⟨htable, rfl, Or.inr ⟨hlt, rfl⟩⟩

/-- An older version leaves the table while its hashes stay counted. -/
theorem Covered.supersede (h : Covered hash numHash numBits kv) {slot : ℕ}
    (hs : slot < kv.table.capacity) (hu : Usable (kv.table.buckets slot).key) (cid rand : ℕ) :
    Covered hash numHash numBits (kv.supersede slot cid rand) where
  table := supersede_inv h.table slot cid rand
  shape := h.shape
  cover c i := by
    have hsum := LinearProbingApprox.sum_bury hs hu fun k _ => load hash numHash numBits c i k
    have hcover := h.cover c i
    simp only [held, KV.supersede, free_table, byte, free_cbfs] at hcover ⊢
    omega

/-- The last statement of `Insert` meets no full byte. -/
def NoRestart (hash : HashFuncs) (kv : KV) : KVStep → Prop
  | .insert key value cid draws => ∀ r, insertRetry hash key value cid kv draws = .ok r →
      r.2 = 0 → (r.1.cbfs cid).Fits hash key
  | _ => True

instance (a : KVStep) : Decidable (kv.NoRestart hash a) :=
  match a with
  | .insert key value cid draws =>
      match h : insertRetry hash key value cid kv draws with
      | .error _ => isTrue fun r hr => by rw [h] at hr; cases hr
      | .ok r =>
          if hret : r.2 = 0 → (r.1.cbfs cid).Fits hash key then
            isTrue fun r' hr => by rw [h] at hr; cases hr; exact hret
          else isFalse fun hall => hret (hall r h)
  | .remove _ _ => isTrue trivial
  | .evict _ _ => isTrue trivial

theorem byte_settle {key : Key} {r : KV × ℤ} (hs : Shaped numHash numBits r.1)
    (hfit : r.2 = 0 → (r.1.cbfs (longkeyToCid key)).Fits hash key) (c i : ℕ) :
    (settle hash key r).byte c i =
      r.1.byte c i + if r.2 = 0 then load hash numHash numBits c i key else 0 := by
  rw [settle]
  split
  next hret => exact byte_cbfInsert hs (hfit hret) c i
  next => rfl

/-- On a table of at least one window, an insert adds to both sides alike. -/
theorem AttemptCounts.balance_settle {key : Key} {r : KV × ℤ}
    (h : AttemptCounts hash numHash numBits kv key r) (hs : Shaped numHash numBits r.1)
    (hcap : lockSize ≤ kv.table.capacity)
    (hfit : r.2 = 0 → (r.1.cbfs (longkeyToCid key)).Fits hash key) (c i : ℕ) :
    (settle hash key r).held hash numHash numBits c i + kv.byte c i =
      kv.held hash numHash numBits c i + (settle hash key r).byte c i := by
  rcases h.balance with hbal | ⟨hlt, -⟩
  · have hbal := hbal c i
    rw [byte_settle hs hfit, held, settle_table]
    simp only [held] at hbal ⊢
    omega
  · omega

theorem AttemptCounts.covered {key : Key} {r : KV × ℤ}
    (h : AttemptCounts hash numHash numBits kv key r) (hc : Covered hash numHash numBits kv)
    (hs : Shaped numHash numBits r.1)
    (hfit : r.2 = 0 → (r.1.cbfs (longkeyToCid key)).Fits hash key) :
    Covered hash numHash numBits (settle hash key r) where
  table := by rw [settle_table]; exact h.table
  shape := hs.settle
  cover c i := by
    have hcover := hc.cover c i
    rw [byte_settle hs hfit, held, settle_table]
    rcases h.balance with hbal | ⟨-, heq⟩
    · have hbal := hbal c i
      simp only [held] at hbal hcover ⊢
      omega
    · rw [heq]
      exact Nat.le_trans hcover (Nat.le_add_right _ _)

/-- A key that leaves the table is taken off the filter of its client. -/
theorem balance_leave {slot : ℕ} (hs : slot < kv.table.capacity)
    (hu : Usable (kv.table.buckets slot).key) {kv' : KV}
    (htable : kv'.table = kv.table.bury slot)
    (hbyte : ∀ c i, kv'.byte c i + load hash numHash numBits c i (kv.table.buckets slot).key =
      kv.byte c i) (c i : ℕ) :
    kv'.held hash numHash numBits c i + kv.byte c i =
      kv.held hash numHash numBits c i + kv'.byte c i := by
  have hsum := LinearProbingApprox.sum_bury hs hu fun k _ => load hash numHash numBits c i k
  have hbyte := hbyte c i
  simp only [held, htable] at hsum ⊢
  omega

theorem Covered.leave (h : Covered hash numHash numBits kv) {slot : ℕ}
    (hs : slot < kv.table.capacity) (hu : Usable (kv.table.buckets slot).key) {kv' : KV}
    (htable : kv'.table = kv.table.bury slot) (hshape : Shaped numHash numBits kv')
    (hbyte : ∀ c i, kv'.byte c i + load hash numHash numBits c i (kv.table.buckets slot).key =
      kv.byte c i) : Covered hash numHash numBits kv' where
  table := htable ▸ h.table.bury slot
  shape := hshape
  cover c i := by
    have hbal := balance_leave hs hu htable hbyte c i
    have hcover := h.cover c i
    omega

theorem new_covered (startAddr : Value) (memPoolSize numClients numHash numBits : ℕ) :
    Covered hash numHash numBits (new startAddr memPoolSize numClients numHash numBits) where
  table := LinearProbingApprox.new_inv _
  shape _ := ⟨rfl, rfl⟩
  cover c i := by
    have hzero := LinearProbingApprox.new_sum (tableCapacity memPoolSize)
      fun k _ => load hash numHash numBits c i k
    rw [held, new, hzero]
    exact Nat.zero_le _

/-! ## Steps -/

/-- `Remove` leaves the store alone or takes one stored key out. -/
theorem Covered.step_remove (h : Covered hash numHash numBits kv) {key : Key} (hkey : Usable key) :
    (kv.remove hash key (longkeyToCid key)).1 = kv ∨
    ∃ slot < kv.table.capacity, Usable (kv.table.buckets slot).key ∧
      (kv.remove hash key (longkeyToCid key)).1.table = kv.table.bury slot ∧
      ∀ c i, (kv.remove hash key (longkeyToCid key)).1.byte c i +
        load hash numHash numBits c i (kv.table.buckets slot).key = kv.byte c i := by
  rcases remove_cases h.table hkey (longkeyToCid key) with ⟨slot, hs, rfl, -, hr⟩ | ⟨-, hr⟩
  · rw [hr]
    exact Or.inr ⟨slot, hs, hkey, rfl,
      byte_cbfRemove { kv with table := kv.table.bury slot } h.shape (h.load_le hs hkey)⟩
  · exact Or.inl (by rw [hr])

/-- A returning `Evict` takes one stored key out. -/
theorem Covered.step_evict (h : Covered hash numHash numBits kv) {draws : List EvictDraw}
    {rand : ℕ} (hr : kv.evict hash draws rand = .ok kv') :
    ∃ slot < kv.table.capacity, Usable (kv.table.buckets slot).key ∧
      kv'.table = kv.table.bury slot ∧
      ∀ c i, kv'.byte c i + load hash numHash numBits c i (kv.table.buckets slot).key =
        kv.byte c i := by
  obtain ⟨slot, hslot, rfl⟩ := evict_ok hr
  exact ⟨slot, hslot.1, hslot.2.1, rfl,
    byte_expel { kv with table := kv.table.bury slot } h.shape rand
      (h.load_le hslot.1 hslot.2.1)⟩

/-- The attempt an `Insert` ends with, on the store without the older version
of its key. -/
theorem Covered.insertRetry (h : Covered hash numHash numBits kv) {key : Key} {value : Value}
    (hkey : Usable key) (hvalue : value ≠ NONE) {draws : List InsertDraw} {r : KV × ℤ}
    (hr : insertRetry hash key value (longkeyToCid key) kv draws = .ok r) :
    ∃ kv₁, Covered hash numHash numBits kv₁ ∧ AttemptCounts hash numHash numBits kv₁ key r ∧
      (kv.table.view (hash 0) key = none → kv₁ = kv) := by
  rcases insertRetry_ok h.table hkey hvalue hr with
    ⟨hnone, d, hatt⟩ | ⟨slot, hs, hk, rand, d, hatt⟩
  · exact ⟨kv, h, hatt.counts h hkey hvalue hnone, fun _ => rfl⟩
  · have hu : Usable (kv.table.buckets slot).key := by rw [hk]; exact hkey
    have hsup := h.supersede hs hu (longkeyToCid key) rand
    have hgone : (kv.supersede slot (longkeyToCid key) rand).table.view (hash 0) key = none := by
      rw [supersede_view h.table hs hu, hk, Function.update_self]
    refine ⟨_, hsup, hatt.counts hsup hkey hvalue hgone, fun hnone => ?_⟩
    have hview := h.table.view_of_bucket hs hu
    rw [hk, hnone] at hview
    cases hview

theorem Covered.step (h : Covered hash numHash numBits kv) {a : KVStep} (hwf : a.WellFormed)
    (hok : kv.NoRestart hash a) (hstep : kv.step hash a = some kv') :
    Covered hash numHash numBits kv' := by
  have hshape := h.shape.step hwf hstep
  cases a with
  | insert key value cid draws =>
      obtain ⟨hkey, hvalue, rfl⟩ := hwf
      obtain ⟨r, hr, rfl⟩ := step_insert rfl hstep
      obtain ⟨kv₁, h₁, hcounts, -⟩ := h.insertRetry hkey hvalue hr
      exact hcounts.covered h₁ (h.shape.insertRetry hr) (hok r hr)
  | remove key cid =>
      obtain ⟨hkey, rfl⟩ := hwf
      obtain rfl := Option.some.inj hstep
      rcases h.step_remove hkey with hr | ⟨slot, hs, hu, htable, hbyte⟩
      · rw [hr]
        exact h
      · exact h.leave hs hu htable hshape hbyte
  | evict draws rand =>
      obtain ⟨slot, hs, hu, htable, hbyte⟩ := h.step_evict (toOption_some hstep)
      exact h.leave hs hu htable hshape hbyte

/-- A covered key passes the filter. -/
theorem Covered.mightContain (h : Covered hash numHash numBits kv) {k : Key}
    (hk : kv.table.view (hash 0) k ≠ none) :
    (kv.cbfs (longkeyToCid k)).mightContain hash k = true := by
  refine CountingBloomFilter.mightContain_iff.mpr fun i hi hzero => ?_
  obtain ⟨v, hv⟩ := Option.ne_none_iff_exists'.mp hk
  have hle : load hash numHash numBits (longkeyToCid k) i k ≤ kv.byte (longkeyToCid k) i :=
    Nat.le_trans (h.table.le_sum hv fun k' _ => load hash numHash numBits (longkeyToCid k) i k')
      (h.cover (longkeyToCid k) i)
  rw [h.shape.indices] at hi
  have hpos := List.count_pos_iff.mpr hi
  simp only [load, if_true, byte, hzero] at hle
  simp at hle
  omega

/-! ## The filter counts the table -/

/-- No `Insert` puts a stored key again. -/
def NoUpdate (kv : KV) : KVStep → Prop
  | .insert key _ _ _ => key ∉ kv.table.storedKeys
  | _ => True

instance (a : KVStep) : Decidable (kv.NoUpdate a) := by
  cases a <;> unfold NoUpdate <;> infer_instance

/-- No true count passes what a byte holds. -/
def CountsFit (hash : HashFuncs) (kv : KV) : Prop := ∀ c i, kv.trueCount hash c i ≤ 255

/-- The bytes are the true counts, on a table of at least one window. -/
structure Counted (hash : HashFuncs) (numHash numBits : ℕ) (kv : KV) : Prop where
  covered : Covered hash numHash numBits kv
  exact : ∀ c i, kv.byte c i = kv.held hash numHash numBits c i
  window : lockSize ≤ kv.table.capacity

/-- Exact bytes restart only where a true count passes 255. -/
theorem Counted.noRestart (h : Counted hash numHash numBits kv) {a : KVStep} (hwf : a.WellFormed)
    (hfresh : kv.NoUpdate a)
    (hfit : ∀ kv', kv.step hash a = some kv' → ∀ c i, kv'.held hash numHash numBits c i ≤ 255) :
    kv.NoRestart hash a := by
  cases a with
  | remove key cid => trivial
  | evict draws rand => trivial
  | insert key value cid draws =>
      obtain ⟨hkey, hvalue, rfl⟩ := hwf
      intro r hr hret
      obtain ⟨kv₁, h₁, hcounts, hsame⟩ := h.covered.insertRetry hkey hvalue hr
      have hnone : kv.table.view (hash 0) key = none := by
        by_contra hne
        exact hfresh (h.covered.table.mem_storedKeys.mpr hne)
      obtain rfl := hsame hnone
      have hstep : kv₁.step hash (.insert key value (longkeyToCid key) draws) =
          some (settle hash key r) := by
        simp only [KV.step, insert, hr, Except.map, Except.toOption]
        rfl
      intro i _
      rcases hcounts.balance with hbal | ⟨hlt, -⟩
      · have hbal := hbal (longkeyToCid key) i
        have hexact := h.exact (longkeyToCid key) i
        have hle := hfit _ hstep (longkeyToCid key) i
        rw [held, settle_table] at hle
        rw [if_pos hret, load, if_pos rfl, 
          ← (h.covered.shape.insertRetry hr).indices (longkeyToCid key) key] at hbal
        simp only [held, byte] at hbal hexact hle ⊢
        omega
      · exact absurd h.window (Nat.not_le_of_lt hlt)

theorem Counted.step (h : Counted hash numHash numBits kv) {a : KVStep} (hwf : a.WellFormed)
    (hfresh : kv.NoUpdate a)
    (hfit : ∀ kv', kv.step hash a = some kv' → ∀ c i, kv'.held hash numHash numBits c i ≤ 255)
    (hstep : kv.step hash a = some kv') : Counted hash numHash numBits kv' := by
  have hok := h.noRestart hwf hfresh hfit
  have hcovered := h.covered.step hwf hok hstep
  have hmove : kv'.table.capacity = kv.table.capacity ∧ ∀ c i,
      kv'.held hash numHash numBits c i + kv.byte c i =
        kv.held hash numHash numBits c i + kv'.byte c i := by
    cases a with
    | insert key value cid draws =>
        obtain ⟨hkey, hvalue, rfl⟩ := hwf
        obtain ⟨r, hr, rfl⟩ := step_insert rfl hstep
        obtain ⟨kv₁, h₁, hcounts, hsame⟩ := h.covered.insertRetry hkey hvalue hr
        have hnone : kv.table.view (hash 0) key = none := by
          by_contra hne
          exact hfresh (h.covered.table.mem_storedKeys.mpr hne)
        obtain rfl := hsame hnone
        rw [settle_table]
        exact ⟨hcounts.capacity,
          hcounts.balance_settle (h.covered.shape.insertRetry hr) h.window (hok r hr)⟩
    | remove key cid =>
        obtain ⟨hkey, rfl⟩ := hwf
        obtain rfl := Option.some.inj hstep
        rcases h.covered.step_remove hkey with hr | ⟨slot, hs, hu, htable, hbyte⟩
        · rw [hr]
          exact ⟨rfl, fun c i => rfl⟩
        · exact ⟨by rw [htable]; rfl, balance_leave hs hu htable hbyte⟩
    | evict draws rand =>
        obtain ⟨slot, hs, hu, htable, hbyte⟩ := h.covered.step_evict (toOption_some hstep)
        exact ⟨by rw [htable]; rfl, balance_leave hs hu htable hbyte⟩
  refine ⟨hcovered, fun c i => ?_, by rw [hmove.1]; exact h.window⟩
  have hbal := hmove.2 c i
  have hexact := h.exact c i
  omega

theorem le_tableCapacity {memPoolSize : ℕ} (h : 2 ^ 20 ≤ memPoolSize) :
    lockSize ≤ tableCapacity memPoolSize := by
  have hpages : 256 ≤ memPoolSize / 4096 := by omega
  simp only [tableCapacity, lockSize, LinearProbingApprox.MAX_PROBING_LEN]
  split <;> omega

theorem new_counted (startAddr : Value) {memPoolSize : ℕ} (hsize : 2 ^ 20 ≤ memPoolSize)
    (numClients numHash numBits : ℕ) :
    Counted hash numHash numBits (new startAddr memPoolSize numClients numHash numBits) where
  covered := new_covered startAddr memPoolSize numClients numHash numBits
  exact c i := (LinearProbingApprox.new_sum (tableCapacity memPoolSize)
    fun k _ => load hash numHash numBits c i k).symm
  window := le_tableCapacity hsize

theorem CountsFit.of_card (hs : Shaped numHash numBits kv)
    (h : kv.table.storedKeys.card * numHash ≤ 255) : kv.CountsFit hash := by
  intro c i
  refine Nat.le_trans (Finset.card_filter_le _ _) ?_
  rw [Finset.card_product, Finset.card_range, (hs c).1]
  exact h

theorem Covered.held_eq (h : Covered hash numHash numBits kv) (c i : ℕ) :
    kv.held hash numHash numBits c i = kv.trueCount hash c i :=
  (trueCount_eq_held h.table h.shape c i).symm

end KV

/-! ## Runs -/

/-- As long as no byte restarts, every stored key passes the filter of its
client. -/
theorem filter_no_false_negatives (hash : HashFuncs) (startAddr : Value)
    (memPoolSize numClients numHash numBits : ℕ) {steps : List KVStep}
    (hwf : ∀ a ∈ steps, a.WellFormed) {kv₀ kv : KV}
    (hnew : kv₀ = .new startAddr memPoolSize numClients numHash numBits)
    (hok : (kvSystem hash kv₀).Meets (KV.NoRestart hash) kv₀ steps)
    (hrun : (kvSystem hash kv₀).exec kv₀ steps = some kv) :
    ∀ k ∈ kv.table.storedKeys, (kv.cbfs (longkeyToCid k)).mightContain hash k = true := by
  subst hnew
  have hcovered : KV.Covered hash numHash numBits kv := by
    refine System.exec_invariant (P := fun kv a => a.WellFormed ∧ KV.NoRestart hash kv a)
      (fun kv a kv' h hok hstep => h.step hok.1 hok.2 hstep)
      (KV.new_covered startAddr memPoolSize numClients numHash numBits) ?_ hrun
    exact System.meets_and (System.meets_of_mem _ _ fun a ha _ => hwf a ha) hok
  exact fun k hk => hcovered.mightContain (hcovered.table.mem_storedKeys.mp hk)

/-- One hash function, the identity; with one bit all keys collide. -/
def idHash : HashFuncs := fun _ k => k.toNat

def smallStore (numBits : ℕ) : KV := .new 4096 (2 ^ 20) 1 1 numBits

theorem filter_no_false_negatives_updated :
    ∃ kv, (kvSystem idHash (smallStore 1)).exec (smallStore 1)
        [.insert 1 100 0 [{}], .insert 2 200 0 [{}], .insert 1 300 0 [{}, {}], .remove 2 0] =
        some kv ∧
      ∀ k ∈ kv.table.storedKeys, (kv.cbfs (longkeyToCid k)).mightContain idHash k = true := by
  obtain ⟨kv, hrun⟩ := Option.isSome_iff_exists.mp (by decide +kernel :
    ((kvSystem idHash (smallStore 1)).exec (smallStore 1) [.insert 1 100 0 [{}],
      .insert 2 200 0 [{}], .insert 1 300 0 [{}, {}], .remove 2 0]).isSome = true)
  exact ⟨kv, hrun, filter_no_false_negatives idHash 4096 (2 ^ 20) 1 1 1 (by decide) rfl
    (by decide +kernel) hrun⟩

/-- Key 2 is put once, key 1 is put 255 times, so that the byte they share
restarts at one, and is removed. -/
def restartSteps : List KVStep :=
  .insert 2 100 0 [{}] :: List.replicate 255 (.insert 1 200 0 [{}, {}]) ++ [.remove 1 0]

theorem exec_updates {hash : HashFuncs} (kv₀ : KV) {key : Key} (hkey : Usable key) {value : Value}
    (hvalue : value ≠ NONE) (cid n : ℕ) : ∀ {kv : KV}, kv.table.TableInv (hash 0) →
    kv.table.view (hash 0) key = some value →
    ∃ kv', (kvSystem hash kv₀).exec kv (List.replicate n (.insert key value cid [{}, {}])) =
        some kv' ∧ kv'.table.TableInv (hash 0) ∧
      kv'.table.view (hash 0) = kv.table.view (hash 0) ∧
      kv'.cbfs cid = (fun f => CountingBloomFilter.insert f hash key)^[n] (kv.cbfs cid) := by
  induction n with
  | zero => exact fun hinv _ => ⟨_, rfl, hinv, rfl, rfl⟩
  | succ n ih =>
      intro kv hinv hold
      obtain ⟨kv₁, hr, hview, hcbfs, -⟩ := KV.insert_update hinv hkey hvalue hold cid {} {} []
      have hsame : kv₁.table.view (hash 0) = kv.table.view (hash 0) := by
        rw [hview, Function.update_eq_self_iff, hold]
      have hinv₁ := KV.insert_tableInv hr hinv hkey hvalue
      obtain ⟨kv', hrun, hinv', hview', hcbfs'⟩ := ih hinv₁ (by rw [hsame, hold])
      have hstep : (kvSystem hash kv₀).step kv (.insert key value cid [{}, {}]) = some kv₁ := by
        simp only [kvSystem, KV.step, hr, Except.toOption]
      refine ⟨kv', System.exec_cons_some.mpr ⟨kv₁, hstep, hrun⟩, hinv', hview'.trans hsame, ?_⟩
      rw [hcbfs', hcbfs, Function.update_self, Function.iterate_succ_apply]

/-- Key 2 is stored and its filter denies it. -/
theorem filter_false_negative :
    (∀ a ∈ restartSteps, a.WellFormed) ∧
      ∃ kv, (kvSystem idHash (smallStore 1)).exec (smallStore 1) restartSteps = some kv ∧
        2 ∈ kv.table.storedKeys ∧ (kv.cbfs (longkeyToCid 2)).mightContain idHash 2 = false := by
  have hwf : ∀ a ∈ restartSteps, a.WellFormed := by decide +kernel
  refine ⟨hwf, ?_⟩
  -- the first put of either key is evaluated, the 254 updates are a lemma
  have hstart : ((kvSystem idHash (smallStore 1)).exec (smallStore 1) (restartSteps.take 2)).map
      (fun kv => (kv.table.view (idHash 0) 1, kv.table.view (idHash 0) 2,
        (kv.cbfs 0).numHash, (kv.cbfs 0).numBits, (kv.cbfs 0).cbfByteBitarr 0)) =
      some (some 200, some 100, 1, 1, 2) := by decide +kernel
  obtain ⟨kv₁, hrun₁, hkv₁⟩ := Option.map_eq_some_iff.mp hstart
  simp only [Prod.mk.injEq] at hkv₁
  obtain ⟨h1, h2, hnumHash, hnumBits, hbyte⟩ := hkv₁
  have hinv₁ : kv₁.table.TableInv (idHash 0) :=
    System.exec_invariant (P := fun _ a => a.WellFormed) (I := fun kv => kv.table.TableInv (idHash 0))
      (fun kv a kv' h hok hstep => KV.step_tableInv h hok hstep) (LinearProbingApprox.new_inv _)
      (System.meets_of_mem _ _ fun a ha _ => hwf a (List.mem_of_mem_take ha)) hrun₁
  obtain ⟨kv₂, hrun₂, hinv₂, hview₂, hcbfs₂⟩ := exec_updates (smallStore 1)
    (by decide : Usable 1) (by decide : 200 ≠ NONE) 0 254 hinv₁ h1
  have hindices : ∀ k, (kv₂.cbfs 0).indices idHash k = [0] := by
    intro k
    rw [hcbfs₂, CountingBloomFilter.iterate_insert_indices]
    simp [CountingBloomFilter.indices, CountingBloomFilter.computeHash, hnumHash, hnumBits,
      Nat.mod_one]
  have hone : (kv₂.cbfs 0).cbfByteBitarr 0 = 1 := by
    have hcount : ((kv₁.cbfs 0).indices idHash 1).count 0 = 1 := by
      rw [← CountingBloomFilter.iterate_insert_indices 1 1 254, ← hcbfs₂, hindices]
      rfl
    rw [hcbfs₂, CountingBloomFilter.iterate_insert_byte, hcount, hbyte]
    decide +kernel
  have hfound : (kv₂.cbfs 0).mightContain idHash 1 = true := by
    rw [CountingBloomFilter.mightContain_iff, hindices]
    simp [hone]
  have hzero : ((kv₂.cbfs 0).remove idHash 1).1.cbfByteBitarr 0 = 0 := by
    rw [CountingBloomFilter.remove_byte hfound, hindices, hone]
    decide
  have hrun : (kvSystem idHash (smallStore 1)).exec (smallStore 1) restartSteps =
      some (kv₂.remove idHash 1 0).1 := by
    have hsplit : restartSteps = restartSteps.take 2 ++
        (List.replicate 254 (.insert 1 200 0 [{}, {}]) ++ [.remove 1 0]) := by rfl
    rw [hsplit]
    exact System.exec_append_some.mpr ⟨kv₁, hrun₁, System.exec_snoc_some.mpr ⟨kv₂, hrun₂, rfl⟩⟩
  refine ⟨_, hrun, ?_, ?_⟩
  · rw [(KV.remove_tableInv hinv₂ (by decide) 0).mem_storedKeys]
    rcases KV.remove_cases hinv₂ (by decide : Usable 1) 0 with ⟨slot, hs, hk, -, hr⟩ | ⟨-, hr⟩
    · rw [hr, KV.cbfRemove_table, hinv₂.view_bury hs (by rw [hk]; decide), hk,
        Function.update_of_ne (by decide), hview₂, h2]
      exact Option.some_ne_none _
    · rw [hr, hview₂, h2]
      exact Option.some_ne_none _
  · rw [← Bool.not_eq_true, CountingBloomFilter.mightContain_iff]
    rcases KV.remove_cases hinv₂ (by decide : Usable 1) 0 with ⟨slot, hs, hk, -, hr⟩ | ⟨hnone, -⟩
    · rw [hr, show longkeyToCid 2 = 0 by decide, KV.cbfRemove_cbfs, Function.update_self]
      intro hall
      refine hall 0 ?_ hzero
      rw [CountingBloomFilter.indices_congr (CountingBloomFilter.remove_numHash 1)
        (CountingBloomFilter.remove_numBits 1), hindices]
      exact List.mem_singleton_self 0
    · rw [hview₂, h1] at hnone
      cases hnone

/-- As long as no stored key is put again and no true count passes 255, every
byte is the true count of its index. -/
theorem filter_counts_stored (hash : HashFuncs) (startAddr : Value) {memPoolSize : ℕ}
    (hsize : 2 ^ 20 ≤ memPoolSize) (numClients numHash numBits : ℕ) {steps : List KVStep}
    (hwf : ∀ a ∈ steps, a.WellFormed) {kv₀ kv : KV}
    (hnew : kv₀ = .new startAddr memPoolSize numClients numHash numBits)
    (hfresh : (kvSystem hash kv₀).Meets KV.NoUpdate kv₀ steps)
    (hfit : ∀ pre kv', pre <+: steps → (kvSystem hash kv₀).exec kv₀ pre = some kv' →
      kv'.CountsFit hash)
    (hrun : (kvSystem hash kv₀).exec kv₀ steps = some kv) (c : ℕ) :
    (∀ i, kv.byte c i = kv.trueCount hash c i) ∧
      ((∀ k ∈ kv.table.storedKeys, longkeyToCid k ≠ c) → ∀ i, kv.byte c i = 0) := by
  subst hnew
  set kv₀ := KV.new startAddr memPoolSize numClients numHash numBits with hkv₀
  have hcounted : KV.Counted hash numHash numBits kv := by
    refine System.exec_invariant (P := fun kv a => (a.WellFormed ∧ KV.NoUpdate kv a) ∧
        ∀ kv', kv.step hash a = some kv' → kv'.CountsFit hash)
      (fun kv a kv' h hok hstep => ?_) (KV.new_counted startAddr hsize numClients numHash numBits)
      ?_ hrun
    · obtain ⟨⟨hwf, hfresh⟩, hfit⟩ := hok
      refine h.step hwf hfresh (fun kv₁ h₁ c i => ?_) hstep
      rw [← KV.trueCount_eq_held (KV.step_tableInv h.covered.table hwf h₁)
        (h.covered.shape.step hwf h₁)]
      exact hfit kv₁ h₁ c i
    · refine System.meets_and (System.meets_and (System.meets_of_mem _ _ fun a ha _ => hwf a ha)
        hfresh) (System.meets_of_prefix fun pre a kv₁ hpre hexec kv' hstep => ?_)
      exact hfit (pre ++ [a]) kv' hpre (System.exec_snoc_some.mpr ⟨kv₁, hexec, hstep⟩)
  have hbyte : ∀ i, kv.byte c i = kv.trueCount hash c i := fun i =>
    (hcounted.exact c i).trans (hcounted.covered.held_eq c i)
  refine ⟨hbyte, fun hgone i => ?_⟩
  rw [hbyte, KV.trueCount, Finset.card_eq_zero, Finset.filter_eq_empty_iff]
  intro p hp hpair
  exact hgone p.1 (Finset.mem_product.mp hp).1 hpair.1

/-- The counts of a run fit if few keys are stored in each state it passes. -/
theorem countsFit_of_card {hash : HashFuncs} {numHash numBits : ℕ} {kv₀ : KV}
    (hs : KV.Shaped numHash numBits kv₀) {steps : List KVStep} (hwf : ∀ a ∈ steps, a.WellFormed)
    (hcard : ∀ pre ∈ steps.inits, ((kvSystem hash kv₀).exec kv₀ pre).all fun kv =>
      decide (kv.table.storedKeys.card * numHash ≤ 255)) :
    ∀ pre kv, pre <+: steps → (kvSystem hash kv₀).exec kv₀ pre = some kv → kv.CountsFit hash := by
  intro pre kv hpre hrun
  have hshape : KV.Shaped numHash numBits kv :=
    System.exec_invariant (P := fun _ a => a.WellFormed) (I := KV.Shaped numHash numBits)
      (fun kv a kv' h hok hstep => KV.Shaped.step h hok hstep) hs
      (System.meets_of_mem _ _ fun a ha _ => hwf a (hpre.subset ha)) hrun
  have hle := hcard pre (List.mem_inits _ _ |>.mpr hpre)
  rw [hrun] at hle
  exact KV.CountsFit.of_card hshape (of_decide_eq_true hle)

/-- Two keys come, one is fetched and the other evicted. -/
def leaveSteps : List KVStep :=
  [.insert 1 100 0 [{}], .insert 2 200 0 [{}], .remove 1 0, .evict [{ rand := 0 }] 0]

theorem filter_counts_stored_leave :
    ∃ kv, (kvSystem idHash (smallStore 8)).exec (smallStore 8) leaveSteps = some kv ∧
      (∀ i, kv.byte 0 i = kv.trueCount idHash 0 i) ∧
      ((∀ k ∈ kv.table.storedKeys, longkeyToCid k ≠ 0) → ∀ i, kv.byte 0 i = 0) := by
  obtain ⟨kv, hrun⟩ := Option.isSome_iff_exists.mp (by decide +kernel :
    ((kvSystem idHash (smallStore 8)).exec (smallStore 8) leaveSteps).isSome = true)
  exact ⟨kv, hrun, filter_counts_stored idHash 4096 (Nat.le_refl _) 1 1 8 (by decide) rfl
    (by decide +kernel)
    (countsFit_of_card (fun _ => ⟨rfl, rfl⟩) (by decide) (by decide +kernel)) hrun 0⟩

/-- A key is put, put again and removed. -/
def updateSteps : List KVStep :=
  [.insert 1 100 0 [{}], .insert 1 200 0 [{}, {}], .remove 1 0]

/-- No key is stored any more, and the filter still counts one. -/
theorem filter_counts_update_twice :
    (∀ a ∈ updateSteps, a.WellFormed) ∧
      (∀ pre kv, pre <+: updateSteps →
        (kvSystem idHash (smallStore 8)).exec (smallStore 8) pre = some kv →
        kv.CountsFit idHash) ∧
      ∃ kv, (kvSystem idHash (smallStore 8)).exec (smallStore 8) updateSteps = some kv ∧
        kv.table.storedKeys = ∅ ∧ kv.trueCount idHash 0 1 = 0 ∧ kv.byte 0 1 = 1 := by
  refine ⟨by decide, countsFit_of_card (fun _ => ⟨rfl, rfl⟩) (by decide) (by decide +kernel), ?_⟩
  have hrun : ((kvSystem idHash (smallStore 8)).exec (smallStore 8) updateSteps).map (fun kv =>
      (kv.table.storedKeys, kv.trueCount idHash 0 1, kv.byte 0 1)) = some (∅, 0, 1) := by
    decide +kernel
  obtain ⟨kv, hkv, htriple⟩ := Option.map_eq_some_iff.mp hrun
  simp only [Prod.mk.injEq] at htriple
  exact ⟨kv, hkv, htriple⟩

end CleancacheRdma.Daemon
