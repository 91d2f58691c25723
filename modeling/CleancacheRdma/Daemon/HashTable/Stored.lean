import CleancacheRdma.Daemon.HashTable.Refine

/-!
# Sums over the stored pairs

`sum f` adds `f key value` over the valid buckets. Each write of the table
moves it by the pairs that enter and leave. The keys of the valid buckets are a
finite set, over which a sum of a function of the key alone runs as well.
-/

namespace CleancacheRdma.Daemon.LinearProbingApprox

open Lib.Probing (weight)

variable {t : LinearProbingApprox} {hash : Key → ℕ}

def sum (t : LinearProbingApprox) (f : Key → Value → ℕ) : ℕ :=
  Lib.Probing.total t.capacity f t.cells

theorem new_sum (capacity : ℕ) (f : Key → Value → ℕ) : (new capacity).sum f = 0 :=
  Lib.Probing.total_empty capacity f

theorem weight_cell_usable {b : LPABkt} (h : Usable b.key) (f : Key → Value → ℕ) :
    weight f b.cell = f b.key b.value := by
  rw [cell_of_usable h]
  rfl

theorem weight_cell_vacant {b : LPABkt} (h : ¬ Usable b.key) (f : Key → Value → ℕ) :
    weight f b.cell = 0 := by
  cases hc : b.cell with
  | empty => rfl
  | deleted => rfl
  | full k v => exact absurd (cell_eq_full.mp hc).1 h

theorem sum_put {slot : ℕ} (hs : slot < t.capacity) (b : LPABkt) (f : Key → Value → ℕ) :
    (t.put slot b).sum f + weight f (t.buckets slot).cell =
      t.sum f + weight f b.cell := by
  have h := Lib.Probing.total_update hs f t.cells b.cell
  rw [← cells_put] at h
  exact h

theorem sum_bury {slot : ℕ} (hs : slot < t.capacity) (hu : Usable (t.buckets slot).key)
    (f : Key → Value → ℕ) :
    (t.bury slot).sum f + f (t.buckets slot).key (t.buckets slot).value = t.sum f := by
  have h := sum_put hs { t.buckets slot with key := TOMBSTONE } f
  rwa [weight_cell_usable hu, weight_cell_vacant (fun hu => hu.2 rfl), Nat.add_zero] at h

theorem sum_put_same {slot : ℕ} {b : LPABkt} (hkey : b.key = (t.buckets slot).key)
    (hvalue : b.value = (t.buckets slot).value) (f : Key → Value → ℕ) :
    (t.put slot b).sum f = t.sum f := by
  rw [sum, cells_put_same hkey hvalue]
  rfl

section SetBucket

variable {slot : ℕ} {key : Key}

theorem sum_setBucket_vacant (hs : slot < t.capacity) (hvac : ¬ Usable (t.buckets slot).key)
    (hkey : Usable key) (value : Value) (now : BitVec 32) (f : Key → Value → ℕ) :
    (t.setBucket slot key value now).sum f = t.sum f + f key value := by
  have h := sum_put hs { t.buckets slot with key, value, timestamp := now } f
  rwa [weight_cell_vacant hvac, Nat.add_zero, weight_cell_usable hkey] at h

theorem sum_setBucket_evicted (hs : slot < t.capacity) (hu : Usable (t.buckets slot).key)
    (hkey : Usable key) (value : Value) (now : BitVec 32) (f : Key → Value → ℕ) :
    (t.setBucket slot key value now).sum f + f (t.buckets slot).key (t.buckets slot).value =
      t.sum f + f key value := by
  have h := sum_put hs { t.buckets slot with key, value, timestamp := now } f
  rwa [weight_cell_usable hu, weight_cell_usable hkey] at h

end SetBucket

/-- A stored pair is part of the sum. -/
theorem TableInv.le_sum (h : t.TableInv hash) {k : Key} {v : Value}
    (hv : t.view hash k = some v) (f : Key → Value → ℕ) : f k v ≤ t.sum f :=
  Lib.Probing.le_total (h.probing.view_eq_some_iff.mp hv) f

/-! ## The stored keys -/

def storedKeys (t : LinearProbingApprox) : Finset Key :=
  ((Finset.range t.capacity).filter fun slot => t.isValidBucket slot).image
    fun slot => (t.buckets slot).key

theorem TableInv.mem_storedKeys (h : t.TableInv hash) {k : Key} :
    k ∈ t.storedKeys ↔ t.view hash k ≠ none := by
  simp only [storedKeys, Finset.mem_image, Finset.mem_filter, Finset.mem_range, isValidBucket_iff]
  constructor
  · rintro ⟨slot, ⟨hs, hu⟩, rfl⟩
    rw [h.view_of_bucket hs hu]
    exact nofun
  · intro hne
    obtain ⟨v, hv⟩ := Option.ne_none_iff_exists'.mp hne
    obtain ⟨slot, hs, hu, hk, -⟩ := h.view_eq_some_iff.mp hv
    exact ⟨slot, ⟨hs, hu⟩, hk⟩

theorem TableInv.sum_storedKeys (h : t.TableInv hash) (f : Key → ℕ) :
    ∑ k ∈ t.storedKeys, f k = t.sum fun k _ => f k := by
  have hinj : Set.InjOn (fun slot => (t.buckets slot).key)
      ((Finset.range t.capacity).filter fun slot => t.isValidBucket slot) := by
    intro s hs s' hs' heq
    simp only [Finset.coe_filter, Finset.mem_range, Set.mem_ofPred_eq, isValidBucket_iff] at hs hs'
    exact h.slot_unique hs.1 hs'.1 hs.2 heq
  rw [storedKeys, Finset.sum_image hinj, Finset.sum_filter]
  refine Finset.sum_congr rfl fun slot _ => ?_
  by_cases hu : Usable (t.buckets slot).key
  · rw [if_pos (isValidBucket_iff.mpr hu)]
    exact (weight_cell_usable hu fun k _ => f k).symm
  · rw [if_neg (fun hv => hu (isValidBucket_iff.mp hv))]
    exact (weight_cell_vacant hu fun k _ => f k).symm

end CleancacheRdma.Daemon.LinearProbingApprox
