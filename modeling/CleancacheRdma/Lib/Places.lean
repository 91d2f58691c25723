import Mathlib.Algebra.BigOperators.Group.Finset.Basic
import Mathlib.Algebra.Order.BigOperators.Group.Finset
import Mathlib.Algebra.BigOperators.Group.Finset.Lemmas

/-!
# Items kept in places

Sums over a finite family of places, one of which is written at a time. An item
that moves from place to place keeps its number of occurrences; one lemma says
what a write does to the sum.
-/

namespace CleancacheRdma.Lib

variable {ι β α : Type*}

/-- One write moves the sum by the contribution of the new content less that
of the old. -/
theorem sum_update {M : Type*} [AddCommMonoid M] [DecidableEq ι] {S : Finset ι} {i : ι}
    (hi : i ∈ S) (g : β → M) (c : ι → β) (x : β) :
    ∑ j ∈ S, g (Function.update c i x j) + g (c i) = ∑ j ∈ S, g (c j) + g x := by
  have hrest : ∑ j ∈ S.erase i, g (Function.update c i x j) = ∑ j ∈ S.erase i, g (c j) := by
    refine Finset.sum_congr rfl fun j hj => ?_
    rw [Function.update_of_ne (Finset.ne_of_mem_erase hj)]
  rw [← Finset.add_sum_erase S (fun j => g (c j)) hi,
    ← Finset.add_sum_erase S (fun j => g (Function.update c i x j)) hi, hrest,
    Function.update_self]
  rw [add_right_comm, add_comm (g x), add_right_comm (g (c i))]

/-- If no other place contributes more than before, the sum grows by no more
than the one place does. -/
theorem sum_le_of_others [DecidableEq ι] {S : Finset ι} {i : ι} (hi : i ∈ S) {f g : ι → ℕ}
    (hothers : ∀ j, j ≠ i → g j ≤ f j) : ∑ j ∈ S, g j + f i ≤ ∑ j ∈ S, f j + g i := by
  have hrest : ∑ j ∈ S.erase i, g j ≤ ∑ j ∈ S.erase i, f j :=
    Finset.sum_le_sum fun j hj => hothers j (Finset.ne_of_mem_erase hj)
  rw [← Finset.add_sum_erase S f hi, ← Finset.add_sum_erase S g hi]
  omega

/-- At most one place contributes, and at most one. -/
theorem sum_le_one {S : Finset ι} {f : ι → ℕ} (hle : ∀ i ∈ S, f i ≤ 1)
    (huniq : ∀ i ∈ S, ∀ j ∈ S, f i ≠ 0 → f j ≠ 0 → i = j) : ∑ i ∈ S, f i ≤ 1 := by
  by_cases hzero : ∀ i ∈ S, f i = 0
  · rw [Finset.sum_eq_zero hzero]
    exact Nat.zero_le 1
  · push Not at hzero
    obtain ⟨i, hi, hne⟩ := hzero
    rw [Finset.sum_eq_single_of_mem i hi fun j hj hji => ?_]
    · exact hle i hi
    · by_contra hj0
      exact hji (huniq j hj i hi hj0 hne)

/-- How often `x` occurs in the lists of a family. -/
def occurrences [BEq α] (S : Finset ι) (c : ι → List α) (x : α) : ℕ :=
  ∑ i ∈ S, (c i).count x

theorem occurrences_update [DecidableEq ι] [BEq α] {S : Finset ι} {i : ι} (hi : i ∈ S)
    (c : ι → List α) (l : List α) (x : α) :
    occurrences S (Function.update c i l) x + (c i).count x = occurrences S c x + l.count x :=
  sum_update hi (fun l => l.count x) c l

theorem count_le_occurrences [BEq α] {S : Finset ι} {i : ι} (hi : i ∈ S) (c : ι → List α)
    (x : α) : (c i).count x ≤ occurrences S c x :=
  Finset.single_le_sum (f := fun i => (c i).count x) (fun _ _ => Nat.zero_le _) hi

/-- An item of a sum without repetition is in one summand. -/
theorem eq_of_mem_sum {S : Finset ι} {f : ι → Multiset α} (h : (∑ i ∈ S, f i).Nodup) {i j : ι}
    (hi : i ∈ S) (hj : j ∈ S) {x : α} (hxi : x ∈ f i) (hxj : x ∈ f j) : i = j := by
  classical
  by_contra hne
  have htwo := Finset.add_le_sum (f := fun i => (f i).count x) (fun _ _ => Nat.zero_le _) hi hj hne
  rw [← Multiset.count_sum'] at htwo
  have hone := Multiset.nodup_iff_count_le_one.mp h x
  have hposi := Multiset.count_pos.mpr hxi
  have hposj := Multiset.count_pos.mpr hxj
  omega

/-- Different items of a stock, one of them missing, are fewer than the stock. -/
theorem length_lt_card [DecidableEq α] {l : List α} {stock : Finset α} {x : α} (hnodup : l.Nodup)
    (hsub : ∀ y ∈ l, y ∈ stock) (hx : x ∈ stock) (hnot : x ∉ l) : l.length < stock.card := by
  rw [← List.toFinset_card_of_nodup hnodup]
  apply Finset.card_lt_card
  refine (Finset.ssubset_iff_of_subset fun y hy => hsub y (List.mem_toFinset.mp hy)).mpr ?_
  exact ⟨x, hx, fun hmem => hnot (List.mem_toFinset.mp hmem)⟩

end CleancacheRdma.Lib
