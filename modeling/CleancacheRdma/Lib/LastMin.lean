import Mathlib

/-!
# The last minimum of a range

A scan that replaces its candidate by every value which is not larger ends at
the last of the smallest values. `LastMin` says so of a range of positions; the
rules extend the range by one position and join two adjacent ranges.
-/

namespace CleancacheRdma.Lib

variable {α : Type*} [LinearOrder α] {f : ℕ → α} {lo mid hi i p c : ℕ}

/-- On `[lo, hi)` the function `f` is smallest at `i`, and larger after it. -/
structure LastMin (f : ℕ → α) (lo hi i : ℕ) : Prop where
  ge : lo ≤ i
  lt : i < hi
  least : ∀ j, lo ≤ j → j < hi → f i ≤ f j
  last : ∀ j, i < j → j < hi → f i < f j

namespace LastMin

instance : Decidable (LastMin f lo hi i) :=
  decidable_of_iff ((lo ≤ i ∧ i < hi) ∧ (∀ j < hi, lo ≤ j → f i ≤ f j) ∧ ∀ j < hi, i < j → f i < f j)
    ⟨fun h => ⟨h.1.1, h.1.2, fun j hge hlt => h.2.1 j hlt hge, fun j hgt hlt => h.2.2 j hlt hgt⟩,
      fun h => ⟨⟨h.ge, h.lt⟩, fun j hlt hge => h.least j hge hlt, fun j hlt hgt => h.last j hgt hlt⟩⟩

theorem single (f : ℕ → α) (i : ℕ) : LastMin f i (i + 1) i where
  ge := Nat.le_refl i
  lt := Nat.lt_succ_self i
  least j hge hlt := by
    rw [Nat.le_antisymm hge (Nat.le_of_lt_succ hlt)]
  last j hgt hlt := absurd (Nat.le_of_lt_succ hlt) (Nat.not_le_of_gt hgt)

/-- The next value is not larger: it is the new minimum. -/
theorem replace (h : LastMin f lo hi i) (hle : f hi ≤ f i) : LastMin f lo (hi + 1) hi where
  ge := Nat.le_trans h.ge (Nat.le_of_lt h.lt)
  lt := Nat.lt_succ_self hi
  least j hge hlt := by
    rcases Nat.lt_succ_iff_lt_or_eq.mp hlt with hj | rfl
    · exact le_trans hle (h.least j hge hj)
    · exact le_refl _
  last j hgt hlt := absurd (Nat.le_of_lt_succ hlt) (Nat.not_le_of_gt hgt)

/-- The next value is larger: the minimum stays. -/
theorem keep (h : LastMin f lo hi i) (hlt : f i < f hi) : LastMin f lo (hi + 1) i where
  ge := h.ge
  lt := Nat.lt_succ_of_lt h.lt
  least j hge hj := by
    rcases Nat.lt_succ_iff_lt_or_eq.mp hj with hj | rfl
    · exact h.least j hge hj
    · exact le_of_lt hlt
  last j hgt hj := by
    rcases Nat.lt_succ_iff_lt_or_eq.mp hj with hj | rfl
    · exact h.last j hgt hj
    · exact hlt

/-- Of two adjacent ranges, the earlier minimum if it is smaller. -/
theorem join_left (hp : LastMin f lo mid p) (hc : LastMin f mid hi c) (hlt : f p < f c) :
    LastMin f lo hi p where
  ge := hp.ge
  lt := Nat.lt_of_lt_of_le hp.lt (Nat.le_trans hc.ge (Nat.le_of_lt hc.lt))
  least j hge hj := by
    by_cases hmid : j < mid
    · exact hp.least j hge hmid
    · exact le_trans (le_of_lt hlt) (hc.least j (Nat.le_of_not_lt hmid) hj)
  last j hgt hj := by
    by_cases hmid : j < mid
    · exact hp.last j hgt hmid
    · exact lt_of_lt_of_le hlt (hc.least j (Nat.le_of_not_lt hmid) hj)

/-- Of two adjacent ranges, the later minimum unless the earlier is smaller. -/
theorem join_right (hp : LastMin f lo mid p) (hc : LastMin f mid hi c) (hle : ¬ f p < f c) :
    LastMin f lo hi c where
  ge := Nat.le_trans hp.ge (Nat.le_trans (Nat.le_of_lt hp.lt) hc.ge)
  lt := hc.lt
  least j hge hj := by
    by_cases hmid : j < mid
    · exact le_trans (not_lt.mp hle) (hp.least j hge hmid)
    · exact hc.least j (Nat.le_of_not_lt hmid) hj
  last j hgt hj := hc.last j hgt hj

theorem unique {i' : ℕ} (h : LastMin f lo hi i) (h' : LastMin f lo hi i') : i = i' := by
  rcases Nat.lt_trichotomy i i' with hlt | heq | hgt
  · exact absurd (h'.least i h.ge h.lt) (not_le.mpr (h.last i' hlt h'.lt))
  · exact heq
  · exact absurd (h.least i' h'.ge h'.lt) (not_le.mpr (h'.last i hgt h.lt))

/-- The minimum of a range is that of all positions before its end exactly when
none of the positions before the range is smaller than the whole range. -/
theorem least_iff (h : LastMin f lo hi i) :
    (∀ j < hi, f i ≤ f j) ↔ ∀ j < hi, ∃ k, lo ≤ k ∧ k < hi ∧ f k ≤ f j := by
  constructor
  · intro hleast j hj
    exact ⟨i, h.ge, h.lt, hleast j hj⟩
  · intro hall j hj
    obtain ⟨k, hge, hlt, hle⟩ := hall j hj
    exact le_trans (h.least k hge hlt) hle

end LastMin

end CleancacheRdma.Lib
