import Mathlib.Tactic.Common

/-!
# Two copies of a memory, one ahead of the other

A write is a partial function from cells to values. A copy is ahead of another
by a family of writes if it has the values of these writes where they are
defined, and agrees with the other elsewhere. The writes may reach the other
copy in any order.
-/

namespace CleancacheRdma.Lib

variable {κ ν ι : Type*}

/-- A memory after a write. -/
def overlay (w : κ → Option ν) (f : κ → ν) : κ → ν := fun k => (w k).getD (f k)

theorem overlay_some {w : κ → Option ν} {f : κ → ν} {k : κ} {v : ν} (h : w k = some v) :
    overlay w f k = v := by
  simp [overlay, h]

theorem overlay_none {w : κ → Option ν} {f : κ → ν} {k : κ} (h : w k = none) :
    overlay w f k = f k := by
  simp [overlay, h]

@[simp] theorem overlay_empty (f : κ → ν) : overlay (fun _ => none) f = f := rfl

/-- `g` has seen the writes `w i` with `I i`, and `f` has not. -/
structure Ahead (w : ι → κ → Option ν) (I : ι → Prop) (f g : κ → ν) : Prop where
  seen : ∀ i, I i → ∀ k v, w i k = some v → g k = v
  same : ∀ k, (∀ i, I i → w i k = none) → g k = f k

namespace Ahead

variable {w : ι → κ → Option ν} {I I' : ι → Prop} {f g : κ → ν}

theorem of_empty (hI : ∀ i, ¬ I i) : Ahead w I f f where
  seen i hi := absurd hi (hI i)
  same _ _ := rfl

theorem eq_of_empty (h : Ahead w I f g) (hI : ∀ i, ¬ I i) : g = f := by
  ext k
  exact h.same k fun i hi => absurd hi (hI i)

/-- The copy in front takes a write to cells that none of the others is for. -/
theorem push (h : Ahead w I f g) {j : ι} (hI : ∀ i, I' i ↔ i = j ∨ I i)
    (hfree : ∀ i, I i → ∀ k, w j k ≠ none → w i k = none) :
    Ahead w I' f (overlay (w j) g) where
  seen i hi k v hv := by
    rcases (hI i).mp hi with rfl | hi
    · exact overlay_some hv
    · have hnone : w j k = none := by
        by_contra hne
        rw [hfree i hi k hne] at hv
        cases hv
      rw [overlay_none hnone]
      exact h.seen i hi k v hv
  same k hk := by
    rw [overlay_none (hk j ((hI j).mpr (Or.inl rfl)))]
    exact h.same k fun i hi => hk i ((hI i).mpr (Or.inr hi))

/-- One of the writes reaches the copy behind. -/
theorem pop (h : Ahead w I f g) {j : ι} (hI : ∀ i, I i ↔ i = j ∨ I' i) :
    Ahead w I' (overlay (w j) f) g where
  seen i hi k v hv := h.seen i ((hI i).mpr (Or.inr hi)) k v hv
  same k hk := by
    cases hw : w j k with
    | some v =>
        rw [overlay_some hw]
        exact h.seen j ((hI j).mpr (Or.inl rfl)) k v hw
    | none =>
        rw [overlay_none hw]
        refine h.same k fun i hi => ?_
        rcases (hI i).mp hi with rfl | hi
        · exact hw
        · exact hk i hi

end Ahead

end CleancacheRdma.Lib
