import Mathlib.Data.Nat.Basic
import Mathlib.Tactic.Common

/-!
# The first maximum of a scan

A scan that replaces its candidate only by a larger score, starting from none at
score zero, ends at the first of the largest scores, or without a candidate if
all scores are zero.
-/

namespace CleancacheRdma.Lib

variable {score : ℕ → ℕ} {n i : ℕ}

/-- Of the first `n` positions none has a larger score than `i`, and those before
`i` have smaller ones. -/
structure FirstMax (score : ℕ → ℕ) (n i : ℕ) : Prop where
  lt : i < n
  largest : ∀ j < n, score j ≤ score i
  first : ∀ j < i, score j < score i

/-- What a scan of the first `n` positions has come to. -/
def Leads (score : ℕ → ℕ) (n : ℕ) : Option ℕ → Prop
  | none => ∀ j < n, score j = 0
  | some i => FirstMax score n i ∧ 0 < score i

/-- The score of the candidate. -/
def lead (score : ℕ → ℕ) (o : Option ℕ) : ℕ := o.elim 0 score

namespace Leads

variable {o : Option ℕ}

theorem zero (score : ℕ → ℕ) : Leads score 0 none := fun j hj => absurd hj (Nat.not_lt_zero j)

theorem le_lead (h : Leads score n o) {j : ℕ} (hj : j < n) : score j ≤ lead score o := by
  cases o with
  | none => exact Nat.le_of_eq (h j hj)
  | some i => exact h.1.largest j hj

/-- A larger score leads from now on. -/
theorem take (h : Leads score n o) (hlt : lead score o < score n) :
    Leads score (n + 1) (some n) := by
  have hbefore : ∀ j < n, score j < score n := fun j hj => Nat.lt_of_le_of_lt (h.le_lead hj) hlt
  refine ⟨⟨Nat.lt_succ_self n, fun j hj => ?_, hbefore⟩, Nat.lt_of_le_of_lt (Nat.zero_le _) hlt⟩
  rcases Nat.lt_succ_iff_lt_or_eq.mp hj with hj | rfl
  · exact Nat.le_of_lt (hbefore j hj)
  · exact Nat.le_refl _

/-- Any other score changes nothing. -/
theorem skip (h : Leads score n o) (hle : score n ≤ lead score o) : Leads score (n + 1) o := by
  cases o with
  | none =>
      intro j hj
      rcases Nat.lt_succ_iff_lt_or_eq.mp hj with hj | rfl
      · exact h j hj
      · exact Nat.le_zero.mp hle
  | some i =>
      refine ⟨⟨Nat.lt_succ_of_lt h.1.lt, fun j hj => ?_, h.1.first⟩, h.2⟩
      rcases Nat.lt_succ_iff_lt_or_eq.mp hj with hj | rfl
      · exact h.1.largest j hj
      · exact hle

end Leads

end CleancacheRdma.Lib
