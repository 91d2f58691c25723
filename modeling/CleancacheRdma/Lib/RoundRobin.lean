import Mathlib.Logic.Function.Basic
import Mathlib.Tactic.Common

/-!
# Going around in turns

A pointer goes around the places `0, ..., n - 1`, and `n` may grow. Since the
last visit of a place `c` it has come by the places between, each of them once:
so nobody is served twice before the next turn of `c`, and that is less than
`n` steps away.
-/

namespace CleancacheRdma.Lib

/-- The pointer at `i` has come by `d` since it was at `c`. -/
def Passed (c i d : ℕ) : Prop := (c < i ∧ c < d ∧ d < i) ∨ (i ≤ c ∧ (c < d ∨ d < i))

instance (c i d : ℕ) : Decidable (Passed c i d) := inferInstanceAs (Decidable (_ ∨ _))

/-- How many places the pointer at `i` has come by since it was at `c`. -/
def turnsSince (c i n : ℕ) : ℕ := if c < i then i - c - 1 else n - 1 - c + i

theorem not_passed_self (c i : ℕ) : ¬ Passed c i i := by
  unfold Passed
  omega

/-- The pointer of `n` places behind `i`. -/
theorem next_cases {i n : ℕ} (hi : i < n) :
    (i + 1 < n ∧ (i + 1) % n = i + 1) ∨ (i + 1 = n ∧ (i + 1) % n = 0) := by
  rcases Nat.lt_or_eq_of_le (Nat.succ_le_of_lt hi) with hlt | heq
  · exact Or.inl ⟨hlt, Nat.mod_eq_of_lt hlt⟩
  · exact Or.inr ⟨heq, by rw [show i + 1 = n from heq, Nat.mod_self]⟩

theorem passed_next {c i d n : ℕ} (hi : i < n) (hc : c < n) (hne : i ≠ c)
    (h : Passed c i d ∨ d = i) : Passed c ((i + 1) % n) d := by
  unfold Passed at h ⊢
  rcases next_cases hi with ⟨hlt, hnext⟩ | ⟨heq, hnext⟩
  · rw [hnext]
    omega
  · rw [hnext]
    omega

/-- `c` and the others have been served `served` times in `visits` visits. -/
structure Turns (c n i : ℕ) (served : ℕ → ℕ) (visits : ℕ) : Prop where
  pointer : i < n
  place : c < n
  once : ∀ d, d ≠ c → served d ≤ served c + if Passed c i d then 1 else 0
  soon : visits ≤ served c * n + turnsSince c i n

namespace Turns

variable {c n n' i d visits : ℕ} {served served' : ℕ → ℕ}

theorem start (hi : i < n) (hc : c < n) : Turns c n i (fun _ => 0) 0 :=
  ⟨hi, hc, fun _ _ => Nat.zero_le _, Nat.zero_le _⟩

/-- The turn of `c`, which is served. -/
theorem own (h : Turns c n c served visits) (hc : served' c = served c + 1)
    (hother : ∀ d, d ≠ c → served' d = served d) :
    Turns c n ((c + 1) % n) served' (visits + 1) where
  pointer := Nat.mod_lt _ (Nat.zero_lt_of_lt h.place)
  place := h.place
  once d hd := by
    have honce := h.once d hd
    rw [hother d hd, hc]
    refine Nat.le_trans honce (Nat.le_trans ?_ (Nat.le_add_right _ _))
    split
    · exact Nat.le_refl _
    · exact Nat.le_succ _
  soon := by
    have hsoon := h.soon
    rw [hc, Nat.succ_mul]
    unfold turnsSince at hsoon ⊢
    rcases next_cases h.place with ⟨hlt, hnext⟩ | ⟨heq, hnext⟩
    · rw [hnext, if_pos (Nat.lt_succ_self c)]
      rw [if_neg (Nat.lt_irrefl c)] at hsoon
      omega
    · rw [hnext, if_neg (Nat.not_lt_zero c)]
      rw [if_neg (Nat.lt_irrefl c)] at hsoon
      omega

/-- The turn of another, who may be served once. -/
theorem other (h : Turns c n i served visits) (hne : i ≠ c)
    (hi : served' i ≤ served i + 1) (hother : ∀ d, d ≠ i → served' d = served d) :
    Turns c n ((i + 1) % n) served' (visits + 1) where
  pointer := Nat.mod_lt _ (Nat.zero_lt_of_lt h.place)
  place := h.place
  once d hd := by
    have honce := h.once d hd
    rw [hother c (Ne.symm hne)]
    by_cases hdi : d = i
    · subst hdi
      rw [if_neg (not_passed_self c d)] at honce
      rw [if_pos (passed_next h.pointer h.place hne (Or.inr rfl))]
      exact Nat.le_trans hi (Nat.succ_le_succ honce)
    · rw [hother d hdi]
      refine Nat.le_trans honce (Nat.add_le_add_left ?_ _)
      by_cases hpassed : Passed c i d
      · have hstill := passed_next h.pointer h.place hne (Or.inl hpassed)
        exact Nat.le_of_eq (by rw [if_pos hpassed, if_pos hstill])
      · rw [if_neg hpassed]
        exact Nat.zero_le _
  soon := by
    have hsoon := h.soon
    have hpointer := h.pointer
    have hplace := h.place
    rw [hother c (Ne.symm hne)]
    unfold turnsSince at hsoon ⊢
    rcases next_cases h.pointer with ⟨hlt, hnext⟩ | ⟨heq, hnext⟩
    · rw [hnext]
      split at hsoon
      · rw [if_pos (by omega)]
        omega
      · rw [if_neg (by omega)]
        omega
    · rw [hnext, if_neg (Nat.not_lt_zero c)]
      rw [if_pos (by omega)] at hsoon
      omega

theorem grow (h : Turns c n i served visits) (hn : n ≤ n') : Turns c n' i served visits where
  pointer := Nat.lt_of_lt_of_le h.pointer hn
  place := Nat.lt_of_lt_of_le h.place hn
  once := h.once
  soon := by
    have hmul := Nat.mul_le_mul_left (served c) hn
    have hsoon := h.soon
    unfold turnsSince at hsoon ⊢
    split
    next hlt =>
      rw [if_pos hlt] at hsoon
      omega
    next hlt =>
      rw [if_neg hlt] at hsoon
      omega

/-- In between two turns of `c` every other place has one. -/
theorem once_at_most (h : Turns c n i served visits) (hd : d ≠ c) : served d ≤ served c + 1 := by
  refine Nat.le_trans (h.once d hd) (Nat.add_le_add_left ?_ _)
  split
  · exact Nat.le_refl _
  · exact Nat.zero_le _

theorem soon_enough (h : Turns c n i served visits) : visits < (served c + 1) * n := by
  have hsoon := h.soon
  have hpointer := h.pointer
  have hplace := h.place
  rw [Nat.succ_mul]
  unfold turnsSince at hsoon
  split at hsoon
  · omega
  · omega

end Turns

end CleancacheRdma.Lib
