import Mathlib.Data.BitVec
import Mathlib.Tactic.Common

/-!
# Bitmaps kept in words

A bitmap is a family of words of `w` bits, bit `i` lies in word `i / w`. What
the word operations do is said bit by bit: setting one bit, setting the bits of
a list, an or of two words, a word overwritten by that of another bitmap.
-/

namespace CleancacheRdma.Lib

abbrev Bitmap (w : ℕ) := ℕ → BitVec w

namespace Bitmap

variable {w : ℕ}

def zero : Bitmap w := fun _ => 0

def Test (b : Bitmap w) (i : ℕ) : Prop := (b (i / w)).getLsbD (i % w) = true

instance (b : Bitmap w) (i : ℕ) : Decidable (b.Test i) := inferInstanceAs (Decidable (_ = true))

/-- `b[i / w] |= 1 << (i % w)`. -/
def set (b : Bitmap w) (i : ℕ) : Bitmap w :=
  Function.update b (i / w) (b (i / w) ||| 1#w <<< (i % w))

/-- Word `n` or-ed with that of `c`. -/
def orWord (b c : Bitmap w) (n : ℕ) : Bitmap w := Function.update b n (b n ||| c n)

/-- Word `n` replaced by that of `c`. -/
def copyWord (b c : Bitmap w) (n : ℕ) : Bitmap w := Function.update b n (c n)

/-- Every bit of `b` is set in `c`. -/
def Sub (b c : Bitmap w) : Prop := ∀ i, b.Test i → c.Test i

/-! ## Bit by bit -/

theorem not_test_zero (i : ℕ) : ¬ (zero : Bitmap w).Test i := by
  intro h
  simp [Test, zero] at h

theorem getLsbD_one_shiftLeft {m n : ℕ} (hn : n < w) :
    (1#w <<< m).getLsbD n = true ↔ n = m := by
  rw [BitVec.getLsbD_shiftLeft, BitVec.getLsbD_one]
  simp only [hn, decide_true, Bool.true_and, Bool.and_eq_true, Bool.not_eq_true',
    decide_eq_false_iff_not, decide_eq_true_eq]
  omega

/-- How a lookup tests a bit. -/
theorem and_ne_zero_iff (hw : 0 < w) {b : Bitmap w} {i : ℕ} :
    b (i / w) &&& 1#w <<< (i % w) ≠ 0#w ↔ b.Test i := by
  have hlt := Nat.mod_lt i hw
  constructor
  · intro hne
    by_contra hzero
    apply hne
    apply BitVec.eq_of_getLsbD_eq
    intro n hn
    rw [BitVec.getLsbD_and, BitVec.getLsbD_zero, Bool.and_eq_false_iff]
    by_cases hni : n = i % w
    · subst hni
      exact Or.inl (Bool.eq_false_iff.mpr hzero)
    · exact Or.inr (Bool.eq_false_iff.mpr fun h => hni ((getLsbD_one_shiftLeft hn).mp h))
  · intro htest hzero
    have hbit : (b (i / w) &&& 1#w <<< (i % w)).getLsbD (i % w) = true := by
      rw [BitVec.getLsbD_and, (getLsbD_one_shiftLeft hlt).mpr rfl, Bool.and_true]
      exact htest
    rw [hzero] at hbit
    simp at hbit

theorem test_set (hw : 0 < w) {b : Bitmap w} {i j : ℕ} : (b.set i).Test j ↔ b.Test j ∨ j = i := by
  have hlt := Nat.mod_lt j hw
  unfold Test set
  by_cases hword : j / w = i / w
  · rw [hword, Function.update_self, BitVec.getLsbD_or, Bool.or_eq_true,
      getLsbD_one_shiftLeft hlt]
    refine or_congr Iff.rfl ⟨fun h => ?_, fun h => by rw [h]⟩
    rw [← Nat.div_add_mod j w, hword, h, Nat.div_add_mod]
  · rw [Function.update_of_ne hword]
    exact ⟨Or.inl, fun h => h.resolve_right fun heq => hword (by rw [heq])⟩

theorem test_foldl_set (hw : 0 < w) {l : List ℕ} {b : Bitmap w} {j : ℕ} :
    (l.foldl set b).Test j ↔ b.Test j ∨ j ∈ l := by
  induction l generalizing b with
  | nil => simp
  | cons i l ih => rw [List.foldl_cons, ih, test_set hw, List.mem_cons, or_assoc]

theorem test_orWord {b c : Bitmap w} {n i : ℕ} :
    (b.orWord c n).Test i ↔ b.Test i ∨ i / w = n ∧ c.Test i := by
  unfold Test orWord
  by_cases hword : i / w = n
  · rw [hword, Function.update_self, BitVec.getLsbD_or, Bool.or_eq_true]
    simp
  · rw [Function.update_of_ne hword]
    simp [hword]

theorem test_copyWord {b c : Bitmap w} {n i : ℕ} :
    (b.copyWord c n).Test i ↔ if i / w = n then c.Test i else b.Test i := by
  unfold Test copyWord
  by_cases hword : i / w = n
  · rw [hword, Function.update_self, if_pos rfl]
  · rw [Function.update_of_ne hword, if_neg hword]

/-- A loop over the words `0..n-1`. -/
theorem test_foldl_orWord {b c : Bitmap w} {n i : ℕ} :
    ((List.range n).foldl (fun b m => b.orWord c m) b).Test i ↔
      b.Test i ∨ i / w < n ∧ c.Test i := by
  induction n with
  | zero => simp
  | succ n ih =>
      rw [List.range_succ, List.foldl_append, List.foldl_cons, List.foldl_nil, test_orWord, ih,
        or_assoc, ← or_and_right, Nat.lt_succ_iff_lt_or_eq]

theorem test_foldl_copyWord {b c : Bitmap w} {n i : ℕ} :
    ((List.range n).foldl (fun b m => b.copyWord c m) b).Test i ↔
      if i / w < n then c.Test i else b.Test i := by
  induction n with
  | zero => simp
  | succ n ih =>
      rw [List.range_succ, List.foldl_append, List.foldl_cons, List.foldl_nil, test_copyWord, ih]
      by_cases hword : i / w = n
      · rw [if_pos hword, if_pos (Nat.lt_succ_of_le (Nat.le_of_eq hword))]
      · have hlt : i / w < n + 1 ↔ i / w < n := by omega
        rw [if_neg hword]
        simp only [hlt]

theorem Sub.refl (b : Bitmap w) : b.Sub b := fun _ h => h

theorem sub_orWord (b c : Bitmap w) (n : ℕ) : b.Sub (b.orWord c n) :=
  fun _ h => test_orWord.mpr (Or.inl h)

end Bitmap

end CleancacheRdma.Lib
