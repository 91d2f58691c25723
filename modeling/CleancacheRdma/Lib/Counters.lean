import Mathlib.Algebra.BigOperators.Group.Multiset.Basic
import Mathlib.Data.BitVec
import Mathlib.Logic.Function.Iterate

/-!
# Arrays of word-size counters

An update that visits a list of indices and rewrites one counter at each visit
is, at every index, the rewriting function iterated as often as the index
occurs. For rewritings that count up or down between two bounds the iterate
is a sum or a difference. What an array should hold after the updates of a
multiset of visitors is their tally.
-/

namespace CleancacheRdma.Lib

section Touch

variable {ι β : Type*} [DecidableEq ι]

/-- Rewrite the counter at each index of the list, in order. -/
def touchAll (f : β → β) (l : List ι) (c : ι → β) : ι → β :=
  l.foldl (fun c i => Function.update c i (f (c i))) c

theorem touchAll_apply (f : β → β) (l : List ι) (c : ι → β) (i : ι) :
    touchAll f l c i = f^[l.count i] (c i) := by
  induction l generalizing c with
  | nil => rfl
  | cons j l ih =>
      have hstep : touchAll f (j :: l) c = touchAll f l (Function.update c j (f (c j))) := rfl
      rw [hstep, ih]
      by_cases hij : j = i
      · subst hij
        rw [Function.update_self, List.count_cons_self, Function.iterate_succ_apply]
      · rw [Function.update_of_ne (fun h => hij h.symm), List.count_cons_of_ne hij]

end Touch

section Words

variable {w : ℕ} {f : BitVec w → BitVec w}

/-- A counter that counts up by one below `bound` counts `n` visits that do not
pass it. -/
theorem iterate_up {bound : ℕ} (hf : ∀ b : BitVec w, b.toNat < bound → (f b).toNat = b.toNat + 1)
    (n : ℕ) (b : BitVec w) (h : b.toNat + n ≤ bound) : (f^[n] b).toNat = b.toNat + n := by
  induction n generalizing b with
  | zero => rfl
  | succ n ih =>
      have hb := hf b (by omega)
      rw [Function.iterate_succ_apply, ih (f b) (by omega), hb]
      omega

/-- A counter that counts down by one above zero counts `n` visits that do not
pass it. -/
theorem iterate_down (hf : ∀ b : BitVec w, 0 < b.toNat → (f b).toNat = b.toNat - 1)
    (n : ℕ) (b : BitVec w) (h : n ≤ b.toNat) : (f^[n] b).toNat = b.toNat - n := by
  induction n generalizing b with
  | zero => rfl
  | succ n ih =>
      have hb := hf b (by omega)
      rw [Function.iterate_succ_apply, ih (f b) (by omega), hb]
      omega

/-- A counter that never goes up by more than one. -/
theorem iterate_le (hf : ∀ b : BitVec w, (f b).toNat ≤ b.toNat + 1) (n : ℕ) (b : BitVec w) :
    (f^[n] b).toNat ≤ b.toNat + n := by
  induction n generalizing b with
  | zero => exact Nat.le_refl _
  | succ n ih =>
      rw [Function.iterate_succ_apply]
      have hrest := ih (f b)
      have hb := hf b
      omega

end Words

section Above

variable {ι : Type*} [DecidableEq ι] {w : ℕ} {f : BitVec w → BitVec w}

/-- Every visit meets a counter that is not zero. -/
def MeetsNonzero (f : BitVec w → BitVec w) : List ι → (ι → BitVec w) → Prop
  | [], _ => True
  | i :: l, c => c i ≠ 0 ∧ MeetsNonzero f l (Function.update c i (f (c i)))

instance MeetsNonzero.decidable (f : BitVec w → BitVec w) :
    ∀ (l : List ι) (c : ι → BitVec w), Decidable (MeetsNonzero f l c)
  | [], _ => isTrue trivial
  | i :: l, c =>
      have := MeetsNonzero.decidable f l (Function.update c i (f (c i)))
      inferInstanceAs (Decidable (_ ∧ _))

/-- A counter that counts down does not go through zero if and only if it is
visited no more often than it says. -/
theorem meetsNonzero_iff (hf : ∀ b : BitVec w, 0 < b.toNat → (f b).toNat = b.toNat - 1)
    {l : List ι} {c : ι → BitVec w} :
    MeetsNonzero f l c ↔ ∀ i, l.count i ≤ (c i).toNat := by
  induction l generalizing c with
  | nil => exact ⟨fun _ i => Nat.zero_le _, fun _ => trivial⟩
  | cons j l ih =>
      rw [MeetsNonzero, ih]
      have hpos : c j ≠ 0 ↔ 0 < (c j).toNat := by
        rw [Nat.pos_iff_ne_zero, ne_eq, ne_eq, ← BitVec.toNat_inj]
        exact Iff.rfl
      constructor
      · rintro ⟨hj, hle⟩ i
        have hi := hle i
        by_cases hij : j = i
        · subst hij
          rw [Function.update_self, hf _ (hpos.mp hj)] at hi
          rw [List.count_cons_self]
          have := hpos.mp hj
          omega
        · rw [Function.update_of_ne (Ne.symm hij)] at hi
          rw [List.count_cons_of_ne hij]
          exact hi
      · intro hle
        have hj := hle j
        rw [List.count_cons_self] at hj
        refine ⟨hpos.mpr (Nat.lt_of_lt_of_le (Nat.succ_pos _) hj), fun i => ?_⟩
        by_cases hij : j = i
        · subst hij
          rw [Function.update_self, hf _ (Nat.lt_of_lt_of_le (Nat.succ_pos _) hj)]
          exact Nat.le_sub_of_add_le hj
        · rw [Function.update_of_ne (Ne.symm hij), ← List.count_cons_of_ne hij]
          exact hle i

end Above

section Tally

variable {α ι : Type*} [DecidableEq ι] {indices : α → List ι} {a : α} {s : Multiset α}

/-- How often the visitors in `s` visit index `i`. -/
def tally (indices : α → List ι) (s : Multiset α) (i : ι) : ℕ :=
  (s.map fun a => (indices a).count i).sum

@[simp] theorem tally_zero (i : ι) : tally indices 0 i = 0 := rfl

theorem tally_cons (a : α) (s : Multiset α) (i : ι) :
    tally indices (a ::ₘ s) i = (indices a).count i + tally indices s i := by
  unfold tally
  rw [Multiset.map_cons, Multiset.sum_cons]

theorem tally_erase [DecidableEq α] (h : a ∈ s) (i : ι) :
    tally indices s i = (indices a).count i + tally indices (s.erase a) i := by
  rw [← tally_cons, Multiset.cons_erase h]

theorem count_le_tally (h : a ∈ s) (i : ι) : (indices a).count i ≤ tally indices s i := by
  obtain ⟨t, rfl⟩ := Multiset.exists_cons_of_mem h
  rw [tally_cons]
  exact Nat.le_add_right _ _

theorem tally_congr {indices' : α → List ι} (h : ∀ a, indices' a = indices a) (s : Multiset α)
    (i : ι) : tally indices' s i = tally indices s i := by
  rw [funext h]

end Tally

end CleancacheRdma.Lib
