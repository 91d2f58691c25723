import Mathlib.Data.List.Perm.Basic
import Mathlib.Logic.Function.Basic

/-!
# Tokens and the marks they leave

A family of tokens, each in a stage of its own. In some stages a token leaves a
mark in a bag, a message on the way or an event that waits, and the bag holds
these marks and nothing else, in any order.
-/

namespace CleancacheRdma.Lib

/-- What the tokens `ι` leave in the stages `α`; a mark names its token. -/
structure Tokens (ι α μ : Type*) where
  mark : ι → α → Option μ
  owner : μ → ι
  owner_mark : ∀ i a m, mark i a = some m → owner m = i

namespace Tokens

variable {ι α μ : Type*} [DecidableEq μ] {T : Tokens ι α μ} {stage : ι → α}
  {bag bag' : List μ} {i : ι} {a : α} {m : μ}

/-- Every mark is in the bag as often as its token leaves it, which is at most once. -/
def Holds (T : Tokens ι α μ) (stage : ι → α) (bag : List μ) : Prop :=
  ∀ m, bag.count m = (T.mark (T.owner m) (stage (T.owner m))).toList.count m

theorem Holds.mem_iff (h : T.Holds stage bag) :
    m ∈ bag ↔ T.mark (T.owner m) (stage (T.owner m)) = some m := by
  rw [← List.count_pos_iff, h m, List.count_pos_iff, Option.mem_toList]

theorem Holds.of_mem (h : T.Holds stage bag) (hm : T.mark i (stage i) = some m) : m ∈ bag := by
  rw [h.mem_iff, T.owner_mark i _ m hm]
  exact hm

theorem holds_nil (hnone : ∀ i, T.mark i (stage i) = none) : T.Holds stage [] := by
  intro m
  rw [hnone]
  rfl

variable [DecidableEq ι]

/-- The mark of one token goes and its next one comes. -/
theorem Holds.update (h : T.Holds stage bag)
    (hbag : (bag' ++ (T.mark i (stage i)).toList).Perm (bag ++ (T.mark i a).toList)) :
    T.Holds (Function.update stage i a) bag' := by
  intro m
  have hcount := hbag.count_eq m
  rw [List.count_append, List.count_append, h m] at hcount
  by_cases hi : T.owner m = i
  · subst hi
    rw [Function.update_self]
    omega
  · have hforeign : ∀ b, (T.mark i b).toList.count m = 0 := by
      intro b
      rw [List.count_eq_zero, Option.mem_toList]
      exact fun hb => hi (T.owner_mark i b m hb)
    rw [hforeign, hforeign] at hcount
    rw [Function.update_of_ne hi]
    exact hcount

theorem Holds.same (h : T.Holds stage bag) (hmark : T.mark i a = T.mark i (stage i)) :
    T.Holds (Function.update stage i a) bag :=
  h.update (by rw [hmark])

theorem Holds.put (h : T.Holds stage bag) (hold : T.mark i (stage i) = none)
    (hnew : T.mark i a = some m) : T.Holds (Function.update stage i a) (bag ++ [m]) :=
  h.update (by rw [hold, hnew, Option.toList_none, List.append_nil, Option.toList_some])

/-- A mark that is taken out of the bag, with one put in its place if there is one. -/
theorem Holds.take (h : T.Holds stage bag) (hbag : bag.Perm (m :: bag'))
    (hold : T.mark i (stage i) = some m) :
    T.Holds (Function.update stage i a) (bag' ++ (T.mark i a).toList) := by
  refine h.update ?_
  rw [hold, List.append_assoc, Option.toList_some]
  refine (List.perm_append_comm.append_left bag').trans ?_
  rw [← List.append_assoc]
  refine List.Perm.append_right _ ?_
  exact (List.perm_append_singleton m bag').trans hbag.symm

end Tokens

end CleancacheRdma.Lib
