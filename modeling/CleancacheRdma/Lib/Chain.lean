import Mathlib.Data.List.Nodup
import Mathlib.Logic.Function.Basic

/-!
# Linked lists in a memory of nodes

`next` gives the successor of a node; the nodes from a pointer on are a list.
A chain that ends has no cycle, and writing the successor of a node outside it
leaves it alone.
-/

namespace CleancacheRdma.Lib

variable {α : Type*} {next : α → Option α}

/-- The nodes from a pointer on, up to the null pointer. -/
inductive Chain (next : α → Option α) : Option α → List α → Prop where
  | nil : Chain next none []
  | cons {x : α} {l : List α} : Chain next (next x) l → Chain next (some x) (x :: l)

namespace Chain

theorem unique {o : Option α} {l l' : List α} (h : Chain next o l) (h' : Chain next o l') :
    l = l' := by
  induction h generalizing l' with
  | nil =>
      cases h'
      rfl
  | cons _ ih =>
      cases h' with
      | cons h' => rw [ih h']

/-- The chain from a node of a chain is the rest of it. -/
theorem of_mem {o : Option α} {l : List α} (h : Chain next o l) {x : α} (hx : x ∈ l) :
    ∃ pre rest, l = pre ++ rest ∧ Chain next (some x) rest := by
  induction h with
  | nil => cases hx
  | @cons y l hl ih =>
      rcases List.mem_cons.mp hx with rfl | hx
      · exact ⟨[], x :: l, rfl, .cons hl⟩
      · obtain ⟨pre, rest, rfl, hrest⟩ := ih hx
        exact ⟨y :: pre, rest, rfl, hrest⟩

theorem nodup {o : Option α} {l : List α} (h : Chain next o l) : l.Nodup := by
  induction h with
  | nil => exact List.nodup_nil
  | @cons y l hl ih =>
      refine List.nodup_cons.mpr ⟨fun hy => ?_, ih⟩
      -- a cycle would make the rest of the chain as long as the chain
      obtain ⟨pre, rest, rfl, hrest⟩ := hl.of_mem hy
      have heq := congrArg List.length (hrest.unique (.cons hl))
      rw [List.length_cons, List.length_append] at heq
      omega

theorem update [DecidableEq α] {o : Option α} {l : List α} (h : Chain next o l) {x : α}
    (hx : x ∉ l) (y : Option α) : Chain (Function.update next x y) o l := by
  induction h with
  | nil => exact .nil
  | @cons z l hl ih =>
      obtain ⟨hne, hmem⟩ := not_or.mp (mt List.mem_cons.mpr hx)
      refine .cons ?_
      rw [Function.update_of_ne (Ne.symm hne)]
      exact ih hmem

theorem head {x : α} {l : List α} (h : Chain next (some x) l) :
    ∃ t, l = x :: t ∧ Chain next (next x) t := by
  cases h with
  | cons ht => exact ⟨_, rfl, ht⟩

end Chain

end CleancacheRdma.Lib
