import Mathlib.Tactic.Common
import Mathlib.Data.List.Induction

/-!
# What happened and was not undone

In a history, the oldest entry first, something happened since which something
else did not: the past operator of temporal logic, with its rule for one more
entry.
-/

namespace CleancacheRdma.Lib

variable {α : Type*} {p p' q : α → Prop} {l : List α} {x : α}

/-- An entry is in `p` and no later one is in `q`. -/
def Since (p q : α → Prop) (l : List α) : Prop :=
  ∃ pre x post, l = pre ++ x :: post ∧ p x ∧ ∀ y ∈ post, ¬ q y

theorem not_since_nil : ¬ Since p q ([] : List α) := by
  rintro ⟨pre, x, post, heq, -⟩
  exact List.append_ne_nil_of_right_ne_nil pre (List.cons_ne_nil x post) heq.symm

/-- A split of a history with one more entry. -/
theorem snoc_eq_append_cons {pre post : List α} {y : α} (h : l ++ [x] = pre ++ y :: post) :
    (post = [] ∧ y = x ∧ pre = l) ∨ ∃ rest, post = rest ++ [x] ∧ l = pre ++ y :: rest := by
  rcases List.eq_nil_or_concat post with rfl | ⟨rest, z, rfl⟩
  · obtain ⟨hl, hx⟩ := List.append_inj' h rfl
    exact Or.inl ⟨rfl, (List.cons.inj hx).1.symm, hl.symm⟩
  · have hsplit : l ++ [x] = (pre ++ y :: rest) ++ [z] := by
      rw [h, List.concat_eq_append, List.append_assoc, List.cons_append]
    obtain ⟨hl, hx⟩ := List.append_inj' hsplit rfl
    exact Or.inr ⟨rest, by rw [(List.cons.inj hx).1, List.concat_eq_append], hl⟩

theorem since_snoc : Since p q (l ++ [x]) ↔ p x ∨ Since p q l ∧ ¬ q x := by
  constructor
  · rintro ⟨pre, y, post, heq, hy, hpost⟩
    rcases snoc_eq_append_cons heq with ⟨-, rfl, -⟩ | ⟨rest, rfl, hl⟩
    · exact Or.inl hy
    · refine Or.inr ⟨⟨pre, y, rest, hl, hy, fun z hz => hpost z (List.mem_append_left _ hz)⟩, ?_⟩
      exact hpost x (List.mem_append_right _ List.mem_cons_self)
  · rintro (hx | ⟨⟨pre, y, post, rfl, hy, hpost⟩, hx⟩)
    · exact ⟨l, x, [], rfl, hx, fun z hz => absurd hz List.not_mem_nil⟩
    · refine ⟨pre, y, post ++ [x], by simp, hy, fun z hz => ?_⟩
      rcases List.mem_append.mp hz with hz | hz
      · exact hpost z hz
      · rw [List.mem_singleton.mp hz]
        exact hx

theorem Since.mono (h : Since p q l) (himp : ∀ x ∈ l, p x → p' x) : Since p' q l := by
  obtain ⟨pre, x, post, rfl, hx, hpost⟩ := h
  exact ⟨pre, x, post, rfl, himp x (List.mem_append_right _ List.mem_cons_self) hx, hpost⟩

/-- Nothing is undone by a stretch without `q`. -/
theorem Since.append (h : Since p q l) {m : List α} (hm : ∀ y ∈ m, ¬ q y) :
    Since p q (l ++ m) := by
  obtain ⟨pre, x, post, rfl, hx, hpost⟩ := h
  refine ⟨pre, x, post ++ m, by simp, hx, fun y hy => ?_⟩
  rcases List.mem_append.mp hy with hy | hy
  · exact hpost y hy
  · exact hm y hy

end CleancacheRdma.Lib
