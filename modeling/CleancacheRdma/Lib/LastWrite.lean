import Mathlib.Data.List.Induction
import Mathlib.Logic.Function.Basic

/-!
# The last write of each key

A sequence of writes, each with a key and a value, leaves behind the value of
the last write of every key.
-/

namespace CleancacheRdma.Lib

variable {α κ β : Type*} [DecidableEq κ] (key : α → κ) (value : α → β)

/-- What a sequence of writes leaves behind. -/
def lastWrite (l : List α) : κ → Option β :=
  l.foldl (fun m a => Function.update m (key a) (some (value a))) fun _ => none

@[simp] theorem lastWrite_nil : lastWrite key value [] = fun _ => none := rfl

theorem lastWrite_snoc (l : List α) (a : α) :
    lastWrite key value (l ++ [a]) =
      Function.update (lastWrite key value l) (key a) (some (value a)) := by
  simp [lastWrite]

variable {key value}

/-- A key that has a last write was written. -/
theorem exists_of_lastWrite {l : List α} {k : κ} {v : β}
    (h : lastWrite key value l k = some v) : ∃ a ∈ l, key a = k ∧ value a = v := by
  induction l using List.reverseRecOn with
  | nil => cases h
  | append_singleton l a ih =>
      rw [lastWrite_snoc] at h
      by_cases hk : k = key a
      · subst hk
        rw [Function.update_self] at h
        exact ⟨a, by simp, rfl, Option.some.inj h⟩
      · rw [Function.update_of_ne hk] at h
        obtain ⟨b, hb, hkey, hval⟩ := ih h
        exact ⟨b, List.mem_append_left _ hb, hkey, hval⟩

end CleancacheRdma.Lib
