import Mathlib.Data.Int.Notation
import Mathlib.Data.List.Count
import Mathlib.Tactic.Common

/-!
# Calls that can fail, and what they do with resources

A call logs what it acquires, releases and uses, and ends with a return value, or
without one if it never comes back. The combinators are the shapes in which C code
goes on after a call: only if it went well, with clean-up if it failed, with the
same clean-up either way.
-/

namespace CleancacheRdma.Lib

/-- What is done with a resource. -/
inductive Act (ρ : Type) where
  | acquire (r : ρ)
  | release (r : ρ)
  | use (r : ρ)
deriving DecidableEq

/-- A call: its return value, `0` if it went well, `none` if it does not return,
and everything it did on the way. -/
structure Attempt (ρ : Type) where
  ret : Option ℤ
  log : List (Act ρ)

/-- Whatever the log acquires it releases exactly once, and it releases nothing
before acquiring it. -/
structure ReleasedOnce {ρ : Type} [DecidableEq ρ] (log : List (Act ρ)) : Prop where
  once : ∀ r, .acquire r ∈ log → log.count (.release r) = 1
  acquired : ∀ pre post r, log = pre ++ .release r :: post → .acquire r ∈ pre

/-- The resource is not used after it was released. -/
def NeverStale {ρ : Type} (r : ρ) (log : List (Act ρ)) : Prop :=
  ∀ pre post, log = pre ++ .use r :: post → .release r ∉ pre

theorem ReleasedOnce.count_le {ρ : Type} [DecidableEq ρ] {log : List (Act ρ)}
    (h : ReleasedOnce log) (r : ρ) : log.count (.release r) ≤ 1 := by
  by_cases hr : .release r ∈ log
  · obtain ⟨pre, post, hlog⟩ := List.append_of_mem hr
    have hacq : .acquire r ∈ log := by
      rw [hlog]
      exact List.mem_append_left _ (h.acquired pre post r hlog)
    exact Nat.le_of_eq (h.once r hacq)
  · rw [List.count_eq_zero_of_not_mem hr]
    exact Nat.zero_le 1

theorem ReleasedOnce.release_mem {ρ : Type} [DecidableEq ρ] {log : List (Act ρ)}
    (h : ReleasedOnce log) {r : ρ} (hr : .acquire r ∈ log) : .release r ∈ log :=
  List.count_pos_iff.mp (by rw [h.once r hr]; exact Nat.one_pos)

theorem ReleasedOnce.nil {ρ : Type} [DecidableEq ρ] : ReleasedOnce ([] : List (Act ρ)) :=
  ⟨fun r hr => absurd hr List.not_mem_nil, fun pre post r h => by simp at h⟩

/-- Acquired before everything else and released after it. -/
theorem ReleasedOnce.around {ρ : Type} [DecidableEq ρ] {log : List (Act ρ)}
    (h : ReleasedOnce log) {r : ρ} (hr : .acquire r ∉ log) :
    ReleasedOnce (.acquire r :: (log ++ [.release r])) := by
  have hrel : .release r ∉ log := by
    intro hmem
    obtain ⟨pre, post, hlog⟩ := List.append_of_mem hmem
    apply hr
    rw [hlog]
    exact List.mem_append_left _ (h.acquired pre post r hlog)
  constructor
  · intro r' hacq
    by_cases heq : r' = r
    · rw [heq]
      simp [List.count_append, List.count_eq_zero_of_not_mem hrel]
    · have hmem : .acquire r' ∈ log := by simpa [heq] using hacq
      simp [List.count_append, h.once r' hmem, Ne.symm heq]
  · intro pre post r' hlog
    cases pre with
    | nil => simp at hlog
    | cons a pre =>
        rw [List.cons_append] at hlog
        obtain ⟨ha, hrest⟩ := List.cons.inj hlog
        rcases List.eq_nil_or_concat post with rfl | ⟨post, b, rfl⟩
        · have hlast := List.append_inj_right' hrest rfl
          cases hlast
          exact List.mem_cons.mpr (.inl ha)
        · have hsplit : log ++ [.release r] = (pre ++ .release r' :: post) ++ [b] := by
            rw [hrest, List.concat_eq_append, List.append_assoc, List.cons_append]
          have hmem := h.acquired pre post r' (List.append_inj_left' hsplit rfl)
          exact List.mem_cons_of_mem _ hmem

theorem NeverStale.of_not_mem {ρ : Type} {r : ρ} {log : List (Act ρ)}
    (h : .release r ∉ log) : NeverStale r log := by
  rintro pre post rfl hmem
  exact h (List.mem_append_left _ hmem)

namespace Attempt

variable {ρ : Type}

/-- A call that only does `acts`. -/
def did (acts : List (Act ρ)) : Attempt ρ := ⟨some 0, acts⟩

/-- A call that leaves no trace but its return value if that is an error. -/
def step (ret : ℤ) (acts : List (Act ρ)) : Attempt ρ := ⟨some ret, if ret = 0 then acts else []⟩

/-- A call that does not return. -/
def stuck (acts : List (Act ρ)) : Attempt ρ := ⟨none, acts⟩

/-- `d` if `c` went well. -/
def andThen (c d : Attempt ρ) : Attempt ρ := if c.ret = some 0 then ⟨d.ret, c.log ++ d.log⟩ else c

/-- A call that fails with `err` whenever it fails. -/
def withError (c : Attempt ρ) (err : ℤ) : Attempt ρ :=
  ⟨c.ret.map fun ret => if ret = 0 then 0 else err, c.log⟩

/-- Clean-up after a failure. -/
def orUndo (c : Attempt ρ) (acts : List (Act ρ)) : Attempt ρ :=
  match c.ret with
  | none | some 0 => c
  | some ret => ⟨some ret, c.log ++ acts⟩

/-- Clean-up on both ways out. -/
def andAlways (c : Attempt ρ) (acts : List (Act ρ)) : Attempt ρ :=
  match c.ret with
  | none => c
  | some ret => ⟨some ret, c.log ++ acts⟩

/-- One call after the other, as long as they go well. -/
def inOrder (cs : List (Attempt ρ)) : Attempt ρ := cs.foldr andThen (did [])

/-! ## When a call goes well -/

variable {c d : Attempt ρ} {acts : List (Act ρ)} {err ret : ℤ}

@[simp] theorem did_ok : (did acts).ret = some 0 := rfl

@[simp] theorem step_ok : (step ret acts).ret = some 0 ↔ ret = 0 := by simp [step]

@[simp] theorem stuck_ret : (stuck acts).ret = none := rfl

@[simp] theorem andThen_ok : (c.andThen d).ret = some 0 ↔ c.ret = some 0 ∧ d.ret = some 0 := by
  unfold andThen
  split <;> simp_all

theorem withError_ok (herr : err ≠ 0) : (c.withError err).ret = some 0 ↔ c.ret = some 0 := by
  rw [withError, Option.map_eq_some_iff]
  constructor
  · rintro ⟨ret, hret, h⟩
    by_cases hzero : ret = 0
    · rwa [hzero] at hret
    · rw [if_neg hzero] at h
      exact absurd h herr
  · intro h
    exact ⟨0, h, if_pos rfl⟩

@[simp] theorem orUndo_ret : (c.orUndo acts).ret = c.ret := by
  unfold orUndo
  split <;> simp_all

@[simp] theorem andAlways_ret : (c.andAlways acts).ret = c.ret := by
  unfold andAlways
  split <;> simp_all

theorem inOrder_ok {cs : List (Attempt ρ)} :
    (inOrder cs).ret = some 0 ↔ ∀ c ∈ cs, c.ret = some 0 := by
  induction cs with
  | nil => simp [inOrder]
  | cons c cs ih => rw [inOrder, List.foldr_cons, andThen_ok, List.forall_mem_cons, ← ih, inOrder]

/-! ## What a call does -/

theorem andThen_of_ok (h : c.ret = some 0) : c.andThen d = ⟨d.ret, c.log ++ d.log⟩ := if_pos h

theorem andThen_of_not_ok (h : c.ret ≠ some 0) : c.andThen d = c := if_neg h

theorem orUndo_of_ok (h : c.ret = some 0) : c.orUndo acts = c := by
  unfold orUndo
  split <;> simp_all

/-- The clean-up is part of the log of a call that came back with an error. -/
theorem orUndo_log (h : c.ret ≠ some 0) (hret : c.ret ≠ none) :
    (c.orUndo acts).log = c.log ++ acts := by
  unfold orUndo
  split <;> simp_all

/-- Everything the call did meets `p`. -/
def Every (p : Act ρ → Prop) (c : Attempt ρ) : Prop := ∀ a ∈ c.log, p a

variable {p : Act ρ → Prop}

theorem Every.mono {p' : Act ρ → Prop} (hc : c.Every p) (h : ∀ a, p a → p' a) : c.Every p' :=
  fun a ha => h a (hc a ha)

theorem Every.did (h : ∀ a ∈ acts, p a) : (did acts).Every p := h

theorem Every.stuck (h : ∀ a ∈ acts, p a) : (stuck acts).Every p := h

theorem Every.step (h : ∀ a ∈ acts, p a) : (step ret acts).Every p := by
  intro a ha
  simp only [Attempt.step] at ha
  split at ha
  · exact h a ha
  · cases ha

theorem Every.andThen (hc : c.Every p) (hd : d.Every p) : (c.andThen d).Every p := by
  unfold Attempt.andThen
  split
  · exact List.forall_mem_append.mpr ⟨hc, hd⟩
  · exact hc

theorem Every.withError (hc : c.Every p) : (c.withError err).Every p := hc

theorem Every.orUndo (hc : c.Every p) (h : ∀ a ∈ acts, p a) : (c.orUndo acts).Every p := by
  unfold Attempt.orUndo
  split
  · exact hc
  · exact hc
  · exact List.forall_mem_append.mpr ⟨hc, h⟩

theorem Every.andAlways (hc : c.Every p) (h : ∀ a ∈ acts, p a) : (c.andAlways acts).Every p := by
  unfold Attempt.andAlways
  split
  · exact hc
  · exact List.forall_mem_append.mpr ⟨hc, h⟩

theorem Every.inOrder {cs : List (Attempt ρ)} (h : ∀ c ∈ cs, c.Every p) : (inOrder cs).Every p := by
  induction cs with
  | nil => exact List.forall_mem_nil p
  | cons c cs ih =>
      have hcs := List.forall_mem_cons.mp h
      exact hcs.1.andThen (ih hcs.2)

end Attempt

end CleancacheRdma.Lib
