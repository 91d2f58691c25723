import Mathlib.Tactic.Common

/-!
# Bounded loops with early exit

A loop body either leaves the loop with a result (`out`) or hands the next
loop state on (`next`). `run` repeats a body a bounded number of times; the
bound is a structural argument, so a run computes. The rules below are total:
under a decreasing measure the bound is never what stops the loop.

A `goto` out of two nested loops is a body whose result is itself a control
value: `out (out a)` leaves both loops, `out (next s)` breaks the inner one.
-/

namespace CleancacheRdma.Lib

/-- What one pass over a loop body decides. -/
inductive Ctl (α σ : Type*) where
  | out (a : α)
  | next (s : σ)
deriving DecidableEq

namespace Ctl

variable {α β σ : Type*}

def map (f : α → β) : Ctl α σ → Ctl β σ
  | .out a => .out (f a)
  | .next s => .next s

end Ctl

namespace Loop

variable {α σ : Type*}

/-- At most `n` passes over `body`, starting from `s`. -/
def run (body : σ → Ctl α σ) : ℕ → σ → Ctl α σ
  | 0, s => .next s
  | n + 1, s =>
      match body s with
      | .out a => .out a
      | .next s' => run body n s'

/-- What a pass from `s` owes to the invariant `I`, the measure `μ` and the
results `Q`: a result in `Q`, or a smaller state with `I`. -/
def Owes (I : σ → Prop) (μ : σ → ℕ) (Q : α → Prop) (s : σ) : Ctl α σ → Prop
  | .out a => Q a
  | .next s' => I s' ∧ μ s' < μ s

/-- What a pass over the inner of two nested loops owes, where `J` holds inside
the inner loop and `I` between its runs. -/
def InnerOwes (I J : σ → Prop) (μ : σ → ℕ) (Q : α → Prop) (s : σ) :
    Ctl (Ctl α σ) σ → Prop
  | .out (.out a) => Q a
  | .out (.next s') => I s' ∧ μ s' < μ s
  | .next s' => J s' ∧ μ s' < μ s

/-- Total correctness: with more passes than the measure, a body that keeps
the invariant leaves the loop, and its result is in `Q`. -/
theorem run_total {body : σ → Ctl α σ} {I : σ → Prop} {μ : σ → ℕ} {Q : α → Prop}
    (hbody : ∀ s, I s → Owes I μ Q s (body s)) : ∀ (n : ℕ) (s : σ), I s → μ s < n →
      ∃ a, run body n s = .out a ∧ Q a := by
  intro n
  induction n with
  | zero => intro s _ hμ; exact absurd hμ (Nat.not_lt_zero _)
  | succ n ih =>
      intro s hI hμ
      have hs := hbody s hI
      rw [run]
      cases hb : body s with
      | out a =>
          rw [hb] at hs
          exact ⟨a, rfl, hs⟩
      | next s' =>
          rw [hb] at hs
          exact ih s' hs.1 (Nat.lt_of_lt_of_le hs.2 (Nat.le_of_lt_succ hμ))

/-- The result a loop leaves with, where the bound is known to suffice. -/
def result (body : σ → Ctl α σ) (stuck : σ → α) (n : ℕ) (s : σ) : α :=
  match run body n s with
  | .out a => a
  | .next s' => stuck s'

theorem result_of_run {body : σ → Ctl α σ} {stuck : σ → α} {n : ℕ} {s : σ}
    {a : α} (h : run body n s = .out a) : result body stuck n s = a := by
  rw [result, h]

theorem result_total {body : σ → Ctl α σ} {I : σ → Prop} {μ : σ → ℕ}
    {Q : α → Prop} (hbody : ∀ s, I s → Owes I μ Q s (body s)) {stuck : σ → α} {n : ℕ} {s : σ}
    (hI : I s) (hμ : μ s < n) : Q (result body stuck n s) := by
  obtain ⟨a, ha, hQ⟩ := run_total hbody n s hI hμ
  rw [result_of_run ha]
  exact hQ

/-- Partial correctness: what every pass may leave with is what the loop leaves
with, be the bound as it may. -/
theorem result_partial {body : σ → Ctl α σ} {stuck : σ → α} {Q : α → Prop}
    (hbody : ∀ s a, body s = .out a → Q a) (hstuck : ∀ s, Q (stuck s)) :
    ∀ (n : ℕ) (s : σ), Q (result body stuck n s) := by
  intro n
  induction n with
  | zero => exact hstuck
  | succ n ih =>
      intro s
      unfold result
      rw [run]
      cases hb : body s with
      | out a => exact hbody s a hb
      | next s' => exact ih s'

/-- Nested loops: an inner loop whose passes pay what they owe is, as a whole,
one pass of the outer loop that does. -/
theorem inner_total {p : σ → Ctl (Ctl α σ) σ} {I J : σ → Prop} {μ : σ → ℕ}
    {Q : α → Prop} (hp : ∀ s, J s → InnerOwes I J μ Q s (p s))
    {n : ℕ} {s : σ} (hJ : J s) (hμ : μ s < n) :
    Owes I μ Q s (result p .next n s) := by
  refine result_total (I := fun s' => J s' ∧ μ s' ≤ μ s) (μ := μ)
    (Q := Owes I μ Q s) ?_ ⟨hJ, Nat.le_refl _⟩ hμ
  rintro s₁ ⟨hJ₁, hle⟩
  have h := hp s₁ hJ₁
  cases hc : p s₁ with
  | out c =>
      rw [hc] at h
      cases c with
      | out a => exact h
      | next s₂ => exact ⟨h.1, Nat.lt_of_lt_of_le h.2 hle⟩
  | next s₂ =>
      rw [hc] at h
      exact ⟨⟨h.1, Nat.le_of_lt (Nat.lt_of_lt_of_le h.2 hle)⟩, h.2⟩

/-! ## The passes of a loop -/

/-- The states in which the passes begin. -/
def heads (body : σ → Ctl α σ) : ℕ → σ → List σ
  | 0, _ => []
  | n + 1, s =>
      s :: match body s with
        | .out _ => []
        | .next s' => heads body n s'

/-- What a pass from `s` owes to the invariant `I`, a counter `c` and results
`Q` that depend on where the counter has come to. -/
def Counts (I : σ → Prop) (c : σ → ℕ) (Q : ℕ → α → Prop) (s : σ) : Ctl α σ → Prop
  | .out a => Q (c s + 1) a
  | .next s' => I s' ∧ c s' = c s + 1

/-- If every pass counts, the passes are numbered by the counter. -/
theorem heads_counts {body : σ → Ctl α σ} {I : σ → Prop} {c : σ → ℕ} {Q : ℕ → α → Prop}
    (hbody : ∀ s, I s → Counts I c Q s (body s)) : ∀ (n : ℕ) (s : σ), I s →
      (heads body n s).map c = List.range' (c s) (heads body n s).length ∧
      ∀ s' ∈ heads body n s, I s' := by
  intro n
  induction n with
  | zero =>
      intro s _
      exact ⟨rfl, fun s' hs' => absurd hs' List.not_mem_nil⟩
  | succ n ih =>
      intro s hI
      have hs := hbody s hI
      rw [heads]
      cases hb : body s with
      | out a =>
          refine ⟨rfl, fun s' hs' => ?_⟩
          rw [List.mem_singleton.mp hs']
          exact hI
      | next s₁ =>
          rw [hb] at hs
          obtain ⟨hI₁, hc⟩ := hs
          obtain ⟨hmap, hall⟩ := ih s₁ hI₁
          refine ⟨?_, fun s' hs' => ?_⟩
          · rw [List.map_cons, hmap, hc, List.length_cons, List.range'_succ]
          · rcases List.mem_cons.mp hs' with rfl | hmem
            · exact hI
            · exact hall s' hmem

/-- And the loop leaves where the counter has come to, if that is bounded. -/
theorem result_counts {body : σ → Ctl α σ} {I : σ → Prop} {c : σ → ℕ} {Q : ℕ → α → Prop}
    (hbody : ∀ s, I s → Counts I c Q s (body s)) {stuck : σ → α} : ∀ (n : ℕ) (s : σ), I s →
      (∀ s', I s' → c s' < c s + n) →
      Q (c s + (heads body n s).length) (result body stuck n s) := by
  intro n
  induction n with
  | zero =>
      intro s hI hbound
      exact absurd (hbound s hI) (Nat.lt_irrefl _)
  | succ n ih =>
      intro s hI hbound
      have hs := hbody s hI
      unfold result
      rw [heads, run]
      cases hb : body s with
      | out a =>
          rw [hb] at hs
          exact hs
      | next s₁ =>
          rw [hb] at hs
          obtain ⟨hI₁, hc⟩ := hs
          have hlen : c s + (s :: heads body n s₁).length = c s₁ + (heads body n s₁).length := by
            rw [hc, List.length_cons, Nat.add_right_comm, Nat.add_assoc]
          have hrest := ih s₁ hI₁ fun s' hs' => by
            rw [hc, Nat.add_right_comm]
            exact hbound s' hs'
          rw [← hlen] at hrest
          exact hrest

/-- Two bodies that differ by `f` in their results, as far as one of them runs. -/
theorem run_map {β : Type*} {body : σ → Ctl α σ} {body' : σ → Ctl β σ} {f : α → β} :
    ∀ (n : ℕ) (s : σ), (∀ s' ∈ heads body n s, body' s' = (body s').map f) →
      run body' n s = (run body n s).map f := by
  intro n
  induction n with
  | zero => intro s _; rfl
  | succ n ih =>
      intro s hbody
      have hs := hbody s List.mem_cons_self
      rw [heads] at hbody
      rw [run, run, hs]
      cases hb : body s with
      | out a => rfl
      | next s₁ =>
          rw [hb] at hbody
          exact ih s₁ fun s' hs' => hbody s' (List.mem_cons_of_mem s hs')

/-! ## Bodies that change from pass to pass -/

/-- The loop whose `k`-th pass has the body `body k`. -/
def staged (body : ℕ → σ → Ctl α σ) : ℕ × σ → Ctl α (ℕ × σ)
  | (k, s) =>
      match body k s with
      | .out a => .out a
      | .next s' => .next (k + 1, s')

theorem result_staged {body : σ → Ctl α σ} {stuck : σ → α} : ∀ (n k : ℕ) (s : σ),
    result (staged fun _ => body) (fun s => stuck s.2) n (k, s) = result body stuck n s := by
  intro n
  induction n with
  | zero => intro k s; rfl
  | succ n ih =>
      intro k s
      simp only [result] at ih ⊢
      rw [run, run, staged]
      cases body s with
      | out a => rfl
      | next s' => exact ih (k + 1) s'

end Loop

end CleancacheRdma.Lib
