import Mathlib.Tactic.Common
import Mathlib.Data.List.Induction

/-!
# Transition systems

A step is a partial function of the state and a label; the label carries every
choice the environment makes, so a run is replayed by evaluation and a concrete
trace can be checked by `decide`. The rules below carry an invariant, possibly
one that speaks about the labels taken so far, through every run, or through
every run whose steps all meet a condition.
-/

namespace CleancacheRdma.Lib

/-- A transition system: initial states and a guarded step function. -/
structure System (σ α : Type*) where
  init : σ → Prop
  step : σ → α → Option σ

namespace System

variable {σ α : Type*} (S : System σ α)

/-- Replay of a run; `none` if one of its steps is not enabled. -/
def exec : σ → List α → Option σ
  | s, [] => some s
  | s, a :: as => (S.step s a).bind fun s' => exec s' as

/-- Every step of the run meets `P` in the state it is taken in. -/
def Meets (P : σ → α → Prop) : σ → List α → Prop
  | _, [] => True
  | s, a :: as => P s a ∧ ∀ s', S.step s a = some s' → Meets P s' as

instance Meets.decidable {P : σ → α → Prop} [∀ s a, Decidable (P s a)] :
    ∀ (s : σ) (as : List α), Decidable (S.Meets P s as)
  | _, [] => isTrue trivial
  | s, a :: as =>
      have : Decidable (∀ s', S.step s a = some s' → S.Meets P s' as) :=
        match h : S.step s a with
        | none => isTrue (fun _ hs => by simp at hs)
        | some s₁ =>
            match Meets.decidable s₁ as with
            | isTrue hm => isTrue (fun s' hs => by cases hs; exact hm)
            | isFalse hm => isFalse (fun hall => hm (hall s₁ rfl))
      inferInstanceAs (Decidable (_ ∧ _))

/-- `I` holds in every state the run passes through. -/
def Always (I : σ → Prop) (s : σ) (as : List α) : Prop :=
  ∀ pre, pre <+: as → ∀ t, S.exec s pre = some t → I t

/-- The states that runs from an initial state end in. -/
def Reachable (s : σ) : Prop :=
  ∃ s₀ as, S.init s₀ ∧ S.exec s₀ as = some s

variable {S}

@[simp] theorem exec_nil (s : σ) : S.exec s [] = some s := rfl

theorem exec_cons_some {s s' : σ} {a : α} {as : List α} :
    S.exec s (a :: as) = some s' ↔
      ∃ m, S.step s a = some m ∧ S.exec m as = some s' := by
  rw [exec, Option.bind_eq_some_iff]

theorem exec_append_some {s s' : σ} {as bs : List α} :
    S.exec s (as ++ bs) = some s' ↔
      ∃ m, S.exec s as = some m ∧ S.exec m bs = some s' := by
  induction as generalizing s with
  | nil => simp
  | cons a as ih =>
      rw [List.cons_append, exec_cons_some]
      constructor
      · rintro ⟨m, hm, hrest⟩
        obtain ⟨m', has, hbs⟩ := ih.mp hrest
        exact ⟨m', exec_cons_some.mpr ⟨m, hm, has⟩, hbs⟩
      · rintro ⟨m', has, hbs⟩
        obtain ⟨m, hm, has'⟩ := exec_cons_some.mp has
        exact ⟨m, hm, ih.mpr ⟨m', has', hbs⟩⟩

theorem exec_snoc_some {s s' : σ} {as : List α} {a : α} :
    S.exec s (as ++ [a]) = some s' ↔
      ∃ m, S.exec s as = some m ∧ S.step m a = some s' := by
  rw [exec_append_some]
  simp [exec_cons_some]

theorem Meets.append {P : σ → α → Prop} {s m : σ} {as bs : List α}
    (h : S.Meets P s (as ++ bs)) (has : S.exec s as = some m) :
    S.Meets P m bs := by
  induction as generalizing s with
  | nil =>
      cases has
      exact h
  | cons a as ih =>
      obtain ⟨m₁, hstep, hrest⟩ := exec_cons_some.mp has
      exact ih (h.2 m₁ hstep) hrest

theorem meets_append {P : σ → α → Prop} {s m : σ} {as bs : List α} (hs : S.Meets P s as)
    (has : S.exec s as = some m) (hm : S.Meets P m bs) : S.Meets P s (as ++ bs) := by
  induction as generalizing s with
  | nil =>
      cases has
      exact hm
  | cons a as ih =>
      obtain ⟨m₁, hstep, hrest⟩ := exec_cons_some.mp has
      refine ⟨hs.1, fun s' hs' => ?_⟩
      cases hstep.symm.trans hs'
      exact ih (hs.2 m₁ hstep) hrest

theorem Meets.prefix {P : σ → α → Prop} {s : σ} {as bs : List α}
    (h : S.Meets P s (as ++ bs)) : S.Meets P s as := by
  induction as generalizing s with
  | nil => exact trivial
  | cons a as ih => exact ⟨h.1, fun s' hs => ih (h.2 s' hs)⟩

/-- The run of no steps meets every condition. -/
theorem trace_nil {P : σ → α → Prop} (s : σ) : S.Meets P s [] ∧ S.exec s [] = some s :=
  ⟨trivial, rfl⟩

/-- A concrete run, one step in front of the rest. -/
theorem trace_cons {P : σ → α → Prop} {s m s' : σ} {a : α} {as : List α} (hp : P s a)
    (hstep : S.step s a = some m) (hrest : S.Meets P m as ∧ S.exec m as = some s') :
    S.Meets P s (a :: as) ∧ S.exec s (a :: as) = some s' := by
  refine ⟨⟨hp, fun t ht => ?_⟩, exec_cons_some.mpr ⟨m, hstep, hrest.2⟩⟩
  cases hstep.symm.trans ht
  exact hrest.1

/-- A loop: one label again and again, through the states `f 0`, `f 1`, ... -/
theorem trace_replicate {P : σ → α → Prop} {a : α} (n : ℕ) (f : ℕ → σ)
    (hstep : ∀ i < n, P (f i) a ∧ S.step (f i) a = some (f (i + 1))) :
    S.Meets P (f 0) (List.replicate n a) ∧ S.exec (f 0) (List.replicate n a) = some (f n) := by
  induction n generalizing f with
  | zero => exact trace_nil (f 0)
  | succ n ih =>
      obtain ⟨hp, hfirst⟩ := hstep 0 (Nat.succ_pos n)
      exact trace_cons hp hfirst
        (ih (fun i => f (i + 1)) fun i hi => hstep (i + 1) (Nat.succ_lt_succ hi))

/-- The same for a run without a condition. -/
theorem exec_replicate {f : ℕ → σ} {a : α} (n : ℕ)
    (hstep : ∀ i < n, S.step (f i) a = some (f (i + 1))) :
    S.exec (f 0) (List.replicate n a) = some (f n) :=
  (trace_replicate (P := fun _ _ => True) n f fun i hi => ⟨trivial, hstep i hi⟩).2

/-- Two concrete runs, one after the other. -/
theorem trace_append {P : σ → α → Prop} {s m s' : σ} {as bs : List α}
    (h : S.Meets P s as ∧ S.exec s as = some m) (h' : S.Meets P m bs ∧ S.exec m bs = some s') :
    S.Meets P s (as ++ bs) ∧ S.exec s (as ++ bs) = some s' :=
  ⟨meets_append h.1 h.2 h'.1, exec_append_some.mpr ⟨m, h.2, h'.2⟩⟩

/-- A condition known at every state the run passes through. -/
theorem meets_of_prefix {P : σ → α → Prop} {s : σ} {as : List α}
    (h : ∀ pre a s', pre ++ [a] <+: as → S.exec s pre = some s' → P s' a) : S.Meets P s as := by
  induction as generalizing s with
  | nil => exact trivial
  | cons a as ih =>
      refine ⟨h [] a s ⟨as, rfl⟩ rfl, fun s' hs => ih fun pre b s'' hpre hexec => ?_⟩
      exact h (a :: pre) b s'' (List.cons_prefix_cons.mpr ⟨rfl, hpre⟩)
        (exec_cons_some.mpr ⟨s', hs, hexec⟩)

theorem meets_and {P Q : σ → α → Prop} {s : σ} {as : List α} (hP : S.Meets P s as)
    (hQ : S.Meets Q s as) : S.Meets (fun s a => P s a ∧ Q s a) s as := by
  induction as generalizing s with
  | nil => exact trivial
  | cons a as ih => exact ⟨⟨hP.1, hQ.1⟩, fun s' hs => ih (hP.2 s' hs) (hQ.2 s' hs)⟩

/-- A condition that follows from another one as long as `J` holds, which the
steps that meet that one keep. -/
theorem Meets.imp {J : σ → Prop} {P Q : σ → α → Prop}
    (hJ : ∀ s a s', J s → Q s a → S.step s a = some s' → J s')
    (hP : ∀ s a, J s → Q s a → P s a) {s : σ} {as : List α} (hj : J s) (h : S.Meets Q s as) :
    S.Meets P s as := by
  induction as generalizing s with
  | nil => exact trivial
  | cons a as ih => exact ⟨hP s a hj h.1, fun s' hs => ih (hJ s a s' hj h.1 hs) (h.2 s' hs)⟩

/-- A condition on the labels alone. -/
theorem meets_of_mem {P : σ → α → Prop} : ∀ (s : σ) (as : List α),
    (∀ a ∈ as, ∀ s, P s a) → S.Meets P s as
  | _, [], _ => trivial
  | s, a :: as, h =>
      ⟨h a List.mem_cons_self s, fun s' _ =>
        meets_of_mem s' as fun b hb => h b (List.mem_cons_of_mem a hb)⟩

/-- The run rule: a relation between the labels taken so far and the state
that holds at the start and is kept by every step meeting `P` holds at the
end of every run whose steps meet `P`. -/
theorem exec_history {P : σ → α → Prop} {I : List α → σ → Prop}
    (hstep : ∀ past s a s', I past s → P s a → S.step s a = some s' →
      I (past ++ [a]) s')
    {s : σ} (hinit : I [] s) : ∀ (as : List α) (s' : σ),
      S.Meets P s as → S.exec s as = some s' → I as s' := by
  intro as
  induction as using List.reverseRecOn with
  | nil =>
      intro s' _ h
      cases h
      exact hinit
  | append_singleton as a ih =>
      intro s' hok h
      obtain ⟨m, has, hm⟩ := exec_snoc_some.mp h
      exact hstep as m a s' (ih m hok.prefix has) (hok.append has).1 hm

/-- The run rule for a plain state invariant. -/
theorem exec_invariant {P : σ → α → Prop} {I : σ → Prop}
    (hstep : ∀ s a s', I s → P s a → S.step s a = some s' → I s')
    {s s' : σ} {as : List α} (hinit : I s) (hok : S.Meets P s as)
    (h : S.exec s as = some s') : I s' :=
  exec_history (I := fun _ => I) (fun _ => hstep) hinit as s' hok h

/-- A history variable: `g` revises what is remembered after every step. -/
def track {γ : Type*} (S : System σ α) (g : γ → σ → γ) : γ → σ → List α → γ
  | x, _, [] => x
  | x, s, a :: as =>
      match S.step s a with
      | none => x
      | some s' => track S g (g x s') s' as

/-- What the steps of a run add up to. -/
def tally (S : System σ α) (f : σ → α → ℕ) : σ → List α → ℕ
  | _, [] => 0
  | s, a :: as => f s a + match S.step s a with
    | none => 0
    | some s' => tally S f s' as

theorem tally_snoc {f : σ → α → ℕ} {s m : σ} {as : List α} (a : α) (h : S.exec s as = some m) :
    S.tally f s (as ++ [a]) = S.tally f s as + f m a := by
  induction as generalizing s with
  | nil =>
      cases h
      rw [List.nil_append, tally, tally, Nat.zero_add]
      split
      · rfl
      · rfl
  | cons b as ih =>
      obtain ⟨m', hstep, hrest⟩ := exec_cons_some.mp h
      rw [List.cons_append, tally, tally, hstep]
      dsimp only
      rw [ih hrest, Nat.add_assoc]

/-- The run rule for an invariant that speaks about a history variable. -/
theorem exec_tracked {γ : Type*} {g : γ → σ → γ} {P : σ → α → Prop} {I : γ → σ → Prop}
    (hstep : ∀ x s a s', I x s → P s a → S.step s a = some s' → I (g x s') s')
    {x : γ} {s s' : σ} {as : List α} (hinit : I x s) (hok : S.Meets P s as)
    (h : S.exec s as = some s') : I (S.track g x s as) s' := by
  induction as generalizing x s with
  | nil =>
      cases h
      exact hinit
  | cons a as ih =>
      obtain ⟨m, hm, hrest⟩ := exec_cons_some.mp h
      rw [track, hm]
      exact ih (hstep x s a m hinit hok.1 hm) (hok.2 m hm) hrest

/-- If a step keeps `I` exactly when it meets `Q`, as long as `J` holds, a run
keeps `I` throughout exactly when each of its steps meets `Q`. -/
theorem always_iff_meets {J I : σ → Prop} {P Q : σ → α → Prop}
    (hJ : ∀ s a s', J s → P s a → S.step s a = some s' → J s')
    (hI : ∀ s a s', J s → I s → P s a → S.step s a = some s' → (I s' ↔ Q s a))
    {s t : σ} {as : List α} (hj : J s) (hi : I s) (hP : S.Meets P s as)
    (hrun : S.exec s as = some t) : S.Always I s as ↔ S.Meets Q s as := by
  induction as generalizing s with
  | nil =>
      refine ⟨fun _ => trivial, fun _ pre hpre m hm => ?_⟩
      cases List.prefix_nil.mp hpre
      cases hm
      exact hi
  | cons a as ih =>
      obtain ⟨m, hstep, hrest⟩ := exec_cons_some.mp hrun
      have hj' := hJ s a m hj hP.1 hstep
      have hiff := hI s a m hj hi hP.1 hstep
      constructor
      · intro hall
        have hi' : I m := hall [a] (List.prefix_append [a] as) m (exec_cons_some.mpr ⟨m, hstep, rfl⟩)
        refine ⟨hiff.mp hi', fun m' hm' => ?_⟩
        cases hstep.symm.trans hm'
        refine (ih hj' hi' (hP.2 m hstep) hrest).mp fun pre hpre t' ht' => ?_
        exact hall (a :: pre) (List.cons_prefix_cons.mpr ⟨rfl, hpre⟩) t'
          (exec_cons_some.mpr ⟨m, hstep, ht'⟩)
      · rintro ⟨hq, hmeets⟩ pre hpre t' ht'
        cases pre with
        | nil =>
            cases ht'
            exact hi
        | cons b pre =>
            obtain ⟨rfl, hpre'⟩ := List.cons_prefix_cons.mp hpre
            obtain ⟨m', hm', ht⟩ := exec_cons_some.mp ht'
            cases hstep.symm.trans hm'
            exact (ih hj' (hiff.mpr hq) (hP.2 m hstep) hrest).mpr (hmeets m hstep) pre hpre' t' ht

/-- Two conditions that agree on the steps of a run, as long as `J` holds,
which the steps that meet the second one keep. -/
theorem meets_iff {J : σ → Prop} {P Q : σ → α → Prop}
    (hJ : ∀ s a s', J s → Q s a → S.step s a = some s' → J s')
    (hiff : ∀ s a s', J s → S.step s a = some s' → (P s a ↔ Q s a))
    {s t : σ} {as : List α} (hj : J s) (hrun : S.exec s as = some t) :
    S.Meets P s as ↔ S.Meets Q s as := by
  induction as generalizing s with
  | nil => exact Iff.rfl
  | cons a as ih =>
      obtain ⟨m, hstep, hrest⟩ := exec_cons_some.mp hrun
      have hfirst := hiff s a m hj hstep
      have htail : Q s a → (S.Meets P m as ↔ S.Meets Q m as) :=
        fun hq => ih (hJ s a m hj hq hstep) hrest
      constructor
      · rintro ⟨hp, hmeets⟩
        have hq := hfirst.mp hp
        refine ⟨hq, fun m' hm' => ?_⟩
        cases hstep.symm.trans hm'
        exact (htail hq).mp (hmeets m hstep)
      · rintro ⟨hq, hmeets⟩
        refine ⟨hfirst.mpr hq, fun m' hm' => ?_⟩
        cases hstep.symm.trans hm'
        exact (htail hq).mpr (hmeets m hstep)

/-- Where every step is enabled, every run is. -/
theorem exec_isSome (hstep : ∀ s a, (S.step s a).isSome) (s : σ) (as : List α) :
    ∃ t, S.exec s as = some t := by
  induction as generalizing s with
  | nil => exact ⟨s, rfl⟩
  | cons a as ih =>
      obtain ⟨m, hm⟩ := Option.isSome_iff_exists.mp (hstep s a)
      obtain ⟨t, ht⟩ := ih m
      exact ⟨t, exec_cons_some.mpr ⟨m, hm, ht⟩⟩

/-- The invariant rule over reachable states. -/
theorem Reachable.invariant {I : σ → Prop} (hinit : ∀ s, S.init s → I s)
    (hstep : ∀ s a s', I s → S.step s a = some s' → I s')
    {s : σ} (h : S.Reachable s) : I s := by
  obtain ⟨s₀, as, h₀, has⟩ := h
  exact exec_invariant (P := fun _ _ => True)
    (fun s a s' hI _ hs => hstep s a s' hI hs) (hinit s₀ h₀)
    (meets_of_mem s₀ as fun _ _ _ => trivial) has

end System

end CleancacheRdma.Lib
