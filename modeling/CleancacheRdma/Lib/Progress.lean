import CleancacheRdma.Lib.System

/-!
# Waits that end

A state may be busy for a while, and a class of steps brings it forward. As
long as one of them is enabled, each of them lowers a measure and no other step
raises it, the wait is over after as many of them as the measure counts,
whatever else happens in between.
-/

namespace CleancacheRdma.Lib

variable {σ α : Type*}

/-- Under the invariant `I` and the condition `P` on the steps, the steps `Own`
bring every busy state to an end. -/
structure Ends (S : System σ α) (I : σ → Prop) (P : σ → α → Prop) (Busy : σ → Prop)
    (Own : α → Prop) (μ : σ → ℕ) : Prop where
  keep : ∀ s a s', I s → P s a → S.step s a = some s' → I s'
  enabled : ∀ s, I s → Busy s → ∃ a, Own a ∧ P s a ∧ ∃ s', S.step s a = some s'
  own : ∀ s a s', I s → P s a → Own a → Busy s → Busy s' → S.step s a = some s' → μ s' < μ s
  other : ∀ s a s', I s → P s a → ¬ Own a → Busy s → Busy s' → S.step s a = some s' → μ s' ≤ μ s

namespace Ends

variable {S : System σ α} {I : σ → Prop} {P : σ → α → Prop} {Busy : σ → Prop} {Own : α → Prop}
  {μ : σ → ℕ}

/-- While the state stays busy the measure pays for every own step. -/
theorem bound [DecidablePred Own] (h : Ends S I P Busy Own μ) {s t : σ} {as : List α} (hI : I s)
    (hP : S.Meets P s as) (hrun : S.exec s as = some t) (hbusy : S.Always Busy s as) :
    as.countP (fun a => Own a) + μ t ≤ μ s := by
  induction as generalizing s with
  | nil =>
      cases hrun
      simp
  | cons a as ih =>
      obtain ⟨m, hstep, hrest⟩ := System.exec_cons_some.mp hrun
      have hbusy₀ : Busy s := hbusy [] List.nil_prefix s rfl
      have hbusy₁ : Busy m := hbusy [a] (List.prefix_append [a] as) m
        (System.exec_cons_some.mpr ⟨m, hstep, rfl⟩)
      have htail : S.Always Busy m as := fun pre hpre t' ht' =>
        hbusy (a :: pre) (List.cons_prefix_cons.mpr ⟨rfl, hpre⟩) t'
          (System.exec_cons_some.mpr ⟨m, hstep, ht'⟩)
      have hle := ih (h.keep s a m hI hP.1 hstep) (hP.2 m hstep) hrest htail
      rw [List.countP_cons]
      by_cases hown : Own a
      · have hlt := h.own s a m hI hP.1 hown hbusy₀ hbusy₁ hstep
        simp only [hown, decide_true, if_true]
        omega
      · have hle' := h.other s a m hI hP.1 hown hbusy₀ hbusy₁ hstep
        simp only [hown, decide_false, Bool.false_eq_true, if_false]
        omega

/-- The own steps alone lead out of every busy state. -/
theorem reaches (h : Ends S I P Busy Own μ) {s : σ} (hI : I s) :
    ∃ as t, (∀ a ∈ as, Own a) ∧ as.length ≤ μ s + 1 ∧ S.Meets P s as ∧ S.exec s as = some t ∧
      ¬ Busy t := by
  induction hn : μ s using Nat.strongRecOn generalizing s with
  | ind n ih =>
      subst hn
      by_cases hbusy : Busy s
      swap
      · exact ⟨[], s, nofun, Nat.zero_le _, trivial, rfl, hbusy⟩
      obtain ⟨a, hown, hP, m, hstep⟩ := h.enabled s hI hbusy
      have hI' := h.keep s a m hI hP hstep
      by_cases hbusy' : Busy m
      swap
      · obtain ⟨hmeets, hexec⟩ := System.trace_cons hP hstep (System.trace_nil (P := P) m)
        refine ⟨[a], m, ?_, by simp, hmeets, hexec, hbusy'⟩
        intro b hb
        rwa [List.mem_singleton.mp hb]
      have hlt := h.own s a m hI hP hown hbusy hbusy' hstep
      obtain ⟨as, t, hall, hlen, hmeets, hexec, hend⟩ := ih (μ m) hlt hI' rfl
      obtain ⟨hmeets', hexec'⟩ := System.trace_cons hP hstep ⟨hmeets, hexec⟩
      refine ⟨a :: as, t, List.forall_mem_cons.mpr ⟨hown, hall⟩, ?_, hmeets', hexec', hend⟩
      rw [List.length_cons]
      omega

end Ends

end CleancacheRdma.Lib
