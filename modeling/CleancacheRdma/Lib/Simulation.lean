import CleancacheRdma.Lib.System

/-!
# Forward simulation

A step of the lower system is answered by a run of the upper one, perhaps the
run of no steps. The relation between the two states may speak about both runs
so far, so it can say what has been done and what is still owed.
-/

namespace CleancacheRdma.Lib

namespace System

variable {σ τ α β : Type*} {S : System σ α} {T : System τ β}

theorem simulates {P : σ → α → Prop} {Q : τ → β → Prop} {R : List α → List β → σ → τ → Prop}
    {s : σ} {t : τ}
    (hstep : ∀ as bs m n a m', R as bs m n → T.exec t bs = some n → P m a → S.step m a = some m' →
      ∃ cs n', T.Meets Q n cs ∧ T.exec n cs = some n' ∧ R (as ++ [a]) (bs ++ cs) m' n')
    (hinit : R [] [] s t) {as : List α} {s' : σ} (hmeets : S.Meets P s as)
    (hrun : S.exec s as = some s') :
    ∃ bs t', T.Meets Q t bs ∧ T.exec t bs = some t' ∧ R as bs s' t' := by
  induction as using List.reverseRecOn generalizing s' with
  | nil =>
      cases hrun
      exact ⟨[], t, trivial, rfl, hinit⟩
  | append_singleton as a ih =>
      obtain ⟨m, has, hm⟩ := exec_snoc_some.mp hrun
      obtain ⟨bs, n, hbs, hexec, hrel⟩ := ih hmeets.prefix has
      obtain ⟨cs, n', hcs, hexec', hrel'⟩ :=
        hstep as bs m n a s' hrel hexec (hmeets.append has).1 hm
      exact ⟨bs ++ cs, n', meets_append hbs hexec hcs, exec_append_some.mpr ⟨n, hexec, hexec'⟩, hrel'⟩

end System

end CleancacheRdma.Lib
