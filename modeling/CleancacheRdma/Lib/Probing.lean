import Mathlib.Data.Nat.ModEq
import CleancacheRdma.Lib.Places

/-!
# Windowed linear probing with tombstones

An array of cells, each never used, deleted, or full. A key is looked for in
its window: the `reach` cells that follow its home position, in order, up to
the first cell that was never used. Deleting leaves a tombstone, so a window
never regains a never-used cell.

`Inv` is the invariant that makes such lookups exact: a key is in at most one
cell, and no never-used cell stands before it in its window. `view` is the
finite map the cells hold and `total` adds a weight over the stored pairs; the
two writes an implementation makes (`full` into any cell, `deleted` into a full
one) act on all three in one lemma each.
-/

namespace CleancacheRdma.Lib

/-- A cell of an open-addressing table. -/
inductive Cell (K V : Type*) where
  | empty
  | deleted
  | full (k : K) (v : V)

namespace Probing

/-- The shape of a table: array length, window length, home positions. -/
structure Layout (K : Type*) where
  capacity : ℕ
  reach : ℕ
  home : K → ℕ

variable {K V : Type*}

/-- The `i`-th position of the window of `k`. -/
def Layout.slot (L : Layout K) (k : K) (i : ℕ) : ℕ := (L.home k + i) % L.capacity

theorem Layout.slot_lt {L : Layout K} (h : 0 < L.capacity) (k : K) (i : ℕ) :
    L.slot k i < L.capacity := Nat.mod_lt _ h

/-- Positions of one window are distinct as long as it does not lap itself. -/
theorem Layout.slot_injOn {L : Layout K} {k : K} {i j : ℕ}
    (hi : i < L.capacity) (hj : j < L.capacity)
    (h : L.slot k i = L.slot k j) : i = j := by
  have hmod : i ≡ j [MOD L.capacity] := Nat.ModEq.add_left_cancel' _ h
  exact Nat.ModEq.eq_of_lt_of_lt hmod hi hj

/-- The contents of the array. -/
abbrev Cells (K V : Type*) := ℕ → Cell K V

/-- `k ↦ v` sits in some cell. -/
def Stored (L : Layout K) (c : Cells K V) (k : K) (v : V) : Prop :=
  ∃ s < L.capacity, c s = .full k v

/-- No cell holds `k`. -/
def Absent (L : Layout K) (c : Cells K V) (k : K) : Prop :=
  ∀ v, ¬ Stored L c k v

/-- Each key is in at most one cell, inside its window, with no never-used
cell before it. -/
structure Inv (L : Layout K) (c : Cells K V) : Prop where
  unique : ∀ {s s' k v v'}, s < L.capacity → s' < L.capacity →
    c s = .full k v → c s' = .full k v' → s = s'
  reached : ∀ {s k v}, s < L.capacity → c s = .full k v →
    ∃ i < L.reach, L.slot k i = s ∧ ∀ j < i, c (L.slot k j) ≠ .empty

theorem inv_empty (L : Layout K) : Inv L (fun _ => (.empty : Cell K V)) where
  unique _ _ h := by simp at h
  reached _ h := by simp at h

theorem absent_empty (L : Layout K) (k : K) :
    Absent L (fun _ => (.empty : Cell K V)) k := by
  rintro v ⟨s, _, hs⟩
  simp at hs

theorem Inv.stored_unique {L : Layout K} {c : Cells K V} (h : Inv L c)
    {k : K} {v v' : V} (hv : Stored L c k v) (hv' : Stored L c k v') : v = v' := by
  obtain ⟨s, hs, hc⟩ := hv
  obtain ⟨s', hs', hc'⟩ := hv'
  obtain rfl := h.unique hs hs' hc hc'
  rw [hc] at hc'
  cases hc'
  rfl

/-- Why a lookup may stop: after `n` cells without the key, either the window
is exhausted or the next cell was never used. -/
theorem Inv.absent_of_scan {L : Layout K} {c : Cells K V} (h : Inv L c) {k : K}
    {n : ℕ} (hmiss : ∀ j < n, ∀ v, c (L.slot k j) ≠ .full k v)
    (hstop : L.reach ≤ n ∨ c (L.slot k n) = .empty) : Absent L c k := by
  rintro v ⟨s, hs, hc⟩
  obtain ⟨i, hi, rfl, hpre⟩ := h.reached hs hc
  have hni : n ≤ i := by
    by_contra hlt
    exact hmiss i (Nat.lt_of_not_le hlt) v hc
  rcases hstop with hreach | hempty
  · omega
  · rcases Nat.lt_or_eq_of_le hni with hlt | rfl
    · exact hpre n hlt hempty
    · rw [hempty] at hc
      cases hc

/-! ## Writes -/

section Write

variable {L : Layout K} {c : Cells K V}

theorem stored_update {s : ℕ} (hs : s < L.capacity) (x : Cell K V) (k : K) (v : V) :
    Stored L (Function.update c s x) k v ↔
      x = .full k v ∨ ∃ s' < L.capacity, s' ≠ s ∧ c s' = .full k v := by
  constructor
  · rintro ⟨s', hs', hc⟩
    by_cases he : s' = s
    · subst he
      rw [Function.update_self] at hc
      exact Or.inl hc
    · rw [Function.update_of_ne he] at hc
      exact Or.inr ⟨s', hs', he, hc⟩
  · rintro (rfl | ⟨s', hs', he, hc⟩)
    · exact ⟨s, hs, Function.update_self ..⟩
    · exact ⟨s', hs', by rw [Function.update_of_ne he, hc]⟩

/-- A key not stored yet may be written over any cell of its window that has
no never-used cell before it. -/
theorem Inv.write (h : Inv L c) {k : K} (hk : Absent L c k) {i : ℕ}
    (hi : i < L.reach) (hpre : ∀ j < i, c (L.slot k j) ≠ .empty) (v : V) :
    Inv L (Function.update c (L.slot k i) (.full k v)) where
  unique := by
    intro s s' k' w w' hs hs' hc hc'
    by_cases he : s = L.slot k i <;> by_cases he' : s' = L.slot k i
    · rw [he, he']
    · subst he
      rw [Function.update_self] at hc
      rw [Function.update_of_ne he'] at hc'
      cases hc
      exact absurd ⟨s', hs', hc'⟩ (hk w')
    · subst he'
      rw [Function.update_of_ne he] at hc
      rw [Function.update_self] at hc'
      cases hc'
      exact absurd ⟨s, hs, hc⟩ (hk w)
    · rw [Function.update_of_ne he] at hc
      rw [Function.update_of_ne he'] at hc'
      exact h.unique hs hs' hc hc'
  reached := by
    intro s k' w hs hc
    by_cases he : s = L.slot k i
    · subst he
      rw [Function.update_self] at hc
      cases hc
      refine ⟨i, hi, rfl, fun j hj => ?_⟩
      by_cases hjs : L.slot k j = L.slot k i
      · rw [hjs, Function.update_self]
        exact nofun
      · rw [Function.update_of_ne hjs]
        exact hpre j hj
    · rw [Function.update_of_ne he] at hc
      obtain ⟨d, hd, hslot, hpre'⟩ := h.reached hs hc
      refine ⟨d, hd, hslot, fun j hj => ?_⟩
      by_cases hjs : L.slot k' j = L.slot k i
      · rw [hjs, Function.update_self]
        exact nofun
      · rw [Function.update_of_ne hjs]
        exact hpre' j hj

/-- A tombstone may be written anywhere. -/
theorem Inv.erase (h : Inv L c) (s : ℕ) :
    Inv L (Function.update c s .deleted) where
  unique := by
    intro s₁ s₂ k v v' h₁ h₂ hc₁ hc₂
    by_cases e₁ : s₁ = s
    · subst e₁
      rw [Function.update_self] at hc₁
      cases hc₁
    · by_cases e₂ : s₂ = s
      · subst e₂
        rw [Function.update_self] at hc₂
        cases hc₂
      · rw [Function.update_of_ne e₁] at hc₁
        rw [Function.update_of_ne e₂] at hc₂
        exact h.unique h₁ h₂ hc₁ hc₂
  reached := by
    intro s' k v hs' hc
    by_cases he : s' = s
    · subst he
      rw [Function.update_self] at hc
      cases hc
    · rw [Function.update_of_ne he] at hc
      obtain ⟨i, hi, hslot, hpre⟩ := h.reached hs' hc
      refine ⟨i, hi, hslot, fun j hj => ?_⟩
      by_cases hjs : L.slot k j = s
      · rw [hjs, Function.update_self]
        exact nofun
      · rw [Function.update_of_ne hjs]
        exact hpre j hj

end Write

/-! ## The map the cells hold -/

section View

variable [DecidableEq K] {L : Layout K} {c : Cells K V}

/-- The value stored under `k`: the first full cell with that key. -/
def view (L : Layout K) (c : Cells K V) (k : K) : Option V :=
  (List.range L.capacity).findSome? fun s =>
    match c s with
    | .full k' v => if k' = k then some v else none
    | _ => none

theorem view_eq_none_iff {k : K} : view L c k = none ↔ Absent L c k := by
  rw [view, List.findSome?_eq_none_iff]
  constructor
  · rintro h v ⟨s, hs, hc⟩
    have := h s (List.mem_range.mpr hs)
    simp [hc] at this
  · intro h s hs
    cases hc : c s with
    | empty => rfl
    | deleted => rfl
    | full k' v =>
        by_cases hk : k' = k
        · subst hk
          exact absurd ⟨s, List.mem_range.mp hs, hc⟩ (h v)
        · simp [hk]

theorem stored_of_view {k : K} {v : V} (h : view L c k = some v) :
    Stored L c k v := by
  obtain ⟨s, hs, hv⟩ := List.exists_of_findSome?_eq_some h
  refine ⟨s, List.mem_range.mp hs, ?_⟩
  cases hc : c s with
  | empty => simp [hc] at hv
  | deleted => simp [hc] at hv
  | full k' w =>
      simp only [hc, Option.ite_none_right_eq_some, Option.some.injEq] at hv
      rw [hv.1, hv.2]

theorem Inv.view_eq_some_iff (h : Inv L c) {k : K} {v : V} :
    view L c k = some v ↔ Stored L c k v := by
  refine ⟨stored_of_view, fun hv => ?_⟩
  cases hw : view L c k with
  | none => exact absurd hv (view_eq_none_iff.mp hw v)
  | some w => rw [h.stored_unique (stored_of_view hw) hv]

/-- The map is known from the stored pairs. -/
theorem Inv.view_ext {m : K → Option V} (h : Inv L c) (hm : ∀ k v, Stored L c k v ↔ m k = some v) :
    view L c = m := by
  funext k
  refine Option.ext fun v => ?_
  rw [h.view_eq_some_iff, hm]

theorem view_fill (h : Inv L c) {k : K} (hk : Absent L c k) {i : ℕ}
    (hi : i < L.reach) (hcap : 0 < L.capacity)
    (hpre : ∀ j < i, c (L.slot k j) ≠ .empty)
    (hvac : ∀ k' v', c (L.slot k i) ≠ .full k' v') (v : V) :
    view L (Function.update c (L.slot k i) (.full k v)) =
      Function.update (view L c) k (some v) := by
  refine (h.write hk hi hpre v).view_ext fun k' w => ?_
  rw [stored_update (L.slot_lt hcap k i)]
  by_cases hkk : k' = k
  · subst hkk
    rw [Function.update_self]
    constructor
    · rintro (he | ⟨s', hs', _, hc⟩)
      · cases he
        rfl
      · exact absurd ⟨s', hs', hc⟩ (hk w)
    · intro he
      cases he
      exact Or.inl rfl
  · rw [Function.update_of_ne hkk, h.view_eq_some_iff]
    constructor
    · rintro (he | ⟨s', hs', _, hc⟩)
      · cases he
        exact absurd rfl hkk
      · exact ⟨s', hs', hc⟩
    · rintro ⟨s', hs', hc⟩
      exact Or.inr ⟨s', hs', fun he => hvac k' w (he ▸ hc), hc⟩

theorem view_erase (h : Inv L c) {s : ℕ} (hs : s < L.capacity) {k : K} {v : V}
    (hc : c s = .full k v) :
    view L (Function.update c s .deleted) = Function.update (view L c) k none := by
  refine (h.erase s).view_ext fun k' w => ?_
  rw [stored_update hs]
  by_cases hkk : k' = k
  · subst hkk
    rw [Function.update_self]
    constructor
    · rintro (he | ⟨s', hs', hne, hc'⟩)
      · cases he
      · exact absurd (h.unique hs' hs hc' hc) hne
    · intro he
      simp at he
  · rw [Function.update_of_ne hkk, h.view_eq_some_iff]
    constructor
    · rintro (he | ⟨s', hs', _, hc'⟩)
      · cases he
      · exact ⟨s', hs', hc'⟩
    · rintro ⟨s', hs', hc'⟩
      refine Or.inr ⟨s', hs', fun he => ?_, hc'⟩
      rw [he, hc] at hc'
      cases hc'
      exact hkk rfl

/-- Overwriting a full cell is erasing it and filling the tombstone. -/
theorem view_replace (h : Inv L c) {k : K} (hk : Absent L c k) {i : ℕ}
    (hi : i < L.reach) (hcap : 0 < L.capacity)
    (hpre : ∀ j < i, c (L.slot k j) ≠ .empty) {k₀ : K} {v₀ : V}
    (hc : c (L.slot k i) = .full k₀ v₀) (v : V) :
    view L (Function.update c (L.slot k i) (.full k v)) =
      Function.update (Function.update (view L c) k₀ none) k (some v) := by
  have hlt := L.slot_lt hcap k i
  have hk' : Absent L (Function.update c (L.slot k i) .deleted) k := by
    rintro w hw
    rcases (stored_update hlt _ k w).mp hw with he | ⟨s', hs', _, hc'⟩
    · cases he
    · exact hk w ⟨s', hs', hc'⟩
  have hpre' : ∀ j < i,
      Function.update c (L.slot k i) .deleted (L.slot k j) ≠ .empty := by
    intro j hj
    by_cases hjs : L.slot k j = L.slot k i
    · rw [hjs, Function.update_self]
      exact nofun
    · rw [Function.update_of_ne hjs]
      exact hpre j hj
  have hfill := view_fill (h.erase (L.slot k i)) hk' hi hcap hpre'
    (by intro k' v'; rw [Function.update_self]; exact nofun) v
  rwa [Function.update_idem, view_erase h hlt hc] at hfill

end View

/-! ## Sums over the stored pairs -/

section Total

/-- What a cell contributes to a sum over the stored pairs. -/
def weight (f : K → V → ℕ) : Cell K V → ℕ
  | .full k v => f k v
  | _ => 0

/-- The sum of `f` over the pairs stored in the first `n` cells. -/
def total (n : ℕ) (f : K → V → ℕ) (c : Cells K V) : ℕ :=
  ∑ s ∈ Finset.range n, weight f (c s)

theorem total_empty (n : ℕ) (f : K → V → ℕ) : total n f (fun _ => .empty) = 0 := by
  simp [total, weight]

/-- One write moves the sum by the weight of the new cell less the old. -/
theorem total_update {n s : ℕ} (hs : s < n) (f : K → V → ℕ) (c : Cells K V) (x : Cell K V) :
    total n f (Function.update c s x) + weight f (c s) = total n f c + weight f x :=
  sum_update (Finset.mem_range.mpr hs) (weight f) c x

/-- A stored pair contributes its weight. -/
theorem le_total {L : Layout K} {c : Cells K V} {k : K} {v : V} (h : Stored L c k v)
    (f : K → V → ℕ) : f k v ≤ total L.capacity f c := by
  obtain ⟨s, hs, hc⟩ := h
  have hle := Finset.single_le_sum (f := fun t => weight f (c t))
    (fun _ _ => Nat.zero_le _) (Finset.mem_range.mpr hs)
  simp only [hc, weight] at hle
  exact hle

/-- A sum of at most one has one contributor. -/
theorem eq_of_total_le_one {L : Layout K} {c : Cells K V} {f : K → V → ℕ} {k k' : K} {v v' : V}
    (hle : total L.capacity f c ≤ 1) (h : Stored L c k v) (h' : Stored L c k' v')
    (hf : 0 < f k v) (hf' : 0 < f k' v') : k = k' := by
  obtain ⟨s, hs, hc⟩ := h
  obtain ⟨s', hs', hc'⟩ := h'
  by_contra hne
  have hslots : s ≠ s' := by
    rintro rfl
    cases hc.symm.trans hc'
    exact hne rfl
  have htwo := Finset.add_le_sum (f := fun t => weight f (c t)) (fun _ _ => Nat.zero_le _)
    (Finset.mem_range.mpr hs) (Finset.mem_range.mpr hs') hslots
  have hw : weight f (c s) = f k v := congrArg (weight f) hc
  have hw' : weight f (c s') = f k' v' := congrArg (weight f) hc'
  rw [total] at hle
  omega

end Total

end Probing

end CleancacheRdma.Lib
