import CleancacheRdma.Daemon.HashTable.Scan
import CleancacheRdma.Lib.System

/-!
# The table refines a finite map with eviction

`MapStep` is the specification: what one call may do to a finite map and what
it returns. `TableInv` is the invariant that makes the probing loops exact.
Every operation keeps it and is a `MapStep` on the map the valid buckets hold.
-/

namespace CleancacheRdma.Daemon

open Lib (Cell System)
open Lib.Probing (Layout Cells Stored Absent)

/-! ## Calls and their specification -/

/-- The public calls of the table, with what each reads from its environment. -/
inductive TableCall where
  | insert (key : Key) (value : Value) (evKey : Key) (now : BitVec 32) (prevTryLock : Bool)
  | delete (key : Key)
  | get (key : Key) (now : BitVec 32)
  | getWithFlag (key : Key) (busy : Bool) (now : BitVec 32)
  | evict (draws : List LinearProbingApprox.EvictDraw)

/-- What a call hands back. -/
inductive TableRet where
  | value (value : Value)
  | inserted (ret : ℤ) (evKey : Key) (evValue : Value)
  | evicted (key : Key) (value : Value)

/-- Keys are not the reserved patterns and values are not null. -/
def TableCall.WellFormed : TableCall → Prop
  | .insert key value _ _ _ => Usable key ∧ value ≠ NONE
  | .delete key => Usable key
  | .get key _ => Usable key
  | .getWithFlag key _ _ => Usable key
  | .evict _ => True

instance : DecidablePred TableCall.WellFormed := fun c => by
  cases c <;> unfold TableCall.WellFormed <;> infer_instance

/-- A finite map with eviction: the outcomes a call may have. -/
inductive MapStep (m : Key → Option Value) :
    TableCall → TableRet → (Key → Option Value) → Prop where
  | get (key : Key) (now : BitVec 32) :
      MapStep m (.get key now) (.value ((m key).getD NONE)) m
  | flag (key : Key) (now : BitVec 32) :
      MapStep m (.getWithFlag key true now) (.value ((m key).getD NONE)) m
  | unflag (key : Key) (now : BitVec 32) :
      MapStep m (.getWithFlag key false now) (.value NONE) m
  | delete (key : Key) :
      MapStep m (.delete key) (.value ((m key).getD NONE)) (Function.update m key none)
  | removed {key evKey : Key} {value old : Value} {now : BitVec 32} {prevTryLock : Bool} :
      m key = some old → old ≠ NONE →
      MapStep m (.insert key value evKey now prevTryLock) (.inserted 0 evKey old)
        (Function.update m key none)
  | added {key evKey : Key} {value : Value} {now : BitVec 32} {prevTryLock : Bool} :
      m key = none →
      MapStep m (.insert key value evKey now prevTryLock) (.inserted 0 evKey NONE)
        (Function.update m key (some value))
  | replaced {key evKey other : Key} {value v : Value} {now : BitVec 32} {prevTryLock : Bool} :
      m key = none → other ≠ key → m other = some v → v ≠ NONE →
      MapStep m (.insert key value evKey now prevTryLock) (.inserted 0 other v)
        (Function.update (Function.update m other none) key (some value))
  | refused {key evKey : Key} {value : Value} {now : BitVec 32} {prevTryLock : Bool} :
      m key = none →
      MapStep m (.insert key value evKey now prevTryLock) (.inserted (-1) key value) m
  | evict {key : Key} {v : Value} {draws : List LinearProbingApprox.EvictDraw} :
      m key = some v → v ≠ NONE →
      MapStep m (.evict draws) (.evicted key v) (Function.update m key none)

namespace LinearProbingApprox

/-- A call of the table; `KV` passes `INVALID` as the key of `Evict`. -/
def call (t : LinearProbingApprox) (hash : Key → ℕ) :
    TableCall → Except Stop (LinearProbingApprox × TableRet)
  | .insert key value evKey now prevTryLock =>
      (t.insert hash key value evKey now prevTryLock).map
        fun r => (r.table, .inserted r.ret r.evKey r.evValue)
  | .delete key => .ok ((t.delete hash key).1, .value (t.delete hash key).2)
  | .get key now => .ok ((t.get hash key now).1, .value (t.get hash key now).2)
  | .getWithFlag key busy now =>
      .ok ((t.getWithFlag hash key busy now).1, .value (t.getWithFlag hash key busy now).2)
  | .evict draws => (t.evict INVALID draws).map fun r => (r.1, .evicted r.2.1 r.2.2)

variable {t : LinearProbingApprox} {hash : Key → ℕ}

/-! ## Cells of the buckets -/

theorem cell_eq_full {b : LPABkt} {k : Key} {v : Value} :
    b.cell = .full k v ↔ Usable b.key ∧ b.key = k ∧ b.value = v := by
  rw [LPABkt.cell, Usable]
  by_cases hinv : b.key = INVALID
  · simp [hinv]
  · by_cases htomb : b.key = TOMBSTONE
    · simp [htomb, INVALID, TOMBSTONE]
    · simp [hinv, htomb]

theorem cell_of_usable {b : LPABkt} (h : Usable b.key) : b.cell = .full b.key b.value :=
  cell_eq_full.mpr ⟨h, rfl, rfl⟩

theorem cell_eq_empty {b : LPABkt} : b.cell = .empty ↔ b.key = INVALID := by
  rw [LPABkt.cell]
  by_cases hinv : b.key = INVALID
  · simp [hinv]
  · by_cases htomb : b.key = TOMBSTONE <;> simp [hinv, htomb]

theorem cell_of_usable_ne {b : LPABkt} (h : Usable b.key) : b.cell ≠ .empty := by
  rw [cell_of_usable h]
  exact nofun

theorem cells_put (slot : ℕ) (b : LPABkt) :
    (t.put slot b).cells = Function.update t.cells slot b.cell := by
  funext s
  by_cases hs : s = slot
  · subst hs
    simp [cells]
  · simp [cells, Function.update_of_ne hs]

theorem cells_setBucket (slot : ℕ) {key : Key} (hkey : Usable key) (value : Value)
    (now : BitVec 32) :
    (t.setBucket slot key value now).cells = Function.update t.cells slot (.full key value) := by
  rw [setBucket, cells_put, cell_of_usable (by exact hkey)]

theorem cells_bury (slot : ℕ) :
    (t.bury slot).cells = Function.update t.cells slot .deleted := by
  rw [bury, cells_put]
  rfl

/-- Timestamps and flags are invisible in the cells. -/
theorem cells_put_same {slot : ℕ} {b : LPABkt} (hkey : b.key = (t.buckets slot).key)
    (hvalue : b.value = (t.buckets slot).value) : (t.put slot b).cells = t.cells := by
  rw [cells_put, Function.update_eq_self_iff]
  simp only [LPABkt.cell, cells, hkey, hvalue]

/-! ## The invariant and the map -/

structure TableInv (t : LinearProbingApprox) (hash : Key → ℕ) : Prop where
  probing : Lib.Probing.Inv (t.layout hash) t.cells
  nonNull : ∀ slot < t.capacity, Usable (t.buckets slot).key → (t.buckets slot).value ≠ NONE

/-- The map the valid buckets hold. -/
def view (t : LinearProbingApprox) (hash : Key → ℕ) : Key → Option Value :=
  Lib.Probing.view (t.layout hash) t.cells

theorem new_inv (capacity : ℕ) : (new capacity).TableInv hash where
  probing := Lib.Probing.inv_empty _
  nonNull _ _ h := absurd rfl h.1

theorem view_new (capacity : ℕ) : (new capacity).view hash = fun _ => none := by
  funext k
  exact Lib.Probing.view_eq_none_iff.mpr (Lib.Probing.absent_empty _ k)

theorem stored_iff {k : Key} {v : Value} :
    Stored (t.layout hash) t.cells k v ↔ ∃ slot < t.capacity,
      Usable (t.buckets slot).key ∧ (t.buckets slot).key = k ∧ (t.buckets slot).value = v := by
  simp only [Stored, layout_capacity, cells, cell_eq_full]

theorem TableInv.view_eq_some_iff (h : t.TableInv hash) {k : Key} {v : Value} :
    t.view hash k = some v ↔ ∃ slot < t.capacity,
      Usable (t.buckets slot).key ∧ (t.buckets slot).key = k ∧ (t.buckets slot).value = v := by
  rw [view, h.probing.view_eq_some_iff, stored_iff]

theorem TableInv.view_ne_none (h : t.TableInv hash) {k : Key} {v : Value}
    (hv : t.view hash k = some v) : v ≠ NONE := by
  obtain ⟨slot, hs, hu, -, rfl⟩ := h.view_eq_some_iff.mp hv
  exact h.nonNull slot hs hu

theorem TableInv.view_of_bucket (h : t.TableInv hash) {slot : ℕ} (hs : slot < t.capacity)
    (hu : Usable (t.buckets slot).key) :
    t.view hash (t.buckets slot).key = some (t.buckets slot).value :=
  h.view_eq_some_iff.mpr ⟨slot, hs, hu, rfl, rfl⟩

theorem TableInv.slot_unique (h : t.TableInv hash) {s s' : ℕ} (hs : s < t.capacity)
    (hs' : s' < t.capacity) (hu : Usable (t.buckets s).key)
    (hk : (t.buckets s).key = (t.buckets s').key) : s = s' :=
  h.probing.unique hs hs' (cell_of_usable hu) (cell_eq_full.mpr ⟨hk ▸ hu, hk.symm, rfl⟩)

theorem window_lt (hcap : 0 < t.capacity) (key : Key) (i : ℕ) :
    t.window hash key i < t.capacity := Nat.mod_lt _ hcap

/-! ## Scans under the invariant -/

theorem TableInv.absent_of_miss (h : t.TableInv hash) {key : Key}
    (hmiss : t.Miss hash key) : t.view hash key = none := by
  obtain ⟨n, hpass, hstop⟩ := hmiss
  refine Lib.Probing.view_eq_none_iff.mpr (h.probing.absent_of_scan (n := n) ?_ ?_)
  · intro j hj v hc
    exact (hpass j hj).1 (cell_eq_full.mp hc).2.1
  · rcases hstop with hreach | ⟨-, hinv⟩
    · exact Or.inl hreach
    · exact Or.inr (cell_eq_empty.mpr hinv)

theorem Hit.lt_capacity {key : Key} {i : ℕ} (h : t.Hit hash key i) :
    t.window hash key i < t.capacity := by
  have hi := h.1
  exact window_lt (by omega) key i

/-- A scan under the invariant: either the key is stored, in the one bucket
the scan found, or it is absent. -/
theorem Scanned.cases {α : Type} {found : ℕ → α} {missed r : α} {key : Key}
    (hs : t.Scanned hash key found missed r) (h : t.TableInv hash) (hkey : Usable key) :
    (∃ slot < t.capacity, (t.buckets slot).key = key ∧
      t.view hash key = some (t.buckets slot).value ∧ r = found slot) ∨
    (t.view hash key = none ∧ r = missed) := by
  rcases hs with ⟨i, hhit, rfl⟩ | ⟨hmiss, rfl⟩
  · have hk := hhit.2.1
    have hlt := hhit.lt_capacity
    refine Or.inl ⟨_, hlt, hk, ?_, rfl⟩
    have hview := h.view_of_bucket hlt (by rw [hk]; exact hkey)
    rwa [hk] at hview
  · exact Or.inr ⟨h.absent_of_miss hmiss, rfl⟩

theorem delete_cases (h : t.TableInv hash) {key : Key} (hkey : Usable key) :
    (∃ slot < t.capacity, (t.buckets slot).key = key ∧
      t.view hash key = some (t.buckets slot).value ∧
      t.delete hash key = (t.bury slot, (t.buckets slot).value)) ∨
    (t.view hash key = none ∧ t.delete hash key = (t, NONE)) :=
  (delete_scanned key).cases h hkey

/-! ## Delete -/

theorem TableInv.bury (h : t.TableInv hash) (slot : ℕ) : (t.bury slot).TableInv hash where
  probing := by
    rw [cells_bury]
    exact h.probing.erase slot
  nonNull s hs hu := by
    by_cases he : s = slot
    · subst he
      simp [LinearProbingApprox.bury, Usable] at hu
    · simp only [LinearProbingApprox.bury, put_buckets, Function.update_of_ne he] at hu ⊢
      exact h.nonNull s hs hu

theorem TableInv.view_bury (h : t.TableInv hash) {slot : ℕ} (hs : slot < t.capacity)
    (hu : Usable (t.buckets slot).key) :
    (t.bury slot).view hash = Function.update (t.view hash) (t.buckets slot).key none := by
  show Lib.Probing.view (t.layout hash) (t.bury slot).cells = _
  rw [cells_bury]
  exact Lib.Probing.view_erase h.probing hs (cell_of_usable hu)

/-- The window of a buried key has a vacant bucket. -/
theorem TableInv.not_filled_bury (h : t.TableInv hash) {slot : ℕ} (hs : slot < t.capacity)
    (hu : Usable (t.buckets slot).key) :
    ¬ (t.bury slot).Filled hash (t.buckets slot).key (min lockSize t.capacity) := by
  obtain ⟨i, hi, hslot, -⟩ := h.probing.reached hs (cell_of_usable hu)
  intro hfull
  have hfull := hfull i hi
  rw [show (t.bury slot).window hash (t.buckets slot).key i = slot from hslot] at hfull
  simp [LinearProbingApprox.bury, Usable] at hfull

theorem TableInv.delete (h : t.TableInv hash) {key : Key} (hkey : Usable key) :
    (t.delete hash key).1.TableInv hash := by
  rcases delete_cases h hkey with ⟨slot, -, -, -, hd⟩ | ⟨-, hd⟩
  · rw [hd]
    exact h.bury slot
  · rw [hd]
    exact h

theorem TableInv.delete_value (h : t.TableInv hash) {key : Key} (hkey : Usable key) :
    (t.delete hash key).2 = (t.view hash key).getD NONE := by
  rcases delete_cases h hkey with ⟨slot, -, -, hv, hd⟩ | ⟨hv, hd⟩ <;> rw [hv, hd] <;> rfl

theorem TableInv.view_delete (h : t.TableInv hash) {key : Key} (hkey : Usable key) :
    (t.delete hash key).1.view hash = Function.update (t.view hash) key none := by
  rcases delete_cases h hkey with ⟨slot, hs, hk, -, hd⟩ | ⟨hv, hd⟩
  · subst hk
    rw [hd]
    exact h.view_bury hs hkey
  · rw [hd, Function.update_eq_self_iff.mpr hv.symm]

/-! ## Get and GetWithFlag -/

/-- Storing timestamp and flag of a bucket. -/
theorem TableInv.put_same (h : t.TableInv hash) (slot : ℕ) {b : LPABkt}
    (hkey : b.key = (t.buckets slot).key) (hvalue : b.value = (t.buckets slot).value) :
    (t.put slot b).TableInv hash ∧ (t.put slot b).view hash = t.view hash := by
  have hcells := cells_put_same hkey hvalue
  refine ⟨⟨?_, fun s hs hu => ?_⟩, ?_⟩
  · rw [hcells]
    exact h.probing
  · by_cases he : s = slot
    · subst he
      simp only [put_buckets, Function.update_self] at hu ⊢
      rw [hvalue]
      exact h.nonNull s hs (hkey ▸ hu)
    · simp only [put_buckets, Function.update_of_ne he] at hu ⊢
      exact h.nonNull s hs hu
  · show Lib.Probing.view (t.layout hash) (t.put slot b).cells = _
    rw [hcells]
    rfl

theorem TableInv.lookup (h : t.TableInv hash) {key : Key} (hkey : Usable key)
    {found : ℕ → LinearProbingApprox × Value} (result : Value → Value)
    (hfound : ∀ slot, (found slot).1.TableInv hash ∧
      (found slot).1.view hash = t.view hash ∧ (found slot).2 = result (t.buckets slot).value)
    (hnone : result NONE = NONE) :
    (t.lookup found hash key).1.TableInv hash ∧
      (t.lookup found hash key).1.view hash = t.view hash ∧
      (t.lookup found hash key).2 = result ((t.view hash key).getD NONE) := by
  rcases (lookup_scanned found key).cases h hkey with ⟨slot, -, -, hv, hr⟩ | ⟨hv, hr⟩
  · rw [hr, hv]
    exact hfound slot
  · rw [hr, hv]
    exact ⟨h, rfl, hnone.symm⟩

theorem TableInv.get (h : t.TableInv hash) {key : Key} (hkey : Usable key) (now : BitVec 32) :
    (t.get hash key now).1.TableInv hash ∧
      (t.get hash key now).1.view hash = t.view hash ∧
      (t.get hash key now).2 = (t.view hash key).getD NONE := by
  refine h.lookup hkey id (fun slot => ?_) rfl
  obtain ⟨hinv, hview⟩ := h.put_same slot
    (b := { t.buckets slot with timestamp := now }) rfl rfl
  exact ⟨hinv, hview, rfl⟩

theorem TableInv.getWithFlag (h : t.TableInv hash) {key : Key} (hkey : Usable key)
    (busy : Bool) (now : BitVec 32) :
    (t.getWithFlag hash key busy now).1.TableInv hash ∧
      (t.getWithFlag hash key busy now).1.view hash = t.view hash ∧
      (t.getWithFlag hash key busy now).2 =
        if busy then (t.view hash key).getD NONE else NONE := by
  refine h.lookup hkey (fun v => if busy then v else NONE) (fun slot => ?_)
    (by simp)
  cases busy with
  | true =>
      obtain ⟨hinv, hview⟩ := h.put_same slot
        (b := { t.buckets slot with busy := true, timestamp := now }) rfl rfl
      exact ⟨hinv, hview, rfl⟩
  | false =>
      obtain ⟨hinv, hview⟩ := h.put_same slot
        (b := { t.buckets slot with busy := false }) rfl rfl
      exact ⟨hinv, hview, rfl⟩

/-! ## Insert -/

section Insert

variable {key : Key} {value : Value} {evKey : Key} {now : BitVec 32}

/-- Valid buckets of the window are not never-used. -/
theorem Filled.not_empty {n : ℕ} (h : t.Filled hash key n) :
    ∀ j < n, t.cells ((t.layout hash).slot key j) ≠ .empty :=
  fun j hj => cell_of_usable_ne (h j hj)

theorem TableInv.absent (_h : t.TableInv hash) (hv : t.view hash key = none) :
    Absent (t.layout hash) t.cells key := Lib.Probing.view_eq_none_iff.mp hv

/-- A key not stored may be set into any bucket of its window that no
never-used bucket precedes. -/
theorem TableInv.setBucket (h : t.TableInv hash) (hkey : Usable key) (hvalue : value ≠ NONE)
    (habs : t.view hash key = none) {i : ℕ} (hi : i < min lockSize t.capacity)
    (hfill : t.Filled hash key i) :
    (t.setBucket (t.window hash key i) key value now).TableInv hash where
  probing := by
    rw [cells_setBucket _ hkey]
    exact h.probing.write (h.absent habs) hi hfill.not_empty value
  nonNull s hs hu := by
    by_cases he : s = t.window hash key i
    · subst he
      simpa [LinearProbingApprox.setBucket] using hvalue
    · simp only [LinearProbingApprox.setBucket, put_buckets, Function.update_of_ne he] at hu ⊢
      exact h.nonNull s hs hu

theorem InsertsFresh.inv {r : Inserted} (hr : t.InsertsFresh hash key value evKey now r)
    (h : t.TableInv hash) (hkey : Usable key) (hvalue : value ≠ NONE)
    (habs : t.view hash key = none) : r.table.TableInv hash := by
  cases hr with
  | vacant hi hfill _ => exact h.setBucket hkey hvalue habs hi hfill
  | evicted hi hfull _ =>
      exact h.setBucket hkey hvalue habs hi fun j hj => hfull j (Nat.lt_trans hj hi)
  | refused _ => exact h
  | dropped _ _ => exact h

theorem view_vacant (h : t.TableInv hash) (hkey : Usable key)
    (habs : t.view hash key = none) {i : ℕ} (hi : i < min lockSize t.capacity)
    (hfill : t.Filled hash key i) (hvac : ¬ Usable (t.buckets (t.window hash key i)).key) :
    (t.setBucket (t.window hash key i) key value now).view hash =
      Function.update (t.view hash) key (some value) := by
  show Lib.Probing.view (t.layout hash) (t.setBucket _ key value now).cells = _
  rw [cells_setBucket _ hkey]
  exact Lib.Probing.view_fill h.probing (h.absent habs) hi (by simp; omega) hfill.not_empty
    (fun k' v' hc => hvac (cell_eq_full.mp hc).1) value

theorem view_evicted (h : t.TableInv hash) (hkey : Usable key)
    (habs : t.view hash key = none) {i : ℕ} (hi : i < min lockSize t.capacity)
    (hfull : t.Filled hash key (min lockSize t.capacity)) :
    (t.setBucket (t.window hash key i) key value now).view hash =
      Function.update (Function.update (t.view hash)
        (t.buckets (t.window hash key i)).key none) key (some value) := by
  show Lib.Probing.view (t.layout hash) (t.setBucket _ key value now).cells = _
  rw [cells_setBucket _ hkey]
  exact Lib.Probing.view_replace h.probing (h.absent habs) hi (by simp; omega)
    (fun j hj => hfull.not_empty j (Nat.lt_trans hj hi)) (cell_of_usable (hfull i hi)) value

theorem InsertsFresh.step {r : Inserted} (hr : t.InsertsFresh hash key value evKey now r)
    (h : t.TableInv hash) (hcap : lockSize ≤ t.capacity) (hkey : Usable key)
    (habs : t.view hash key = none) {prevTryLock : Bool} :
    MapStep (t.view hash) (.insert key value evKey now prevTryLock)
      (.inserted r.ret r.evKey r.evValue) (r.table.view hash) := by
  cases hr with
  | vacant hi hfill hvac =>
      rw [view_vacant h hkey habs hi hfill hvac]
      exact .added habs
  | @evicted i hi hfull hbusy =>
      have hlt : t.window hash key i < t.capacity := window_lt (by omega) key i
      have hview := h.view_of_bucket hlt (hfull i hi)
      rw [view_evicted h hkey habs hi hfull]
      refine .replaced habs (fun he => ?_) hview (h.nonNull _ hlt (hfull i hi))
      change (t.buckets _).key = key at he
      rw [he, habs] at hview
      cases hview
  | refused _ => exact .refused habs
  | dropped _ hlt => omega

/-- `Insert` after a delete that found the key, and after one that did not. -/
theorem insert_cases (h : t.TableInv hash) (hkey : Usable key) (value : Value) (evKey : Key)
    (now : BitVec 32) (prevTryLock : Bool) :
    (∃ old, t.view hash key = some old ∧ t.insert hash key value evKey now prevTryLock =
      .ok ⟨(t.delete hash key).1, 0, evKey, old⟩) ∨
    (t.view hash key = none ∧ ∃ r, t.insert hash key value evKey now prevTryLock = .ok r ∧
      t.InsertsFresh hash key value evKey now r) := by
  rw [insert]
  rcases delete_cases h hkey with ⟨slot, hs, hk, hv, hd⟩ | ⟨hv, hd⟩
  · have hne : (t.buckets slot).value ≠ NONE := h.nonNull slot hs (by rw [hk]; exact hkey)
    refine Or.inl ⟨_, hv, ?_⟩
    rw [hd]
    exact if_pos hne
  · refine Or.inr ⟨hv, ?_⟩
    rw [hd]
    obtain ⟨r, hr, hins⟩ := insertFresh_inserts (t := t) hkey value evKey now prevTryLock
    exact ⟨r, (if_neg (not_not.mpr rfl)).trans hr, hins⟩

end Insert

/-! ## The refinement -/

/-- `Evict` that returns has buried a bucket and hands out what was in it. -/
theorem call_evict {draws : List EvictDraw} {t' : LinearProbingApprox} {r : TableRet}
    (hr : t.call hash (.evict draws) = .ok (t', r)) :
    ∃ slot, t.Evictable slot ∧ t' = t.bury slot ∧ (t.buckets slot).value ≠ NONE ∧
      r = .evicted (t.buckets slot).key (t.buckets slot).value := by
  rw [call] at hr
  cases he : t.evict INVALID draws with
  | error e =>
      rw [he] at hr
      cases hr
  | ok p =>
      obtain ⟨table, key, value⟩ := p
      rw [he] at hr
      cases hr
      obtain ⟨slot, hslot, rfl, rfl, rfl, hne⟩ := evict_ok he
      exact ⟨slot, hslot, rfl, hne, rfl⟩

theorem call_inv (h : t.TableInv hash) {c : TableCall} (hc : c.WellFormed)
    {t' : LinearProbingApprox} {r : TableRet} (hr : t.call hash c = .ok (t', r)) :
    t'.TableInv hash := by
  cases c with
  | insert key value evKey now prevTryLock =>
      rcases insert_cases h hc.1 value evKey now prevTryLock with
        ⟨old, -, hi⟩ | ⟨habs, ins, hi, hins⟩
      · simp only [call, hi, Except.map] at hr
        cases hr
        exact h.delete hc.1
      · simp only [call, hi, Except.map] at hr
        cases hr
        exact hins.inv h hc.1 hc.2 habs
  | delete key =>
      cases hr
      exact h.delete hc
  | get key now =>
      cases hr
      exact (h.get hc now).1
  | getWithFlag key busy now =>
      cases hr
      exact (h.getWithFlag hc busy now).1
  | evict draws =>
      obtain ⟨slot, -, rfl, -⟩ := call_evict hr
      exact h.bury slot

/-- One call of a table with the invariant is a step of the map. -/
theorem call_mapStep (h : t.TableInv hash) (hcap : lockSize ≤ t.capacity) {c : TableCall}
    (hc : c.WellFormed) {t' : LinearProbingApprox} {r : TableRet}
    (hr : t.call hash c = .ok (t', r)) :
    MapStep (t.view hash) c r (t'.view hash) := by
  cases c with
  | insert key value evKey now prevTryLock =>
      rcases insert_cases h hc.1 value evKey now prevTryLock with
        ⟨old, hv, hi⟩ | ⟨habs, ins, hi, hins⟩
      · simp only [call, hi, Except.map] at hr
        cases hr
        rw [h.view_delete hc.1]
        exact .removed hv (h.view_ne_none hv)
      · simp only [call, hi, Except.map] at hr
        cases hr
        exact hins.step h hcap hc.1 habs
  | delete key =>
      cases hr
      rw [h.view_delete hc, h.delete_value hc]
      exact .delete key
  | get key now =>
      cases hr
      rw [(h.get hc now).2.1, (h.get hc now).2.2]
      exact .get key now
  | getWithFlag key busy now =>
      cases hr
      rw [(h.getWithFlag hc busy now).2.1, (h.getWithFlag hc busy now).2.2]
      cases busy with
      | true => exact .flag key now
      | false => exact .unflag key now
  | evict draws =>
      obtain ⟨slot, ⟨hs, hu, -⟩, rfl, hne, rfl⟩ := call_evict hr
      rw [h.view_bury hs hu]
      exact .evict (h.view_of_bucket hs hu) hne

/-- No call throws, and every call but `Evict` returns. -/
theorem call_returns (h : t.TableInv hash) (hcap : lockSize ≤ t.capacity) {c : TableCall}
    (hc : c.WellFormed) :
    (∃ p, t.call hash c = .ok p) ∨
      (∃ draws, c = .evict draws ∧ t.call hash c = .error .retrying) := by
  cases c with
  | insert key value evKey now prevTryLock =>
      rcases insert_cases h hc.1 value evKey now prevTryLock with
        ⟨old, -, hi⟩ | ⟨-, ins, hi, -⟩
      · exact Or.inl ⟨_, by rw [call, hi]; rfl⟩
      · exact Or.inl ⟨_, by rw [call, hi]; rfl⟩
  | delete key => exact Or.inl ⟨_, rfl⟩
  | get key now => exact Or.inl ⟨_, rfl⟩
  | getWithFlag key busy now => exact Or.inl ⟨_, rfl⟩
  | evict draws =>
      cases he : t.evict INVALID draws with
      | ok p => exact Or.inl ⟨_, by rw [call, he]; rfl⟩
      | error e =>
          cases e with
          | retrying => exact Or.inr ⟨draws, rfl, by rw [call, he]; rfl⟩
          | runtimeError what =>
              exact absurd he (evictRetry_safe hcap
                (fun slot hslot => h.nonNull slot hslot.1 hslot.2.1) draws _ _ _
                (fun v hv => by cases hv))

theorem call_capacity (h : t.TableInv hash) {c : TableCall} (hc : c.WellFormed)
    {t' : LinearProbingApprox} {r : TableRet} (hr : t.call hash c = .ok (t', r)) :
    t'.capacity = t.capacity := by
  have hdel : ∀ key, Usable key → (t.delete hash key).1.capacity = t.capacity := by
    intro key hkey
    rcases delete_cases h hkey with ⟨slot, -, -, -, hd⟩ | ⟨-, hd⟩
    · rw [hd]
      rfl
    · rw [hd]
  have hlook : ∀ (found : ℕ → LinearProbingApprox × Value) (key : Key), Usable key →
      (∀ slot, (found slot).1.capacity = t.capacity) →
      (t.lookup found hash key).1.capacity = t.capacity := by
    intro found key hkey hfound
    rcases (lookup_scanned found key).cases h hkey with ⟨slot, -, -, -, hd⟩ | ⟨-, hd⟩
    · rw [hd]
      exact hfound slot
    · rw [hd]
  cases c with
  | insert key value evKey now prevTryLock =>
      rcases insert_cases h hc.1 value evKey now prevTryLock with
        ⟨old, -, hi⟩ | ⟨-, ins, hi, hins⟩
      · simp only [call, hi, Except.map] at hr
        cases hr
        exact hdel key hc.1
      · simp only [call, hi, Except.map] at hr
        cases hr
        cases hins <;> rfl
  | delete key =>
      cases hr
      exact hdel key hc
  | get key now =>
      cases hr
      exact hlook _ key hc fun slot => rfl
  | getWithFlag key busy now =>
      cases hr
      refine hlook _ key hc fun slot => ?_
      cases busy <;> rfl
  | evict draws =>
      obtain ⟨slot, -, rfl, -⟩ := call_evict hr
      rfl

/-- The valid buckets form the map `view`, and every call acts on it as
`MapStep` says; only `Evict` may go on retrying. -/
structure RefinesMap (t : LinearProbingApprox) (hash : Key → ℕ) : Prop where
  once : ∀ s < t.capacity, ∀ s' < t.capacity, t.isValidBucket s → t.isValidBucket s' →
    (t.buckets s).key = (t.buckets s').key → s = s'
  stored : ∀ k v, t.view hash k = some v ↔ ∃ slot < t.capacity,
    t.isValidBucket slot ∧ (t.buckets slot).key = k ∧ (t.buckets slot).value = v
  acts : ∀ c : TableCall, c.WellFormed → ∀ t' r, t.call hash c = .ok (t', r) →
    MapStep (t.view hash) c r (t'.view hash)
  returns : ∀ c : TableCall, c.WellFormed → (∃ p, t.call hash c = .ok p) ∨
    ∃ draws, c = .evict draws ∧ t.call hash c = .error .retrying

theorem TableInv.refinesMap (h : t.TableInv hash) (hcap : lockSize ≤ t.capacity) :
    t.RefinesMap hash where
  once s hs s' hs' hu _ hk := h.slot_unique hs hs' (isValidBucket_iff.mp hu) hk
  stored k v := by simpa only [isValidBucket_iff] using h.view_eq_some_iff
  acts _ hc _ _ hr := call_mapStep h hcap hc hr
  returns _ hc := call_returns h hcap hc

end LinearProbingApprox

/-- Runs of returning calls on a table of the given capacity. -/
def tableSystem (hash : Key → ℕ) (capacity : ℕ) : System LinearProbingApprox TableCall where
  init t := t = LinearProbingApprox.new capacity
  step t c := (t.call hash c).toOption.map Prod.fst

open LinearProbingApprox in
theorem tableSystem_step {hash : Key → ℕ} {capacity : ℕ} {t t' : LinearProbingApprox}
    {c : TableCall} (h : (tableSystem hash capacity).step t c = some t') :
    ∃ r, t.call hash c = .ok (t', r) := by
  simp only [tableSystem, Option.map_eq_some_iff] at h
  obtain ⟨⟨t₁, r⟩, hp, rfl⟩ := h
  cases hc : t.call hash c with
  | error e => simp [hc, Except.toOption] at hp
  | ok p =>
      simp only [hc, Except.toOption, Option.some.injEq] at hp
      exact ⟨r, by rw [hp]⟩

/-- In every run of well-formed calls the invariant holds and the capacity
stays. -/
theorem tableSystem_inv {hash : Key → ℕ} {capacity : ℕ} {calls : List TableCall}
    {t : LinearProbingApprox} (hwf : ∀ c ∈ calls, c.WellFormed)
    (hrun : (tableSystem hash capacity).exec (.new capacity) calls = some t) :
    t.TableInv hash ∧ t.capacity = capacity := by
  refine System.exec_invariant (P := fun _ c => c.WellFormed)
    (I := fun t => t.TableInv hash ∧ t.capacity = capacity)
    ?_ ⟨LinearProbingApprox.new_inv capacity, rfl⟩
    (System.meets_of_mem _ _ fun c hc _ => hwf c hc) hrun
  rintro s c s' ⟨hinv, hcap⟩ hc hstep
  obtain ⟨r, hr⟩ := tableSystem_step hstep
  exact ⟨LinearProbingApprox.call_inv hinv hc hr,
    (LinearProbingApprox.call_capacity hinv hc hr).trans hcap⟩

/-- From the empty table on, the table is a finite map with eviction. -/
theorem table_refines_map (hash : Key → ℕ) {capacity : ℕ} (hcap : 16 ≤ capacity)
    {calls : List TableCall} (hwf : ∀ c ∈ calls, c.WellFormed) {t : LinearProbingApprox}
    (hrun : (tableSystem hash capacity).exec (.new capacity) calls = some t) :
    (LinearProbingApprox.new capacity).view hash = (fun _ => none) ∧ t.RefinesMap hash := by
  obtain ⟨hinv, hcapacity⟩ := tableSystem_inv hwf hrun
  refine ⟨LinearProbingApprox.view_new capacity, hinv.refinesMap ?_⟩
  rw [hcapacity]
  exact hcap

/-- Two keys whose windows overlap, the first of them deleted, the second
updated twice. -/
def overlapCalls : List TableCall :=
  [.insert 1 100 INVALID 5 true, .insert 17 200 INVALID 6 true, .delete 1,
   .insert 17 300 INVALID 7 true, .insert 17 300 INVALID 8 true, .get 17 9]

theorem table_refines_map_overlap :
    ∃ t, (tableSystem BitVec.toNat 16).exec (.new 16) overlapCalls = some t ∧
      t.view BitVec.toNat 17 = some 300 ∧ t.RefinesMap BitVec.toNat := by
  have hview : ((tableSystem BitVec.toNat 16).exec (.new 16) overlapCalls).map
      (fun t => t.view BitVec.toNat 17) = some (some 300) := by decide +kernel
  obtain ⟨t, hrun, ht⟩ := Option.map_eq_some_iff.mp hview
  exact ⟨t, hrun, ht, (table_refines_map _ (by decide) (by decide) hrun).2⟩

end CleancacheRdma.Daemon
