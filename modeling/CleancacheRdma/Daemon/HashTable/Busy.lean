import CleancacheRdma.Daemon.HashTable.Refine

/-!
# The busy flag

An inclusive get is two calls of the table: `GetWithFlag(key, true)` and, if
that found a page, `GetWithFlag(key, false)` after the page has been sent. The
flag belongs to the bucket and not to the key: `Delete` leaves it on the
tombstone and `SetBucket` takes it over. A run leaks no flag as long as no
`Insert` fills such a bucket.
-/

namespace CleancacheRdma.Daemon

open Lib (System)

/-! ## Gets in flight -/

/-- A table and, per key, the gets between their two calls. -/
structure FlagState where
  table : LinearProbingApprox
  readers : Key → ℕ

namespace FlagState

/-- The second call of a get follows a first one that found a page. -/
def track (readers : Key → ℕ) : TableCall → TableRet → Option (Key → ℕ)
  | .getWithFlag key true _, .value v =>
      if v = NONE then some readers
      else some (Function.update readers key (readers key + 1))
  | .getWithFlag key false _, _ =>
      if readers key = 0 then none
      else some (Function.update readers key (readers key - 1))
  | _, _ => some readers

/-- A valid bucket whose key has no get in flight is not busy. -/
def NoLeak (s : FlagState) : Prop :=
  ∀ slot < s.table.capacity, s.table.isValidBucket slot →
    s.readers (s.table.buckets slot).key = 0 → (s.table.buckets slot).busy = false

instance (s : FlagState) : Decidable s.NoLeak := by
  unfold NoLeak
  infer_instance

end FlagState

/-- Calls on one table, gets being followed through their two calls. -/
def flagSystem (hash : Key → ℕ) (capacity : ℕ) : System FlagState TableCall where
  init s := s = ⟨.new capacity, fun _ => 0⟩
  step s c :=
    (s.table.call hash c).toOption.bind fun p =>
      (FlagState.track s.readers c p.2).map fun readers => ⟨p.1, readers⟩

theorem flagSystem_step {hash : Key → ℕ} {capacity : ℕ} {s s' : FlagState} {c : TableCall}
    (h : (flagSystem hash capacity).step s c = some s') :
    ∃ r, s.table.call hash c = .ok (s'.table, r) ∧
      FlagState.track s.readers c r = some s'.readers := by
  simp only [flagSystem, Option.bind_eq_some_iff, Option.map_eq_some_iff] at h
  obtain ⟨⟨t, r⟩, hp, readers, hr, rfl⟩ := h
  cases hc : s.table.call hash c with
  | error e => simp [hc, Except.toOption] at hp
  | ok p =>
      simp only [hc, Except.toOption, Option.some.injEq] at hp
      exact ⟨r, by rw [hp], hr⟩

/-! ## Flags held by readers -/

namespace LinearProbingApprox

variable {t : LinearProbingApprox} {hash : Key → ℕ} {readers : Key → ℕ}

/-- Every busy valid bucket has a reader of its key. -/
def Held (t : LinearProbingApprox) (readers : Key → ℕ) : Prop :=
  ∀ slot < t.capacity, Usable (t.buckets slot).key → (t.buckets slot).busy = true →
    0 < readers (t.buckets slot).key

theorem new_held (capacity : ℕ) : (new capacity).Held readers :=
  fun _ _ h => absurd rfl h.1

theorem Held.put (h : t.Held readers) {slot : ℕ} {b : LPABkt}
    (hb : Usable b.key → b.busy = true → 0 < readers b.key) : (t.put slot b).Held readers := by
  intro s hs
  by_cases he : s = slot
  · subst he
    simpa only [put_buckets, Function.update_self] using hb
  · simpa only [put_buckets, Function.update_of_ne he] using h s hs

theorem Held.bury (h : t.Held readers) (slot : ℕ) : (t.bury slot).Held readers :=
  h.put fun hu => absurd rfl hu.2

/-- `SetBucket` takes the flag of the bucket over. -/
theorem Held.setBucket (h : t.Held readers) {slot : ℕ} {key : Key} {value : Value}
    {now : BitVec 32} (hb : (t.buckets slot).busy = true → 0 < readers key) :
    (t.setBucket slot key value now).Held readers :=
  h.put fun _ => hb

theorem Held.join (h : t.Held readers) (key : Key) :
    t.Held (Function.update readers key (readers key + 1)) := by
  intro s hs hu hb
  by_cases hk : (t.buckets s).key = key
  · rw [hk, Function.update_self]
    exact Nat.succ_pos _
  · rw [Function.update_of_ne hk]
    exact h s hs hu hb

/-- Readers of a key may leave once none of its buckets is busy. -/
theorem Held.leave (h : t.Held readers) {key : Key} (n : ℕ)
    (hclear : ∀ slot < t.capacity, Usable (t.buckets slot).key →
      (t.buckets slot).key = key → (t.buckets slot).busy = false) :
    t.Held (Function.update readers key n) := by
  intro s hs hu hb
  by_cases hk : (t.buckets s).key = key
  · rw [hclear s hs hu hk] at hb
    cases hb
  · rw [Function.update_of_ne hk]
    exact h s hs hu hb

theorem Held.delete (h : t.Held readers) (hinv : t.TableInv hash) {key : Key}
    (hkey : Usable key) : (t.delete hash key).1.Held readers := by
  rcases delete_cases hinv hkey with ⟨slot, -, -, -, hd⟩ | ⟨-, hd⟩
  · rw [hd]
    exact h.bury slot
  · rw [hd]
    exact h

/-- The first call of a get: its reader joins with the flag. -/
theorem Held.flag (h : t.Held readers) (hinv : t.TableInv hash) {key : Key}
    (hkey : Usable key) (now : BitVec 32) :
    (t.getWithFlag hash key true now).1.Held
      (if (t.getWithFlag hash key true now).2 = NONE then readers
        else Function.update readers key (readers key + 1)) := by
  rcases (lookup_scanned (t.flagBucket true now) key).cases hinv hkey with
    ⟨slot, hs, hk, -, hr⟩ | ⟨-, hr⟩
  · have hvalue : (t.buckets slot).value ≠ NONE := hinv.nonNull slot hs (by rw [hk]; exact hkey)
    rw [getWithFlag, hr]
    simp only [flagBucket, if_true, if_neg hvalue]
    refine (h.join key).put fun _ _ => ?_
    rw [show ({ t.buckets slot with busy := true, timestamp := now } : LPABkt).key = key
      from hk, Function.update_self]
    exact Nat.succ_pos _
  · rw [getWithFlag, hr]
    exact h

/-- The second call of a get: the flag of its key is clear, so it may leave. -/
theorem Held.unflag (h : t.Held readers) (hinv : t.TableInv hash) {key : Key}
    (hkey : Usable key) (now : BitVec 32) (n : ℕ) :
    (t.getWithFlag hash key false now).1.Held (Function.update readers key n) := by
  rcases (lookup_scanned (t.flagBucket false now) key).cases hinv hkey with
    ⟨slot, hs, hk, -, hr⟩ | ⟨hnone, hr⟩
  · rw [getWithFlag, hr]
    refine (h.put fun _ hb => by cases hb).leave n fun s hlt hu hkey' => ?_
    by_cases he : s = slot
    · subst he
      simp
    · simp only [put_buckets, Function.update_of_ne he] at hu hkey'
      exact absurd (hinv.slot_unique hlt hs hu (by rw [hkey', hk])) he
  · rw [getWithFlag, hr]
    refine h.leave n fun s hlt hu hkey' => ?_
    have hview := hinv.view_of_bucket hlt hu
    rw [hkey', hnone] at hview
    cases hview

/-! ## The condition on inserts -/

instance (key : Key) (n : ℕ) : Decidable (t.Filled hash key n) := by
  unfold Filled
  infer_instance

/-- An `Insert` of a key not stored, whose place is the first vacant bucket of
its window: either the flag of that bucket is clear or the key has a get in
flight, which will clear it. -/
def FillsClear (t : LinearProbingApprox) (hash : Key → ℕ) (readers : Key → ℕ) (key : Key) :
    Prop :=
  t.view hash key = none → ∀ i < min lockSize t.capacity, t.Filled hash key i →
    ¬ Usable (t.buckets (t.window hash key i)).key →
    (t.buckets (t.window hash key i)).busy = true → 0 < readers key

instance (key : Key) : Decidable (t.FillsClear hash readers key) := by
  unfold FillsClear
  infer_instance

theorem Held.insertFresh (h : t.Held readers) {key : Key} {value : Value} {evKey : Key}
    {now : BitVec 32} {r : Inserted} (hr : t.InsertsFresh hash key value evKey now r)
    (hnone : t.view hash key = none) (hclear : t.FillsClear hash readers key) :
    r.table.Held readers := by
  cases hr with
  | vacant hi hfill hvac => exact h.setBucket (hclear hnone _ hi hfill hvac)
  | evicted hi _ hbusy =>
      refine h.setBucket fun hb => ?_
      rw [hbusy] at hb
      cases hb
  | refused _ => exact h
  | dropped _ _ => exact h

end LinearProbingApprox

namespace FlagState

open LinearProbingApprox

/-- Every `Insert` meets `FillsClear` in the state it is called in. -/
def Clear (hash : Key → ℕ) (s : FlagState) : TableCall → Prop
  | .insert key _ _ _ _ => s.table.FillsClear hash s.readers key
  | _ => True

instance (hash : Key → ℕ) (s : FlagState) : ∀ c : TableCall, Decidable (s.Clear hash c)
  | .insert key _ _ _ _ => inferInstanceAs (Decidable (s.table.FillsClear hash s.readers key))
  | .delete _ => isTrue trivial
  | .get _ _ => isTrue trivial
  | .getWithFlag _ _ _ => isTrue trivial
  | .evict _ => isTrue trivial

structure Inv (hash : Key → ℕ) (s : FlagState) : Prop where
  table : s.table.TableInv hash
  held : s.table.Held s.readers

theorem Inv.noLeak {hash : Key → ℕ} {s : FlagState} (h : s.Inv hash) : s.NoLeak := by
  intro slot hs hvalid hnone
  by_contra hb
  have := h.held slot hs (isValidBucket_iff.mp hvalid) (by simpa using hb)
  omega

theorem Inv.step {hash : Key → ℕ} {capacity : ℕ} {s s' : FlagState} {c : TableCall}
    (h : s.Inv hash) (hwf : c.WellFormed) (hclear : s.Clear hash c)
    (hstep : (flagSystem hash capacity).step s c = some s') : s'.Inv hash := by
  obtain ⟨r, hcall, htrack⟩ := flagSystem_step hstep
  refine ⟨call_inv h.table hwf hcall, ?_⟩
  obtain ⟨t', readers'⟩ := s'
  cases c with
  | insert key value evKey now prevTryLock =>
      obtain rfl : s.readers = readers' := by simpa [track] using htrack
      rcases insert_cases h.table hwf.1 value evKey now prevTryLock with
        ⟨old, -, hi⟩ | ⟨hnone, ins, hi, hins⟩
      · simp only [call, hi, Except.map, Except.ok.injEq, Prod.mk.injEq] at hcall
        rw [← hcall.1]
        exact h.held.delete h.table hwf.1
      · simp only [call, hi, Except.map, Except.ok.injEq, Prod.mk.injEq] at hcall
        rw [← hcall.1]
        exact h.held.insertFresh hins hnone hclear
  | delete key =>
      obtain rfl : s.readers = readers' := by simpa [track] using htrack
      simp only [call, Except.ok.injEq, Prod.mk.injEq] at hcall
      rw [← hcall.1]
      exact h.held.delete h.table hwf
  | get key now =>
      obtain rfl : s.readers = readers' := by simpa [track] using htrack
      simp only [call, Except.ok.injEq, Prod.mk.injEq] at hcall
      rw [← hcall.1]
      rcases (lookup_scanned (s.table.touchBucket now) key).cases h.table hwf with
        ⟨slot, hs, -, -, hr⟩ | ⟨-, hr⟩
      · rw [LinearProbingApprox.get, hr]
        exact h.held.put (h.held slot hs)
      · rw [LinearProbingApprox.get, hr]
        exact h.held
  | getWithFlag key busy now =>
      simp only [call, Except.ok.injEq, Prod.mk.injEq] at hcall
      obtain ⟨ht, rfl⟩ := hcall
      rw [← ht]
      cases busy with
      | true =>
          have hheld := h.held.flag h.table hwf now
          simp only [track] at htrack
          split at htrack
          next hv => rwa [if_pos hv, Option.some.inj htrack] at hheld
          next hv => rwa [if_neg hv, Option.some.inj htrack] at hheld
      | false =>
          simp only [track, Option.ite_none_left_eq_some, Option.some.injEq] at htrack
          rw [← htrack.2]
          exact h.held.unflag h.table hwf now _
  | evict draws =>
      obtain rfl : s.readers = readers' := by simpa [track] using htrack
      obtain ⟨slot, -, rfl, -⟩ := call_evict hcall
      exact h.held.bury slot

end FlagState

/-! ## Runs -/

/-- In a run whose inserts all meet `Clear`, no flag is ever leaked. -/
theorem busy_flag_no_leak (hash : Key → ℕ) (capacity : ℕ) {calls : List TableCall}
    (hwf : ∀ c ∈ calls, c.WellFormed) {s : FlagState}
    (hclear : (flagSystem hash capacity).Meets (FlagState.Clear hash)
      ⟨.new capacity, fun _ => 0⟩ calls)
    (hrun : (flagSystem hash capacity).exec ⟨.new capacity, fun _ => 0⟩ calls = some s) :
    s.NoLeak := by
  have hinit : FlagState.Inv hash ⟨.new capacity, fun _ => 0⟩ :=
    ⟨LinearProbingApprox.new_inv capacity, LinearProbingApprox.new_held capacity⟩
  refine (System.exec_invariant (P := fun s c => c.WellFormed ∧ s.Clear hash c)
    (fun s c s' h hok => h.step hok.1 hok.2) hinit ?_ hrun).noLeak
  exact System.meets_and (System.meets_of_mem _ _ fun c hc _ => hwf c hc) hclear

/-- A page is deleted and put back while one get of it is in flight, and the
bucket is filled by another key once the flag is clear. -/
def clearCalls : List TableCall :=
  [.insert 1 100 INVALID 5 true, .getWithFlag 1 true 6, .delete 1,
   .insert 1 200 INVALID 7 true, .getWithFlag 1 false 8, .delete 1,
   .insert 17 300 INVALID 9 true]

theorem busy_flag_no_leak_reinserted :
    ∃ s, (flagSystem BitVec.toNat 16).exec ⟨.new 16, fun _ => 0⟩ clearCalls = some s ∧
      (s.table.buckets 1).key = 17 ∧ s.NoLeak := by
  have hkey : ((flagSystem BitVec.toNat 16).exec ⟨.new 16, fun _ => 0⟩ clearCalls).map
      (fun s => (s.table.buckets 1).key) = some 17 := by decide +kernel
  obtain ⟨s, hrun, hs⟩ := Option.map_eq_some_iff.mp hkey
  exact ⟨s, hrun, hs, busy_flag_no_leak _ 16 (by decide) (by decide +kernel) hrun⟩

/-- A page is deleted while a get of it is in flight and another key fills its
bucket; the second call of the get does not find its key any more. -/
def leakCalls : List TableCall :=
  [.insert 1 100 INVALID 5 true, .getWithFlag 1 true 6, .delete 1,
   .insert 17 200 INVALID 7 true, .getWithFlag 1 false 8]

/-- After the run no get at all is in flight, and the bucket of key 17 stays
busy. -/
theorem busy_flag_leaks :
    (∀ c ∈ leakCalls, c.WellFormed) ∧
      ∃ s, (flagSystem BitVec.toNat 16).exec ⟨.new 16, fun _ => 0⟩ leakCalls = some s ∧
        ¬ s.NoLeak := by
  refine ⟨by decide, ?_⟩
  have hleak : ((flagSystem BitVec.toNat 16).exec ⟨.new 16, fun _ => 0⟩ leakCalls).map
      (fun s => decide s.NoLeak) = some false := by decide +kernel
  obtain ⟨s, hrun, hs⟩ := Option.map_eq_some_iff.mp hleak
  exact ⟨s, hrun, of_decide_eq_false hs⟩

end CleancacheRdma.Daemon
