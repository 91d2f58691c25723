import Mathlib
import CleancacheRdma.Daemon.HashTable.Interleaved
import CleancacheRdma.Daemon.HashTable.Victim

/-!
# Calls with any key

The daemon checks nothing about a key it receives, so the two patterns that
mark buckets arrive as keys too. A bucket that `Insert` has set to the key
`INVALID` looks never used, but has a value; it hides what lies behind it, and
a key inserted once more in front of it is then stored twice.
-/

namespace CleancacheRdma.Daemon

/-- Keys are any 64 bits, the values stored are not null. -/
def TableCall.NonNull : TableCall → Prop
  | .insert _ value _ _ _ => value ≠ NONE
  | .delete _ | .get _ _ | .getWithFlag _ _ _ | .evict _ => True

instance : DecidablePred TableCall.NonNull
  | .insert _ value _ _ _ => inferInstanceAs (Decidable (value ≠ NONE))
  | .delete _ => isTrue trivial
  | .get _ _ => isTrue trivial
  | .getWithFlag _ _ _ => isTrue trivial
  | .evict _ => isTrue trivial

namespace LinearProbingApprox

variable {t t' : LinearProbingApprox} {hash : Key → ℕ} {key : Key} {value : Value} {evKey : Key}
  {now : BitVec 32} {prevTryLock : Bool}

@[simp] theorem bury_self (slot : ℕ) : ((t.bury slot).buckets slot).key = TOMBSTONE := by
  rw [bury, put_buckets, Function.update_self]

theorem bury_of_ne {slot s : ℕ} (h : s ≠ slot) : (t.bury slot).buckets s = t.buckets s := by
  rw [bury, put_buckets, Function.update_of_ne h]

/-! ## One scan -/

theorem window_inj {i j : ℕ} (hi : i < min lockSize t.capacity) (hj : j < min lockSize t.capacity)
    (h : t.window hash key i = t.window hash key j) : i = j :=
  (t.layout hash).slot_injOn (Nat.lt_of_lt_of_le hi (Nat.min_le_right _ _))
    (Nat.lt_of_lt_of_le hj (Nat.min_le_right _ _)) h

theorem Hit.unique {i j : ℕ} (hi : t.Hit hash key i) (hj : t.Hit hash key j) : i = j := by
  rcases Nat.lt_trichotomy i j with hlt | heq | hgt
  · exact absurd hi.2.1 (hj.2.2 i hlt).1
  · exact heq
  · exact absurd hj.2.1 (hi.2.2 j hgt).1

theorem Miss.not_hit {i : ℕ} (h : t.Miss hash key) : ¬ t.Hit hash key i := by
  rintro ⟨hi, hkey, hpass⟩
  obtain ⟨n, hn, hend⟩ := h
  have hle : n ≤ i := by
    by_contra hlt
    exact (hn i (Nat.lt_of_not_le hlt)).1 hkey
  rcases hend with hreach | ⟨hne, hinv⟩
  · omega
  · rcases Nat.lt_or_eq_of_le hle with hlt | rfl
    · exact (hpass n hlt).2 hinv
    · exact hne hkey

/-- What the duplicate check leaves when `Insert` goes on: the table, or the
bucket it found without a value is marked deleted. -/
inductive Cleared (t : LinearProbingApprox) (hash : Key → ℕ) (key : Key) :
    LinearProbingApprox → Prop where
  | missed : t.Miss hash key → Cleared t hash key t
  | buried {i : ℕ} : t.Hit hash key i → (t.buckets (t.window hash key i)).value = NONE →
      Cleared t hash key (t.bury (t.window hash key i))

/-- `Insert` with any key: it removes what it found and returns, or goes on. -/
theorem insert_any (t : LinearProbingApprox) (hash : Key → ℕ) (key : Key) (value : Value)
    (evKey : Key) (now : BitVec 32) (prevTryLock : Bool) :
    (∃ i, t.Hit hash key i ∧ (t.buckets (t.window hash key i)).value ≠ NONE ∧
      t.insert hash key value evKey now prevTryLock =
        .ok ⟨t.bury (t.window hash key i), 0, evKey, (t.buckets (t.window hash key i)).value⟩) ∨
    ∃ t₁, t.Cleared hash key t₁ ∧ t.insert hash key value evKey now prevTryLock =
      t₁.insertFresh hash key value evKey now prevTryLock := by
  rw [insert]
  rcases @delete_scanned t hash key with ⟨i, hhit, hd⟩ | ⟨hmiss, hd⟩
  · rw [hd]
    by_cases hvalue : (t.buckets (t.window hash key i)).value = NONE
    · exact Or.inr ⟨_, .buried hhit hvalue, if_neg (not_not.mpr hvalue)⟩
    · exact Or.inl ⟨i, hhit, hvalue, if_pos hvalue⟩
  · rw [hd]
    exact Or.inr ⟨t, .missed hmiss, if_neg (not_not.mpr rfl)⟩

/-- A victim is spared, or its bucket is overwritten. -/
theorem evictVictim_cases (slot : ℕ) (hu : Usable (t.buckets slot).key) :
    ((t.buckets slot).busy = true ∧ t.evictVictim key value slot now = .ok ⟨t, -1, key, value⟩) ∨
    ((t.buckets slot).busy = false ∧ t.evictVictim key value slot now =
      .ok ⟨t.setBucket slot key value now, 0, (t.buckets slot).key, (t.buckets slot).value⟩) := by
  rw [evictVictim]
  by_cases hbusy : (t.buckets slot).busy = true
  · rw [if_pos hbusy]
    exact Or.inl ⟨hbusy, rfl⟩
  · rw [if_neg hbusy, collEvict, if_neg hu.1]
    exact Or.inr ⟨Bool.eq_false_iff.mpr hbusy, rfl⟩

/-! ## What holds after any calls -/

/-- Valid buckets have values, and a bucket with the key `INVALID` that has one
is the first such bucket in the window of that key. -/
structure AnyKeys (t : LinearProbingApprox) (hash : Key → ℕ) : Prop where
  sound : t.Sound
  marked : ∀ slot, (t.buckets slot).key = INVALID → (t.buckets slot).value ≠ NONE →
    ∃ i, t.Hit hash INVALID i ∧ slot = t.window hash INVALID i

theorem anyKeys_new (capacity : ℕ) : (new capacity).AnyKeys hash where
  sound _ hu := absurd rfl hu.1
  marked _ _ hvalue := absurd rfl hvalue

/-- A bucket set to a key that is not `INVALID`. -/
theorem AnyKeys.put (h : t.AnyKeys hash) (slot : ℕ) {b : LPABkt} (hkey : b.key ≠ INVALID)
    (hvalue : Usable b.key → b.value ≠ NONE) : (t.put slot b).AnyKeys hash where
  sound := h.sound.put hvalue
  marked s hs hv := by
    by_cases hne : s = slot
    · subst hne
      rw [put_buckets, Function.update_self] at hs
      exact absurd hs hkey
    · rw [put_buckets, Function.update_of_ne hne] at hs hv
      obtain ⟨i, ⟨hi, hk, hpass⟩, rfl⟩ := h.marked s hs hv
      refine ⟨i, ⟨hi, ?_, fun j hj => ?_⟩, rfl⟩
      · show ((t.put slot b).buckets (t.window hash INVALID i)).key = INVALID
        rw [put_buckets, Function.update_of_ne hne]
        exact hk
      · show ((t.put slot b).buckets (t.window hash INVALID j)).key ≠ INVALID ∧
          ((t.put slot b).buckets (t.window hash INVALID j)).key ≠ INVALID
        rw [put_buckets]
        by_cases hj' : t.window hash INVALID j = slot
        · rw [hj', Function.update_self]
          exact ⟨hkey, hkey⟩
        · rw [Function.update_of_ne hj']
          exact hpass j hj

theorem AnyKeys.bury (h : t.AnyKeys hash) (slot : ℕ) : (t.bury slot).AnyKeys hash :=
  h.put slot (by decide : TOMBSTONE ≠ INVALID) fun hu => absurd rfl hu.2

/-- Timestamps and flags are not read. -/
theorem AnyKeys.put_same (h : t.AnyKeys hash) (slot : ℕ) {b : LPABkt}
    (hkey : b.key = (t.buckets slot).key) (hvalue : b.value = (t.buckets slot).value) :
    (t.put slot b).AnyKeys hash := by
  have hsame : ∀ s, ((t.put slot b).buckets s).key = (t.buckets s).key ∧
      ((t.put slot b).buckets s).value = (t.buckets s).value := by
    intro s
    rw [put_buckets]
    by_cases hs : s = slot
    · rw [hs, Function.update_self]
      exact ⟨hkey, hvalue⟩
    · rw [Function.update_of_ne hs]
      exact ⟨rfl, rfl⟩
  constructor
  · intro s hu
    rw [(hsame s).1] at hu
    rw [(hsame s).2]
    exact h.sound s hu
  · intro s hs hv
    rw [(hsame s).1] at hs
    rw [(hsame s).2] at hv
    obtain ⟨i, ⟨hi, hk, hpass⟩, rfl⟩ := h.marked s hs hv
    refine ⟨i, ⟨hi, (hsame _).1.trans hk, fun j hj => ?_⟩, rfl⟩
    show ((t.put slot b).buckets (t.window hash INVALID j)).key ≠ INVALID ∧
      ((t.put slot b).buckets (t.window hash INVALID j)).key ≠ INVALID
    rw [(hsame _).1]
    exact hpass j hj

/-- No bucket with the key `INVALID` has a value. -/
def Unmarked (t : LinearProbingApprox) : Prop :=
  ∀ slot, (t.buckets slot).key = INVALID → (t.buckets slot).value = NONE

/-- Marking the first such bucket deleted leaves none with a value. -/
theorem AnyKeys.unmarked_bury (h : t.AnyKeys hash) {i : ℕ} (hhit : t.Hit hash INVALID i) :
    (t.bury (t.window hash INVALID i)).Unmarked := by
  intro slot hs
  by_contra hv
  have hne : slot ≠ t.window hash INVALID i := by
    rintro rfl
    rw [bury_self] at hs
    exact absurd hs (by decide)
  rw [bury_of_ne hne] at hs hv
  obtain ⟨i', hhit', rfl⟩ := h.marked slot hs hv
  rw [hhit.unique hhit'] at hne
  exact hne rfl

/-- Behind the duplicate check of the key `INVALID` no such bucket has a value. -/
theorem AnyKeys.unmarked (h : t.AnyKeys hash) (hclear : t.Cleared hash INVALID t') :
    t'.Unmarked := by
  cases hclear with
  | missed hmiss =>
      intro slot hs
      by_contra hv
      obtain ⟨i, hhit, -⟩ := h.marked slot hs hv
      exact hmiss.not_hit hhit
  | buried hhit _ => exact h.unmarked_bury hhit

theorem Cleared.anyKeys (hclear : t.Cleared hash key t') (h : t.AnyKeys hash) :
    t'.AnyKeys hash := by
  cases hclear with
  | missed _ => exact h
  | buried _ _ => exact h.bury _

/-- The bucket that takes a pair is the first of its window that is not valid. -/
theorem AnyKeys.setBucket (h : t.AnyKeys hash) (hvalue : value ≠ NONE)
    (hmark : key = INVALID → t.Unmarked) {i : ℕ} (hi : i < min lockSize t.capacity)
    (hfill : t.Filled hash key i) :
    (t.setBucket (t.window hash key i) key value now).AnyKeys hash := by
  by_cases hkey : key = INVALID
  · subst hkey
    refine ⟨h.sound.put fun _ => hvalue, fun slot hs hv => ?_⟩
    by_cases hslot : slot = t.window hash INVALID i
    · refine ⟨i, ⟨hi, ?_, fun j hj => ?_⟩, hslot⟩
      · show ((t.setBucket _ _ _ _).buckets (t.window hash INVALID i)).key = INVALID
        rw [LinearProbingApprox.setBucket, put_buckets, Function.update_self]
      · have hne : t.window hash INVALID j ≠ t.window hash INVALID i := fun heq =>
          Nat.ne_of_lt hj (window_inj (Nat.lt_trans hj hi) hi heq)
        show ((t.setBucket _ _ _ _).buckets (t.window hash INVALID j)).key ≠ INVALID ∧
          ((t.setBucket _ _ _ _).buckets (t.window hash INVALID j)).key ≠ INVALID
        rw [LinearProbingApprox.setBucket, put_buckets, Function.update_of_ne hne]
        exact ⟨(hfill j hj).1, (hfill j hj).1⟩
    · rw [LinearProbingApprox.setBucket, put_buckets, Function.update_of_ne hslot] at hs hv
      exact absurd (hmark rfl slot hs) hv
  · exact h.put _ hkey fun _ => hvalue

theorem insertFresh_anyKeys (h : t.AnyKeys hash) (hvalue : value ≠ NONE)
    (hmark : key = INVALID → t.Unmarked) {r : Inserted}
    (hr : t.insertFresh hash key value evKey now prevTryLock = .ok r) :
    r.table.AnyKeys hash := by
  have hdecides := t.insertFresh_decides hash key value evKey now prevTryLock
  rw [hr] at hdecides
  generalize he : (Except.ok r : Except Stop Inserted) = e at hdecides
  cases hdecides with
  | duplicated _ _ _ _ => cases he
  | vacant hi hfill _ _ =>
      cases he
      exact h.setBucket hvalue hmark hi hfill
  | @victim i hcap hfull hvictim =>
      have hi := hvictim.lt
      rcases evictVictim_cases _ (hfull i hi) with ⟨-, hev⟩ | ⟨-, hev⟩
      · rw [hev] at he
        cases he
        exact h
      · rw [hev] at he
        cases he
        exact h.setBucket hvalue hmark (Nat.lt_min.mpr ⟨hi, Nat.lt_of_lt_of_le hi hcap⟩)
          fun j hj => hfull j (Nat.lt_trans hj hi)
  | dropped _ _ =>
      cases he
      exact h

theorem insert_anyKeys (h : t.AnyKeys hash) (hvalue : value ≠ NONE) {r : Inserted}
    (hr : t.insert hash key value evKey now prevTryLock = .ok r) : r.table.AnyKeys hash := by
  rcases t.insert_any hash key value evKey now prevTryLock with
    ⟨i, -, -, heq⟩ | ⟨t₁, hclear, heq⟩
  · rw [hr] at heq
    cases heq
    exact h.bury _
  · rw [heq] at hr
    refine insertFresh_anyKeys (hclear.anyKeys h) hvalue (fun hkey => ?_) hr
    subst hkey
    exact h.unmarked hclear

theorem lookup_anyKeys (h : t.AnyKeys hash) {found : ℕ → LinearProbingApprox × Value}
    (hfound : ∀ slot, (found slot).1.AnyKeys hash) (key : Key) :
    (t.lookup found hash key).1.AnyKeys hash := by
  rcases @lookup_scanned t hash found key with ⟨i, -, hr⟩ | ⟨-, hr⟩
  · rw [hr]
    exact hfound _
  · rw [hr]
    exact h

theorem call_anyKeys (h : t.AnyKeys hash) {c : TableCall} (hc : c.NonNull) {r : TableRet}
    (hr : t.call hash c = .ok (t', r)) : t'.AnyKeys hash := by
  cases c with
  | insert key value evKey now prevTryLock =>
      cases hins : t.insert hash key value evKey now prevTryLock with
      | error e => simp [call, hins, Except.map] at hr
      | ok ins =>
          simp only [call, hins, Except.map] at hr
          cases hr
          exact insert_anyKeys h hc hins
  | delete key =>
      cases hr
      rcases @delete_scanned t hash key with ⟨i, -, hd⟩ | ⟨-, hd⟩
      · rw [hd]
        exact h.bury _
      · rw [hd]
        exact h
  | get key now =>
      cases hr
      refine lookup_anyKeys h (fun slot => ?_) key
      exact h.put_same slot (b := { t.buckets slot with timestamp := now }) rfl rfl
  | getWithFlag key busy now =>
      cases hr
      refine lookup_anyKeys h (fun slot => ?_) key
      cases busy with
      | true =>
          exact h.put_same slot (b := { t.buckets slot with busy := true, timestamp := now }) rfl rfl
      | false => exact h.put_same slot (b := { t.buckets slot with busy := false }) rfl rfl
  | evict draws =>
      obtain ⟨slot, -, rfl, -⟩ := call_evict hr
      exact h.bury slot

end LinearProbingApprox

/-- Every run of calls from the empty table, whatever the keys. -/
theorem tableSystem_anyKeys {hash : Key → ℕ} {capacity : ℕ} {calls : List TableCall}
    {t : LinearProbingApprox} (hcalls : ∀ c ∈ calls, c.NonNull)
    (hrun : (tableSystem hash capacity).exec (.new capacity) calls = some t) : t.AnyKeys hash := by
  refine Lib.System.exec_invariant (P := fun _ c => c.NonNull) (I := fun t => t.AnyKeys hash)
    ?_ (LinearProbingApprox.anyKeys_new capacity)
    (Lib.System.meets_of_mem _ _ fun c hc _ => hcalls c hc) hrun
  intro s c s' hinv hc hstep
  obtain ⟨r, hr⟩ := tableSystem_step hstep
  exact LinearProbingApprox.call_anyKeys hinv hc hr

end CleancacheRdma.Daemon
