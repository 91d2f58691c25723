import Mathlib
import CleancacheRdma.Lib.LastMin
import CleancacheRdma.Daemon.HashTable.Refine

/-!
# The victim of a full window

`Insert` looks for the smallest timestamp in one lock range at a time and keeps
the victim of one previous range only. A window of 16 buckets meets up to three
ranges, since the array may end in half a range; and where the previous range
has the mutex that `Insert` already holds, its `try_lock` fails. The buckets
before `firstProbe` are then left out of the choice.
-/

namespace CleancacheRdma.Daemon.LinearProbingApprox

open Lib (Ctl LastMin)
open Lib.Loop

variable {t : LinearProbingApprox} {hash : Key → ℕ} {key : Key}

/-! ## Where the lock ranges of a window begin -/

/-- A probe that begins a lock range begins at an aligned bucket, or at the
start of the array. -/
theorem edge_iff {capacity loc j : ℕ} (hcap : lockSize ≤ capacity) (hloc : loc < capacity)
    (hj : j < lockSize) :
    (loc + j) % capacity % lockSize = 0 ↔
      (loc + j < capacity ∧ (loc + j) % lockSize = 0) ∨ loc + j = capacity := by
  by_cases hlt : loc + j < capacity
  · rw [Nat.mod_eq_of_lt hlt]
    constructor
    · intro h
      exact Or.inl ⟨hlt, h⟩
    · rintro (⟨-, h⟩ | h)
      · exact h
      · exact absurd h (Nat.ne_of_lt hlt)
  · have hge : capacity ≤ loc + j := Nat.le_of_not_lt hlt
    have hwrap : loc + j - capacity < lockSize := by omega
    have hmod : (loc + j) % capacity = loc + j - capacity := by
      rw [Nat.mod_eq_sub_mod hge, Nat.mod_eq_of_lt (Nat.lt_of_lt_of_le hwrap hcap)]
    rw [hmod, Nat.mod_eq_of_lt hwrap]
    omega

/-- Two adjacent ranges of a window have one mutex exactly when the table is a
single range. -/
theorem same_lock_iff {capacity loc j : ℕ} (hcap : lockSize ≤ capacity) (hloc : loc < capacity)
    (hj : j + 1 < lockSize) (hedge : (loc + (j + 1)) % capacity % lockSize = 0) :
    (loc + j) % capacity / lockSize = (loc + (j + 1)) % capacity / lockSize ↔
      capacity = lockSize := by
  have h16 : lockSize = 16 := rfl
  rcases (edge_iff hcap hloc hj).mp hedge with ⟨hlt, hmod⟩ | hend
  · rw [h16] at hmod
    rw [h16, Nat.mod_eq_of_lt hlt, Nat.mod_eq_of_lt (by omega)]
    omega
  · have hlast : loc + j = capacity - 1 := by omega
    rw [h16, hend, Nat.mod_self, hlast, Nat.mod_eq_of_lt (by omega)]
    omega

/-- The last two lock ranges among the first `n` probes begin at `prev` and at
`start`; they are one where no second range has begun. -/
structure Ranges (edge : ℕ → Prop) (prev start n : ℕ) : Prop where
  start_lt : start < n
  start_edge : start = 0 ∨ edge start
  prev_edge : prev = 0 ∨ edge prev
  prev_lt : prev < start ∨ (prev = 0 ∧ start = 0)
  only : ∀ j, prev < j → j < n → edge j → j = start

/-- The first probe whose bucket `Insert` chooses from. -/
def firstProbe (capacity loc : ℕ) : ℕ :=
  if capacity = lockSize then
    (lockSize - loc) % lockSize
  else if capacity % lockSize = 8 ∧ capacity < loc + lockSize ∧ loc + 8 < capacity then
    capacity - 8 - loc
  else 0

/-- With one thread the `try_lock` of the previous range fails only on the
mutex that the thread holds itself. -/
def soloTryLock (t : LinearProbingApprox) : Bool := decide (t.capacity ≠ lockSize)

theorem firstProbe_lt {capacity loc : ℕ} :
    firstProbe capacity loc < lockSize := by
  have h16 : lockSize = 16 := rfl
  rw [firstProbe]
  split
  · exact Nat.mod_lt _ (by decide)
  · split <;> omega

theorem Ranges.unique {edge : ℕ → Prop} {prev start prev' start' n : ℕ}
    (h : Ranges edge prev start n) (h' : Ranges edge prev' start' n) :
    prev = prev' ∧ start = start' := by
  have hstart : start = start' := by
    rcases Nat.lt_trichotomy start start' with hlt | heq | hgt
    · have hedge := h'.start_edge.resolve_left (by omega)
      exact (h.only start' (by have := h.prev_lt; omega) h'.start_lt hedge).symm
    · exact heq
    · have hedge := h.start_edge.resolve_left (by omega)
      exact h'.only start (by have := h'.prev_lt; omega) h.start_lt hedge
  subst hstart
  refine ⟨?_, rfl⟩
  have hlt := h.prev_lt
  have hlt' := h'.prev_lt
  have hn := h.start_lt
  rcases Nat.lt_trichotomy prev prev' with hgt | heq | hgt
  · have hedge := h'.prev_edge.resolve_left (by omega)
    have := h.only prev' hgt (by omega) hedge
    omega
  · exact heq
  · have hedge := h.prev_edge.resolve_left (by omega)
    have := h'.only prev hgt (by omega) hedge
    omega

/-- At the end of a window the ranges still known begin at `firstProbe`. -/
theorem Ranges.first_eq {capacity loc prev start : ℕ} (h8 : 8 ∣ capacity)
    (hcap : lockSize ≤ capacity) (hloc : loc < capacity)
    (h : Ranges (fun j => (loc + j) % capacity % lockSize = 0) prev start lockSize) :
    (if capacity ≠ lockSize then prev else start) = firstProbe capacity loc := by
  have h16 : lockSize = 16 := rfl
  have hedge := fun j (hj : j < lockSize) => edge_iff hcap hloc hj
  have hstart := h.start_edge.imp_right (hedge start h.start_lt).mp
  have hprev : prev = 0 ∨ (loc + prev < capacity ∧ (loc + prev) % lockSize = 0) ∨
      loc + prev = capacity := by
    have hlt : prev < lockSize := by
      have := h.prev_lt
      have := h.start_lt
      omega
    exact h.prev_edge.imp_right (hedge prev hlt).mp
  have honly : ∀ j, prev < j → j < lockSize →
      ((loc + j < capacity ∧ (loc + j) % lockSize = 0) ∨ loc + j = capacity) → j = start :=
    fun j hgt hlt he => h.only j hgt hlt ((hedge j hlt).mpr he)
  have hlt := h.prev_lt
  have hbound := h.start_lt
  rw [firstProbe]
  rw [h16] at hstart hprev honly hbound hcap ⊢
  by_cases hone : capacity = 16
  · rw [if_neg (not_not.mpr hone), if_pos hone]
    have hwrap := honly (16 - loc)
    omega
  · rw [if_pos hone, if_neg hone]
    -- half a range at the end of the array: its two ends are edges
    have hhalf := honly (capacity - 8 - loc)
    have hwrap := honly (capacity - loc)
    split <;> omega

/-! ## What the locals know -/

/-- The timestamp of the `i`-th bucket of the window. -/
def age (t : LinearProbingApprox) (hash : Key → ℕ) (key : Key) (i : ℕ) : ℕ :=
  (t.buckets (t.window hash key i)).timestamp.toNat

/-- A victim and its timestamp are those of the probes from `lo` to `hi`. -/
def Tracks (t : LinearProbingApprox) (hash : Key → ℕ) (key : Key) (lo hi : ℕ)
    (min : BitVec 32) : Option ℕ → Prop
  | none => hi ≤ lo ∧ min = -1
  | some victim => ∃ i, LastMin (t.age hash key) lo hi i ∧ victim = t.window hash key i ∧
      min.toNat = t.age hash key i

theorem Tracks.insertMin {s : InsertState} {start : ℕ} (hle : start ≤ s.i)
    (h : t.Tracks hash key start s.i s.minTimestamp s.victimSlot) :
    t.Tracks hash key start (s.i + 1) (t.insertMin (t.window hash key s.i) s).minTimestamp
      (t.insertMin (t.window hash key s.i) s).victimSlot := by
  rw [LinearProbingApprox.insertMin]
  cases hs : s.victimSlot with
  | none =>
      rw [hs] at h
      obtain ⟨hge, hmin⟩ := h
      -- the initial value `-1` is the largest timestamp
      have hmax : (t.buckets (t.window hash key s.i)).timestamp ≤ s.minTimestamp := by
        rw [hmin, BitVec.le_def]
        exact Nat.le_of_lt_succ (t.buckets (t.window hash key s.i)).timestamp.isLt
      rw [if_pos hmax]
      obtain rfl := Nat.le_antisymm hle hge
      exact ⟨s.i, LastMin.single _ s.i, rfl, rfl⟩
  | some victim =>
      rw [hs] at h
      obtain ⟨i, hlast, rfl, hmin⟩ := h
      by_cases hage : (t.buckets (t.window hash key s.i)).timestamp ≤ s.minTimestamp
      · rw [if_pos hage]
        rw [BitVec.le_def, hmin] at hage
        exact ⟨s.i, hlast.replace hage, rfl, rfl⟩
      · rw [if_neg hage, hs]
        rw [BitVec.le_def, hmin] at hage
        exact ⟨i, hlast.keep (Nat.lt_of_not_le hage), rfl, hmin⟩

/-- The choice at the end of the window: the last of the oldest buckets among
those of both ranges, or of the current range alone. -/
theorem insertFull_chooses (value : Value) (evKey : Key) (now : BitVec 32) (prevTryLock : Bool)
    {s : InsertState} {prev start n : ℕ} (hfilled : t.Filled hash key n) (hstart : start < n)
    (hprev : start ≤ prev → prev = start)
    (hcur : t.Tracks hash key start n s.minTimestamp s.victimSlot)
    (hold : t.Tracks hash key prev start s.prevMinTimestamp s.prevVictimSlot) :
    ∃ i, LastMin (t.age hash key) (if prevTryLock = true then prev else start) n i ∧
      t.insertFull key value evKey now prevTryLock s =
        t.evictVictim key value (t.window hash key i) now := by
  cases hs : s.victimSlot with
  | none =>
      rw [hs] at hcur
      exact absurd hcur.1 (Nat.not_le_of_gt hstart)
  | some victim =>
      rw [hs] at hcur
      obtain ⟨c, hc, rfl, hcmin⟩ := hcur
      have hcurrent : t.insertCur key value now s =
          t.evictVictim key value (t.window hash key c) now := by
        rw [insertCur, hs]
      rw [insertFull]
      cases hp : s.prevVictimSlot with
      | none =>
          rw [hp] at hold
          refine ⟨c, ?_, hcurrent⟩
          rw [hprev hold.1, ite_self]
          exact hc
      | some victim =>
          rw [hp] at hold
          obtain ⟨p, hpl, rfl, hpmin⟩ := hold
          dsimp only
          by_cases hlt : s.prevMinTimestamp < s.minTimestamp
          · rw [if_pos hlt]
            rw [BitVec.lt_def, hpmin, hcmin] at hlt
            by_cases htry : prevTryLock = true
            · rw [if_pos htry, if_pos htry]
              refine ⟨p, hpl.join_left hc hlt, ?_⟩
              have hvalid := hfilled p (Nat.lt_trans hpl.lt hstart)
              rw [isVacantBucket_false.mpr hvalid, if_neg Bool.false_ne_true]
            · rw [if_neg htry, if_neg htry]
              exact ⟨c, hc, hcurrent⟩
          · rw [if_neg hlt]
            rw [BitVec.lt_def, hpmin, hcmin] at hlt
            refine ⟨c, ?_, hcurrent⟩
            by_cases htry : prevTryLock = true
            · rw [if_pos htry]
              exact hpl.join_right hc hlt
            · rw [if_neg htry]
              exact hc

/-! ## The loops -/

/-- The probe begins a lock range. -/
def Edge (t : LinearProbingApprox) (hash : Key → ℕ) (key : Key) (i : ℕ) : Prop :=
  t.window hash key i % lockSize = 0

/-- The bucket a full window makes `Insert` evict: the last of the oldest ones
of the last two ranges, or of the last one without the other's lock. -/
def Victim (t : LinearProbingApprox) (hash : Key → ℕ) (key : Key) (prevTryLock : Bool)
    (i : ℕ) : Prop :=
  ∃ prev start, Ranges (t.Edge hash key) prev start lockSize ∧
    LastMin (t.age hash key) (if prevTryLock = true then prev else start) lockSize i

theorem Victim.unique {prevTryLock : Bool} {i i' : ℕ} (h : t.Victim hash key prevTryLock i)
    (h' : t.Victim hash key prevTryLock i') : i = i' := by
  obtain ⟨prev, start, hranges, hlast⟩ := h
  obtain ⟨prev', start', hranges', hlast'⟩ := h'
  obtain ⟨rfl, rfl⟩ := hranges.unique hranges'
  exact hlast.unique hlast'

theorem Victim.lt {prevTryLock : Bool} {i : ℕ} (h : t.Victim hash key prevTryLock i) :
    i < lockSize := by
  obtain ⟨_, _, _, hlast⟩ := h
  exact hlast.lt

/-- Everything `Insert` does with a key that its duplicate check did not find,
be it a reserved pattern. -/
inductive Decides (t : LinearProbingApprox) (hash : Key → ℕ) (key : Key) (value : Value)
    (evKey : Key) (now : BitVec 32) (prevTryLock : Bool) : Except Stop Inserted → Prop where
  /-- the first vacant bucket is marked with the key itself -/
  | duplicated {i : ℕ} : i < min lockSize t.capacity → t.Filled hash key i →
      ¬ Usable (t.buckets (t.window hash key i)).key →
      (t.buckets (t.window hash key i)).key = key →
      Decides t hash key value evKey now prevTryLock
        (.error (.runtimeError "LPA::key is duplicated"))
  /-- the first vacant bucket takes the pair -/
  | vacant {i : ℕ} : i < min lockSize t.capacity → t.Filled hash key i →
      ¬ Usable (t.buckets (t.window hash key i)).key →
      (t.buckets (t.window hash key i)).key ≠ key →
      Decides t hash key value evKey now prevTryLock
        (.ok ⟨t.setBucket (t.window hash key i) key value now, 0, evKey, NONE⟩)
  /-- the window is full -/
  | victim {i : ℕ} : lockSize ≤ t.capacity → t.Filled hash key lockSize →
      t.Victim hash key prevTryLock i →
      Decides t hash key value evKey now prevTryLock
        (t.evictVictim key value (t.window hash key i) now)
  /-- a table shorter than a window is full -/
  | dropped : t.capacity < lockSize → t.Filled hash key t.capacity →
      Decides t hash key value evKey now prevTryLock (.ok ⟨t, 0, evKey, NONE⟩)

/-- What the loops know of the last two ranges, begun at `prev` and `start`. -/
structure Known (t : LinearProbingApprox) (hash : Key → ℕ) (key : Key) (prev start : ℕ)
    (s : InsertState) : Prop where
  le_max : s.i ≤ MAX_PROBING_LEN
  filled : t.Filled hash key s.i
  cur : t.Tracks hash key start s.i s.minTimestamp s.victimSlot
  old : t.Tracks hash key prev start s.prevMinTimestamp s.prevVictimSlot

/-- At the head of the inner loop a bucket of the range is probed. -/
def Within (t : LinearProbingApprox) (hash : Key → ℕ) (key : Key) (s : InsertState) : Prop :=
  s.i < t.capacity ∧ ∃ prev start, t.Known hash key prev start s ∧
    Ranges (t.Edge hash key) prev start (s.i + 1)

/-- At the head of the outer loop a range begins, if there are buckets left. -/
structure Entering (t : LinearProbingApprox) (hash : Key → ℕ) (key : Key) (s : InsertState) :
    Prop where
  le_max : s.i ≤ MAX_PROBING_LEN
  filled : t.Filled hash key s.i
  within : s.i < t.capacity → t.Within hash key s

/-- Behind the inner loop the range has ended at an edge or with the array. -/
def Leaving (t : LinearProbingApprox) (hash : Key → ℕ) (key : Key) (s : InsertState) : Prop :=
  ∃ prev start, t.Known hash key prev start s ∧ Ranges (t.Edge hash key) prev start s.i ∧
    (s.i < t.capacity → t.Edge hash key s.i)

theorem entering_init : t.Entering hash key {} where
  le_max := Nat.zero_le _
  filled := t.filled_zero key
  within hcap := ⟨hcap, 0, 0, ⟨Nat.zero_le _, t.filled_zero key, ⟨le_refl 0, rfl⟩, ⟨le_refl 0, rfl⟩⟩,
    ⟨Nat.one_pos, Or.inl rfl, Or.inl rfl, Or.inr ⟨rfl, rfl⟩, fun _ hgt hlt _ =>
      absurd (Nat.lt_one_iff.mp hlt) (Nat.ne_of_gt hgt)⟩⟩

theorem Leaving.shift {s : InsertState} (h : t.Leaving hash key s) (lockIdx : ℕ) :
    t.Entering hash key (s.shift lockIdx) := by
  obtain ⟨prev, start, hknown, hranges, hedge⟩ := h
  refine ⟨hknown.le_max, hknown.filled, fun hcap => ⟨hcap, start, s.i, ?_, ?_⟩⟩
  · exact ⟨hknown.le_max, hknown.filled, ⟨le_refl s.i, rfl⟩, hknown.cur⟩
  · refine ⟨Nat.lt_succ_self s.i, Or.inr (hedge hcap), hranges.start_edge,
      Or.inl hranges.start_lt, ?_⟩
    intro j hgt hlt hj
    rcases Nat.lt_succ_iff_lt_or_eq.mp hlt with hbefore | heq
    · -- an edge after `start` would have ended the range
      have hprev : prev ≤ start := by
        have := hranges.prev_lt
        omega
      exact absurd (hranges.only j (Nat.lt_of_le_of_lt hprev hgt) hbefore hj) (Nat.ne_of_gt hgt)
    · exact heq

/-- What a probe owes: it decides, or the range ends, or it goes on. -/
theorem insertProbe_decides (value : Value) (evKey : Key) (now : BitVec 32) (prevTryLock : Bool)
    {s : InsertState} (hs : t.Within hash key s) :
    InnerOwes (t.Leaving hash key) (t.Within hash key) (fun s => t.capacity - s.i)
      (t.Decides hash key value evKey now prevTryLock) s
      (t.insertProbe key value evKey now prevTryLock (t.getHashedKey hash key) s) := by
  obtain ⟨hcap, prev, start, hknown, hranges⟩ := hs
  have h16 : lockSize = MAX_PROBING_LEN + 1 := rfl
  have hle := hknown.le_max
  have hreach : s.i < min lockSize t.capacity := by omega
  simp only [insertProbe]
  by_cases hvac : t.isVacantBucket (t.window hash key s.i) = true
  · rw [if_pos (by exact hvac)]
    have hnot : ¬ Usable (t.buckets (t.window hash key s.i)).key := by
      rw [← isVacantBucket_false, hvac]
      exact Bool.noConfusion
    by_cases hkey : (t.buckets (t.window hash key s.i)).key = key
    · rw [if_pos (by exact hkey)]
      exact .duplicated hreach hknown.filled hnot hkey
    · rw [if_neg (by exact hkey)]
      exact .vacant hreach hknown.filled hnot hkey
  · rw [if_neg (by exact hvac)]
    have hfilled := hknown.filled.succ (isVacantBucket_false.mp (Bool.eq_false_iff.mpr hvac))
    have hcur := hknown.cur.insertMin (Nat.le_of_lt_succ hranges.start_lt)
    have hold : t.Tracks hash key prev start
        (t.insertMin (t.window hash key s.i) s).prevMinTimestamp
        (t.insertMin (t.window hash key s.i) s).prevVictimSlot := by
      rw [insertMin]
      split <;> exact hknown.old
    by_cases hmax : MAX_PROBING_LEN ≤ s.i
    · rw [if_pos hmax]
      -- probe 15 is the last one
      have hend : s.i + 1 = lockSize := by omega
      rw [hend] at hranges hcur hfilled
      have hprev : start ≤ prev → prev = start := by
        have := hranges.prev_lt
        omega
      obtain ⟨i, hi, heq⟩ :=
        insertFull_chooses value evKey now prevTryLock hfilled hranges.start_lt hprev hcur hold
      have hvictim : t.Victim hash key prevTryLock i := ⟨prev, start, hranges, hi⟩
      exact heq ▸ .victim (by omega) hfilled hvictim
    · rw [if_neg hmax]
      have hgap : t.capacity - (s.i + 1) < t.capacity - s.i := by omega
      have hknown' : t.Known hash key prev start
          { t.insertMin (t.window hash key s.i) s with i := s.i + 1 } :=
        ⟨by simp only; omega, hfilled, hcur, hold⟩
      by_cases hnext : s.i + 1 < t.capacity
      · rw [if_neg (not_not.mpr hnext)]
        by_cases hedge : t.window hash key (s.i + 1) % lockSize = 0
        · rw [if_pos (by exact hedge)]
          exact ⟨⟨prev, start, hknown', hranges, fun _ => hedge⟩, hgap⟩
        · rw [if_neg (by exact hedge)]
          refine ⟨⟨hnext, prev, start, hknown', ?_⟩, hgap⟩
          refine ⟨Nat.lt_succ_of_lt hranges.start_lt, hranges.start_edge, hranges.prev_edge,
            hranges.prev_lt, fun j hgt hlt hj => ?_⟩
          rcases Nat.lt_succ_iff_lt_or_eq.mp hlt with hbefore | rfl
          · exact hranges.only j hgt hbefore hj
          · exact absurd hj hedge
      · rw [if_pos hnext]
        exact ⟨⟨prev, start, hknown', hranges, fun hlt => absurd hlt hnext⟩, hgap⟩

theorem insertFresh_decides (t : LinearProbingApprox) (hash : Key → ℕ) (key : Key) (value : Value)
    (evKey : Key) (now : BitVec 32) (prevTryLock : Bool) :
    t.Decides hash key value evKey now prevTryLock
      (t.insertFresh hash key value evKey now prevTryLock) := by
  refine result_total (I := t.Entering hash key) (μ := fun s => t.capacity - s.i)
    (Q := t.Decides hash key value evKey now prevTryLock) ?_ entering_init
    (Nat.lt_succ_of_le (Nat.sub_le _ _))
  intro s hs
  rw [insertRange]
  by_cases hcap : s.i < t.capacity
  · have hinner := inner_total (fun s hs => insertProbe_decides value evKey now prevTryLock hs)
      (hs.within hcap) (Nat.lt_succ_of_le (Nat.sub_le t.capacity s.i))
    rw [if_pos hcap]
    simp only
    cases hr : result (t.insertProbe key value evKey now prevTryLock
        (t.getHashedKey hash key)) .next (t.capacity + 1) s with
    | out e =>
        rw [hr] at hinner
        exact hinner
    | next s' =>
        rw [hr] at hinner
        exact ⟨hinner.1.shift _, hinner.2⟩
  · rw [if_neg hcap]
    have hle := hs.le_max
    refine .dropped (by simp only [lockSize]; omega) fun j hj => hs.filled j ?_
    omega

/-! ## The victim of a call -/

/-- The same table with other busy flags. -/
def flagged (t : LinearProbingApprox) (busy : ℕ → Bool) : LinearProbingApprox :=
  { t with buckets := fun slot => { t.buckets slot with busy := busy slot } }

/-- With one thread, `Insert` has to evict and comes to `victim`, whatever the
busy flags are. -/
def Selects (t : LinearProbingApprox) (hash : Key → ℕ) (key : Key) (victim : ℕ) : Prop :=
  ∀ (busy : ℕ → Bool) (value : Value) (evKey : Key) (now : BitVec 32),
    (t.flagged busy).insert hash key value evKey now t.soloTryLock =
      (t.flagged busy).evictVictim key value victim now

/-- A full window without the key: what makes `Insert` evict. -/
structure Crowded (t : LinearProbingApprox) (hash : Key → ℕ) (key : Key) : Prop where
  full : t.Filled hash key lockSize
  absent : ∀ i < lockSize, (t.buckets (t.window hash key i)).key ≠ key

instance : Decidable (t.Crowded hash key) :=
  decidable_of_iff ((∀ i < lockSize, Usable (t.buckets (t.window hash key i)).key) ∧
      ∀ i < lockSize, (t.buckets (t.window hash key i)).key ≠ key)
    ⟨fun h => ⟨h.1, h.2⟩, fun h => ⟨h.full, h.absent⟩⟩

theorem Crowded.flagged (h : t.Crowded hash key) (busy : ℕ → Bool) :
    (t.flagged busy).Crowded hash key := ⟨h.full, h.absent⟩

/-- The duplicate check finds nothing. -/
theorem Crowded.delete (h : t.Crowded hash key) : t.delete hash key = (t, NONE) := by
  rcases t.delete_scanned key with ⟨i, hhit, -⟩ | ⟨-, hmiss⟩
  · exact absurd hhit.2.1 (h.absent i (Nat.lt_of_lt_of_le hhit.1 (Nat.min_le_left _ _)))
  · exact hmiss

/-- With one thread the victim is the last of the oldest buckets from
`firstProbe` on. -/
theorem Victim.lastMin {i : ℕ} (h8 : 8 ∣ t.capacity) (hcap : lockSize ≤ t.capacity)
    (h : t.Victim hash key t.soloTryLock i) :
    LastMin (t.age hash key) (firstProbe t.capacity (t.getHashedKey hash key)) lockSize i := by
  obtain ⟨prev, start, hranges, hlast⟩ := h
  have hloc : t.getHashedKey hash key < t.capacity :=
    Nat.mod_lt _ (Nat.lt_of_lt_of_le (by decide) hcap)
  rw [← hranges.first_eq h8 hcap hloc]
  simpa only [soloTryLock, decide_eq_true_eq] using hlast

theorem insert_chosen (value : Value) (evKey : Key) (now : BitVec 32) (h8 : 8 ∣ t.capacity)
    (hcap : lockSize ≤ t.capacity) (h : t.Crowded hash key) :
    ∃ i, LastMin (t.age hash key) (firstProbe t.capacity (t.getHashedKey hash key)) lockSize i ∧
      t.insert hash key value evKey now t.soloTryLock =
        t.evictVictim key value (t.window hash key i) now := by
  have hdecides := t.insertFresh_decides hash key value evKey now t.soloTryLock
  rw [insert, h.delete, if_neg (not_not.mpr rfl)]
  generalize t.insertFresh hash key value evKey now t.soloTryLock = e at hdecides ⊢
  have hfull : ∀ i < min lockSize t.capacity, Usable (t.buckets (t.window hash key i)).key :=
    fun i hi => h.full i (Nat.lt_of_lt_of_le hi (Nat.min_le_left _ _))
  cases hdecides with
  | duplicated hi _ hnot _ => exact absurd (hfull _ hi) hnot
  | vacant hi _ hnot _ => exact absurd (hfull _ hi) hnot
  | victim _ _ hvictim => exact ⟨_, hvictim.lastMin h8 hcap, rfl⟩
  | dropped hlt _ => exact absurd hcap (Nat.not_le_of_gt hlt)

/-- Which bucket an eviction has replaced can be read off the table. -/
theorem evictVictim_inj {value : Value} {now : BitVec 32} {victim i : ℕ}
    (hidle : ∀ slot, (t.buckets slot).busy = false) (h : t.Crowded hash key) (hi : i < lockSize)
    (heq : t.evictVictim key value victim now =
      t.evictVictim key value (t.window hash key i) now) : victim = t.window hash key i := by
  by_contra hne
  rw [evictVictim, evictVictim, hidle, hidle, if_neg Bool.false_ne_true,
    if_neg Bool.false_ne_true, collEvict, collEvict, if_neg (h.full i hi).1] at heq
  split at heq
  · cases heq
  · have htable := congrArg Inserted.table (Except.ok.inj heq)
    have hkey := congrArg (fun u => (u.buckets (t.window hash key i)).key) htable
    simp only [setBucket, put_buckets, Function.update_self,
      Function.update_of_ne (Ne.symm hne)] at hkey
    exact h.absent i hi hkey

/-- Exactly one bucket is selected, and `LastMin` says which. -/
theorem selects_iff (h8 : 8 ∣ t.capacity) (hcap : lockSize ≤ t.capacity)
    (h : t.Crowded hash key) :
    ∃ i, LastMin (t.age hash key) (firstProbe t.capacity (t.getHashedKey hash key)) lockSize i ∧
      ∀ victim, t.Selects hash key victim ↔ victim = t.window hash key i := by
  obtain ⟨i, hi, -⟩ := insert_chosen 0 0 0 h8 hcap h
  refine ⟨i, hi, fun victim => ⟨fun hselects => ?_, ?_⟩⟩
  · -- with no flag set the call replaces the bucket
    set u := t.flagged (fun _ => false)
    obtain ⟨i', hi', heq⟩ := insert_chosen (t := u) 0 0 0 h8 hcap (h.flagged _)
    rw [← hi.unique hi'] at heq
    exact evictVictim_inj (t := u) (fun _ => rfl) (h.flagged _) hi.lt
      ((hselects (fun _ => false) 0 0 0).symm.trans heq)
  · rintro rfl busy value evKey now
    obtain ⟨i', hi', heq⟩ :=
      insert_chosen value evKey now (t := t.flagged busy) h8 hcap (h.flagged busy)
    rw [hi.unique hi']
    exact heq

/-! ## When the victim is the least recently used bucket -/

/-- No bucket of the window is older. -/
def LeastRecent (t : LinearProbingApprox) (hash : Key → ℕ) (key : Key) (victim : ℕ) : Prop :=
  ∀ j < lockSize, (t.buckets victim).timestamp ≤ (t.buckets (t.window hash key j)).timestamp

/-- Every bucket that is left out has one at least as old among the others. -/
def OldestConsidered (t : LinearProbingApprox) (hash : Key → ℕ) (key : Key) : Prop :=
  ∀ j < firstProbe t.capacity (t.getHashedKey hash key),
    ∃ i, firstProbe t.capacity (t.getHashedKey hash key) ≤ i ∧ i < lockSize ∧
      (t.buckets (t.window hash key i)).timestamp ≤ (t.buckets (t.window hash key j)).timestamp

/-- Where a window with all its buckets valid makes `Insert` evict, the bucket
it selects is least recent exactly when no strictly older one is left out. -/
theorem victim_leastRecent_iff (h8 : 8 ∣ t.capacity) (hcap : lockSize ≤ t.capacity)
    (h : t.Crowded hash key) :
    ∃ slot, (∀ victim, t.Selects hash key victim ↔ victim = slot) ∧
      (t.LeastRecent hash key slot ↔ t.OldestConsidered hash key) := by
  obtain ⟨i, hi, hselects⟩ := selects_iff h8 hcap h
  refine ⟨t.window hash key i, hselects, Iff.trans hi.least_iff ?_⟩
  constructor
  · intro hall j hj
    exact hall j (Nat.lt_trans hj firstProbe_lt)
  · intro hleft j hj
    by_cases hfirst : j < firstProbe t.capacity (t.getHashedKey hash key)
    · exact hleft j hfirst
    · exact ⟨j, Nat.le_of_not_lt hfirst, hj, le_refl _⟩

/-- Buckets 10 to 15 are filled in second 1, buckets 16 to 23, 0 and 1 in second 2. -/
def halfRangeCalls : List TableCall :=
  (List.range 16).map fun i =>
    .insert (BitVec.ofNat 64 (10 + i)) 100 INVALID (if i < 6 then 1 else 2) true

/-- What the calls lead to, in a table of one and a half ranges. -/
theorem halfRange_run : ∃ t, (tableSystem BitVec.toNat 24).exec (.new 24) halfRangeCalls = some t ∧
    t.capacity = 24 ∧ t.Crowded BitVec.toNat 34 ∧ LastMin (t.age BitVec.toNat 34) 6 16 15 ∧
    (t.buckets 10).timestamp < (t.buckets 1).timestamp := by
  have hmap : ((tableSystem BitVec.toNat 24).exec (.new 24) halfRangeCalls).map (fun t =>
      decide (t.capacity = 24 ∧ t.Crowded BitVec.toNat 34 ∧
        LastMin (t.age BitVec.toNat 34) 6 16 15 ∧
        (t.buckets 10).timestamp < (t.buckets 1).timestamp)) = some true := by decide +kernel
  obtain ⟨t, hrun, ht⟩ := Option.map_eq_some_iff.mp hmap
  exact ⟨t, hrun, of_decide_eq_true ht⟩

theorem victim_leastRecent_iff_halfRange :
    ∃ t, (tableSystem BitVec.toNat 24).exec (.new 24) halfRangeCalls = some t ∧
      ∃ slot, (∀ victim, t.Selects BitVec.toNat 34 victim ↔ victim = slot) ∧
        (t.LeastRecent BitVec.toNat 34 slot ↔ t.OldestConsidered BitVec.toNat 34) := by
  obtain ⟨t, hrun, hcap, hcrowded, -, -⟩ := halfRange_run
  exact ⟨t, hrun, victim_leastRecent_iff (hcap ▸ by decide) (hcap ▸ by decide) hcrowded⟩

/-- The window of key 34 begins at bucket 10 and meets three ranges; the newest
bucket of the last one is evicted. -/
theorem victim_not_leastRecent :
    ∃ t, (tableSystem BitVec.toNat 24).exec (.new 24) halfRangeCalls = some t ∧
      8 ∣ t.capacity ∧ lockSize ≤ t.capacity ∧ t.Crowded BitVec.toNat 34 ∧
      t.Selects BitVec.toNat 34 1 ∧ ¬ t.LeastRecent BitVec.toNat 34 1 := by
  obtain ⟨t, hrun, hcap, hcrowded, hlast, holder⟩ := halfRange_run
  have h8 : 8 ∣ t.capacity := hcap ▸ by decide
  have h16 : lockSize ≤ t.capacity := hcap ▸ by decide
  have hwindow : ∀ i, t.window BitVec.toNat 34 i = (10 + i) % 24 := by
    intro i
    rw [window, getHashedKey, hcap]
    rfl
  refine ⟨t, hrun, h8, h16, hcrowded, ?_, ?_⟩
  · obtain ⟨i, hi, hselects⟩ := selects_iff h8 h16 hcrowded
    rw [getHashedKey, hcap] at hi
    rw [hselects, hi.unique hlast, hwindow]
  · intro hleast
    have hle := hleast 0 (by decide)
    rw [hwindow] at hle
    exact absurd holder (BitVec.not_lt.mpr hle)

end CleancacheRdma.Daemon.LinearProbingApprox
