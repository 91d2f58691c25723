import Mathlib
import CleancacheRdma.Daemon.HashTable.Interleaved
import CleancacheRdma.Daemon.HashTable.Victim

/-!
# Probe loops and the mutexes they hold

What `Insert` and `Delete` access in a pass of their outer loops: buckets under
the mutex of the pass, and in a full window the victim of the previous range,
whose mutex `Insert` tries to take again. Between two passes other threads may
leave any contents.
-/

namespace CleancacheRdma.Daemon

open Lib (Ctl)
open Lib.Loop

namespace LinearProbingApprox

/-! ## The mutexes -/

/-- `num_locks` is an `int`. -/
def numLocks (capacity : ℕ) : ℤ := (BitVec.ofNat 32 (capacity / lockSize + 1)).toInt

/-- The length of `mtxs`. The constructor throws where `new[]` is asked for a
negative number of mutexes or for more bytes of buckets than a `size_t` holds. -/
def newMutexes (capacity : ℕ) : Option ℕ :=
  if 24 * capacity < 2 ^ 64 ∧ 0 ≤ numLocks capacity then some (numLocks capacity).toNat else none

/-! ## Accesses -/

/-- A bucket read or written under the mutex of the current range, or one that
the mutex of the previous range is tried for. -/
inductive Access where
  | cur (slot : ℕ)
  | prev (lockIdx : Option ℕ) (slot : ℕ)
deriving DecidableEq

def Access.slot : Access → ℕ
  | .cur slot | .prev _ slot => slot

variable (t : LinearProbingApprox)

/-- Of one probe of `Delete`. -/
def deleteAccesses (loc i : ℕ) : List Access := [.cur ((loc + i) % t.capacity)]

def curAccesses (s : InsertState) : List Access :=
  match s.victimSlot with
  | none => []
  | some victimSlot => [.cur victimSlot]

/-- Of `insertFull`. -/
def fullAccesses (prevTryLock : Bool) (s : InsertState) : List Access :=
  match s.prevVictimSlot with
  | none => curAccesses s
  | some prevVictimSlot =>
      if s.prevMinTimestamp < s.minTimestamp then
        .prev s.prevLockIdx prevVictimSlot :: if prevTryLock then [] else curAccesses s
      else
        curAccesses s

/-- Of one probe of `Insert`. -/
def insertAccesses (prevTryLock : Bool) (loc : ℕ) (s : InsertState) : List Access :=
  let slot := (loc + s.i) % t.capacity
  .cur slot ::
    if t.isVacantBucket slot then []
    else if MAX_PROBING_LEN ≤ s.i then fullAccesses prevTryLock (t.insertMin slot s)
    else []

/-! ## Sections -/

/-- One pass of an outer loop: the mutex it takes, the buckets its probes visit
and all it accesses. -/
structure Section where
  lockIdx : ℕ
  visited : List ℕ
  accesses : List Access

def deleteSection (key : Key) (loc i : ℕ) : Section :=
  let probes := heads (t.deleteProbe key loc) (t.capacity + 1) i
  { lockIdx := (loc + i) % t.capacity / lockSize
    visited := probes.map fun j => (loc + j) % t.capacity
    accesses := probes.flatMap (t.deleteAccesses loc) }

def insertSection (key : Key) (value : Value) (evKey : Key) (now : BitVec 32)
    (prevTryLock : Bool) (loc : ℕ) (s : InsertState) : Section :=
  let probes := heads (t.insertProbe key value evKey now prevTryLock loc) (t.capacity + 1) s
  { lockIdx := (loc + s.i) % t.capacity / lockSize
    visited := probes.map fun s' => (loc + s'.i) % t.capacity
    accesses := probes.flatMap (t.insertAccesses prevTryLock loc) }

/-- The sections of an outer loop with the passes `range`, of which the last one
may find `i` at the capacity and takes no mutex. -/
def sections {α σ : Type} (capacity : ℕ) (i : σ → ℕ) (range : ℕ → σ → Ctl α σ)
    (sec : ℕ → σ → Section) (n : ℕ) (h : ℕ × σ) : List Section :=
  ((heads (staged range) n h).filter fun h => i h.2 < capacity).map fun h => sec h.1 h.2

/-- The sections of `Delete`, the `k`-th one on the contents `contents k`. -/
def deleteSections (capacity : ℕ) (contents : ℕ → ℕ → LPABkt) (key : Key) (loc : ℕ) :
    List Section :=
  sections capacity (fun i => i)
    (fun k => (LinearProbingApprox.mk capacity (contents k)).deleteRange key loc)
    (fun k => (LinearProbingApprox.mk capacity (contents k)).deleteSection key loc)
    (capacity + 1) (0, 0)

/-- The sections of `Insert` after its duplicate check. -/
def insertSections (capacity : ℕ) (contents : ℕ → ℕ → LPABkt) (key : Key) (value : Value)
    (evKey : Key) (now : BitVec 32) (prevTryLock : Bool) (loc : ℕ) : List Section :=
  sections capacity InsertState.i
    (fun k => (LinearProbingApprox.mk capacity (contents k)).insertRange key value evKey now
      prevTryLock loc)
    (fun k => (LinearProbingApprox.mk capacity (contents k)).insertSection key value evKey now
      prevTryLock loc) (capacity + 1) (0, {})

/-! ## Inside the mutexes -/

/-- The bucket is of the range of the mutex held for it; `prev` is the mutex of
the section before. -/
def Access.Inside (mutexes lockIdx : ℕ) (prev : Option ℕ) : Access → Prop
  | .cur slot => slot / lockSize = lockIdx
  | .prev idx slot => idx = some (slot / lockSize) ∧ prev = idx ∧ slot / lockSize ≠ lockIdx ∧
      slot / lockSize < mutexes

def InsideFrom (mutexes : ℕ) : Option ℕ → List Section → Prop
  | _, [] => True
  | prev, sec :: rest =>
      sec.lockIdx < mutexes ∧ (∀ a ∈ sec.accesses, a.Inside mutexes sec.lockIdx prev) ∧
        InsideFrom mutexes (some sec.lockIdx) rest

/-- The sections access what their mutexes guard, and visit the buckets from
`loc` on, 16 at most and none of them twice. -/
structure StaysInside (mutexes capacity loc : ℕ) (secs : List Section) : Prop where
  inside : InsideFrom mutexes none secs
  visited : ∃ n ≤ MAX_PROBING_LEN + 1,
    secs.flatMap Section.visited = (List.range n).map (fun i => (loc + i) % capacity)
  nodup : (secs.flatMap Section.visited).Nodup

/-! ## A bucket that is not accessed -/

section Frame

variable {t} {key : Key} {value : Value} {evKey : Key} {now : BitVec 32} {prevTryLock : Bool}
  {loc slot : ℕ} {b : LPABkt}

def Inserted.put (r : Inserted) (slot : ℕ) (b : LPABkt) : Inserted :=
  { r with table := r.table.put slot b }

theorem put_comm {slot' : ℕ} (h : slot' ≠ slot) (b' : LPABkt) :
    (t.put slot b).put slot' b' = (t.put slot' b').put slot b := by
  rw [put, put, put, put]
  exact congrArg (LinearProbingApprox.mk t.capacity) (Function.update_comm h b' b t.buckets).symm

theorem bury_put {slot' : ℕ} (h : slot' ≠ slot) :
    (t.put slot b).bury slot' = (t.bury slot').put slot b := by
  rw [bury, put_buckets, Function.update_of_ne h, put_comm h, bury]

theorem setBucket_put {slot' : ℕ} (h : slot' ≠ slot) :
    (t.put slot b).setBucket slot' key value now = (t.setBucket slot' key value now).put slot b := by
  rw [setBucket, put_buckets, Function.update_of_ne h, put_comm h, setBucket]

theorem deleteProbe_put {i : ℕ} (h : ∀ a ∈ t.deleteAccesses loc i, a.slot ≠ slot) :
    (t.put slot b).deleteProbe key loc i =
      (t.deleteProbe key loc i).map (Ctl.map fun r => (r.1.put slot b, r.2)) := by
  have hne : (loc + i) % t.capacity ≠ slot := h _ (List.mem_singleton_self _)
  simp only [deleteProbe, put_capacity, put_buckets, Function.update_of_ne hne, bury_put hne]
  by_cases hkey : (t.buckets ((loc + i) % t.capacity)).key = key
  · rw [if_pos hkey, if_pos hkey]
    rfl
  rw [if_neg hkey, if_neg hkey]
  by_cases hinvalid : (t.buckets ((loc + i) % t.capacity)).key = INVALID
  · rw [if_pos hinvalid, if_pos hinvalid]
    rfl
  rw [if_neg hinvalid, if_neg hinvalid]
  by_cases hmax : MAX_PROBING_LEN ≤ i
  · rw [if_pos hmax, if_pos hmax]
    rfl
  rw [if_neg hmax, if_neg hmax]
  by_cases hnext : i + 1 < t.capacity
  · refine (if_neg (not_not.mpr hnext)).trans ?_
    rw [if_neg (not_not.mpr hnext)]
    by_cases hedge : (loc + (i + 1)) % t.capacity % lockSize = 0
    · rw [if_pos hedge]
      exact if_pos hedge
    · rw [if_neg hedge]
      exact if_neg hedge
  · refine (if_pos hnext).trans ?_
    rw [if_pos hnext]
    rfl

theorem isVacantBucket_put {slot' : ℕ} (h : slot' ≠ slot) :
    (t.put slot b).isVacantBucket slot' = t.isVacantBucket slot' := by
  rw [isVacantBucket, isVacantBucket, put_buckets, Function.update_of_ne h]

theorem insertMin_put {slot' : ℕ} (h : slot' ≠ slot) (s : InsertState) :
    (t.put slot b).insertMin slot' s = t.insertMin slot' s := by
  rw [insertMin, insertMin, put_buckets, Function.update_of_ne h]

theorem evictVictim_put {victimSlot : ℕ} (h : victimSlot ≠ slot) :
    (t.put slot b).evictVictim key value victimSlot now =
      (t.evictVictim key value victimSlot now).map fun r => r.put slot b := by
  simp only [evictVictim, refuse, collEvict, put_buckets, Function.update_of_ne h, setBucket_put h]
  split_ifs <;> rfl

theorem insertCur_put {s : InsertState} (h : ∀ a ∈ curAccesses s, a.slot ≠ slot) :
    (t.put slot b).insertCur key value now s =
      (t.insertCur key value now s).map fun r => r.put slot b := by
  rw [insertCur, insertCur]
  rw [curAccesses] at h
  cases hv : s.victimSlot with
  | none => rfl
  | some victimSlot =>
      rw [hv] at h
      exact evictVictim_put (h _ (List.mem_singleton_self _))

theorem insertFull_put {s : InsertState} (h : ∀ a ∈ fullAccesses prevTryLock s, a.slot ≠ slot) :
    (t.put slot b).insertFull key value evKey now prevTryLock s =
      (t.insertFull key value evKey now prevTryLock s).map fun r => r.put slot b := by
  rw [insertFull, insertFull]
  rw [fullAccesses] at h
  cases hv : s.prevVictimSlot with
  | none =>
      rw [hv] at h
      exact insertCur_put h
  | some prevVictimSlot =>
      rw [hv] at h
      dsimp only at h ⊢
      by_cases hmin : s.prevMinTimestamp < s.minTimestamp
      · rw [if_pos hmin] at h ⊢
        rw [if_pos hmin]
        have hne : prevVictimSlot ≠ slot := h _ List.mem_cons_self
        cases prevTryLock with
        | true =>
            rw [if_pos rfl, if_pos rfl, isVacantBucket_put hne, setBucket_put hne,
              evictVictim_put hne]
            split <;> rfl
        | false =>
            rw [if_neg Bool.false_ne_true, if_neg Bool.false_ne_true]
            exact insertCur_put fun a ha => h a (List.mem_cons_of_mem _ ha)
      · rw [if_neg hmin] at h ⊢
        rw [if_neg hmin]
        exact insertCur_put h

theorem insertProbe_put {s : InsertState}
    (h : ∀ a ∈ t.insertAccesses prevTryLock loc s, a.slot ≠ slot) :
    (t.put slot b).insertProbe key value evKey now prevTryLock loc s =
      (t.insertProbe key value evKey now prevTryLock loc s).map
        (Ctl.map (Except.map fun r => r.put slot b)) := by
  have hne : (loc + s.i) % t.capacity ≠ slot := h _ List.mem_cons_self
  simp only [insertAccesses, List.mem_cons, forall_eq_or_imp] at h
  simp only [insertProbe, put_capacity, isVacantBucket_put hne, put_buckets,
    Function.update_of_ne hne, setBucket_put hne, insertMin_put hne]
  by_cases hvac : t.isVacantBucket ((loc + s.i) % t.capacity) = true
  · rw [if_pos hvac, if_pos hvac]
    split_ifs <;> rfl
  · rw [if_neg hvac] at h ⊢
    rw [if_neg hvac]
    by_cases hmax : MAX_PROBING_LEN ≤ s.i
    · rw [if_pos hmax] at h ⊢
      rw [if_pos hmax, insertFull_put h.2]
      rfl
    · rw [if_neg hmax, if_neg hmax]
      split_ifs <;> rfl

/-- A section neither reads nor writes a bucket that is not among its accesses. -/
theorem deleteRange_put {i : ℕ} (h : ∀ a ∈ (t.deleteSection key loc i).accesses, a.slot ≠ slot) :
    (t.put slot b).deleteRange key loc i =
      (t.deleteRange key loc i).map fun r => (r.1.put slot b, r.2) := by
  have hprobe : ∀ j ∈ heads (t.deleteProbe key loc) (t.capacity + 1) i,
      (t.put slot b).deleteProbe key loc j =
        (t.deleteProbe key loc j).map (Ctl.map fun r => (r.1.put slot b, r.2)) := fun j hj =>
    deleteProbe_put fun a ha => h a (List.mem_flatMap.mpr ⟨j, hj, ha⟩)
  have hrun := run_map (t.capacity + 1) i hprobe
  rw [deleteRange, deleteRange, put_capacity]
  split
  · rw [result, hrun, result]
    cases run (t.deleteProbe key loc) (t.capacity + 1) i <;> rfl
  · rfl

theorem insertRange_put {s : InsertState}
    (h : ∀ a ∈ (t.insertSection key value evKey now prevTryLock loc s).accesses, a.slot ≠ slot) :
    (t.put slot b).insertRange key value evKey now prevTryLock loc s =
      (t.insertRange key value evKey now prevTryLock loc s).map
        (Except.map fun r => r.put slot b) := by
  have hprobe : ∀ s' ∈ heads (t.insertProbe key value evKey now prevTryLock loc)
        (t.capacity + 1) s,
      (t.put slot b).insertProbe key value evKey now prevTryLock loc s' =
        (t.insertProbe key value evKey now prevTryLock loc s').map
          (Ctl.map (Except.map fun r => r.put slot b)) := fun s' hs' =>
    insertProbe_put fun a ha => h a (List.mem_flatMap.mpr ⟨s', hs', ha⟩)
  have hrun := run_map (t.capacity + 1) s hprobe
  rw [insertRange, insertRange, put_capacity]
  split
  · rw [result, hrun, result]
    cases run (t.insertProbe key value evKey now prevTryLock loc) (t.capacity + 1) s with
    | out c => cases c <;> rfl
    | next s' => rfl
  · rfl

end Frame

/-! ## One section -/

section Range

variable {t} {key : Key} {value : Value} {evKey : Key} {now : BitVec 32} {prevTryLock : Bool}
  {loc : ℕ}

/-- How a range is left: at an edge before the end of the window. -/
def Leaves {α σ : Type} (capacity loc : ℕ) (i : σ → ℕ) (P : σ → Prop) (k : ℕ) : Ctl α σ → Prop
  | .out _ => True
  | .next s => P s ∧ i s = k ∧ k ≤ MAX_PROBING_LEN ∧ (loc + k) % capacity % lockSize = 0

theorem deleteProbe_counts (key : Key) (hcap : lockSize ≤ t.capacity) {i j : ℕ}
    (h : t.Reaches loc i j) :
    Counts (t.Reaches loc i) (fun j => j)
      (Leaves (α := LinearProbingApprox × Value) t.capacity loc (fun j => j) fun _ => True) j
      (t.deleteProbe key loc j) := by
  simp only [deleteProbe]
  split
  · trivial
  split
  · trivial
  split
  · trivial
  have hlt : j < MAX_PROBING_LEN := Nat.lt_of_not_le ‹_›
  rw [if_neg (not_not.mpr (Nat.lt_of_lt_of_le (Nat.succ_lt_succ hlt) hcap))]
  split
  · exact ⟨trivial, rfl, hlt, ‹_›⟩
  · exact ⟨h.succ hlt ‹_›, rfl⟩

/-- The victim of the current range is one of its buckets. -/
def CurVictim (t : LinearProbingApprox) (loc : ℕ) (s₀ s : InsertState) : Prop :=
  ∀ v ∈ s.victimSlot, v / lockSize = (loc + s₀.i) % t.capacity / lockSize

/-- What the locals of `Insert` know within the section that began in `s₀`. -/
structure Probing (t : LinearProbingApprox) (loc : ℕ) (s₀ s : InsertState) : Prop where
  reaches : t.Reaches loc s₀.i s.i
  cur : t.CurVictim loc s₀ s
  prevVictim : s.prevVictimSlot = s₀.prevVictimSlot
  prevLock : s.prevLockIdx = s₀.prevLockIdx

/-- The probe of a bucket may make it the victim. -/
theorem Probing.insertMin (hcap : 0 < t.capacity) {s₀ s : InsertState}
    (h : t.Probing loc s₀ s) : t.Probing loc s₀ (t.insertMin ((loc + s.i) % t.capacity) s) := by
  rw [LinearProbingApprox.insertMin]
  split
  · refine ⟨h.reaches, ?_, h.prevVictim, h.prevLock⟩
    intro v hv
    cases hv
    exact h.reaches.lockIdx hcap
  · exact h

theorem insertProbe_counts (key : Key) (value : Value) (evKey : Key) (now : BitVec 32)
    (prevTryLock : Bool) (hcap : lockSize ≤ t.capacity) {s₀ s : InsertState}
    (h : t.Probing loc s₀ s) :
    Counts (t.Probing loc s₀) InsertState.i
      (Leaves (α := Except Stop Inserted) t.capacity loc InsertState.i (t.CurVictim loc s₀)) s
      (t.insertProbe key value evKey now prevTryLock loc s) := by
  have hpos : 0 < t.capacity := Nat.lt_of_lt_of_le (by decide) hcap
  have hmin := h.insertMin hpos
  have hi : (t.insertMin ((loc + s.i) % t.capacity) s).i = s.i := by
    rw [LinearProbingApprox.insertMin]
    split <;> rfl
  simp only [insertProbe]
  split
  · split <;> trivial
  split
  · trivial
  have hlt : s.i < MAX_PROBING_LEN := Nat.lt_of_not_le ‹_›
  rw [if_neg (not_not.mpr (Nat.lt_of_lt_of_le (Nat.succ_lt_succ hlt) hcap))]
  split
  · exact ⟨hmin.cur, rfl, hlt, ‹_›⟩
  · exact ⟨⟨h.reaches.succ hlt ‹_›, hmin.cur, hmin.prevVictim, hmin.prevLock⟩, rfl⟩

/-- What the locals know when `Insert` enters a range; `prev` is the mutex of
the section before. -/
structure EntersRange (mutexes capacity loc : ℕ) (prev : Option ℕ) (s : InsertState) : Prop where
  le_max : s.i ≤ MAX_PROBING_LEN
  cur : s.victimSlot = none
  prev : ∀ p ∈ s.prevVictimSlot, s.prevLockIdx = some (p / lockSize) ∧ prev = s.prevLockIdx ∧
    p / lockSize ≠ (loc + s.i) % capacity / lockSize ∧ p / lockSize < mutexes

theorem EntersRange.probing {mutexes : ℕ} {prev : Option ℕ} {s : InsertState}
    (h : EntersRange mutexes t.capacity loc prev s) : t.Probing loc s s where
  reaches := Reaches.refl h.le_max
  cur v hv := by
    rw [h.cur] at hv
    cases hv
  prevVictim := rfl
  prevLock := rfl

theorem curAccesses_inside {mutexes : ℕ} {prev : Option ℕ} {s₀ s : InsertState}
    (h : t.CurVictim loc s₀ s) {a : Access} (ha : a ∈ curAccesses s) :
    a.Inside mutexes ((loc + s₀.i) % t.capacity / lockSize) prev := by
  rw [curAccesses] at ha
  cases hv : s.victimSlot with
  | none =>
      rw [hv] at ha
      cases ha
  | some v =>
      rw [hv] at ha
      rw [List.mem_singleton.mp ha]
      exact h v hv

theorem fullAccesses_inside {mutexes : ℕ} {prev : Option ℕ} {s₀ s : InsertState}
    (henters : EntersRange mutexes t.capacity loc prev s₀) (h : t.Probing loc s₀ s) {a : Access}
    (ha : a ∈ fullAccesses prevTryLock s) :
    a.Inside mutexes ((loc + s₀.i) % t.capacity / lockSize) prev := by
  rw [fullAccesses] at ha
  cases hv : s.prevVictimSlot with
  | none =>
      rw [hv] at ha
      exact curAccesses_inside h.cur ha
  | some p =>
      rw [hv] at ha
      dsimp only at ha
      split at ha
      · rcases List.mem_cons.mp ha with rfl | hcur
        · rw [h.prevLock]
          exact henters.prev p (h.prevVictim ▸ hv)
        · split at hcur
          · cases hcur
          · exact curAccesses_inside h.cur hcur
      · exact curAccesses_inside h.cur ha

theorem insertAccesses_inside (hcap : 0 < t.capacity) {mutexes : ℕ} {prev : Option ℕ}
    {s₀ s : InsertState} (henters : EntersRange mutexes t.capacity loc prev s₀)
    (h : t.Probing loc s₀ s) {a : Access} (ha : a ∈ t.insertAccesses prevTryLock loc s) :
    a.Inside mutexes ((loc + s₀.i) % t.capacity / lockSize) prev := by
  rcases List.mem_cons.mp ha with rfl | hmore
  · exact h.reaches.lockIdx hcap
  · split at hmore
    · cases hmore
    split at hmore
    · exact fullAccesses_inside henters (h.insertMin hcap) hmore
    · cases hmore

/-- What a section owes: it accesses what its mutexes guard, and its probes
visit the next `n` buckets of the window. -/
structure Guarded (mutexes capacity loc : ℕ) (prev : Option ℕ) (i n : ℕ) (sec : Section) :
    Prop where
  lockIdx_lt : sec.lockIdx < mutexes
  inside : ∀ a ∈ sec.accesses, a.Inside mutexes sec.lockIdx prev
  visited : sec.visited = (List.range' i n).map fun j => (loc + j) % capacity
  pos : 0 < n
  le_max : i + n ≤ MAX_PROBING_LEN + 1

/-- The probes of one range: where they begin, that the window has room for
them, and how the range is left. -/
structure RangeRun {α σ : Type} (capacity loc : ℕ) (i : σ → ℕ) (I P : σ → Prop) (s : σ)
    (probes : List σ) (r : Ctl α σ) : Prop where
  map : probes.map i = List.range' (i s) probes.length
  all : ∀ s' ∈ probes, I s'
  pos : 0 < probes.length
  le_max : i s + probes.length ≤ MAX_PROBING_LEN + 1
  leaves : Leaves capacity loc i P (i s + probes.length) r

/-- The last of the numbered probes. -/
theorem last_probe {σ : Type} {i : σ → ℕ} {probes : List σ} {n : ℕ}
    (hmap : probes.map i = List.range' n probes.length) (hpos : 0 < probes.length) :
    ∃ s ∈ probes, i s + 1 = n + probes.length := by
  have hlast : n + (probes.length - 1) ∈ probes.map i := by
    rw [hmap, List.mem_range'_1]
    omega
  obtain ⟨s, hs, heq⟩ := List.mem_map.mp hlast
  exact ⟨s, hs, by omega⟩

theorem rangeRun_of_counts {α σ : Type} {capacity : ℕ} {i : σ → ℕ} {I P : σ → Prop}
    {probe : σ → Ctl (Ctl α σ) σ} (hcap : lockSize ≤ capacity)
    (hprobe : ∀ s, I s → Counts I i (Leaves capacity loc i P) s (probe s))
    (hmax : ∀ s, I s → i s ≤ MAX_PROBING_LEN) {s : σ} (hI : I s) :
    RangeRun capacity loc i I P s (heads probe (capacity + 1) s)
      (result probe .next (capacity + 1) s) := by
  obtain ⟨hmap, hall⟩ := heads_counts hprobe (capacity + 1) s hI
  have hpos : 0 < (heads probe (capacity + 1) s).length := by
    rw [heads]
    exact Nat.succ_pos _
  refine ⟨hmap, hall, hpos, ?_, ?_⟩
  · obtain ⟨s', hs', heq⟩ := last_probe hmap hpos
    exact heq ▸ Nat.succ_le_succ (hmax s' (hall s' hs'))
  · refine result_counts hprobe (capacity + 1) s hI fun s' hs' => ?_
    have hlt : i s' < capacity := Nat.lt_of_le_of_lt (hmax s' hs') hcap
    omega

theorem deleteSection_guarded {mutexes : ℕ} (hcap : lockSize ≤ t.capacity)
    (hmutexes : ∀ slot < t.capacity, slot / lockSize < mutexes) (prev : Option ℕ) {i : ℕ}
    (hi : i ≤ MAX_PROBING_LEN) :
    ∃ n, Guarded mutexes t.capacity loc prev i n (t.deleteSection key loc i) ∧
      ∀ i', t.deleteRange key loc i = .next i' → i' = i + n ∧ i' ≤ MAX_PROBING_LEN := by
  have hpos : 0 < t.capacity := Nat.lt_of_lt_of_le (by decide) hcap
  have hstart : t.Reaches loc i i := Reaches.refl hi
  have hrun := rangeRun_of_counts hcap (fun j hj => deleteProbe_counts key hcap hj)
    (fun _ hj => hj.2.1) hstart
  refine ⟨_, ⟨?_, ?_, ?_, hrun.pos, hrun.le_max⟩, ?_⟩
  · exact hmutexes _ (Nat.mod_lt _ hpos)
  · intro a ha
    obtain ⟨j, hj, haj⟩ := List.mem_flatMap.mp ha
    rw [List.mem_singleton.mp haj]
    exact (hrun.all j hj).lockIdx hpos
  · rw [← hrun.map, List.map_id']
    rfl
  · intro i' hnext
    have hlt : i < t.capacity := Nat.lt_of_lt_of_le (Nat.lt_succ_of_le hi) hcap
    rw [deleteRange, if_pos hlt] at hnext
    have hleaves := hrun.leaves
    rw [hnext] at hleaves
    obtain ⟨-, heq, hle, -⟩ := hleaves
    exact ⟨heq, heq.trans_le hle⟩

theorem insertSection_guarded {mutexes : ℕ} (hcap : lockSize < t.capacity)
    (hloc : loc < t.capacity) (hmutexes : ∀ slot < t.capacity, slot / lockSize < mutexes)
    {prev : Option ℕ} {s : InsertState} (h : EntersRange mutexes t.capacity loc prev s) :
    ∃ n, Guarded mutexes t.capacity loc prev s.i n
        (t.insertSection key value evKey now prevTryLock loc s) ∧
      ∀ s', t.insertRange key value evKey now prevTryLock loc s = .next s' →
        s'.i = s.i + n ∧ EntersRange mutexes t.capacity loc
          (some ((loc + s.i) % t.capacity / lockSize)) s' := by
  have hle : lockSize ≤ t.capacity := Nat.le_of_lt hcap
  have hpos : 0 < t.capacity := Nat.lt_of_lt_of_le (by decide) hle
  have hrun := rangeRun_of_counts hle
    (fun s' hs' => insertProbe_counts key value evKey now prevTryLock hle hs')
    (fun _ hs' => hs'.reaches.2.1) h.probing
  refine ⟨_, ⟨?_, ?_, ?_, hrun.pos, hrun.le_max⟩, ?_⟩
  · exact hmutexes _ (Nat.mod_lt _ hpos)
  · intro a ha
    obtain ⟨s', hs', has'⟩ := List.mem_flatMap.mp ha
    exact insertAccesses_inside hpos h (hrun.all s' hs') has'
  · rw [← hrun.map, List.map_map]
    rfl
  · intro s' hnext
    have hlt : s.i < t.capacity := Nat.lt_of_lt_of_le (Nat.lt_succ_of_le h.le_max) hle
    rw [insertRange, if_pos hlt] at hnext
    dsimp only at hnext
    have hleaves := hrun.leaves
    cases hr : result (t.insertProbe key value evKey now prevTryLock loc) .next
        (t.capacity + 1) s with
    | out r =>
        rw [hr] at hnext
        cases hnext
    | next s₁ =>
        rw [hr] at hnext hleaves
        cases hnext
        obtain ⟨hcur, hi, hmax, hedge⟩ := hleaves
        refine ⟨hi, hi.trans_le hmax, rfl, fun p hp => ?_⟩
        -- the victim is of the range just left, which the edge separates from the next one
        have hrange : p / lockSize = (loc + s.i) % t.capacity / lockSize := hcur p hp
        obtain ⟨last, hlast, hnext⟩ := last_probe hrun.map hrun.pos
        have hidx := (hrun.all last hlast).reaches.lockIdx hpos
        have hother := (same_lock_iff hle hloc (hnext ▸ Nat.lt_succ_of_le hmax)
          (hnext ▸ hedge)).not.mpr (Nat.ne_of_gt hcap)
        rw [hidx, hnext, ← hi] at hother
        exact ⟨congrArg some hrange.symm, rfl, hrange ▸ hother,
          hrange ▸ hmutexes _ (Nat.mod_lt _ hpos)⟩

end Range

/-! ## All sections -/

section Passes

variable {α σ : Type} {mutexes capacity loc : ℕ} {i : σ → ℕ} {range : ℕ → σ → Ctl α σ}
  {sec : ℕ → σ → Section} {I : Option ℕ → σ → Prop}

/-- What every pass of an outer loop owes: its section is guarded, and leads to
the next one. -/
def PassesGuarded (mutexes capacity loc : ℕ) (i : σ → ℕ) (range : ℕ → σ → Ctl α σ)
    (sec : ℕ → σ → Section) (I : Option ℕ → σ → Prop) : Prop :=
  ∀ k prev s, I prev s → ∃ n, Guarded mutexes capacity loc prev (i s) n (sec k s) ∧
    ∀ s', range k s = .next s' → i s' = i s + n ∧ I (some (sec k s).lockIdx) s'

theorem sections_succ {k : ℕ} {s : σ} (hi : i s < capacity) (n : ℕ) :
    sections capacity i range sec (n + 1) (k, s) = sec k s ::
      match range k s with
      | .out _ => []
      | .next s' => sections capacity i range sec n (k + 1, s') := by
  rw [sections, heads, List.filter_cons, if_pos (decide_eq_true hi), List.map_cons, staged]
  cases range k s <;> rfl

theorem sections_inside (hcap : lockSize ≤ capacity)
    (hpasses : PassesGuarded mutexes capacity loc i range sec I) :
    ∀ (n k : ℕ) (prev : Option ℕ) (s : σ), I prev s →
      InsideFrom mutexes prev (sections capacity i range sec n (k, s)) ∧
      ∃ m, (sections capacity i range sec n (k, s)).flatMap Section.visited =
          (List.range' (i s) m).map (fun j => (loc + j) % capacity) ∧
        i s + m ≤ MAX_PROBING_LEN + 1 := by
  intro n
  induction n with
  | zero =>
      intro k prev s hI
      obtain ⟨m, hguarded, -⟩ := hpasses k prev s hI
      have hle := hguarded.le_max
      exact ⟨trivial, 0, rfl, by omega⟩
  | succ n ih =>
      intro k prev s hI
      obtain ⟨m, hguarded, hnext⟩ := hpasses k prev s hI
      have hle := hguarded.le_max
      have hpos := hguarded.pos
      have h16 : lockSize = MAX_PROBING_LEN + 1 := rfl
      rw [sections_succ (by omega : i s < capacity)]
      cases hr : range k s with
      | out a =>
          refine ⟨⟨hguarded.lockIdx_lt, hguarded.inside, trivial⟩, m, ?_, hle⟩
          rw [List.flatMap_singleton, hguarded.visited]
      | next s' =>
          obtain ⟨hi, hI'⟩ := hnext s' hr
          obtain ⟨hinside, m', hvisited, hle'⟩ := ih (k + 1) _ s' hI'
          refine ⟨⟨hguarded.lockIdx_lt, hguarded.inside, hinside⟩, m + m', ?_, by omega⟩
          rw [List.flatMap_cons, hvisited, hguarded.visited, hi, ← List.map_append,
            List.range'_append_1]

/-- The number of passes is no bound on the sections. -/
theorem staged_returns (hpasses : PassesGuarded mutexes capacity loc i range sec I)
    (prev : Option ℕ) {s : σ} (hI : I prev s) {n : ℕ} (hn : MAX_PROBING_LEN + 1 - i s < n) (k : ℕ) :
    ∃ a, run (staged range) n (k, s) = .out a := by
  have hpass : ∀ h : ℕ × σ, (∃ prev, I prev h.2) →
      Owes (fun h => ∃ prev, I prev h.2) (fun h => MAX_PROBING_LEN + 1 - i h.2) (fun _ => True) h
        (staged range h) := by
    rintro ⟨k, s⟩ ⟨prev, hI⟩
    obtain ⟨m, hguarded, hnext⟩ := hpasses k prev s hI
    have hpos := hguarded.pos
    have hle := hguarded.le_max
    rw [staged]
    cases hr : range k s with
    | out a => trivial
    | next s' =>
        obtain ⟨hi, hI'⟩ := hnext s' hr
        refine ⟨⟨_, hI'⟩, ?_⟩
        dsimp only
        omega
  obtain ⟨a, ha, -⟩ := run_total hpass n (k, s) ⟨prev, hI⟩ hn
  exact ⟨a, ha⟩

/-- The positions of a window that does not lap itself. -/
theorem window_nodup {n : ℕ} (hn : n ≤ capacity) :
    ((List.range n).map fun j => (loc + j) % capacity).Nodup := by
  apply List.Nodup.map_on _ List.nodup_range
  intro j hj j' hj' heq
  have hmod : j ≡ j' [MOD capacity] := Nat.ModEq.add_left_cancel' loc heq
  exact hmod.eq_of_lt_of_lt (Nat.lt_of_lt_of_le (List.mem_range.mp hj) hn)
    (Nat.lt_of_lt_of_le (List.mem_range.mp hj') hn)

theorem staysInside_of_passes (hcap : lockSize ≤ capacity)
    (hpasses : PassesGuarded mutexes capacity loc i range sec I) {s : σ} (hI : I none s)
    (hi : i s = 0) (n : ℕ) :
    StaysInside mutexes capacity loc (sections capacity i range sec n (0, s)) := by
  obtain ⟨hinside, m, hvisited, hle⟩ := sections_inside hcap hpasses n 0 none s hI
  rw [hi, Nat.zero_add] at hle
  rw [hi, ← List.range_eq_range'] at hvisited
  refine ⟨hinside, ⟨m, hle, hvisited⟩, ?_⟩
  rw [hvisited]
  exact window_nodup (Nat.le_trans hle hcap)

end Passes

variable {mutexes capacity loc : ℕ}

theorem delete_passes (hcap : lockSize ≤ capacity)
    (hmutexes : ∀ slot < capacity, slot / lockSize < mutexes) (contents : ℕ → ℕ → LPABkt)
    (key : Key) :
    PassesGuarded mutexes capacity loc (fun i => i)
      (fun k => (LinearProbingApprox.mk capacity (contents k)).deleteRange key loc)
      (fun k => (LinearProbingApprox.mk capacity (contents k)).deleteSection key loc)
      fun _ i => i ≤ MAX_PROBING_LEN := by
  intro k prev i hi
  exact deleteSection_guarded (t := ⟨capacity, contents k⟩) hcap hmutexes prev hi

theorem insert_passes (hcap : lockSize < capacity) (hloc : loc < capacity)
    (hmutexes : ∀ slot < capacity, slot / lockSize < mutexes) (contents : ℕ → ℕ → LPABkt)
    (key : Key) (value : Value) (evKey : Key) (now : BitVec 32) (prevTryLock : Bool) :
    PassesGuarded mutexes capacity loc InsertState.i
      (fun k => (LinearProbingApprox.mk capacity (contents k)).insertRange key value evKey now
        prevTryLock loc)
      (fun k => (LinearProbingApprox.mk capacity (contents k)).insertSection key value evKey now
        prevTryLock loc)
      (EntersRange mutexes capacity loc) := by
  intro k prev s hs
  exact insertSection_guarded (t := ⟨capacity, contents k⟩) hcap hloc hmutexes hs

theorem entersRange_init : EntersRange mutexes capacity loc none {} where
  le_max := Nat.zero_le _
  cur := rfl
  prev p hp := by cases hp

/-! ## The loops of the operations -/

/-- On contents that stay the same the passes are those of `delete`. -/
theorem delete_staged (t : LinearProbingApprox) (hash : Key → ℕ) (key : Key) :
    t.delete hash key = result (staged fun _ => t.deleteRange key (t.getHashedKey hash key))
      (fun _ => (t, NONE)) (t.capacity + 1) (0, 0) :=
  (@result_staged _ _ (t.deleteRange key (t.getHashedKey hash key)) (fun _ => (t, NONE)) _ 0 0).symm

theorem insertFresh_staged (t : LinearProbingApprox) (hash : Key → ℕ) (key : Key) (value : Value)
    (evKey : Key) (now : BitVec 32) (prevTryLock : Bool) :
    t.insertFresh hash key value evKey now prevTryLock =
      result (staged fun _ => t.insertRange key value evKey now prevTryLock
        (t.getHashedKey hash key)) (fun _ => .ok ⟨t, 0, evKey, NONE⟩) (t.capacity + 1) (0, {}) :=
  (@result_staged _ _
    (t.insertRange key value evKey now prevTryLock (t.getHashedKey hash key))
    (fun _ => .ok ⟨t, 0, evKey, NONE⟩) _ 0 {}).symm

/-- On any contents the loops return within the passes the sections are taken from. -/
theorem delete_returns (hcap : lockSize ≤ capacity) (contents : ℕ → ℕ → LPABkt) (key : Key) :
    ∃ r, run (staged fun k => (LinearProbingApprox.mk capacity (contents k)).deleteRange key loc)
      (capacity + 1) (0, 0) = .out r :=
  staged_returns
    (delete_passes hcap (fun _ hslot => Nat.lt_of_le_of_lt (Nat.div_le_self _ _) hslot) contents
      key)
    none (Nat.zero_le _) (Nat.lt_succ_of_le hcap) 0

theorem insert_returns (hcap : lockSize < capacity) (hloc : loc < capacity)
    (contents : ℕ → ℕ → LPABkt) (key : Key) (value : Value) (evKey : Key) (now : BitVec 32)
    (prevTryLock : Bool) :
    ∃ r, run (staged fun k => (LinearProbingApprox.mk capacity (contents k)).insertRange key value
      evKey now prevTryLock loc) (capacity + 1) (0, {}) = .out r :=
  staged_returns
    (insert_passes hcap hloc (fun _ hslot => Nat.lt_of_le_of_lt (Nat.div_le_self _ _) hslot)
      contents key value evKey now prevTryLock)
    none entersRange_init (Nat.lt_succ_of_lt hcap) 0

/-! ## When the mutexes are enough -/

theorem numLocks_eq {n : ℕ} (hnew : newMutexes capacity = some n) :
    n = (capacity / lockSize + 1) % 2 ^ 32 ∧ n < 2 ^ 31 := by
  rw [newMutexes] at hnew
  split at hnew
  · rename_i hthrows
    cases hnew
    have hpos := hthrows.2
    rw [numLocks, BitVec.toInt_eq_toNat_cond, BitVec.toNat_ofNat] at hpos ⊢
    split at hpos
    · rename_i hlt
      rw [if_pos hlt]
      omega
    · have hmod := Nat.mod_lt (capacity / lockSize + 1) (Nat.two_pow_pos 32)
      omega
  · cases hnew

/-- The first section takes the mutex of the bucket the key is hashed to. -/
theorem first_lockIdx_lt {contents : ℕ → ℕ → LPABkt} {key : Key} (hloc : loc < capacity)
    (h : StaysInside mutexes capacity loc (deleteSections capacity contents key loc)) :
    loc / lockSize < mutexes := by
  have hinside := h.inside
  have hpos : 0 < capacity := Nat.lt_of_le_of_lt (Nat.zero_le _) hloc
  rw [deleteSections, sections_succ (i := fun i : ℕ => i) hpos] at hinside
  have hlt := hinside.1
  rw [deleteSection, Nat.add_zero, Nat.mod_eq_of_lt hloc] at hlt
  exact hlt

/-- The loops of `Delete` and `Insert` stay inside the mutexes they hold exactly
if `num_locks` has not lost a bit as an `int`. -/
theorem probes_inside_iff {n : ℕ} (hcap : 17 ≤ capacity) (hnew : newMutexes capacity = some n) :
    (∀ contents key loc, loc < capacity →
      StaysInside n capacity loc (deleteSections capacity contents key loc) ∧
      ∀ value evKey now prevTryLock, StaysInside n capacity loc
        (insertSections capacity contents key value evKey now prevTryLock loc)) ↔
    capacity / lockSize + 1 < 2 ^ 31 := by
  have h16 : lockSize = 16 := rfl
  obtain ⟨hn, hlt⟩ := numLocks_eq hnew
  constructor
  · intro hall
    have hlast := first_lockIdx_lt (by omega)
      (hall (fun _ _ => {}) 0 (capacity - 1) (by omega)).1
    rw [h16] at hlast hn ⊢
    omega
  · intro hfits contents key loc hloc
    rw [Nat.mod_eq_of_lt (by omega)] at hn
    have hmutexes : ∀ slot < capacity, slot / lockSize < n := by
      intro slot hslot
      rw [hn]
      exact Nat.lt_succ_of_le (Nat.div_le_div_right (Nat.le_of_lt hslot))
    constructor
    · exact staysInside_of_passes (Nat.le_of_lt hcap)
        (delete_passes (Nat.le_of_lt hcap) hmutexes contents key) (Nat.zero_le _) rfl _
    · intro value evKey now prevTryLock
      exact staysInside_of_passes (Nat.le_of_lt hcap)
        (insert_passes hcap hloc hmutexes contents key value evKey now prevTryLock)
        entersRange_init rfl _

/-- The table of one and a half ranges has two mutexes. -/
theorem probes_inside_iff_24 : StaysInside 2 24 20 (deleteSections 24 (fun _ _ => {}) 4 20) :=
  ((probes_inside_iff (by decide) (by decide)).mpr (by decide) _ _ _ (by decide)).1

/-- A table of `2 ^ 36` buckets has one mutex, and `Delete` takes number 1. -/
theorem mutex_out_of_range : newMutexes (2 ^ 36) = some 1 ∧
    ∀ contents key, ¬ StaysInside 1 (2 ^ 36) 16 (deleteSections (2 ^ 36) contents key 16) := by
  refine ⟨by decide, fun contents key h => ?_⟩
  exact absurd (first_lockIdx_lt (by decide) h) (by decide)

end LinearProbingApprox

end CleancacheRdma.Daemon
