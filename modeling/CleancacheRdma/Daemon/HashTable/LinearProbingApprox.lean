import Mathlib.Logic.Function.Basic
import CleancacheRdma.Daemon.Basic
import CleancacheRdma.Lib.Loop

/-!
# `LinearProbingApprox`, the daemon's hash table

Translated from `hash-table/linear_probing_approx.{hpp,cpp}`. Every operation
is the source's pair of nested loops: the outer `while` takes the mutex of one
lock range, the inner `do … while (slot % lock_size)` probes the buckets of
that range. A probe is a body in the sense of `Lib.Loop`; its result tells the
inner loop to go on, to break out to the outer loop, or to leave both (`goto
out`).

What the code reads from outside its arguments is an argument here: the clock
second `SetTimestamp` stores, the outcome of each `try_lock`, and the draws of
`lpa_uni_dist`. The slot `-1` of the code (`size_t`) is `none`.
-/

namespace CleancacheRdma.Daemon

open Lib (Ctl)
open Lib.Loop (run result)

/-! ## Buckets -/

/-- A bucket. The default is the constructor's. -/
structure LPABkt where
  key : Key := INVALID
  value : Value := NONE
  timestamp : BitVec 32 := INVALID32
  busy : Bool := false
deriving DecidableEq

structure LinearProbingApprox where
  capacity : ℕ
  buckets : ℕ → LPABkt

namespace LinearProbingApprox

def MAX_PROBING_LEN : ℕ := 16 - 1
def lockSize : ℕ := MAX_PROBING_LEN + 1

/-- The constructor. -/
def new (capacity : ℕ) : LinearProbingApprox := ⟨capacity, fun _ => {}⟩

variable (t : LinearProbingApprox)

/-- Store into one bucket of the array. -/
def put (slot : ℕ) (b : LPABkt) : LinearProbingApprox :=
  { t with buckets := Function.update t.buckets slot b }

@[simp] theorem put_capacity (slot : ℕ) (b : LPABkt) :
    (t.put slot b).capacity = t.capacity := rfl

@[simp] theorem put_buckets (slot : ℕ) (b : LPABkt) :
    (t.put slot b).buckets = Function.update t.buckets slot b := rfl

def getHashedKey (hash : Key → ℕ) (key : Key) : ℕ := hash key % t.capacity

def isVacantBucket (slot : ℕ) : Bool :=
  (t.buckets slot).key = INVALID || (t.buckets slot).key = TOMBSTONE

def isValidBucket (slot : ℕ) : Bool :=
  (t.buckets slot).key ≠ INVALID && (t.buckets slot).key ≠ TOMBSTONE

/-- Key, value and timestamp are stored; `busy` is not touched. -/
def setBucket (slot : ℕ) (key : Key) (value : Value) (now : BitVec 32) :
    LinearProbingApprox :=
  t.put slot { t.buckets slot with key, value, timestamp := now }

/-- Only the key is overwritten. -/
def bury (slot : ℕ) : LinearProbingApprox :=
  t.put slot { t.buckets slot with key := TOMBSTONE }

/-! ## Delete -/

/-- One probe of the inner loop of `Delete`. -/
def deleteProbe (key : Key) (loc : ℕ) (i : ℕ) :
    Ctl (Ctl (LinearProbingApprox × Value) ℕ) ℕ :=
  let slot := (loc + i) % t.capacity
  if (t.buckets slot).key = key then
    .out (.out (t.bury slot, (t.buckets slot).value))
  else if (t.buckets slot).key = INVALID then
    .out (.out (t, NONE))
  -- keep probing even meet TOMBSTONE
  else if MAX_PROBING_LEN ≤ i then
    .out (.out (t, NONE))
  else if ¬ i + 1 < t.capacity then
    .out (.next (i + 1))
  else if (loc + (i + 1)) % t.capacity % lockSize = 0 then
    .out (.next (i + 1))
  else
    .next (i + 1)

/-- One pass of the outer loop: the probes of one lock range. -/
def deleteRange (key : Key) (loc : ℕ) (i : ℕ) : Ctl (LinearProbingApprox × Value) ℕ :=
  if i < t.capacity then
    result (t.deleteProbe key loc) .next (t.capacity + 1) i
  else
    .out (t, NONE)

def delete (hash : Key → ℕ) (key : Key) : LinearProbingApprox × Value :=
  result (t.deleteRange key (t.getHashedKey hash key)) (fun _ => (t, NONE))
    (t.capacity + 1) 0

/-! ## Get and GetWithFlag -/

/-- One pass of the loop that `Get` and `GetWithFlag` share; `found` is what
the caller does with the bucket of its key. -/
def lookupProbe (found : ℕ → LinearProbingApprox × Value) (key : Key) (loc : ℕ) (i : ℕ) :
    Ctl (LinearProbingApprox × Value) ℕ :=
  if i < t.capacity then
    let slot := (loc + i) % t.capacity
    if (t.buckets slot).key = key then
      .out (found slot)
    else if (t.buckets slot).key = INVALID then
      .out (t, NONE)
    -- keep probing even meet TOMBSTONE
    else if MAX_PROBING_LEN ≤ i then
      .out (t, NONE)
    else
      .next (i + 1)
  else
    .out (t, NONE)

def lookup (found : ℕ → LinearProbingApprox × Value) (hash : Key → ℕ) (key : Key) :
    LinearProbingApprox × Value :=
  result (t.lookupProbe found key (t.getHashedKey hash key)) (fun _ => (t, NONE))
    (t.capacity + 1) 0

/-- The value is read and the timestamp refreshed. -/
def touchBucket (now : BitVec 32) (slot : ℕ) : LinearProbingApprox × Value :=
  (t.put slot { t.buckets slot with timestamp := now }, (t.buckets slot).value)

def get (hash : Key → ℕ) (key : Key) (now : BitVec 32) : LinearProbingApprox × Value :=
  t.lookup (t.touchBucket now) hash key

/-- The flag is stored; only setting it reads the value. -/
def flagBucket (busy : Bool) (now : BitVec 32) (slot : ℕ) : LinearProbingApprox × Value :=
  if busy then
    (t.put slot { t.buckets slot with busy, timestamp := now }, (t.buckets slot).value)
  else
    (t.put slot { t.buckets slot with busy }, NONE)

def getWithFlag (hash : Key → ℕ) (key : Key) (busy : Bool) (now : BitVec 32) :
    LinearProbingApprox × Value :=
  t.lookup (t.flagBucket busy now) hash key

/-! ## Insert -/

/-- What `Insert` returns: the table, the result code and the two reference
parameters `ev_key` and `ev_value`. -/
structure Inserted where
  table : LinearProbingApprox
  ret : ℤ
  evKey : Key
  evValue : Value

/-- The locals `Insert` carries through its loops. -/
structure InsertState where
  i : ℕ := 0
  minTimestamp : BitVec 32 := -1
  prevMinTimestamp : BitVec 32 := -1
  victimSlot : Option ℕ := none
  prevVictimSlot : Option ℕ := none
  prevLockIdx : Option ℕ := none

def collEvict (key : Key) (value : Value) (victimSlot : ℕ) (now : BitVec 32) :
    Except Stop Inserted :=
  let evKey := (t.buckets victimSlot).key
  let evValue := (t.buckets victimSlot).value
  if evKey = INVALID then
    .error (.runtimeError "ev_key is INVALID wrong victim_slot")
  else
    .ok ⟨t.setBucket victimSlot key value now, 0, evKey, evValue⟩

/-- The key is not inserted and is handed back with its value. -/
def refuse (key : Key) (value : Value) : Except Stop Inserted :=
  .ok ⟨t, -1, key, value⟩

/-- A busy victim is spared. -/
def evictVictim (key : Key) (value : Value) (victimSlot : ℕ) (now : BitVec 32) :
    Except Stop Inserted :=
  if (t.buckets victimSlot).busy then t.refuse key value
  else t.collEvict key value victimSlot now

/-- The victim of the current range. -/
def insertCur (key : Key) (value : Value) (now : BitVec 32) (s : InsertState) :
    Except Stop Inserted :=
  match s.victimSlot with
  | none => t.refuse key value
  | some victimSlot => t.evictVictim key value victimSlot now

/-- The window is full: the victim of the previous range if it is older and
its lock can be taken, else the one of the current range. -/
def insertFull (key : Key) (value : Value) (evKey : Key) (now : BitVec 32)
    (prevTryLock : Bool) (s : InsertState) : Except Stop Inserted :=
  match s.prevVictimSlot with
  | none => t.insertCur key value now s
  | some prevVictimSlot =>
      if s.prevMinTimestamp < s.minTimestamp then
        if prevTryLock then
          -- prev_victim_slot changes to vacant => insert
          if t.isVacantBucket prevVictimSlot then
            .ok ⟨t.setBucket prevVictimSlot key value now, 0, evKey, NONE⟩
          else
            t.evictVictim key value prevVictimSlot now
        else
          t.insertCur key value now s
      else
        t.insertCur key value now s

/-- The victim with the smallest timestamp so far. -/
def insertMin (slot : ℕ) (s : InsertState) : InsertState :=
  if (t.buckets slot).timestamp ≤ s.minTimestamp then
    { s with minTimestamp := (t.buckets slot).timestamp, victimSlot := some slot }
  else s

/-- One probe of the inner loop of `Insert`. -/
def insertProbe (key : Key) (value : Value) (evKey : Key) (now : BitVec 32)
    (prevTryLock : Bool) (loc : ℕ) (s : InsertState) :
    Ctl (Ctl (Except Stop Inserted) InsertState) InsertState :=
  let slot := (loc + s.i) % t.capacity
  if t.isVacantBucket slot then
    if (t.buckets slot).key = key then
      .out (.out (.error (.runtimeError "LPA::key is duplicated")))
    else
      .out (.out (.ok ⟨t.setBucket slot key value now, 0, evKey, NONE⟩))
  else
    let s' := t.insertMin slot s
    if MAX_PROBING_LEN ≤ s.i then
      .out (.out (t.insertFull key value evKey now prevTryLock s'))
    else if ¬ s.i + 1 < t.capacity then
      .out (.next { s' with i := s.i + 1 })
    else if (loc + (s.i + 1)) % t.capacity % lockSize = 0 then
      .out (.next { s' with i := s.i + 1 })
    else
      .next { s' with i := s.i + 1 }

/-- Entering the next lock range. -/
def InsertState.shift (s : InsertState) (lockIdx : ℕ) : InsertState :=
  { s with
    prevLockIdx := some lockIdx
    prevMinTimestamp := s.minTimestamp
    prevVictimSlot := s.victimSlot
    victimSlot := none
    minTimestamp := -1 }

/-- One pass of the outer loop of `Insert`. -/
def insertRange (key : Key) (value : Value) (evKey : Key) (now : BitVec 32)
    (prevTryLock : Bool) (loc : ℕ) (s : InsertState) :
    Ctl (Except Stop Inserted) InsertState :=
  if s.i < t.capacity then
    let lockIdx := (loc + s.i) % t.capacity / lockSize
    match result (t.insertProbe key value evKey now prevTryLock loc) .next
        (t.capacity + 1) s with
    | .out r => .out r
    | .next s' => .next (s'.shift lockIdx)
  else
    .out (.ok ⟨t, 0, evKey, NONE⟩)

/-- `Insert` after its duplicate check. -/
def insertFresh (hash : Key → ℕ) (key : Key) (value : Value) (evKey : Key)
    (now : BitVec 32) (prevTryLock : Bool) : Except Stop Inserted :=
  result (t.insertRange key value evKey now prevTryLock (t.getHashedKey hash key))
    (fun _ => .ok ⟨t, 0, evKey, NONE⟩) (t.capacity + 1) {}

/-- `ev_key` is a reference parameter: `evKey` is what the caller stored in
it. A key found by the leading `Delete` is removed and the call returns. -/
def insert (hash : Key → ℕ) (key : Key) (value : Value) (evKey : Key)
    (now : BitVec 32) (prevTryLock : Bool) : Except Stop Inserted :=
  let d := t.delete hash key
  if d.2 ≠ NONE then
    .ok ⟨d.1, 0, evKey, d.2⟩
  else
    d.1.insertFresh hash key value evKey now prevTryLock

/-! ## ApproxLRUEvict -/

def MAX_EVICT_RETRY : ℕ := 2

/-- What one attempt of `ApproxLRUEvict` draws: the start position, the
outcome of each `try_lock` of a range (by probe number) and of the one of the
previous range. -/
structure EvictDraw where
  rand : ℕ
  curTryLock : ℕ → Bool := fun _ => true
  prevTryLock : Bool := true

/-- The locals of one attempt. -/
structure EvictState where
  i : ℕ := 0
  minTimestamp : BitVec 32
  victimSlot : Option ℕ
  prevMinTimestamp : BitVec 32 := -1
  prevVictimSlot : Option ℕ := none
  prevLockIdx : Option ℕ := none

/-- How an attempt ends: at `out` with table, key and value, or at `RETRY`
with the two locals that are not reset there. -/
inductive EvictExit where
  | reached (table : LinearProbingApprox) (key : Key) (value : Value)
  | retry (minTimestamp : BitVec 32) (victimSlot : Option ℕ)

/-- The bucket is read and buried. -/
def evictBucket (slot : ℕ) : EvictExit :=
  .reached (t.bury slot) (t.buckets slot).key (t.buckets slot).value

/-- `out_direct` and `out_cur`. -/
def evictDirect (prevTryLock : Bool) (s : EvictState) : EvictExit :=
  match s.victimSlot with
  -- unlikely all adjacent slots are not valid
  | none => .retry s.minTimestamp none
  | some victimSlot =>
      match s.prevVictimSlot with
      | none => t.evictBucket victimSlot
      | some prevVictimSlot =>
          if s.prevMinTimestamp < s.minTimestamp then
            if prevTryLock then
              if t.isVacantBucket prevVictimSlot then t.evictBucket victimSlot
              else t.evictBucket prevVictimSlot
            else t.evictBucket victimSlot
          else t.evictBucket victimSlot

def evictMin (slot : ℕ) (s : EvictState) : EvictState :=
  if (t.buckets slot).timestamp ≤ s.minTimestamp then
    { s with minTimestamp := (t.buckets slot).timestamp, victimSlot := some slot }
  else s

/-- The end of a probe: the window is exhausted, or on to the next bucket. -/
def evictNext (prevTryLock : Bool) (loc : ℕ) (s : EvictState) :
    Ctl (Ctl EvictExit EvictState) EvictState :=
  if MAX_PROBING_LEN ≤ s.i then
    .out (.out (t.evictDirect prevTryLock s))
  else if ¬ s.i + 1 < t.capacity then
    .out (.next { s with i := s.i + 1 })
  else if (loc + (s.i + 1)) % t.capacity % lockSize = 0 then
    .out (.next { s with i := s.i + 1 })
  else
    .next { s with i := s.i + 1 }

/-- One probe of the inner loop of `ApproxLRUEvict`. -/
def evictProbe (retryCnt : ℕ) (prevTryLock : Bool) (loc : ℕ) (s : EvictState) :
    Ctl (Ctl EvictExit EvictState) EvictState :=
  let slot := (loc + s.i) % t.capacity
  if t.isValidBucket slot then
    -- selected bucket is now used
    if (t.buckets slot).busy then
      .out (.out (.retry s.minTimestamp s.victimSlot))
    else if MAX_EVICT_RETRY < retryCnt then
      -- Random replacement: find victim immediately
      .out (.out (t.evictDirect prevTryLock
        { s with prevVictimSlot := none, victimSlot := some slot }))
    else
      t.evictNext prevTryLock loc (t.evictMin slot s)
  else
    t.evictNext prevTryLock loc s

def EvictState.shift (s : EvictState) (lockIdx : ℕ) : EvictState :=
  { s with
    prevLockIdx := some lockIdx
    prevMinTimestamp := s.minTimestamp
    prevVictimSlot := s.victimSlot
    victimSlot := none
    minTimestamp := -1 }

/-- One pass of the outer loop of `ApproxLRUEvict`; a range that is locked
already sends it to `RETRY`. -/
def evictRange (key : Key) (retryCnt : ℕ) (d : EvictDraw) (loc : ℕ) (s : EvictState) :
    Ctl EvictExit EvictState :=
  if s.i < t.capacity then
    let lockIdx := (loc + s.i) % t.capacity / lockSize
    if d.curTryLock s.i then
      match result (t.evictProbe retryCnt d.prevTryLock loc) .next (t.capacity + 1) s with
      | .out e => .out e
      | .next s' => .next (s'.shift lockIdx)
    else
      .out (.retry s.minTimestamp s.victimSlot)
  else
    .out (.reached t key NONE)

/-- One attempt, from `RETRY` on. -/
def evictAttempt (key : Key) (retryCnt : ℕ) (d : EvictDraw) (minTimestamp : BitVec 32)
    (victimSlot : Option ℕ) : EvictExit :=
  result (t.evictRange key retryCnt d (d.rand % t.capacity))
    (fun s => .retry s.minTimestamp s.victimSlot) (t.capacity + 1)
    { minTimestamp, victimSlot }

/-- `out`: the two checks on the way back. -/
def evictOut (table : LinearProbingApprox) (key : Key) (value : Value) :
    Except Stop (LinearProbingApprox × Key × Value) :=
  if key = INVALID ∨ key = TOMBSTONE then
    .error (.runtimeError "Evict: key is INVALID or TOMBSTONE")
  else if value = NONE then
    .error (.runtimeError "Evict: value is NONE")
  else
    .ok (table, key, value)

/-- The attempts, one per draw; `retryCnt` is the value of `retry_cnt` after
the increment at `RETRY`. -/
def evictRetry (key : Key) :
    List EvictDraw → ℕ → BitVec 32 → Option ℕ → Except Stop (LinearProbingApprox × Key × Value)
  | [], _, _, _ => .error .retrying
  | d :: ds, retryCnt, minTimestamp, victimSlot =>
      match t.evictAttempt key retryCnt d minTimestamp victimSlot with
      | .reached table key value => evictOut table key value
      | .retry minTimestamp victimSlot =>
          evictRetry key ds (retryCnt + 1) minTimestamp victimSlot

/-- `key` is a reference parameter: what the caller stored in it. -/
def approxLRUEvict (key : Key) (draws : List EvictDraw) :
    Except Stop (LinearProbingApprox × Key × Value) :=
  t.evictRetry key draws 0 (-1) none

def evict (key : Key) (draws : List EvictDraw) :
    Except Stop (LinearProbingApprox × Key × Value) :=
  t.approxLRUEvict key draws

end LinearProbingApprox

end CleancacheRdma.Daemon
