import Mathlib
import CleancacheRdma.Daemon.HashTable.Scan
import CleancacheRdma.Lib.System

/-!
# Eviction among other threads

The operations of `LinearProbingApprox` as steps of a run: what a thread does
between taking and releasing a mutex of `mtxs` is one step, that is one pass of
the outer loop of the operation. One `ApproxLRUEvict` runs among any number of
threads that insert, delete and flag.
-/

namespace CleancacheRdma.Daemon

open Lib (Ctl System)
open Lib.Loop

namespace LinearProbingApprox

/-! ## Steps -/

inductive TableOp where
  | insert (key : Key) (value : Value) (evKey : Key)
  | delete (key : Key)
  | getWithFlag (key : Key) (busy : Bool)

/-- Where a thread is between two sections; `checkDup` is the leading `Delete`
of an `Insert`. -/
inductive OpPc where
  | idle
  | delete (key : Key) (i : ℕ)
  | checkDup (key : Key) (value : Value) (evKey : Key) (i : ℕ)
  | insert (key : Key) (value : Value) (evKey : Key) (s : InsertState)
  | lookup (key : Key) (busy : Bool) (i : ℕ)

def TableOp.begin : TableOp → OpPc
  | .insert key value evKey => .checkDup key value evKey 0
  | .delete key => .delete key 0
  | .getWithFlag key busy => .lookup key busy 0

/-- Where the eviction is: at `RETRY`, with `retry_cnt` after the increment and
the two locals that are not reset there, in a scan, or back. -/
inductive EvictPc where
  | retry (retryCnt : ℕ) (minTimestamp : BitVec 32) (victimSlot : Option ℕ)
  | scan (retryCnt loc : ℕ) (s : EvictState)
  | out (r : Except Stop (Key × Value))

structure Shared where
  table : LinearProbingApprox
  evict : EvictPc := .retry 0 (-1) none
  ops : ℕ → OpPc := fun _ => .idle

/-- `retry` draws the position the next scan starts from. -/
inductive SharedStep where
  | call (tid : ℕ) (op : TableOp)
  | op (tid : ℕ) (now : BitVec 32) (prevTryLock : Bool)
  | retry (rand : ℕ)
  | evict (curTryLock prevTryLock : Bool)

variable (hash : Key → ℕ) (t : LinearProbingApprox)

/-- One section of a thread. -/
def opSection (now : BitVec 32) (prevTryLock : Bool) : OpPc → Option (LinearProbingApprox × OpPc)
  | .idle => none
  | .delete key i =>
      match t.deleteRange key (t.getHashedKey hash key) i with
      | .out r => some (r.1, .idle)
      | .next i => some (t, .delete key i)
  | .checkDup key value evKey i =>
      match t.deleteRange key (t.getHashedKey hash key) i with
      | .out r => some (r.1, if r.2 ≠ NONE then .idle else .insert key value evKey {})
      | .next i => some (t, .checkDup key value evKey i)
  | .insert key value evKey s =>
      match t.insertRange key value evKey now prevTryLock (t.getHashedKey hash key) s with
      | .out (.ok r) => some (r.table, .idle)
      -- nothing catches it, the daemon ends
      | .out (.error _) => none
      | .next s => some (t, .insert key value evKey s)
  | .lookup key busy i =>
      match t.lookupProbe (t.flagBucket busy now) key (t.getHashedKey hash key) i with
      | .out r => some (r.1, .idle)
      | .next i => some (t, .lookup key busy i)

/-- One section of the eviction. -/
def evictSection (curTryLock prevTryLock : Bool) :
    EvictPc → Option (LinearProbingApprox × EvictPc)
  | .scan retryCnt loc s =>
      match t.evictRange INVALID retryCnt
          { rand := 0, curTryLock := fun _ => curTryLock, prevTryLock } loc s with
      | .next s => some (t, .scan retryCnt loc s)
      | .out (.retry minTimestamp victimSlot) =>
          some (t, .retry (retryCnt + 1) minTimestamp victimSlot)
      | .out (.reached table key value) =>
          some (table, .out ((evictOut table key value).map Prod.snd))
  | _ => none

namespace Shared

def step (s : Shared) : SharedStep → Option Shared
  | .call tid op =>
      match s.ops tid with
      | .idle => some { s with ops := Function.update s.ops tid op.begin }
      | _ => none
  | .op tid now prevTryLock =>
      (s.table.opSection hash now prevTryLock (s.ops tid)).map fun r =>
        { s with table := r.1, ops := Function.update s.ops tid r.2 }
  | .retry rand =>
      match s.evict with
      | .retry retryCnt minTimestamp victimSlot =>
          some { s with
            evict := .scan retryCnt (rand % s.table.capacity) { minTimestamp, victimSlot } }
      | _ => none
  | .evict curTryLock prevTryLock =>
      (s.table.evictSection curTryLock prevTryLock s.evict).map fun r =>
        { s with table := r.1, evict := r.2 }

end Shared

/-- Every valid bucket has a value. -/
def Sound (t : LinearProbingApprox) : Prop :=
  ∀ slot, Usable (t.buckets slot).key → (t.buckets slot).value ≠ NONE

/-- Keys and values of the other threads. -/
def TableOp.WellFormed : TableOp → Prop
  | .insert key value _ => Usable key ∧ value ≠ NONE
  | .delete key | .getWithFlag key _ => Usable key

instance : (op : TableOp) → Decidable op.WellFormed
  | .insert _ _ _ => inferInstanceAs (Decidable (_ ∧ _))
  | .delete _ | .getWithFlag _ _ => inferInstanceAs (Decidable (Usable _))

def SharedStep.WellFormed : SharedStep → Prop
  | .call _ c => c.WellFormed
  | _ => True

instance : (a : SharedStep) → Decidable a.WellFormed
  | .call _ c => inferInstanceAs (Decidable c.WellFormed)
  | .op _ _ _ | .retry _ | .evict _ _ => isTrue trivial

/-! ## What the eviction may take -/

/-- The lock ranges the eviction holds when it takes `slot`: the one of its
section, and for the candidate of the previous range that one again. -/
def Holds (prevTryLock : Bool) (slot : ℕ) : EvictPc → Prop
  | .scan _ loc s =>
      slot / lockSize = (loc + s.i) % t.capacity / lockSize ∨
        (prevTryLock = true ∧ s.prevVictimSlot = some slot ∧
          s.prevLockIdx = some (slot / lockSize))
  | _ => False

/-- If the step ends the eviction, it returns key and value of a bucket that was
valid and not busy, in a range it holds, and this bucket is buried. -/
def Shared.Safe (s : Shared) : SharedStep → Prop
  | .evict curTryLock prevTryLock =>
      ∀ table r, s.table.evictSection curTryLock prevTryLock s.evict = some (table, .out r) →
        ∃ slot, s.table.Evictable slot ∧ s.table.Holds prevTryLock slot s.evict ∧
          table = s.table.bury slot ∧
          r = .ok ((s.table.buckets slot).key, (s.table.buckets slot).value)
  | _ => True

/-! ## When it holds -/

/-- The section that begins at probe `i` comes as far as probe `j`. -/
def Reaches (loc i j : ℕ) : Prop :=
  i ≤ j ∧ j ≤ MAX_PROBING_LEN ∧ ∀ k ≤ j, i < k → (loc + k) % t.capacity % lockSize ≠ 0

instance (loc i j : ℕ) : Decidable (t.Reaches loc i j) :=
  inferInstanceAs (Decidable (_ ∧ _ ∧ _))

/-- The window ends in this section, and every valid bucket of the section is
free and has a timestamp above `m`. -/
def Younger (retryCnt loc i : ℕ) (m : BitVec 32) : Prop :=
  t.Reaches loc i MAX_PROBING_LEN ∧
    ∀ j ≤ MAX_PROBING_LEN, t.Reaches loc i j → t.isValidBucket ((loc + j) % t.capacity) →
      (t.buckets ((loc + j) % t.capacity)).busy = false ∧ retryCnt ≤ MAX_EVICT_RETRY ∧
        m < (t.buckets ((loc + j) % t.capacity)).timestamp

instance (retryCnt loc i : ℕ) (m : BitVec 32) : Decidable (t.Younger retryCnt loc i m) :=
  inferInstanceAs (Decidable (_ ∧ _))

/-- The section has a bucket of its own to offer. -/
def Offers (loc i : ℕ) : Prop :=
  ∃ j ≤ MAX_PROBING_LEN, t.Reaches loc i j ∧ t.isValidBucket ((loc + j) % t.capacity)

instance (loc i : ℕ) : Decidable (t.Offers loc i) :=
  inferInstanceAs (Decidable (∃ j ≤ _, _))

/-- A section with a candidate of an aborted scan meets a bucket that is as old
or busy before the window ends; and when the eviction goes back to the candidate
of the previous range, that bucket is of the range it locks again, and free. -/
def Shared.Settles (s : Shared) : SharedStep → Prop
  | .evict curTryLock prevTryLock =>
      match s.evict with
      | .scan retryCnt loc e =>
          curTryLock = true →
            (e.victimSlot ≠ none → ¬ s.table.Younger retryCnt loc e.i e.minTimestamp) ∧
            ∀ p ∈ e.prevVictimSlot, prevTryLock = true → s.table.isValidBucket p →
              s.table.Younger retryCnt loc e.i e.prevMinTimestamp → s.table.Offers loc e.i →
              e.prevLockIdx = some (p / lockSize) ∧ (s.table.buckets p).busy = false
      | _ => True
  | _ => True

instance (s : Shared) : (a : SharedStep) → Decidable (s.Settles a)
  | .evict _ _ => by
      unfold Shared.Settles
      cases s.evict with
      | retry _ _ _ => exact isTrue trivial
      | out _ => exact isTrue trivial
      | scan _ _ _ => exact inferInstanceAs (Decidable (_ → _ ∧ ∀ p ∈ _, _))
  | .call _ _ | .op _ _ _ | .retry _ => isTrue trivial

/-! ## One section -/

section Section

variable {t} {hash} {loc : ℕ}

theorem Reaches.refl {i : ℕ} (h : i ≤ MAX_PROBING_LEN) : t.Reaches loc i i :=
  ⟨Nat.le_refl i, h, fun _ hk hlt => absurd hk (Nat.not_le_of_lt hlt)⟩

theorem Reaches.succ {i j : ℕ} (h : t.Reaches loc i j) (hj : j < MAX_PROBING_LEN)
    (hedge : (loc + (j + 1)) % t.capacity % lockSize ≠ 0) : t.Reaches loc i (j + 1) := by
  refine ⟨Nat.le_succ_of_le h.1, hj, fun k hk hlt => ?_⟩
  rcases Nat.lt_or_eq_of_le hk with hk | rfl
  · exact h.2.2 k (Nat.le_of_lt_succ hk) hlt
  · exact hedge

theorem Reaches.le {i j k : ℕ} (h : t.Reaches loc i j) (hik : i ≤ k) (hk : k ≤ j) :
    t.Reaches loc i k :=
  ⟨hik, hk.trans h.2.1, fun l hl hlt => h.2.2 l (hl.trans hk) hlt⟩

/-- The buckets of a section are of one lock range. -/
theorem Reaches.lockIdx (hcap : 0 < t.capacity) {i j : ℕ} (h : t.Reaches loc i j) :
    (loc + j) % t.capacity / lockSize = (loc + i) % t.capacity / lockSize := by
  obtain ⟨hle, -, hedge⟩ := h
  induction j with
  | zero => rw [Nat.le_zero.mp hle]
  | succ j ih =>
      rcases Nat.lt_or_eq_of_le hle with hlt | rfl
      swap
      · rfl
      have hprev := ih (Nat.le_of_lt_succ hlt) fun k hk => hedge k (Nat.le_succ_of_le hk)
      have hne := hedge (j + 1) (Nat.le_refl _) hlt
      have hstep : (loc + (j + 1)) % t.capacity = (loc + j) % t.capacity + 1 := by
        have hmod := Nat.mod_lt (loc + j) hcap
        rcases Nat.lt_or_ge ((loc + j) % t.capacity + 1) t.capacity with hlt' | hge
        · rw [← Nat.add_assoc, Nat.add_mod, Nat.mod_eq_of_lt (by omega : 1 < t.capacity),
            Nat.mod_eq_of_lt hlt']
        · -- the position wraps around to a multiple of the lock size
          refine absurd ?_ hne
          have hzero : (loc + (j + 1)) % t.capacity = 0 := by
            have hend : (loc + j) % t.capacity + 1 = t.capacity := by omega
            rw [← Nat.add_assoc, ← Nat.mod_add_mod, hend, Nat.mod_self]
          rw [hzero]
          rfl
      rw [hstep] at hne ⊢
      rw [← hprev]
      simp only [lockSize, MAX_PROBING_LEN] at hne ⊢
      omega

/-- Between two sections: the candidates are buckets, and a section that knows
a candidate of the previous range starts without one of its own. -/
structure ScanInv (t : LinearProbingApprox) (s : EvictState) : Prop where
  le_max : s.i ≤ MAX_PROBING_LEN
  victim : ∀ v, s.victimSlot = some v → v < t.capacity
  prevVictim : ∀ p, s.prevVictimSlot = some p → p < t.capacity
  alone : s.prevVictimSlot ≠ none → s.victimSlot = none

/-- After the probes before `n` of the section that began in `e`. -/
structure Gathered (t : LinearProbingApprox) (retryCnt loc : ℕ) (e : EvictState) (n : ℕ)
    (s : EvictState) : Prop where
  prevVictim : s.prevVictimSlot = e.prevVictimSlot
  prevMin : s.prevMinTimestamp = e.prevMinTimestamp
  seen : ∀ j, e.i ≤ j → j < n → t.isValidBucket ((loc + j) % t.capacity) →
    (t.buckets ((loc + j) % t.capacity)).busy = false ∧ retryCnt ≤ MAX_EVICT_RETRY ∧
      s.minTimestamp ≤ (t.buckets ((loc + j) % t.capacity)).timestamp
  victim : (s.victimSlot = e.victimSlot ∧ s.minTimestamp = e.minTimestamp ∧
      ∀ j, e.i ≤ j → j < n → t.isValidBucket ((loc + j) % t.capacity) →
        e.minTimestamp < (t.buckets ((loc + j) % t.capacity)).timestamp) ∨
    ∃ j, e.i ≤ j ∧ j < n ∧ t.isValidBucket ((loc + j) % t.capacity) ∧
      s.victimSlot = some ((loc + j) % t.capacity)

/-- What a section of the eviction settles on. -/
inductive Settled (t : LinearProbingApprox) (retryCnt loc : ℕ) (prevTryLock : Bool)
    (e : EvictState) (slot : ℕ) : Prop where
  | found (j : ℕ) (hj : t.Reaches loc e.i j) (hslot : slot = (loc + j) % t.capacity)
      (hvalid : t.isValidBucket slot) (hfree : (t.buckets slot).busy = false)
  | carried (hslot : e.victimSlot = some slot)
      (hyounger : t.Younger retryCnt loc e.i e.minTimestamp)
  | back (hslot : e.prevVictimSlot = some slot) (hlock : prevTryLock = true)
      (hvalid : t.isValidBucket slot) (hyounger : t.Younger retryCnt loc e.i e.prevMinTimestamp)
      (hoffers : t.Offers loc e.i)

/-- How a section ends the scan. -/
def SectionExit (t : LinearProbingApprox) (retryCnt loc : ℕ) (prevTryLock : Bool)
    (e : EvictState) : EvictExit → Prop
  | .reached table key value =>
      ∃ slot, t.Settled retryCnt loc prevTryLock e slot ∧ table = t.bury slot ∧
        key = (t.buckets slot).key ∧ value = (t.buckets slot).value
  | .retry _ victimSlot => ∀ v, victimSlot = some v → v < t.capacity

variable {retryCnt : ℕ} {prevTryLock : Bool} {e s : EvictState}

theorem Gathered.start : t.Gathered retryCnt loc e e.i e where
  prevVictim := rfl
  prevMin := rfl
  seen _ hle hlt := absurd hle (Nat.not_le_of_lt hlt)
  victim := Or.inl ⟨rfl, rfl, fun _ hle hlt => absurd hle (Nat.not_le_of_lt hlt)⟩

/-- A probe that meets no valid bucket. -/
theorem Gathered.skip {n : ℕ} (h : t.Gathered retryCnt loc e n s)
    (hvalid : ¬ t.isValidBucket ((loc + n) % t.capacity)) :
    t.Gathered retryCnt loc e (n + 1) s := by
  have hsplit : ∀ j, j < n + 1 → t.isValidBucket ((loc + j) % t.capacity) → j < n := by
    intro j hj hv
    rcases Nat.lt_or_eq_of_le (Nat.le_of_lt_succ hj) with hlt | rfl
    · exact hlt
    · exact absurd hv hvalid
  refine ⟨h.prevVictim, h.prevMin, fun j hle hj hv => h.seen j hle (hsplit j hj hv) hv, ?_⟩
  rcases h.victim with ⟨hv, hmin, hall⟩ | ⟨j, hle, hj, hv, hslot⟩
  · exact Or.inl ⟨hv, hmin, fun j hle hj hv => hall j hle (hsplit j hj hv) hv⟩
  · exact Or.inr ⟨j, hle, Nat.lt_succ_of_lt hj, hv, hslot⟩

/-- A probe that meets a free one. -/
theorem Gathered.min {n : ℕ} (h : t.Gathered retryCnt loc e n s) (hle : e.i ≤ n)
    (hvalid : t.isValidBucket ((loc + n) % t.capacity))
    (hfree : (t.buckets ((loc + n) % t.capacity)).busy = false)
    (hretry : retryCnt ≤ MAX_EVICT_RETRY) :
    t.Gathered retryCnt loc e (n + 1) (t.evictMin ((loc + n) % t.capacity) s) := by
  unfold evictMin
  split
  next hmin =>
    refine ⟨h.prevVictim, h.prevMin, fun j hej hj hv => ?_,
      Or.inr ⟨n, hle, Nat.lt_succ_self n, hvalid, rfl⟩⟩
    rcases Nat.lt_or_eq_of_le (Nat.le_of_lt_succ hj) with hlt | rfl
    · obtain ⟨hb, hr, hts⟩ := h.seen j hej hlt hv
      exact ⟨hb, hr, BitVec.le_trans hmin hts⟩
    · exact ⟨hfree, hretry, BitVec.le_refl _⟩
  next hmin =>
    have hlt : s.minTimestamp < (t.buckets ((loc + n) % t.capacity)).timestamp :=
      BitVec.not_le.mp hmin
    refine ⟨h.prevVictim, h.prevMin, fun j hej hj hv => ?_, ?_⟩
    · rcases Nat.lt_or_eq_of_le (Nat.le_of_lt_succ hj) with hlt' | rfl
      · exact h.seen j hej hlt' hv
      · exact ⟨hfree, hretry, BitVec.le_of_lt hlt⟩
    · rcases h.victim with ⟨hv, hmin', hall⟩ | ⟨j, hej, hj, hv, hslot⟩
      · refine Or.inl ⟨hv, hmin', fun j hej hj hv => ?_⟩
        rcases Nat.lt_or_eq_of_le (Nat.le_of_lt_succ hj) with hlt' | rfl
        · exact hall j hej hlt' hv
        · rw [← hmin']
          exact hlt
      · exact Or.inr ⟨j, hej, Nat.lt_succ_of_lt hj, hv, hslot⟩

theorem Gathered.victim_lt {n : ℕ} (h : t.Gathered retryCnt loc e n s) (he : t.ScanInv e)
    (hcap : 0 < t.capacity) : ∀ v, s.victimSlot = some v → v < t.capacity := by
  intro v hv
  rcases h.victim with ⟨hsame, -, -⟩ | ⟨j, -, -, -, hslot⟩
  · exact he.victim v (hsame ▸ hv)
  · rw [hslot] at hv
    cases hv
    exact Nat.mod_lt _ hcap

/-- `out_direct` and `out_cur` at the end of the window. -/
theorem Gathered.exit (h : t.Gathered retryCnt loc e (MAX_PROBING_LEN + 1) s) (he : t.ScanInv e)
    (hend : t.Reaches loc e.i MAX_PROBING_LEN) :
    t.SectionExit retryCnt loc prevTryLock e (t.evictDirect prevTryLock s) := by
  unfold evictDirect
  cases hs : s.victimSlot with
  | none =>
      intro v hv
      cases hv
  | some v =>
      have hcur : t.SectionExit retryCnt loc prevTryLock e (t.evictBucket v) := by
        refine ⟨v, ?_, rfl, rfl, rfl⟩
        rcases h.victim with ⟨hsame, -, hall⟩ | ⟨j, hle, hj, hvalid, hslot⟩
        · refine .carried (hsame ▸ hs) ⟨hend, fun j hj hreach hvalid => ?_⟩
          obtain ⟨hb, hr, -⟩ := h.seen j hreach.1 (Nat.lt_succ_of_le hj) hvalid
          exact ⟨hb, hr, hall j hreach.1 (Nat.lt_succ_of_le hj) hvalid⟩
        · obtain rfl : v = (loc + j) % t.capacity := Option.some.inj (hs.symm.trans hslot)
          exact .found j (hend.le hle (Nat.le_of_lt_succ hj)) rfl hvalid
            (h.seen j hle hj hvalid).1
      dsimp only
      cases hp : s.prevVictimSlot with
      | none => exact hcur
      | some p =>
          have hep : e.prevVictimSlot = some p := h.prevVictim ▸ hp
          dsimp only
          split
          next hlt =>
            split
            next hlock =>
              split
              · exact hcur
              next hvac =>
                refine ⟨p, .back hep hlock ?_ ⟨hend, fun j hj hreach hvalid => ?_⟩ ?_, rfl, rfl, rfl⟩
                · rw [isValidBucket_iff, ← isVacantBucket_false]
                  exact Bool.eq_false_iff.mpr hvac
                · obtain ⟨hb, hr, hts⟩ := h.seen j hreach.1 (Nat.lt_succ_of_le hj) hvalid
                  rw [h.prevMin] at hlt
                  exact ⟨hb, hr, Nat.lt_of_lt_of_le hlt hts⟩
                · -- the section began without a candidate, so it has found one
                  have hnone := he.alone (by rw [hep]; exact Option.some_ne_none p)
                  rcases h.victim with ⟨hsame, -, -⟩ | ⟨j, hle, hj, hvalid, -⟩
                  · rw [hsame, hnone] at hs
                    cases hs
                  · have hj' := Nat.le_of_lt_succ hj
                    exact ⟨j, hj', hend.le hle hj', hvalid⟩
            · exact hcur
          · exact hcur

/-- How the inner loop ends. -/
def RangeExit (t : LinearProbingApprox) (retryCnt loc : ℕ) (prevTryLock : Bool)
    (e : EvictState) : Ctl EvictExit EvictState → Prop
  | .out x => t.SectionExit retryCnt loc prevTryLock e x
  | .next s => s.i ≤ MAX_PROBING_LEN ∧ ∀ v, s.victimSlot = some v → v < t.capacity

/-- What one probe of a section owes. -/
abbrev ProbeOwes (t : LinearProbingApprox) (retryCnt loc : ℕ) (prevTryLock : Bool)
    (e s : EvictState) : Ctl (Ctl EvictExit EvictState) EvictState → Prop :=
  Owes (fun s => t.Gathered retryCnt loc e s.i s ∧ t.Reaches loc e.i s.i)
    (fun s => MAX_PROBING_LEN - s.i) (t.RangeExit retryCnt loc prevTryLock e) s

theorem evictNext_owes (hcap : lockSize ≤ t.capacity) (he : t.ScanInv e) {s₀ : EvictState}
    (hi : s.i = s₀.i) (h : t.Gathered retryCnt loc e (s₀.i + 1) s)
    (hreach : t.Reaches loc e.i s₀.i) :
    t.ProbeOwes retryCnt loc prevTryLock e s₀ (t.evictNext prevTryLock loc s) := by
  have hpos : 0 < t.capacity := Nat.lt_of_lt_of_le (by decide) hcap
  have hle : s₀.i ≤ MAX_PROBING_LEN := hreach.2.1
  unfold evictNext
  by_cases hmax : MAX_PROBING_LEN ≤ s.i
  · rw [if_pos hmax]
    have hend : s₀.i = MAX_PROBING_LEN := Nat.le_antisymm hle (hi ▸ hmax)
    rw [hend] at h hreach
    exact h.exit he hreach
  · rw [if_neg hmax]
    have hlt : s₀.i < MAX_PROBING_LEN := by
      rw [← hi]
      exact Nat.lt_of_not_le hmax
    have hsucc : s.i + 1 < t.capacity := by
      rw [hi]
      exact Nat.lt_of_lt_of_le (Nat.succ_lt_succ hlt) hcap
    rw [if_neg (Classical.not_not.mpr hsucc), hi]
    split
    · exact ⟨hlt, h.victim_lt he hpos⟩
    next hedge =>
      refine ⟨⟨⟨h.prevVictim, h.prevMin, h.seen, h.victim⟩, hreach.succ hlt hedge⟩, ?_⟩
      show MAX_PROBING_LEN - (s₀.i + 1) < MAX_PROBING_LEN - s₀.i
      exact Nat.sub_lt_sub_left hlt (Nat.lt_succ_self _)

theorem evictProbe_owes (hcap : lockSize ≤ t.capacity) (he : t.ScanInv e)
    (h : t.Gathered retryCnt loc e s.i s) (hreach : t.Reaches loc e.i s.i) :
    t.ProbeOwes retryCnt loc prevTryLock e s (t.evictProbe retryCnt prevTryLock loc s) := by
  have hpos : 0 < t.capacity := Nat.lt_of_lt_of_le (by decide) hcap
  unfold evictProbe
  dsimp only
  split
  next hvalid =>
    split
    · exact h.victim_lt he hpos
    next hbusy =>
      have hfree : (t.buckets ((loc + s.i) % t.capacity)).busy = false := Bool.eq_false_iff.mpr hbusy
      split
      · -- random replacement takes the bucket it is at
        exact ⟨_, .found s.i hreach rfl hvalid hfree, rfl, rfl, rfl⟩
      next hretry =>
        exact evictNext_owes hcap he (evictMin_i _ s)
          (h.min hreach.1 hvalid hfree (Nat.le_of_not_lt hretry)) hreach
  next hvalid => exact evictNext_owes hcap he rfl (h.skip hvalid) hreach

/-- What a section of a scan does: it settles on a bucket, sends the scan back
to `RETRY`, or hands its candidate on to the section of the next range. -/
theorem evictRange_owes (hcap : lockSize ≤ t.capacity) (he : t.ScanInv e) (d : EvictDraw) :
    match t.evictRange INVALID retryCnt d loc e with
    | .out x => d.curTryLock e.i = false ∧ x = .retry e.minTimestamp e.victimSlot ∨
        d.curTryLock e.i = true ∧ t.SectionExit retryCnt loc d.prevTryLock e x
    | .next s => t.ScanInv s := by
  have hlt : e.i < t.capacity :=
    Nat.lt_of_lt_of_le (Nat.lt_succ_of_le he.le_max) hcap
  unfold evictRange
  rw [if_pos hlt]
  dsimp only
  by_cases hlock : d.curTryLock e.i = true
  swap
  · rw [if_neg hlock]
    exact Or.inl ⟨Bool.eq_false_iff.mpr hlock, rfl⟩
  rw [if_pos hlock]
  have hloop : t.RangeExit retryCnt loc d.prevTryLock e
      (result (t.evictProbe retryCnt d.prevTryLock loc) .next (t.capacity + 1) e) := by
    refine result_total (I := fun s => t.Gathered retryCnt loc e s.i s ∧ t.Reaches loc e.i s.i)
      (μ := fun s => MAX_PROBING_LEN - s.i) (fun s hs => evictProbe_owes hcap he hs.1 hs.2)
      ⟨Gathered.start, Reaches.refl he.le_max⟩ ?_
    refine Nat.lt_succ_of_le ((Nat.sub_le _ _).trans ?_)
    exact (Nat.le_succ _).trans hcap
  revert hloop
  cases result (t.evictProbe retryCnt d.prevTryLock loc) Ctl.next (t.capacity + 1) e with
  | out x => exact fun hloop => Or.inr ⟨hlock, hloop⟩
  | next s =>
      rintro ⟨hi, hv⟩
      exact ⟨hi, fun v hv => (nomatch hv), hv, fun _ => rfl⟩

end Section

/-! ## Runs -/

/-- The candidates are buckets, and the eviction has thrown nothing. -/
def EvictPc.Inv (t : LinearProbingApprox) : EvictPc → Prop
  | .retry _ _ victimSlot => ∀ v, victimSlot = some v → v < t.capacity
  | .scan _ _ s => t.ScanInv s
  | .out r => ∃ kv, r = .ok kv

def OpPc.Inv : OpPc → Prop
  | .checkDup _ value _ _ | .insert _ value _ _ => value ≠ NONE
  | _ => True

structure Shared.Inv (s : Shared) : Prop where
  capacity : lockSize ≤ s.table.capacity
  sound : s.table.Sound
  evict : s.evict.Inv s.table
  ops : ∀ tid, (s.ops tid).Inv

section Run

variable {hash : Key → ℕ} {t t' : LinearProbingApprox} {s s' : Shared}

theorem EvictPc.Inv.of_capacity {pc : EvictPc} (h : pc.Inv t) (hcap : t'.capacity = t.capacity) :
    pc.Inv t' := by
  cases pc with
  | retry _ _ _ =>
      intro v hv
      rw [hcap]
      exact h v hv
  | scan _ _ s =>
      obtain ⟨hi, hv, hp, halone⟩ := h
      exact ⟨hi, hcap ▸ hv, hcap ▸ hp, halone⟩
  | out _ => exact h

/-- A section of the eviction buries what it settles on and ends, or it leaves
the table alone and goes on. -/
theorem evictSection_cases {pc pc' : EvictPc} {curTryLock prevTryLock : Bool}
    (hcap : lockSize ≤ t.capacity) (hpc : pc.Inv t)
    (hstep : t.evictSection curTryLock prevTryLock pc = some (t', pc')) :
    (t' = t ∧ pc'.Inv t ∧ ∀ r, pc' ≠ .out r) ∨
    ∃ retryCnt loc e slot, pc = .scan retryCnt loc e ∧ curTryLock = true ∧
      t.Settled retryCnt loc prevTryLock e slot ∧ t' = t.bury slot ∧
      pc' = .out ((evictOut t' (t.buckets slot).key (t.buckets slot).value).map Prod.snd) := by
  cases pc with
  | retry _ _ _ => cases hstep
  | out _ => cases hstep
  | scan retryCnt loc e =>
      have he : t.ScanInv e := hpc
      have howes := @evictRange_owes t loc retryCnt e hcap he
        { rand := 0, curTryLock := fun _ => curTryLock, prevTryLock }
      simp only [evictSection] at hstep
      revert hstep howes
      cases t.evictRange INVALID retryCnt
          { rand := 0, curTryLock := fun _ => curTryLock, prevTryLock } loc e with
      | next e' =>
          intro hstep howes
          cases hstep
          exact Or.inl ⟨rfl, howes, fun _ => EvictPc.noConfusion⟩
      | out x =>
          cases x with
          | retry m v =>
              rintro hstep (⟨-, heq⟩ | ⟨-, hexit⟩)
              · cases heq
                cases hstep
                exact Or.inl ⟨rfl, he.victim, fun _ => EvictPc.noConfusion⟩
              · cases hstep
                exact Or.inl ⟨rfl, hexit, fun _ => EvictPc.noConfusion⟩
          | reached table key value =>
              rintro hstep (⟨-, heq⟩ | ⟨hlock, slot, hsettled, rfl, rfl, rfl⟩)
              · cases heq
              · cases hstep
                exact Or.inr ⟨retryCnt, loc, e, slot, rfl, hlock, hsettled, rfl, rfl⟩

/-- Where the candidates are the right ones, the bucket is evictable and in a
range that is held. -/
theorem Settled.evictable {retryCnt loc slot : ℕ} {e : EvictState} {curTryLock prevTryLock : Bool}
    (hinv : s.Inv) (hpc : s.evict = .scan retryCnt loc e) (hlock : curTryLock = true)
    (hsettles : s.Settles (.evict curTryLock prevTryLock))
    (h : s.table.Settled retryCnt loc prevTryLock e slot) :
    s.table.Evictable slot ∧ s.table.Holds prevTryLock slot s.evict := by
  have hpos : 0 < s.table.capacity := Nat.lt_of_lt_of_le (by decide) hinv.capacity
  have he : s.table.ScanInv e := by
    have hevict := hinv.evict
    rw [hpc] at hevict
    exact hevict
  simp only [Shared.Settles, hpc] at hsettles
  obtain ⟨hcarried, hback⟩ := hsettles hlock
  rw [hpc]
  cases h with
  | found j hj hslot hvalid hfree =>
      subst hslot
      exact ⟨⟨Nat.mod_lt _ hpos, isValidBucket_iff.mp hvalid, hfree⟩, Or.inl (hj.lockIdx hpos)⟩
  | carried hslot hyounger =>
      exact absurd hyounger (hcarried (by rw [hslot]; exact Option.some_ne_none slot))
  | back hslot hprev hvalid hyounger hoffers =>
      obtain ⟨hidx, hfree⟩ := hback slot hslot hprev hvalid hyounger hoffers
      exact ⟨⟨he.prevVictim slot hslot, isValidBucket_iff.mp hvalid, hfree⟩,
        Or.inr ⟨hprev, hslot, hidx⟩⟩

theorem evictOut_ok {table : LinearProbingApprox} {slot : ℕ} (hsound : t.Sound)
    (h : t.Evictable slot) :
    (evictOut table (t.buckets slot).key (t.buckets slot).value).map Prod.snd =
      .ok ((t.buckets slot).key, (t.buckets slot).value) := by
  obtain ⟨-, ⟨hinvalid, htombstone⟩, -⟩ := h
  unfold evictOut
  rw [if_neg (not_or.mpr ⟨hinvalid, htombstone⟩), if_neg (hsound slot ⟨hinvalid, htombstone⟩)]
  rfl

theorem Shared.Inv.safe (h : s.Inv) {a : SharedStep} (hsettles : s.Settles a) : s.Safe a := by
  cases a with
  | evict curTryLock prevTryLock =>
      intro table r hstep
      rcases evictSection_cases h.capacity h.evict hstep with ⟨-, -, hout⟩ |
        ⟨retryCnt, loc, e, slot, hpc, hlock, hsettled, rfl, hr⟩
      · exact absurd rfl (hout r)
      · obtain ⟨hev, hholds⟩ := hsettled.evictable h hpc hlock hsettles
        refine ⟨slot, hev, hholds, rfl, ?_⟩
        rw [evictOut_ok h.sound hev] at hr
        exact EvictPc.out.inj hr
  | call _ _ | op _ _ _ | retry _ => exact trivial

/-! ### The other threads -/

theorem Sound.put {slot : ℕ} {b : LPABkt} (h : t.Sound) (hb : Usable b.key → b.value ≠ NONE) :
    (t.put slot b).Sound := by
  intro i hu
  rw [put_buckets] at hu ⊢
  by_cases hi : i = slot
  · subst hi
    rw [Function.update_self] at hu ⊢
    exact hb hu
  · rw [Function.update_of_ne hi] at hu ⊢
    exact h i hu

theorem Sound.bury (h : t.Sound) (slot : ℕ) : (t.bury slot).Sound :=
  h.put fun hu => absurd rfl hu.2

/-- What a section of `Insert` leaves: the table as it was, or with one bucket
set to key and value. -/
def Wrote (t : LinearProbingApprox) (key : Key) (value : Value) : Except Stop Inserted → Prop
  | .ok r => r.table = t ∨ ∃ slot now, r.table = t.setBucket slot key value now
  | .error _ => True

variable {key : Key} {value : Value} {evKey : Key} {now : BitVec 32} {prevTryLock : Bool}

theorem evictVictim_wrote (slot : ℕ) : t.Wrote key value (t.evictVictim key value slot now) := by
  unfold evictVictim
  split
  · exact Or.inl rfl
  · unfold collEvict
    dsimp only
    split
    · exact trivial
    · exact Or.inr ⟨slot, now, rfl⟩

theorem insertCur_wrote (s : InsertState) : t.Wrote key value (t.insertCur key value now s) := by
  unfold insertCur
  split
  · exact Or.inl rfl
  · exact evictVictim_wrote _

theorem insertFull_wrote (s : InsertState) :
    t.Wrote key value (t.insertFull key value evKey now prevTryLock s) := by
  unfold insertFull
  split
  · exact insertCur_wrote s
  next prevVictimSlot _ =>
    split
    · split
      · split
        · exact Or.inr ⟨prevVictimSlot, now, rfl⟩
        · exact evictVictim_wrote _
      · exact insertCur_wrote s
    · exact insertCur_wrote s

/-- The same for the end of the inner loop. -/
def RangeWrote (t : LinearProbingApprox) (key : Key) (value : Value) :
    Ctl (Except Stop Inserted) InsertState → Prop
  | .out r => t.Wrote key value r
  | .next _ => True

theorem insertProbe_wrote {loc : ℕ} (s : InsertState) (c : Ctl (Except Stop Inserted) InsertState)
    (h : t.insertProbe key value evKey now prevTryLock loc s = .out c) :
    t.RangeWrote key value c := by
  unfold insertProbe at h
  dsimp only at h
  split at h
  · split at h
    · cases h
      exact trivial
    · cases h
      exact Or.inr ⟨_, now, rfl⟩
  · split at h
    · cases h
      exact insertFull_wrote _
    · split at h
      · cases h
        exact trivial
      · split at h
        · cases h
          exact trivial
        · cases h

theorem insertRange_wrote {loc : ℕ} (s : InsertState) {r : Except Stop Inserted}
    (h : t.insertRange key value evKey now prevTryLock loc s = .out r) : t.Wrote key value r := by
  have hloop : t.RangeWrote key value
      (result (t.insertProbe key value evKey now prevTryLock loc) .next (t.capacity + 1) s) := by
    refine result_partial (Q := t.RangeWrote key value) insertProbe_wrote (fun _ => ?_) _ s
    exact trivial
  unfold insertRange at h
  split at h
  · revert hloop h
    dsimp only
    cases result (t.insertProbe key value evKey now prevTryLock loc) Ctl.next (t.capacity + 1) s with
    | out x =>
        intro hloop h
        cases h
        exact hloop
    | next s' =>
        intro _ h
        cases h
  · cases h
    exact Or.inl rfl

/-- A section of `Delete` buries at most one bucket. -/
theorem deleteRange_buries {loc i : ℕ} {r : LinearProbingApprox × Value}
    (h : t.deleteRange key loc i = .out r) : r.1 = t ∨ ∃ slot, r.1 = t.bury slot := by
  have hloop : ∀ r, result (t.deleteProbe key loc) Ctl.next (t.capacity + 1) i = .out r →
      r.1 = t ∨ ∃ slot, r.1 = t.bury slot := by
    refine result_partial (Q := fun c : Ctl (LinearProbingApprox × Value) ℕ =>
      ∀ r, c = .out r → r.1 = t ∨ ∃ slot, r.1 = t.bury slot)
      (fun i c hc r hr => ?_) (fun i r hr => by cases hr) _ i
    subst hr
    unfold deleteProbe at hc
    dsimp only at hc
    split at hc
    · cases hc
      exact Or.inr ⟨_, rfl⟩
    · split at hc
      · cases hc
        exact Or.inl rfl
      · split at hc
        · cases hc
          exact Or.inl rfl
        · split at hc
          · cases hc
          · split at hc
            · cases hc
            · cases hc
  unfold deleteRange at h
  split at h
  · exact hloop r h
  · cases h
    exact Or.inl rfl

/-- A section of a lookup flags at most one bucket. -/
theorem lookupProbe_flags {busy : Bool} {loc i : ℕ} {r : LinearProbingApprox × Value}
    (h : t.lookupProbe (t.flagBucket busy now) key loc i = .out r) :
    r.1 = t ∨ ∃ slot, r = t.flagBucket busy now slot := by
  unfold lookupProbe at h
  dsimp only at h
  split at h
  · split at h
    · cases h
      exact Or.inr ⟨_, rfl⟩
    · split at h
      · cases h
        exact Or.inl rfl
      · split at h
        · cases h
          exact Or.inl rfl
        · cases h
  · cases h
    exact Or.inl rfl

/-- A section of another thread keeps the size of the table and the values of
its valid buckets. -/
theorem opSection_keeps {pc pc' : OpPc} (hsound : t.Sound) (hpc : pc.Inv)
    (h : t.opSection hash now prevTryLock pc = some (t', pc')) :
    t'.capacity = t.capacity ∧ t'.Sound ∧ pc'.Inv := by
  have hburied : ∀ {t₁ : LinearProbingApprox}, (t₁ = t ∨ ∃ slot, t₁ = t.bury slot) →
      t₁.capacity = t.capacity ∧ t₁.Sound := by
    rintro t₁ (rfl | ⟨slot, rfl⟩)
    · exact ⟨rfl, hsound⟩
    · exact ⟨rfl, hsound.bury slot⟩
  cases pc with
  | idle => cases h
  | delete key i =>
      simp only [opSection] at h
      split at h
      next r hr =>
        cases h
        obtain ⟨hcap, hs⟩ := hburied (deleteRange_buries hr)
        exact ⟨hcap, hs, trivial⟩
      · cases h
        exact ⟨rfl, hsound, trivial⟩
  | checkDup key value evKey i =>
      simp only [opSection] at h
      split at h
      next r hr =>
        cases h
        obtain ⟨hcap, hs⟩ := hburied (deleteRange_buries hr)
        refine ⟨hcap, hs, ?_⟩
        split
        · exact trivial
        · exact hpc
      · cases h
        exact ⟨rfl, hsound, hpc⟩
  | insert key value evKey e =>
      simp only [opSection] at h
      split at h
      next r hr =>
        cases h
        rcases insertRange_wrote e hr with heq | ⟨slot, now', heq⟩
        · rw [heq]
          exact ⟨rfl, hsound, trivial⟩
        · rw [heq]
          exact ⟨rfl, hsound.put fun _ => hpc, trivial⟩
      · cases h
      · cases h
        exact ⟨rfl, hsound, hpc⟩
  | lookup key busy i =>
      simp only [opSection] at h
      split at h
      next r hr =>
        cases h
        rcases lookupProbe_flags hr with heq | ⟨slot, rfl⟩
        · rw [heq]
          exact ⟨rfl, hsound, trivial⟩
        · unfold flagBucket
          split
          · exact ⟨rfl, hsound.put (hsound slot), trivial⟩
          · exact ⟨rfl, hsound.put (hsound slot), trivial⟩
      · cases h
        exact ⟨rfl, hsound, trivial⟩

theorem Shared.Inv.step (h : s.Inv) {a : SharedStep} (hwf : a.WellFormed) (hsettles : s.Settles a)
    (hstep : s.step hash a = some s') : s'.Inv := by
  have hops : ∀ {tid : ℕ} {pc : OpPc}, pc.Inv → ∀ i, (Function.update s.ops tid pc i).Inv := by
    intro tid pc hpc i
    by_cases hi : i = tid
    · subst hi
      rw [Function.update_self]
      exact hpc
    · rw [Function.update_of_ne hi]
      exact h.ops i
  cases a with
  | call tid op =>
      simp only [Shared.step] at hstep
      split at hstep
      · cases hstep
        refine ⟨h.capacity, h.sound, h.evict, hops ?_⟩
        cases op with
        | insert key value evKey => exact hwf.2
        | delete _ | getWithFlag _ _ => exact trivial
      · cases hstep
  | op tid now prevTryLock =>
      obtain ⟨⟨t', pc'⟩, hsec, rfl⟩ := Option.map_eq_some_iff.mp hstep
      obtain ⟨hcap, hsound, hpc⟩ := opSection_keeps h.sound (h.ops tid) hsec
      exact ⟨hcap ▸ h.capacity, hsound, h.evict.of_capacity hcap, hops hpc⟩
  | retry rand =>
      simp only [Shared.step] at hstep
      split at hstep
      next retryCnt m v hpc =>
        cases hstep
        have hev := h.evict
        rw [hpc] at hev
        exact ⟨h.capacity, h.sound, ⟨Nat.zero_le _, hev, nofun, fun hne => absurd rfl hne⟩, h.ops⟩
      · cases hstep
  | evict curTryLock prevTryLock =>
      obtain ⟨⟨t', pc'⟩, hsec, rfl⟩ := Option.map_eq_some_iff.mp hstep
      rcases evictSection_cases h.capacity h.evict hsec with ⟨rfl, hpc, -⟩ |
        ⟨retryCnt, loc, e, slot, hpc, hlock, hsettled, rfl, rfl⟩
      · exact ⟨h.capacity, h.sound, hpc, h.ops⟩
      · obtain ⟨hev, -⟩ := hsettled.evictable h hpc hlock hsettles
        exact ⟨h.capacity, h.sound.bury slot, ⟨_, evictOut_ok h.sound hev⟩, h.ops⟩

end Run

/-! ## Two keys -/

end LinearProbingApprox

end CleancacheRdma.Daemon
