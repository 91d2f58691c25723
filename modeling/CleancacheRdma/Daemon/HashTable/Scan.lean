import CleancacheRdma.Daemon.HashTable.LinearProbingApprox
import CleancacheRdma.Lib.Probing

/-!
# What the loops of `LinearProbingApprox` do

One lemma per operation says everything the operation can do; later modules
use these and never open the loops again. The window of a key is the first
`min 16 capacity` buckets from its hash position, the layout of `Lib.Probing`.
-/

namespace CleancacheRdma.Daemon

open Lib (Ctl Cell)
open Lib.Loop
open Lib.Probing (Layout Cells)

/-- A bucket as a cell of an open-addressing table. -/
def LPABkt.cell (b : LPABkt) : Cell Key Value :=
  if b.key = INVALID then .empty
  else if b.key = TOMBSTONE then .deleted
  else .full b.key b.value

namespace LinearProbingApprox

variable (t : LinearProbingApprox) (hash : Key → ℕ)

def cells : Cells Key Value := fun slot => (t.buckets slot).cell

def layout : Layout Key where
  capacity := t.capacity
  reach := min lockSize t.capacity
  home := t.getHashedKey hash

/-- The `i`-th bucket of the window of `key`. -/
def window (key : Key) (i : ℕ) : ℕ := (t.getHashedKey hash key + i) % t.capacity

@[simp] theorem layout_capacity : (t.layout hash).capacity = t.capacity := rfl

@[simp] theorem layout_reach : (t.layout hash).reach = min lockSize t.capacity := rfl

variable {t hash}

theorem isValidBucket_iff {slot : ℕ} :
    t.isValidBucket slot = true ↔ Usable (t.buckets slot).key := by
  simp [isValidBucket, Usable]

theorem isVacantBucket_false {slot : ℕ} :
    t.isVacantBucket slot = false ↔ Usable (t.buckets slot).key := by
  simp [isVacantBucket, Usable]

/-! ## Delete and the lookups -/

/-- The first `n` buckets of the window neither hold the key nor end it. -/
def Passed (t : LinearProbingApprox) (hash : Key → ℕ) (key : Key) (n : ℕ) : Prop :=
  ∀ j < n, (t.buckets (t.window hash key j)).key ≠ key ∧
    (t.buckets (t.window hash key j)).key ≠ INVALID

theorem Passed.succ {key : Key} {n : ℕ} (h : t.Passed hash key n)
    (hkey : (t.buckets (t.window hash key n)).key ≠ key)
    (hinv : (t.buckets (t.window hash key n)).key ≠ INVALID) :
    t.Passed hash key (n + 1) := by
  intro j hj
  rcases Nat.lt_succ_iff_lt_or_eq.mp hj with hlt | rfl
  · exact h j hlt
  · exact ⟨hkey, hinv⟩

/-- The scan for `key` ends at the `i`-th bucket of its window, which holds it. -/
def Hit (t : LinearProbingApprox) (hash : Key → ℕ) (key : Key) (i : ℕ) : Prop :=
  i < min lockSize t.capacity ∧ (t.buckets (t.window hash key i)).key = key ∧
    t.Passed hash key i

/-- The scan for `key` ends without it: the window is exhausted, or a bucket
that was never used stops it. -/
def Miss (t : LinearProbingApprox) (hash : Key → ℕ) (key : Key) : Prop :=
  ∃ n, t.Passed hash key n ∧
    (min lockSize t.capacity ≤ n ∨
      ((t.buckets (t.window hash key n)).key ≠ key ∧
        (t.buckets (t.window hash key n)).key = INVALID))

/-- A scan either hits, and its result is that of the bucket, or misses. -/
def Scanned {α : Type} (t : LinearProbingApprox) (hash : Key → ℕ) (key : Key)
    (found : ℕ → α) (missed : α) (r : α) : Prop :=
  (∃ i, t.Hit hash key i ∧ r = found (t.window hash key i)) ∨
    (t.Miss hash key ∧ r = missed)

/-- The bounds of a probe number inside the loops. -/
private theorem lt_reach {i : ℕ} (h15 : i ≤ MAX_PROBING_LEN) (hcap : i < t.capacity) :
    i < min lockSize t.capacity := by
  simp only [lockSize]
  omega

/-- Every pass gets closer to the end of the array. -/
private theorem gap_lt {c i : ℕ} (h : i < c) : c - (i + 1) < c - i := by omega

theorem lookup_scanned (found : ℕ → LinearProbingApprox × Value) (key : Key) :
    t.Scanned hash key found (t, NONE) (t.lookup found hash key) := by
  refine result_total (I := fun i => i ≤ MAX_PROBING_LEN ∧ t.Passed hash key i)
    (μ := fun i => t.capacity - i) ?_ ⟨Nat.zero_le _, fun j hj => absurd hj (Nat.not_lt_zero j)⟩
    (Nat.lt_succ_of_le (Nat.sub_le _ _))
  rintro i ⟨h15, hpass⟩
  simp only [lookupProbe]
  by_cases hcap : i < t.capacity
  · rw [if_pos hcap]
    by_cases hkey : (t.buckets (t.window hash key i)).key = key
    · rw [if_pos (by exact hkey)]
      exact Or.inl ⟨i, ⟨lt_reach h15 hcap, hkey, hpass⟩, rfl⟩
    · rw [if_neg (by exact hkey)]
      by_cases hinv : (t.buckets (t.window hash key i)).key = INVALID
      · rw [if_pos (by exact hinv)]
        exact Or.inr ⟨⟨i, hpass, Or.inr ⟨hkey, hinv⟩⟩, rfl⟩
      · rw [if_neg (by exact hinv)]
        by_cases hmax : MAX_PROBING_LEN ≤ i
        · rw [if_pos hmax]
          refine Or.inr ⟨⟨i + 1, hpass.succ hkey hinv, Or.inl ?_⟩, rfl⟩
          simp only [lockSize]
          omega
        · rw [if_neg hmax]
          exact ⟨⟨by omega, hpass.succ hkey hinv⟩, gap_lt hcap⟩
  · rw [if_neg hcap]
    exact Or.inr ⟨⟨i, hpass, Or.inl (by omega)⟩, rfl⟩

theorem delete_scanned (key : Key) :
    t.Scanned hash key (fun slot => (t.bury slot, (t.buckets slot).value)) (t, NONE)
      (t.delete hash key) := by
  set Q := t.Scanned hash key (fun slot => (t.bury slot, (t.buckets slot).value)) (t, NONE)
    with hQ
  refine result_total (I := fun i => i ≤ MAX_PROBING_LEN ∧ t.Passed hash key i)
    (μ := fun i => t.capacity - i) (Q := Q) ?_
    ⟨Nat.zero_le _, fun j hj => absurd hj (Nat.not_lt_zero j)⟩
    (Nat.lt_succ_of_le (Nat.sub_le _ _))
  rintro i ⟨h15, hpass⟩
  rw [deleteRange]
  by_cases hcap : i < t.capacity
  · rw [if_pos hcap]
    refine inner_total (J := fun i => i < t.capacity ∧ i ≤ MAX_PROBING_LEN ∧
      t.Passed hash key i) ?_ ⟨hcap, h15, hpass⟩ (Nat.lt_succ_of_le (Nat.sub_le _ _))
    rintro i ⟨hcap, h15, hpass⟩
    simp only [deleteProbe]
    by_cases hkey : (t.buckets (t.window hash key i)).key = key
    · rw [if_pos (by exact hkey)]
      exact Or.inl ⟨i, ⟨lt_reach h15 hcap, hkey, hpass⟩, rfl⟩
    · rw [if_neg (by exact hkey)]
      by_cases hinv : (t.buckets (t.window hash key i)).key = INVALID
      · rw [if_pos (by exact hinv)]
        exact Or.inr ⟨⟨i, hpass, Or.inr ⟨hkey, hinv⟩⟩, rfl⟩
      · rw [if_neg (by exact hinv)]
        have hnext := hpass.succ hkey hinv
        by_cases hmax : MAX_PROBING_LEN ≤ i
        · rw [if_pos hmax]
          refine Or.inr ⟨⟨i + 1, hnext, Or.inl ?_⟩, rfl⟩
          simp only [lockSize]
          omega
        · rw [if_neg hmax]
          by_cases hend : i + 1 < t.capacity
          · rw [if_neg (by simpa using hend)]
            by_cases hedge : t.window hash key (i + 1) % lockSize = 0
            · rw [if_pos (by exact hedge)]
              exact ⟨⟨by omega, hnext⟩, gap_lt hcap⟩
            · rw [if_neg (by exact hedge)]
              exact ⟨⟨hend, by omega, hnext⟩, gap_lt hcap⟩
          · rw [if_pos hend]
            exact ⟨⟨by omega, hnext⟩, gap_lt hcap⟩
  · rw [if_neg hcap]
    exact Or.inr ⟨⟨i, hpass, Or.inl (by omega)⟩, rfl⟩

/-! ## Insert -/

/-- The first `n` buckets of the window are all valid. -/
def Filled (t : LinearProbingApprox) (hash : Key → ℕ) (key : Key) (n : ℕ) : Prop :=
  ∀ j < n, Usable (t.buckets (t.window hash key j)).key

theorem Filled.succ {key : Key} {n : ℕ} (h : t.Filled hash key n)
    (hn : Usable (t.buckets (t.window hash key n)).key) :
    t.Filled hash key (n + 1) := by
  intro j hj
  rcases Nat.lt_succ_iff_lt_or_eq.mp hj with hlt | rfl
  · exact h j hlt
  · exact hn

theorem filled_zero (key : Key) : t.Filled hash key 0 :=
  fun j hj => absurd hj (Nat.not_lt_zero j)

/-- Everything `Insert` can do with a key its duplicate check did not find. -/
inductive InsertsFresh (t : LinearProbingApprox) (hash : Key → ℕ) (key : Key)
    (value : Value) (evKey : Key) (now : BitVec 32) : Inserted → Prop where
  /-- the first vacant bucket of the window takes the pair -/
  | vacant {i : ℕ} : i < min lockSize t.capacity → t.Filled hash key i →
      ¬ Usable (t.buckets (t.window hash key i)).key →
      InsertsFresh t hash key value evKey now
        ⟨t.setBucket (t.window hash key i) key value now, 0, evKey, NONE⟩
  /-- the window is full and one of its buckets, not busy, is replaced -/
  | evicted {i : ℕ} : i < min lockSize t.capacity →
      t.Filled hash key (min lockSize t.capacity) →
      (t.buckets (t.window hash key i)).busy = false →
      InsertsFresh t hash key value evKey now
        ⟨t.setBucket (t.window hash key i) key value now, 0,
          (t.buckets (t.window hash key i)).key, (t.buckets (t.window hash key i)).value⟩
  /-- the window is full and the pair is handed back -/
  | refused : t.Filled hash key (min lockSize t.capacity) →
      InsertsFresh t hash key value evKey now ⟨t, -1, key, value⟩
  /-- a table shorter than a window: the loops run off its end -/
  | dropped : t.Filled hash key (min lockSize t.capacity) → t.capacity < lockSize →
      InsertsFresh t hash key value evKey now ⟨t, 0, evKey, NONE⟩

/-- What the loops of `Insert` know: the buckets passed are valid, and both
victims are among them. -/
structure InsertInv (t : LinearProbingApprox) (hash : Key → ℕ) (key : Key)
    (s : InsertState) : Prop where
  le_max : s.i ≤ MAX_PROBING_LEN
  filled : t.Filled hash key s.i
  victim : ∀ v, s.victimSlot = some v → ∃ j < s.i, v = t.window hash key j
  prevVictim : ∀ v, s.prevVictimSlot = some v → ∃ j < s.i, v = t.window hash key j

theorem InsertInv.init (key : Key) : t.InsertInv hash key {} where
  le_max := Nat.zero_le _
  filled := t.filled_zero key
  victim _ h := by simp at h
  prevVictim _ h := by simp at h

theorem InsertInv.shift {key : Key} {s : InsertState} (h : t.InsertInv hash key s)
    (lockIdx : ℕ) : t.InsertInv hash key (s.shift lockIdx) where
  le_max := h.le_max
  filled := h.filled
  victim _ hv := by simp [InsertState.shift] at hv
  prevVictim := h.victim

/-- The minimum update keeps the victims among the buckets passed, the current
one included. -/
theorem InsertInv.min {key : Key} {s : InsertState} (h : t.InsertInv hash key s) :
    (∀ v, (t.insertMin (t.window hash key s.i) s).victimSlot = some v →
      ∃ j < s.i + 1, v = t.window hash key j) ∧
    (∀ v, (t.insertMin (t.window hash key s.i) s).prevVictimSlot = some v →
      ∃ j < s.i + 1, v = t.window hash key j) := by
  have hold : ∀ v, (∃ j < s.i, v = t.window hash key j) →
      ∃ j < s.i + 1, v = t.window hash key j := by
    rintro v ⟨j, hj, rfl⟩
    exact ⟨j, Nat.lt_succ_of_lt hj, rfl⟩
  rw [insertMin]
  split
  · refine ⟨fun v hv => ?_, fun v hv => hold v (h.prevVictim v hv)⟩
    cases hv
    exact ⟨s.i, Nat.lt_succ_self _, rfl⟩
  · exact ⟨fun v hv => hold v (h.victim v hv), fun v hv => hold v (h.prevVictim v hv)⟩

section

variable {key : Key} {value : Value} {evKey : Key} {now : BitVec 32}

/-- A victim inside a full window is replaced unless it is busy. -/
theorem evictVictim_inserts {i : ℕ} (hi : i < min lockSize t.capacity)
    (hfull : t.Filled hash key (min lockSize t.capacity)) :
    ∃ r, t.evictVictim key value (t.window hash key i) now = .ok r ∧
      t.InsertsFresh hash key value evKey now r := by
  rw [evictVictim]
  by_cases hbusy : (t.buckets (t.window hash key i)).busy = true
  · rw [if_pos hbusy]
    exact ⟨_, rfl, .refused hfull⟩
  · rw [if_neg hbusy, collEvict, if_neg (hfull i hi).1]
    exact ⟨_, rfl, .evicted hi hfull (Bool.eq_false_iff.mpr hbusy)⟩

theorem insertFull_inserts {prevTryLock : Bool} {s : InsertState}
    (hfull : t.Filled hash key (min lockSize t.capacity))
    (hv : ∀ v, s.victimSlot = some v → ∃ j < min lockSize t.capacity, v = t.window hash key j)
    (hp : ∀ v, s.prevVictimSlot = some v →
      ∃ j < min lockSize t.capacity, v = t.window hash key j) :
    ∃ r, t.insertFull key value evKey now prevTryLock s = .ok r ∧
      t.InsertsFresh hash key value evKey now r := by
  have hcur : ∃ r, t.insertCur key value now s = .ok r ∧
      t.InsertsFresh hash key value evKey now r := by
    rw [insertCur]
    cases hs : s.victimSlot with
    | none => exact ⟨_, rfl, .refused hfull⟩
    | some v =>
        obtain ⟨j, hj, rfl⟩ := hv v hs
        exact evictVictim_inserts hj hfull
  rw [insertFull]
  cases hs : s.prevVictimSlot with
  | none => exact hcur
  | some v =>
      obtain ⟨j, hj, rfl⟩ := hp v hs
      simp only
      by_cases hlt : s.prevMinTimestamp < s.minTimestamp
      · rw [if_pos hlt]
        by_cases htry : prevTryLock = true
        · -- nothing runs between the two ranges, so the victim is still valid
          rw [if_pos htry, isVacantBucket_false.mpr (hfull j hj), if_neg Bool.false_ne_true]
          exact evictVictim_inserts hj hfull
        · rw [if_neg htry]
          exact hcur
      · rw [if_neg hlt]
        exact hcur

theorem insertFresh_inserts (hkey : Usable key) (value : Value) (evKey : Key) (now : BitVec 32)
    (prevTryLock : Bool) :
    ∃ r, t.insertFresh hash key value evKey now prevTryLock = .ok r ∧
      t.InsertsFresh hash key value evKey now r := by
  refine result_total (I := t.InsertInv hash key) (μ := fun s => t.capacity - s.i)
    (Q := fun e : Except Stop Inserted =>
      ∃ r, e = .ok r ∧ t.InsertsFresh hash key value evKey now r) ?_
    (.init key) (Nat.lt_succ_of_le (Nat.sub_le _ _))
  intro s hs
  rw [insertRange]
  by_cases hcap : s.i < t.capacity
  · rw [if_pos hcap]
    have hinner := inner_total (p := t.insertProbe key value evKey now prevTryLock
        (t.getHashedKey hash key)) (I := t.InsertInv hash key)
      (J := fun s => s.i < t.capacity ∧ t.InsertInv hash key s)
      (μ := fun s => t.capacity - s.i) (n := t.capacity + 1)
      (Q := fun e => ∃ r, e = .ok r ∧ t.InsertsFresh hash key value evKey now r) ?_
      ⟨hcap, hs⟩ (Nat.lt_succ_of_le (Nat.sub_le _ _))
    · simp only
      cases hr : result (t.insertProbe key value evKey now prevTryLock
          (t.getHashedKey hash key)) .next (t.capacity + 1) s with
      | out e =>
          rw [hr] at hinner
          exact hinner
      | next s' =>
          rw [hr] at hinner
          exact ⟨hinner.1.shift _, hinner.2⟩
    rintro s ⟨hcap, hs⟩
    simp only [insertProbe]
    have hreach := lt_reach hs.le_max hcap
    by_cases hvac : t.isVacantBucket (t.window hash key s.i) = true
    · rw [if_pos (by exact hvac)]
      have hnot : ¬ Usable (t.buckets (t.window hash key s.i)).key :=
        fun hu => by rw [isVacantBucket_false.mpr hu] at hvac; cases hvac
      have hne : (t.buckets (t.window hash key s.i)).key ≠ key :=
        fun he => hnot (by rw [he]; exact hkey)
      rw [if_neg (by exact hne)]
      exact ⟨_, rfl, .vacant hreach hs.filled hnot⟩
    · rw [if_neg (by exact hvac)]
      have hfill := hs.filled.succ (isVacantBucket_false.mp (Bool.eq_false_iff.mpr hvac))
      obtain ⟨hvic, hprev⟩ := hs.min
      by_cases hmax : MAX_PROBING_LEN ≤ s.i
      · rw [if_pos hmax]
        -- probe 15 is the last one: the whole window has been passed
        have hall : s.i + 1 = min lockSize t.capacity := by
          simp only [lockSize] at hreach ⊢
          omega
        rw [hall] at hfill hvic hprev
        exact insertFull_inserts hfill hvic hprev
      · rw [if_neg hmax]
        have hnext : t.InsertInv hash key
            { t.insertMin (t.window hash key s.i) s with i := s.i + 1 } :=
          ⟨by simp only; omega, hfill, hvic, hprev⟩
        by_cases hend : s.i + 1 < t.capacity
        · rw [if_neg (by simpa using hend)]
          by_cases hedge : t.window hash key (s.i + 1) % lockSize = 0
          · rw [if_pos (by exact hedge)]
            exact ⟨hnext, gap_lt hcap⟩
          · rw [if_neg (by exact hedge)]
            exact ⟨⟨hend, hnext⟩, gap_lt hcap⟩
        · rw [if_pos hend]
          exact ⟨hnext, gap_lt hcap⟩
  · rw [if_neg hcap]
    have := hs.le_max
    refine ⟨_, rfl, .dropped (fun j hj => hs.filled j (by omega)) ?_⟩
    simp only [lockSize]
    omega

end

/-! ## ApproxLRUEvict -/

/-- A bucket that eviction may take. -/
def Evictable (t : LinearProbingApprox) (slot : ℕ) : Prop :=
  slot < t.capacity ∧ Usable (t.buckets slot).key ∧ (t.buckets slot).busy = false

/-- An attempt takes an evictable bucket, or goes to `RETRY` with an evictable
candidate or none; only a table shorter than a window ends without a victim. -/
def Attempted (t : LinearProbingApprox) (key : Key) : EvictExit → Prop
  | .reached table k v =>
      (∃ slot, t.Evictable slot ∧ table = t.bury slot ∧ k = (t.buckets slot).key ∧
        v = (t.buckets slot).value) ∨
      (t.capacity < lockSize ∧ table = t ∧ k = key ∧ v = NONE)
  | .retry _ victimSlot => ∀ v, victimSlot = some v → t.Evictable v

/-- Both victims an attempt carries are evictable. -/
structure EvictInv (t : LinearProbingApprox) (s : EvictState) : Prop where
  le_max : s.i ≤ MAX_PROBING_LEN
  victim : ∀ v, s.victimSlot = some v → t.Evictable v
  prevVictim : ∀ v, s.prevVictimSlot = some v → t.Evictable v

theorem EvictInv.shift {s : EvictState} (h : t.EvictInv s) (lockIdx : ℕ) :
    t.EvictInv (s.shift lockIdx) where
  le_max := h.le_max
  victim _ hv := by simp [EvictState.shift] at hv
  prevVictim := h.victim

theorem evictBucket_attempted (key : Key) {slot : ℕ} (h : t.Evictable slot) :
    t.Attempted key (t.evictBucket slot) := Or.inl ⟨slot, h, rfl, rfl, rfl⟩

theorem evictDirect_attempted {key : Key} {s : EvictState} {prevTryLock : Bool}
    (hv : ∀ v, s.victimSlot = some v → t.Evictable v)
    (hp : ∀ v, s.prevVictimSlot = some v → t.Evictable v) :
    t.Attempted key (t.evictDirect prevTryLock s) := by
  rw [evictDirect]
  cases hs : s.victimSlot with
  | none =>
      intro v hv'
      cases hv'
  | some v =>
      have hcur := evictBucket_attempted key (hv v hs)
      cases hps : s.prevVictimSlot with
      | none => exact hcur
      | some p =>
          have hprev := evictBucket_attempted key (hp p hps)
          simp only
          split
          · split
            · split
              · exact hcur
              · exact hprev
            · exact hcur
          · exact hcur

theorem EvictInv.min {s : EvictState} (h : t.EvictInv s) {slot : ℕ}
    (hslot : t.Evictable slot) : t.EvictInv (t.evictMin slot s) := by
  rw [evictMin]
  split
  · exact ⟨h.le_max, fun v hv => by cases hv; exact hslot, h.prevVictim⟩
  · exact h

theorem evictNext_keeps {key : Key} {prevTryLock : Bool} {loc : ℕ} {s₀ s : EvictState}
    (hi : s.i = s₀.i) (hs : t.EvictInv s) (hcap : s.i < t.capacity) :
    InnerOwes t.EvictInv (fun s => s.i < t.capacity ∧ t.EvictInv s)
      (fun s => t.capacity - s.i) (t.Attempted key) s₀
      (t.evictNext prevTryLock loc s) := by
  have hgap : t.capacity - (s.i + 1) < t.capacity - s₀.i := hi ▸ gap_lt hcap
  simp only [evictNext]
  by_cases hmax : MAX_PROBING_LEN ≤ s.i
  · rw [if_pos hmax]
    exact evictDirect_attempted hs.victim hs.prevVictim
  · rw [if_neg hmax]
    have hnext : t.EvictInv { s with i := s.i + 1 } :=
      ⟨by simp only; omega, hs.victim, hs.prevVictim⟩
    by_cases hend : s.i + 1 < t.capacity
    · rw [if_neg (by simpa using hend)]
      by_cases hedge : (loc + (s.i + 1)) % t.capacity % lockSize = 0
      · rw [if_pos hedge]
        exact ⟨hnext, hgap⟩
      · rw [if_neg hedge]
        exact ⟨⟨hend, hnext⟩, hgap⟩
    · rw [if_pos hend]
      exact ⟨hnext, hgap⟩

theorem evictMin_i (slot : ℕ) (s : EvictState) : (t.evictMin slot s).i = s.i := by
  rw [evictMin]
  split <;> rfl

theorem evictProbe_keeps {key : Key} {retryCnt : ℕ} {prevTryLock : Bool} {loc : ℕ}
    {s : EvictState} (hs : t.EvictInv s) (hcap : s.i < t.capacity) :
    InnerOwes t.EvictInv (fun s => s.i < t.capacity ∧ t.EvictInv s)
      (fun s => t.capacity - s.i) (t.Attempted key) s
      (t.evictProbe retryCnt prevTryLock loc s) := by
  simp only [evictProbe]
  by_cases hvalid : t.isValidBucket ((loc + s.i) % t.capacity) = true
  · rw [if_pos hvalid]
    by_cases hbusy : (t.buckets ((loc + s.i) % t.capacity)).busy = true
    · rw [if_pos hbusy]
      exact hs.victim
    · rw [if_neg hbusy]
      have hslot : t.Evictable ((loc + s.i) % t.capacity) :=
        ⟨Nat.mod_lt _ (Nat.zero_lt_of_lt hcap),
          isValidBucket_iff.mp hvalid,
          Bool.eq_false_iff.mpr hbusy⟩
      by_cases hrand : MAX_EVICT_RETRY < retryCnt
      · rw [if_pos hrand]
        have hatt : t.Attempted key (t.evictDirect prevTryLock
            { s with prevVictimSlot := none, victimSlot := some ((loc + s.i) % t.capacity) }) := by
          refine evictDirect_attempted (fun v hv => ?_) (fun v hv => ?_)
          · cases hv
            exact hslot
          · cases hv
        exact hatt
      · rw [if_neg hrand]
        exact evictNext_keeps (evictMin_i _ s) (hs.min hslot) (by rwa [evictMin_i])
  · rw [if_neg hvalid]
    exact evictNext_keeps rfl hs hcap

theorem evictAttempt_attempted (key : Key) (retryCnt : ℕ) (d : EvictDraw)
    (minTimestamp : BitVec 32) {victimSlot : Option ℕ}
    (hv : ∀ v, victimSlot = some v → t.Evictable v) :
    t.Attempted key (t.evictAttempt key retryCnt d minTimestamp victimSlot) := by
  refine result_total (I := t.EvictInv) (μ := fun s => t.capacity - s.i)
    (Q := t.Attempted key) ?_ ⟨Nat.zero_le _, hv, fun v hv => by simp at hv⟩
    (Nat.lt_succ_of_le (Nat.sub_le _ _))
  intro s hs
  rw [evictRange]
  by_cases hcap : s.i < t.capacity
  · rw [if_pos hcap]
    simp only
    by_cases hlock : d.curTryLock s.i = true
    · rw [if_pos hlock]
      have hinner := inner_total (I := t.EvictInv)
        (p := t.evictProbe retryCnt d.prevTryLock (d.rand % t.capacity))
        (J := fun s => s.i < t.capacity ∧ t.EvictInv s)
        (μ := fun s => t.capacity - s.i) (n := t.capacity + 1) (Q := t.Attempted key)
        (fun s hs => evictProbe_keeps hs.2 hs.1)
        ⟨hcap, hs⟩ (Nat.lt_succ_of_le (Nat.sub_le _ _))
      cases hr : result (t.evictProbe retryCnt d.prevTryLock (d.rand % t.capacity)) .next
          (t.capacity + 1) s with
      | out e =>
          rw [hr] at hinner
          exact hinner
      | next s' =>
          rw [hr] at hinner
          exact ⟨hinner.1.shift _, hinner.2⟩
    · rw [if_neg hlock]
      exact hs.victim
  · rw [if_neg hcap]
    refine Or.inr ⟨?_, rfl, rfl, rfl⟩
    have := hs.le_max
    simp only [lockSize]
    omega

/-- What a returning `Evict` has done: one evictable bucket is buried, its key
and non-null value are returned. -/
def Evicts (t table : LinearProbingApprox) (key : Key) (value : Value) : Prop :=
  ∃ slot, t.Evictable slot ∧ table = t.bury slot ∧ key = (t.buckets slot).key ∧
    value = (t.buckets slot).value ∧ value ≠ NONE

theorem evictRetry_ok {table : LinearProbingApprox} {key : Key} {value : Value} :
    ∀ (draws : List EvictDraw) (retryCnt : ℕ) (minTimestamp : BitVec 32)
      (victimSlot : Option ℕ), (∀ v, victimSlot = some v → t.Evictable v) →
      t.evictRetry INVALID draws retryCnt minTimestamp victimSlot = .ok (table, key, value) →
      t.Evicts table key value
  | [], _, _, _, _, h => by simp [evictRetry] at h
  | d :: ds, retryCnt, minTimestamp, victimSlot, hv, h => by
      have hatt := evictAttempt_attempted INVALID retryCnt d minTimestamp hv
      rw [evictRetry] at h
      cases he : t.evictAttempt INVALID retryCnt d minTimestamp victimSlot with
      | reached tb k v =>
          rw [he] at hatt h
          simp only [evictOut] at h
          split at h
          · cases h
          · rename_i hk
            split at h
            · cases h
            · rename_i hval
              cases h
              rcases hatt with ⟨slot, hslot, rfl, rfl, rfl⟩ | ⟨_, _, rfl, _⟩
              · exact ⟨slot, hslot, rfl, rfl, rfl, hval⟩
              · exact absurd (Or.inl rfl) hk
      | retry m v =>
          rw [he] at hatt h
          exact evictRetry_ok ds _ _ _ hatt h

theorem evict_ok {draws : List EvictDraw} {table : LinearProbingApprox} {key : Key}
    {value : Value} (h : t.evict INVALID draws = .ok (table, key, value)) :
    t.Evicts table key value :=
  evictRetry_ok draws _ _ _ (fun v hv => by cases hv) h

/-- On a table of at least one window whose values are non-null, eviction
throws nothing: it returns or is still retrying. -/
theorem evictRetry_safe (hcap : lockSize ≤ t.capacity)
    (hval : ∀ slot, t.Evictable slot → (t.buckets slot).value ≠ NONE) {what : String} :
    ∀ (draws : List EvictDraw) (retryCnt : ℕ) (minTimestamp : BitVec 32)
      (victimSlot : Option ℕ), (∀ v, victimSlot = some v → t.Evictable v) →
      t.evictRetry INVALID draws retryCnt minTimestamp victimSlot ≠
        .error (.runtimeError what)
  | [], _, _, _, _, h => by simp [evictRetry] at h
  | d :: ds, retryCnt, minTimestamp, victimSlot, hv, h => by
      have hatt := evictAttempt_attempted INVALID retryCnt d minTimestamp hv
      rw [evictRetry] at h
      cases he : t.evictAttempt INVALID retryCnt d minTimestamp victimSlot with
      | reached tb k v =>
          rw [he] at hatt h
          rcases hatt with ⟨slot, hslot, rfl, rfl, rfl⟩ | ⟨hlt, _⟩
          · simp only [evictOut] at h
            rw [if_neg (not_or.mpr hslot.2.1), if_neg (hval slot hslot)] at h
            cases h
          · omega
      | retry m v =>
          rw [he] at hatt h
          exact evictRetry_safe hcap hval ds _ _ _ hatt h

end LinearProbingApprox

end CleancacheRdma.Daemon
