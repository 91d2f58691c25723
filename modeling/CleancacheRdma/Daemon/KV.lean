import CleancacheRdma.Daemon.CountingBloomFilter
import CleancacheRdma.Daemon.HashTable.Stored
import CleancacheRdma.Daemon.PerCPUPool

/-!
# `KV`, the key-value store

Translated from `kv.cpp` for the configuration `set_default_config` builds: one
hash table shard, the counting filters on. `Insert` repeats its attempt after
it removed an older version of the key; each attempt has its own draws.
-/

namespace CleancacheRdma.Daemon

open LinearProbingApprox (Inserted InsertsFresh EvictDraw)

structure KV where
  table : LinearProbingApprox
  pool : PerCPUPool
  cbfs : ℕ → CountingBloomFilter

namespace KV

/-- The number of buckets for a pool of the given size. -/
def tableCapacity (memPoolSize : ℕ) : ℕ :=
  let cap := memPoolSize / 4096 * 110 / 100
  if cap % 8 ≠ 0 then cap + (8 - cap % 8) else cap

/-- The constructor; `numHash` and `numBits` are the results of
`calc_filter_param`. -/
def new (startAddr : Value) (memPoolSize numClients numHash numBits : ℕ) : KV where
  table := .new (tableCapacity memPoolSize)
  pool := .new startAddr memPoolSize numClients numDataQps
  cbfs := fun _ => .new numHash numBits

variable (hash : HashFuncs) (kv : KV)

def allocate (cid : ℕ) (qid : Option ℕ) (rand : ℕ) : Option (Value × KV) :=
  (kv.pool.allocate cid qid rand).map fun r => (r.1, { kv with pool := r.2 })

def free (value : Value) (cid : ℕ) (rand : ℕ) : KV :=
  { kv with pool := kv.pool.free value cid none rand }

def cbfInsert (cid : ℕ) (key : Key) : KV :=
  { kv with cbfs := Function.update kv.cbfs cid ((kv.cbfs cid).insert hash key) }

def cbfRemove (cid : ℕ) (key : Key) : KV :=
  { kv with cbfs := Function.update kv.cbfs cid ((kv.cbfs cid).remove hash key).1 }

/-- What one attempt of `Insert` draws: the clock, the outcome of the
`try_lock` of the table, the list `Free` picks. -/
structure InsertDraw where
  now : BitVec 32 := 0
  prevTryLock : Bool := true
  rand : ℕ := 0

/-- The attempts of `Insert`, one per draw, up to the last `if (!ret)`. -/
def insertRetry (key : Key) (value : Value) (cid : ℕ) :
    KV → List InsertDraw → Except Stop (KV × ℤ)
  | _, [] => .error .retrying
  | kv, d :: ds =>
      match kv.table.insert (hash 0) key value INVALID d.now d.prevTryLock with
      | .error e => .error e
      | .ok r =>
          let kv := { kv with table := r.table }
          if r.evKey ≠ INVALID ∧ r.evValue ≠ NONE then
            -- case1: eviction + failed insert
            let evCid := longkeyToCid r.evKey
            let kv := kv.free r.evValue evCid d.rand
            if r.ret = 0 then .ok (kv.cbfRemove hash evCid r.evKey, r.ret)
            else .ok (kv, r.ret)
          else if r.evValue ≠ NONE then
            -- case2: duplicated key
            if r.ret ≠ 0 then .error (.runtimeError "dup key but ret > 0")
            else insertRetry key value cid (kv.free r.evValue cid d.rand) ds
          else .ok (kv, r.ret)

def insert (key : Key) (value : Value) (cid : ℕ) (draws : List InsertDraw) : Except Stop KV :=
  (insertRetry hash key value cid kv draws).map fun r =>
    if r.2 = 0 then r.1.cbfInsert hash cid key else r.1

def remove (key : Key) (cid : ℕ) : KV × Value :=
  let d := kv.table.delete (hash 0) key
  if d.2 ≠ NONE then ({ kv with table := d.1 }.cbfRemove hash cid key, d.2)
  else ({ kv with table := d.1 }, d.2)

def get (key : Key) (now : BitVec 32) : KV × Value :=
  let d := kv.table.get (hash 0) key now
  ({ kv with table := d.1 }, d.2)

def getWithFlag (key : Key) (busy : Bool) (now : BitVec 32) : KV × Value :=
  let d := kv.table.getWithFlag (hash 0) key busy now
  ({ kv with table := d.1 }, d.2)

/-- The key and the page that left are known to the caller only through the
pool and the filter. -/
def evict (draws : List EvictDraw) (rand : ℕ) : Except Stop KV :=
  (kv.table.evict INVALID draws).map fun r =>
    ({ kv with table := r.1 }.free r.2.2 (longkeyToCid r.2.1) rand).cbfRemove hash
      (longkeyToCid r.2.1) r.2.1

/-! ## What the operations do -/

variable {hash kv}

@[simp] theorem free_table (value : Value) (cid rand : ℕ) :
    (kv.free value cid rand).table = kv.table := rfl
@[simp] theorem free_cbfs (value : Value) (cid rand : ℕ) :
    (kv.free value cid rand).cbfs = kv.cbfs := rfl
@[simp] theorem cbfInsert_table (cid : ℕ) (key : Key) :
    (kv.cbfInsert hash cid key).table = kv.table := rfl
@[simp] theorem cbfInsert_pool (cid : ℕ) (key : Key) :
    (kv.cbfInsert hash cid key).pool = kv.pool := rfl
@[simp] theorem cbfRemove_table (cid : ℕ) (key : Key) :
    (kv.cbfRemove hash cid key).table = kv.table := rfl
@[simp] theorem cbfRemove_pool (cid : ℕ) (key : Key) :
    (kv.cbfRemove hash cid key).pool = kv.pool := rfl

@[simp] theorem cbfInsert_cbfs (cid : ℕ) (key : Key) : (kv.cbfInsert hash cid key).cbfs =
    Function.update kv.cbfs cid ((kv.cbfs cid).insert hash key) := rfl
@[simp] theorem cbfRemove_cbfs (cid : ℕ) (key : Key) : (kv.cbfRemove hash cid key).cbfs =
    Function.update kv.cbfs cid ((kv.cbfs cid).remove hash key).1 := rfl

/-- The pair of a bucket is freed and taken off its filter, in a state where
the bucket holds something else already. -/
def expel (hash : HashFuncs) (kv : KV) (b : LPABkt) (rand : ℕ) : KV :=
  (kv.free b.value (longkeyToCid b.key) rand).cbfRemove hash (longkeyToCid b.key) b.key

@[simp] theorem expel_table (b : LPABkt) (rand : ℕ) : (kv.expel hash b rand).table = kv.table := rfl

/-- An attempt on a key that is not stored, up to the last `if (!ret)`. -/
inductive Attempt (hash : HashFuncs) (kv : KV) (key : Key) (value : Value) (d : InsertDraw) :
    KV × ℤ → Prop where
  | added {i : ℕ} : i < min LinearProbingApprox.lockSize kv.table.capacity →
      kv.table.Filled (hash 0) key i →
      ¬ Usable (kv.table.buckets (kv.table.window (hash 0) key i)).key →
      Attempt hash kv key value d
        ({ kv with table := kv.table.setBucket (kv.table.window (hash 0) key i) key value d.now }, 0)
  | replaced {i : ℕ} : i < min LinearProbingApprox.lockSize kv.table.capacity →
      kv.table.Filled (hash 0) key (min LinearProbingApprox.lockSize kv.table.capacity) →
      (kv.table.buckets (kv.table.window (hash 0) key i)).busy = false →
      Attempt hash kv key value d
        (expel hash
          { kv with table := kv.table.setBucket (kv.table.window (hash 0) key i) key value d.now }
          (kv.table.buckets (kv.table.window (hash 0) key i)) d.rand, 0)
  | refused : kv.table.Filled (hash 0) key (min LinearProbingApprox.lockSize kv.table.capacity) →
      Attempt hash kv key value d (kv.free value (longkeyToCid key) d.rand, -1)
  | dropped : kv.table.Filled (hash 0) key (min LinearProbingApprox.lockSize kv.table.capacity) →
      kv.table.capacity < LinearProbingApprox.lockSize → Attempt hash kv key value d (kv, 0)

/-- The bucket of an update's older version is buried and its page freed. -/
def supersede (kv : KV) (slot : ℕ) (cid : ℕ) (rand : ℕ) : KV :=
  { kv with table := kv.table.bury slot }.free (kv.table.buckets slot).value cid rand

/-- `Remove` and the `Free` its callers make of the page it returns. -/
def removeFree (hash : HashFuncs) (kv : KV) (key : Key) (cid rand : ℕ) : KV :=
  if (kv.remove hash key cid).2 ≠ NONE then
    (kv.remove hash key cid).1.free (kv.remove hash key cid).2 cid rand
  else (kv.remove hash key cid).1

@[simp] theorem removeFree_table (key : Key) (cid rand : ℕ) :
    (kv.removeFree hash key cid rand).table = (kv.remove hash key cid).1.table := by
  unfold removeFree
  split
  · rfl
  · rfl

section Insert

variable {key : Key} {value : Value} {cid : ℕ}

/-- The first attempt on a key that is not stored is the last. -/
theorem insertRetry_absent (h : kv.table.TableInv (hash 0)) (hkey : Usable key)
    (hvalue : value ≠ NONE) (hnone : kv.table.view (hash 0) key = none) (cid : ℕ) (d : InsertDraw)
    (ds : List InsertDraw) :
    ∃ r, insertRetry hash key value cid kv (d :: ds) = .ok r ∧ Attempt hash kv key value d r := by
  rcases LinearProbingApprox.insert_cases h hkey value INVALID d.now d.prevTryLock with
    ⟨old, hold, -⟩ | ⟨-, r, hr, hins⟩
  · rw [hnone] at hold
    cases hold
  · rw [insertRetry, hr]
    cases hins with
    | vacant hi hfill hvac =>
        exact ⟨_, by simp, .added hi hfill hvac⟩
    | @evicted i hi hfull hbusy =>
        have hlt : kv.table.window (hash 0) key i < kv.table.capacity :=
          LinearProbingApprox.window_lt (by omega) key i
        have hev := h.nonNull _ hlt (hfull _ hi)
        refine ⟨_, ?_, .replaced hi hfull hbusy⟩
        simp only [ne_eq, (hfull _ hi).1, not_false_eq_true, hev, and_self, if_true]
        rfl
    | refused hfull =>
        refine ⟨_, ?_, .refused hfull⟩
        simp [hkey.1, hvalue]
    | dropped hfull hlt =>
        exact ⟨_, by simp, .dropped hfull hlt⟩

/-- The first attempt on a stored key removes it and goes on. -/
theorem insertRetry_present (h : kv.table.TableInv (hash 0)) (hkey : Usable key) {old : Value}
    (hold : kv.table.view (hash 0) key = some old) (value : Value) (cid : ℕ) (d : InsertDraw)
    (ds : List InsertDraw) :
    ∃ slot < kv.table.capacity, (kv.table.buckets slot).key = key ∧
      insertRetry hash key value cid kv (d :: ds) =
        insertRetry hash key value cid (kv.supersede slot cid d.rand) ds := by
  rcases LinearProbingApprox.delete_cases h hkey with ⟨slot, hs, hk, hv, hd⟩ | ⟨hnone, -⟩
  · have hne : (kv.table.buckets slot).value ≠ NONE := h.nonNull slot hs (by rw [hk]; exact hkey)
    refine ⟨slot, hs, hk, ?_⟩
    rw [insertRetry, LinearProbingApprox.insert, hd]
    simp only [if_pos hne]
    simp [hne, supersede]
  · rw [hnone] at hold
    cases hold

theorem supersede_inv (h : kv.table.TableInv (hash 0)) (slot cid rand : ℕ) :
    (kv.supersede slot cid rand).table.TableInv (hash 0) := h.bury slot

/-- The bucket of the key, buried, leaves the key absent. -/
theorem supersede_view (h : kv.table.TableInv (hash 0)) {slot : ℕ} (hs : slot < kv.table.capacity)
    (hu : Usable (kv.table.buckets slot).key) (cid rand : ℕ) :
    (kv.supersede slot cid rand).table.view (hash 0) =
      Function.update (kv.table.view (hash 0)) (kv.table.buckets slot).key none :=
  h.view_bury hs hu

/-- An update takes its own place in the window, so it never evicts. -/
theorem Attempt.of_supersede (h : kv.table.TableInv (hash 0)) {slot : ℕ}
    (hs : slot < kv.table.capacity) (hu : Usable (kv.table.buckets slot).key) {cid rand : ℕ}
    {d : InsertDraw} {r : KV × ℤ}
    (hatt : Attempt hash (kv.supersede slot cid rand) (kv.table.buckets slot).key value d r) :
    ∃ i < min LinearProbingApprox.lockSize kv.table.capacity,
      (kv.table.bury slot).Filled (hash 0) (kv.table.buckets slot).key i ∧
      ¬ Usable ((kv.table.bury slot).buckets
        (kv.table.window (hash 0) (kv.table.buckets slot).key i)).key ∧
      r = ({ kv.supersede slot cid rand with
        table := (kv.table.bury slot).setBucket
          (kv.table.window (hash 0) (kv.table.buckets slot).key i) (kv.table.buckets slot).key
          value d.now }, 0) := by
  have hnot := h.not_filled_bury hs hu
  cases hatt with
  | added hi hfill hvac => exact ⟨_, hi, hfill, hvac, rfl⟩
  | replaced _ hfull _ => exact absurd hfull hnot
  | refused hfull => exact absurd hfull hnot
  | dropped hfull _ => exact absurd hfull hnot

/-- Everything `Insert` does before its last statement: an attempt on a key
that is not stored, after its older version was superseded if there was one. -/
theorem insertRetry_ok (h : kv.table.TableInv (hash 0)) (hkey : Usable key)
    (hvalue : value ≠ NONE) {draws : List InsertDraw} {r : KV × ℤ}
    (hr : insertRetry hash key value cid kv draws = .ok r) :
    (kv.table.view (hash 0) key = none ∧ ∃ d, Attempt hash kv key value d r) ∨
    ∃ slot < kv.table.capacity, (kv.table.buckets slot).key = key ∧ ∃ rand d,
      Attempt hash (kv.supersede slot cid rand) key value d r := by
  cases draws with
  | nil => simp [insertRetry] at hr
  | cons d ds =>
      cases hview : kv.table.view (hash 0) key with
      | none =>
          obtain ⟨r', hr', hatt⟩ := insertRetry_absent h hkey hvalue hview cid d ds
          rw [hr] at hr'
          cases hr'
          exact Or.inl ⟨rfl, d, hatt⟩
      | some old =>
          obtain ⟨slot, hs, hk, heq⟩ := insertRetry_present h hkey hview value cid d ds
          rw [heq] at hr
          have hu : Usable (kv.table.buckets slot).key := by rw [hk]; exact hkey
          have hnone : (kv.supersede slot cid d.rand).table.view (hash 0) key = none := by
            rw [supersede_view h hs hu, hk, Function.update_self]
          cases ds with
          | nil => simp [insertRetry] at hr
          | cons d' ds =>
              obtain ⟨r', hr', hatt⟩ := insertRetry_absent
                (supersede_inv h slot cid d.rand) hkey hvalue hnone cid d' ds
              rw [hr] at hr'
              cases hr'
              exact Or.inr ⟨slot, hs, hk, d.rand, d', hatt⟩

/-- Two draws are enough. -/
theorem insert_returns (h : kv.table.TableInv (hash 0)) (hkey : Usable key)
    (hvalue : value ≠ NONE) (d d' : InsertDraw) (ds : List InsertDraw) :
    ∃ kv', kv.insert hash key value cid (d :: d' :: ds) = .ok kv' := by
  have hret : ∃ r, insertRetry hash key value cid kv (d :: d' :: ds) = .ok r := by
    cases hview : kv.table.view (hash 0) key with
    | none =>
        obtain ⟨r, hr, -⟩ := insertRetry_absent h hkey hvalue hview cid d (d' :: ds)
        exact ⟨r, hr⟩
    | some old =>
        obtain ⟨slot, hs, hk, heq⟩ := insertRetry_present h hkey hview value cid d (d' :: ds)
        have hu : Usable (kv.table.buckets slot).key := by rw [hk]; exact hkey
        have hnone : (kv.supersede slot cid d.rand).table.view (hash 0) key = none := by
          rw [supersede_view h hs hu, hk, Function.update_self]
        obtain ⟨r, hr, -⟩ := insertRetry_absent (supersede_inv h slot cid d.rand)
          hkey hvalue hnone cid d' ds
        exact ⟨r, by rw [heq, hr]⟩
  obtain ⟨r, hr⟩ := hret
  exact ⟨_, by rw [insert, hr]; rfl⟩

theorem insert_ok {draws : List InsertDraw} {kv' : KV}
    (hr : kv.insert hash key value cid draws = .ok kv') :
    ∃ r : KV × ℤ, insertRetry hash key value cid kv draws = .ok r ∧
      kv' = if r.2 = 0 then r.1.cbfInsert hash cid key else r.1 := by
  rw [insert] at hr
  cases hretry : insertRetry hash key value cid kv draws with
  | error e => simp [hretry, Except.map] at hr
  | ok r =>
      simp only [hretry, Except.map, Except.ok.injEq] at hr
      exact ⟨r, rfl, hr.symm⟩

end Insert

/-- `Remove` of a stored key buries its bucket and takes it off the filter. -/
theorem remove_cases (h : kv.table.TableInv (hash 0)) {key : Key} (hkey : Usable key) (cid : ℕ) :
    (∃ slot < kv.table.capacity, (kv.table.buckets slot).key = key ∧
      kv.table.view (hash 0) key = some (kv.table.buckets slot).value ∧
      kv.remove hash key cid = ({ kv with table := kv.table.bury slot }.cbfRemove hash cid key,
        (kv.table.buckets slot).value)) ∨
    (kv.table.view (hash 0) key = none ∧ kv.remove hash key cid = (kv, NONE)) := by
  rcases LinearProbingApprox.delete_cases h hkey with ⟨slot, hs, hk, hv, hd⟩ | ⟨hnone, hd⟩
  · have hne : (kv.table.buckets slot).value ≠ NONE := h.nonNull slot hs (by rw [hk]; exact hkey)
    refine Or.inl ⟨slot, hs, hk, hv, ?_⟩
    simp only [remove, hd, if_pos hne]
  · refine Or.inr ⟨hnone, ?_⟩
    simp [remove, hd]

/-- A returning `Evict` buries the bucket of some stored key that is not busy,
frees its page to the key's client and takes it off that client's filter. -/
theorem evict_ok {draws : List EvictDraw} {rand : ℕ} {kv' : KV}
    (hr : kv.evict hash draws rand = .ok kv') :
    ∃ slot, kv.table.Evictable slot ∧
      kv' = expel hash { kv with table := kv.table.bury slot } (kv.table.buckets slot) rand := by
  rw [evict] at hr
  cases he : kv.table.evict INVALID draws with
  | error e => simp [he, Except.map] at hr
  | ok p =>
      obtain ⟨table, key, value⟩ := p
      obtain ⟨slot, hslot, rfl, rfl, rfl, -⟩ := LinearProbingApprox.evict_ok he
      simp only [he, Except.map, Except.ok.injEq] at hr
      exact ⟨slot, hslot, hr.symm⟩

/-! ## The table keeps its invariant -/

theorem Attempt.tableInv {key : Key} {value : Value} {d : InsertDraw} {r : KV × ℤ}
    (h : Attempt hash kv key value d r) (hinv : kv.table.TableInv (hash 0)) (hkey : Usable key)
    (hvalue : value ≠ NONE) (hnone : kv.table.view (hash 0) key = none) :
    r.1.table.TableInv (hash 0) := by
  cases h with
  | added hi hfill _ => exact hinv.setBucket hkey hvalue hnone hi hfill
  | replaced hi hfull _ =>
      exact hinv.setBucket hkey hvalue hnone hi fun j hj => hfull j (Nat.lt_trans hj hi)
  | refused _ => exact hinv
  | dropped _ _ => exact hinv

theorem insert_tableInv {key : Key} {value : Value} {cid : ℕ} {draws : List InsertDraw} {kv' : KV}
    (hr : kv.insert hash key value cid draws = .ok kv') (hinv : kv.table.TableInv (hash 0))
    (hkey : Usable key) (hvalue : value ≠ NONE) : kv'.table.TableInv (hash 0) := by
  obtain ⟨r, hretry, rfl⟩ := insert_ok hr
  have htable : r.1.table.TableInv (hash 0) := by
    rcases insertRetry_ok hinv hkey hvalue hretry with
      ⟨hnone, d, hatt⟩ | ⟨slot, hs, hk, rand, d, hatt⟩
    · exact hatt.tableInv hinv hkey hvalue hnone
    · have hu : Usable (kv.table.buckets slot).key := by rw [hk]; exact hkey
      refine hatt.tableInv (supersede_inv hinv slot cid rand) hkey hvalue ?_
      rw [supersede_view hinv hs hu, hk, Function.update_self]
  split
  · exact htable
  · exact htable

/-- Of an `Insert`, up to the last `if (!ret)`, on a key that is stored: the new page
is stored, the old one is freed once, and no other key is touched. -/
theorem insertRetry_update (h : kv.table.TableInv (hash 0)) {key : Key} (hkey : Usable key)
    {value old : Value} (hvalue : value ≠ NONE) (hold : kv.table.view (hash 0) key = some old)
    (cid : ℕ) (d d' : InsertDraw) (ds : List InsertDraw) :
    ∃ kv', insertRetry hash key value cid kv (d :: d' :: ds) = .ok (kv', 0) ∧
      kv'.table.view (hash 0) = Function.update (kv.table.view (hash 0)) key (some value) ∧
      kv'.cbfs = kv.cbfs ∧ kv'.pool.freed = old :: kv.pool.freed := by
  obtain ⟨slot, hs, rfl, heq⟩ := insertRetry_present h hkey hold value cid d (d' :: ds)
  have hinv := supersede_inv h slot cid d.rand
  have hview := supersede_view h hs hkey cid d.rand
  have hnone : (kv.supersede slot cid d.rand).table.view (hash 0) (kv.table.buckets slot).key =
      none := by rw [hview, Function.update_self]
  obtain ⟨r, hr, hatt⟩ := insertRetry_absent hinv hkey hvalue hnone cid d' ds
  obtain ⟨i, hi, hfill, hvac, rfl⟩ := hatt.of_supersede h hs hkey
  refine ⟨_, heq.trans hr, ?_, rfl, ?_⟩
  · exact (LinearProbingApprox.view_vacant hinv hkey hnone hi hfill hvac).trans
      (by rw [hview, Function.update_idem])
  · have hvalue := h.view_of_bucket hs hkey
    rw [hold] at hvalue
    rw [Option.some.inj hvalue]
    rfl

/-- An update is counted by the filter of its client. -/
theorem insert_update (h : kv.table.TableInv (hash 0)) {key : Key} (hkey : Usable key)
    {value old : Value} (hvalue : value ≠ NONE) (hold : kv.table.view (hash 0) key = some old)
    (cid : ℕ) (d d' : InsertDraw) (ds : List InsertDraw) :
    ∃ kv', kv.insert hash key value cid (d :: d' :: ds) = .ok kv' ∧
      kv'.table.view (hash 0) = Function.update (kv.table.view (hash 0)) key (some value) ∧
      kv'.cbfs = Function.update kv.cbfs cid ((kv.cbfs cid).insert hash key) ∧
      kv'.pool.freed = old :: kv.pool.freed := by
  obtain ⟨kv', hr, hview, hcbfs, hfreed⟩ := insertRetry_update h hkey hvalue hold cid d d' ds
  refine ⟨kv'.cbfInsert hash cid key, by rw [insert, hr]; rfl, hview, ?_, hfreed⟩
  rw [← hcbfs]
  rfl

theorem remove_tableInv (hinv : kv.table.TableInv (hash 0)) {key : Key} (hkey : Usable key)
    (cid : ℕ) : (kv.remove hash key cid).1.table.TableInv (hash 0) := by
  rcases remove_cases hinv hkey cid with ⟨slot, -, -, -, hr⟩ | ⟨-, hr⟩
  · rw [hr]
    exact hinv.bury slot
  · rw [hr]
    exact hinv

theorem evict_tableInv {draws : List EvictDraw} {rand : ℕ} {kv' : KV}
    (hr : kv.evict hash draws rand = .ok kv') (hinv : kv.table.TableInv (hash 0)) :
    kv'.table.TableInv (hash 0) := by
  obtain ⟨slot, -, rfl⟩ := evict_ok hr
  exact hinv.bury slot

/-! ## What is stored -/

/-- What `Insert` does to the map: it stores the page, another key giving way
if the window was full, or it drops the page of a key that was not stored. -/
inductive InsertView (m : Key → Option Value) (key : Key) (value : Value) :
    (Key → Option Value) → Prop where
  | stored : InsertView m key value (Function.update m key (some value))
  | replaced {victim : Key} : m key = none → victim ≠ key → m victim ≠ none →
      InsertView m key value (Function.update (Function.update m victim none) key (some value))
  | lost : m key = none → InsertView m key value m

theorem Attempt.insertView {key : Key} {value : Value} {d : InsertDraw} {r : KV × ℤ}
    (h : Attempt hash kv key value d r) (hinv : kv.table.TableInv (hash 0)) (hkey : Usable key)
    (hnone : kv.table.view (hash 0) key = none) :
    InsertView (kv.table.view (hash 0)) key value (r.1.table.view (hash 0)) := by
  cases h with
  | added hi hfill hvac =>
      rw [LinearProbingApprox.view_vacant hinv hkey hnone hi hfill hvac]
      exact .stored
  | @replaced i hi hfull _ =>
      have hlt : kv.table.window (hash 0) key i < kv.table.capacity :=
        LinearProbingApprox.window_lt (by omega) key i
      have hview := hinv.view_of_bucket hlt (hfull i hi)
      rw [expel_table, LinearProbingApprox.view_evicted hinv hkey hnone hi hfull]
      refine .replaced hnone (fun he => ?_) ?_
      · rw [he, hnone] at hview
        cases hview
      · rw [hview]
        exact Option.some_ne_none _
  | refused _ => exact .lost hnone
  | dropped _ _ => exact .lost hnone

theorem insert_insertView {key : Key} {value : Value} {cid : ℕ} {draws : List InsertDraw}
    {kv' : KV} (hr : kv.insert hash key value cid draws = .ok kv')
    (hinv : kv.table.TableInv (hash 0)) (hkey : Usable key) (hvalue : value ≠ NONE) :
    InsertView (kv.table.view (hash 0)) key value (kv'.table.view (hash 0)) := by
  obtain ⟨r, hretry, rfl⟩ := insert_ok hr
  have htable : (if r.2 = 0 then r.1.cbfInsert hash cid key else r.1).table = r.1.table := by
    split
    · rfl
    · rfl
  rw [htable]
  rcases insertRetry_ok hinv hkey hvalue hretry with
    ⟨hnone, d, hatt⟩ | ⟨slot, hs, rfl, rand, d, hatt⟩
  · exact hatt.insertView hinv hkey hnone
  · have hview := supersede_view hinv hs hkey cid rand
    have hnone : (kv.supersede slot cid rand).table.view (hash 0) (kv.table.buckets slot).key =
        none := by rw [hview, Function.update_self]
    obtain ⟨i, hi, hfill, hvac, rfl⟩ := hatt.of_supersede hinv hs hkey
    show InsertView _ _ _ (((kv.supersede slot cid rand).table.setBucket
      ((kv.supersede slot cid rand).table.window (hash 0) (kv.table.buckets slot).key i)
      (kv.table.buckets slot).key value d.now).view (hash 0))
    rw [LinearProbingApprox.view_vacant (supersede_inv hinv slot cid rand) hkey hnone hi hfill hvac,
      hview, Function.update_idem]
    exact .stored

/-- After an `Insert` a key maps to what it mapped to before or, the inserted
key alone, to the new page. -/
theorem InsertView.cases_some {m m' : Key → Option Value} {key k : Key} {value v : Value}
    (h : InsertView m key value m') (hv : m' k = some v) :
    (k = key ∧ v = value) ∨ (k ≠ key ∧ m k = some v) := by
  by_cases hk : k = key
  · subst hk
    refine Or.inl ⟨rfl, ?_⟩
    cases h with
    | stored => simpa using hv.symm
    | replaced _ _ _ => simpa using hv.symm
    | lost hnone =>
        rw [hnone] at hv
        cases hv
  · refine Or.inr ⟨hk, ?_⟩
    cases h with
    | stored => simpa [hk] using hv
    | @replaced victim _ _ _ =>
        rw [Function.update_of_ne hk] at hv
        by_cases hvic : k = victim
        · rw [hvic, Function.update_self] at hv
          cases hv
        · rwa [Function.update_of_ne hvic] at hv
    | lost _ => exact hv

theorem remove_view (hinv : kv.table.TableInv (hash 0)) {key : Key} (hkey : Usable key)
    (cid : ℕ) : (kv.remove hash key cid).1.table.view (hash 0) =
      Function.update (kv.table.view (hash 0)) key none := by
  rcases remove_cases hinv hkey cid with ⟨slot, hs, rfl, -, hr⟩ | ⟨hnone, hr⟩
  · rw [hr]
    exact hinv.view_bury hs hkey
  · rw [hr, Function.update_eq_self_iff.mpr hnone.symm]

theorem remove_value (hinv : kv.table.TableInv (hash 0)) {key : Key} (hkey : Usable key)
    (cid : ℕ) : (kv.remove hash key cid).2 = (kv.table.view (hash 0) key).getD NONE := by
  rcases remove_cases hinv hkey cid with ⟨slot, hs, -, hv, hr⟩ | ⟨hnone, hr⟩
  · rw [hr, hv]
    rfl
  · rw [hr, hnone]
    rfl

theorem evict_view {draws : List EvictDraw} {rand : ℕ} {kv' : KV}
    (hr : kv.evict hash draws rand = .ok kv') (hinv : kv.table.TableInv (hash 0)) :
    ∃ k, kv'.table.view (hash 0) = Function.update (kv.table.view (hash 0)) k none := by
  obtain ⟨slot, ⟨hs, hu, -⟩, rfl⟩ := evict_ok hr
  exact ⟨_, hinv.view_bury hs hu⟩

theorem update_none_some {m : Key → Option Value} {k k' : Key} {v : Value}
    (h : Function.update m k none k' = some v) : m k' = some v := by
  by_cases hk : k' = k
  · rw [hk, Function.update_self] at h
    cases h
  · rwa [Function.update_of_ne hk] at h

end KV

end CleancacheRdma.Daemon
