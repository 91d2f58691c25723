import CleancacheRdma.Daemon.KV

/-!
# Updates and failed inserts

An update takes the place that its own deletion has freed, so it neither evicts
nor fails. An insert that fails leaves everything but the pool as it was.
-/

namespace CleancacheRdma.Daemon.KV

variable {hash : HashFuncs} {kv : KV} {key : Key} {value : Value} {cid : ℕ}

/-- The new page is stored, the old one is freed once, no other key is touched. -/
structure Updated (hash : HashFuncs) (kv kv' : KV) (key : Key) (old value : Value) : Prop where
  view : kv'.table.view (hash 0) = Function.update (kv.table.view (hash 0)) key (some value)
  freed : kv'.pool.freed = old :: kv.pool.freed

/-- The key was absent, and nothing is different but that its page is freed. -/
structure Reverted (hash : HashFuncs) (kv kv' : KV) (key : Key) (value : Value) : Prop where
  absent : kv.table.view (hash 0) key = none
  table : kv'.table = kv.table
  cbfs : kv'.cbfs = kv.cbfs
  freed : kv'.pool.freed = value :: kv.pool.freed

/-- An `Insert` whose result is -1 has made its only attempt on an absent key. -/
theorem insertRetry_reverted (h : kv.table.TableInv (hash 0)) (hkey : Usable key)
    (hvalue : value ≠ NONE) {draws : List InsertDraw} {kv' : KV}
    (hr : insertRetry hash key value cid kv draws = .ok (kv', -1)) :
    Reverted hash kv kv' key value := by
  rcases insertRetry_ok h hkey hvalue hr with ⟨hnone, d, hatt⟩ | ⟨slot, hs, rfl, rand, d, hatt⟩
  · cases hatt with
    | refused _ => exact ⟨hnone, rfl, rfl, rfl⟩
  · obtain ⟨i, -, -, -, hret⟩ := hatt.of_supersede h hs hkey
    cases hret

/-- What `Insert` promises beside storing the page of a new key. -/
structure Careful (hash : HashFuncs) (kv : KV) (key : Key) (value : Value) (cid : ℕ) : Prop where
  update : ∀ old, kv.table.view (hash 0) key = some old → ∀ d d' ds, ∃ kv',
    kv.insert hash key value cid (d :: d' :: ds) = .ok kv' ∧ Updated hash kv kv' key old value
  failure : ∀ draws kv', insertRetry hash key value cid kv draws = .ok (kv', -1) →
    kv.insert hash key value cid draws = .ok kv' ∧ Reverted hash kv kv' key value

theorem insert_careful (h : kv.table.TableInv (hash 0)) (hkey : Usable key)
    (hvalue : value ≠ NONE) (cid : ℕ) : kv.Careful hash key value cid where
  update old hold d d' ds := by
    obtain ⟨kv', hr, hview, -, hfreed⟩ := insert_update h hkey hvalue hold cid d d' ds
    exact ⟨kv', hr, hview, hfreed⟩
  failure draws kv' hr := ⟨by rw [insert, hr]; rfl, insertRetry_reverted h hkey hvalue hr⟩

/-- Updates never evict and failed inserts change nothing, on every table that
calls with proper keys and values lead to. -/
theorem insert_careful_of_run {capacity : ℕ} {calls : List TableCall}
    (hwf : ∀ c ∈ calls, c.WellFormed)
    (hrun : (tableSystem (hash 0) capacity).exec (.new capacity) calls = some kv.table)
    (hkey : Usable key) (hvalue : value ≠ NONE) (cid : ℕ) : kv.Careful hash key value cid :=
  insert_careful (tableSystem_inv hwf hrun).1 hkey hvalue cid

/-- An update in the table of overlapping windows. -/
theorem insert_careful_overlap : ∃ kv : KV,
    (tableSystem BitVec.toNat 16).exec (.new 16) overlapCalls = some kv.table ∧
      kv.table.view BitVec.toNat 17 = some 300 ∧
      kv.Careful (fun _ => BitVec.toNat) 17 400 0 := by
  have hmap : ((tableSystem BitVec.toNat 16).exec (.new 16) overlapCalls).map
      (fun t => t.view BitVec.toNat 17) = some (some 300) := by decide +kernel
  obtain ⟨t, hrun, hview⟩ := Option.map_eq_some_iff.mp hmap
  have hwf : ∀ c ∈ overlapCalls, c.WellFormed := by decide
  have hkey : Usable 17 := by decide
  have hvalue : (400 : Value) ≠ NONE := by decide
  obtain ⟨kv, rfl⟩ : ∃ kv : KV, kv.table = t := ⟨⟨t, .new 4096 (2 ^ 16) 1 1, fun _ => .new 1 8⟩, rfl⟩
  have hcareful : kv.Careful (fun _ => BitVec.toNat) 17 400 0 :=
    @insert_careful_of_run (fun _ => BitVec.toNat) kv 17 400 16 overlapCalls hwf hrun hkey hvalue 0
  exact ⟨kv, hrun, hview, hcareful⟩

end CleancacheRdma.Daemon.KV
