import Mathlib
import CleancacheRdma.Daemon.HashTable.Reserved

/-!
# Eviction comes to an end

An attempt of `ApproxLRUEvict` may go to `RETRY` for several reasons, and none
of them decreases anything. From the fourth attempt on, though, the first valid
bucket met is taken if it is not busy; so one draw that begins at such a bucket
ends the call, whatever candidate is carried over from the attempts before it.
-/

namespace CleancacheRdma.Daemon.LinearProbingApprox

open Lib (Ctl)
open Lib.Loop

variable {t : LinearProbingApprox} {key : Key}

/-- Random replacement at the first probe. -/
theorem evictAttempt_direct {retryCnt : ℕ} (hretry : MAX_EVICT_RETRY < retryCnt) {d : EvictDraw}
    (halone : d.curTryLock 0 = true) (hslot : t.Evictable (d.rand % t.capacity))
    (minTimestamp : BitVec 32) (victimSlot : Option ℕ) :
    t.evictAttempt key retryCnt d minTimestamp victimSlot =
      t.evictBucket (d.rand % t.capacity) := by
  obtain ⟨hlt, husable, hbusy⟩ := hslot
  have hstart : (d.rand % t.capacity + 0) % t.capacity = d.rand % t.capacity := by
    rw [Nat.add_zero, Nat.mod_mod]
  have hprobe : t.evictProbe retryCnt d.prevTryLock (d.rand % t.capacity)
      { minTimestamp, victimSlot } = .out (.out (t.evictBucket (d.rand % t.capacity))) := by
    unfold evictProbe
    dsimp only
    rw [hstart, if_pos (isValidBucket_iff.mpr husable), hbusy, if_neg Bool.false_ne_true,
      if_pos hretry]
    rfl
  have hrange : t.evictRange key retryCnt d (d.rand % t.capacity) { minTimestamp, victimSlot } =
      .out (t.evictBucket (d.rand % t.capacity)) := by
    unfold evictRange
    dsimp only
    rw [if_pos (Nat.zero_lt_of_lt hlt), if_pos halone,
      result_of_run (by rw [run, hprobe] : run (t.evictProbe retryCnt d.prevTryLock
        (d.rand % t.capacity)) (t.capacity + 1) { minTimestamp, victimSlot } = .out _)]
  exact result_of_run (by rw [run, hrange])

/-- The attempts before a draw that hits end the call or lead to it. -/
theorem evictRetry_returns (hcap : lockSize ≤ t.capacity) (hsound : t.Sound) {d : EvictDraw}
    (halone : d.curTryLock 0 = true) (hslot : t.Evictable (d.rand % t.capacity))
    (draws : List EvictDraw) :
    ∀ (retryCnt : ℕ) (minTimestamp : BitVec 32) (victimSlot : Option ℕ),
      MAX_EVICT_RETRY < retryCnt + draws.length →
      (∀ v, victimSlot = some v → t.Evictable v) →
      ∃ slot, t.Evictable slot ∧
        t.evictRetry key (draws ++ [d]) retryCnt minTimestamp victimSlot =
          .ok (t.bury slot, (t.buckets slot).key, (t.buckets slot).value) := by
  have hout : ∀ slot, t.Evictable slot →
      evictOut (t.bury slot) (t.buckets slot).key (t.buckets slot).value =
        .ok (t.bury slot, (t.buckets slot).key, (t.buckets slot).value) := by
    intro slot hs
    rw [evictOut, if_neg (not_or.mpr hs.2.1), if_neg (hsound slot hs.2.1)]
  induction draws with
  | nil =>
      intro retryCnt minTimestamp victimSlot hretry hv
      have hdirect := @evictAttempt_direct t key _ hretry _ halone hslot minTimestamp victimSlot
      rw [List.length_nil, Nat.add_zero] at hdirect
      refine ⟨_, hslot, ?_⟩
      rw [List.nil_append, evictRetry, hdirect]
      exact hout _ hslot
  | cons d₁ ds ih =>
      intro retryCnt minTimestamp victimSlot hretry hv
      have hatt := evictAttempt_attempted key retryCnt d₁ minTimestamp hv
      rw [List.cons_append, evictRetry]
      cases he : t.evictAttempt key retryCnt d₁ minTimestamp victimSlot with
      | reached table k v =>
          rw [he] at hatt
          rcases hatt with ⟨slot, hs, rfl, rfl, rfl⟩ | ⟨hlt, -⟩
          · exact ⟨slot, hs, hout slot hs⟩
          · exact absurd hcap (Nat.not_le_of_lt hlt)
      | retry m v =>
          rw [he] at hatt
          rw [List.length_cons] at hretry
          exact ih _ _ _ (by omega) hatt

/-- What `ApproxLRUEvict` has done to the table and hands back. -/
structure TakesVictim (t table : LinearProbingApprox) (key : Key) (value : Value) (slot : ℕ) :
    Prop where
  lt : slot < t.capacity
  valid : t.isValidBucket slot = true
  idle : (t.buckets slot).busy = false
  key_eq : key = (t.buckets slot).key
  value_eq : value = (t.buckets slot).value
  capacity : table.capacity = t.capacity
  tombstone : table.buckets slot = { t.buckets slot with key := TOMBSTONE }
  others : ∀ s, s ≠ slot → table.buckets s = t.buckets s

theorem Evictable.takesVictim {slot : ℕ} (h : t.Evictable slot) :
    t.TakesVictim (t.bury slot) (t.buckets slot).key (t.buckets slot).value slot where
  lt := h.1
  valid := isValidBucket_iff.mpr h.2.1
  idle := h.2.2
  key_eq := rfl
  value_eq := rfl
  capacity := rfl
  tombstone := Function.update_self _ _ _
  others _ hs := bury_of_ne hs

/-- The draws of a call that is alone: no `try_lock` of a range fails, and every
start position comes again and again. -/
structure Fair (t : LinearProbingApprox) (draws : ℕ → EvictDraw) : Prop where
  alone : ∀ n i, (draws n).curTryLock i = true
  recurs : ∀ loc < t.capacity, ∀ n, ∃ m, n ≤ m ∧ (draws m).rand % t.capacity = loc

theorem approxLRUEvict_returns (hcap : lockSize ≤ t.capacity) (hsound : t.Sound)
    (hslot : ∃ slot, t.Evictable slot) {draws : ℕ → EvictDraw} (hfair : t.Fair draws) (key : Key) :
    ∃ n table k v slot,
      t.approxLRUEvict key ((List.range n).map draws) = .ok (table, k, v) ∧
        t.TakesVictim table k v slot := by
  obtain ⟨loc, hloc⟩ := hslot
  -- the first hit among the attempts that replace at random
  obtain ⟨m, hm, hrand⟩ := hfair.recurs loc hloc.1 (MAX_EVICT_RETRY + 1)
  have hstop : t.Evictable ((draws m).rand % t.capacity) := hrand ▸ hloc
  have hlong : MAX_EVICT_RETRY < 0 + ((List.range m).map draws).length := by
    rw [List.length_map, List.length_range, Nat.zero_add]
    exact hm
  obtain ⟨slot, hs, heq⟩ := @evictRetry_returns t key hcap hsound _ (hfair.alone m 0) hstop
    ((List.range m).map draws) 0 (-1) none hlong (fun v hv => by cases hv)
  refine ⟨m + 1, _, _, _, slot, ?_, hs.takesVictim⟩
  rw [List.range_succ, List.map_append]
  exact heq

end LinearProbingApprox

open LinearProbingApprox

/-- In every table that calls with values have led to, with at least one bucket
that is valid and not busy: `ApproxLRUEvict` comes back with such a bucket. -/
theorem evict_finds_victim {hash : Key → ℕ} {capacity : ℕ} {calls : List TableCall}
    (hcalls : ∀ c ∈ calls, c.NonNull) {t : LinearProbingApprox}
    (hrun : (tableSystem hash capacity).exec (.new capacity) calls = some t)
    (hcap : 16 ≤ t.capacity)
    (hslot : ∃ slot < t.capacity, t.isValidBucket slot = true ∧ (t.buckets slot).busy = false)
    {draws : ℕ → EvictDraw} (hfair : t.Fair draws) (key : Key) :
    ∃ n table k v slot,
      t.approxLRUEvict key ((List.range n).map draws) = .ok (table, k, v) ∧
        t.TakesVictim table k v slot := by
  obtain ⟨slot, hlt, hvalid, hidle⟩ := hslot
  have hevictable : t.Evictable slot := ⟨hlt, isValidBucket_iff.mp hvalid, hidle⟩
  exact approxLRUEvict_returns hcap (tableSystem_anyKeys hcalls hrun).sound ⟨slot, hevictable⟩
    hfair key

/-- Two keys, one of which is being read. -/
def oneBusyCalls : List TableCall :=
  [.insert 1 100 INVALID 5 true, .insert 2 200 INVALID 6 true, .getWithFlag 2 true 7]

/-- Every start position in turn. -/
def inTurn (n : ℕ) : EvictDraw := { rand := n }

theorem inTurn_fair {t : LinearProbingApprox} (hcap : 0 < t.capacity) : t.Fair inTurn where
  alone _ _ := rfl
  recurs loc hloc n := by
    refine ⟨t.capacity * n + loc, ?_, ?_⟩
    · exact Nat.le_add_right_of_le (Nat.le_mul_of_pos_left n hcap)
    · show (t.capacity * n + loc) % t.capacity = loc
      rw [Nat.mul_add_mod, Nat.mod_eq_of_lt hloc]

theorem evict_finds_victim_oneBusy :
    ∃ t, (tableSystem BitVec.toNat 16).exec (.new 16) oneBusyCalls = some t ∧
      (t.buckets 2).busy = true ∧ ∃ n table k v slot,
        t.approxLRUEvict INVALID ((List.range n).map inTurn) = .ok (table, k, v) ∧
          t.TakesVictim table k v slot := by
  have hmap : ((tableSystem BitVec.toNat 16).exec (.new 16) oneBusyCalls).map (fun t =>
      decide (t.capacity = 16 ∧ t.isValidBucket 1 = true ∧ (t.buckets 1).busy = false ∧
        (t.buckets 2).busy = true)) = some true := by decide +kernel
  obtain ⟨t, hrun, ht⟩ := Option.map_eq_some_iff.mp hmap
  obtain ⟨hcap, hvalid, hidle, hbusy⟩ := of_decide_eq_true ht
  refine ⟨t, hrun, hbusy, evict_finds_victim (by decide) hrun (Nat.le_of_eq hcap.symm) ⟨1, ?_⟩
    (inTurn_fair ?_) INVALID⟩
  · exact ⟨by rw [hcap]; decide, hvalid, hidle⟩
  · rw [hcap]
    decide

end CleancacheRdma.Daemon
