import Mathlib
import CleancacheRdma.Daemon.HashTable.Eviction
import CleancacheRdma.Daemon.Ownership
import CleancacheRdma.Daemon.Threshold

/-!
# One round of the evictor

The inner loop of `KV::Evictor`. A pass borrows a page, which adds to the free
memory of the list, or evicts one, which may end up on any list of any client.
So the loop is bounded by two counters together: the bytes borrowed, which stay
below the threshold, and the evictions, which `thld_evict_cnt` limits as long as
it is what the threshold says.
-/

namespace CleancacheRdma.Daemon

open Lib (System)
open LinearProbingApprox (EvictDraw)
open PerCPUPool (toMB)

/-! ## The loop -/

/-- The store and the local `evict_cnt`; `done` is set behind the loop. -/
structure EvictorRound where
  kv : KV
  evictCnt : ℕ := 0
  done : Bool := false

/-- `thld_evict_cnt`, an `int`. -/
def thldEvictCnt (thldFree : BitVec 64) : BitVec 32 := (thldFree / 4096).setWidth 32

namespace EvictorRound

/-- The condition of the `while`. -/
def Short (thldFree : BitVec 64) (fl : ℕ) (kv : KV) : Prop :=
  toMB (kv.pool.getFree fl) < toMB thldFree

instance (thldFree : BitVec 64) (fl : ℕ) : DecidablePred (Short thldFree fl) :=
  fun _ => inferInstanceAs (Decidable (_ < _))

variable (hash : HashFuncs) (fl : ℕ) (thldFree : BitVec 64)

/-- `if (evict_cnt > thld_evict_cnt) break;` -/
def breakIf (kv : KV) (evictCnt : ℕ) : EvictorRound :=
  { kv, evictCnt, done := (thldEvictCnt thldFree).slt (BitVec.ofNat 32 evictCnt) }

/-- One pass, with the draws of the `Evict` in it; a call that does not return
has no pass. -/
def step (s : EvictorRound) (d : List EvictDraw × ℕ) : Option EvictorRound :=
  if s.done then none
  else if Short thldFree fl s.kv then
    match s.kv.pool.allocateFromPeer fl with
    | some (_, pool) => some (breakIf thldFree { s.kv with pool } s.evictCnt)
    | none => (s.kv.evict hash d.1 d.2).toOption.map fun kv =>
        breakIf thldFree kv (s.evictCnt + 1)
  else some { s with done := true }

end EvictorRound

/-- The round of list `fl`, from the moment its threshold is read. -/
def evictorSystem (hash : HashFuncs) (fl : ℕ) (thldFree : BitVec 64) :
    System EvictorRound (List EvictDraw × ℕ) where
  init s := s.evictCnt = 0 ∧ s.done = false ∧ thldFree = s.kv.pool.getThldFree fl
  step := EvictorRound.step hash fl thldFree

/-- The passes of a round are bounded, and so are its evictions. The loop is
left for one of two reasons, and it does not stop inside unless `Evict` does. -/
structure RoundEnds (hash : HashFuncs) (fl : ℕ) (thldFree : BitVec 64) (kv : KV) : Prop where
  finite : ∃ n, ∀ ds s, (evictorSystem hash fl thldFree).exec { kv } ds = some s → ds.length ≤ n
  evictions : ∀ ds s, (evictorSystem hash fl thldFree).exec { kv } ds = some s →
    s.evictCnt ≤ thldFree.toNat / 4096 + 1
  exit : ∀ ds s, (evictorSystem hash fl thldFree).exec { kv } ds = some s → s.done = true →
    toMB thldFree ≤ toMB (s.kv.pool.getFree fl) ∨ s.evictCnt = thldFree.toNat / 4096 + 1
  goesOn : ∀ ds s, (evictorSystem hash fl thldFree).exec { kv } ds = some s → s.done = false →
    ∀ d, (s.kv.evict hash d.1 d.2).toOption ≠ none →
      ((evictorSystem hash fl thldFree).step s d).isSome = true

/-! ## Free memory -/

namespace PerCPUPool

variable {p : PerCPUPool} {fl : ℕ} {a : Value}

theorem getFree_give (k : ℕ) : (p.give k a).getFree fl =
    if k = fl then p.getFree fl + BitVec.ofNat 64 SLOT_SIZE else p.getFree fl := by
  unfold give getFree getUsed
  dsimp only
  split
  next h =>
    rw [h, Function.update_self]
    ring
  next h => rw [Function.update_of_ne (Ne.symm h)]

theorem getFree_borrow {peerFl : ℕ} {f : FreeList} (hne : fl ≠ peerFl) :
    (p.borrow fl peerFl a f).getFree fl = p.getFree fl + BitVec.ofNat 64 SLOT_SIZE := by
  unfold borrow getFree getUsed
  dsimp only
  rw [Function.update_self, Function.update_of_ne hne]
  ring

/-- Below a threshold there is room for another page in the word. -/
theorem toNat_add_slot {x y : BitVec 64} (h : toMB x < toMB y) :
    (x + BitVec.ofNat 64 SLOT_SIZE).toNat = x.toNat + SLOT_SIZE := by
  have hlt := toMB_lt_iff.mp h
  have hy := y.isLt
  rw [BitVec.toNat_add, BitVec.toNat_ofNat]
  unfold SLOT_SIZE
  omega

/-- Reaching the threshold is decided in MB, so the word is below it before. -/
theorem toNat_lt_of_toMB {x y : BitVec 64} (h : toMB x < toMB y) : x.toNat < y.toNat := by
  have hlt := toMB_lt_iff.mp h
  by_contra hle
  exact absurd hlt (Nat.not_lt.mpr (Nat.div_le_div_right (Nat.le_of_not_lt hle)))

end PerCPUPool

open PerCPUPool

namespace EvictorRound

variable {hash : HashFuncs} {fl : ℕ} {thldFree : BitVec 64} {s s' : EvictorRound}
  {d : List EvictDraw × ℕ}

/-- `Evict` changes the pool by one `Free`. -/
theorem evict_pool {kv kv' : KV} (h : (kv.evict hash d.1 d.2).toOption = some kv') :
    ∃ k a, kv'.pool = kv.pool.give k a := by
  obtain ⟨slot, -, rfl⟩ := KV.evict_ok (toOption_some h)
  exact ⟨_, _, rfl⟩

/-- What a pass does: it leaves the loop, or it borrows, or it evicts. -/
inductive Passed (fl : ℕ) (thldFree : BitVec 64) (s : EvictorRound) : EvictorRound → Prop where
  | left : ¬ Short thldFree fl s.kv → Passed fl thldFree s { s with done := true }
  | borrowed {a : Value} {pool : PerCPUPool} : Short thldFree fl s.kv →
      s.kv.pool.allocateFromPeer fl = some (a, pool) →
      Passed fl thldFree s (breakIf thldFree { s.kv with pool } s.evictCnt)
  | evicted {k : ℕ} {a : Value} {kv : KV} : Short thldFree fl s.kv →
      kv.pool = s.kv.pool.give k a → Passed fl thldFree s (breakIf thldFree kv (s.evictCnt + 1))

theorem step_passed (h : s.step hash fl thldFree d = some s') :
    s.done = false ∧ Passed fl thldFree s s' := by
  unfold step at h
  split at h
  · cases h
  next hdone =>
    refine ⟨Bool.eq_false_iff.mpr hdone, ?_⟩
    split at h
    next hshort =>
      split at h
      next a pool hborrow =>
        cases h
        exact .borrowed hshort hborrow
      next =>
        obtain ⟨kv, hkv, rfl⟩ := Option.map_eq_some_iff.mp h
        obtain ⟨k, a, hpool⟩ := evict_pool hkv
        exact .evicted hshort hpool
    next hshort =>
      cases h
      exact .left hshort

/-- Only an `Evict` that does not return stops the loop inside. -/
theorem step_isSome (hdone : s.done = false) (h : (s.kv.evict hash d.1 d.2).toOption ≠ none) :
    (s.step hash fl thldFree d).isSome = true := by
  unfold step
  rw [hdone, if_neg Bool.false_ne_true]
  split
  · split
    · rfl
    · rw [Option.isSome_map]
      exact Option.isSome_iff_ne_none.mpr h
  · rfl

theorem thldEvictCnt_toNat (h : thldFree.toNat / 4096 < 2 ^ 32) :
    (thldEvictCnt thldFree).toNat = thldFree.toNat / 4096 := by
  unfold thldEvictCnt
  rw [BitVec.toNat_setWidth, BitVec.toNat_udiv]
  exact Nat.mod_eq_of_lt h

/-- With both counters in the range of an `int` the comparison is that of the
numbers. -/
theorem break_iff (h : thldFree.toNat / 4096 < 2 ^ 31) {n : ℕ} (hn : n < 2 ^ 31) :
    (thldEvictCnt thldFree).slt (BitVec.ofNat 32 n) = true ↔ thldFree.toNat / 4096 < n := by
  have hcut := thldEvictCnt_toNat (Nat.lt_trans h (by decide))
  have hcnt : (BitVec.ofNat 32 n).toNat = n :=
    (BitVec.toNat_ofNat n 32).trans (Nat.mod_eq_of_lt (Nat.lt_trans hn (by decide)))
  rw [BitVec.slt_iff_toInt_lt, BitVec.toInt_eq_toNat_of_lt (by omega),
    BitVec.toInt_eq_toNat_of_lt (by omega), hcut, hcnt]
  exact Nat.cast_lt

/-- What holds after `passes` passes, `borrows` of which have borrowed a page. -/
structure Bounded (fl : ℕ) (thldFree : BitVec 64) (passes borrows : ℕ) (s : EvictorRound) :
    Prop where
  wf : s.kv.pool.WF
  passes_le : passes ≤ borrows + s.evictCnt + if s.done then 1 else 0
  -- every page borrowed is still in the free memory, and the last one was borrowed below the
  -- threshold
  borrows_le : SLOT_SIZE * borrows ≤ (s.kv.pool.getFree fl).toNat
  borrows_lt : SLOT_SIZE * borrows ≤ thldFree.toNat + SLOT_SIZE
  running : s.done = false → s.evictCnt ≤ thldFree.toNat / 4096
  evictCnt_le : s.evictCnt ≤ thldFree.toNat / 4096 + 1
  left : s.done = true →
    toMB thldFree ≤ toMB (s.kv.pool.getFree fl) ∨ s.evictCnt = thldFree.toNat / 4096 + 1

variable {passes borrows : ℕ}

/-- After the `if`, with an `int` that holds the limit. -/
theorem Bounded.breakIf {kv : KV} {evictCnt : ℕ} (hlimit : thldFree.toNat / 4096 + 1 < 2 ^ 31)
    (hwf : kv.pool.WF) (hpasses : passes ≤ borrows + evictCnt)
    (hborrows : SLOT_SIZE * borrows ≤ (kv.pool.getFree fl).toNat)
    (hlast : SLOT_SIZE * borrows ≤ thldFree.toNat + SLOT_SIZE)
    (hcnt : evictCnt ≤ thldFree.toNat / 4096 + 1) :
    Bounded fl thldFree passes borrows (EvictorRound.breakIf thldFree kv evictCnt) := by
  have hbreak := @break_iff thldFree (by omega) evictCnt (by omega)
  refine ⟨hwf, Nat.le_add_right_of_le hpasses, hborrows, hlast, fun hdone => ?_, hcnt,
    fun hdone => ?_⟩
  · have hdone' : (thldEvictCnt thldFree).slt (BitVec.ofNat 32 evictCnt) = false := hdone
    exact Nat.le_of_not_lt fun hlt => Bool.false_ne_true (hdone'.symm.trans (hbreak.mpr hlt))
  · exact Or.inr (Nat.le_antisymm hcnt (hbreak.mp hdone))

theorem Bounded.step (hlimit : thldFree.toNat / 4096 + 1 < 2 ^ 31)
    (h : Bounded fl thldFree passes borrows s) (hstep : s.step hash fl thldFree d = some s') :
    ∃ borrows', Bounded fl thldFree (passes + 1) borrows' s' := by
  obtain ⟨hdone, hpassed⟩ := step_passed hstep
  have hpasses := h.passes_le
  have hcnt := h.running hdone
  rw [hdone, if_neg Bool.false_ne_true, Nat.add_zero] at hpasses
  cases hpassed with
  | left hshort =>
      refine ⟨borrows, h.wf, ?_, h.borrows_le, h.borrows_lt, fun hd => ?_, h.evictCnt_le,
        fun _ => Or.inl (BitVec.not_lt.mp hshort)⟩
      · exact Nat.succ_le_succ hpasses
      · cases hd
  | @borrowed a pool hshort hborrow =>
      have hbelow := toNat_lt_of_toMB hshort
      obtain ⟨peer, -, hpeer, j, -, f, -, -, -, rfl⟩ := allocateFromPeer_tried h.wf hborrow
      have hfree := toNat_add_slot hshort
      rw [← getFree_borrow (peerList_ne h.wf hpeer) (a := a) (f := f)] at hfree
      refine ⟨borrows + 1, .breakIf hlimit ⟨h.wf.perCliFl_pos, h.wf.totalFl_eq⟩ ?_ ?_ ?_
        (Nat.le_succ_of_le hcnt)⟩
      · omega
      · show _ ≤ (PerCPUPool.getFree _ fl).toNat
        rw [hfree, Nat.mul_succ]
        exact Nat.add_le_add_right h.borrows_le _
      · rw [Nat.mul_succ]
        exact Nat.add_le_add_right
          (Nat.le_trans h.borrows_le (Nat.le_of_lt hbelow)) _
  | @evicted k a kv hshort hpool =>
      have hfree := @getFree_give s.kv.pool fl a k
      refine ⟨borrows, .breakIf hlimit ?_ ?_ ?_ h.borrows_lt (Nat.succ_le_succ hcnt)⟩
      · rw [hpool]
        exact ⟨h.wf.perCliFl_pos, h.wf.totalFl_eq⟩
      · omega
      · rw [hpool, hfree]
        split
        · rw [toNat_add_slot hshort]
          exact Nat.le_add_right_of_le h.borrows_le
        · exact h.borrows_le

theorem Bounded.init {kv : KV} (hwf : kv.pool.WF) : Bounded fl thldFree 0 0 { kv } where
  wf := hwf
  passes_le := Nat.zero_le _
  borrows_le := Nat.zero_le _
  borrows_lt := Nat.zero_le _
  running _ := Nat.zero_le _
  evictCnt_le := Nat.zero_le _
  left hdone := by cases hdone

theorem bounded_run (hlimit : thldFree.toNat / 4096 + 1 < 2 ^ 31) {kv : KV} (hwf : kv.pool.WF)
    {ds : List (List EvictDraw × ℕ)}
    (hrun : (evictorSystem hash fl thldFree).exec { kv } ds = some s) :
    ∃ borrows, Bounded fl thldFree ds.length borrows s := by
  refine System.exec_history (P := fun _ _ => True)
    (I := fun past s => ∃ borrows, Bounded fl thldFree past.length borrows s)
    ?_ ⟨0, .init hwf⟩ ds s (System.meets_of_mem _ _ fun _ _ _ => trivial) hrun
  rintro past s d s' ⟨borrows, h⟩ - hstep
  rw [List.length_append]
  exact h.step hlimit hstep

theorem roundEnds_of_limit (hlimit : thldFree.toNat / 4096 + 1 < 2 ^ 31) {kv : KV}
    (hwf : kv.pool.WF) : RoundEnds hash fl thldFree kv where
  finite := by
    refine ⟨thldFree.toNat + 1 + (thldFree.toNat / 4096 + 1) + 1, fun ds s hrun => ?_⟩
    obtain ⟨borrows, h⟩ := bounded_run hlimit hwf hrun
    have hborrows := h.borrows_lt
    have hpasses := h.passes_le
    have hcnt := h.evictCnt_le
    have hlast : (if s.done = true then 1 else 0) ≤ 1 := by
      split
      · exact Nat.le_refl 1
      · exact Nat.zero_le 1
    unfold SLOT_SIZE at hborrows
    omega
  evictions ds s hrun := by
    obtain ⟨borrows, h⟩ := bounded_run hlimit hwf hrun
    exact h.evictCnt_le
  exit ds s hrun hdone := by
    obtain ⟨borrows, h⟩ := bounded_run hlimit hwf hrun
    exact h.left hdone
  goesOn ds s _ hdone d hevict := step_isSome hdone hevict

/-! ## A limit that is no `int` -/

/-- The buckets that `Evict` may empty. -/
def idleBuckets (t : LinearProbingApprox) : Finset ℕ :=
  {slot ∈ Finset.range t.capacity | Usable (t.buckets slot).key ∧ (t.buckets slot).busy = false}

theorem mem_idleBuckets {t : LinearProbingApprox} {slot : ℕ} :
    slot ∈ idleBuckets t ↔ t.Evictable slot := by
  unfold idleBuckets
  rw [Finset.mem_filter, Finset.mem_range]
  exact Iff.rfl

/-- An eviction uses up one of them. -/
theorem card_idleBuckets_bury (t : LinearProbingApprox) (slot : ℕ) :
    (idleBuckets t).card ≤ (idleBuckets (t.bury slot)).card + 1 := by
  have hsub : (idleBuckets t).erase slot ⊆ idleBuckets (t.bury slot) := by
    intro i hi
    obtain ⟨hne, hmem⟩ := Finset.mem_erase.mp hi
    obtain ⟨hlt, husable, hidle⟩ := mem_idleBuckets.mp hmem
    refine mem_idleBuckets.mpr ⟨hlt, ?_, ?_⟩
    · rw [LinearProbingApprox.bury_of_ne hne]
      exact husable
    · rw [LinearProbingApprox.bury_of_ne hne]
      exact hidle
  have hcard := Finset.card_le_card hsub
  have herase := Finset.pred_card_le_card_erase (s := idleBuckets t) (a := slot)
  omega

/-- One client, whose first list is short of memory; all that is evicted goes to
its second one. -/
structure Starved (thldFree : BitVec 64) (victims : ℕ) (s : EvictorRound) : Prop where
  alone : s.kv.pool.numClients = 1
  lists : 2 ≤ s.kv.pool.perCliFl
  short : Short thldFree 0 s.kv
  capacity : LinearProbingApprox.lockSize ≤ s.kv.table.capacity
  sound : s.kv.table.Sound
  victims_le : victims ≤ s.evictCnt + (idleBuckets s.kv.table).card

variable {victims : ℕ}

/-- There is no other client to borrow from. -/
theorem Starved.allocateFromPeer (h : Starved thldFree victims s) :
    s.kv.pool.allocateFromPeer 0 = none := by
  have hself : s.kv.pool.selectByFreeMem (0 / s.kv.pool.perCliFl) = 0 / s.kv.pool.perCliFl := by
    unfold selectByFreeMem
    rw [h.alone]
    rfl
  unfold PerCPUPool.allocateFromPeer
  dsimp only
  rw [if_pos hself.symm]

/-- As long as there are victims, some pass evicts one. -/
theorem Starved.step (h : Starved thldFree victims s) (hdone : s.done = false)
    (hleft : s.evictCnt < victims) :
    ∃ d kv, s.step hash 0 thldFree d = some (EvictorRound.breakIf thldFree kv (s.evictCnt + 1)) ∧
      Starved thldFree victims (EvictorRound.breakIf thldFree kv (s.evictCnt + 1)) := by
  have hvictims := h.victims_le
  obtain ⟨slot, hslot⟩ : (idleBuckets s.kv.table).Nonempty :=
    Finset.card_pos.mp (by omega)
  obtain ⟨n, table, k, v, -, hret, -⟩ := LinearProbingApprox.approxLRUEvict_returns h.capacity
    h.sound ⟨slot, mem_idleBuckets.mp hslot⟩
    (inTurn_fair (Nat.lt_of_lt_of_le (by decide) h.capacity)) INVALID
  -- a draw of 1 picks a second list
  obtain ⟨kv, hkv⟩ : ∃ kv, s.kv.evict hash ((List.range n).map inTurn) 1 = .ok kv := by
    unfold KV.evict LinearProbingApprox.evict
    rw [hret]
    exact ⟨_, rfl⟩
  obtain ⟨victim, -, heq⟩ := KV.evict_ok hkv
  refine ⟨((List.range n).map inTurn, 1), kv, ?_, ?_⟩
  · unfold EvictorRound.step
    rw [hdone, if_neg Bool.false_ne_true, if_pos h.short, h.allocateFromPeer]
    dsimp only
    rw [hkv]
    rfl
  · have hcard := card_idleBuckets_bury s.kv.table victim
    subst heq
    refine ⟨h.alone, h.lists, ?_, h.capacity, h.sound.bury victim, ?_⟩
    · have hother : ¬ s.kv.pool.flId (longkeyToCid (s.kv.table.buckets victim).key) none 1 = 0 := by
        show ¬ _ * s.kv.pool.perCliFl + 1 % s.kv.pool.perCliFl = 0
        rw [Nat.mod_eq_of_lt h.lists]
        exact Nat.succ_ne_zero _
      show toMB ((s.kv.pool.give _ _).getFree 0) < toMB thldFree
      rw [getFree_give, if_neg hother]
      exact h.short
    · show victims ≤ s.evictCnt + 1 + (idleBuckets (s.kv.table.bury victim)).card
      omega

/-- The greatest `int` is not below another one. -/
theorem slt_of_max {c x : BitVec 32} (h : c.slt (BitVec.ofNat 32 (2 ^ 31 - 1)) = false) :
    c.slt x = false := by
  rw [Bool.eq_false_iff] at h ⊢
  intro hlt
  apply h
  rw [BitVec.slt_iff_toInt_lt] at hlt ⊢
  have hmax : (BitVec.ofNat 32 (2 ^ 31 - 1)).toInt = 2 ^ 31 - 1 := by decide
  have hx := @BitVec.toInt_lt 32 x
  rw [hmax]
  omega

/-- If the round did end, it would go through every number of evictions. -/
theorem Starved.run {kv : KV} (hstart : Starved thldFree victims { kv })
    (hlimit : 2 ^ 31 ≤ thldFree.toNat / 4096 + 1)
    (hends : RoundEnds hash 0 thldFree kv) {n : ℕ} (hn : n ≤ victims) :
    ∃ ds s, (evictorSystem hash 0 thldFree).exec { kv } ds = some s ∧ Starved thldFree victims s ∧
      s.evictCnt = n ∧ s.done = false ∧
      ∀ m ≤ n, 0 < m → (thldEvictCnt thldFree).slt (BitVec.ofNat 32 m) = false := by
  induction n with
  | zero => exact ⟨[], _, rfl, hstart, rfl, rfl, fun m hm hpos => absurd hm (by omega)⟩
  | succ n ih =>
      obtain ⟨ds, s, hrun, hs, rfl, hdone, hcut⟩ := ih (Nat.le_of_succ_le hn)
      obtain ⟨d, kv', hstep, hs'⟩ := @Starved.step hash thldFree s victims hs hdone hn
      have hrun' : (evictorSystem hash 0 thldFree).exec { kv } (ds ++ [d]) =
          some (EvictorRound.breakIf thldFree kv' (s.evictCnt + 1)) :=
        System.exec_snoc_some.mpr ⟨s, hrun, hstep⟩
      have hnext : (thldEvictCnt thldFree).slt (BitVec.ofNat 32 (s.evictCnt + 1)) = false := by
        rw [Bool.eq_false_iff]
        intro hbreak
        rcases hends.exit _ _ hrun' hbreak with hreached | hlast
        · exact absurd hs'.short (BitVec.not_lt.mpr hreached)
        · -- the greatest `int` has been passed before
          have hlast' : s.evictCnt + 1 = thldFree.toNat / 4096 + 1 := hlast
          have hmax := slt_of_max (x := BitVec.ofNat 32 (s.evictCnt + 1))
            (hcut (2 ^ 31 - 1) (by omega) (by decide))
          exact Bool.false_ne_true (hmax.symm.trans hbreak)
      refine ⟨ds ++ [d], _, hrun', hs', rfl, hnext, fun m hm hpos => ?_⟩
      rcases Nat.lt_or_eq_of_le hm with hlt | rfl
      · exact hcut m (Nat.le_of_lt_succ hlt) hpos
      · exact hnext

/-- A pool whose threshold is any number, over a table with any number of keys. -/
def starved (thldFree : BitVec 64) (victims : ℕ) : KV where
  table :=
    { capacity := victims + 16
      buckets := fun i => if i < victims then { key := BitVec.ofNat 64 i, value := 1 } else {} }
  pool :=
    { totalFl := 2, perCliFl := 2, numClients := 1, startAddr := 0, allocs := fun _ => 0
      useds := fun _ => 0, minFlAlloc := 0, minFlFree := thldFree, freelist := fun _ => {} }
  cbfs := fun _ => .new 1 1

theorem starved_thld (victims : ℕ) : (starved thldFree victims).pool.getThldFree 0 = thldFree := by
  unfold getThldFree
  refine if_neg ?_
  show ¬ thldFree < (((0 : BitVec 64) * BitVec.ofNat 64 freeTholdPerc / 100).setWidth 32).signExtend 64
  rw [show (((0 : BitVec 64) * BitVec.ofNat 64 freeTholdPerc / 100).setWidth 32).signExtend 64 = 0
    by decide, BitVec.lt_def]
  exact Nat.not_lt_zero _

theorem starved_starved (hshort : toMB 0 < toMB thldFree) (hvictims : victims < 2 ^ 63) :
    Starved thldFree victims { kv := starved thldFree victims } where
  alone := rfl
  lists := Nat.le_refl 2
  short := by
    show toMB ((0 : BitVec 64) - 0) < toMB thldFree
    rw [sub_zero]
    exact hshort
  capacity := Nat.le_add_left _ _
  sound slot hu := by
    show (if slot < victims then _ else _ : LPABkt).value ≠ NONE
    split
    · exact Nat.one_ne_zero
    next hge =>
      exfalso
      have hkey : ((starved thldFree victims).table.buckets slot).key = INVALID := by
        show (if slot < victims then _ else _ : LPABkt).key = INVALID
        rw [if_neg hge]
      exact hu.1 hkey
  victims_le := by
    rw [Nat.zero_add]
    have hsub : Finset.range victims ⊆ idleBuckets (starved thldFree victims).table := by
      intro i hi
      have hlt := Finset.mem_range.mp hi
      have hbucket : (starved thldFree victims).table.buckets i =
          { key := BitVec.ofNat 64 i, value := 1 } := if_pos hlt
      refine mem_idleBuckets.mpr ⟨Nat.lt_add_right 16 hlt, ?_, ?_⟩
      · rw [hbucket]
        constructor
        · intro heq
          have hnat := congrArg BitVec.toNat heq
          rw [BitVec.toNat_ofNat, Nat.mod_eq_of_lt (by omega)] at hnat
          unfold INVALID at hnat
          simp at hnat
          omega
        · intro heq
          have hnat := congrArg BitVec.toNat heq
          rw [BitVec.toNat_ofNat, Nat.mod_eq_of_lt (by omega)] at hnat
          unfold TOMBSTONE at hnat
          simp at hnat
          omega
      · rw [hbucket]
    have hcard := Finset.card_le_card hsub
    rw [Finset.card_range] at hcard
    exact hcard

end EvictorRound

open EvictorRound

/-- For every threshold: all rounds that read it end as they should, in every
state and for every list, exactly if the greatest number of evictions it allows
is an `int`. -/
theorem evictor_round_ends_iff (hash : HashFuncs) (thldFree : BitVec 64) :
    (∀ (kv : KV) (fl : ℕ), kv.pool.WF → fl < kv.pool.totalFl →
        kv.pool.getThldFree fl = thldFree → RoundEnds hash fl thldFree kv) ↔
      thldFree.toNat / 4096 + 1 < 2 ^ 31 := by
  constructor
  · intro hall
    by_contra hnot
    have hlimit := Nat.le_of_not_lt hnot
    have hthld := thldFree.isLt
    have hshort : toMB 0 < toMB thldFree := by
      rw [toMB_lt_iff]
      show 0 < _
      omega
    have hends := hall (starved thldFree (thldFree.toNat / 4096 + 2)) 0
      ⟨Nat.two_pos, rfl⟩ Nat.two_pos (starved_thld _)
    obtain ⟨ds, s, hrun, -, hcnt, -⟩ := (starved_starved hshort (by omega)).run hlimit hends
      (Nat.le_refl _)
    have hle := hends.evictions ds s hrun
    omega
  · intro hlimit kv fl hwf _ _
    exact roundEnds_of_limit hlimit hwf

/-! ## A threshold that is no `int` -/

/-- The first page of a new pool is handed out first. -/
theorem KV.new_allocate (startAddr : Value) {memPoolSize : ℕ} (numHash numBits : ℕ)
    (hsize : 0 < memPoolSize / SLOT_SIZE / (1 * numDataQps)) :
    ∃ f, (KV.new startAddr memPoolSize 1 numHash numBits).allocate 0 (some 0) 0 =
      some (startAddr, { KV.new startAddr memPoolSize 1 numHash numBits with
        pool := (PerCPUPool.new startAddr memPoolSize 1 numDataQps).take 0 f }) := by
  have haddrs := new_addrs startAddr memPoolSize 1 numDataQps (i := 0) (by decide)
  obtain ⟨n, hn⟩ := Nat.exists_eq_succ_of_ne_zero (Nat.ne_of_gt hsize)
  rw [hn, List.range_succ_eq_map, List.map_cons] at haddrs
  have hfirst : page startAddr (0 * n.succ + 0) = startAddr := by
    unfold page
    rw [Nat.zero_mul, Nat.add_zero, Nat.zero_mul, Nat.add_zero]
  rw [hfirst] at haddrs
  obtain ⟨a, f, hget⟩ := getFreeAddr_of_ne
    (f := (PerCPUPool.new startAddr memPoolSize 1 numDataQps).freelist 0)
    (by rw [haddrs]; exact List.cons_ne_nil _ _)
  have ha := (FreeList.getFreeAddr_some hget).1
  rw [haddrs] at ha
  obtain ⟨rfl, -⟩ := List.cons.inj ha
  refine ⟨f, ?_⟩
  have hiter : (PerCPUPool.new startAddr memPoolSize 1 numDataQps).numIter = 4 := by
    show (if numDataQps = 1 then 1 else numDataQps / 2) = 4
    decide
  have hstart : (PerCPUPool.new startAddr memPoolSize 1 numDataQps).flId 0 (some 0) 0 = 0 :=
    (Nat.add_zero _).trans (Nat.zero_mul _)
  have hloop : (PerCPUPool.new startAddr memPoolSize 1 numDataQps).allocateLoop 0 4 0 =
      some (startAddr, (PerCPUPool.new startAddr memPoolSize 1 numDataQps).take 0 f) := by
    rw [allocateLoop, hget]
  show Option.map _ ((PerCPUPool.new startAddr memPoolSize 1 numDataQps).allocate 0 (some 0) 0) = _
  rw [PerCPUPool.allocate, hiter, hstart, hloop]
  rfl

/-- The first key of an empty table is stored. -/
theorem KV.insert_first {kv : KV} {capacity : ℕ} (htable : kv.table = .new capacity)
    (hcap : LinearProbingApprox.lockSize ≤ capacity) {key : Key} (hkey : Usable key) {value : Value}
    (hvalue : value ≠ NONE) (hash : HashFuncs) (cid : ℕ) (d : KV.InsertDraw) :
    ∃ kv', kv.insert hash key value cid [d] = .ok kv' ∧ kv'.pool = kv.pool ∧
      kv'.table.capacity = capacity ∧ kv'.table.Sound ∧ ∃ slot, kv'.table.Evictable slot := by
  have hinv : kv.table.TableInv (hash 0) := htable ▸ LinearProbingApprox.new_inv capacity
  have hnone : kv.table.view (hash 0) key = none := by
    rw [htable, LinearProbingApprox.view_new]
  obtain ⟨r, hr, hatt⟩ := KV.insertRetry_absent hinv hkey hvalue hnone cid d []
  have hpos : 0 < min LinearProbingApprox.lockSize kv.table.capacity := by
    rw [htable]
    exact Nat.lt_min.mpr ⟨by decide, Nat.lt_of_lt_of_le (by decide) hcap⟩
  have hvacant : ∀ slot, ¬ Usable (kv.table.buckets slot).key := by
    intro slot hu
    rw [htable] at hu
    exact hu.1 rfl
  cases hatt with
  | @added i hi _ _ =>
      have hret : kv.insert hash key value cid [d] = .ok (cbfInsert hash
          { kv with table := kv.table.setBucket (kv.table.window (hash 0) key i) key value d.now }
          cid key) := by
        rw [KV.insert, hr]
        rfl
      refine ⟨_, hret, rfl, ?_, ?_, ?_⟩
      · show kv.table.capacity = capacity
        rw [htable]
        rfl
      · show (kv.table.setBucket _ _ _ _).Sound
        exact LinearProbingApprox.Sound.put (fun slot hu => absurd hu (hvacant slot))
          fun _ => hvalue
      · refine ⟨kv.table.window (hash 0) key i, ?_⟩
        show (kv.table.setBucket _ _ _ _).Evictable _
        refine ⟨LinearProbingApprox.window_lt (by omega) key i, ?_, ?_⟩
        · unfold LinearProbingApprox.setBucket
          rw [LinearProbingApprox.put_buckets, Function.update_self]
          exact hkey
        · unfold LinearProbingApprox.setBucket
          rw [LinearProbingApprox.put_buckets, Function.update_self, htable]
          rfl
  | replaced _ hfull _ => exact absurd (hfull 0 hpos) (hvacant _)
  | refused hfull => exact absurd (hfull 0 hpos) (hvacant _)
  | dropped hfull _ => exact absurd (hfull 0 hpos) (hvacant _)

/-- One client with 48 GiB in each of its eight lists and one page stored. The
threshold is nearly 2^64 and `thld_evict_cnt` negative: the round is left after
one eviction, short of its threshold by 2^44 MB. -/
theorem evictor_round_breaks :
    ∃ kv kv', (KV.new 4096 (393216 <<< 20) 1 1 8).allocate 0 (some 0) 0 = some (4096, kv) ∧
      kv.insert keyHash 1 4096 0 [{}] = .ok kv' ∧
      kv'.pool.getThldFree 0 = 18446744071991564511#64 ∧
      ¬ RoundEnds keyHash 0 (kv'.pool.getThldFree 0) kv' := by
  obtain ⟨f, halloc⟩ := @KV.new_allocate 4096 (393216 <<< 20) 1 8 (by decide)
  obtain ⟨kv', hinsert, hpool, hcap, hsound, slot, hslot⟩ := @KV.insert_first
    { KV.new 4096 (393216 <<< 20) 1 1 8 with
      pool := (PerCPUPool.new 4096 (393216 <<< 20) 1 numDataQps).take 0 f }
    (KV.tableCapacity (393216 <<< 20)) rfl (by decide) 1 (by decide) 4096 (by decide) keyHash 0 {}
  have hthld : kv'.pool.getThldFree 0 = 18446744071991564511#64 := by
    rw [hpool]
    show (PerCPUPool.new 4096 (393216 <<< 20) 1 8).getThldFree 0 = 18446744071991564511#64
    decide +kernel
  refine ⟨_, kv', halloc, hinsert, hthld, fun hends => ?_⟩
  rw [hthld] at hends
  have hstarved : Starved 18446744071991564511#64 1 { kv := kv' } := by
    refine ⟨?_, ?_, ?_, ?_, hsound, ?_⟩
    · rw [hpool]
      rfl
    · rw [hpool]
      show 2 ≤ numDataQps
      decide
    · unfold Short
      rw [hpool]
      show toMB ((PerCPUPool.new 4096 (393216 <<< 20) 1 8).allocs 0 -
        (0 + BitVec.ofNat 64 SLOT_SIZE)) < _
      decide +kernel
    · rw [hcap]
      decide
    · exact Nat.le_add_left_of_le (Finset.card_pos.mpr ⟨slot, mem_idleBuckets.mpr hslot⟩)
  obtain ⟨d, kv₁, hstep, hstarved'⟩ := @Starved.step keyHash _ _ _ hstarved rfl Nat.one_pos
  have hrun : (evictorSystem keyHash 0 18446744071991564511#64).exec { kv := kv' } [d] =
      some (EvictorRound.breakIf 18446744071991564511#64 kv₁ 1) :=
    System.exec_cons_some.mpr ⟨_, hstep, rfl⟩
  rcases hends.exit _ _ hrun (by decide : (thldEvictCnt 18446744071991564511#64).slt
    (BitVec.ofNat 32 1) = true) with hreached | hlast
  · exact absurd hstarved'.short (BitVec.not_lt.mpr hreached)
  · revert hlast
    show ¬ 1 = _
    decide

end CleancacheRdma.Daemon
