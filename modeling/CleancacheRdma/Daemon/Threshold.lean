import Mathlib
import CleancacheRdma.Daemon.Borrowing

/-!
# The free-page threshold of a list

`GetThldFree` stores a 64-bit quotient in an `int` and compares it with a
`size_t`. From 2 GiB on the quotient loses its upper half, and where bit 31 is
set what is left becomes one of the largest words there are.
-/

namespace CleancacheRdma.Daemon

open Lib (System)

namespace PerCPUPool

variable (p : PerCPUPool) (fl : ℕ)

theorem toMB_lt_iff {x y : BitVec 64} :
    toMB x < toMB y ↔ x.toNat / 1048576 < y.toNat / 1048576 := Iff.rfl

/-- `floor(allocs_[fl] * free_thold_perc_ / 100)`, in the integers. -/
def freeShare : ℕ := (p.allocs fl).toNat * freeTholdPerc / 100

/-- The lower half of the quotient that `GetThldFree` computes in 64 bits. -/
def lowHalf : ℕ := (p.allocs fl).toNat * freeTholdPerc % 2 ^ 64 / 100 % 2 ^ 32

/-- The threshold is the greater of the list's share and the pool's minimum,
and a list that owns the minimum owns its threshold. -/
structure ThldExact : Prop where
  eq_max : (p.getThldFree fl).toNat = max (p.freeShare fl) p.minFlFree.toNat
  owned : p.minFlFree ≤ p.allocs fl → p.getThldFree fl ≤ p.allocs fl

/-- The share is less than 2 GiB, or it is not the greater one and its lower half
is no negative `int`. -/
def ShareFits : Prop :=
  p.freeShare fl < 2 ^ 31 ∨ (p.freeShare fl ≤ p.minFlFree.toNat ∧ p.lowHalf fl < 2 ^ 31)

instance : Decidable (p.ShareFits fl) := inferInstanceAs (Decidable (_ ∨ _))

variable {p fl}

/-- An `int` widened to a `size_t`. -/
theorem toNat_widen (c : BitVec 32) :
    (c.signExtend 64).toNat = if c.toNat < 2 ^ 31 then c.toNat else 2 ^ 64 - 2 ^ 32 + c.toNat := by
  have hlt := c.isLt
  rw [BitVec.toNat_signExtend, BitVec.toNat_setWidth, BitVec.msb_eq_decide,
    Nat.mod_eq_of_lt (Nat.lt_trans hlt (by decide))]
  by_cases hc : c.toNat < 2 ^ 31
  · rw [if_pos hc, if_neg]
    · rfl
    · rw [decide_eq_true_eq]
      omega
  · rw [if_neg hc, if_pos]
    · exact Nat.add_comm _ _
    · rw [decide_eq_true_eq]
      omega

theorem lowHalf_lt : p.lowHalf fl < 2 ^ 32 := Nat.mod_lt _ (by decide)

theorem lowHalf_eq (h : p.freeShare fl < 2 ^ 32) : p.lowHalf fl = p.freeShare fl := by
  unfold freeShare at h ⊢
  unfold lowHalf
  rw [Nat.mod_eq_of_lt (by omega : (p.allocs fl).toNat * freeTholdPerc < 2 ^ 64),
    Nat.mod_eq_of_lt h]

/-- What the code computes, read off its words. -/
theorem getThldFree_toNat : (p.getThldFree fl).toNat =
    max (if p.lowHalf fl < 2 ^ 31 then p.lowHalf fl else 2 ^ 64 - 2 ^ 32 + p.lowHalf fl)
      p.minFlFree.toNat := by
  have hword : ((p.allocs fl * BitVec.ofNat 64 freeTholdPerc / 100).setWidth 32).toNat =
      p.lowHalf fl := by
    rw [BitVec.toNat_setWidth, BitVec.toNat_udiv, BitVec.toNat_mul]
    rfl
  have hwiden := toNat_widen ((p.allocs fl * BitVec.ofNat 64 freeTholdPerc / 100).setWidth 32)
  rw [hword] at hwiden
  rw [← hwiden]
  unfold getThldFree
  dsimp only
  split
  next hlt => exact (max_eq_left (Nat.le_of_lt (BitVec.lt_def.mp hlt))).symm
  next hge => exact (max_eq_right (Nat.le_of_not_lt hge)).symm

theorem freeShare_le : p.freeShare fl ≤ (p.allocs fl).toNat := by
  unfold freeShare freeTholdPerc
  omega

/-- No share is as large as a negative `int`. -/
theorem freeShare_lt : p.freeShare fl < 2 ^ 64 - 2 ^ 32 := by
  have hlt := (p.allocs fl).isLt
  unfold freeShare freeTholdPerc
  omega

theorem getThldFree_of_share_lt (h : p.freeShare fl < 2 ^ 31) :
    (p.getThldFree fl).toNat = max (p.freeShare fl) p.minFlFree.toNat := by
  rw [getThldFree_toNat, lowHalf_eq (Nat.lt_trans h (by decide)), if_pos h]

/-- `GetThldFree` is exact just where the share fits its `int`. -/
theorem thldExact_iff (hmin : p.minFlFree.toNat < 2 ^ 63) : p.ThldExact fl ↔ p.ShareFits fl := by
  constructor
  · intro hexact
    have heq := hexact.eq_max
    rw [getThldFree_toNat] at heq
    by_contra hnot
    obtain ⟨hbig, hlow⟩ := not_or.mp hnot
    have hhalf := @lowHalf_lt p fl
    have hshare := @freeShare_lt p fl
    by_cases hneg : p.lowHalf fl < 2 ^ 31
    · rw [if_pos hneg] at heq
      -- the lower half is smaller than the share, which is the greater one
      have hmax : p.minFlFree.toNat < p.freeShare fl := by
        by_contra hle
        exact hlow ⟨Nat.le_of_not_lt hle, hneg⟩
      omega
    · rw [if_neg hneg] at heq
      omega
  · intro hfits
    have heq : (p.getThldFree fl).toNat = max (p.freeShare fl) p.minFlFree.toNat := by
      rcases hfits with hsmall | ⟨hle, hlow⟩
      · exact getThldFree_of_share_lt hsmall
      · rw [getThldFree_toNat, if_pos hlow, max_eq_right hle]
        rcases Nat.lt_or_ge (p.freeShare fl) (2 ^ 31) with hsmall | hbig
        · rw [lowHalf_eq (Nat.lt_trans hsmall (by decide)), max_eq_right hle]
        · exact max_eq_right (by omega)
    refine ⟨heq, fun hmin => ?_⟩
    rw [BitVec.le_def, heq]
    exact max_le freeShare_le hmin

end PerCPUPool

open PerCPUPool

/-- The two minima are the constructor's. -/
theorem PoolRun.step_minima {s s' : PoolRun} {c : PoolCall} (hwf : s.pool.WF)
    (hstep : s.step c = some s') :
    s'.pool.WF ∧ s'.pool.minFlAlloc = s.pool.minFlAlloc ∧ s'.pool.minFlFree = s.pool.minFlFree ∧
      s'.pool.perCliFl = s.pool.perCliFl ∧ s'.pool.numClients = s.pool.numClients := by
  cases c with
  | allocate cid qid rand =>
      rw [PoolRun.step] at hstep
      split at hstep
      next hknown =>
        split at hstep
        next a pool halloc =>
          cases hstep
          obtain ⟨fl, f, -, -, rfl⟩ := allocate_some hwf hknown.2 halloc
          exact ⟨⟨hwf.perCliFl_pos, hwf.totalFl_eq⟩, rfl, rfl, rfl, rfl⟩
        next =>
          cases hstep
          exact ⟨hwf, rfl, rfl, rfl, rfl⟩
      · cases hstep
  | allocateFromPeer fl =>
      rw [PoolRun.step] at hstep
      split at hstep
      next hfl =>
        split at hstep
        next a pool halloc =>
          cases hstep
          obtain ⟨_, _, -, _, -, f, -, -, -, rfl⟩ := allocateFromPeer_tried hwf halloc
          exact ⟨⟨hwf.perCliFl_pos, hwf.totalFl_eq⟩, rfl, rfl, rfl, rfl⟩
        next =>
          cases hstep
          exact ⟨hwf, rfl, rfl, rfl, rfl⟩
      · cases hstep
  | free addr cid qid rand =>
      rw [PoolRun.step] at hstep
      split at hstep
      · cases hstep
        exact ⟨⟨hwf.perCliFl_pos, hwf.totalFl_eq⟩, rfl, rfl, rfl, rfl⟩
      · cases hstep

section Run

variable {startAddr : Value} {memPoolSize numClients perCliFl : ℕ} {calls : List PoolCall}
  {s : PoolRun}

/-- What no call changes. -/
theorem poolSystem_minima (hper : 0 < perCliFl)
    (hrun : (poolSystem startAddr memPoolSize numClients perCliFl).exec
      { pool := .new startAddr memPoolSize numClients perCliFl } calls = some s) :
    s.pool.WF ∧
      s.pool.minFlAlloc = (new startAddr memPoolSize numClients perCliFl).minFlAlloc ∧
      s.pool.minFlFree = (new startAddr memPoolSize numClients perCliFl).minFlFree ∧
      s.pool.perCliFl = perCliFl ∧ s.pool.numClients = numClients := by
  refine System.exec_invariant (P := fun _ _ => True)
    (I := fun s : PoolRun => s.pool.WF ∧
      s.pool.minFlAlloc = (new startAddr memPoolSize numClients perCliFl).minFlAlloc ∧
      s.pool.minFlFree = (new startAddr memPoolSize numClients perCliFl).minFlFree ∧
      s.pool.perCliFl = perCliFl ∧ s.pool.numClients = numClients)
    ?_ ⟨new_wf _ _ _ hper, rfl, rfl, rfl, rfl⟩
    (System.meets_of_mem _ _ fun _ _ _ => trivial) hrun
  rintro s c s' ⟨hwf, halloc, hfree, hfl, hcli⟩ - hstep
  obtain ⟨hwf', halloc', hfree', hfl', hcli'⟩ := PoolRun.step_minima hwf hstep
  exact ⟨hwf', halloc'.trans halloc, hfree'.trans hfree, hfl'.trans hfl, hcli'.trans hcli⟩

/-- In every state that calls lead to from a new pool of any size, the threshold
of a list is exact just where the list's share fits an `int`. -/
theorem getThldFree_exact_iff (hper : 0 < perCliFl)
    (hrun : (poolSystem startAddr memPoolSize numClients perCliFl).exec
      { pool := .new startAddr memPoolSize numClients perCliFl } calls = some s) (fl : ℕ) :
    s.pool.ThldExact fl ↔ s.pool.ShareFits fl := by
  obtain ⟨-, -, hmin, -, -⟩ := poolSystem_minima hper hrun
  apply thldExact_iff
  rw [hmin]
  show (BitVec.ofNat 64 _ / 100).toNat < 2 ^ 63
  rw [BitVec.toNat_udiv]
  have hlt := (BitVec.ofNat 64 (memPoolSize / SLOT_SIZE / (numClients * perCliFl) * SLOT_SIZE *
    freeTholdPerc)).isLt
  show _ / 100 < 2 ^ 63
  omega

end Run

/-- One page has moved from the second client to the first. -/
theorem getThldFree_exact_iff_borrowed :
    ∃ s, (poolSystem 4096 (17 <<< 20) 2 8).exec { pool := twoClients } [.allocateFromPeer 0] =
        some s ∧ s.pool.allocs 0 = 1116288 ∧ (s.pool.ThldExact 0 ↔ s.pool.ShareFits 0) := by
  have hmap : ((poolSystem 4096 (17 <<< 20) 2 8).exec { pool := twoClients }
      [.allocateFromPeer 0]).map (fun s => s.pool.allocs 0) = some 1116288 := by decide +kernel
  obtain ⟨s, hrun, hs⟩ := Option.map_eq_some_iff.mp hmap
  exact ⟨s, hrun, hs, getThldFree_exact_iff (by decide) hrun 0⟩

/-- One client with 48 GiB in each of its eight lists: the new pool asks every
list for nearly 2^64 bytes. -/
theorem getThldFree_negative :
    (new 4096 (393216 <<< 20) 1 8).freeShare 0 = 2576980191 ∧
      (new 4096 (393216 <<< 20) 1 8).getThldFree 0 = 18446744071991564511#64 ∧
      (new 4096 (393216 <<< 20) 1 8).minFlFree ≤ (new 4096 (393216 <<< 20) 1 8).allocs 0 ∧
      ¬ (new 4096 (393216 <<< 20) 1 8).ThldExact 0 := by
  have hmin : (new 4096 (393216 <<< 20) 1 8).minFlFree ≤
      (new 4096 (393216 <<< 20) 1 8).allocs 0 := by decide +kernel
  have hthld : (new 4096 (393216 <<< 20) 1 8).getThldFree 0 = 18446744071991564511#64 := by
    decide +kernel
  refine ⟨by decide +kernel, hthld, hmin, fun hexact => ?_⟩
  have howned := hexact.owned hmin
  rw [hthld] at howned
  revert howned
  decide +kernel

end CleancacheRdma.Daemon
