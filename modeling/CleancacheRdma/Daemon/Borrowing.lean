import Mathlib
import CleancacheRdma.Daemon.Accounting

/-!
# Borrowing a page from a peer

The loop of `AllocateFromPeer` passes over a list of the peer only if the list
is empty and above both thresholds. At a list below a threshold it stays, and
tries the same list until its passes are used up.
-/

namespace CleancacheRdma.Daemon

namespace PerCPUPool

variable (p : PerCPUPool)

/-- The lists of a peer, `i` after the one with the borrower's own offset. -/
def peerList (peer off i : ℕ) : ℕ := peer * p.perCliFl + (off + i) % p.perCliFl

/-- Both thresholds that `AllocateFromPeer` checks at a list. -/
def Above (fl : ℕ) : Prop :=
  toMB p.minFlAlloc < toMB (p.getAlloc fl) ∧ toMB p.minFlFree < toMB (p.getFree fl)

instance : DecidablePred p.Above := fun _ => inferInstanceAs (Decidable (_ ∧ _))

/-- A list with a page to lend. -/
def Lends (fl : ℕ) : Prop := p.Above fl ∧ (p.freelist fl).addrs ≠ []

instance : DecidablePred p.Lends := fun _ => inferInstanceAs (Decidable (_ ∧ _))

/-- A page of list `peerFl` has become one of list `fl`, and its memory with it. -/
structure Lent (p' : PerCPUPool) (fl peerFl : ℕ) (a : Value) : Prop where
  lends : p.Lends peerFl
  popped : (p.freelist peerFl).addrs = a :: (p'.freelist peerFl).addrs
  pushed : (p'.freelist fl).addrs = a :: (p.freelist fl).addrs
  lender : p'.allocs peerFl = p.allocs peerFl - BitVec.ofNat 64 SLOT_SIZE
  borrower : p'.allocs fl = p.allocs fl + BitVec.ofNat 64 SLOT_SIZE
  others : ∀ i, i ≠ fl → i ≠ peerFl →
    p'.allocs i = p.allocs i ∧ p'.freelist i = p.freelist i
  useds : p'.useds = p.useds

/-- With a peer selected, a page is borrowed if one of its lists can lend one,
and no list is tapped that is below a threshold. -/
structure TriesPeer (fl : ℕ) : Prop where
  borrows : ∀ peer, p.selectByFreeMem (fl / p.perCliFl) = peer → peer ≠ fl / p.perCliFl →
    (∃ i < p.perCliFl / 2, p.Lends (p.peerList peer (fl % p.perCliFl) i)) →
    ∃ a p', p.allocateFromPeer fl = some (a, p') ∧
      ∃ i < p.perCliFl / 2, p.Lent p' fl (p.peerList peer (fl % p.perCliFl) i) a
  spares : ∀ a p', p.allocateFromPeer fl = some (a, p') →
    ∀ i, i ≠ fl → p'.freelist i ≠ p.freelist i → p.Above i

/-- In front of the first list that can lend all lists are above both
thresholds, and the borrower's list has a node left. -/
def ClearPath (fl : ℕ) : Prop :=
  ∀ peer, p.selectByFreeMem (fl / p.perCliFl) = peer → peer ≠ fl / p.perCliFl →
    ∀ i < p.perCliFl / 2, p.Lends (p.peerList peer (fl % p.perCliFl) i) →
      (∀ j < i, ¬ p.Lends (p.peerList peer (fl % p.perCliFl) j)) →
      (∀ j < i, p.Above (p.peerList peer (fl % p.perCliFl) j)) ∧
        (p.freelist fl).addrs.length < (p.freelist fl).maxChunks

variable {p} {p' : PerCPUPool} {fl peer off i n : ℕ} {a : Value}

/-! ## The lists in turn -/

theorem peerList_zero (hoff : off < p.perCliFl) :
    p.peerList peer off 0 = peer * p.perCliFl + off := by
  rw [peerList, Nat.add_zero, Nat.mod_eq_of_lt hoff]

theorem nextFl_peerList (h : p.WF) :
    p.nextFl peer (p.peerList peer off i) = p.peerList peer off (i + 1) := by
  have hpos := h.perCliFl_pos
  have hlt := Nat.mod_lt (off + i) hpos
  have hsucc : (off + (i + 1)) % p.perCliFl =
      if (off + i) % p.perCliFl + 1 = p.perCliFl then 0 else (off + i) % p.perCliFl + 1 := by
    rw [← Nat.add_assoc, Nat.add_mod]
    by_cases hone : p.perCliFl = 1
    · rw [hone, Nat.mod_one, Nat.mod_one]
      rfl
    · rw [Nat.mod_eq_of_lt (by omega : 1 < p.perCliFl)]
      split
      next hend => rw [hend, Nat.mod_self]
      next hend => exact Nat.mod_eq_of_lt (by omega)
  unfold nextFl peerList
  rw [hsucc]
  by_cases hend : (off + i) % p.perCliFl + 1 = p.perCliFl
  · rw [if_pos hend, if_pos (by omega), Nat.add_zero]
  · rw [if_neg hend, if_neg (by omega), Nat.add_assoc]

/-- A list of another client. -/
theorem peerList_ne (h : p.WF) (hpeer : peer ≠ fl / p.perCliFl) :
    fl ≠ p.peerList peer off i := by
  rintro rfl
  apply hpeer
  unfold peerList
  rw [Nat.mul_comm, Nat.mul_add_div h.perCliFl_pos,
    Nat.div_eq_of_lt (Nat.mod_lt _ h.perCliFl_pos), Nat.add_zero]

theorem getFreeAddr_of_ne {f : FreeList} (h : f.addrs ≠ []) :
    ∃ a f', f.getFreeAddr = some (a, f') := by
  unfold FreeList.getFreeAddr
  cases hf : f.addrs with
  | nil => exact absurd hf h
  | cons a as => exact ⟨a, _, rfl⟩

theorem getFreeAddr_nil {f : FreeList} (h : f.addrs = []) : f.getFreeAddr = none := by
  unfold FreeList.getFreeAddr
  rw [h]

/-! ## The loop -/

theorem borrowLoop_above {curFl : ℕ} (h : p.Above fl) :
    p.borrowLoop curFl peer (n + 1) fl =
      match (p.freelist fl).getFreeAddr with
      | some (a, f) => some (a, p.borrow curFl fl a f)
      | none => p.borrowLoop curFl peer n (p.nextFl peer fl) := if_pos h

/-- All the passes are spent on a list below a threshold. -/
theorem borrowLoop_below {curFl : ℕ} (h : ¬ p.Above fl) : p.borrowLoop curFl peer n fl = none := by
  induction n with
  | zero => rfl
  | succ n ih => exact (if_neg h).trans ih

/-- What the loop borrows comes from the first list that can lend, and all the
lists before it are empty and above the thresholds. -/
theorem borrowLoop_tried (h : p.WF) {curFl : ℕ} :
    p.borrowLoop curFl peer n (p.peerList peer off i) = some (a, p') →
      ∃ j < n, ∃ f, (∀ k < j, p.Above (p.peerList peer off (i + k)) ∧
          (p.freelist (p.peerList peer off (i + k))).addrs = []) ∧
        p.Above (p.peerList peer off (i + j)) ∧
        (p.freelist (p.peerList peer off (i + j))).getFreeAddr = some (a, f) ∧
        p' = p.borrow curFl (p.peerList peer off (i + j)) a f := by
  induction n generalizing i with
  | zero =>
      intro ha
      cases ha
  | succ n ih =>
      intro ha
      by_cases habove : p.Above (p.peerList peer off i)
      · rw [borrowLoop_above habove] at ha
        split at ha
        next a' f hget =>
          cases ha
          exact ⟨0, Nat.succ_pos n, f, fun k hk => absurd hk (Nat.not_lt_zero k), habove, hget, rfl⟩
        next hget =>
          rw [nextFl_peerList h] at ha
          obtain ⟨j, hj, f, hbefore, hlast, hget', heq⟩ := ih ha
          have hassoc : ∀ k, i + 1 + k = i + (k + 1) := fun k => by omega
          rw [hassoc j] at hlast hget' heq
          refine ⟨j + 1, Nat.succ_lt_succ hj, f, fun k hk => ?_, hlast, hget', heq⟩
          cases k with
          | zero =>
              refine ⟨habove, ?_⟩
              by_contra hne
              obtain ⟨a', f', hsome⟩ := getFreeAddr_of_ne hne
              rw [Nat.add_zero, hget] at hsome
              cases hsome
          | succ k =>
              rw [← hassoc]
              exact hbefore k (Nat.lt_of_succ_lt_succ hk)
      · rw [borrowLoop_below habove] at ha
        cases ha

theorem borrowLoop_found (h : p.WF) {curFl : ℕ} {f : FreeList} {j : ℕ} (hj : j < n)
    (hbefore : ∀ k < j, p.Above (p.peerList peer off (i + k)) ∧
      (p.freelist (p.peerList peer off (i + k))).addrs = [])
    (habove : p.Above (p.peerList peer off (i + j)))
    (hget : (p.freelist (p.peerList peer off (i + j))).getFreeAddr = some (a, f)) :
    p.borrowLoop curFl peer n (p.peerList peer off i) =
      some (a, p.borrow curFl (p.peerList peer off (i + j)) a f) := by
  induction j generalizing i n with
  | zero =>
      obtain ⟨m, rfl⟩ : ∃ m, n = m + 1 := ⟨n - 1, by omega⟩
      rw [Nat.add_zero] at habove hget
      rw [borrowLoop_above habove, hget, Nat.add_zero]
  | succ j ih =>
      obtain ⟨m, rfl⟩ : ∃ m, n = m + 1 := ⟨n - 1, by omega⟩
      have hassoc : ∀ k, i + (k + 1) = i + 1 + k := fun k => by omega
      obtain ⟨hfirst, hempty⟩ := hbefore 0 (Nat.succ_pos j)
      rw [Nat.add_zero] at hfirst hempty
      rw [borrowLoop_above hfirst, getFreeAddr_nil hempty]
      dsimp only
      rw [nextFl_peerList h]
      rw [hassoc j] at habove hget ⊢
      refine ih (Nat.lt_of_succ_lt_succ hj) (fun k hk => ?_) habove hget
      rw [← hassoc]
      exact hbefore (k + 1) (Nat.succ_lt_succ hk)

/-- The borrowed page is the peer's, and the peer is another client. -/
theorem allocateFromPeer_tried (h : p.WF) (ha : p.allocateFromPeer fl = some (a, p')) :
    ∃ peer, p.selectByFreeMem (fl / p.perCliFl) = peer ∧ peer ≠ fl / p.perCliFl ∧
      ∃ j < p.numIter, ∃ f, (∀ k < j, p.Above (p.peerList peer (fl % p.perCliFl) k) ∧
          (p.freelist (p.peerList peer (fl % p.perCliFl) k)).addrs = []) ∧
        p.Above (p.peerList peer (fl % p.perCliFl) j) ∧
        (p.freelist (p.peerList peer (fl % p.perCliFl) j)).getFreeAddr = some (a, f) ∧
        p' = p.borrow fl (p.peerList peer (fl % p.perCliFl) j) a f := by
  unfold allocateFromPeer at ha
  dsimp only at ha
  split at ha
  · cases ha
  next hne =>
    refine ⟨_, rfl, fun he => hne he.symm, ?_⟩
    rw [← peerList_zero (Nat.mod_lt _ h.perCliFl_pos)] at ha
    simpa only [Nat.zero_add] using borrowLoop_tried h ha

theorem borrow_freelist_of_ne {curFl peerFl k : ℕ} {f : FreeList} (hcur : k ≠ curFl)
    (hpeer : k ≠ peerFl) : (p.borrow curFl peerFl a f).freelist k = p.freelist k := by
  unfold borrow
  dsimp only
  rw [Function.update_of_ne hcur, Function.update_of_ne hpeer]

theorem borrow_lent {peerFl : ℕ} {f : FreeList} (hne : fl ≠ peerFl) (habove : p.Above peerFl)
    (hget : (p.freelist peerFl).getFreeAddr = some (a, f))
    (hroom : (p.freelist fl).addrs.length < (p.freelist fl).maxChunks) :
    p.Lent (p.borrow fl peerFl a f) fl peerFl a where
  lends := by
    refine ⟨habove, ?_⟩
    rw [(FreeList.getFreeAddr_some hget).1]
    exact List.cons_ne_nil _ _
  popped := by
    have hkeep : (p.borrow fl peerFl a f).freelist peerFl = f := by
      unfold borrow
      dsimp only
      rw [Function.update_of_ne (Ne.symm hne), Function.update_self]
    rw [hkeep]
    exact (FreeList.getFreeAddr_some hget).1
  pushed := by
    unfold borrow
    dsimp only
    rw [Function.update_self, Function.update_of_ne hne, FreeList.putFreeAddr, if_pos hroom]
  lender := by
    unfold borrow
    dsimp only
    rw [Function.update_of_ne (Ne.symm hne), Function.update_self]
  borrower := by
    unfold borrow
    dsimp only
    rw [Function.update_self, Function.update_of_ne hne]
  others k hcur hpeer := by
    refine ⟨?_, borrow_freelist_of_ne hcur hpeer⟩
    unfold borrow
    dsimp only
    rw [Function.update_of_ne hcur, Function.update_of_ne hpeer]
  useds := rfl

theorem half_le_numIter : p.perCliFl / 2 ≤ p.numIter := by
  unfold numIter
  split
  next hone => rw [hone]; decide
  · exact Nat.le_refl _

/-- Among lists of which one can lend there is a first one. -/
theorem first_lends {lists : ℕ → ℕ} {n : ℕ} (h : ∃ i < n, p.Lends (lists i)) :
    ∃ i < n, p.Lends (lists i) ∧ ∀ j < i, ¬ p.Lends (lists j) := by
  obtain ⟨hlt, hlends⟩ := Nat.find_spec h
  exact ⟨Nat.find h, hlt, hlends, fun j hj hl => Nat.find_min h hj ⟨Nat.lt_trans hj hlt, hl⟩⟩

/-- `AllocateFromPeer` finds what its peer can lend just where it is not kept
from the first list that can. -/
theorem allocateFromPeer_tries_iff (h : p.WF) : p.TriesPeer fl ↔ p.ClearPath fl := by
  constructor
  · intro htries peer hpeer hne i hi hlends hfirst
    obtain ⟨a, p', ha, -, -, -⟩ := htries.borrows peer hpeer hne ⟨i, hi, hlends⟩
    obtain ⟨b, p'', hb, k, hk, hlent⟩ := htries.borrows peer hpeer hne ⟨i, hi, hlends⟩
    cases ha.symm.trans hb
    obtain ⟨peer', hpeer', -, j, -, f, hbefore, habove, hget, rfl⟩ := allocateFromPeer_tried h ha
    obtain rfl := hpeer.symm.trans hpeer'
    have hji : j = i := by
      rcases Nat.lt_trichotomy j i with hlt | heq | hgt
      · refine absurd ⟨habove, ?_⟩ (hfirst j hlt)
        rw [(FreeList.getFreeAddr_some hget).1]
        exact List.cons_ne_nil _ _
      · exact heq
      · exact absurd (hbefore i hgt).2 hlends.2
    subst hji
    refine ⟨fun k hk => (hbefore k hk).1, ?_⟩
    by_contra hfull
    have hpushed := hlent.pushed
    have hother : fl ≠ p.peerList peer (fl % p.perCliFl) j := peerList_ne h hne
    unfold borrow at hpushed
    dsimp only at hpushed
    rw [Function.update_self, Function.update_of_ne hother, FreeList.putFreeAddr,
      if_neg hfull] at hpushed
    exact List.cons_ne_self _ _ hpushed.symm
  · intro hclear
    constructor
    · intro peer hpeer hne hlends
      obtain ⟨i, hi, hlend, hfirst⟩ := first_lends hlends
      obtain ⟨habove, hroom⟩ := hclear peer hpeer hne i hi hlend hfirst
      obtain ⟨a, f, hget⟩ := getFreeAddr_of_ne hlend.2
      have hbefore : ∀ k < i, p.Above (p.peerList peer (fl % p.perCliFl) (0 + k)) ∧
          (p.freelist (p.peerList peer (fl % p.perCliFl) (0 + k))).addrs = [] := by
        intro k hk
        rw [Nat.zero_add]
        exact ⟨habove k hk, not_not.mp fun hnot => hfirst k hk ⟨habove k hk, hnot⟩⟩
      have hfound := @borrowLoop_found p peer (fl % p.perCliFl) 0 p.numIter a h fl f i
        (Nat.lt_of_lt_of_le hi half_le_numIter) hbefore
        (by rw [Nat.zero_add]; exact hlend.1) (by rw [Nat.zero_add]; exact hget)
      rw [Nat.zero_add, peerList_zero (Nat.mod_lt _ h.perCliFl_pos)] at hfound
      refine ⟨a, _, ?_, i, hi, borrow_lent (peerList_ne h hne) hlend.1 hget hroom⟩
      unfold allocateFromPeer
      dsimp only
      rw [hpeer, if_neg (Ne.symm hne)]
      exact hfound
    · intro a p' ha k hk hchanged
      obtain ⟨peer, -, -, j, -, f, -, habove, -, rfl⟩ := allocateFromPeer_tried h ha
      by_cases hj : k = p.peerList peer (fl % p.perCliFl) j
      · rw [hj]
        exact habove
      · exact absurd (borrow_freelist_of_ne hk hj) hchanged

/-- Two clients with eight lists of 271 pages each. -/
def twoClients : PerCPUPool := new 4096 (17 <<< 20) 2 8

theorem twoClients_select : twoClients.selectByFreeMem 0 = 1 := by decide +kernel

/-- In the new pool the first list of the peer lends. -/
theorem allocateFromPeer_tries_iff_new : twoClients.TriesPeer 0 := by
  refine (allocateFromPeer_tries_iff (new_wf 4096 (17 <<< 20) 2 (by decide))).mpr ?_
  intro peer hpeer _ i _ _ hfirst
  have hselect : twoClients.selectByFreeMem 0 = peer := hpeer
  rw [twoClients_select] at hselect
  subst hselect
  have hlends : twoClients.Lends (twoClients.peerList 1 (0 % twoClients.perCliFl) 0) := by
    decide +kernel
  have hi : i = 0 := by
    by_contra hne
    exact hfirst 0 (Nat.pos_of_ne_zero hne) hlends
  subst hi
  refine ⟨fun j hj => absurd hj (Nat.not_lt_zero j), ?_⟩
  show (twoClients.freelist 0).addrs.length < (twoClients.freelist 0).maxChunks
  decide +kernel

end PerCPUPool

open PerCPUPool

/-- Sixteen pages of the peer's first list are in use, so that less than a MB of
it is free. Nothing is borrowed, though the next list has all its pages. -/
theorem allocateFromPeer_stays :
    ∃ s, (poolSystem 4096 (17 <<< 20) 2 8).exec { pool := twoClients }
        (List.replicate 16 (.allocate 1 (some 0) 0)) = some s ∧
      s.pool.selectByFreeMem 0 = 1 ∧ s.pool.Lends (s.pool.peerList 1 0 1) ∧
      s.pool.allocateFromPeer 0 = none ∧ ¬ s.pool.TriesPeer 0 := by
  have hmap : ((poolSystem 4096 (17 <<< 20) 2 8).exec { pool := twoClients }
      (List.replicate 16 (.allocate 1 (some 0) 0))).map (fun s =>
        decide (s.pool.perCliFl = 8 ∧ s.pool.selectByFreeMem 0 = 1 ∧
          s.pool.Lends (s.pool.peerList 1 0 1) ∧ (s.pool.allocateFromPeer 0).isNone = true)) =
      some true := by decide +kernel
  obtain ⟨s, hrun, hs⟩ := Option.map_eq_some_iff.mp hmap
  obtain ⟨hper, hselect, hlends, hnone⟩ := of_decide_eq_true hs
  rw [Option.isNone_iff_eq_none] at hnone
  refine ⟨s, hrun, hselect, hlends, hnone, fun htries => ?_⟩
  obtain ⟨a, p', ha, -⟩ := htries.borrows 1 (by rw [hper]; exact hselect) (by rw [hper]; decide)
    ⟨1, by rw [hper]; decide, by rw [hper]; exact hlends⟩
  rw [hnone] at ha
  cases ha

end CleancacheRdma.Daemon
