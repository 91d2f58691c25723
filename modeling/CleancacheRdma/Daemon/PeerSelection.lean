import Mathlib
import CleancacheRdma.Lib.FirstMax
import CleancacheRdma.Daemon.ClientAccounting
import CleancacheRdma.Daemon.Threshold

/-!
# Which peer is asked for a page

`SelectByFreeMem` goes once around the other clients and keeps the first one
with the most free memory above its threshold. It computes in 64-bit words; the
words are the sums they stand for, except for a threshold that has become a
negative `int`, and such a threshold is above all the memory there is in the
words as well.
-/

namespace CleancacheRdma.Daemon

open Lib (System Leads lead)

namespace PerCPUPool

/-! ## What the selection is about -/

section Spec

variable (p : PerCPUPool)

/-- Whole MiB. -/
def mib (n : ℕ) : ℕ := n / 1048576

/-- What was allocated to the lists of a client. -/
def clientAlloc (cli : ℕ) : ℕ := ∑ fl ∈ p.lists cli, (p.allocs fl).toNat

/-- The memory of the pages on its lists. -/
def clientFree (cli : ℕ) : ℕ := SLOT_SIZE * ∑ fl ∈ p.lists cli, (p.freelist fl).addrs.length

/-- `per_cli_fl_` times the minimum of a list. -/
def clientMin : ℕ := p.perCliFl * p.minFlAlloc.toNat

/-- `per_cli_fl_` times the threshold of the first list. -/
def clientThld (cli : ℕ) : ℕ := p.perCliFl * (p.getThldFree (cli * p.perCliFl)).toNat

/-- The free memory above the threshold, in whole MiB. -/
def spare (cli : ℕ) : ℕ := mib (p.clientFree cli - p.clientThld cli)

/-- A client that may lend. -/
structure Eligible (cli : ℕ) : Prop where
  alloc : mib p.clientMin < mib (p.clientAlloc cli)
  free : mib (p.clientThld cli) < mib (p.clientFree cli)
  spare : 1 ≤ p.spare cli

/-- How many steps a client is behind the current one, going around. -/
def behind (curCli cli : ℕ) : ℕ := (cli + p.numClients - curCli) % p.numClients

/-- The client selected is the current one if no other may lend; else it is one
that may lend, has the most to spare, and is the first such. -/
structure SelectsMost (curCli tgt : ℕ) : Prop where
  stays : tgt = curCli ↔ ∀ cli < p.numClients, cli ≠ curCli → ¬ p.Eligible cli
  known : tgt < p.numClients
  most : tgt ≠ curCli → p.Eligible tgt ∧ ∀ cli < p.numClients, cli ≠ curCli → p.Eligible cli →
    p.spare cli < p.spare tgt ∨ (p.spare cli = p.spare tgt ∧ p.behind curCli tgt ≤ p.behind curCli cli)
  -- under its guards the subtraction of the code does not wrap
  subtracts : ∀ cli < p.numClients,
    toMB (p.getThldFree (cli * p.perCliFl) * BitVec.ofNat 64 p.perCliFl) <
        toMB (p.getClientFree cli) →
      p.getThldFree (cli * p.perCliFl) * BitVec.ofNat 64 p.perCliFl ≤ p.getClientFree cli

end Spec

variable {p : PerCPUPool} {cli curCli : ℕ}

/-! ## The scan, in the words of the code -/

/-- What the code weighs a client by. -/
def weight (p : PerCPUPool) (cli : ℕ) : ℕ :=
  let thldFree := p.getThldFree (cli * p.perCliFl) * BitVec.ofNat 64 p.perCliFl
  if toMB (p.minFlAlloc * BitVec.ofNat 64 p.perCliFl) < toMB (p.getClientAlloc cli) ∧
      toMB thldFree < toMB (p.getClientFree cli) then
    (toMB (p.getClientFree cli - thldFree)).toNat
  else 0

/-- The `k`-th client after the current one. -/
def turn (p : PerCPUPool) (curCli k : ℕ) : ℕ := (curCli + 1 + k) % p.numClients

/-- The locals of the scan after `k` passes. -/
def ScanState (p : PerCPUPool) (curCli k : ℕ) (s : SelectState) : Prop :=
  s.nextCli = p.turn curCli k ∧ ∃ o, Leads (fun k => p.weight (p.turn curCli k)) k o ∧
    s.tgtCli = o.elim curCli (p.turn curCli) ∧
    (toMB s.maxFree).toNat = lead (fun k => p.weight (p.turn curCli k)) o

theorem ScanState.next {k : ℕ} {s : SelectState} (h : p.ScanState curCli k s) :
    p.ScanState curCli (k + 1) (p.selectNext s) := by
  obtain ⟨hnext, o, hleads, htgt, hmax⟩ := h
  have hstep : (s.nextCli + 1) % p.numClients = p.turn curCli (k + 1) := by
    rw [hnext]
    unfold turn
    rw [Nat.mod_add_mod]
    rfl
  have hweight : p.weight (p.turn curCli k) = p.weight s.nextCli := by rw [hnext]
  unfold selectNext
  dsimp only
  rw [hstep]
  by_cases hguard : toMB (p.minFlAlloc * BitVec.ofNat 64 p.perCliFl) <
        toMB (p.getClientAlloc s.nextCli) ∧
      toMB (p.getThldFree (s.nextCli * p.perCliFl) * BitVec.ofNat 64 p.perCliFl) <
        toMB (p.getClientFree s.nextCli)
  · have hvalue : p.weight s.nextCli = (toMB (p.getClientFree s.nextCli -
        p.getThldFree (s.nextCli * p.perCliFl) * BitVec.ofNat 64 p.perCliFl)).toNat := if_pos hguard
    rw [if_pos hguard]
    by_cases hlarger : toMB s.maxFree < toMB (p.getClientFree s.nextCli -
        p.getThldFree (s.nextCli * p.perCliFl) * BitVec.ofNat 64 p.perCliFl)
    · rw [if_pos hlarger]
      rw [BitVec.lt_def, hmax, ← hvalue, ← hweight] at hlarger
      refine ⟨rfl, some k, hleads.take hlarger, hnext, ?_⟩
      rw [← hvalue]
      exact hweight.symm
    · rw [if_neg hlarger]
      rw [BitVec.lt_def, hmax, ← hvalue, ← hweight] at hlarger
      exact ⟨rfl, o, hleads.skip (Nat.le_of_not_lt hlarger), htgt, hmax⟩
  · have hvalue : p.weight (p.turn curCli k) = 0 := hweight.trans (if_neg hguard)
    rw [if_neg hguard]
    exact ⟨rfl, o, hleads.skip (hvalue.symm ▸ Nat.zero_le _), htgt, hmax⟩

/-- The client selected leads among the others, in the order of the scan. -/
theorem selectByFreeMem_leads (p : PerCPUPool) (curCli : ℕ) :
    ∃ o, Leads (fun k => p.weight (p.turn curCli k)) (p.numClients - 1) o ∧
      p.selectByFreeMem curCli = o.elim curCli (p.turn curCli) := by
  have hscan : ∀ n, p.ScanState curCli n ((List.range n).foldl (fun s _ => p.selectNext s)
      { nextCli := (curCli + 1) % p.numClients, tgtCli := curCli }) := by
    intro n
    induction n with
    | zero =>
        refine ⟨rfl, none, Leads.zero _, rfl, ?_⟩
        show (toMB (0 : BitVec 64)).toNat = 0
        decide
    | succ n ih =>
        rw [List.range_succ, List.foldl_append]
        exact ih.next
  obtain ⟨-, o, hleads, htgt, -⟩ := hscan (p.numClients - 1)
  exact ⟨o, hleads, htgt⟩

/-! ## Going around -/

theorem turn_eq {k : ℕ} (hcur : curCli < p.numClients) (hk : k < p.numClients - 1) :
    p.turn curCli k = if curCli + 1 + k < p.numClients then curCli + 1 + k
      else curCli + 1 + k - p.numClients := by
  unfold turn
  split
  next hlt => exact Nat.mod_eq_of_lt hlt
  next hge =>
    rw [Nat.mod_eq_sub_mod (Nat.le_of_not_lt hge), Nat.mod_eq_of_lt]
    omega

/-- The scan meets other clients only. -/
theorem turn_other {k : ℕ} (hcur : curCli < p.numClients) (hk : k < p.numClients - 1) :
    p.turn curCli k < p.numClients ∧ p.turn curCli k ≠ curCli := by
  rw [turn_eq hcur hk]
  constructor
  · split <;> omega
  · split <;> omega

theorem behind_turn {k : ℕ} (hcur : curCli < p.numClients) (hk : k < p.numClients - 1) :
    p.behind curCli (p.turn curCli k) = k + 1 := by
  rw [turn_eq hcur hk]
  unfold behind
  split
  next hlt =>
    rw [Nat.mod_eq_sub_mod (by omega), Nat.mod_eq_of_lt]
    · omega
    · omega
  next hge =>
    rw [Nat.mod_eq_of_lt]
    · omega
    · omega

/-- The scan meets every other client. -/
theorem exists_turn (hcur : curCli < p.numClients) (hcli : cli < p.numClients)
    (hne : cli ≠ curCli) : ∃ k < p.numClients - 1, p.turn curCli k = cli := by
  by_cases hlt : curCli < cli
  · refine ⟨cli - curCli - 1, by omega, ?_⟩
    rw [turn_eq hcur (by omega), if_pos (by omega)]
    omega
  · refine ⟨cli + p.numClients - curCli - 1, by omega, ?_⟩
    rw [turn_eq hcur (by omega), if_neg (by omega)]
    omega

/-- A scan by what the clients have to spare selects as it should. -/
theorem selectsMost_of_weight (hcur : curCli < p.numClients)
    (heligible : ∀ cli < p.numClients, p.Eligible cli ↔ 0 < p.weight cli)
    (hspare : ∀ cli < p.numClients, p.Eligible cli → p.weight cli = p.spare cli)
    (hsub : ∀ cli < p.numClients,
      toMB (p.getThldFree (cli * p.perCliFl) * BitVec.ofNat 64 p.perCliFl) <
          toMB (p.getClientFree cli) →
        p.getThldFree (cli * p.perCliFl) * BitVec.ofNat 64 p.perCliFl ≤ p.getClientFree cli) :
    p.SelectsMost curCli (p.selectByFreeMem curCli) := by
  obtain ⟨o, hleads, htgt⟩ := selectByFreeMem_leads p curCli
  rw [htgt]
  cases o with
  | none =>
      refine ⟨⟨fun _ cli hcli hne hel => ?_, fun _ => rfl⟩, hcur, fun hne => absurd rfl hne, hsub⟩
      obtain ⟨k, hk, rfl⟩ := exists_turn hcur hcli hne
      have hzero := hleads k hk
      have hpos := (heligible _ hcli).mp hel
      dsimp only at hzero
      omega
  | some i =>
      obtain ⟨hmax, hpos⟩ := hleads
      obtain ⟨hlt, hother⟩ := turn_other hcur hmax.lt
      have hel : p.Eligible (p.turn curCli i) := (heligible _ hlt).mpr hpos
      refine ⟨⟨fun he => absurd he hother, fun hnone => absurd hel (hnone _ hlt hother)⟩, hlt,
        fun _ => ⟨hel, fun cli hcli hne hcliEl => ?_⟩, hsub⟩
      obtain ⟨k, hk, rfl⟩ := exists_turn hcur hcli hne
      have hle := hmax.largest k hk
      rw [hspare _ hcli hcliEl, hspare _ hlt hel] at hle
      rcases Nat.lt_or_eq_of_le hle with hless | heq
      · exact Or.inl hless
      · refine Or.inr ⟨heq, ?_⟩
        show p.behind curCli (p.turn curCli i) ≤ p.behind curCli (p.turn curCli k)
        rw [behind_turn hcur hmax.lt, behind_turn hcur hk]
        -- an earlier client would have less to spare
        by_contra hnot
        have hless := hmax.first k (by omega)
        rw [hspare _ hcli hcliEl, hspare _ hlt hel] at hless
        omega

/-! ## What the words stand for -/

/-- A pool whose sums fit their words. -/
structure Sized (p : PerCPUPool) : Prop where
  wf : p.WF
  books : p.Books
  allocated : p.allocated < 2 ^ 63
  free : SLOT_SIZE * p.freePages < 2 ^ 63
  minAlloc : p.perCliFl * p.minFlAlloc.toNat < 2 ^ 63
  minFree : p.perCliFl * p.minFlFree.toNat < 2 ^ 63
  lists : p.perCliFl < 2 ^ 31

theorem Sized.clientAlloc_le (h : p.Sized) (hcli : cli < p.numClients) :
    p.clientAlloc cli ≤ p.allocated :=
  Finset.sum_le_sum_of_subset fun fl hfl => Finset.mem_range.mpr (h.wf.lists_lt hcli fl hfl)

theorem Sized.clientFree_lt (h : p.Sized) (hcli : cli < p.numClients) :
    p.clientFree cli < 2 ^ 63 := by
  refine Nat.lt_of_le_of_lt (Nat.mul_le_mul_left _ ?_) h.free
  exact Finset.sum_le_sum_of_subset fun fl hfl => Finset.mem_range.mpr (h.wf.lists_lt hcli fl hfl)

theorem Sized.getClientAlloc_toNat (h : p.Sized) (hcli : cli < p.numClients) :
    (p.getClientAlloc cli).toNat = p.clientAlloc cli := by
  rw [getClientAlloc_eq, BitVec.toNat_ofNat]
  apply Nat.mod_eq_of_lt
  have hle := h.clientAlloc_le hcli
  have hlt := h.allocated
  unfold clientAlloc at hle
  omega

theorem Sized.getClientFree_toNat (h : p.Sized) (hcli : cli < p.numClients) :
    (p.getClientFree cli).toNat = p.clientFree cli := by
  have hbooks := h.books.client (h.wf.lists_lt hcli)
  rw [← getClientAlloc_eq] at hbooks
  have hword : p.getClientFree cli = BitVec.ofNat 64 (p.clientFree cli) := by
    unfold getClientFree
    rw [← hbooks, add_sub_cancel_left]
    rfl
  rw [hword, BitVec.toNat_ofNat]
  exact Nat.mod_eq_of_lt (Nat.lt_trans (h.clientFree_lt hcli) (by decide))

/-- A word times the number of lists, where the product fits. -/
theorem Sized.mul_lists (h : p.Sized) {x : BitVec 64} (hx : p.perCliFl * x.toNat < 2 ^ 64) :
    (x * BitVec.ofNat 64 p.perCliFl).toNat = p.perCliFl * x.toNat := by
  have hlists := h.lists
  rw [BitVec.toNat_mul, BitVec.toNat_ofNat, Nat.mod_eq_of_lt (Nat.lt_trans hlists (by decide)),
    Nat.mul_comm]
  exact Nat.mod_eq_of_lt hx

/-- The product with a negative `int` is above all memory, and so is the word
that is left of it. -/
theorem Sized.mul_negative (h : p.Sized) {x : BitVec 64} (hx : 2 ^ 64 - 2 ^ 31 ≤ x.toNat) :
    2 ^ 63 ≤ (x * BitVec.ofNat 64 p.perCliFl).toNat ∧ 2 ^ 63 ≤ p.perCliFl * x.toNat := by
  have hlists := h.lists
  have hpos := h.wf.perCliFl_pos
  have hlt := x.isLt
  obtain ⟨y, hy, hy31, hypos⟩ : ∃ y, x.toNat + y = 2 ^ 64 ∧ y ≤ 2 ^ 31 ∧ 0 < y :=
    ⟨2 ^ 64 - x.toNat, by omega, by omega, by omega⟩
  have hprod : x.toNat * p.perCliFl + y * p.perCliFl = 2 ^ 64 * p.perCliFl := by
    rw [← Nat.add_mul, hy]
  have hsmall : y * p.perCliFl ≤ 2 ^ 31 * 2 ^ 31 := Nat.mul_le_mul hy31 (Nat.le_of_lt hlists)
  have hypos' : 0 < y * p.perCliFl := Nat.mul_pos hypos hpos
  constructor
  · rw [BitVec.toNat_mul, BitVec.toNat_ofNat, Nat.mod_eq_of_lt (Nat.lt_trans hlists (by decide))]
    have hsplit : x.toNat * p.perCliFl =
        (2 ^ 64 - y * p.perCliFl) + 2 ^ 64 * (p.perCliFl - 1) := by
      obtain ⟨n, hn⟩ : ∃ n, p.perCliFl = n + 1 := ⟨p.perCliFl - 1, by omega⟩
      rw [hn] at hprod hsmall hypos' ⊢
      rw [Nat.add_sub_cancel]
      omega
    rw [hsplit, Nat.add_mul_mod_self_left, Nat.mod_eq_of_lt (by omega)]
    omega
  · rw [Nat.mul_comm]
    have hle := Nat.le_mul_of_pos_right x.toNat hpos
    omega

/-- The threshold of a client as a word: exact, or above all memory. -/
theorem Sized.thld_cases (h : p.Sized) (cli : ℕ) :
    (p.getThldFree (cli * p.perCliFl) * BitVec.ofNat 64 p.perCliFl).toNat = p.clientThld cli ∨
    (2 ^ 63 ≤ (p.getThldFree (cli * p.perCliFl) * BitVec.ofNat 64 p.perCliFl).toNat ∧
      2 ^ 63 ≤ p.clientThld cli) := by
  have hmin := h.minFree
  have hlists := h.lists
  have hthld := @getThldFree_toNat p (cli * p.perCliFl)
  have hhalf := @lowHalf_lt p (cli * p.perCliFl)
  by_cases hlow : p.lowHalf (cli * p.perCliFl) < 2 ^ 31
  · rw [if_pos hlow] at hthld
    refine Or.inl (h.mul_lists ?_)
    have hprod : p.perCliFl * p.lowHalf (cli * p.perCliFl) ≤ 2 ^ 31 * 2 ^ 31 :=
      Nat.mul_le_mul (Nat.le_of_lt hlists) (Nat.le_of_lt hlow)
    rw [hthld]
    rcases max_cases (p.lowHalf (cli * p.perCliFl)) p.minFlFree.toNat with ⟨he, -⟩ | ⟨he, -⟩
    · rw [he]
      omega
    · rw [he]
      omega
  · rw [if_neg hlow] at hthld
    refine Or.inr (h.mul_negative ?_)
    rw [hthld]
    exact le_max_of_le_left (by omega)

theorem toMB_toNat (x : BitVec 64) : (toMB x).toNat = mib x.toNat := BitVec.toNat_udiv

theorem mib_le {m n : ℕ} (h : m ≤ n) : mib m ≤ mib n := Nat.div_le_div_right h

/-- The code weighs a client by what it has to spare. -/
theorem Sized.weight_eq (h : p.Sized) (hcli : cli < p.numClients) :
    p.weight cli = if mib p.clientMin < mib (p.clientAlloc cli) ∧
      mib (p.clientThld cli) < mib (p.clientFree cli) then p.spare cli else 0 := by
  have hminWord : (p.minFlAlloc * BitVec.ofNat 64 p.perCliFl).toNat = p.clientMin :=
    h.mul_lists (Nat.lt_trans h.minAlloc (by decide))
  have hfree := h.clientFree_lt hcli
  unfold weight
  simp only [BitVec.lt_def, toMB_toNat, hminWord, h.getClientAlloc_toNat hcli,
    h.getClientFree_toNat hcli]
  rcases h.thld_cases cli with heq | ⟨hword, hint⟩
  · rw [heq]
    by_cases hguard : mib p.clientMin < mib (p.clientAlloc cli) ∧
        mib (p.clientThld cli) < mib (p.clientFree cli)
    · rw [if_pos hguard, if_pos hguard]
      have hle : p.getThldFree (cli * p.perCliFl) * BitVec.ofNat 64 p.perCliFl ≤
          p.getClientFree cli := by
        rw [BitVec.le_def, heq, h.getClientFree_toNat hcli]
        by_contra hnot
        exact absurd (mib_le (Nat.le_of_not_le hnot)) (Nat.not_le_of_lt hguard.2)
      rw [BitVec.toNat_sub_of_le hle, heq, h.getClientFree_toNat hcli]
      rfl
    · rw [if_neg hguard, if_neg hguard]
  · -- a threshold above all memory lets nobody lend, in words or not
    have hno : ∀ {x : ℕ}, 2 ^ 63 ≤ x → ¬ mib x < mib (p.clientFree cli) := fun hx =>
      Nat.not_lt_of_le (mib_le (Nat.le_trans (Nat.le_of_lt hfree) hx))
    rw [if_neg fun hg => hno hword hg.2, if_neg fun hg => hno hint hg.2]

theorem Sized.selectsMost (h : p.Sized) (hcur : curCli < p.numClients) :
    p.SelectsMost curCli (p.selectByFreeMem curCli) := by
  refine selectsMost_of_weight hcur (fun cli hcli => ?_) (fun cli hcli hel => ?_)
    fun cli hcli hlt => ?_
  · rw [h.weight_eq hcli]
    constructor
    · intro hel
      rw [if_pos ⟨hel.alloc, hel.free⟩]
      exact hel.spare
    · intro hpos
      split at hpos
      next hguard => exact ⟨hguard.1, hguard.2, hpos⟩
      next => exact absurd hpos (Nat.lt_irrefl 0)
  · rw [h.weight_eq hcli, if_pos ⟨hel.alloc, hel.free⟩]
  · by_contra hnot
    have hle : (p.getClientFree cli).toNat ≤
        (p.getThldFree (cli * p.perCliFl) * BitVec.ofNat 64 p.perCliFl).toNat :=
      Nat.le_of_not_le hnot
    have hmib := mib_le hle
    rw [← toMB_toNat, ← toMB_toNat] at hmib
    exact absurd hlt (Nat.not_lt_of_le hmib)

end PerCPUPool

open PerCPUPool

/-! ## Every state of the pool -/

section Run

variable {startAddr : Value} {memPoolSize numClients perCliFl : ℕ} {s : PoolRun}

/-- The minima of the constructor are at most the memory of a list. -/
theorem new_minima_le (startAddr : Value) (memPoolSize numClients perCliFl : ℕ) :
    (new startAddr memPoolSize numClients perCliFl).minFlAlloc.toNat ≤
        initChunks memPoolSize (numClients * perCliFl) * SLOT_SIZE ∧
      (new startAddr memPoolSize numClients perCliFl).minFlFree.toNat ≤
        initChunks memPoolSize (numClients * perCliFl) * SLOT_SIZE := by
  have hpercent : ∀ x perc : ℕ, perc ≤ 100 → (BitVec.ofNat 64 (x * perc) / 100).toNat ≤ x := by
    intro x perc hperc
    have hprod : x * perc ≤ x * 100 := Nat.mul_le_mul_left x hperc
    have hmod := Nat.mod_le (x * perc) (2 ^ 64)
    rw [BitVec.toNat_udiv, BitVec.toNat_ofNat]
    show x * perc % 2 ^ 64 / 100 ≤ x
    omega
  exact ⟨hpercent _ allocTholdPerc (by decide), hpercent _ freeTholdPerc (by decide)⟩

theorem sized_of_reachable (hper : 0 < perCliFl) (hper31 : perCliFl < 2 ^ 31)
    (hsize : memPoolSize < 2 ^ 63) (hclients : 0 < numClients)
    (hreach : (poolSystem startAddr memPoolSize numClients perCliFl).Reachable s) :
    s.pool.Sized := by
  have hinv : s.Inv (numClients * perCliFl) (initChunks memPoolSize (numClients * perCliFl))
      (memPoolSize / SLOT_SIZE) := by
    refine hreach.invariant ?_ fun _ _ _ h hstep => h.step hstep
    rintro _ rfl
    exact PoolRun.Inv.new startAddr numClients hper (Nat.lt_trans hsize (by decide))
  obtain ⟨_, calls, rfl, hrun⟩ := hreach
  obtain ⟨hwf, hminAlloc, hminFree, hfl, -⟩ := poolSystem_minima hper hrun
  obtain ⟨hallocLe, hfreeLe⟩ := new_minima_le startAddr memPoolSize numClients perCliFl
  have htotal := initChunks_size_le memPoolSize (numClients * perCliFl)
  have hone : perCliFl * (initChunks memPoolSize (numClients * perCliFl) * SLOT_SIZE) ≤
      numClients * perCliFl * initChunks memPoolSize (numClients * perCliFl) * SLOT_SIZE := by
    rw [← Nat.mul_assoc]
    refine Nat.mul_le_mul_right _ (Nat.mul_le_mul_right _ ?_)
    exact Nat.le_mul_of_pos_left perCliFl hclients
  have hmin : ∀ x, x ≤ initChunks memPoolSize (numClients * perCliFl) * SLOT_SIZE →
      perCliFl * x < 2 ^ 63 := by
    intro x hx
    have hmul := Nat.mul_le_mul_left perCliFl hx
    omega
  refine ⟨hwf, hinv.books, ?_, ?_, ?_, ?_, ?_⟩
  · rw [hinv.allocated]
    exact Nat.lt_of_le_of_lt htotal hsize
  · have hpages : s.pool.freePages ≤
        numClients * perCliFl * initChunks memPoolSize (numClients * perCliFl) :=
      Nat.le_of_add_right_le (Nat.le_of_eq hinv.pages)
    have hmul := Nat.mul_le_mul_left SLOT_SIZE hpages
    rw [Nat.mul_comm SLOT_SIZE (_ * _ * _)] at hmul
    omega
  · rw [hfl, hminAlloc]
    exact hmin _ hallocLe
  · rw [hfl, hminFree]
    exact hmin _ hfreeLe
  · rw [hfl]
    exact hper31

/-- In every state that calls lead to, the peer is the first of those that have
the most to spare. -/
theorem selectByFreeMem_most (hper : 0 < perCliFl) (hper31 : perCliFl < 2 ^ 31)
    (hsize : memPoolSize < 2 ^ 63)
    (hreach : (poolSystem startAddr memPoolSize numClients perCliFl).Reachable s) {curCli : ℕ}
    (hcur : curCli < numClients) :
    s.pool.SelectsMost curCli (s.pool.selectByFreeMem curCli) := by
  have hsized := sized_of_reachable hper hper31 hsize (Nat.zero_lt_of_lt hcur) hreach
  obtain ⟨_, calls, rfl, hrun⟩ := hreach
  obtain ⟨-, -, -, -, hclients⟩ := poolSystem_minima hper hrun
  exact hsized.selectsMost (hclients.symm ▸ hcur)

end Run

/-- Client 0 of three asks, client 1 has pages in use. -/
theorem selectByFreeMem_most_third :
    ∃ s, (poolSystem 4096 (26 <<< 20) 3 8).exec { pool := .new 4096 (26 <<< 20) 3 8 }
        (List.replicate 8 (.allocate 1 (some 0) 0) ++ List.replicate 8 (.allocate 1 (some 1) 0)) =
        some s ∧ s.pool.selectByFreeMem 0 = 1 ∧
      s.pool.SelectsMost 0 (s.pool.selectByFreeMem 0) := by
  have hmap : ((poolSystem 4096 (26 <<< 20) 3 8).exec { pool := .new 4096 (26 <<< 20) 3 8 }
      (List.replicate 8 (.allocate 1 (some 0) 0) ++
        List.replicate 8 (.allocate 1 (some 1) 0))).map
      (fun s => s.pool.selectByFreeMem 0) = some 1 := by decide +kernel
  obtain ⟨s, hrun, hs⟩ := Option.map_eq_some_iff.mp hmap
  exact ⟨s, hrun, hs, selectByFreeMem_most (by decide) (by decide) (by decide)
    ⟨_, _, rfl, hrun⟩ (by decide)⟩

end CleancacheRdma.Daemon
