import Mathlib
import CleancacheRdma.Daemon.PerCPUPool
import CleancacheRdma.Lib.System

/-!
# Accounting of the pool

A page is charged to the list it is taken from and credited to the list it is
given to, so that a single `useds_[fl]` may wrap. The difference to `allocs_[fl]`
is exact all the same, in the ring of 64-bit words.
-/

namespace CleancacheRdma.Daemon

open Lib (System)

namespace PerCPUPool

variable {p : PerCPUPool}

/-- The free memory of every list is that of the addresses on it. -/
def Books (p : PerCPUPool) : Prop :=
  ∀ fl < p.totalFl, p.getFree fl = BitVec.ofNat 64 (SLOT_SIZE * (p.freelist fl).addrs.length)

/-- The pages on the lists. -/
def freePages (p : PerCPUPool) : ℕ := ∑ fl ∈ Finset.range p.totalFl, (p.freelist fl).addrs.length

/-- All that is allocated to the lists, without wrap-around. -/
def allocated (p : PerCPUPool) : ℕ := ∑ fl ∈ Finset.range p.totalFl, (p.allocs fl).toNat

theorem slots_succ (n : ℕ) : BitVec.ofNat 64 (SLOT_SIZE * (n + 1)) =
    BitVec.ofNat 64 (SLOT_SIZE * n) + BitVec.ofNat 64 SLOT_SIZE := by
  rw [Nat.mul_succ, BitVec.ofNat_add]

/-! ## One operation -/

theorem Books.take (h : p.Books) {fl : ℕ} {a : Value} {f : FreeList}
    (hget : (p.freelist fl).getFreeAddr = some (a, f)) : (p.take fl f).Books := by
  intro i hi
  have hbefore := h i hi
  unfold getFree getUsed at hbefore ⊢
  by_cases hne : i = fl
  · subst hne
    rw [(FreeList.getFreeAddr_some hget).1, List.length_cons, slots_succ] at hbefore
    simp only [PerCPUPool.take, Function.update_self]
    rw [← sub_sub, hbefore, add_sub_cancel_right]
  · simp only [PerCPUPool.take, Function.update_of_ne hne]
    exact hbefore

theorem Books.give (h : p.Books) {fl : ℕ} (hroom : (p.freelist fl).addrs.length <
    (p.freelist fl).maxChunks) (a : Value) : (p.give fl a).Books := by
  intro i hi
  have hbefore := h i hi
  unfold getFree getUsed at hbefore ⊢
  by_cases hne : i = fl
  · subst hne
    simp only [PerCPUPool.give, Function.update_self, FreeList.putFreeAddr, if_pos hroom,
      List.length_cons, slots_succ]
    rw [← hbefore, sub_sub_eq_add_sub, add_sub_right_comm]
  · simp only [PerCPUPool.give, Function.update_of_ne hne]
    exact hbefore

/-- Lending moves the page and its allocation, the use of both lists stays. -/
theorem Books.borrow (h : p.Books) {curFl peerFl : ℕ} (hne : curFl ≠ peerFl) {a : Value}
    {f : FreeList} (hget : (p.freelist peerFl).getFreeAddr = some (a, f))
    (hroom : (p.freelist curFl).addrs.length < (p.freelist curFl).maxChunks) :
    (p.borrow curFl peerFl a f).Books := by
  intro i hi
  have hbefore := h i hi
  unfold getFree getUsed at hbefore ⊢
  by_cases hcur : i = curFl
  · subst hcur
    simp only [PerCPUPool.borrow, Function.update_self, Function.update_of_ne hne,
      FreeList.putFreeAddr, if_pos hroom, List.length_cons, slots_succ]
    rw [← hbefore, sub_add_eq_add_sub]
  · by_cases hpeer : i = peerFl
    · subst hpeer
      rw [(FreeList.getFreeAddr_some hget).1, List.length_cons, slots_succ] at hbefore
      simp only [PerCPUPool.borrow, Function.update_of_ne hcur, Function.update_self]
      rw [sub_right_comm, hbefore, add_sub_cancel_right]
    · simp only [PerCPUPool.borrow, Function.update_of_ne hcur, Function.update_of_ne hpeer]
      exact hbefore

theorem freePages_update {fl : ℕ} (hfl : fl < p.totalFl) (f : FreeList) :
    ∑ i ∈ Finset.range p.totalFl, (Function.update p.freelist fl f i).addrs.length +
        (p.freelist fl).addrs.length = p.freePages + f.addrs.length :=
  Lib.sum_update (Finset.mem_range.mpr hfl) (fun f => f.addrs.length) p.freelist f

theorem freePages_take {fl : ℕ} (hfl : fl < p.totalFl) {a : Value} {f : FreeList}
    (hget : (p.freelist fl).getFreeAddr = some (a, f)) : (p.take fl f).freePages + 1 = p.freePages := by
  have hsum := freePages_update hfl f
  rw [(FreeList.getFreeAddr_some hget).1, List.length_cons] at hsum
  change (p.take fl f).freePages + _ = _ at hsum
  omega

theorem freePages_give {fl : ℕ} (hfl : fl < p.totalFl)
    (hroom : (p.freelist fl).addrs.length < (p.freelist fl).maxChunks) (a : Value) :
    (p.give fl a).freePages = p.freePages + 1 := by
  have hsum := freePages_update hfl ((p.freelist fl).putFreeAddr a)
  have hlen : ((p.freelist fl).putFreeAddr a).addrs.length = (p.freelist fl).addrs.length + 1 := by
    rw [FreeList.putFreeAddr, if_pos hroom, List.length_cons]
  change (p.give fl a).freePages + _ = _ at hsum
  omega

theorem length_le_freePages {fl : ℕ} (hfl : fl < p.totalFl) :
    (p.freelist fl).addrs.length ≤ p.freePages :=
  Finset.single_le_sum (f := fun i => (p.freelist i).addrs.length) (fun _ _ => Nat.zero_le _)
    (Finset.mem_range.mpr hfl)

/-- What lends has more than a MB, so the page it lends is its own. -/
theorem slot_le_of_thold {fl : ℕ} (h : toMB p.minFlAlloc < toMB (p.getAlloc fl)) :
    SLOT_SIZE ≤ (p.allocs fl).toNat := by
  have hmb : (toMB p.minFlAlloc).toNat < (toMB (p.getAlloc fl)).toNat := h
  have hdiv : (toMB (p.getAlloc fl)).toNat = (p.allocs fl).toNat / 1048576 := BitVec.toNat_udiv
  have hslot : SLOT_SIZE = 4104 := rfl
  omega

theorem allocs_add_le {i j : ℕ} (hne : i ≠ j) (hi : i < p.totalFl) (hj : j < p.totalFl) :
    (p.allocs i).toNat + (p.allocs j).toNat ≤ p.allocated := by
  have hmem : j ∈ (Finset.range p.totalFl).erase i :=
    Finset.mem_erase.mpr ⟨Ne.symm hne, Finset.mem_range.mpr hj⟩
  have hrest := Finset.single_le_sum (f := fun k => (p.allocs k).toNat)
    (fun _ _ => Nat.zero_le _) hmem
  have hsplit := Finset.add_sum_erase (Finset.range p.totalFl) (fun k => (p.allocs k).toNat)
    (Finset.mem_range.mpr hi)
  rw [allocated, ← hsplit]
  exact Nat.add_le_add_left hrest _

/-- The allocation of the peer shrinks by a page and that of the borrower
grows by it, and neither wraps. -/
theorem borrow_allocs {curFl peerFl : ℕ} (hne : curFl ≠ peerFl) (hcur : curFl < p.totalFl)
    (hpeer : peerFl < p.totalFl) (hlend : SLOT_SIZE ≤ (p.allocs peerFl).toNat)
    (hfits : p.allocated < 2 ^ 64) (a : Value) (f : FreeList) (i : ℕ) :
    ((p.borrow curFl peerFl a f).allocs i).toNat + (if i = peerFl then SLOT_SIZE else 0) =
      (p.allocs i).toNat + if i = curFl then SLOT_SIZE else 0 := by
  have hslot : (BitVec.ofNat 64 SLOT_SIZE).toNat = SLOT_SIZE := rfl
  have hsize : SLOT_SIZE = 4104 := rfl
  have hboth := allocs_add_le hne hcur hpeer
  have hlt := (p.allocs peerFl).isLt
  by_cases hi : i = curFl
  · subst hi
    rw [if_neg hne, if_pos rfl]
    simp only [borrow, Function.update_self, Function.update_of_ne hne]
    rw [BitVec.toNat_add, hslot]
    omega
  · rw [if_neg hi]
    by_cases hpi : i = peerFl
    · subst hpi
      rw [if_pos rfl]
      simp only [borrow, Function.update_of_ne hi, Function.update_self]
      rw [BitVec.toNat_sub, hslot]
      omega
    · rw [if_neg hpi]
      simp only [borrow, Function.update_of_ne hi, Function.update_of_ne hpi]

theorem allocated_borrow {curFl peerFl : ℕ} (hne : curFl ≠ peerFl) (hcur : curFl < p.totalFl)
    (hpeer : peerFl < p.totalFl) (hlend : SLOT_SIZE ≤ (p.allocs peerFl).toNat)
    (hfits : p.allocated < 2 ^ 64) (a : Value) (f : FreeList) :
    (p.borrow curFl peerFl a f).allocated = p.allocated := by
  have hsum := Finset.sum_congr (rfl : Finset.range p.totalFl = Finset.range p.totalFl)
    fun i _ => borrow_allocs hne hcur hpeer hlend hfits a f i
  rw [Finset.sum_add_distrib, Finset.sum_add_distrib, Finset.sum_ite_eq', Finset.sum_ite_eq',
    if_pos (Finset.mem_range.mpr hcur), if_pos (Finset.mem_range.mpr hpeer)] at hsum
  exact Nat.add_right_cancel hsum

/-! ## The new pool -/

section New

variable (startAddr : Value) (memPoolSize numClients : ℕ) {perCliFl : ℕ}

/-- `init_chunks`. -/
def initChunks (memPoolSize totalFl : ℕ) : ℕ := memPoolSize / SLOT_SIZE / totalFl

theorem new_length {fl : ℕ} (hfl : fl < numClients * perCliFl) :
    ((new startAddr memPoolSize numClients perCliFl).freelist fl).addrs.length =
      initChunks memPoolSize (numClients * perCliFl) := by
  rw [new_addrs startAddr memPoolSize numClients perCliFl hfl, List.length_map, List.length_range]
  rfl

theorem new_books : (new startAddr memPoolSize numClients perCliFl).Books := by
  intro fl hfl
  have hlt : fl < numClients * perCliFl := hfl
  rw [new_length startAddr memPoolSize numClients hlt]
  show (if fl < numClients * perCliFl then _ else _) - (0 : BitVec 64) = _
  rw [if_pos hlt, sub_zero, Nat.mul_comm]
  rfl

theorem new_freePages : (new startAddr memPoolSize numClients perCliFl).freePages =
    numClients * perCliFl * initChunks memPoolSize (numClients * perCliFl) := by
  refine (Finset.sum_congr rfl fun fl hfl =>
    new_length startAddr memPoolSize numClients (Finset.mem_range.mp hfl)).trans ?_
  rw [Finset.sum_const, Finset.card_range, smul_eq_mul]

/-- The lists share the slots out. -/
theorem initChunks_le (totalFl : ℕ) :
    totalFl * initChunks memPoolSize totalFl ≤ memPoolSize / SLOT_SIZE :=
  Nat.mul_div_le _ _

theorem initChunks_size_le (totalFl : ℕ) :
    totalFl * initChunks memPoolSize totalFl * SLOT_SIZE ≤ memPoolSize :=
  (Nat.mul_le_mul_right _ (initChunks_le memPoolSize totalFl)).trans (Nat.div_mul_le_self _ _)

theorem new_allocs (hsize : memPoolSize < 2 ^ 64) {fl : ℕ} (hfl : fl < numClients * perCliFl) :
    ((new startAddr memPoolSize numClients perCliFl).allocs fl).toNat =
      initChunks memPoolSize (numClients * perCliFl) * SLOT_SIZE := by
  have hle : 1 * (initChunks memPoolSize (numClients * perCliFl) * SLOT_SIZE) ≤
      numClients * perCliFl * (initChunks memPoolSize (numClients * perCliFl) * SLOT_SIZE) :=
    Nat.mul_le_mul_right _ (Nat.one_le_of_lt hfl)
  have htotal := initChunks_size_le memPoolSize (numClients * perCliFl)
  rw [Nat.mul_assoc] at htotal
  show (if fl < numClients * perCliFl then _ else _ : BitVec 64).toNat = _
  rw [if_pos hfl, BitVec.toNat_ofNat]
  exact Nat.mod_eq_of_lt (by unfold initChunks at *; omega)

theorem new_allocated (hsize : memPoolSize < 2 ^ 64) :
    (new startAddr memPoolSize numClients perCliFl).allocated =
      numClients * perCliFl * initChunks memPoolSize (numClients * perCliFl) * SLOT_SIZE := by
  have hone : ∀ fl ∈ Finset.range (numClients * perCliFl),
      ((new startAddr memPoolSize numClients perCliFl).allocs fl).toNat =
        initChunks memPoolSize (numClients * perCliFl) * SLOT_SIZE := fun fl hfl =>
    new_allocs startAddr memPoolSize numClients hsize (Finset.mem_range.mp hfl)
  rw [allocated]
  refine (Finset.sum_congr rfl hone).trans ?_
  rw [Finset.sum_const, Finset.card_range, smul_eq_mul, Nat.mul_assoc _ _ SLOT_SIZE]

end New

end PerCPUPool

/-! ## Runs of the pool -/

/-- The pool and the addresses it has handed out. -/
structure PoolRun where
  pool : PerCPUPool
  out : List Value := []

inductive PoolCall where
  | allocate (cid : ℕ) (qid : Option ℕ) (rand : ℕ)
  | allocateFromPeer (fl : ℕ)
  | free (addr : Value) (cid : ℕ) (qid : Option ℕ) (rand : ℕ)

namespace PoolRun

/-- The client and the queue exist. -/
def Known (p : PerCPUPool) (cid : ℕ) (qid : Option ℕ) : Prop :=
  cid < p.numClients ∧ ∀ q ∈ qid, q < p.perCliFl

instance (p : PerCPUPool) (cid : ℕ) : (qid : Option ℕ) → Decidable (Known p cid qid)
  | none => decidable_of_iff (cid < p.numClients) (by simp [Known])
  | some q => decidable_of_iff (cid < p.numClients ∧ q < p.perCliFl) (by simp [Known])

/-- What `AllocateFromPeer` returns stays on the list it has filled. -/
def step (s : PoolRun) : PoolCall → Option PoolRun
  | .allocate cid qid rand =>
      if Known s.pool cid qid then
        match s.pool.allocate cid qid rand with
        | some (a, pool) => some { pool, out := a :: s.out }
        | none => some s
      else none
  | .allocateFromPeer fl =>
      if fl < s.pool.totalFl then
        match s.pool.allocateFromPeer fl with
        | some (_, pool) => some { s with pool }
        | none => some s
      else none
  | .free addr cid qid rand =>
      if Known s.pool cid qid ∧ addr ∈ s.out then
        some { pool := s.pool.free addr cid qid rand, out := s.out.erase addr }
      else none

end PoolRun

def poolSystem (startAddr : Value) (memPoolSize numClients perCliFl : ℕ) :
    System PoolRun PoolCall where
  init s := s = { pool := .new startAddr memPoolSize numClients perCliFl }
  step := PoolRun.step

namespace PoolRun

variable {s s' : PoolRun} {totalFl initChunks maxChunks : ℕ}

/-- The accounts of the pool, and what the next call relies on. -/
structure Exact (totalFl initChunks : ℕ) (s : PoolRun) : Prop where
  lists : s.pool.totalFl = totalFl
  books : s.pool.Books
  allocated : s.pool.allocated = totalFl * initChunks * SLOT_SIZE
  -- an address that is given back finds a node on every list
  push : s.out ≠ [] → s.pool.Room
  -- a list that lends has a page to lose, and the page finds a node
  lend : ∀ fl < s.pool.totalFl, ∀ a pool, s.pool.allocateFromPeer fl = some (a, pool) →
    ∃ peerFl f, pool = s.pool.borrow fl peerFl a f ∧
      SLOT_SIZE ≤ (s.pool.allocs peerFl).toNat ∧ (s.pool.take peerFl f).Room

/-- The lists and the addresses handed out make up the slots of the pool. -/
structure Inv (totalFl initChunks maxChunks : ℕ) (s : PoolRun) : Prop where
  wf : s.pool.WF
  lists : s.pool.totalFl = totalFl
  nodes : ∀ fl < s.pool.totalFl, (s.pool.freelist fl).maxChunks = maxChunks
  pages : s.pool.freePages + s.out.length = totalFl * initChunks
  books : s.pool.Books
  allocated : s.pool.allocated = totalFl * initChunks * SLOT_SIZE
  share : totalFl * initChunks ≤ maxChunks
  fits : maxChunks * SLOT_SIZE < 2 ^ 64

theorem room_of_pages {p : PerCPUPool} (hnodes : ∀ fl < p.totalFl,
    (p.freelist fl).maxChunks = maxChunks) (hlt : p.freePages < maxChunks) : p.Room := by
  intro fl hfl
  rw [hnodes fl hfl]
  exact (PerCPUPool.length_le_freePages hfl).trans_lt hlt

theorem Inv.allocated_lt (h : s.Inv totalFl initChunks maxChunks) : s.pool.allocated < 2 ^ 64 := by
  rw [h.allocated]
  exact (Nat.mul_le_mul_right _ h.share).trans_lt h.fits

theorem Inv.room (h : s.Inv totalFl initChunks maxChunks) (hout : s.out ≠ []) : s.pool.Room := by
  have hpages := h.pages
  have hshare := h.share
  have hpos := List.length_pos_iff.mpr hout
  exact room_of_pages h.nodes (by omega)

theorem Inv.room_take (h : s.Inv totalFl initChunks maxChunks) {fl : ℕ} (hfl : fl < s.pool.totalFl)
    {a : Value} {f : FreeList} (hget : (s.pool.freelist fl).getFreeAddr = some (a, f)) :
    (s.pool.take fl f).Room := by
  have hpages := h.pages
  have hshare := h.share
  have htake := PerCPUPool.freePages_take hfl hget
  refine room_of_pages (fun i hi => ?_) (by omega : (s.pool.take fl f).freePages < maxChunks)
  rw [PerCPUPool.take_maxChunks hget]
  exact h.nodes i hi

theorem Inv.exact (h : s.Inv totalFl initChunks maxChunks) : s.Exact totalFl initChunks where
  lists := h.lists
  books := h.books
  allocated := h.allocated
  push := h.room
  lend := by
    intro fl hfl _ _ halloc
    obtain ⟨peer, peerFl, f, hpeer, -, howns, hget, hthold, rfl⟩ :=
      PerCPUPool.allocateFromPeer_lends h.wf hfl halloc
    have hpeerFl := howns.lt_totalFl h.wf hpeer
    exact ⟨peerFl, f, rfl, PerCPUPool.slot_le_of_thold hthold, h.room_take hpeerFl hget⟩

/-! ### One call -/

theorem Inv.allocate (h : s.Inv totalFl initChunks maxChunks) {cid : ℕ} {qid : Option ℕ}
    (hknown : Known s.pool cid qid) {rand : ℕ} {a : Value} {pool : PerCPUPool}
    (halloc : s.pool.allocate cid qid rand = some (a, pool)) :
    Inv totalFl initChunks maxChunks { pool, out := a :: s.out } := by
  obtain ⟨fl, f, howns, hget, rfl⟩ := PerCPUPool.allocate_some h.wf hknown.2 halloc
  have hfl := howns.lt_totalFl h.wf hknown.1
  constructor
  · exact ⟨h.wf.perCliFl_pos, h.wf.totalFl_eq⟩
  · exact h.lists
  · intro i hi
    rw [PerCPUPool.take_maxChunks hget]
    exact h.nodes i hi
  · show (s.pool.take fl f).freePages + (a :: s.out).length = totalFl * initChunks
    rw [← h.pages, ← PerCPUPool.freePages_take hfl hget, List.length_cons]
    ring
  · exact h.books.take hget
  · exact h.allocated
  · exact h.share
  · exact h.fits

theorem Inv.free (h : s.Inv totalFl initChunks maxChunks) {cid : ℕ} {qid : Option ℕ}
    (hknown : Known s.pool cid qid) {addr : Value} (haddr : addr ∈ s.out) (rand : ℕ) :
    Inv totalFl initChunks maxChunks
      { pool := s.pool.free addr cid qid rand, out := s.out.erase addr } := by
  have howns := PerCPUPool.owns_flId h.wf cid hknown.2 rand
  have hfl := howns.lt_totalFl h.wf hknown.1
  have hroom := h.room (List.ne_nil_of_mem haddr) _ hfl
  have hpos : 0 < s.out.length := List.length_pos_of_mem haddr
  constructor
  · exact ⟨h.wf.perCliFl_pos, h.wf.totalFl_eq⟩
  · exact h.lists
  · intro i hi
    show ((s.pool.give _ addr).freelist i).maxChunks = maxChunks
    rw [PerCPUPool.give_maxChunks]
    exact h.nodes i hi
  · show (s.pool.give _ addr).freePages + (s.out.erase addr).length = totalFl * initChunks
    rw [PerCPUPool.freePages_give hfl hroom, List.length_erase_of_mem haddr, ← h.pages]
    omega
  · exact h.books.give hroom addr
  · exact h.allocated
  · exact h.share
  · exact h.fits

theorem Inv.allocateFromPeer (h : s.Inv totalFl initChunks maxChunks) {fl : ℕ}
    (hfl : fl < s.pool.totalFl) {a : Value} {pool : PerCPUPool}
    (halloc : s.pool.allocateFromPeer fl = some (a, pool)) :
    Inv totalFl initChunks maxChunks { s with pool } := by
  obtain ⟨peer, peerFl, f, hpeer, hne, howns, hget, hthold, rfl⟩ :=
    PerCPUPool.allocateFromPeer_lends h.wf hfl halloc
  have hpeerFl := howns.lt_totalFl h.wf hpeer
  have hcur : fl ≠ peerFl := by
    -- the lender is another client
    rintro rfl
    apply hne
    obtain ⟨hlo, hhi⟩ := howns
    have hdiv := Nat.div_eq_of_lt_le hlo (by rw [Nat.succ_mul]; exact hhi)
    exact hdiv.symm
  have hroom := h.room_take hpeerFl hget
  have hcurRoom : (s.pool.freelist fl).addrs.length < (s.pool.freelist fl).maxChunks := by
    have htake := hroom fl hfl
    simpa only [PerCPUPool.take, Function.update_of_ne hcur] using htake
  have hpages : (s.pool.borrow fl peerFl a f).freePages = s.pool.freePages := by
    -- the page leaves as in `take` and arrives as in `give`
    have htake := PerCPUPool.freePages_take hpeerFl hget
    have hgive := PerCPUPool.freePages_give (p := s.pool.take peerFl f) hfl (hroom fl hfl) a
    exact hgive.trans htake
  constructor
  · exact ⟨h.wf.perCliFl_pos, h.wf.totalFl_eq⟩
  · exact h.lists
  · intro i hi
    show ((s.pool.borrow fl peerFl a f).freelist i).maxChunks = maxChunks
    rw [PerCPUPool.borrow_maxChunks hget]
    exact h.nodes i hi
  · show (s.pool.borrow fl peerFl a f).freePages + s.out.length = totalFl * initChunks
    rw [hpages]
    exact h.pages
  · exact h.books.borrow hcur hget hcurRoom
  · show (s.pool.borrow fl peerFl a f).allocated = totalFl * initChunks * SLOT_SIZE
    rw [PerCPUPool.allocated_borrow hcur hfl hpeerFl (PerCPUPool.slot_le_of_thold hthold)
      h.allocated_lt]
    exact h.allocated
  · exact h.share
  · exact h.fits

theorem Inv.step (h : s.Inv totalFl initChunks maxChunks) {c : PoolCall} (hstep : s.step c = some s') :
    s'.Inv totalFl initChunks maxChunks := by
  cases c with
  | allocate cid qid rand =>
      simp only [PoolRun.step] at hstep
      split at hstep
      next hknown =>
        split at hstep
        next a pool halloc =>
          cases hstep
          exact h.allocate hknown halloc
        next =>
          cases hstep
          exact h
      · cases hstep
  | allocateFromPeer fl =>
      simp only [PoolRun.step] at hstep
      split at hstep
      next hfl =>
        split at hstep
        next a pool halloc =>
          cases hstep
          exact h.allocateFromPeer hfl halloc
        next =>
          cases hstep
          exact h
      · cases hstep
  | free addr cid qid rand =>
      simp only [PoolRun.step] at hstep
      split at hstep
      next hknown =>
        cases hstep
        exact h.free hknown.1 hknown.2 rand
      · cases hstep

theorem Inv.new (startAddr : Value) {memPoolSize : ℕ} (numClients : ℕ) {perCliFl : ℕ}
    (hperCliFl : 0 < perCliFl) (hsize : memPoolSize < 2 ^ 64) :
    Inv (numClients * perCliFl) (PerCPUPool.initChunks memPoolSize (numClients * perCliFl))
      (memPoolSize / SLOT_SIZE)
      { pool := .new startAddr memPoolSize numClients perCliFl } where
  wf := PerCPUPool.new_wf startAddr memPoolSize numClients hperCliFl
  lists := rfl
  nodes _ hfl := PerCPUPool.new_maxChunks startAddr memPoolSize numClients perCliFl hfl
  pages := PerCPUPool.new_freePages startAddr memPoolSize numClients
  books := PerCPUPool.new_books startAddr memPoolSize numClients
  allocated := PerCPUPool.new_allocated startAddr memPoolSize numClients hsize
  share := PerCPUPool.initChunks_le memPoolSize _
  fits := (Nat.div_mul_le_self _ _).trans_lt hsize

/-- The accounts of the pool are exact in every state its calls lead to. -/
theorem exact_of_reachable {startAddr : Value} {memPoolSize numClients perCliFl : ℕ}
    (hperCliFl : 0 < perCliFl) (hsize : memPoolSize < 2 ^ 64)
    (hreach : (poolSystem startAddr memPoolSize numClients perCliFl).Reachable s) :
    s.Exact (numClients * perCliFl)
      (PerCPUPool.initChunks memPoolSize (numClients * perCliFl)) := by
  have hinv : s.Inv (numClients * perCliFl)
      (PerCPUPool.initChunks memPoolSize (numClients * perCliFl))
      (memPoolSize / SLOT_SIZE) := by
    refine hreach.invariant ?_ fun _ _ _ h hstep => h.step hstep
    rintro _ rfl
    exact Inv.new startAddr numClients hperCliFl hsize
  exact hinv.exact

/-- A page moves from list 0 to list 1 of the only client: `useds_[1]` wraps. -/
def crossList : List PoolCall := [.allocate 0 (some 0) 0, .free 4096 0 (some 1) 0]

theorem exact_crossList : ∃ s, (poolSystem 4096 (2 ^ 14) 1 2).exec
      { pool := .new 4096 (2 ^ 14) 1 2 } crossList = some s ∧
    s.pool.useds 1 = -BitVec.ofNat 64 SLOT_SIZE ∧
      s.Exact (1 * 2) (PerCPUPool.initChunks (2 ^ 14) (1 * 2)) := by
  have hrun : ((poolSystem 4096 (2 ^ 14) 1 2).exec
      { pool := .new 4096 (2 ^ 14) 1 2 } crossList).map (fun s => s.pool.useds 1) =
      some (-BitVec.ofNat 64 SLOT_SIZE) := by decide +kernel
  obtain ⟨s, hexec, huseds⟩ := Option.map_eq_some_iff.mp hrun
  exact ⟨s, hexec, huseds,
    exact_of_reachable (by decide) (by decide) ⟨_, crossList, rfl, hexec⟩⟩

end PoolRun

end CleancacheRdma.Daemon
