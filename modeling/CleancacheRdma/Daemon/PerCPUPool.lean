import CleancacheRdma.Daemon.Basic
import CleancacheRdma.Lib.Places
import Mathlib.Tactic.Ring

/-!
# `PerCPUPool`, the page pool

Translated from `percpu_pool.{hpp,cpp}` and `freelist.hpp`. Sizes and byte
counts are `size_t`, so they are 64-bit words with wrap-around; the draws of
`pool_uni_dist` are arguments. `GetFreeAddr`, `Allocate` and
`AllocateFromPeer` return `-1` for "no page", which is `none` here.
-/

namespace CleancacheRdma.Daemon

/-- `sizeof(struct slot)`: a page and the key that was sent with it. -/
def SLOT_SIZE : ℕ := 4096 + 8

/-! ## Free lists -/

/-- A stack of addresses over a fixed number of preallocated nodes. -/
structure FreeList where
  maxChunks : ℕ := 0
  addrs : List Value := []

namespace FreeList

def getFreeAddr (f : FreeList) : Option (Value × FreeList) :=
  match f.addrs with
  | [] => none
  | a :: as => some (a, { f with addrs := as })

/-- `stack_push` fails when no node is left; nobody looks at its result. -/
def putFreeAddr (addr : Value) (f : FreeList) : FreeList :=
  if f.addrs.length < f.maxChunks then { f with addrs := addr :: f.addrs } else f

theorem getFreeAddr_some {f f' : FreeList} {a : Value} (h : f.getFreeAddr = some (a, f')) :
    f.addrs = a :: f'.addrs ∧ f'.maxChunks = f.maxChunks := by
  rw [getFreeAddr] at h
  split at h
  · cases h
  next as has =>
    cases h
    exact ⟨has, rfl⟩

@[simp] theorem putFreeAddr_maxChunks (addr : Value) (f : FreeList) :
    (f.putFreeAddr addr).maxChunks = f.maxChunks := by
  rw [putFreeAddr]
  split
  · rfl
  · rfl

theorem putFreeAddr_count {f : FreeList} (hroom : f.addrs.length < f.maxChunks) (addr x : Value) :
    (f.putFreeAddr addr).addrs.count x = f.addrs.count x + if addr = x then 1 else 0 := by
  rw [putFreeAddr, if_pos hroom, List.count_cons]
  simp only [beq_iff_eq]

theorem putFreeAddr_count_le (addr x : Value) (f : FreeList) :
    (f.putFreeAddr addr).addrs.count x ≤ f.addrs.count x + if addr = x then 1 else 0 := by
  rw [putFreeAddr]
  split
  · rw [List.count_cons]
    simp
  · exact Nat.le_add_right _ _

end FreeList

/-! ## The pool -/

/-- The pool; `freed` is a ghost, the addresses `Free` was called with, the
last one first. -/
structure PerCPUPool where
  totalFl : ℕ
  perCliFl : ℕ
  numClients : ℕ
  startAddr : Value
  allocs : ℕ → BitVec 64
  useds : ℕ → BitVec 64
  minFlAlloc : BitVec 64
  minFlFree : BitVec 64
  freelist : ℕ → FreeList
  freed : List Value := []

namespace PerCPUPool

def allocTholdPerc : ℕ := 10
def freeTholdPerc : ℕ := 5

/-- The addresses of one list, pushed from the last to the first. -/
def fill (addr : Value) (initChunks : ℕ) (f : FreeList) : FreeList :=
  (List.range initChunks).foldr (fun j f => f.putFreeAddr (addr + j * SLOT_SIZE)) f

/-- The constructor; `perCliFl` is `rdma_config.num_data_qps`. -/
def new (startAddr : Value) (memPoolSize numClients perCliFl : ℕ) : PerCPUPool :=
  let totalFl := numClients * perCliFl
  let maxChunks := memPoolSize / SLOT_SIZE
  let initChunks := memPoolSize / SLOT_SIZE / totalFl
  { totalFl, perCliFl, numClients, startAddr
    allocs := fun i => if i < totalFl then BitVec.ofNat 64 (initChunks * SLOT_SIZE) else 0
    useds := fun _ => 0
    minFlAlloc := BitVec.ofNat 64 (initChunks * SLOT_SIZE * allocTholdPerc) / 100
    minFlFree := BitVec.ofNat 64 (initChunks * SLOT_SIZE * freeTholdPerc) / 100
    freelist := fun i =>
      if i < totalFl then fill (startAddr + i * (initChunks * SLOT_SIZE)) initChunks { maxChunks }
      else {} }

variable (p : PerCPUPool)

/-! ### Accounting -/

/-- The product is cut to an `int` and widened again with its sign. -/
def getThldFree (fl : ℕ) : BitVec 64 :=
  let curThold := (p.allocs fl * BitVec.ofNat 64 freeTholdPerc / 100).setWidth 32
  if p.minFlFree < curThold.signExtend 64 then curThold.signExtend 64 else p.minFlFree

def getAlloc (fl : ℕ) : BitVec 64 := p.allocs fl
def getUsed (fl : ℕ) : BitVec 64 := p.useds fl
def getFree (fl : ℕ) : BitVec 64 := p.allocs fl - p.getUsed fl

/-- The sum of a counter over the lists of one client. -/
def clientSum (counter : ℕ → BitVec 64) (cli : ℕ) : BitVec 64 :=
  (List.range p.perCliFl).foldl (fun sum j => sum + counter (cli * p.perCliFl + j)) 0

def getClientAlloc (cli : ℕ) : BitVec 64 := p.clientSum p.allocs cli
def getClientUsed (cli : ℕ) : BitVec 64 := p.clientSum p.useds cli
def getClientFree (cli : ℕ) : BitVec 64 := p.getClientAlloc cli - p.getClientUsed cli

/-- `x / (1 << 20)`. -/
def toMB (x : BitVec 64) : BitVec 64 := x / 1048576

/-! ### Borrowing from a peer -/

/-- The locals of `SelectByFreeMem`. -/
structure SelectState where
  nextCli : ℕ
  tgtCli : ℕ
  maxFree : BitVec 64 := 0

/-- One pass of its loop: the next client is taken if it has more free memory
above its threshold than the best so far. -/
def selectNext (s : SelectState) : SelectState :=
  let thldAlloc := p.minFlAlloc * BitVec.ofNat 64 p.perCliFl
  let cliAlloc := p.getClientAlloc s.nextCli
  let cliFree := p.getClientFree s.nextCli
  -- next client's 1st free list's thld x per_cli_fl
  let thldFree := p.getThldFree (s.nextCli * p.perCliFl) * BitVec.ofNat 64 p.perCliFl
  let nextCli := (s.nextCli + 1) % p.numClients
  if toMB thldAlloc < toMB cliAlloc ∧ toMB thldFree < toMB cliFree then
    if toMB s.maxFree < toMB (cliFree - thldFree) then
      { nextCli, tgtCli := s.nextCli, maxFree := cliFree - thldFree }
    else { s with nextCli }
  else { s with nextCli }

def selectByFreeMem (curCli : ℕ) : ℕ :=
  ((List.range (p.numClients - 1)).foldl (fun s _ => p.selectNext s)
    { nextCli := (curCli + 1) % p.numClients, tgtCli := curCli }).tgtCli

/-- The neighbour of a list inside the lists of one client. -/
def nextFl (cli fl : ℕ) : ℕ :=
  if fl = cli * p.perCliFl + p.perCliFl - 1 then cli * p.perCliFl else fl + 1

def numIter : ℕ := if p.perCliFl = 1 then 1 else p.perCliFl / 2

/-- A page of list `peerFl` becomes one of list `curFl`. -/
def borrow (curFl peerFl : ℕ) (a : Value) (f : FreeList) : PerCPUPool :=
  let lent := Function.update p.freelist peerFl f
  let allocs := Function.update p.allocs peerFl (p.allocs peerFl - BitVec.ofNat 64 SLOT_SIZE)
  { p with
    allocs := Function.update allocs curFl (allocs curFl + BitVec.ofNat 64 SLOT_SIZE)
    freelist := Function.update lent curFl ((lent curFl).putFreeAddr a) }

/-- The loop of `AllocateFromPeer`. A list below a threshold is tried again,
only an empty one is passed over. -/
def borrowLoop (curFl nextCli : ℕ) : ℕ → ℕ → Option (Value × PerCPUPool)
  | 0, _ => none
  | n + 1, peerFl =>
      if toMB p.minFlAlloc < toMB (p.getAlloc peerFl) ∧
          toMB p.minFlFree < toMB (p.getFree peerFl) then
        match (p.freelist peerFl).getFreeAddr with
        | some (a, f) => some (a, p.borrow curFl peerFl a f)
        | none => borrowLoop curFl nextCli n (p.nextFl nextCli peerFl)
      else borrowLoop curFl nextCli n peerFl

def allocateFromPeer (fl : ℕ) : Option (Value × PerCPUPool) :=
  let curCli := fl / p.perCliFl
  let nextCli := p.selectByFreeMem curCli
  if curCli = nextCli then none
  else p.borrowLoop fl nextCli p.numIter (nextCli * p.perCliFl + fl % p.perCliFl)

/-! ### Allocate and Free -/

/-- The list an address is taken from or given to; `qid = -1` draws one. -/
def flId (cid : ℕ) (qid : Option ℕ) (rand : ℕ) : ℕ :=
  match qid with
  | none => cid * p.perCliFl + rand % p.perCliFl
  | some q => cid * p.perCliFl + q

/-- The address popped from list `fl`, which keeps `f`, is in use. -/
def take (fl : ℕ) (f : FreeList) : PerCPUPool :=
  { p with
    useds := Function.update p.useds fl (p.useds fl + BitVec.ofNat 64 SLOT_SIZE)
    freelist := Function.update p.freelist fl f }

/-- The loop of `Allocate`. -/
def allocateLoop (cid : ℕ) : ℕ → ℕ → Option (Value × PerCPUPool)
  | 0, _ => none
  | n + 1, fl =>
      match (p.freelist fl).getFreeAddr with
      | some (a, f) => some (a, p.take fl f)
      | none => allocateLoop cid n (p.nextFl cid fl)

def allocate (cid : ℕ) (qid : Option ℕ) (rand : ℕ) : Option (Value × PerCPUPool) :=
  p.allocateLoop cid p.numIter (p.flId cid qid rand)

/-- `Free` onto list `fl`. -/
def give (fl : ℕ) (addr : Value) : PerCPUPool :=
  { p with
    useds := Function.update p.useds fl (p.useds fl - BitVec.ofNat 64 SLOT_SIZE)
    freelist := Function.update p.freelist fl ((p.freelist fl).putFreeAddr addr)
    freed := addr :: p.freed }

def free (addr : Value) (cid : ℕ) (qid : Option ℕ) (rand : ℕ) : PerCPUPool :=
  p.give (p.flId cid qid rand) addr

/-! ## What the operations do -/

section Spec

variable {p}

/-- The number of lists is that of the clients times their lists. -/
structure WF (p : PerCPUPool) : Prop where
  perCliFl_pos : 0 < p.perCliFl
  totalFl_eq : p.totalFl = p.numClients * p.perCliFl

theorem new_wf (startAddr : Value) (memPoolSize numClients : ℕ) {perCliFl : ℕ}
    (h : 0 < perCliFl) : (new startAddr memPoolSize numClients perCliFl).WF :=
  ⟨h, rfl⟩

/-- `fl` is a list of client `cli`. -/
def Owns (p : PerCPUPool) (cli fl : ℕ) : Prop :=
  cli * p.perCliFl ≤ fl ∧ fl < cli * p.perCliFl + p.perCliFl

theorem Owns.lt_totalFl (h : p.WF) {cli fl : ℕ} (hcli : cli < p.numClients)
    (hfl : p.Owns cli fl) : fl < p.totalFl := by
  have hle : (cli + 1) * p.perCliFl ≤ p.numClients * p.perCliFl :=
    Nat.mul_le_mul_right _ hcli
  rw [h.totalFl_eq]
  rw [Nat.succ_mul] at hle
  exact Nat.lt_of_lt_of_le hfl.2 hle

theorem Owns.nextFl (h : p.WF) {cli fl : ℕ} (hfl : p.Owns cli fl) :
    p.Owns cli (p.nextFl cli fl) := by
  have hpos := h.perCliFl_pos
  obtain ⟨hlo, hhi⟩ := hfl
  rw [PerCPUPool.nextFl]
  split
  · exact ⟨Nat.le_refl _, by omega⟩
  · exact ⟨by omega, by omega⟩

theorem owns_mod (h : p.WF) (cli n : ℕ) : p.Owns cli (cli * p.perCliFl + n % p.perCliFl) :=
  ⟨Nat.le_add_right _ _, Nat.add_lt_add_left (Nat.mod_lt _ h.perCliFl_pos) _⟩

theorem owns_flId (h : p.WF) (cid : ℕ) {qid : Option ℕ} (hqid : ∀ q, qid = some q → q < p.perCliFl)
    (rand : ℕ) : p.Owns cid (p.flId cid qid rand) := by
  cases qid with
  | none => exact owns_mod h cid rand
  | some q => exact ⟨Nat.le_add_right _ _, Nat.add_lt_add_left (hqid q rfl) _⟩

/-- A page handed out was on top of one of the lists that were tried. -/
theorem allocateLoop_tried {cid : ℕ} {a : Value} {p' : PerCPUPool} :
    ∀ {n fl : ℕ}, p.allocateLoop cid n fl = some (a, p') →
      ∃ i < n, ∃ f, (p.freelist ((p.nextFl cid)^[i] fl)).getFreeAddr = some (a, f) ∧
        p' = p.take ((p.nextFl cid)^[i] fl) f := by
  intro n
  induction n with
  | zero => intro fl ha; simp [allocateLoop] at ha
  | succ n ih =>
      intro fl ha
      rw [allocateLoop] at ha
      split at ha
      next a' f hget =>
        cases ha
        exact ⟨0, Nat.succ_pos n, f, hget, rfl⟩
      next =>
        obtain ⟨i, hi, f, hget, heq⟩ := ih ha
        exact ⟨i + 1, Nat.succ_lt_succ hi, f, hget, heq⟩

/-- The lists that `Allocate` tries for a queue. -/
def probed (p : PerCPUPool) (cid qid : ℕ) : Finset ℕ :=
  (Finset.range p.numIter).image fun i => (p.nextFl cid)^[i] (p.flId cid (some qid) 0)

/-- The pages on them. -/
def available (p : PerCPUPool) (cid qid : ℕ) : ℕ :=
  ∑ fl ∈ p.probed cid qid, (p.freelist fl).addrs.length

theorem allocateLoop_none {cid : ℕ} :
    ∀ {n fl : ℕ}, p.allocateLoop cid n fl = none →
      ∀ i < n, (p.freelist ((p.nextFl cid)^[i] fl)).addrs = [] := by
  intro n
  induction n with
  | zero => intro fl _ i hi; exact absurd hi (Nat.not_lt_zero i)
  | succ n ih =>
      intro fl ha i hi
      rw [allocateLoop] at ha
      split at ha
      · cases ha
      next hget =>
        cases i with
        | zero =>
            rw [FreeList.getFreeAddr] at hget
            split at hget
            next hnil => exact hnil
            · cases hget
        | succ i => exact ih ha i (Nat.lt_of_succ_lt_succ hi)

/-- No page for the queue: the lists it tries are empty. -/
theorem available_of_none {cid qid : ℕ} (ha : p.allocate cid (some qid) 0 = none) :
    p.available cid qid = 0 := by
  apply Finset.sum_eq_zero
  intro fl hfl
  obtain ⟨i, hi, rfl⟩ := Finset.mem_image.mp hfl
  rw [allocateLoop_none ha i (Finset.mem_range.mp hi)]
  rfl

/-- A page for the queue comes off one of them. -/
theorem available_of_some {cid qid : ℕ} {a : Value} {p' : PerCPUPool}
    (ha : p.allocate cid (some qid) 0 = some (a, p')) :
    p'.available cid qid + 1 = p.available cid qid := by
  obtain ⟨i, hi, f, hget, rfl⟩ := allocateLoop_tried ha
  have hmem : (p.nextFl cid)^[i] (p.flId cid (some qid) 0) ∈ p.probed cid qid :=
    Finset.mem_image.mpr ⟨i, Finset.mem_range.mpr hi, rfl⟩
  have hsum := Lib.sum_update hmem (fun f => f.addrs.length) p.freelist f
  rw [(FreeList.getFreeAddr_some hget).1, List.length_cons] at hsum
  change (p.take _ f).available cid qid + _ = p.available cid qid + _ at hsum
  omega

theorem Owns.iterate_nextFl (h : p.WF) {cli fl : ℕ} (hfl : p.Owns cli fl) (i : ℕ) :
    p.Owns cli ((p.nextFl cli)^[i] fl) := by
  induction i with
  | zero => exact hfl
  | succ i ih =>
      rw [Function.iterate_succ_apply']
      exact ih.nextFl h

theorem allocateLoop_some (h : p.WF) {cid : ℕ} {a : Value} {p' : PerCPUPool} {n fl : ℕ}
    (hfl : p.Owns cid fl) (ha : p.allocateLoop cid n fl = some (a, p')) :
    ∃ fl' f, p.Owns cid fl' ∧ (p.freelist fl').getFreeAddr = some (a, f) ∧
      p' = p.take fl' f := by
  obtain ⟨i, -, f, hget, heq⟩ := allocateLoop_tried ha
  exact ⟨_, f, hfl.iterate_nextFl h i, hget, heq⟩

/-- A page handed out was on top of one of the client's lists. -/
theorem allocate_some (h : p.WF) {cid : ℕ} {qid : Option ℕ}
    (hqid : ∀ q, qid = some q → q < p.perCliFl) {rand : ℕ} {a : Value} {p' : PerCPUPool}
    (ha : p.allocate cid qid rand = some (a, p')) :
    ∃ fl f, p.Owns cid fl ∧ (p.freelist fl).getFreeAddr = some (a, f) ∧ p' = p.take fl f :=
  allocateLoop_some h (owns_flId h cid hqid rand) ha

theorem selectNext_lt {s : SelectState} (hpos : 0 < p.numClients)
    (hnext : s.nextCli < p.numClients) (htgt : s.tgtCli < p.numClients) :
    (p.selectNext s).nextCli < p.numClients ∧ (p.selectNext s).tgtCli < p.numClients := by
  have hmod := Nat.mod_lt (s.nextCli + 1) hpos
  simp only [selectNext]
  split
  · split
    · exact ⟨hmod, hnext⟩
    · exact ⟨hmod, htgt⟩
  · exact ⟨hmod, htgt⟩

theorem selectByFreeMem_lt {curCli : ℕ} (hcur : curCli < p.numClients) :
    p.selectByFreeMem curCli < p.numClients := by
  have hpos : 0 < p.numClients := Nat.zero_lt_of_lt hcur
  have hfold : ∀ (l : List ℕ) (s : SelectState), s.nextCli < p.numClients →
      s.tgtCli < p.numClients →
      (l.foldl (fun s _ => p.selectNext s) s).tgtCli < p.numClients := by
    intro l
    induction l with
    | nil => intro s _ htgt; exact htgt
    | cons x l ih =>
        intro s hnext htgt
        obtain ⟨hnext', htgt'⟩ := selectNext_lt hpos hnext htgt
        exact ih _ hnext' htgt'
  exact hfold _ _ (Nat.mod_lt _ hpos) hcur

/-- A list that lends has more than its share. -/
theorem borrowLoop_lends (h : p.WF) {curFl nextCli : ℕ} {a : Value} {p' : PerCPUPool} :
    ∀ {n peerFl : ℕ}, p.Owns nextCli peerFl →
      p.borrowLoop curFl nextCli n peerFl = some (a, p') →
      ∃ fl f, p.Owns nextCli fl ∧ (p.freelist fl).getFreeAddr = some (a, f) ∧
        toMB p.minFlAlloc < toMB (p.getAlloc fl) ∧ p' = p.borrow curFl fl a f := by
  intro n
  induction n with
  | zero => intro fl _ ha; simp [borrowLoop] at ha
  | succ n ih =>
      intro fl hfl ha
      rw [borrowLoop] at ha
      split at ha
      next hthold =>
        split at ha
        next a' f hget =>
          cases ha
          exact ⟨fl, f, hfl, hget, hthold.1, rfl⟩
        next => exact ih (hfl.nextFl h) ha
      · exact ih hfl ha

/-- A borrowed page was on top of a list of another client. -/
theorem allocateFromPeer_lends (h : p.WF) {fl : ℕ} (hfl : fl < p.totalFl) {a : Value}
    {p' : PerCPUPool} (ha : p.allocateFromPeer fl = some (a, p')) :
    ∃ peer peerFl f, peer < p.numClients ∧ peer ≠ fl / p.perCliFl ∧ p.Owns peer peerFl ∧
      (p.freelist peerFl).getFreeAddr = some (a, f) ∧
      toMB p.minFlAlloc < toMB (p.getAlloc peerFl) ∧ p' = p.borrow fl peerFl a f := by
  have hcur : fl / p.perCliFl < p.numClients :=
    Nat.div_lt_of_lt_mul (by rw [Nat.mul_comm, ← h.totalFl_eq]; exact hfl)
  simp only [allocateFromPeer] at ha
  split at ha
  · cases ha
  next hne =>
    obtain ⟨peerFl, f, howns, hget, hthold, rfl⟩ := borrowLoop_lends h (owns_mod h _ _) ha
    exact ⟨_, peerFl, f, selectByFreeMem_lt hcur, fun he => hne he.symm, howns, hget, hthold, rfl⟩

theorem allocateFromPeer_some (h : p.WF) {fl : ℕ} (hfl : fl < p.totalFl) {a : Value}
    {p' : PerCPUPool} (ha : p.allocateFromPeer fl = some (a, p')) :
    ∃ peer peerFl f, peer < p.numClients ∧ peer ≠ fl / p.perCliFl ∧ p.Owns peer peerFl ∧
      (p.freelist peerFl).getFreeAddr = some (a, f) ∧ p' = p.borrow fl peerFl a f := by
  obtain ⟨peer, peerFl, f, hpeer, hne, howns, hget, -, heq⟩ := allocateFromPeer_lends h hfl ha
  exact ⟨peer, peerFl, f, hpeer, hne, howns, hget, heq⟩

/-! ### Where an address is -/

/-- How often an address stands on the free lists. -/
def count (p : PerCPUPool) (x : Value) : ℕ :=
  ∑ fl ∈ Finset.range p.totalFl, (p.freelist fl).addrs.count x

theorem count_update {fl : ℕ} (hfl : fl < p.totalFl) (f : FreeList) (x : Value) :
    ∑ i ∈ Finset.range p.totalFl, (Function.update p.freelist fl f i).addrs.count x +
        (p.freelist fl).addrs.count x = p.count x + f.addrs.count x :=
  Lib.sum_update (Finset.mem_range.mpr hfl) (fun f => f.addrs.count x) p.freelist f

theorem count_take {fl : ℕ} (hfl : fl < p.totalFl) {a : Value} {f : FreeList}
    (hget : (p.freelist fl).getFreeAddr = some (a, f)) (x : Value) :
    (p.take fl f).count x + (if a = x then 1 else 0) = p.count x := by
  have hsum := count_update hfl f x
  rw [(FreeList.getFreeAddr_some hget).1, List.count_cons] at hsum
  simp only [beq_iff_eq] at hsum
  change (p.take fl f).count x + _ = _ at hsum
  omega

theorem count_give_le {fl : ℕ} (hfl : fl < p.totalFl) (a x : Value) :
    (p.give fl a).count x ≤ p.count x + if a = x then 1 else 0 := by
  have hsum := count_update hfl ((p.freelist fl).putFreeAddr a) x
  have hput := FreeList.putFreeAddr_count_le a x (p.freelist fl)
  change (p.give fl a).count x + _ = _ at hsum
  omega

theorem count_borrow_le {curFl peerFl : ℕ} (hcur : curFl < p.totalFl)
    (hpeer : peerFl < p.totalFl) {a : Value} {f : FreeList}
    (hget : (p.freelist peerFl).getFreeAddr = some (a, f)) (x : Value) :
    (p.borrow curFl peerFl a f).count x ≤ p.count x := by
  -- the page leaves the peer's list as in `take` and arrives as in `give`
  have htake := count_take hpeer hget x
  have hgive := count_give_le (p := p.take peerFl f) hcur a x
  have heq : (p.borrow curFl peerFl a f).count x = ((p.take peerFl f).give curFl a).count x := rfl
  omega

/-- Every list has a node left. -/
def Room (p : PerCPUPool) : Prop :=
  ∀ fl < p.totalFl, (p.freelist fl).addrs.length < (p.freelist fl).maxChunks

/-- A page given to a list with a node left is there. -/
theorem count_give {fl : ℕ} (hfl : fl < p.totalFl) (hroom : p.Room) (a x : Value) :
    (p.give fl a).count x = p.count x + if a = x then 1 else 0 := by
  have hsum := count_update hfl ((p.freelist fl).putFreeAddr a) x
  have hput := FreeList.putFreeAddr_count (hroom fl hfl) a x
  change (p.give fl a).count x + _ = _ at hsum
  omega

theorem count_borrow {curFl peerFl : ℕ} (hcur : curFl < p.totalFl) (hpeer : peerFl < p.totalFl)
    {a : Value} {f : FreeList} (hget : (p.freelist peerFl).getFreeAddr = some (a, f))
    (hroom : (p.take peerFl f).Room) (x : Value) :
    (p.borrow curFl peerFl a f).count x = p.count x := by
  have htake := count_take hpeer hget x
  have hgive := count_give (p := p.take peerFl f) hcur hroom a x
  have heq : (p.borrow curFl peerFl a f).count x = ((p.take peerFl f).give curFl a).count x := rfl
  omega

/-- The nodes of a list are its own. -/
theorem maxChunks_update {fl : ℕ} {f : FreeList} (hf : f.maxChunks = (p.freelist fl).maxChunks)
    (i : ℕ) : (Function.update p.freelist fl f i).maxChunks = (p.freelist i).maxChunks := by
  by_cases hi : i = fl
  · rw [hi, Function.update_self, hf]
  · rw [Function.update_of_ne hi]

theorem take_maxChunks {fl : ℕ} {a : Value} {f : FreeList}
    (hget : (p.freelist fl).getFreeAddr = some (a, f)) (i : ℕ) :
    ((p.take fl f).freelist i).maxChunks = (p.freelist i).maxChunks :=
  maxChunks_update (FreeList.getFreeAddr_some hget).2 i

theorem give_maxChunks (fl : ℕ) (a : Value) (i : ℕ) :
    ((p.give fl a).freelist i).maxChunks = (p.freelist i).maxChunks :=
  maxChunks_update (FreeList.putFreeAddr_maxChunks a _) i

theorem borrow_maxChunks {curFl peerFl : ℕ} {a : Value} {f : FreeList}
    (hget : (p.freelist peerFl).getFreeAddr = some (a, f)) (i : ℕ) :
    ((p.borrow curFl peerFl a f).freelist i).maxChunks = (p.freelist i).maxChunks :=
  (give_maxChunks (p := p.take peerFl f) curFl a i).trans (take_maxChunks hget i)

/-! ### The pages of a new pool -/

/-- `start + j * SLOT_SIZE`. -/
def page (startAddr : Value) (j : ℕ) : Value := startAddr + j * SLOT_SIZE

theorem page_injective (startAddr : Value) : Function.Injective (page startAddr) := by
  intro i j h
  exact Nat.eq_of_mul_eq_mul_right (by decide : 0 < SLOT_SIZE) (Nat.add_left_cancel h)

theorem fill_addrs {addr : Value} {maxChunks : ℕ} : ∀ l : List ℕ, l.length ≤ maxChunks →
    l.foldr (fun j f => f.putFreeAddr (addr + j * SLOT_SIZE)) { maxChunks } =
      { maxChunks, addrs := l.map fun j => addr + j * SLOT_SIZE : FreeList } := by
  intro l
  induction l with
  | nil => intro _; rfl
  | cons j l ih =>
      intro hlen
      rw [List.length_cons] at hlen
      rw [List.foldr_cons, ih (Nat.le_of_succ_le hlen), FreeList.putFreeAddr,
        if_pos (by simpa using Nat.lt_of_succ_le hlen)]
      rfl

/-- The lists of a new pool are consecutive stretches of pages. -/
theorem new_addrs (startAddr : Value) (memPoolSize numClients perCliFl : ℕ) {i : ℕ}
    (hi : i < numClients * perCliFl) :
    ((new startAddr memPoolSize numClients perCliFl).freelist i).addrs =
      (List.range (memPoolSize / SLOT_SIZE / (numClients * perCliFl))).map fun j =>
        page startAddr (i * (memPoolSize / SLOT_SIZE / (numClients * perCliFl)) + j) := by
  have hle : memPoolSize / SLOT_SIZE / (numClients * perCliFl) ≤ memPoolSize / SLOT_SIZE :=
    Nat.div_le_self _ _
  simp only [new, if_pos hi, fill]
  rw [fill_addrs _ (by simpa using hle)]
  refine List.map_congr_left fun j _ => ?_
  simp only [page]
  ring

theorem new_maxChunks (startAddr : Value) (memPoolSize numClients perCliFl : ℕ) {i : ℕ}
    (hi : i < numClients * perCliFl) :
    ((new startAddr memPoolSize numClients perCliFl).freelist i).maxChunks =
      memPoolSize / SLOT_SIZE := by
  have hfill : ∀ (addr : Value) (l : List ℕ) (f : FreeList),
      (l.foldr (fun j f => f.putFreeAddr (addr + j * SLOT_SIZE)) f).maxChunks = f.maxChunks := by
    intro addr l f
    induction l with
    | nil => rfl
    | cons j l ih => rw [List.foldr_cons, FreeList.putFreeAddr_maxChunks, ih]
  simp only [new, if_pos hi, fill]
  exact hfill _ _ _

theorem new_count_le_one (startAddr : Value) (memPoolSize numClients perCliFl : ℕ) (x : Value) :
    (new startAddr memPoolSize numClients perCliFl).count x ≤ 1 := by
  set n := memPoolSize / SLOT_SIZE / (numClients * perCliFl) with hn
  have hnodup : ∀ i, ((List.range n).map fun j => page startAddr (i * n + j)).Nodup :=
    fun i => List.nodup_range.map fun a b h => Nat.add_left_cancel (page_injective startAddr h)
  refine Lib.sum_le_one (fun i hi => ?_) (fun i hi j hj hci hcj => ?_)
  · rw [new_addrs _ _ _ _ (Finset.mem_range.mp hi)]
    exact List.nodup_iff_count_le_one.mp (hnodup i) x
  · -- the number of a page tells the list it is on
    have hmem : ∀ i < numClients * perCliFl,
        ((new startAddr memPoolSize numClients perCliFl).freelist i).addrs.count x ≠ 0 →
        ∃ a < n, page startAddr (i * n + a) = x := by
      intro i hi hc
      rw [new_addrs _ _ _ _ hi] at hc
      obtain ⟨a, ha, hax⟩ := List.mem_map.mp (List.count_pos_iff.mp (Nat.pos_of_ne_zero hc))
      exact ⟨a, List.mem_range.mp ha, hax⟩
    obtain ⟨a, ha, hax⟩ := hmem i (Finset.mem_range.mp hi) hci
    obtain ⟨b, hb, hbx⟩ := hmem j (Finset.mem_range.mp hj) hcj
    have heq := page_injective startAddr (hax.trans hbx.symm)
    have hdiv : ∀ i a, a < n → (i * n + a) / n = i := by
      intro i a ha
      rw [Nat.mul_comm, Nat.mul_add_div (Nat.zero_lt_of_lt ha), Nat.div_eq_of_lt ha,
        Nat.add_zero]
    rw [← hdiv i a ha, heq, hdiv j b hb]

end Spec

end PerCPUPool

end CleancacheRdma.Daemon
