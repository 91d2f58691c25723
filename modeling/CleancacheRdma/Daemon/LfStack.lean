import Mathlib
import CleancacheRdma.Lib.Chain
import CleancacheRdma.Lib.Places
import CleancacheRdma.Lib.System

/-!
# The lock-free stack

Translated from `lfstack.{hpp,cpp}`. A load, a `compare_exchange` and an access
to a field of a node are one step each. Two lists exchange the nodes of one
buffer, so the node a thread has seen on top may be gone and back before its
exchange; the counter `aba` tells.
-/

namespace CleancacheRdma.Daemon

open Lib (System Chain)

namespace LockFreeStack

/-! ## The program -/

/-- The two lists. -/
inductive Side where
  | head
  | free
deriving DecidableEq

instance : Fintype Side where
  elems := {.head, .free}
  complete d := by cases d <;> decide

/-- `lfstack_head`. The word of `aba` is the count modulo `2 ^ 64`. -/
structure LfHead where
  aba : ℕ
  node : Option ℕ
deriving DecidableEq

/-- What `compare_exchange` compares. -/
def LfHead.word (h : LfHead) : BitVec 64 × Option ℕ := (BitVec.ofNat 64 h.aba, h.node)

/-- `stack_push` and `stack_pop`. -/
inductive Call where
  | push (value : BitVec 64)
  | pop
deriving DecidableEq

namespace Call

/-- The list a call takes its node from. -/
def source : Call → Side
  | push _ => .free
  | pop => .head

/-- The list it puts the node on. -/
def target : Call → Side
  | push _ => .head
  | pop => .free

end Call

/-- What a call returns. -/
inductive Ret where
  | push (code : ℤ)
  | pop (value : BitVec 64)
deriving DecidableEq

/-- No node was found. -/
def Call.failed : Call → Ret
  | .push _ => .push (-1)
  | .pop => .pop (-1)

def Call.done (value : BitVec 64) : Call → Ret
  | .push _ => .push 0
  | .pop => .pop value

/-- Where a thread is, with its local variables. From `access` on it has a
node; `value` is what it has written there or read. -/
inductive Pc where
  | idle (ret : Option Ret)
  | popLoad (c : Call)
  | popRead (c : Call) (orig : LfHead)
  | popCas (c : Call) (orig : LfHead) (node : ℕ) (nextNode : Option ℕ)
  | access (c : Call) (node : ℕ)
  | pushLoad (c : Call) (value : BitVec 64) (node : ℕ)
  | pushLink (c : Call) (value : BitVec 64) (node : ℕ) (orig : LfHead)
  | pushCas (c : Call) (value : BitVec 64) (node : ℕ) (orig : LfHead)
deriving DecidableEq

end LockFreeStack

open LockFreeStack

/-- The nodes, the two list heads and the threads. The rest is history: the
values in the order they came onto the list, what was returned, each with the
number of the push, and the number of the push that filled a node last. -/
structure LockFreeStack (ι : Type) where
  value : ℕ → BitVec 64
  next : ℕ → Option ℕ
  heads : Side → LfHead
  pc : ι → Pc
  serial : ℕ → ℕ
  pushed : List (ℕ × BitVec 64)
  popped : List (ℕ × BitVec 64)

namespace LockFreeStack

variable {ι : Type}

/-- The constructor: every node is on the free list. The buffer holds what was
in its memory. -/
def new (numElems : ℕ) (value : ℕ → BitVec 64) : LockFreeStack ι where
  value := value
  next i := if i < numElems - 1 then some (i + 1) else none
  heads
    | .head => ⟨0, none⟩
    | .free => ⟨0, some 0⟩
  pc _ := .idle none
  serial _ := 0
  pushed := []
  popped := []

variable [DecidableEq ι] (s : LockFreeStack ι)

def goto (i : ι) (pc : Pc) : LockFreeStack ι := { s with pc := Function.update s.pc i pc }

def setHead (d : Side) (h : LfHead) : LockFreeStack ι :=
  { s with heads := Function.update s.heads d h }

/-- The history of a call whose last exchange succeeds. -/
def record (c : Call) (value : BitVec 64) (node : ℕ) : LockFreeStack ι :=
  match c with
  | .push _ =>
      { s with
        serial := Function.update s.serial node s.pushed.length
        pushed := s.pushed ++ [(s.pushed.length, value)] }
  | .pop => { s with popped := (s.serial node, value) :: s.popped }

/-- A thread calls, or takes its next step; a weak exchange may fail although
the words agree. -/
inductive Event (ι : Type) where
  | call (i : ι) (c : Call)
  | run (i : ι) (spurious : Bool)

def step : Event ι → Option (LockFreeStack ι)
  | .call i c =>
      match s.pc i with
      | .idle _ => some (s.goto i (.popLoad c))
      | _ => none
  | .run i spurious =>
      match s.pc i with
      | .idle _ => none
      | .popLoad c => some (s.goto i (.popRead c (s.heads c.source)))
      | .popRead c orig =>
          match orig.node with
          | none => some (s.goto i (.idle (some c.failed)))
          | some node => some (s.goto i (.popCas c orig node (s.next node)))
      | .popCas c orig node nextNode =>
          if (s.heads c.source).word = orig.word ∧ spurious = false then
            some ((s.setHead c.source ⟨orig.aba + 1, nextNode⟩).goto i (.access c node))
          else some (s.goto i (.popRead c (s.heads c.source)))
      | .access (.push value) node =>
          some ({ s with value := Function.update s.value node value }.goto i
            (.pushLoad (.push value) value node))
      | .access .pop node => some (s.goto i (.pushLoad .pop (s.value node) node))
      | .pushLoad c value node => some (s.goto i (.pushLink c value node (s.heads c.target)))
      | .pushLink c value node orig =>
          some ({ s with next := Function.update s.next node orig.node }.goto i
            (.pushCas c value node orig))
      | .pushCas c value node orig =>
          if (s.heads c.target).word = orig.word ∧ spurious = false then
            some (((s.setHead c.target ⟨orig.aba + 1, some node⟩).record c value node).goto i
              (.idle (some (c.done value))))
          else some (s.goto i (.pushLink c value node (s.heads c.target)))

/-- The head that a thread compares with, and the list it belongs to. -/
def compares : Pc → Option (Side × LfHead)
  | .popCas c orig _ _ => some (c.source, orig)
  | .pushCas c _ _ orig => some (c.target, orig)
  | _ => none

def Event.thread : Event ι → ι
  | .call i _ => i
  | .run i _ => i

/-- `aba` has not wrapped since the thread has read the head. -/
def NoWrap (s : LockFreeStack ι) (e : Event ι) : Prop :=
  ∀ x ∈ compares (s.pc e.thread), (s.heads x.1).aba < x.2.aba + 2 ^ 64

instance (s : LockFreeStack ι) (e : Event ι) : Decidable (s.NoWrap e) :=
  Option.decidableForallMem (p := fun x : Side × LfHead => (s.heads x.1).aba < x.2.aba + 2 ^ 64)
    (compares (s.pc e.thread))

def lfStackSystem (ι : Type) [DecidableEq ι] (numElems : ℕ) (value : ℕ → BitVec 64) :
    System (LockFreeStack ι) (Event ι) where
  init s := s = new numElems value
  step := step

/-! ## Steps -/

/-- What a step of thread `i` does, with what it has seen before. -/
inductive Moves (i : ι) (s : LockFreeStack ι) : LockFreeStack ι → Prop where
  | call {r : Option Ret} {c : Call} : s.pc i = .idle r → Moves i s (s.goto i (.popLoad c))
  | popLoad {c : Call} :
      s.pc i = .popLoad c → Moves i s (s.goto i (.popRead c (s.heads c.source)))
  | popNull {c : Call} {orig : LfHead} : s.pc i = .popRead c orig → orig.node = none →
      Moves i s (s.goto i (.idle (some c.failed)))
  | popRead {c : Call} {orig : LfHead} {x : ℕ} : s.pc i = .popRead c orig → orig.node = some x →
      Moves i s (s.goto i (.popCas c orig x (s.next x)))
  | popDone {c : Call} {orig : LfHead} {x : ℕ} {n : Option ℕ} : s.pc i = .popCas c orig x n →
      (s.heads c.source).word = orig.word →
      Moves i s ((s.setHead c.source ⟨orig.aba + 1, n⟩).goto i (.access c x))
  | popRetry {c : Call} {orig : LfHead} {x : ℕ} {n : Option ℕ} : s.pc i = .popCas c orig x n →
      Moves i s (s.goto i (.popRead c (s.heads c.source)))
  | write {v : BitVec 64} {x : ℕ} : s.pc i = .access (.push v) x →
      Moves i s ({ s with value := Function.update s.value x v }.goto i
        (.pushLoad (.push v) v x))
  | read {x : ℕ} : s.pc i = .access .pop x →
      Moves i s (s.goto i (.pushLoad .pop (s.value x) x))
  | pushLoad {c : Call} {v : BitVec 64} {x : ℕ} : s.pc i = .pushLoad c v x →
      Moves i s (s.goto i (.pushLink c v x (s.heads c.target)))
  | pushLink {c : Call} {v : BitVec 64} {x : ℕ} {orig : LfHead} : s.pc i = .pushLink c v x orig →
      Moves i s ({ s with next := Function.update s.next x orig.node }.goto i
        (.pushCas c v x orig))
  | pushDone {c : Call} {v : BitVec 64} {x : ℕ} {orig : LfHead} : s.pc i = .pushCas c v x orig →
      (s.heads c.target).word = orig.word →
      Moves i s (((s.setHead c.target ⟨orig.aba + 1, some x⟩).record c v x).goto i
        (.idle (some (c.done v))))
  | pushRetry {c : Call} {v : BitVec 64} {x : ℕ} {orig : LfHead} : s.pc i = .pushCas c v x orig →
      Moves i s (s.goto i (.pushLink c v x (s.heads c.target)))

variable {s} {s' : LockFreeStack ι}

theorem step_moves {e : Event ι} (h : s.step e = some s') : Moves e.thread s s' := by
  cases e with
  | call i c =>
      simp only [step] at h
      split at h
      next r hpc =>
        cases h
        exact .call hpc
      · cases h
  | run i spurious =>
      cases hpc : s.pc i with
      | idle r => simp [step, hpc] at h
      | popLoad c =>
          simp only [step, hpc, Option.some.injEq] at h
          subst h
          exact .popLoad hpc
      | popRead c orig =>
          cases hnode : orig.node with
          | none =>
              simp only [step, hpc, hnode, Option.some.injEq] at h
              subst h
              exact .popNull hpc hnode
          | some x =>
              simp only [step, hpc, hnode, Option.some.injEq] at h
              subst h
              exact .popRead hpc hnode
      | popCas c orig x n =>
          simp only [step, hpc] at h
          split at h
          next hcas =>
            cases h
            exact .popDone hpc hcas.1
          next =>
            cases h
            exact .popRetry hpc
      | access c x =>
          cases c with
          | push v =>
              simp only [step, hpc, Option.some.injEq] at h
              subst h
              exact .write hpc
          | pop =>
              simp only [step, hpc, Option.some.injEq] at h
              subst h
              exact .read hpc
      | pushLoad c v x =>
          simp only [step, hpc, Option.some.injEq] at h
          subst h
          exact .pushLoad hpc
      | pushLink c v x orig =>
          simp only [step, hpc, Option.some.injEq] at h
          subst h
          exact .pushLink hpc
      | pushCas c v x orig =>
          simp only [step, hpc] at h
          split at h
          next hcas =>
            cases h
            exact .pushDone hpc hcas.1
          next =>
            cases h
            exact .pushRetry hpc

/-! ## The invariant -/

/-- The node in the hands of a thread. -/
def Pc.hand : Pc → Multiset ℕ
  | .access _ x => {x}
  | .pushLoad _ _ x => {x}
  | .pushLink _ _ x _ => {x}
  | .pushCas _ _ x _ => {x}
  | _ => 0

def Pc.call? : Pc → Option Call
  | .idle _ => none
  | .popLoad c => some c
  | .popRead c _ => some c
  | .popCas c _ _ _ => some c
  | .access c _ => some c
  | .pushLoad c _ _ => some c
  | .pushLink c _ _ _ => some c
  | .pushCas c _ _ _ => some c

/-- The node whose value a pop in progress has taken. -/
def Pc.held (pc : Pc) : Multiset ℕ := if pc.call? = some .pop then pc.hand else 0

/-- The head that was read is older than the current one, or it is that. -/
def Fresh (cur orig : LfHead) : Prop :=
  orig.aba ≤ cur.aba ∧ (orig.aba = cur.aba → orig = cur)

/-- What the local variables of a thread say about the nodes and the heads. -/
def Knows (s : LockFreeStack ι) : Pc → Prop
  | .popRead c orig => Fresh (s.heads c.source) orig
  | .popCas c orig x n => orig.node = some x ∧ Fresh (s.heads c.source) orig ∧
      (orig.aba = (s.heads c.source).aba → s.next x = n)
  | .pushLoad _ v x => s.value x = v
  | .pushLink c v x orig => s.value x = v ∧ Fresh (s.heads c.target) orig
  | .pushCas c v x orig => s.value x = v ∧ Fresh (s.heads c.target) orig ∧ s.next x = orig.node
  | _ => True

/-- The value of a node and the number of its push. -/
def item (s : LockFreeStack ι) (x : ℕ) : ℕ × BitVec 64 := (s.serial x, s.value x)

section Lists

variable {ι : Type} [Fintype ι] {s t : LockFreeStack ι} {n : ℕ} {L : Side → List ℕ} {i j : ι} {x : ℕ}

/-- The nodes with a value that was pushed and not returned. -/
def live (s : LockFreeStack ι) (l : List ℕ) : Multiset ℕ := l + ∑ i, (s.pc i).held

/-- `L` are the nodes of the two lists. -/
structure Inv (numElems : ℕ) (s : LockFreeStack ι) (L : Side → List ℕ) : Prop where
  chain : ∀ d, Chain s.next (s.heads d).node (L d)
  nodes : ∑ d, (L d : Multiset ℕ) + ∑ i, (s.pc i).hand = Multiset.range numElems
  knows : ∀ i, s.Knows (s.pc i)
  items : (s.popped : Multiset (ℕ × BitVec 64)) + (s.live (L .head)).map s.item = s.pushed
  serials : s.pushed.map Prod.fst = List.range s.pushed.length

/-! ## Every node is in one place -/

theorem Inv.nodup (h : s.Inv n L) :
    (∑ d, (L d : Multiset ℕ) + ∑ i, (s.pc i).hand).Nodup := by
  rw [h.nodes]
  exact Multiset.nodup_range n

/-- A node in the hands of a thread is on no list. -/
theorem Inv.not_listed (h : s.Inv n L) (hx : x ∈ (s.pc i).hand) (d : Side) : x ∉ L d := by
  intro hd
  have hlisted : x ∈ ∑ d, (L d : Multiset ℕ) :=
    Multiset.mem_sum.mpr ⟨d, Finset.mem_univ d, hd⟩
  have hheld : x ∈ ∑ i, (s.pc i).hand := Multiset.mem_sum.mpr ⟨i, Finset.mem_univ i, hx⟩
  exact Multiset.disjoint_left.mp (Multiset.nodup_add.mp h.nodup).2.2 hlisted hheld

theorem Inv.one_hand (h : s.Inv n L) (hi : x ∈ (s.pc i).hand) (hj : x ∈ (s.pc j).hand) : i = j :=
  Lib.eq_of_mem_sum (Multiset.nodup_add.mp h.nodup).2.1 (Finset.mem_univ i) (Finset.mem_univ j)
    hi hj

theorem Pc.held_le (pc : Pc) : pc.held ≤ pc.hand := by
  unfold held
  split
  · exact le_refl _
  · exact Multiset.zero_le _

theorem Pc.held_of_hand {pc : Pc} (h : pc.hand = 0) : pc.held = 0 :=
  Multiset.le_zero.mp (h ▸ held_le pc)

theorem Pc.held_of_push {pc : Pc} {v : BitVec 64} (h : pc.call? = some (.push v)) : pc.held = 0 := by
  rw [held, h]
  exact if_neg nofun

/-- The values of a node that a push holds are nobody's yet. -/
theorem Inv.not_live (h : s.Inv n L) (hx : x ∈ (s.pc i).hand) (hheld : (s.pc i).held = 0) :
    x ∉ s.live (L .head) := by
  intro hlive
  rcases Multiset.mem_add.mp hlive with hl | hsum
  · exact h.not_listed hx .head hl
  · obtain ⟨j, -, hj⟩ := Multiset.mem_sum.mp hsum
    obtain rfl := h.one_hand hx (Multiset.mem_of_le (Pc.held_le _) hj)
    rw [hheld] at hj
    exact Multiset.notMem_zero _ hj

/-! ## What the threads know -/

theorem Fresh.mono {cur cur' orig : LfHead} (h : Fresh cur orig)
    (hcur : cur' = cur ∨ cur.aba < cur'.aba) : Fresh cur' orig := by
  rcases hcur with rfl | hlt
  · exact h
  · have hle := h.1
    exact ⟨by omega, fun he => by omega⟩

/-- What one thread knows outlives the steps of the others: they write nodes in
their own hands only, and change a head together with its counter. -/
theorem Inv.knows_of_ne (h : s.Inv n L) (hij : j ≠ i)
    (hheads : ∀ d, t.heads d = s.heads d ∨ (s.heads d).aba < (t.heads d).aba)
    (hnext : ∀ x ∉ (s.pc i).hand, t.next x = s.next x)
    (hvalue : ∀ x ∉ (s.pc i).hand, t.value x = s.value x) : t.Knows (s.pc j) := by
  have hk := h.knows j
  have hother : ∀ x ∈ (s.pc j).hand, x ∉ (s.pc i).hand := fun x hj hi => hij (h.one_hand hj hi)
  cases hpc : s.pc j with
  | idle _ => trivial
  | popLoad _ => trivial
  | access _ _ => trivial
  | popRead c orig =>
      rw [hpc] at hk
      exact Fresh.mono hk (hheads c.source)
  | popCas c orig x n =>
      rw [hpc] at hk
      obtain ⟨hnode, hfresh, hn⟩ := hk
      refine ⟨hnode, hfresh.mono (hheads c.source), fun he => ?_⟩
      rcases hheads c.source with hsame | hlt
      · rw [hsame] at he
        have hcur : (s.heads c.source).node = some x := by
          rw [← hfresh.2 he]
          exact hnode
        -- the node on top is in nobody's hands
        have hchain := h.chain c.source
        rw [hcur] at hchain
        obtain ⟨l, hl, -⟩ := hchain.head
        have hmem : x ∈ L c.source := by
          rw [hl]
          exact List.mem_cons_self
        rw [hnext x fun hx => h.not_listed hx c.source hmem]
        exact hn he
      · have hle := hfresh.1
        omega
  | pushLoad c v x =>
      rw [hpc] at hk hother
      exact (hvalue x (hother x (Multiset.mem_singleton_self x))).trans hk
  | pushLink c v x orig =>
      rw [hpc] at hk hother
      exact ⟨(hvalue x (hother x (Multiset.mem_singleton_self x))).trans hk.1,
        hk.2.mono (hheads c.target)⟩
  | pushCas c v x orig =>
      rw [hpc] at hk hother
      have hx := hother x (Multiset.mem_singleton_self x)
      exact ⟨(hvalue x hx).trans hk.1, hk.2.1.mono (hheads c.target), (hnext x hx).trans hk.2.2⟩

/-! ## The start -/

/-- The nodes from `i` on are linked in the order of the buffer. -/
theorem new_chain {numElems : ℕ} (k i : ℕ) (hk : i + k + 1 = numElems) :
    Chain (fun i => if i < numElems - 1 then some (i + 1) else none) (some i)
      (List.range' i (k + 1)) := by
  induction k generalizing i with
  | zero =>
      refine .cons ?_
      rw [if_neg (by omega)]
      exact .nil
  | succ k ih =>
      rw [List.range'_succ]
      refine .cons ?_
      rw [if_pos (by omega)]
      exact ih (i + 1) (by omega)

theorem sum_lists (L : Side → List ℕ) :
    ∑ d, (L d : Multiset ℕ) = (L .head : Multiset ℕ) + (L .free : Multiset ℕ) :=
  Finset.sum_pair (by decide)

theorem new_inv {numElems : ℕ} (hn : 1 ≤ numElems) (value : ℕ → BitVec 64) :
    ∃ L, (new (ι := ι) numElems value).Inv numElems L := by
  obtain ⟨k, rfl⟩ := Nat.exists_eq_add_of_le' hn
  refine ⟨fun | .head => [] | .free => List.range' 0 (k + 1), fun d => ?_, ?_, fun i => trivial, ?_,
    rfl⟩
  · cases d with
    | head => exact .nil
    | free => exact new_chain k 0 (by omega)
  · rw [sum_lists, ← List.range_eq_range']
    have hempty : ∑ i : ι, ((new (ι := ι) (k + 1) value).pc i).hand = 0 :=
      Finset.sum_eq_zero fun _ _ => rfl
    rw [hempty]
    exact (add_zero _).trans (zero_add _)
  · have hempty : ∑ i : ι, ((new (ι := ι) (k + 1) value).pc i).held = 0 :=
      Finset.sum_eq_zero fun _ _ => rfl
    unfold live
    rw [hempty]
    rfl

/-! ## What is conserved -/

/-- The values that a pop in progress has taken. -/
def holds (s : LockFreeStack ι) : Pc → Multiset (BitVec 64)
  | .access .pop x => {s.value x}
  | .pushLoad .pop v _ => {v}
  | .pushLink .pop v _ _ => {v}
  | .pushCas .pop v _ _ => {v}
  | _ => 0

/-- `H` and `F` are the nodes of the list and of the free list. Every node of
the buffer is on one of them or in the hands of one thread, no push is returned
twice, and the values on the list are those pushed and not taken. -/
structure Conserves (numElems : ℕ) (s : LockFreeStack ι) (H F : List ℕ) : Prop where
  head : Chain s.next (s.heads .head).node H
  free : Chain s.next (s.heads .free).node F
  acyclic : H.Nodup ∧ F.Nodup
  nodes : (H : Multiset ℕ) + F + ∑ i, (s.pc i).hand = Multiset.range numElems
  numbered : s.pushed.map Prod.fst = List.range s.pushed.length
  returned : s.popped ⊆ s.pushed
  once : (s.popped.map Prod.fst).Nodup
  values : (s.popped.map Prod.snd : Multiset (BitVec 64)) + (H.map s.value : Multiset (BitVec 64)) +
    ∑ i, s.holds (s.pc i) = s.pushed.map Prod.snd

theorem Knows.holds {ι : Type} {s : LockFreeStack ι} {pc : Pc} (h : s.Knows pc) :
    pc.held.map s.value = s.holds pc := by
  cases pc with
  | idle r => rfl
  | popLoad c => rw [Pc.held_of_hand rfl]; rfl
  | popRead c orig => rw [Pc.held_of_hand rfl]; rfl
  | popCas c orig x n => rw [Pc.held_of_hand rfl]; rfl
  | access c x =>
      cases c with
      | push w => rw [Pc.held_of_push rfl]; rfl
      | pop => rfl
  | pushLoad c v x =>
      cases c with
      | push w => rw [Pc.held_of_push rfl]; rfl
      | pop => exact congrArg (fun v => ({v} : Multiset (BitVec 64))) h
  | pushLink c v x orig =>
      cases c with
      | push w => rw [Pc.held_of_push rfl]; rfl
      | pop => exact congrArg (fun v => ({v} : Multiset (BitVec 64))) h.1
  | pushCas c v x orig =>
      cases c with
      | push w => rw [Pc.held_of_push rfl]; rfl
      | pop => exact congrArg (fun v => ({v} : Multiset (BitVec 64))) h.1

theorem Inv.conserves (h : s.Inv n L) : s.Conserves n (L .head) (L .free) where
  head := h.chain .head
  free := h.chain .free
  acyclic := ⟨(h.chain .head).nodup, (h.chain .free).nodup⟩
  nodes := by
    rw [← sum_lists]
    exact h.nodes
  numbered := h.serials
  returned p hp := by
    have hmem : p ∈ (s.pushed : Multiset (ℕ × BitVec 64)) := by
      rw [← h.items]
      exact Multiset.mem_add.mpr (Or.inl hp)
    exact hmem
  once := by
    have hle := Multiset.map_le_map (f := Prod.fst) (h.items ▸ Multiset.le_add_right _ _ :
      (s.popped : Multiset (ℕ × BitVec 64)) ≤ s.pushed)
    rw [Multiset.map_coe, Multiset.map_coe, h.serials] at hle
    exact Multiset.coe_nodup.mp
      (Multiset.nodup_of_le hle (Multiset.coe_nodup.mpr List.nodup_range))
  values := by
    have hitems := congrArg (Multiset.map Prod.snd) h.items
    have hheld : (∑ i, (s.pc i).held).map s.value = ∑ i, s.holds (s.pc i) := by
      refine (map_sum (Multiset.mapAddMonoidHom s.value) _ _).trans ?_
      exact Finset.sum_congr rfl fun i _ => (h.knows i).holds
    have hsnd : Prod.snd ∘ s.item = s.value := rfl
    rw [Multiset.map_add, Multiset.map_map, hsnd, live, Multiset.map_add, hheld, ← add_assoc,
      Multiset.map_coe, Multiset.map_coe, Multiset.map_coe] at hitems
    exact hitems

end Lists

variable [Fintype ι] {n : ℕ} {L L' : Side → List ℕ} {t : LockFreeStack ι} {i j : ι} {x : ℕ} {pc : Pc}

theorem goto_hand (pc : Pc) :
    ∑ j, ((s.goto i pc).pc j).hand + (s.pc i).hand = ∑ j, (s.pc j).hand + pc.hand :=
  Lib.sum_update (Finset.mem_univ i) Pc.hand s.pc pc

theorem goto_live (pc : Pc) (l l' : List ℕ) :
    (s.goto i pc).live l' + ((s.pc i).held + l) = s.live l + (pc.held + l') := by
  have hsum := Lib.sum_update (Finset.mem_univ i) Pc.held s.pc pc
  calc (s.goto i pc).live l' + ((s.pc i).held + l)
      = (l' + l : Multiset ℕ) + (∑ j, (Function.update s.pc i pc j).held + (s.pc i).held) := by
        unfold live goto
        abel
    _ = s.live l + (pc.held + l') := by
        rw [hsum]
        unfold live
        abel

/-! ## One step -/

/-- A step of thread `i` that writes `t` and goes on at `pc`. -/
theorem Inv.of_goto (h : s.Inv n L) (hpcs : t.pc = s.pc)
    (hchain : ∀ d, Chain t.next (t.heads d).node (L' d))
    (hheads : ∀ d, t.heads d = s.heads d ∨ (s.heads d).aba < (t.heads d).aba)
    (hnext : ∀ x ∉ (s.pc i).hand, t.next x = s.next x)
    (hvalue : ∀ x ∉ (s.pc i).hand, t.value x = s.value x)
    (hnodes : ∑ d, (L' d : Multiset ℕ) + pc.hand = ∑ d, (L d : Multiset ℕ) + (s.pc i).hand)
    (hknows : t.Knows pc)
    (hitems : (t.popped : Multiset (ℕ × BitVec 64)) +
      ((t.goto i pc).live (L' .head)).map t.item = t.pushed)
    (hserials : t.pushed.map Prod.fst = List.range t.pushed.length) :
    (t.goto i pc).Inv n L' where
  chain := hchain
  nodes := by
    have hsum := goto_hand (s := t) (i := i) pc
    rw [hpcs] at hsum
    refine add_right_cancel (b := (s.pc i).hand) ?_
    calc ∑ d, (L' d : Multiset ℕ) + ∑ j, ((t.goto i pc).pc j).hand + (s.pc i).hand
        = ∑ d, (L' d : Multiset ℕ) + pc.hand + ∑ j, (s.pc j).hand := by
          rw [add_assoc, hsum]
          abel
      _ = Multiset.range n + (s.pc i).hand := by
          rw [hnodes, ← h.nodes]
          abel
  knows j := by
    by_cases hj : j = i
    · subst hj
      show Knows t (Function.update t.pc j pc j)
      rw [Function.update_self]
      exact hknows
    · show Knows t (Function.update t.pc i pc j)
      rw [Function.update_of_ne hj, hpcs]
      exact h.knows_of_ne hj hheads hnext hvalue
  items := hitems
  serials := hserials

theorem goto_live_same (hheld : pc.held = (s.pc i).held) (l : List ℕ) :
    (s.goto i pc).live l = s.live l := by
  have hlive := goto_live (s := s) (i := i) pc l l
  rw [hheld] at hlive
  exact add_right_cancel hlive

/-- A step that writes the thread's own variables only. -/
theorem Inv.goto (h : s.Inv n L) (hhand : pc.hand = (s.pc i).hand)
    (hheld : pc.held = (s.pc i).held) (hknows : s.Knows pc) : (s.goto i pc).Inv n L := by
  refine h.of_goto rfl h.chain (fun _ => Or.inl rfl) (fun _ _ => rfl) (fun _ _ => rfl) ?_ hknows ?_
    h.serials
  · rw [hhand]
  · rw [goto_live_same hheld]
    exact h.items

/-- A step between two reads, without a node. -/
theorem Inv.goto_empty (h : s.Inv n L) (hbefore : (s.pc i).hand = 0) (hafter : pc.hand = 0)
    (hknows : s.Knows pc) : (s.goto i pc).Inv n L := by
  refine h.goto (hafter.trans hbefore.symm) ?_ hknows
  rw [Pc.held_of_hand hbefore, Pc.held_of_hand hafter]

theorem Fresh.refl (cur : LfHead) : Fresh cur cur := ⟨Nat.le_refl _, fun _ => rfl⟩

/-- An exchange that succeeds finds the head that was read. -/
theorem Fresh.eq_of_word {cur orig : LfHead} (h : Fresh cur orig)
    (hwrap : cur.aba < orig.aba + 2 ^ 64) (hword : cur.word = orig.word) : orig = cur := by
  have haba := congrArg (fun w => w.1.toNat) hword
  simp only [LfHead.word, BitVec.toNat_ofNat] at haba
  have hle := h.1
  exact h.2 (by omega)

/-- A step of thread `i` leaves the other head alone. -/
theorem setHead_aba {ι : Type} {s : LockFreeStack ι} (d : Side) {h : LfHead}
    (hlt : (s.heads d).aba < h.aba) (d' : Side) :
    (s.setHead d h).heads d' = s.heads d' ∨
      (s.heads d').aba < ((s.setHead d h).heads d').aba := by
  by_cases hd : d' = d
  · subst hd
    right
    show _ < (Function.update s.heads d' h d').aba
    rw [Function.update_self]
    exact hlt
  · left
    exact Function.update_of_ne hd _ _

theorem setHead_chain {ι : Type} {s : LockFreeStack ι} {L : Side → List ℕ} {h : LfHead} {l : List ℕ}
    {d : Side} (hchain : ∀ d, Chain s.next (s.heads d).node (L d)) (hd : Chain s.next h.node l)
    (d' : Side) : Chain s.next ((s.setHead d h).heads d').node (Function.update L d l d') := by
  by_cases hne : d' = d
  · subst hne
    simp only [setHead, Function.update_self]
    exact hd
  · simp only [setHead, Function.update_of_ne hne]
    exact hchain d'

theorem sum_pop {d : Side} {l : List ℕ} (hl : L d = x :: l) :
    ∑ d', (Function.update L d l d' : Multiset ℕ) + {x} = ∑ d, (L d : Multiset ℕ) := by
  have hsum := Lib.sum_update (Finset.mem_univ d) (fun l : List ℕ => (l : Multiset ℕ)) L l
  rw [hl, ← Multiset.cons_coe, ← Multiset.singleton_add, ← add_assoc] at hsum
  exact add_right_cancel hsum

theorem sum_push (d : Side) :
    ∑ d', (Function.update L d (x :: L d) d' : Multiset ℕ) = ∑ d, (L d : Multiset ℕ) + {x} := by
  have hsum := Lib.sum_update (Finset.mem_univ d) (fun l : List ℕ => (l : Multiset ℕ)) L (x :: L d)
  rw [← Multiset.cons_coe, ← Multiset.singleton_add, ← add_assoc] at hsum
  exact add_right_cancel hsum

/-- The value of a node that is popped stays the value of a push that has not
been returned. -/
theorem live_pop {c : Call} {l : List ℕ} (hl : L c.source = x :: l) (hhand : (s.pc i).hand = 0) :
    (s.goto i (.access c x)).live (Function.update L c.source l .head) = s.live (L .head) := by
  have hheld : (s.pc i).held = 0 := Pc.held_of_hand hhand
  cases c with
  | push v =>
      have hother : Function.update L (Call.push v).source l .head = L .head :=
        Function.update_of_ne (show Side.head ≠ .free by decide) _ _
      have hnone : (Pc.access (.push v) x).held = 0 := Pc.held_of_push rfl
      rw [hother]
      exact goto_live_same (hnone.trans hheld.symm) _
  | pop =>
      have hlive := goto_live (s := s) (i := i) (.access .pop x) (L .head) l
      have hself : Function.update L Call.pop.source l .head = l := Function.update_self _ _ _
      have hhead : L .head = x :: l := hl
      have hx : (Pc.access .pop x).held = {x} := rfl
      rw [hheld, zero_add, hx, hhead, Multiset.singleton_add, Multiset.cons_coe] at hlive
      rw [hself, hhead]
      exact add_right_cancel hlive

/-! ## The exchanges -/

/-- The node on top comes into the hands of the thread. -/
theorem Inv.popDone (h : s.Inv n L) {c : Call} {orig : LfHead} {nx : Option ℕ}
    (hpc : s.pc i = .popCas c orig x nx) (hcur : orig = s.heads c.source) :
    ∃ L', ((s.setHead c.source ⟨orig.aba + 1, nx⟩).goto i (.access c x)).Inv n L' := by
  have hk := h.knows i
  rw [hpc] at hk
  obtain ⟨hnode, -, hnext⟩ := hk
  have hnx := hnext (congrArg LfHead.aba hcur)
  have hchain := h.chain c.source
  rw [← hcur, hnode] at hchain
  obtain ⟨l, hl, hrest⟩ := hchain.head
  have hhand : (s.pc i).hand = 0 := by
    rw [hpc]
    rfl
  refine ⟨Function.update L c.source l, h.of_goto rfl ?_
    (setHead_aba c.source (by rw [← hcur]; exact Nat.lt_succ_self _)) (fun _ _ => rfl)
    (fun _ _ => rfl) ?_ trivial ?_ h.serials⟩
  · apply setHead_chain h.chain
    rw [← hnx]
    exact hrest
  · rw [hhand, add_zero]
    exact sum_pop hl
  · have hlive := live_pop hl hhand
    change (s.popped : Multiset (ℕ × BitVec 64)) + ((s.goto i (.access c x)).live _).map s.item = _
    rw [hlive]
    exact h.items

theorem Inv.write (h : s.Inv n L) {v : BitVec 64} (hpc : s.pc i = .access (.push v) x) :
    ({ s with value := Function.update s.value x v }.goto i (.pushLoad (.push v) v x)).Inv n L := by
  have hx : x ∈ (s.pc i).hand := by
    rw [hpc]
    exact Multiset.mem_singleton_self x
  have hbefore : (s.pc i).held = 0 := by
    rw [hpc]
    exact Pc.held_of_push rfl
  have hafter : (Pc.pushLoad (.push v) v x).held = 0 := Pc.held_of_push rfl
  refine h.of_goto rfl h.chain (fun _ => Or.inl rfl) (fun _ _ => rfl) (fun y hy => ?_) ?_ ?_ ?_
    h.serials
  · refine Function.update_of_ne (fun he => hy ?_) _ _
    rwa [he]
  · rw [hpc]
    rfl
  · exact Function.update_self x v s.value
  · rw [← h.items]
    have hlive := goto_live_same (hafter.trans hbefore.symm) (L .head)
    change _ + ((s.goto i _).live _).map _ = _
    rw [hlive]
    congr 1
    refine Multiset.map_congr rfl fun y hy => ?_
    have hne : y ≠ x := by
      rintro rfl
      exact h.not_live hx hbefore hy
    exact congrArg (Prod.mk _) (Function.update_of_ne hne _ _)

theorem Inv.pushLink (h : s.Inv n L) {c : Call} {v : BitVec 64} {orig : LfHead}
    (hpc : s.pc i = .pushLink c v x orig) :
    ({ s with next := Function.update s.next x orig.node }.goto i (.pushCas c v x orig)).Inv n
      L := by
  have hk := h.knows i
  rw [hpc] at hk
  have hx : x ∈ (s.pc i).hand := by
    rw [hpc]
    exact Multiset.mem_singleton_self x
  refine h.of_goto rfl (fun d => (h.chain d).update (h.not_listed hx d) _) (fun _ => Or.inl rfl)
    (fun y hy => ?_) (fun _ _ => rfl) ?_ ?_ ?_ h.serials
  · refine Function.update_of_ne (fun he => hy ?_) _ _
    rwa [he]
  · rw [hpc]
    rfl
  · exact ⟨hk.1, hk.2, Function.update_self x _ s.next⟩
  · have hheld : (Pc.pushCas c v x orig).held = (s.pc i).held := by
      rw [hpc]
      rfl
    have hlive := goto_live_same hheld (L .head)
    change _ + ((s.goto i _).live _).map s.item = _
    rw [hlive]
    exact h.items

/-- The node comes onto the list, a value with it if it is `head`; a pop has
returned it to `free`. -/
theorem Inv.pushDone (h : s.Inv n L) {c : Call} {v : BitVec 64} {orig : LfHead}
    (hpc : s.pc i = .pushCas c v x orig) (hcur : orig = s.heads c.target) :
    ∃ L', (((s.setHead c.target ⟨orig.aba + 1, some x⟩).record c v x).goto i
      (.idle (some (c.done v)))).Inv n L' := by
  have hk := h.knows i
  rw [hpc] at hk
  obtain ⟨hv, -, hnext⟩ := hk
  have hx : x ∈ (s.pc i).hand := by
    rw [hpc]
    exact Multiset.mem_singleton_self x
  have hchain : Chain s.next (some x) (x :: L c.target) := by
    refine .cons ?_
    rw [hnext, hcur]
    exact h.chain c.target
  have hheads := setHead_aba c.target (h := ⟨orig.aba + 1, some x⟩)
    (by rw [← hcur]; exact Nat.lt_succ_self _)
  have hnodes : ∑ d, (Function.update L c.target (x :: L c.target) d : Multiset ℕ) +
      (Pc.idle (some (c.done v))).hand = ∑ d, (L d : Multiset ℕ) + (s.pc i).hand := by
    rw [hpc, sum_push]
    exact add_zero _
  refine ⟨Function.update L c.target (x :: L c.target), ?_⟩
  cases c with
  | push w =>
      have hbefore : (s.pc i).held = 0 := by
        rw [hpc]
        exact Pc.held_of_push rfl
      have hlive := goto_live (s := s) (i := i) (.idle (some (.push 0))) (L .head) (x :: L .head)
      have hafter : (Pc.idle (some (.push 0))).held = 0 := rfl
      have hself : Function.update L (Call.push w).target (x :: L .head) .head = x :: L .head :=
        Function.update_self _ _ _
      rw [hbefore, hafter, zero_add, zero_add, ← Multiset.cons_coe, ← Multiset.singleton_add,
        ← add_assoc] at hlive
      refine h.of_goto rfl (setHead_chain h.chain hchain) hheads (fun _ _ => rfl) (fun _ _ => rfl)
        hnodes trivial ?_ ?_
      · change (s.popped : Multiset (ℕ × BitVec 64)) + ((s.goto i (.idle (some (.push 0)))).live
          (Function.update L (Call.push w).target (x :: L .head) .head)).map
            (fun y => (Function.update s.serial x s.pushed.length y, s.value y)) =
          ↑(s.pushed ++ [(s.pushed.length, v)])
        have hrest : (s.live (L .head)).map
            (fun y => (Function.update s.serial x s.pushed.length y, s.value y)) =
            (s.live (L .head)).map s.item := by
          refine Multiset.map_congr rfl fun y hy => ?_
          have hne : y ≠ x := by
            rintro rfl
            exact h.not_live hx hbefore hy
          rw [Function.update_of_ne hne]
          rfl
        rw [hself, add_right_cancel hlive, Multiset.map_add, hrest, ← add_assoc, h.items,
          Multiset.map_singleton, Function.update_self, hv]
        rfl
      · change (s.pushed ++ [(s.pushed.length, v)]).map Prod.fst =
          List.range (s.pushed ++ [(s.pushed.length, v)]).length
        rw [List.map_append, h.serials, List.length_append, List.length_singleton,
          List.range_succ]
        rfl
  | pop =>
      have hheld : (s.pc i).held = {x} := by
        rw [hpc]
        rfl
      have hlive := goto_live (s := s) (i := i) (.idle (some (.pop v))) (L .head) (L .head)
      have hafter : (Pc.idle (some (.pop v))).held = 0 := rfl
      have hother : Function.update L Call.pop.target (x :: L .free) .head = L .head :=
        Function.update_of_ne (by decide) _ _
      rw [hheld, hafter, zero_add, ← add_assoc] at hlive
      refine h.of_goto rfl (setHead_chain h.chain hchain) hheads (fun _ _ => rfl) (fun _ _ => rfl)
        hnodes trivial ?_ h.serials
      change (((s.serial x, v) :: s.popped : List (ℕ × BitVec 64)) : Multiset (ℕ × BitVec 64)) +
        ((s.goto i (.idle (some (.pop v)))).live
          (Function.update L Call.pop.target (x :: L .free) .head)).map s.item = s.pushed
      have hitem : s.item x = (s.serial x, v) := congrArg (Prod.mk _) hv
      rw [hother, ← h.items, ← add_right_cancel hlive, Multiset.map_add, Multiset.map_singleton,
        hitem, ← Multiset.cons_coe, ← Multiset.singleton_add]
      abel

/-! ## Every run -/

theorem Inv.step (h : s.Inv n L) {e : Event ι} (hwrap : s.NoWrap e) (hstep : s.step e = some s') :
    ∃ L', s'.Inv n L' := by
  have hmoves := step_moves hstep
  have hk := h.knows e.thread
  unfold NoWrap at hwrap
  generalize e.thread = i at hmoves hk hwrap
  cases hmoves with
  | call hpc => exact ⟨L, h.goto_empty (by rw [hpc]; rfl) rfl trivial⟩
  | popLoad hpc => exact ⟨L, h.goto_empty (by rw [hpc]; rfl) rfl (Fresh.refl _)⟩
  | popNull hpc _ => exact ⟨L, h.goto_empty (by rw [hpc]; rfl) rfl trivial⟩
  | popRead hpc hnode =>
      rw [hpc] at hk
      exact ⟨L, h.goto_empty (by rw [hpc]; rfl) rfl ⟨hnode, hk, fun _ => rfl⟩⟩
  | popDone hpc hword =>
      rw [hpc] at hk hwrap
      exact h.popDone hpc (hk.2.1.eq_of_word (hwrap _ rfl) hword)
  | popRetry hpc => exact ⟨L, h.goto_empty (by rw [hpc]; rfl) rfl (Fresh.refl _)⟩
  | write hpc => exact ⟨L, h.write hpc⟩
  | read hpc => exact ⟨L, h.goto (by rw [hpc]; rfl) (by rw [hpc]; rfl) rfl⟩
  | pushLoad hpc =>
      rw [hpc] at hk
      exact ⟨L, h.goto (by rw [hpc]; rfl) (by rw [hpc]; rfl) ⟨hk, Fresh.refl _⟩⟩
  | pushLink hpc => exact ⟨L, h.pushLink hpc⟩
  | pushDone hpc hword =>
      rw [hpc] at hk hwrap
      exact h.pushDone hpc (hk.2.1.eq_of_word (hwrap _ rfl) hword)
  | pushRetry hpc =>
      rw [hpc] at hk
      exact ⟨L, h.goto (by rw [hpc]; rfl) (by rw [hpc]; rfl) ⟨hk.1, Fresh.refl _⟩⟩

/-- In every run with any number of threads, as long as `aba` does not wrap
within one operation. -/
theorem nothing_lost_or_duplicated {ι : Type} [DecidableEq ι] [Fintype ι] {numElems : ℕ}
    (hn : 1 ≤ numElems) (value : ℕ → BitVec 64) {es : List (Event ι)} {s : LockFreeStack ι}
    (hwrap : (lfStackSystem ι numElems value).Meets NoWrap (new numElems value) es)
    (hrun : (lfStackSystem ι numElems value).exec (new numElems value) es = some s) :
    ∃ H F, s.Conserves numElems H F := by
  have hinv : ∃ L, s.Inv numElems L := by
    refine System.exec_invariant (P := NoWrap) (I := fun s => ∃ L, s.Inv numElems L) ?_
      (new_inv hn value) hwrap hrun
    rintro t e t' ⟨L, h⟩ hw hstep
    exact h.step hw hstep
  obtain ⟨L, h⟩ := hinv
  exact ⟨L .head, L .free, h.conserves⟩

/-- A call and its first `n` steps. -/
def called (i : Fin 2) (c : Call) (n : ℕ) : List (Event (Fin 2)) :=
  .call i c :: List.replicate n (.run i false)

/-- Thread 1 pushes a value, pops it and pushes another between the read and
the exchange of a pop of thread 0, which finds the same node on top. -/
def recycled : List (Event (Fin 2)) :=
  called 1 (.push 7) 7 ++ called 0 .pop 2 ++ called 1 .pop 7 ++ called 1 (.push 8) 7 ++
    List.replicate 7 (Event.run 0 false)

theorem nothing_lost_or_duplicated_recycled :
    ∃ s, (lfStackSystem (Fin 2) 2 fun _ => 0).exec (new 2 fun _ => 0) recycled = some s ∧
      s.pc 0 = .idle (some (.pop 8)) ∧ ∃ H F, s.Conserves 2 H F := by
  have hpc : ((lfStackSystem (Fin 2) 2 fun _ => 0).exec (new 2 fun _ => 0) recycled).map
      (fun s => s.pc 0) = some (.idle (some (.pop 8))) := by decide +kernel
  obtain ⟨s, hrun, hs⟩ := Option.map_eq_some_iff.mp hpc
  exact ⟨s, hrun, hs,
    nothing_lost_or_duplicated (by decide) _ (by decide +kernel) hrun⟩

end LockFreeStack

end CleancacheRdma.Daemon
