import Mathlib
import CleancacheRdma.Lib.System

/-!
# `fixed_stack`, a stack in an array

Translated from `util/fixed_stack.h`. `top` is the index of the newest item
and starts at `-1`; `is_full` compares it with the number of elements, so that
one item more than the array has room for is let in.
-/

namespace CleancacheRdma.Driver

open Lib

/-- `fstack_t`, without its lock. -/
structure FStack where
  nodes : ℤ → BitVec 64
  numElems : BitVec 64
  top : ℤ

namespace FStack

variable (s : FStack)

/-- `num_elems` is compared as an `int64_t`. -/
def isFull : Bool := s.numElems.toInt ≤ s.top

def isEmpty : Bool := s.top = -1

def stackPush (item : BitVec 64) : FStack × ℤ :=
  if !s.isFull then
    ({ s with nodes := Function.update s.nodes (s.top + 1) item, top := s.top + 1 }, 0)
  else
    (s, -1)

def stackPop : FStack × BitVec 64 :=
  if !s.isEmpty then
    ({ s with top := s.top - 1 }, s.nodes s.top)
  else
    (s, -1)

/-- The two allocations may fail. -/
def stackInit (kzalloc vzalloc : Bool) (numElems : BitVec 64) : Option FStack :=
  if kzalloc then
    if vzalloc then some ⟨fun _ => 0, numElems, -1⟩ else none
  else
    none

end FStack

/-! ## Runs of calls -/

/-- The items other than the one `stack_pop` returns when there is none. -/
abbrev Item := {item : BitVec 64 // item ≠ -1}

inductive StackCall where
  | push (item : Item)
  | pop
deriving DecidableEq

/-- The stack beside the items that were pushed and not yet popped, the newest
first. -/
structure StackRun where
  stack : FStack
  held : List Item := []

namespace StackRun

/-- A push that reports success adds its item, a pop takes the newest away. -/
def step (s : StackRun) : StackCall → Option StackRun
  | .push item =>
      let r := s.stack.stackPush item
      some ⟨r.1, if r.2 = 0 then item :: s.held else s.held⟩
  | .pop => some ⟨s.stack.stackPop.1, s.held.tail⟩

/-- The index of `nodes` a call reads or writes. -/
def access (s : StackRun) : StackCall → Option ℤ
  | .push _ => if !s.stack.isFull then some (s.stack.top + 1) else none
  | .pop => if !s.stack.isEmpty then some s.stack.top else none

/-- What a call returns. -/
def Returns (s : StackRun) : StackCall → Prop
  | .push item => (s.stack.stackPush item).2 = -1 ↔ s.held.length = s.stack.numElems.toNat
  | .pop => s.stack.stackPop.2 = (s.held.head?.map Subtype.val).getD (-1) ∧
      (s.stack.stackPop.2 = -1 ↔ s.held = [])

/-- A bounded stack: the call stays in the array and returns what it should. -/
def Lawful (s : StackRun) (a : StackCall) : Prop :=
  (∀ i ∈ s.access a, 0 ≤ i ∧ i < s.stack.numElems.toNat) ∧ s.Returns a

/-- A push comes while there is room, on a stack whose size is an `int64_t`. -/
def HasRoom (s : StackRun) : StackCall → Prop
  | .push _ => s.held.length < s.stack.numElems.toNat ∧ s.stack.numElems.toNat < 2 ^ 63
  | .pop => True

instance (s : StackRun) : (a : StackCall) → Decidable (s.HasRoom a)
  | .push _ => inferInstanceAs (Decidable (_ ∧ _))
  | .pop => isTrue trivial

end StackRun

/-- The runs of one stack, from `stack_init` on. -/
def stackSystem (numElems : BitVec 64) : System StackRun StackCall where
  init s := FStack.stackInit true true numElems = some s.stack ∧ s.held = []
  step := StackRun.step

namespace StackRun

/-! ## The items in the array -/

/-- The items lie below the top, the oldest at index 0. -/
def Piled (nodes : ℤ → BitVec 64) : List Item → Prop
  | [] => True
  | item :: rest => nodes rest.length = item ∧ Piled nodes rest

theorem Piled.update {nodes : ℤ → BitVec 64} {held : List Item} (h : Piled nodes held) {i : ℤ}
    (hi : held.length ≤ i) (item : BitVec 64) : Piled (Function.update nodes i item) held := by
  induction held with
  | nil => trivial
  | cons newest rest ih =>
      rw [List.length_cons, Nat.cast_succ] at hi
      refine ⟨?_, ih h.2 (by omega)⟩
      rw [Function.update_of_ne (by omega)]
      exact h.1

/-- The stack and the items held, as long as pushes come while there is room. -/
structure Inv (s : StackRun) : Prop where
  size : s.stack.numElems ≠ 0
  top : s.stack.top = s.held.length - 1
  piled : Piled s.stack.nodes s.held
  within : s.held.length ≤ s.stack.numElems.toNat
  signed : s.held ≠ [] → s.stack.numElems.toNat < 2 ^ 63

variable {s : StackRun}

/-- A stack that holds no more than its size is not full. -/
theorem Inv.isFull (h : s.Inv) (hsigned : s.stack.numElems.toNat < 2 ^ 63) :
    s.stack.isFull = false := by
  have hint : s.stack.numElems.toInt = s.stack.numElems.toNat :=
    BitVec.toInt_eq_toNat_of_lt (by omega)
  have hwithin := h.within
  rw [FStack.isFull, hint, h.top]
  apply decide_eq_false
  omega

/-- A size from `2 ^ 63` on is negative as an `int64_t`. -/
theorem Inv.isFull_unsigned (h : s.Inv) (hsigned : 2 ^ 63 ≤ s.stack.numElems.toNat) :
    s.held = [] ∧ s.stack.isFull = true := by
  have hnil : s.held = [] := by
    by_contra hheld
    exact absurd (h.signed hheld) (Nat.not_lt.mpr hsigned)
  have hint := BitVec.toInt_eq_toNat_cond s.stack.numElems
  rw [if_neg (by omega)] at hint
  refine ⟨hnil, ?_⟩
  rw [FStack.isFull, hint, h.top, hnil]
  apply decide_eq_true
  have hlt := s.stack.numElems.isLt
  simp only [List.length_nil]
  omega

theorem Inv.push_iff (h : s.Inv) (item : Item) :
    s.Lawful (.push item) ↔ s.HasRoom (.push item) := by
  by_cases hsigned : s.stack.numElems.toNat < 2 ^ 63
  · have hfull := h.isFull hsigned
    have hwithin := h.within
    have hroom : s.HasRoom (.push item) ↔ s.held.length < s.stack.numElems.toNat :=
      and_iff_left hsigned
    rw [hroom, Lawful, access, Returns, FStack.stackPush, hfull, h.top]
    simp
    omega
  · obtain ⟨hnil, hfull⟩ := h.isFull_unsigned (Nat.not_lt.mp hsigned)
    have hsize : s.stack.numElems.toNat ≠ 0 := by
      intro hzero
      exact h.size (BitVec.eq_of_toNat_eq hzero)
    constructor
    · rintro ⟨-, hret⟩
      rw [Returns, FStack.stackPush, hfull, hnil] at hret
      exact absurd (hret.mp rfl).symm hsize
    · rintro ⟨-, hlt⟩
      exact absurd hlt hsigned

/-- With items held, the newest one is at the top. -/
theorem Inv.newest {stack : FStack} {newest : Item} {rest : List Item}
    (h : Inv ⟨stack, newest :: rest⟩) :
    stack.top = rest.length ∧ stack.isEmpty = false ∧ stack.nodes stack.top = newest := by
  have htop : stack.top = rest.length := by
    have hlen := h.top
    simp only [List.length_cons, Nat.cast_succ] at hlen
    omega
  refine ⟨htop, decide_eq_false (by omega), ?_⟩
  rw [htop]
  exact h.piled.1

theorem Inv.pop_lawful (h : s.Inv) : s.Lawful .pop := by
  obtain ⟨stack, held⟩ := s
  cases held with
  | nil =>
      have hempty : stack.isEmpty = true := decide_eq_true h.top
      simp [Lawful, access, Returns, FStack.stackPop, hempty]
  | cons newest rest =>
      obtain ⟨htop, hempty, hnode⟩ := h.newest
      have hpop : stack.stackPop.2 = newest := by
        rw [FStack.stackPop, hempty]
        exact hnode
      have hlt : rest.length < stack.numElems.toNat := h.within
      refine ⟨?_, ?_, ?_⟩
      · intro i hi
        simp only [access, hempty, htop] at hi
        cases hi
        exact ⟨Int.natCast_nonneg _, Int.ofNat_lt.mpr hlt⟩
      · rw [hpop]
        rfl
      · rw [hpop]
        exact iff_of_false newest.2 (List.cons_ne_nil newest rest)

theorem lawful_iff (h : s.Inv) (a : StackCall) : s.Lawful a ↔ s.HasRoom a := by
  cases a with
  | push item => exact h.push_iff item
  | pop => exact iff_of_true h.pop_lawful trivial

theorem Inv.step {s' : StackRun} {a : StackCall} (h : s.Inv) (hroom : s.HasRoom a)
    (hstep : s.step a = some s') : s'.Inv := by
  cases a with
  | push item =>
      obtain ⟨hlt, hsigned⟩ := hroom
      rw [StackRun.step, FStack.stackPush, h.isFull hsigned] at hstep
      cases hstep
      have htop := h.top
      refine ⟨h.size, ?_, ?_, hlt, fun _ => hsigned⟩
      · simp [htop]
      · refine ⟨?_, ?_⟩
        · simp [htop]
        · exact h.piled.update (by omega) item
  | pop =>
      obtain ⟨stack, held⟩ := s
      rw [StackRun.step, FStack.stackPop] at hstep
      cases held with
      | nil =>
          have hempty : stack.isEmpty = true := decide_eq_true h.top
          rw [hempty] at hstep
          cases hstep
          exact h
      | cons newest rest =>
          obtain ⟨htop, hempty, -⟩ := h.newest
          rw [hempty] at hstep
          cases hstep
          have hwithin : rest.length + 1 ≤ stack.numElems.toNat := h.within
          refine ⟨h.size, ?_, h.piled.2, Nat.le_of_succ_le hwithin, ?_⟩
          · simp [htop]
          · intro _
            exact h.signed (List.cons_ne_nil newest rest)

theorem Inv.of_init {numElems : BitVec 64} (hsize : numElems ≠ 0)
    (hinit : (stackSystem numElems).init s) : s.Inv := by
  obtain ⟨stack, held⟩ := s
  obtain ⟨hstack, hheld⟩ := hinit
  cases hstack
  cases hheld
  exact ⟨hsize, rfl, trivial, Nat.zero_le _, fun h => absurd rfl h⟩

/-- In a run of pushes and pops the stack stays in its array and is a bounded
one exactly if no push comes when it holds as many items as it was made for. -/
theorem bounded_lifo_iff {numElems : BitVec 64} (hsize : numElems ≠ 0)
    (hinit : (stackSystem numElems).init s) (calls : List StackCall) :
    (stackSystem numElems).Meets Lawful s calls ↔
      (stackSystem numElems).Meets HasRoom s calls := by
  obtain ⟨t, hrun⟩ := (stackSystem numElems).exec_isSome (fun s a => by cases a <;> rfl) s calls
  exact System.meets_iff (fun _ _ _ h hroom hstep => h.step hroom hstep)
    (fun _ a _ h _ => lawful_iff h a) (Inv.of_init hsize hinit) hrun

/-- Two items go into a stack of two and come out of it. -/
theorem bounded_lifo_iff_two : (stackSystem 2).Meets Lawful ⟨⟨fun _ => 0, 2, -1⟩, []⟩
    [.push ⟨5, by decide⟩, .push ⟨6, by decide⟩, .pop, .pop, .pop] := by
  apply (bounded_lifo_iff (by decide) ⟨rfl, rfl⟩ _).mpr
  decide

/-- A stack of one takes a second item, and stores it behind the end of its array. -/
theorem full_stack_overrun :
    ¬ (stackSystem 1).Meets Lawful ⟨⟨fun _ => 0, 1, -1⟩, []⟩
      [.push ⟨5, by decide⟩, .push ⟨6, by decide⟩] := by
  rintro ⟨-, hrest⟩
  obtain ⟨⟨hin, -⟩, -⟩ := hrest _ rfl
  exact absurd (hin 1 rfl).2 (by decide)

end StackRun

end CleancacheRdma.Driver
