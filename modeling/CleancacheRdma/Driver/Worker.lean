import Mathlib
import CleancacheRdma.Driver.Filter.BloomFilter
import CleancacheRdma.Lib.System

/-!
# The filter workers and the completion handler

Translated from `worker.c` of the driver: one `do_update_filter` thread for each
server, and `dcc_backend_update_filter`, which `filter_event_handler` calls for
every `FILTER_UPDATE_END` of the server's filter queue. All of them share the
global `filter_update_done`. Sleeps last as long as the schedule makes them.
-/

namespace CleancacheRdma.Driver

open Lib (Bitmap System)

/-- Where a worker stands: before `metadata_blocking`, before the message to the
server, in the waiting loop, before it clears the flag, stopped. -/
inductive WorkerPc where
  | top
  | blocked
  | waiting
  | clearing
  | out
deriving DecidableEq

/-- One server as the driver sees it. The last four fields count what happened:
calls of `metadata_blocking`, settings of the flag by the handler, ends of
`metadata_unblocking`, exits of the worker from its waiting loop. -/
structure FilterWorker where
  filter : BloomFilter
  pc : WorkerPc := .top
  accumSleepSec : ℕ := 0
  requests : ℕ := 0
  ends : ℕ := 0
  handling : Bool := false
  started : ℕ := 0
  announced : ℕ := 0
  completed : ℕ := 0
  passed : ℕ := 0

/-- All servers, with the handlers that have set the flag since it was last
cleared. -/
structure Workers where
  filterUpdateDone : Bool
  servers : ℕ → FilterWorker
  setBy : List ℕ

inductive WorkerStep where
  | worker (i : ℕ)
  | stop (i : ℕ)
  | daemon (i : ℕ) (snapshot : Bitmap 64)
  | handler (i : ℕ)

namespace Workers

/-- All workers started, with the filters as they are. -/
def start (filters : ℕ → BloomFilter) : Workers :=
  ⟨false, fun i => { filter := filters i }, []⟩

/-- Server `i` moves on. -/
def set (s : Workers) (i : ℕ) (v : FilterWorker) : Workers :=
  { s with servers := Function.update s.servers i v }

/-- One step of `do_update_filter`. -/
def doUpdateFilter (s : Workers) (i : ℕ) : Option Workers :=
  let v := s.servers i
  match v.pc with
  | .top =>
      some (s.set i { v with
        filter := v.filter.blocking
        pc := .blocked
        accumSleepSec := 0
        started := v.started + 1 })
  | .blocked => some (s.set i { v with pc := .waiting, requests := v.requests + 1 })
  | .waiting =>
      if s.filterUpdateDone then
        some (s.set i { v with pc := .clearing, passed := v.passed + 1 })
      else some (s.set i { v with accumSleepSec := v.accumSleepSec + 1 })
  | .clearing =>
      some { s.set i { v with pc := .top } with filterUpdateDone := false, setBy := [] }
  | .out => none

/-- One step of `dcc_backend_update_filter`. -/
def dccBackendUpdateFilter (s : Workers) (i : ℕ) : Option Workers :=
  let v := s.servers i
  if v.handling then
    some (s.set i { v with
      filter := v.filter.unblocking
      handling := false
      completed := v.completed + 1 })
  else if 0 < v.ends then
    some { s.set i { v with
        ends := v.ends - 1
        handling := true
        announced := v.announced + 1 } with
      filterUpdateDone := true
      setBy := i :: s.setBy }
  else none

def step (numSvrs : ℕ) (s : Workers) : WorkerStep → Option Workers
  | .worker i => if i < numSvrs then s.doUpdateFilter i else none
  | .stop i =>
      -- `kthread_should_stop` at the head of either loop
      if i < numSvrs ∧ ((s.servers i).pc = .top ∨ (s.servers i).pc = .waiting) then
        some (s.set i { s.servers i with pc := .out })
      else none
  | .daemon i snapshot =>
      -- the request is answered, the bitmap written before the completion is there
      if i < numSvrs ∧ 0 < (s.servers i).requests then
        some (s.set i { s.servers i with
          filter := (s.servers i).filter.writeBitmap snapshot
          requests := (s.servers i).requests - 1
          ends := (s.servers i).ends + 1 })
      else none
  | .handler i => if i < numSvrs then s.dccBackendUpdateFilter i else none

def system (numSvrs : ℕ) : System Workers WorkerStep where
  init s := ∃ filters, s = start filters
  step := step numSvrs

/-- No `metadata_blocking` starts before the last round of its server is
through, a worker goes on for a completed round of its own only, and the flag
waits for the worker it was set for. -/
structure Separate (s : Workers) : Prop where
  noOverlap : ∀ i, (s.servers i).started ≤ (s.servers i).completed + 1
  ownRound : ∀ i, (s.servers i).passed ≤ (s.servers i).completed
  notLost : ∀ i, (s.servers i).passed < (s.servers i).announced → s.filterUpdateDone = true

/-- The worker that finds the flag set, and then clears it, is that of the one
server whose handler has set it, and this handler has finished. -/
def LooksOwn (s : Workers) : WorkerStep → Prop
  | .worker i =>
      ((s.servers i).pc = .waiting → s.filterUpdateDone = true →
        s.setBy = [i] ∧ (s.servers i).handling = false) ∧
      ((s.servers i).pc = .clearing → s.setBy = [i])
  | _ => True

instance (s : Workers) : ∀ a, Decidable (s.LooksOwn a)
  | .worker _ => inferInstanceAs (Decidable (_ ∧ _))
  | .stop _ | .daemon _ _ | .handler _ => isTrue trivial

/-! ## Rounds follow each other -/

/-- The counts of one server, `set` saying whether its handler is among those
that have set the flag. -/
structure Balanced (v : FilterWorker) (set : Prop) : Prop where
  opened : v.started = v.completed + (if v.pc = .blocked then 1 else 0) + v.requests + v.ends +
    v.handling.toNat
  announced : v.announced = v.completed + v.handling.toNat
  passed : v.passed ≤ v.completed
  started : v.started ≤ v.passed + 1
  closed : v.pc = .top ∨ v.pc = .clearing → v.started = v.passed
  blocked : v.pc = .blocked → v.requests + v.ends + v.handling.toNat = 0
  set : set ↔ v.passed < v.announced ∨ v.pc = .clearing

structure Inv (s : Workers) : Prop where
  balanced : ∀ i, Balanced (s.servers i) (i ∈ s.setBy)
  flag : s.filterUpdateDone = true ↔ s.setBy ≠ []

namespace Balanced

variable {v : FilterWorker} {set : Prop}

theorem new (filter : BloomFilter) : Balanced { filter := filter } False := by
  constructor <;> simp

theorem blocking (h : Balanced v set) (hpc : v.pc = .top) (filter : BloomFilter) :
    Balanced
      { v with
        filter := filter
        pc := .blocked
        accumSleepSec := 0
        started := v.started + 1 } set := by
  obtain ⟨hopened, hannounced, hpassed, hstarted, hclosed, -, hset⟩ := h
  have hsame := hclosed (Or.inl hpc)
  simp only [hpc, reduceCtorEq, if_false, or_false] at hopened hset
  constructor <;> simp only [reduceCtorEq, if_true, or_false, false_implies, true_implies]
  · omega
  · exact hannounced
  · exact hpassed
  · omega
  · omega
  · exact hset

theorem send (h : Balanced v set) (hpc : v.pc = .blocked) :
    Balanced { v with pc := .waiting, requests := v.requests + 1 } set := by
  obtain ⟨hopened, hannounced, hpassed, hstarted, -, -, hset⟩ := h
  simp only [hpc, reduceCtorEq, if_true, or_false] at hopened hset
  constructor <;> simp only [reduceCtorEq, if_false, or_false, false_implies]
  · omega
  · exact hannounced
  · exact hpassed
  · exact hstarted
  · exact hset

/-- The worker's own round is over, so none is open when it goes on. -/
theorem pass (h : Balanced v set) (hpc : v.pc = .waiting) (hset : set)
    (hdone : v.handling = false) :
    Balanced { v with pc := .clearing, passed := v.passed + 1 } set := by
  obtain ⟨hopened, hannounced, hpassed, hstarted, -, -, hiff⟩ := h
  simp only [hpc, hdone, reduceCtorEq, if_false, or_false, Bool.toNat_false] at *
  have hlt := hiff.mp hset
  constructor <;> simp only [reduceCtorEq, if_false, or_true, true_implies, false_implies,
    Bool.toNat_false]
  · omega
  · omega
  · omega
  · omega
  · omega
  · exact iff_true_intro hset

theorem clear (h : Balanced v set) (hpc : v.pc = .clearing) :
    Balanced { v with pc := .top } False := by
  obtain ⟨hopened, hannounced, hpassed, hstarted, hclosed, -, -⟩ := h
  have hsame := hclosed (Or.inr hpc)
  simp only [hpc, reduceCtorEq, if_false] at hopened
  constructor <;> simp only [reduceCtorEq, if_false, or_false, false_implies]
  · omega
  · exact hannounced
  · exact hpassed
  · exact hstarted
  · exact fun _ => hsame
  · constructor
    · exact False.elim
    · omega

theorem wait (h : Balanced v set) (n : ℕ) : Balanced { v with accumSleepSec := n } set :=
  ⟨h.opened, h.announced, h.passed, h.started, h.closed, h.blocked, h.set⟩

theorem stop (h : Balanced v set) (hpc : v.pc = .top ∨ v.pc = .waiting) :
    Balanced { v with pc := .out } set := by
  have hblocked : v.pc ≠ .blocked := by rcases hpc with hpc | hpc <;> simp [hpc]
  have hclearing : v.pc ≠ .clearing := by rcases hpc with hpc | hpc <;> simp [hpc]
  obtain ⟨hopened, hannounced, hpassed, hstarted, -, -, hset⟩ := h
  simp only [hblocked, hclearing, if_false, or_false] at hopened hset
  constructor <;> simp only [reduceCtorEq, if_false, or_false, false_implies]
  · omega
  · exact hannounced
  · exact hpassed
  · exact hstarted
  · exact hset

theorem answer (h : Balanced v set) (hpos : 0 < v.requests) (filter : BloomFilter) :
    Balanced
      { v with
        filter := filter
        requests := v.requests - 1
        ends := v.ends + 1 } set := by
  obtain ⟨hopened, hannounced, hpassed, hstarted, hclosed, hblocked, hset⟩ := h
  refine ⟨?_, hannounced, hpassed, hstarted, hclosed, fun hpc => ?_, hset⟩
  · show v.started = v.completed + (if v.pc = .blocked then 1 else 0) + (v.requests - 1) +
      (v.ends + 1) + v.handling.toNat
    omega
  · have hnone := hblocked hpc
    omega

theorem announce (h : Balanced v set) (hdone : ¬ v.handling = true) (hpos : 0 < v.ends) :
    Balanced
      { v with
        ends := v.ends - 1
        handling := true
        announced := v.announced + 1 } True := by
  obtain ⟨hopened, hannounced, hpassed, hstarted, hclosed, hblocked, -⟩ := h
  rw [Bool.not_eq_true] at hdone
  rw [hdone] at hopened hannounced hblocked
  rw [Bool.toNat_false] at hopened hannounced hblocked
  refine ⟨?_, ?_, hpassed, hstarted, hclosed, fun hpc => ?_, ?_⟩
  · show v.started = v.completed + (if v.pc = .blocked then 1 else 0) + v.requests +
      (v.ends - 1) + 1
    omega
  · show v.announced + 1 = v.completed + 1
    omega
  · have hnone := hblocked hpc
    omega
  · exact ⟨fun _ => Or.inl (show v.passed < v.announced + 1 by omega), fun _ => trivial⟩

theorem unblock (h : Balanced v set) (hhandling : v.handling = true) (filter : BloomFilter) :
    Balanced
      { v with
        filter := filter
        handling := false
        completed := v.completed + 1 } set := by
  obtain ⟨hopened, hannounced, hpassed, hstarted, hclosed, hblocked, hset⟩ := h
  rw [hhandling] at hopened hannounced hblocked
  rw [Bool.toNat_true] at hopened hannounced hblocked
  refine ⟨?_, ?_, Nat.le_succ_of_le hpassed, hstarted, hclosed, fun hpc => ?_, hset⟩
  · show v.started = v.completed + 1 + (if v.pc = .blocked then 1 else 0) + v.requests + v.ends + 0
    omega
  · show v.announced = v.completed + 1 + 0
    omega
  · have hnone := hblocked hpc
    omega

end Balanced

namespace Inv

variable {s s' : Workers}

theorem start (filters : ℕ → BloomFilter) : (Workers.start filters).Inv where
  balanced i := by
    simp only [Workers.start, List.not_mem_nil]
    exact Balanced.new (filters i)
  flag := by simp [Workers.start]

/-- Only server `i` has moved. -/
theorem moved (h : s.Inv) {i : ℕ} {v : FilterWorker} {done : Bool} {setBy : List ℕ}
    (hv : Balanced v (i ∈ setBy)) (hother : ∀ j ≠ i, (j ∈ setBy ↔ j ∈ s.setBy))
    (hflag : done = true ↔ setBy ≠ []) :
    Inv { s.set i v with filterUpdateDone := done, setBy := setBy } where
  balanced j := by
    by_cases hji : j = i
    · subst hji
      show Balanced (Function.update s.servers j v j) _
      rw [Function.update_self]
      exact hv
    · show Balanced (Function.update s.servers i v j) (j ∈ setBy)
      rw [Function.update_of_ne hji, hother j hji]
      exact h.balanced j
  flag := hflag

theorem worker (h : s.Inv) {i : ℕ} (hok : s.LooksOwn (.worker i))
    (hstep : s.doUpdateFilter i = some s') : s'.Inv := by
  have hi := h.balanced i
  cases hpc : (s.servers i).pc with
  | top =>
      simp only [doUpdateFilter, hpc] at hstep
      cases hstep
      exact h.moved (hi.blocking hpc _) (fun _ _ => Iff.rfl) h.flag
  | blocked =>
      simp only [doUpdateFilter, hpc] at hstep
      cases hstep
      exact h.moved (hi.send hpc) (fun _ _ => Iff.rfl) h.flag
  | waiting =>
      simp only [doUpdateFilter, hpc] at hstep
      split at hstep
      next hdone =>
        cases hstep
        obtain ⟨hown, hover⟩ := hok.1 hpc hdone
        have hmem : i ∈ s.setBy := by rw [hown]; exact List.mem_singleton_self i
        exact h.moved (hi.pass hpc hmem hover) (fun _ _ => Iff.rfl) h.flag
      next hdone =>
        cases hstep
        have hwait := hi.wait ((s.servers i).accumSleepSec + 1)
        rw [hpc] at hwait
        exact h.moved hwait (fun _ _ => Iff.rfl) h.flag
  | clearing =>
      simp only [doUpdateFilter, hpc] at hstep
      cases hstep
      have hcleared := hi.clear hpc
      rw [← iff_false_intro (List.not_mem_nil (a := i))] at hcleared
      refine h.moved hcleared (fun j hj => ?_) (by simp)
      rw [hok.2 hpc]
      simpa using hj
  | out =>
      simp only [doUpdateFilter, hpc] at hstep
      cases hstep

theorem handler (h : s.Inv) {i : ℕ} (hstep : s.dccBackendUpdateFilter i = some s') : s'.Inv := by
  have hi := h.balanced i
  simp only [dccBackendUpdateFilter] at hstep
  split at hstep
  next hhandling =>
    cases hstep
    exact h.moved (hi.unblock hhandling _) (fun _ _ => Iff.rfl) h.flag
  next hhandling =>
    split at hstep
    next hpos =>
      cases hstep
      have hset := hi.announce hhandling hpos
      rw [← iff_true_intro (List.mem_cons_self (a := i) (l := s.setBy))] at hset
      refine h.moved hset (fun j hj => ?_) (by simp)
      rw [List.mem_cons]
      exact or_iff_right hj
    · cases hstep

theorem step (h : s.Inv) {numSvrs : ℕ} {a : WorkerStep} (hok : s.LooksOwn a)
    (hstep : Workers.step numSvrs s a = some s') : s'.Inv := by
  cases a with
  | worker i =>
      simp only [Workers.step] at hstep
      split at hstep
      · exact h.worker hok hstep
      · cases hstep
  | stop i =>
      simp only [Workers.step] at hstep
      split at hstep
      next hpc =>
        cases hstep
        exact h.moved ((h.balanced i).stop hpc.2) (fun _ _ => Iff.rfl) h.flag
      · cases hstep
  | daemon i snapshot =>
      simp only [Workers.step] at hstep
      split at hstep
      next hpos =>
        cases hstep
        exact h.moved ((h.balanced i).answer hpos.2 _) (fun _ _ => Iff.rfl) h.flag
      · cases hstep
  | handler i =>
      simp only [Workers.step] at hstep
      split at hstep
      · exact h.handler hstep
      · cases hstep

theorem separate (h : s.Inv) : s.Separate where
  noOverlap i := (h.balanced i).started.trans (Nat.add_le_add_right (h.balanced i).passed 1)
  ownRound i := (h.balanced i).passed
  notLost i hi := h.flag.mpr (List.ne_nil_of_mem ((h.balanced i).set.mpr (Or.inl hi)))

end Inv

/-! ## Runs -/

/-- Rounds follow each other in every run that meets `LooksOwn`. -/
theorem rounds_never_overlap (numSvrs : ℕ) (filters : ℕ → BloomFilter) {as : List WorkerStep}
    {s : Workers} (hok : (system numSvrs).Meets LooksOwn (start filters) as)
    (hrun : (system numSvrs).exec (start filters) as = some s) : s.Separate := by
  have hinv : s.Inv := System.exec_invariant (P := LooksOwn)
    (fun s a s' h hok hs => h.step hok hs) (Inv.start filters) hok hrun
  exact hinv.separate

/-- Two servers, each through one round, the second waiting while the first
finishes. -/
def inTurn : List WorkerStep :=
  [.worker 0, .worker 1, .worker 0, .worker 1, .daemon 0 Bitmap.zero, .daemon 1 Bitmap.zero,
   .handler 0, .handler 0, .worker 0, .worker 0, .handler 1, .handler 1, .worker 1, .worker 1,
   .worker 0]

theorem rounds_never_overlap_inTurn :
    ∃ s, (system 2).exec (start fun _ => .init 1 64) inTurn = some s ∧
      (s.servers 0).started = 2 ∧ (s.servers 1).passed = 1 ∧ s.Separate := by
  have hread : ((system 2).exec (start fun _ => .init 1 64) inTurn).map
      (fun s => ((s.servers 0).started, (s.servers 1).passed)) = some (2, 1) := by decide +kernel
  obtain ⟨s, hs, heq⟩ := Option.map_eq_some_iff.mp hread
  obtain ⟨hstarted, hpassed⟩ := Prod.mk.inj heq
  exact ⟨s, hs, hstarted, hpassed,
    rounds_never_overlap 2 (fun _ => .init 1 64) (by decide +kernel) hs⟩

/-- One server: the next round starts between the two statements of the
handler. -/
def earlyFlag : List WorkerStep :=
  [.worker 0, .worker 0, .daemon 0 Bitmap.zero, .handler 0, .worker 0, .worker 0, .worker 0]

/-- Two servers: worker 1 takes the flag that was set for worker 0. -/
def takenFlag : List WorkerStep :=
  [.worker 0, .worker 1, .worker 0, .worker 1, .daemon 0 Bitmap.zero, .handler 0, .handler 0,
   .worker 1, .worker 1]

theorem rounds_overlap :
    (∃ s, (system 1).exec (start fun _ => .init 1 64) earlyFlag = some s ∧
      (s.servers 0).started = 2 ∧ (s.servers 0).completed = 0 ∧ ¬ s.Separate) ∧
    ∃ s, (system 2).exec (start fun _ => .init 1 64) takenFlag = some s ∧
      (s.servers 1).passed = 1 ∧ (s.servers 1).completed = 0 ∧ (s.servers 0).passed = 0 ∧
      (s.servers 0).completed = 1 ∧ s.filterUpdateDone = false ∧ ¬ s.Separate := by
  constructor
  · have hread : ((system 1).exec (start fun _ => .init 1 64) earlyFlag).map
        (fun s => ((s.servers 0).started, (s.servers 0).completed)) = some (2, 0) := by
      decide +kernel
    obtain ⟨s, hs, heq⟩ := Option.map_eq_some_iff.mp hread
    obtain ⟨hstarted, hcompleted⟩ := Prod.mk.inj heq
    refine ⟨s, hs, hstarted, hcompleted, fun hsep => ?_⟩
    have hle := hsep.noOverlap 0
    omega
  · have hread : ((system 2).exec (start fun _ => .init 1 64) takenFlag).map
        (fun s => ((s.servers 1).passed, (s.servers 1).completed, (s.servers 0).passed,
          (s.servers 0).completed, s.filterUpdateDone)) = some (1, 0, 0, 1, false) := by
      decide +kernel
    obtain ⟨s, hs, heq⟩ := Option.map_eq_some_iff.mp hread
    simp only [Prod.mk.injEq] at heq
    obtain ⟨hpassed, hcompleted, hpassed0, hcompleted0, hdone⟩ := heq
    refine ⟨s, hs, hpassed, hcompleted, hpassed0, hcompleted0, hdone, fun hsep => ?_⟩
    have hle := hsep.ownRound 1
    omega

end Workers

end CleancacheRdma.Driver
