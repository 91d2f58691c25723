import Mathlib
import CleancacheRdma.Lib.EventQueue
import CleancacheRdma.Lib.System

/-!
# The pollers that wait for completion events

`hybrid_data_cq_poller` and `event_filter_cq_handler` of `rdma.cpp`, one step
for each call they make on the completion queue. What `die` ends is not
modelled. Both arm the queue and then wait: the first without another look at
the queue, the second after it took one entry.
-/

namespace CleancacheRdma.Daemon

open Lib (System EventQueue)

/-- `enum wc_mode_t`. -/
inductive WcMode where
  | busyWaiting
  | event
  | adaptive
  | adaptiveBo
deriving DecidableEq

/-- `MAX_POLL_WC`. -/
def maxPollWc : ℕ := 4096 / 2

/-- A completion arrives, or the thread makes its next call; `elapsed` is what
the clock shows since `start`, in nanoseconds. -/
inductive PollerStep where
  | arrive
  | thread (elapsed : ℕ)

/-! ## `hybrid_data_cq_poller` -/

/-- The next call of the thread: in `pollCq i` the loop has found `i`
completions so far, in `handle n` there are `n` of them left. -/
inductive HybridPc where
  | start
  | getEvent
  | pollMode
  | whileDuration
  | pollCq (i : ℕ)
  | handle (n : ℕ)
  | rate
  | notify
  | ack
deriving DecidableEq

/-- Durations are in milliseconds. -/
structure HybridPoller where
  cq : EventQueue := {}
  pc : HybridPc := .start
  duration : ℕ
  succCnt : ℕ := 0
  failedCnt : ℕ := 0

namespace HybridPoller

def minDuration : ℕ := 2 ^ 0
def maxDuration : ℕ := 2 ^ 10

/-- The thread before its first call. -/
def new (wcMode : WcMode) : HybridPoller where
  duration := if wcMode = .adaptiveBo then 2 ^ 5 else minDuration

/-- What follows the polling round. -/
def endRound (wcMode : WcMode) (s : HybridPoller) : HybridPoller :=
  if s.succCnt + s.failedCnt = 0 then { s with pc := .pollCq 0 }
  else
    let succRate := 100 * s.succCnt / (s.succCnt + s.failedCnt)
    if succRate = 0 then
      { s with
        pc := .notify
        duration := if wcMode = .adaptiveBo ∧ minDuration < s.duration then s.duration / 2
          else s.duration }
    else
      { s with
        pc := .pollMode
        duration := if wcMode = .adaptiveBo ∧ 80 < succRate ∧ s.duration < maxDuration then
            s.duration * 2
          else s.duration }

/-- `none` while the thread is blocked. -/
def call (wcMode : WcMode) (s : HybridPoller) (elapsed : ℕ) : Option HybridPoller :=
  match s.pc with
  | .start => some { s with cq := s.cq.arm, pc := .getEvent }
  | .getEvent =>
      if 0 < s.cq.events then some { s with cq := s.cq.takeEvent, pc := .pollMode } else none
  | .pollMode => some { s with pc := .whileDuration, succCnt := 0, failedCnt := 0 }
  | .whileDuration =>
      some { s with pc := if elapsed < s.duration * 1000000 then .pollCq 0 else .rate }
  | .pollCq i =>
      if i < maxPollWc ∧ 0 < s.cq.entries then
        some { s with cq := s.cq.takeEntry, pc := .pollCq (i + 1) }
      else if 0 < i then some { s with pc := .handle i, succCnt := s.succCnt + 1 }
      else some { s with pc := .handle i, failedCnt := s.failedCnt + 1 }
  | .handle 0 => some { s with pc := .whileDuration }
  | .handle (n + 1) => some { s with pc := .handle n }
  | .rate => some (endRound wcMode s)
  | .notify => some { s with cq := s.cq.arm, pc := .ack }
  | .ack => some { s with pc := .getEvent }

def step (wcMode : WcMode) (s : HybridPoller) : PollerStep → Option HybridPoller
  | .arrive => some { s with cq := s.cq.arrive }
  | .thread elapsed => s.call wcMode elapsed

def system (wcMode : WcMode) : System HybridPoller PollerStep where
  init s := s = new wcMode
  step := step wcMode

/-- The thread does not wait for an event while a completion waits for it. -/
def NoLostWakeup (s : HybridPoller) : Prop :=
  s.pc = .getEvent → s.cq.events = 0 → s.cq.entries = 0

instance (s : HybridPoller) : Decidable s.NoLostWakeup :=
  inferInstanceAs (Decidable (_ → _ → _))

/-- The queue is empty whenever it is armed. -/
def ArmsEmpty (s : HybridPoller) : PollerStep → Prop
  | .arrive => True
  | .thread _ => s.pc = .start ∨ s.pc = .notify → s.cq.entries = 0

instance (s : HybridPoller) : (a : PollerStep) → Decidable (s.ArmsEmpty a)
  | .arrive => isTrue trivial
  | .thread _ => inferInstanceAs (Decidable (_ ∨ _ → _))

/-- From arming to the next event the queue wakes the thread. -/
def Inv (s : HybridPoller) : Prop := s.pc = .ack ∨ s.pc = .getEvent → s.cq.Wakes 0

theorem Inv.noLostWakeup {s : HybridPoller} (h : s.Inv) : s.NoLostWakeup :=
  fun hpc hevents => Nat.le_zero.mp ((h (Or.inr hpc)).entries_le hevents)

/-- Elsewhere the thread polls, and nothing has to wake it. -/
theorem Inv.of_pc {s : HybridPoller} (hack : s.pc ≠ .ack) (hget : s.pc ≠ .getEvent) : s.Inv := by
  rintro (hpc | hpc)
  · exact absurd hpc hack
  · exact absurd hpc hget

theorem endRound_inv (wcMode : WcMode) (s : HybridPoller) : (endRound wcMode s).Inv := by
  unfold endRound
  split
  · exact .of_pc nofun nofun
  · dsimp only
    split
    · exact .of_pc nofun nofun
    · exact .of_pc nofun nofun

theorem Inv.step {wcMode : WcMode} {s s' : HybridPoller} {a : PollerStep} (h : s.Inv)
    (hok : s.ArmsEmpty a) (hstep : s.step wcMode a = some s') : s'.Inv := by
  cases a with
  | arrive =>
      cases hstep
      intro hpc
      exact (h hpc).arrive
  | thread elapsed =>
      rw [HybridPoller.step, call] at hstep
      cases hpc : s.pc with
      | start =>
          simp only [hpc] at hstep
          cases hstep
          intro _
          exact EventQueue.wakes_arm (Nat.le_of_eq (hok (Or.inl hpc)))
      | getEvent =>
          simp only [hpc] at hstep
          split at hstep
          · cases hstep
            exact .of_pc nofun nofun
          · cases hstep
      | pollMode =>
          simp only [hpc] at hstep
          cases hstep
          exact .of_pc nofun nofun
      | whileDuration =>
          simp only [hpc] at hstep
          cases hstep
          by_cases hrest : elapsed < s.duration * 1000000
          · rw [if_pos hrest]
            exact .of_pc nofun nofun
          · rw [if_neg hrest]
            exact .of_pc nofun nofun
      | pollCq i =>
          simp only [hpc] at hstep
          split at hstep
          · cases hstep
            exact .of_pc nofun nofun
          · split at hstep
            · cases hstep
              exact .of_pc nofun nofun
            · cases hstep
              exact .of_pc nofun nofun
      | handle n =>
          simp only [hpc] at hstep
          cases n with
          | zero =>
              cases hstep
              exact .of_pc nofun nofun
          | succ n =>
              cases hstep
              exact .of_pc nofun nofun
      | rate =>
          simp only [hpc] at hstep
          cases hstep
          exact endRound_inv wcMode s
      | notify =>
          simp only [hpc] at hstep
          cases hstep
          intro _
          exact EventQueue.wakes_arm (Nat.le_of_eq (hok (Or.inr hpc)))
      | ack =>
          simp only [hpc] at hstep
          cases hstep
          intro _
          exact h (Or.inl hpc)

end HybridPoller

/-! ## `event_filter_cq_handler` -/

inductive FilterPc where
  | start
  | getEvent
  | ack
  | notify
  | pollCq
  | handle
deriving DecidableEq

structure FilterHandler where
  cq : EventQueue := {}
  pc : FilterPc := .start

namespace FilterHandler

/-- `__poll_cq` spins until it has a completion. -/
def call (s : FilterHandler) : Option FilterHandler :=
  match s.pc with
  | .start => some { cq := s.cq.arm, pc := .getEvent }
  | .getEvent =>
      if 0 < s.cq.events then some { cq := s.cq.takeEvent, pc := .ack } else none
  | .ack => some { s with pc := .notify }
  | .notify => some { cq := s.cq.arm, pc := .pollCq }
  | .pollCq =>
      if 0 < s.cq.entries then some { cq := s.cq.takeEntry, pc := .handle } else some s
  | .handle => some { s with pc := .getEvent }

def step (s : FilterHandler) : PollerStep → Option FilterHandler
  | .arrive => some { s with cq := s.cq.arrive }
  | .thread _ => s.call

def system : System FilterHandler PollerStep where
  init s := s = {}
  step := step

def NoLostWakeup (s : FilterHandler) : Prop :=
  s.pc = .getEvent → s.cq.events = 0 → s.cq.entries = 0

instance (s : FilterHandler) : Decidable s.NoLostWakeup :=
  inferInstanceAs (Decidable (_ → _ → _))

/-- The queue is empty when it is first armed and holds no more than the one
completion that is taken next whenever it is armed again. -/
def ArmsOne (s : FilterHandler) : PollerStep → Prop
  | .arrive => True
  | .thread _ => (s.pc = .start → s.cq.entries = 0) ∧ (s.pc = .notify → s.cq.entries ≤ 1)

instance (s : FilterHandler) : (a : PollerStep) → Decidable (s.ArmsOne a)
  | .arrive => isTrue trivial
  | .thread _ => inferInstanceAs (Decidable ((_ → _) ∧ (_ → _)))

structure Inv (s : FilterHandler) : Prop where
  polling : s.pc = .pollCq → s.cq.Wakes 1
  waiting : s.pc = .handle ∨ s.pc = .getEvent → s.cq.Wakes 0

theorem Inv.noLostWakeup {s : FilterHandler} (h : s.Inv) : s.NoLostWakeup :=
  fun hpc hevents => Nat.le_zero.mp ((h.waiting (Or.inr hpc)).entries_le hevents)

theorem Inv.step {s s' : FilterHandler} {a : PollerStep} (h : s.Inv) (hok : s.ArmsOne a)
    (hstep : s.step a = some s') : s'.Inv := by
  cases a with
  | arrive =>
      cases hstep
      exact ⟨fun hpc => (h.polling hpc).arrive, fun hpc => (h.waiting hpc).arrive⟩
  | thread elapsed =>
      rw [FilterHandler.step, call] at hstep
      cases hpc : s.pc with
      | start =>
          simp only [hpc] at hstep
          cases hstep
          exact ⟨nofun, fun _ => EventQueue.wakes_arm (Nat.le_of_eq (hok.1 hpc))⟩
      | getEvent =>
          simp only [hpc] at hstep
          split at hstep
          · cases hstep
            exact ⟨nofun, nofun⟩
          · cases hstep
      | ack =>
          simp only [hpc] at hstep
          cases hstep
          exact ⟨nofun, nofun⟩
      | notify =>
          simp only [hpc] at hstep
          cases hstep
          exact ⟨fun _ => EventQueue.wakes_arm (hok.2 hpc), nofun⟩
      | pollCq =>
          simp only [hpc] at hstep
          split at hstep
          · cases hstep
            exact ⟨nofun, fun _ => (h.polling hpc).takeEntry⟩
          · cases hstep
            exact h
      | handle =>
          simp only [hpc] at hstep
          cases hstep
          exact ⟨nofun, fun _ => h.waiting (Or.inl hpc)⟩

end FilterHandler

/-! ## Runs -/

/-- In the runs that meet `ArmsEmpty` and `ArmsOne` neither thread waits while
a completion is in its queue. -/
theorem no_lost_wakeup (wcMode : WcMode) (as : List PollerStep) :
    (∀ s, (HybridPoller.system wcMode).Meets HybridPoller.ArmsEmpty (.new wcMode) as →
      (HybridPoller.system wcMode).exec (.new wcMode) as = some s → s.NoLostWakeup) ∧
    (∀ s, FilterHandler.system.Meets FilterHandler.ArmsOne {} as →
      FilterHandler.system.exec {} as = some s → s.NoLostWakeup) := by
  constructor
  · intro s hok hrun
    have hinit : (HybridPoller.new wcMode).Inv := by
      rintro (hpc | hpc)
      · cases hpc
      · cases hpc
    have hinv : s.Inv := System.exec_invariant (P := HybridPoller.ArmsEmpty)
      (fun s a s' h hok hs => h.step hok hs) hinit hok hrun
    exact hinv.noLostWakeup
  · intro s hok hrun
    have hinit : FilterHandler.Inv {} := ⟨nofun, nofun⟩
    have hinv : s.Inv := System.exec_invariant (P := FilterHandler.ArmsOne)
      (fun s a s' h hok hs => h.step hok hs) hinit hok hrun
    exact hinv.noLostWakeup

/-- A completion is announced and handled, the next round finds nothing. -/
def quietRound : List PollerStep :=
  [.thread 0, .arrive, .thread 0, .thread 0, .thread 0, .thread 0, .thread 0, .thread 0,
   .thread 0, .thread 2000000, .thread 0, .thread 0, .thread 0, .thread 0, .thread 0,
   .thread 2000000, .thread 0, .thread 0, .thread 0]

theorem no_lost_wakeup_quietRound :
    ∃ s t, (HybridPoller.system .adaptive).exec (.new .adaptive) quietRound = some s ∧
      s.pc = .getEvent ∧ s.NoLostWakeup ∧
      FilterHandler.system.exec {} (quietRound.take 7) = some t ∧ t.pc = .getEvent ∧
      t.NoLostWakeup := by
  have hhybrid : ((HybridPoller.system .adaptive).exec (.new .adaptive) quietRound).map
      HybridPoller.pc = some .getEvent := by decide +kernel
  have hfilter : (FilterHandler.system.exec {} (quietRound.take 7)).map FilterHandler.pc =
      some .getEvent := by decide +kernel
  obtain ⟨s, hs, hspc⟩ := Option.map_eq_some_iff.mp hhybrid
  obtain ⟨t, ht, htpc⟩ := Option.map_eq_some_iff.mp hfilter
  exact ⟨s, t, hs, hspc, (no_lost_wakeup .adaptive quietRound).1 s (by decide +kernel) hs,
    ht, htpc, (no_lost_wakeup .adaptive (quietRound.take 7)).2 t
      (by decide +kernel) ht⟩

/-- A completion arrives between the last look at the queue and the arming. -/
def lateArrival : List PollerStep :=
  [.thread 0, .arrive, .thread 0, .thread 0, .thread 0, .thread 0, .thread 0, .thread 0,
   .thread 0, .thread 2000000, .thread 0, .thread 0, .thread 0, .thread 0, .thread 0,
   .arrive, .thread 2000000, .thread 0, .thread 0, .thread 0]

/-- Two completions arrive before the handler has taken the event of the
first. -/
def twoArrivals : List PollerStep :=
  [.thread 0, .arrive, .arrive, .thread 0, .thread 0, .thread 0, .thread 0, .thread 0]

/-- Both threads wait for an event while a completion is in the queue. -/
theorem wakeup_lost :
    (∃ s, (HybridPoller.system .adaptive).exec (.new .adaptive) lateArrival = some s ∧
      ¬ s.NoLostWakeup) ∧
    ∃ t, FilterHandler.system.exec {} twoArrivals = some t ∧ ¬ t.NoLostWakeup := by
  have hhybrid : ((HybridPoller.system .adaptive).exec (.new .adaptive) lateArrival).map
      (fun s => decide s.NoLostWakeup) = some false := by decide +kernel
  have hfilter : (FilterHandler.system.exec {} twoArrivals).map
      (fun s => decide s.NoLostWakeup) = some false := by decide +kernel
  obtain ⟨s, hs, hslost⟩ := Option.map_eq_some_iff.mp hhybrid
  obtain ⟨t, ht, htlost⟩ := Option.map_eq_some_iff.mp hfilter
  exact ⟨⟨s, hs, of_decide_eq_false hslost⟩, t, ht, of_decide_eq_false htlost⟩

end CleancacheRdma.Daemon
