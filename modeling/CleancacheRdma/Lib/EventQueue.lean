import Mathlib.Tactic.Common

/-!
# Queues that announce entries by events

A queue of entries and a channel of events. An entry added while the queue is
armed makes one event and disarms it; arming says nothing about the entries
already there. `Wakes n` is what a consumer that is about to wait relies on: an
event is pending, or the queue is armed with at most `n` entries unannounced.
-/

namespace CleancacheRdma.Lib

structure EventQueue where
  entries : ℕ := 0
  armed : Bool := false
  events : ℕ := 0
deriving DecidableEq

namespace EventQueue

variable {q : EventQueue} {n : ℕ}

def arrive (q : EventQueue) : EventQueue :=
  if q.armed then { entries := q.entries + 1, armed := false, events := q.events + 1 }
  else { q with entries := q.entries + 1 }

def arm (q : EventQueue) : EventQueue := { q with armed := true }

def takeEvent (q : EventQueue) : EventQueue := { q with events := q.events - 1 }

def takeEntry (q : EventQueue) : EventQueue := { q with entries := q.entries - 1 }

def Wakes (n : ℕ) (q : EventQueue) : Prop := (q.armed = true ∧ q.entries ≤ n) ∨ 0 < q.events

theorem wakes_arm (h : q.entries ≤ n) : q.arm.Wakes n := Or.inl ⟨rfl, h⟩

theorem Wakes.arrive (h : q.Wakes n) : q.arrive.Wakes n := by
  unfold EventQueue.arrive
  rcases h with ⟨harmed, -⟩ | hevents
  · rw [if_pos harmed]
    exact Or.inr (Nat.succ_pos _)
  · split
    · exact Or.inr (Nat.succ_pos _)
    · exact Or.inr hevents

theorem Wakes.takeEntry (h : q.Wakes (n + 1)) : q.takeEntry.Wakes n := by
  rcases h with ⟨harmed, hle⟩ | hevents
  · exact Or.inl ⟨harmed, Nat.sub_le_of_le_add hle⟩
  · exact Or.inr hevents

/-- Without an event pending nothing is left behind. -/
theorem Wakes.entries_le (h : q.Wakes n) (hevents : q.events = 0) : q.entries ≤ n := by
  rcases h with ⟨-, hle⟩ | hpos
  · exact hle
  · exact absurd hevents (Nat.ne_of_gt hpos)

end EventQueue

end CleancacheRdma.Lib
