import Mathlib
import CleancacheRdma.Lib.RoundRobin
import CleancacheRdma.Daemon.Linearization

/-!
# The global pollers

`data_cq_poller` with `GLOBAL_QP_POLLER`, the poller type of a daemon that
waits busily: one thread for each number of a data queue goes around the
clients. It polls once and moves on, whether it found a completion or not. A
filter queue has a thread of its own.
-/

namespace CleancacheRdma.Daemon

open Lib (System Turns)

/-- `idx qid` is that of the thread for the queues `qid`. -/
structure Pollers (Page : Type) where
  daemon : QueuedServer Page
  clientCtr : ℕ := 0
  idx : ℕ → ℕ := fun _ => 0

/-- `connected` is `client_ctr++` of `run_rdma`. -/
inductive PollersStep (Page : Type) where
  | poll (qid : ℕ) (d : Draw)
  | filter (cid : ℕ) (d : Draw)
  | arrive (cid qid : ℕ) (x : Arrival Page)
  | connected
  | own (a : ServerStep Page)

namespace Pollers

variable {Page : Type} (hash : HashFuncs) (exclusivePolicy : Bool) (s : Pollers Page)

def step : PollersStep Page → Option (Pollers Page)
  | .poll qid d =>
      -- no client yet, `sleep(1)`
      if s.clientCtr = 0 ∨ numDataQps ≤ qid then none
      else
        let cid := s.idx qid
        let idx := Function.update s.idx qid ((cid + 1) % s.clientCtr)
        match s.daemon.cqs (cid, qid) with
        | [] => some { s with idx }
        | _ :: _ =>
            (s.daemon.step hash exclusivePolicy (.handle cid qid d)).map fun daemon =>
              { s with daemon, idx }
  | .filter cid d =>
      (s.daemon.step hash exclusivePolicy (.handle cid numDataQps d)).map fun daemon =>
        { s with daemon }
  | .arrive cid qid x =>
      (s.daemon.step hash exclusivePolicy (.arrive cid qid x)).map fun daemon => { s with daemon }
  | .connected => some { s with clientCtr := s.clientCtr + 1 }
  | .own a => (s.daemon.step hash exclusivePolicy (.own a)).map fun daemon => { s with daemon }

/-- How many completions of a queue a step takes. -/
def serves (q : ℕ × ℕ) : PollersStep Page → ℕ
  | .poll qid _ => if (s.idx qid, qid) = q ∧ s.daemon.cqs q ≠ [] then 1 else 0
  | .filter cid _ => if (cid, numDataQps) = q then 1 else 0
  | .arrive _ _ _ | .connected | .own _ => 0

/-- The polls of one thread. -/
def polls (qid : ℕ) (_ : Pollers Page) : PollersStep Page → ℕ
  | .poll i _ => if i = qid then 1 else 0
  | .filter _ _ | .arrive _ _ _ | .connected | .own _ => 0

end Pollers

/-- The daemon from the start on, with its pollers. -/
def pollersSystem {Page : Type} (hash : HashFuncs) (exclusivePolicy : Bool) (s₀ : Server Page) :
    System (Pollers Page) (PollersStep Page) where
  init s := s = { daemon := { server := s₀ } }
  step := Pollers.step hash exclusivePolicy

namespace Pollers

variable {Page : Type} {hash : HashFuncs} {exclusivePolicy : Bool} {s s' : Pollers Page}
  {cid qid : ℕ} {q : ℕ × ℕ}

/-! ## What a step does -/

theorem step_poll {d : Draw} (h : s.step hash exclusivePolicy (.poll qid d) = some s') :
    0 < s.clientCtr ∧ s'.clientCtr = s.clientCtr ∧
      s'.idx = Function.update s.idx qid ((s.idx qid + 1) % s.clientCtr) ∧
      ((s.daemon.cqs (s.idx qid, qid) = [] ∧ s'.daemon = s.daemon) ∨
        (s.daemon.cqs (s.idx qid, qid) ≠ [] ∧
          s.daemon.step hash exclusivePolicy (.handle (s.idx qid) qid d) = some s'.daemon)) := by
  simp only [step] at h
  split at h
  · cases h
  next hguard =>
    push Not at hguard
    have hpos := Nat.pos_of_ne_zero hguard.1
    split at h
    next hcq =>
      cases h
      exact ⟨hpos, rfl, rfl, Or.inl ⟨hcq, rfl⟩⟩
    next c rest hcq =>
      obtain ⟨daemon, hstep, rfl⟩ := Option.map_eq_some_iff.mp h
      exact ⟨hpos, rfl, rfl, Or.inr ⟨by rw [hcq]; exact List.cons_ne_nil c rest, hstep⟩⟩

/-- Which step of the daemon a step is. -/
def below (s : Pollers Page) : PollersStep Page → List (QueuedStep Page)
  | .poll qid d => if s.daemon.cqs (s.idx qid, qid) = [] then [] else [.handle (s.idx qid) qid d]
  | .filter cid d => [.handle cid numDataQps d]
  | .arrive cid qid x => [.arrive cid qid x]
  | .connected => []
  | .own a => [.own a]

theorem exec_below (s₀ : Server Page) {a : PollersStep Page}
    (h : s.step hash exclusivePolicy a = some s') :
    (queuedSystem hash exclusivePolicy s₀).exec s.daemon (s.below a) = some s'.daemon := by
  have hone : ∀ {b : QueuedStep Page} {f : QueuedServer Page → Pollers Page},
      (∀ t, (f t).daemon = t) → (s.daemon.step hash exclusivePolicy b).map f = some s' →
        (queuedSystem hash exclusivePolicy s₀).exec s.daemon [b] = some s'.daemon := by
    intro b f hf hb
    obtain ⟨daemon, hstep, rfl⟩ := Option.map_eq_some_iff.mp hb
    rw [hf]
    exact System.exec_cons_some.mpr ⟨daemon, hstep, rfl⟩
  cases a with
  | poll qid d =>
      obtain ⟨-, -, -, ⟨hcq, heq⟩ | ⟨hcq, hstep⟩⟩ := step_poll h
      · rw [below, if_pos hcq, heq]
        rfl
      · rw [below, if_neg hcq]
        exact System.exec_cons_some.mpr ⟨s'.daemon, hstep, rfl⟩
  | filter cid d => exact hone (fun _ => rfl) h
  | arrive cid qid x => exact hone (fun _ => rfl) h
  | connected =>
      cases h
      rfl
  | own a => exact hone (fun _ => rfl) h

/-- What the daemon asks of its clients. -/
def Orderly (s : Pollers Page) (a : PollersStep Page) : Prop := ∀ b ∈ s.below a, s.daemon.Orderly b

/-- The message that arrives on a queue. -/
def arrivalOn (q : ℕ × ℕ) : PollersStep Page → Option (Arrival Page)
  | .arrive cid qid x => if (cid, qid) = q then some x else none
  | .poll _ _ | .filter _ _ | .connected | .own _ => none

/-- At most one step, with the same message. -/
theorem below_cases (s : Pollers Page) (a : PollersStep Page) :
    (s.below a = [] ∧ ∀ q, arrivalOn q a = none) ∨
      ∃ b, s.below a = [b] ∧ ∀ q, arrivalOn q a = b.arrivalOn q := by
  cases a with
  | poll qid d =>
      rw [below]
      split
      · exact Or.inl ⟨rfl, fun _ => rfl⟩
      · exact Or.inr ⟨_, rfl, fun _ => rfl⟩
  | connected => exact Or.inl ⟨rfl, fun _ => rfl⟩
  | filter cid d => exact Or.inr ⟨_, rfl, fun _ => rfl⟩
  | arrive cid qid x => exact Or.inr ⟨_, rfl, fun _ => rfl⟩
  | own a => exact Or.inr ⟨_, rfl, fun _ => rfl⟩

/-- The pollers serve the queues in one of the orders in which that can be done. -/
theorem exec_queued {s₀ : Server Page} {as : List (PollersStep Page)}
    (hok : (pollersSystem hash exclusivePolicy s₀).Meets Orderly s as)
    (hrun : (pollersSystem hash exclusivePolicy s₀).exec s as = some s') :
    ∃ bs, (queuedSystem hash exclusivePolicy s₀).Meets QueuedServer.Orderly s.daemon bs ∧
      (queuedSystem hash exclusivePolicy s₀).exec s.daemon bs = some s'.daemon ∧
      ∀ q, as.filterMap (arrivalOn q) = bs.filterMap (QueuedStep.arrivalOn q) := by
  obtain ⟨bs, t, hmeets, hexec, rfl, harrivals⟩ := System.simulates
    (S := pollersSystem hash exclusivePolicy s₀) (T := queuedSystem hash exclusivePolicy s₀)
    (Q := QueuedServer.Orderly) (t := s.daemon)
    (R := fun as bs m n => n = m.daemon ∧
      ∀ q, as.filterMap (arrivalOn q) = bs.filterMap (QueuedStep.arrivalOn q))
    (fun as bs m n a m' hrel _ hok hstep => by
      obtain ⟨rfl, harrivals⟩ := hrel
      have hexec := exec_below s₀ hstep
      rcases m.below_cases a with ⟨hbelow, hnone⟩ | ⟨b, hbelow, hsame⟩
      · refine ⟨[], m'.daemon, trivial, hbelow ▸ hexec, rfl, fun q => ?_⟩
        rw [List.filterMap_append, harrivals q, List.append_nil]
        simp [hnone q]
      · refine ⟨[b], m'.daemon, ⟨hok b ?_, fun _ _ => trivial⟩, hbelow ▸ hexec, rfl, fun q => ?_⟩
        · rw [hbelow]
          exact List.mem_singleton.mpr rfl
        · rw [List.filterMap_append, List.filterMap_append, harrivals q]
          simp [List.filterMap_cons, hsame q])
    ⟨rfl, fun _ => rfl⟩ hok hrun
  exact ⟨bs, hmeets, hexec, harrivals⟩

/-- So a daemon with these pollers is one that handles every message at once. -/
theorem exec_polled {s₀ : Server Page} (hinv : s₀.Inv hash) (hone : s₀.SinglePlace)
    {as : List (PollersStep Page)}
    (hok : (pollersSystem hash exclusivePolicy s₀).Meets Orderly { daemon := { server := s₀ } } as)
    (hrun : (pollersSystem hash exclusivePolicy s₀).exec { daemon := { server := s₀ } } as = some s) :
    ∃ qs bs t, AtOnce hash exclusivePolicy s₀ qs bs s.daemon t ∧
      ∀ q, as.filterMap (arrivalOn q) = qs.filterMap (QueuedStep.arrivalOn q) := by
  obtain ⟨qs, hqs, hexec, harrivals⟩ := exec_queued hok hrun
  obtain ⟨bs, t, hatOnce⟩ := exec_atOnce hinv hone hqs hexec
  exact ⟨qs, bs, t, hatOnce, harrivals⟩

/-! ## Turns -/

/-- A handled completion leaves its queue, and nothing else does. -/
theorem length_cqs_handle {d : QueuedServer Page} {draw : Draw} {d' : QueuedServer Page}
    (h : d.step hash exclusivePolicy (.handle cid qid draw) = some d') (q : ℕ × ℕ) :
    (d.cqs q).length = (d'.cqs q).length + if (cid, qid) = q then 1 else 0 := by
  obtain ⟨c, rest, server, r, hcq, -, rfl⟩ := QueuedServer.step_handle h
  by_cases hq : (cid, qid) = q
  · subst hq
    rw [if_pos rfl, hcq]
    simp
  · simp [hq, Ne.symm hq]

theorem length_cqs_step {a : PollersStep Page} (h : s.step hash exclusivePolicy a = some s')
    (q : ℕ × ℕ) :
    (s.daemon.cqs q).length ≤ (s'.daemon.cqs q).length + s.serves q a := by
  cases a with
  | poll qid d =>
      obtain ⟨-, -, -, ⟨hcq, heq⟩ | ⟨hcq, hstep⟩⟩ := step_poll h
      · rw [heq]
        exact Nat.le_add_right _ _
      · rw [length_cqs_handle hstep q]
        apply Nat.add_le_add_left
        rw [serves]
        by_cases hq : (s.idx qid, qid) = q
        · subst hq
          rw [if_pos rfl, if_pos ⟨rfl, hcq⟩]
        · rw [if_neg hq]
          exact Nat.zero_le _
  | filter cid d =>
      obtain ⟨daemon, hstep, rfl⟩ := Option.map_eq_some_iff.mp h
      exact Nat.le_of_eq (length_cqs_handle hstep q)
  | arrive cid qid x =>
      obtain ⟨daemon, hstep, rfl⟩ := Option.map_eq_some_iff.mp h
      obtain ⟨addr, server, -, -, rfl⟩ := QueuedServer.step_arrive hstep
      by_cases hq : q = (cid, qid)
      · subst hq
        simp [serves]
      · simp [serves, hq]
  | connected =>
      cases h
      exact Nat.le_refl _
  | own a =>
      obtain ⟨daemon, hstep, rfl⟩ := Option.map_eq_some_iff.mp h
      obtain ⟨-, server, r, -, rfl⟩ := QueuedServer.step_own hstep
      exact Nat.le_refl _

/-- A thread that polls is at a client. -/
theorem idx_lt {s₀ : Server Page} (h : (pollersSystem hash exclusivePolicy s₀).Reachable s)
    (hpos : 0 < s.clientCtr) (qid : ℕ) : s.idx qid < s.clientCtr := by
  have hinv : ∀ qid, s.idx qid = 0 ∨ s.idx qid < s.clientCtr := by
    refine System.Reachable.invariant (I := fun s => ∀ qid, s.idx qid = 0 ∨ s.idx qid < s.clientCtr)
      ?_ ?_ h
    · rintro s rfl qid
      exact Or.inl rfl
    · intro s a s' hI hstep i
      cases a with
      | poll qid d =>
          obtain ⟨hpos, hctr, hidx, -⟩ := step_poll hstep
          rw [hctr, hidx]
          by_cases hi : i = qid
          · subst hi
            rw [Function.update_self]
            exact Or.inr (Nat.mod_lt _ hpos)
          · rw [Function.update_of_ne hi]
            exact hI i
      | filter cid d =>
          obtain ⟨daemon, -, rfl⟩ := Option.map_eq_some_iff.mp hstep
          exact hI i
      | arrive cid qid x =>
          obtain ⟨daemon, -, rfl⟩ := Option.map_eq_some_iff.mp hstep
          exact hI i
      | connected =>
          cases hstep
          exact (hI i).imp_right fun hlt => Nat.lt_succ_of_lt hlt
      | own a =>
          obtain ⟨daemon, -, rfl⟩ := Option.map_eq_some_iff.mp hstep
          exact hI i
  rcases hinv qid with hzero | hlt
  · rw [hzero]
    exact hpos
  · exact hlt

/-- One step, while completions of the client wait. -/
theorem turns_step {served : ℕ → ℕ} {visits : ℕ} (hqid : qid < numDataQps)
    (h : Turns cid s.clientCtr (s.idx qid) served visits) (hwaits : s.daemon.cqs (cid, qid) ≠ [])
    {a : PollersStep Page} (hstep : s.step hash exclusivePolicy a = some s') :
    Turns cid s'.clientCtr (s'.idx qid) (fun c => served c + s.serves (c, qid) a)
      (visits + s.polls qid a) := by
  have hquiet : ∀ {a : PollersStep Page}, (∀ c, s.serves (c, qid) a = 0) → s.polls qid a = 0 →
      s'.idx qid = s.idx qid → s.clientCtr ≤ s'.clientCtr →
      Turns cid s'.clientCtr (s'.idx qid) (fun c => served c + s.serves (c, qid) a)
        (visits + s.polls qid a) := by
    intro a hserves hpolls hidx hctr
    rw [hpolls, hidx]
    simp only [hserves]
    exact h.grow hctr
  cases a with
  | poll i d =>
      obtain ⟨-, hctr, hidx, -⟩ := step_poll hstep
      by_cases hi : i = qid
      · subst hi
        rw [hctr, hidx, Function.update_self, polls, if_pos rfl]
        have hother : ∀ c, c ≠ s.idx i → s.serves (c, i) (.poll i d) = 0 := by
          intro c hc
          rw [serves]
          exact if_neg fun hq => hc (congrArg Prod.fst hq.1).symm
        by_cases hturn : s.idx i = cid
        · rw [hturn] at h hother ⊢
          refine h.own ?_ fun c hc => by rw [hother c hc]; rfl
          rw [serves]
          rw [if_pos ⟨by rw [hturn], hwaits⟩]
        · refine h.other hturn ?_ fun c hc => by rw [hother c hc]; rfl
          apply Nat.add_le_add_left
          rw [serves]
          split
          · exact Nat.le_refl 1
          · exact Nat.zero_le 1
      · refine hquiet (fun c => ?_) (if_neg hi) ?_ (Nat.le_of_eq hctr.symm)
        · rw [serves]
          exact if_neg fun hq => hi (congrArg Prod.snd hq.1)
        · rw [hidx, Function.update_of_ne (Ne.symm hi)]
  | filter c d =>
      obtain ⟨daemon, -, rfl⟩ := Option.map_eq_some_iff.mp hstep
      refine hquiet (fun c' => ?_) rfl rfl (Nat.le_refl _)
      rw [serves]
      exact if_neg fun hq => Nat.ne_of_gt hqid (congrArg Prod.snd hq)
  | arrive c i x =>
      obtain ⟨daemon, -, rfl⟩ := Option.map_eq_some_iff.mp hstep
      exact hquiet (fun _ => rfl) rfl rfl (Nat.le_refl _)
  | connected =>
      cases hstep
      exact hquiet (fun _ => rfl) rfl rfl (Nat.le_succ _)
  | own a =>
      obtain ⟨daemon, -, rfl⟩ := Option.map_eq_some_iff.mp hstep
      exact hquiet (fun _ => rfl) rfl rfl (Nat.le_refl _)

/-- In a run from `s` to `s'` nobody else gets two turns between two of the
client, and its thread is not further away than once around. -/
structure InTurn (S : System (Pollers Page) (PollersStep Page)) (cid qid : ℕ) (s : Pollers Page)
    (as : List (PollersStep Page)) (s' : Pollers Page) : Prop where
  others : ∀ c, c ≠ cid → S.tally (fun s => s.serves (c, qid)) s as ≤
    S.tally (fun s => s.serves (cid, qid)) s as + 1
  soon : S.tally (polls qid) s as < (S.tally (fun s => s.serves (cid, qid)) s as + 1) * s'.clientCtr

/-- What waits at the start is still there or was served. -/
theorem length_cqs_exec {s₀ : Server Page} {as : List (PollersStep Page)}
    (hrun : (pollersSystem hash exclusivePolicy s₀).exec s as = some s') (q : ℕ × ℕ) :
    (s.daemon.cqs q).length ≤ (s'.daemon.cqs q).length +
      (pollersSystem hash exclusivePolicy s₀).tally (fun s => s.serves q) s as := by
  induction as using List.reverseRecOn generalizing s' with
  | nil =>
      cases hrun
      exact Nat.le_add_right _ _
  | append_singleton as a ih =>
      obtain ⟨m, has, hstep⟩ := System.exec_snoc_some.mp hrun
      have hlast := length_cqs_step hstep q
      have hrest := ih has
      rw [System.tally_snoc a has]
      omega

theorem turns_exec {s₀ : Server Page} {as : List (PollersStep Page)}
    (hrun : (pollersSystem hash exclusivePolicy s₀).exec s as = some s') (hqid : qid < numDataQps)
    (hcid : cid < s.clientCtr) (hidx : s.idx qid < s.clientCtr)
    (hbusy : (pollersSystem hash exclusivePolicy s₀).tally (fun s => s.serves (cid, qid)) s as <
      (s.daemon.cqs (cid, qid)).length) :
    Turns cid s'.clientCtr (s'.idx qid)
      (fun c => (pollersSystem hash exclusivePolicy s₀).tally (fun s => s.serves (c, qid)) s as)
      ((pollersSystem hash exclusivePolicy s₀).tally (polls qid) s as) := by
  induction as using List.reverseRecOn generalizing s' with
  | nil =>
      cases hrun
      exact .start hidx hcid
  | append_singleton as a ih =>
      obtain ⟨m, has, hstep⟩ := System.exec_snoc_some.mp hrun
      rw [System.tally_snoc a has] at hbusy
      have hbefore := Nat.lt_of_le_of_lt (Nat.le_add_right _ _) hbusy
      have hwaits : m.daemon.cqs (cid, qid) ≠ [] := by
        have hlength := length_cqs_exec has (cid, qid)
        rw [← List.length_pos_iff]
        omega
      have hturns := turns_step hqid (ih has hbefore) hwaits hstep
      simp only [System.tally_snoc a has]
      exact hturns

/-- As long as completions of a client wait on a queue, every other client has
at most one more of its own handled on the queue of that number, and the thread
comes back to the client before it has gone around. -/
theorem polled_in_turn {s₀ : Server Page}
    (hreach : (pollersSystem hash exclusivePolicy s₀).Reachable s) {as : List (PollersStep Page)}
    (hrun : (pollersSystem hash exclusivePolicy s₀).exec s as = some s') {cid qid : ℕ}
    (hcid : cid < s.clientCtr) (hqid : qid < numDataQps)
    (hbusy : (pollersSystem hash exclusivePolicy s₀).tally (fun s => s.serves (cid, qid)) s as <
      (s.daemon.cqs (cid, qid)).length) :
    InTurn (pollersSystem hash exclusivePolicy s₀) cid qid s as s' := by
  have hturns := turns_exec hrun hqid hcid (idx_lt hreach (Nat.zero_lt_of_lt hcid) qid) hbusy
  exact ⟨fun c hc => hturns.once_at_most hc, hturns.soon_enough⟩

/-! ## Two clients -/

/-- Two clients connect, and each has sent its region. -/
def twoClients : List (PollersStep ℕ) :=
  [.own (.recvMr 0), .arrive 0 0 (.send (.mmInfo 1) 0), .connected, .own (.recvMr 1),
   .arrive 1 0 (.send (.mmInfo 2) 0), .connected]

/-- The message of client 1 waits while that of client 0 is handled. -/
theorem polled_in_turn_twoClients :
    ∃ s s', (pollersSystem keyHash true smallServer).exec { daemon := { server := smallServer } }
        twoClients = some s ∧
      (pollersSystem keyHash true smallServer).exec s [.poll 0 {}] = some s' ∧
      InTurn (pollersSystem keyHash true smallServer) 1 0 s [.poll 0 {}] s' := by
  have hshape : ((pollersSystem keyHash true smallServer).exec { daemon := { server := smallServer } }
      twoClients).map (fun s => (s.clientCtr, (s.daemon.cqs (1, 0)).length,
        (pollersSystem keyHash true smallServer).tally (fun s => s.serves (1, 0)) s [.poll 0 {}],
        ((pollersSystem keyHash true smallServer).exec s [.poll 0 {}]).isSome)) =
      some (2, 1, 0, true) := by
    decide +kernel
  obtain ⟨s, hs, heq⟩ := Option.map_eq_some_iff.mp hshape
  simp only [Prod.mk.injEq] at heq
  obtain ⟨hctr, hlength, htally, hsome⟩ := heq
  obtain ⟨s', hrun⟩ := Option.isSome_iff_exists.mp hsome
  refine ⟨s, s', hs, hrun, polled_in_turn ⟨_, twoClients, rfl, hs⟩ hrun ?_ (by decide) ?_⟩
  · rw [hctr]
    decide
  · rw [hlength, htally]
    decide

end Pollers

end CleancacheRdma.Daemon
