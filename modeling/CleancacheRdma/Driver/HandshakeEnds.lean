import Mathlib
import CleancacheRdma.Driver.Placed
import CleancacheRdma.Lib.Progress

/-!
# The main thread does not wait for ever

While the daemon waits for a driver that was loaded, or for the end of one that
is being unloaded, some step of theirs is enabled, and each of them brings the
driver's queues or its thread forward.
-/

namespace CleancacheRdma.Driver

open Daemon (HashFuncs Server ServerStep CmId CmEvent CmEventType MmInfo ConnConfig Phase
  Outgoing Listener numQps)
open Lib (System Tokens Ends)

/-! ## Stages, read off the state -/

namespace DriverPhase

/-- Steps of the thread of `dcc_rdma_init` that no connection shows. -/
def left : DriverPhase → ℕ
  | .initQueue idx | .waitForCm idx => numQps - idx + 1
  | .recvRemotemr => 1
  | .unloaded | .initFailed _ _ | .sendLocalmr | .ready | .stopQueue _ | .exited => 0

theorem left_le (phase : DriverPhase) : phase.left ≤ numQps + 1 := by
  cases phase with
  | initQueue idx | waitForCm idx => exact Nat.succ_le_succ (Nat.sub_le _ _)
  | recvRemotemr => exact Nat.succ_le_succ (Nat.zero_le _)
  | unloaded | initFailed _ _ | sendLocalmr | ready | stopQueue _ | exited =>
      exact Nat.zero_le _

theorem left_nextQueue {idx : ℕ} (h : idx < numQps) :
    (nextQueue idx).left < (DriverPhase.waitForCm idx).left := by
  rcases nextQueue_or idx with ⟨-, hnext⟩ | ⟨-, hnext⟩
  · rw [hnext]
    show numQps - (idx + 1) + 1 < numQps - idx + 1
    omega
  · rw [hnext]
    show 1 < numQps - idx + 1
    omega

theorem left_nextStop (idx : ℕ) : (nextStop idx).left = 0 := by
  rcases nextStop_or idx with ⟨-, hnext⟩ | ⟨-, hnext⟩
  · rw [hnext]
    rfl
  · rw [hnext]
    rfl

end DriverPhase

/-- Whom the main thread waits for, without the count of its queues. -/
def waitsAt : Phase → Phase
  | .connecting c _ => .connecting c 0
  | .leaving c _ => .leaving c 0
  | .done => .done

namespace ConnState

variable {Page : Type}

def linkOf (s : ConnState Page) (id : CmId) : LinkStage :=
  match ((s.drivers id.driver).queues id.queue).stage with
  | .idle | .failed => .idle
  | .resolvingAddr => .resolvingAddr
  | .resolvingRoute => .resolvingRoute
  | .connecting =>
      if .req id ∈ s.net then .requested
      else if ⟨id, .connectRequest⟩ ∈ s.ec then .pending
      else .accepted
  | .established =>
      if .rtu id ∈ s.net then .confirming
      else if ⟨id, .established⟩ ∈ s.ec then .confirmed
      else .connected
  | .disconnected =>
      if .dreq id ∈ s.net then .closing
      else if ⟨id, .disconnected⟩ ∈ s.ec then .closed
      else .gone

/-- The driver in the place for which the main thread waits. -/
def waitsFor (s : ConnState Page) : Option ℕ :=
  match s.listener.phase with
  | .connecting c _ | .leaving c _ => s.joined[c]?
  | .done => none

/-- The driver that the main thread waits for was loaded, or is being unloaded. -/
def Waiting (s : ConnState Page) : Prop :=
  match s.listener.phase with
  | .connecting c _ => c < s.joined.length
  | .leaving c _ => ∃ d, s.joined[c]? = some d ∧ (s.drivers d).phase.Stopped
  | .done => False

/-- What that driver and its connections have before them. -/
def toGo (s : ConnState Page) : ℕ :=
  match s.waitsFor with
  | some d => (s.drivers d).phase.left +
      ∑ k ∈ Finset.range numQps, (11 - (s.linkOf ⟨d, k⟩).rank)
  | none => 0

end ConnState

/-- A step of a driver that comes or goes, of the network or of the main thread. -/
def ConnStep.Goes {Page : Type} : ConnStep Page → Prop
  | .initQueue _ | .addrResolved _ | .routeResolved _ | .waitForCm _ | .recvRemotemr _
  | .stopQueue _ | .deliver _ | .handleEvent | .finishClient | .freeClient => True
  | .load _ | .cmFails _ _ | .waitTimesOut _ | .unload _ | .sendLocalmr _ _ | .reportOther _
  | .server _ => False

instance {Page : Type} : DecidablePred (@ConnStep.Goes Page)
  | .initQueue _ | .addrResolved _ | .routeResolved _ | .waitForCm _ | .recvRemotemr _
  | .stopQueue _ | .deliver _ | .handleEvent | .finishClient | .freeClient => isTrue trivial
  | .load _ | .cmFails _ _ | .waitTimesOut _ | .unload _ | .sendLocalmr _ _ | .reportOther _
  | .server _ => isFalse not_false

section Ends

variable {Page : Type} {hash : HashFuncs} {exclusivePolicy : Bool} {cfg : ConnConfig}
  {filterAddr : ℕ → BitVec 64} {numHash numBits : ℕ} {s₀ : Server Page}
  {links links' : CmId → LinkStage} {s s' : ConnState Page} {c d k : ℕ}

theorem ConnInv.linkOf_eq
    (h : ConnInv hash exclusivePolicy cfg filterAddr numHash numBits s₀ links s) :
    s.linkOf = links := by
  funext id
  have hstage := (h.drivers id.driver).stage id.queue
  have hreq : .req id ∈ s.net ↔ (links id).msg id = some (.req id) := h.net.mem_iff
  have hrtu : .rtu id ∈ s.net ↔ (links id).msg id = some (.rtu id) := h.net.mem_iff
  have hdreq : .dreq id ∈ s.net ↔ (links id).msg id = some (.dreq id) := h.net.mem_iff
  have hec : ∀ event, ⟨id, event⟩ ∈ s.ec ↔ (links id).cmEvent id = some ⟨id, event⟩ :=
    fun _ => h.ec.mem_iff
  unfold ConnState.linkOf
  rw [hstage]
  simp only [hreq, hrtu, hdreq, hec]
  cases links id <;> simp [LinkStage.cmStage, LinkStage.msg, LinkStage.cmEvent]

theorem ConnInv.toGo_eq
    (h : ConnInv hash exclusivePolicy cfg filterAddr numHash numBits s₀ links s)
    (hwaits : s.waitsFor = some d) : s.toGo = (s.drivers d).phase.left +
      ∑ k ∈ Finset.range numQps, (11 - (links ⟨d, k⟩).rank) := by
  unfold ConnState.toGo
  rw [hwaits, h.linkOf_eq]

/-! ## What the main thread waits for stays -/

/-- The main thread waits for the same driver, and no thread has more before it. -/
structure SameWait (s s' : ConnState Page) : Prop where
  joined : s'.joined = s.joined
  phase : waitsAt s'.listener.phase = waitsAt s.listener.phase
  left : ∀ d, (s'.drivers d).phase.left ≤ (s.drivers d).phase.left

theorem SameWait.waitsFor (h : SameWait s s') : s'.waitsFor = s.waitsFor := by
  have hphase := h.phase
  unfold ConnState.waitsFor
  rw [h.joined]
  cases hp : s.listener.phase <;> cases hp' : s'.listener.phase <;> rw [hp, hp'] at hphase <;>
    cases hphase <;> rfl

theorem foldl_post (out : List Outgoing) (t : ConnState Page) :
    (out.foldl ConnState.post t).listener = t.listener ∧
      (out.foldl ConnState.post t).drivers = t.drivers ∧
      (out.foldl ConnState.post t).joined = t.joined := by
  induction out generalizing t with
  | nil => exact ⟨rfl, rfl, rfl⟩
  | cons o out ih =>
      obtain ⟨hlistener, hdrivers, hjoined⟩ := ih (t.post o)
      rw [List.foldl_cons, hlistener, hdrivers, hjoined]
      cases o <;> exact ⟨rfl, rfl, rfl⟩

/-- One driver moves. -/
theorem SameWait.of_driver {ctrl : DriverCtrl}
    (hdrivers : s'.drivers = Function.update s.drivers d ctrl)
    (hleft : ctrl.phase.left ≤ (s.drivers d).phase.left) (hjoined : s'.joined = s.joined)
    (hphase : waitsAt s'.listener.phase = waitsAt s.listener.phase) : SameWait s s' where
  joined := hjoined
  phase := hphase
  left e := by
    rw [hdrivers]
    by_cases he : e = d
    · subst he
      rw [Function.update_self]
      exact hleft
    · rw [Function.update_of_ne he]

theorem SameWait.disconnect {idx : ℕ} {phase : DriverPhase} (hleft : phase.left = 0) :
    SameWait s (s.disconnect d idx phase) := by
  unfold ConnState.disconnect
  rw [ConnState.setQueue_setPhase]
  exact .of_driver rfl (by rw [hleft]; exact Nat.zero_le _) rfl rfl

theorem waitsAt_handleRdmaCmEvent {l l' : Listener Page} {e : CmEvent} {out : List Outgoing}
    (h : l.handleRdmaCmEvent cfg e = some (l', out)) : waitsAt l'.phase = waitsAt l.phase := by
  unfold Listener.handleRdmaCmEvent at h
  obtain ⟨r, hr, hrest⟩ := Option.bind_eq_some_iff.mp h
  rw [← Listener.onEvent_phase hr]
  dsimp only at hrest
  by_cases hzero : r.2.1 = 0
  · rw [if_pos hzero] at hrest
    cases hrest
    rfl
  · rw [if_neg hzero] at hrest
    split at hrest
    next hphase =>
      obtain ⟨-, heq⟩ := Option.ite_none_left_eq_some.mp hrest
      cases heq
      rw [hphase]
      rfl
    next hphase =>
      obtain ⟨-, heq⟩ := Option.ite_none_left_eq_some.mp hrest
      cases heq
      rw [hphase]
      rfl
    next => cases hrest

theorem SameWait.deliver (i : ℕ) (m : CmMsg) :
    SameWait s ({ s with net := s.net.eraseIdx i }.arrive m) := by
  cases m with
  | req id | rtu id | dreq id => exact ⟨rfl, rfl, fun _ => le_rfl⟩
  | rep id =>
      unfold ConnState.arrive
      dsimp only
      split
      · exact .of_driver rfl le_rfl rfl rfl
      · exact ⟨rfl, rfl, fun _ => le_rfl⟩

theorem SameWait.handleEvent (hstep : s.handleEvent cfg = some s') : SameWait s s' := by
  unfold ConnState.handleEvent at hstep
  split at hstep
  · cases hstep
  · obtain ⟨-, hmap⟩ := Option.ite_none_right_eq_some.mp hstep
    obtain ⟨⟨l, out⟩, hhandle, rfl⟩ := Option.map_eq_some_iff.mp hmap
    obtain ⟨hlistener, hdrivers, hjoined⟩ :=
      foldl_post out { s with listener := l, ec := ‹List CmEvent› }
    exact ⟨hjoined, by rw [hlistener]; exact waitsAt_handleRdmaCmEvent hhandle,
      fun d => by rw [hdrivers]⟩

/-- The threads and the network bring the wait on and do not end it. -/
theorem SameWait.of_moves {a : ConnStep Page}
    (hstep : s.step hash exclusivePolicy cfg filterAddr a = some s') (hmoves : a.Moves) :
    SameWait s s' := by
  cases a with
  | load _ | cmFails _ _ | waitForCm _ | waitTimesOut _ | recvRemotemr _ | sendLocalmr _ _
  | unload _ | reportOther _ | finishClient | freeClient | server _ => exact absurd hmoves not_false
  | initQueue d =>
      change s.initQueue d = some s' at hstep
      unfold ConnState.initQueue at hstep
      split at hstep
      next idx hphase =>
        cases hstep
        rw [ConnState.setQueue_setPhase]
        exact .of_driver rfl (by rw [hphase]; exact le_rfl) rfl rfl
      · cases hstep
  | addrResolved d =>
      change s.addrResolved d = some s' at hstep
      unfold ConnState.addrResolved at hstep
      split at hstep
      · obtain ⟨-, heq⟩ := Option.ite_none_right_eq_some.mp hstep
        cases heq
        exact .of_driver rfl le_rfl rfl rfl
      · cases hstep
  | routeResolved d =>
      change s.routeResolved d = some s' at hstep
      unfold ConnState.routeResolved at hstep
      split at hstep
      · obtain ⟨-, heq⟩ := Option.ite_none_right_eq_some.mp hstep
        cases heq
        exact .of_driver rfl le_rfl rfl rfl
      · cases hstep
  | stopQueue d =>
      change s.stopQueue d = some s' at hstep
      unfold ConnState.stopQueue at hstep
      split at hstep
      next idx hphase =>
        cases hstep
        exact .disconnect (DriverPhase.left_nextStop idx)
      next hphase =>
        obtain ⟨-, heq⟩ := Option.ite_none_right_eq_some.mp hstep
        cases heq
        exact .disconnect rfl
      · cases hstep
  | deliver i =>
      obtain ⟨m, -, rfl⟩ := Option.map_eq_some_iff.mp hstep
      exact .deliver i m
  | handleEvent => exact .handleEvent hstep

/-! ## Every step of theirs counts -/

/-- A connection that comes further while the main thread waits is one of the
driver that it waits for. -/
theorem ConnInv.toGo_lt_of_advances
    (h : ConnInv hash exclusivePolicy cfg filterAddr numHash numBits s₀ links s)
    (h' : ConnInv hash exclusivePolicy cfg filterAddr numHash numBits s₀ links' s')
    (hadv : Advances links links') (hsame : SameWait s s') (hwaiting : s.Waiting) :
    s'.toGo < s.toGo := by
  obtain ⟨id, st, rfl, hrank⟩ := hadv
  obtain ⟨d, k⟩ := id
  have hself : Function.update links ⟨d, k⟩ st ⟨d, k⟩ = st := Function.update_self _ _ _
  obtain ⟨hk, c, hc'⟩ := h'.place (d := d) (k := k) (by
    rw [hself]
    rintro rfl
    exact absurd hrank (by simp [LinkStage.rank]))
  have hc : s.joined[c]? = some d := hsame.joined ▸ hc'
  have hphase := hsame.phase
  have hwaits : s.waitsFor = some d := by
    unfold ConnState.Waiting at hwaiting
    unfold ConnState.waitsFor
    cases hp : s.listener.phase with
    | done =>
        rw [hp] at hwaiting
        exact absurd hwaiting not_false
    | connecting c₀ i =>
        rw [hp] at hphase
        have hup : ¬ (s'.drivers d).phase.Stopped := by
          intro hs
          have hleft := h'.stopped c d hc' hs
          cases hp' : s'.listener.phase with
          | connecting _ _ =>
              rw [hp'] at hleft
              exact hleft
          | leaving _ _ | done =>
              rw [hp'] at hphase
              cases hphase
        have hle := (h'.drivers d).rank_le hup k
        rw [hself, hrank] at hle
        obtain ⟨j, hj, -⟩ := h.joining hc hk (Nat.lt_of_succ_le hle)
        cases hp.symm.trans hj
        exact hc
    | leaving c₀ i =>
        rw [hp] at hphase
        have hge : 8 ≤ (links ⟨d, k⟩).rank := by
          by_contra hlt
          obtain ⟨j, hj, -⟩ := h.joining hc hk (Nat.not_le.mp hlt)
          cases hp.symm.trans hj
        by_cases hgone : st = .gone
        · subst hgone
          have hten : (links ⟨d, k⟩).rank = 10 := (Nat.succ.inj hrank).symm
          obtain ⟨j, hj, -⟩ := h.departing hc hk (by rw [hten]; decide)
            (fun hg => by rw [hg] at hten; exact absurd hten (by decide))
          cases hp.symm.trans hj
          exact hc
        · obtain ⟨j, hj, -⟩ := h'.departing hc' hk
            (by rw [hself, hrank]; exact Nat.succ_le_succ hge) (by rw [hself]; exact hgone)
          rw [hj] at hphase
          cases hphase
          exact hc
  rw [h.toGo_eq hwaits, h'.toGo_eq (hsame.waitsFor.trans hwaits)]
  refine Nat.add_lt_add_of_le_of_lt (hsame.left d) ?_
  have hle : st.rank ≤ 11 := by cases st <;> decide
  refine Finset.sum_lt_sum (fun j _ => ?_) ⟨k, Finset.mem_range.mpr hk, ?_⟩
  · by_cases hj : j = k
    · subst hj
      rw [hself, hrank]
      exact Nat.sub_le_sub_left (Nat.le_succ _) 11
    · rw [Function.update_of_ne fun he => hj (congrArg CmId.queue he)]
  · rw [hself, hrank]
    omega

theorem ConnInv.toGo_lt_of_left
    (h : ConnInv hash exclusivePolicy cfg filterAddr numHash numBits s₀ links s)
    (h' : ConnInv hash exclusivePolicy cfg filterAddr numHash numBits s₀ links s')
    (hsame : SameWait s s') (hwaits : s.waitsFor = some d)
    (hlt : (s'.drivers d).phase.left < (s.drivers d).phase.left) : s'.toGo < s.toGo := by
  rw [h.toGo_eq hwaits, h'.toGo_eq (hsame.waitsFor.trans hwaits)]
  exact Nat.add_lt_add_right hlt _

/-- A driver that was not told its number yet is the one in the last place. -/
theorem ConnInv.waitsFor_of_uninformed
    (h : ConnInv hash exclusivePolicy cfg filterAddr numHash numBits s₀ links s)
    (hloaded : (s.drivers d).phase ≠ .unloaded) (hinf : ¬ (s.drivers d).phase.Informed) :
    s.waitsFor = some d := by
  obtain ⟨c, hc⟩ := List.mem_iff_getElem?.mp ((h.joined d).mpr hloaded)
  have hlt := (List.getElem?_eq_some_iff.mp hc).1
  have hnot : ¬ c < s.listener.clientCtr := fun hlt => hinf (h.mr.before c d hc hlt)
  unfold ConnState.waitsFor
  cases hp : s.listener.phase with
  | connecting c₀ i =>
      have hconn := h.connecting hp
      have hle := hconn.joined_le
      rw [hconn.ctr] at hnot
      obtain rfl : c = c₀ := by omega
      exact hc
  | leaving c₀ i => exact absurd ((h.leaving hp).ctr.symm ▸ hlt) hnot
  | done => exact absurd ((h.finished hp).ctr.symm ▸ hlt) hnot

theorem ConnInv.toGo_waitForCm
    (h : ConnInv hash exclusivePolicy cfg filterAddr numHash numBits s₀ links s)
    (hstep : s.waitForCm d = some s') : s'.toGo < s.toGo := by
  have h' := h.waitForCm hstep
  unfold ConnState.waitForCm at hstep
  split at hstep
  next idx hphase =>
    obtain ⟨hq, heq⟩ := Option.ite_none_right_eq_some.mp hstep
    cases heq
    have hrange := (h.drivers d).inRange
    obtain ⟨hdone, herror⟩ := (h.drivers d).done idx hphase
    rw [hphase] at hrange
    have hlt := DriverPhase.left_nextQueue hrange
    have hwaits := h.waitsFor_of_uninformed (d := d) (by simp [hphase])
      (by rw [hphase]; exact not_false)
    rw [ConnState.waited_ok (herror.mpr (hdone.mp hq)), ConnState.setQueue_setPhase] at h' ⊢
    refine h.toGo_lt_of_left h' (.of_driver rfl ?_ rfl rfl) hwaits ?_
    · rw [hphase]
      exact hlt.le
    · show ((Function.update s.drivers d _) d).phase.left < _
      rw [Function.update_self, hphase]
      exact hlt
  · cases hstep

theorem ConnInv.toGo_recvRemotemr
    (h : ConnInv hash exclusivePolicy cfg filterAddr numHash numBits s₀ links s)
    (hstep : s.recvRemotemr d = some s') : s'.toGo < s.toGo := by
  have h' := h.recvRemotemr hstep
  unfold ConnState.recvRemotemr at hstep
  obtain ⟨hphase, hfound⟩ := Option.ite_none_right_eq_some.mp hstep
  split at hfound
  next m _ =>
    cases hfound
    have hwaits := h.waitsFor_of_uninformed (d := d) (by simp [hphase])
      (by rw [hphase]; exact not_false)
    refine h.toGo_lt_of_left h' (.of_driver rfl (Nat.zero_le _) rfl rfl) hwaits ?_
    show ((Function.update s.drivers d _) d).phase.left < _
    rw [Function.update_self, hphase]
    exact Nat.zero_lt_one
  · cases hfound

/-- The main thread takes up what is next, and nothing was begun of that. -/
theorem ConnInv.not_waiting_finishClient
    (h : ConnInv hash exclusivePolicy cfg filterAddr numHash numBits s₀ links s)
    (hstep : s.finishClient cfg = some s') : ¬ s'.Waiting := by
  have h' := h.finishClient hstep
  unfold ConnState.finishClient at hstep
  split at hstep
  next c i hphase =>
    obtain ⟨⟨rfl, hmrs⟩, heq⟩ := Option.ite_none_right_eq_some.mp hstep
    cases heq
    obtain ⟨hlen, -⟩ := h.all_connected hphase hmrs
    unfold ConnState.Waiting
    cases hp : (s.listener.finishClient cfg c).phase with
    | connecting c' j =>
        have hctr : (s.listener.finishClient cfg c).clientCtr = s.listener.clientCtr + 1 :=
          Listener.awaitClient_clientCtr (c + 1)
        have hc' := (h'.connecting hp).ctr
        change (s.listener.finishClient cfg c).clientCtr = c' at hc'
        rw [hctr, (h.connecting hphase).ctr] at hc'
        show ¬ c' < s.joined.length
        omega
    | leaving c' j =>
        rintro ⟨d, hd, hs⟩
        have hleft := h.stopped c' d hd hs
        rw [hphase] at hleft
        exact hleft
    | done => exact not_false
  · cases hstep

theorem ConnInv.not_waiting_freeClient
    (h : ConnInv hash exclusivePolicy cfg filterAddr numHash numBits s₀ links s)
    (hstep : s.freeClient = some s') : ¬ s'.Waiting := by
  unfold ConnState.freeClient at hstep
  split at hstep
  next c i hphase =>
    obtain ⟨-, hmap⟩ := Option.ite_none_right_eq_some.mp hstep
    obtain ⟨l, hl, rfl⟩ := Option.map_eq_some_iff.mp hmap
    unfold Listener.freeClient at hl
    obtain ⟨-, heq⟩ := Option.ite_none_right_eq_some.mp hl
    cases heq
    unfold ConnState.Waiting
    by_cases hlast : c + 1 < s.listener.clientCtr
    · dsimp only
      rw [if_pos hlast]
      rintro ⟨d, hd, hs⟩
      have hleft := h.stopped (c + 1) d hd hs
      rw [hphase] at hleft
      exact Nat.not_succ_le_self c hleft
    · dsimp only
      rw [if_neg hlast]
      exact not_false
  · cases hstep

/-! ## Some step of theirs is enabled -/

/-- A message on the way can arrive, and an event can be read. -/
theorem ConnInv.wire_enabled
    (h : ConnInv hash exclusivePolicy cfg filterAddr numHash numBits s₀ links s) (id : CmId)
    (hbusy : ((links id).msg id).isSome = true ∨ ((links id).cmEvent id).isSome = true) :
    ∃ a : ConnStep Page, a.Goes ∧ s.Allowed a ∧
      ∃ s', s.step hash exclusivePolicy cfg filterAddr a = some s' := by
  rcases hbusy with hmsg | hevent
  · obtain ⟨m, hm⟩ := Option.isSome_iff_exists.mp hmsg
    obtain ⟨i, hi⟩ := List.mem_iff_getElem?.mp (h.net.of_mem hm)
    exact ⟨.deliver i, trivial, trivial, _, Option.map_eq_some_iff.mpr ⟨m, hi, rfl⟩⟩
  · obtain ⟨e, he⟩ := Option.isSome_iff_exists.mp hevent
    have hmem : e ∈ s.ec := h.ec.of_mem he
    obtain ⟨e', ec, hec⟩ := List.exists_cons_of_ne_nil (List.ne_nil_of_mem hmem)
    obtain ⟨t, -, ht, -, -⟩ := h.handleEvent hec
    exact ⟨.handleEvent, trivial, trivial, t, ht⟩

theorem ConnInv.enabled_waitForCm
    (h : ConnInv hash exclusivePolicy cfg filterAddr numHash numBits s₀ links s) {idx : ℕ}
    (hphase : (s.drivers d).phase = .waitForCm idx) :
    ∃ a : ConnStep Page, a.Goes ∧ s.Allowed a ∧
      ∃ s', s.step hash exclusivePolicy cfg filterAddr a = some s' := by
  have hd := h.drivers d
  have hallows := hd.allows idx
  rw [hphase] at hallows
  simp only [DriverPhase.Allows, lt_irrefl, if_false, if_true] at hallows
  have hstage := hd.stage idx
  have hup : 6 ≤ (links ⟨d, idx⟩).rank → ∃ s', s.waitForCm d = some s' := by
    intro hge
    unfold ConnState.waitForCm
    rw [hphase]
    dsimp only
    rw [if_pos ((hd.done idx hphase).1.mpr hge)]
    exact ⟨_, rfl⟩
  cases hlink : links ⟨d, idx⟩ with
  | idle | closing | closed | gone =>
      rw [hlink] at hallows
      exact absurd hallows (by decide)
  | resolvingAddr =>
      refine ⟨.addrResolved d, trivial, trivial, ?_⟩
      show ∃ s', s.addrResolved d = some s'
      unfold ConnState.addrResolved
      rw [hphase]
      dsimp only
      rw [if_pos (by rw [hstage, hlink]; rfl)]
      exact ⟨_, rfl⟩
  | resolvingRoute =>
      refine ⟨.routeResolved d, trivial, trivial, ?_⟩
      show ∃ s', s.routeResolved d = some s'
      unfold ConnState.routeResolved
      rw [hphase]
      dsimp only
      rw [if_pos (by rw [hstage, hlink]; rfl)]
      exact ⟨_, rfl⟩
  | requested | accepted =>
      exact h.wire_enabled ⟨d, idx⟩ (Or.inl (by rw [hlink]; rfl))
  | pending => exact h.wire_enabled ⟨d, idx⟩ (Or.inr (by rw [hlink]; rfl))
  | confirming | confirmed | connected =>
      exact ⟨.waitForCm d, trivial, trivial, hup (by rw [hlink]; decide)⟩

/-- The daemon finishes the client whose driver was told its number. -/
theorem ConnInv.enabled_finishClient
    (h : ConnInv hash exclusivePolicy cfg filterAddr numHash numBits s₀ links s) {i : ℕ}
    (hphase : s.listener.phase = .connecting c i) (hc : s.joined[c]? = some d)
    (hall : ∀ k < numQps, links ⟨d, k⟩ = .connected) (hinf : (s.drivers d).phase.Informed) :
    ∃ s', s.finishClient cfg = some s' := by
  have hi : i = numQps := by
    rw [(h.connecting hphase).waiting]
    refine (List.countP_eq_length.mpr fun k hk => ?_).trans List.length_range
    rw [linkAt_of links hc, hall k (List.mem_range.mp hk)]
    rfl
  unfold ConnState.finishClient
  rw [hphase]
  dsimp only
  rw [if_pos]
  · exact ⟨_, rfl⟩
  refine ⟨hi, fun m hm heq => ?_⟩
  obtain ⟨c', e, -, -, hninf, rfl⟩ := (h.mr.mem m).mp hm
  rw [h.records.queues, linkAt_of links hc, hall 0 (by decide), List.getD_eq_getElem?_getD,
    hc] at heq
  obtain rfl : e = d := congrArg CmId.driver (Option.some.inj heq)
  exact hninf hinf

/-- The last connections come to the daemon, and then the two ends go on. -/
theorem ConnInv.enabled_accepted
    (h : ConnInv hash exclusivePolicy cfg filterAddr numHash numBits s₀ links s) {i : ℕ}
    (hphase : s.listener.phase = .connecting c i) (hc : s.joined[c]? = some d)
    (hranks : ∀ k < numQps, 6 ≤ (links ⟨d, k⟩).rank ∧ (links ⟨d, k⟩).rank ≤ 8)
    (hpast : (s.drivers d).phase = .recvRemotemr ∨ (s.drivers d).phase.Informed) :
    ∃ a : ConnStep Page, a.Goes ∧ s.Allowed a ∧
      ∃ s', s.step hash exclusivePolicy cfg filterAddr a = some s' := by
  by_cases hall : ∀ k < numQps, links ⟨d, k⟩ = .connected
  · rcases hpast with hrecv | hinf
    · have hninf : ¬ (s.drivers d).phase.Informed := by rw [hrecv]; exact not_false
      have hmem := (h.mr.mem _).mpr ⟨c, d, hc, by rw [hall 0 (by decide)]; decide, hninf, rfl⟩
      have hfound : (s.mrs.find? fun m => m.1 = ⟨d, 0⟩).isSome = true :=
        List.find?_isSome.mpr ⟨_, hmem, decide_eq_true rfl⟩
      obtain ⟨m, hm⟩ := Option.isSome_iff_exists.mp hfound
      refine ⟨.recvRemotemr d, trivial, trivial, ?_⟩
      show ∃ s', s.recvRemotemr d = some s'
      unfold ConnState.recvRemotemr
      rw [if_pos hrecv, hm]
      exact ⟨_, rfl⟩
    · exact ⟨.finishClient, trivial, trivial, h.enabled_finishClient hphase hc hall hinf⟩
  · push Not at hall
    obtain ⟨k, hk, hne⟩ := hall
    have hrank := hranks k hk
    refine h.wire_enabled ⟨d, k⟩ ?_
    cases hlink : links ⟨d, k⟩ with
    | confirming => exact Or.inl rfl
    | confirmed => exact Or.inr rfl
    | connected => exact absurd hlink hne
    | idle | resolvingAddr | resolvingRoute | requested | pending | accepted | closing | closed
    | gone =>
        rw [hlink] at hrank
        exact absurd hrank (by decide)

theorem ConnInv.enabled_connecting
    (h : ConnInv hash exclusivePolicy cfg filterAddr numHash numBits s₀ links s) {i : ℕ}
    (hphase : s.listener.phase = .connecting c i) (hc : s.joined[c]? = some d) :
    ∃ a : ConnStep Page, a.Goes ∧ s.Allowed a ∧
      ∃ s', s.step hash exclusivePolicy cfg filterAddr a = some s' := by
  have hallows := (h.drivers d).allows
  have hup : ¬ (s.drivers d).phase.Stopped := by
    intro hs
    have hleft := h.stopped c d hc hs
    rw [hphase] at hleft
    exact hleft
  cases hdriver : (s.drivers d).phase with
  | unloaded => exact absurd hdriver ((h.joined d).mp (List.mem_of_getElem? hc))
  | initQueue idx =>
      refine ⟨.initQueue d, trivial, trivial, ?_⟩
      show ∃ s', s.initQueue d = some s'
      unfold ConnState.initQueue
      rw [hdriver]
      exact ⟨_, rfl⟩
  | waitForCm idx => exact h.enabled_waitForCm hdriver
  | initFailed idx tried => exact absurd hdriver ((h.drivers d).not_failed idx tried)
  | recvRemotemr =>
      refine h.enabled_accepted hphase hc (fun k hk => ?_) (Or.inl hdriver)
      have hk' := hallows k
      rw [hdriver] at hk'
      simpa only [DriverPhase.Allows, if_pos hk] using hk'
  | sendLocalmr | ready =>
      refine h.enabled_accepted hphase hc (fun k hk => ?_) (Or.inr (by rw [hdriver]; trivial))
      have hk' := hallows k
      rw [hdriver] at hk'
      simpa only [DriverPhase.Allows, if_pos hk] using hk'
  | stopQueue idx | exited =>
      rw [hdriver] at hup
      exact absurd trivial hup

theorem ConnInv.enabled_leaving
    (h : ConnInv hash exclusivePolicy cfg filterAddr numHash numBits s₀ links s) {i : ℕ}
    (hphase : s.listener.phase = .leaving c i) (hc : s.joined[c]? = some d)
    (hstopped : (s.drivers d).phase.Stopped) :
    ∃ a : ConnStep Page, a.Goes ∧ s.Allowed a ∧
      ∃ s', s.step hash exclusivePolicy cfg filterAddr a = some s' := by
  have hallows := (h.drivers d).allows
  cases hdriver : (s.drivers d).phase with
  | unloaded | initQueue _ | waitForCm _ | initFailed _ _ | recvRemotemr | sendLocalmr | ready =>
      rw [hdriver] at hstopped
      exact absurd hstopped not_false
  | stopQueue idx =>
      refine ⟨.stopQueue d, trivial, trivial, ?_⟩
      show ∃ s', s.stopQueue d = some s'
      unfold ConnState.stopQueue
      rw [hdriver]
      exact ⟨_, rfl⟩
  | exited =>
      by_cases hall : ∀ k < numQps, links ⟨d, k⟩ = .gone
      · have hi : i = numQps := by
          rw [(h.leaving hphase).waiting]
          refine (List.countP_eq_length.mpr fun k hk => ?_).trans List.length_range
          rw [linkAt_of links hc, hall k (List.mem_range.mp hk)]
          rfl
        obtain ⟨t, ht, -⟩ := h.freeClient (hi ▸ hphase)
        exact ⟨.freeClient, trivial, trivial, t, ht⟩
      · push Not at hall
        obtain ⟨k, hk, hne⟩ := hall
        have hk' := hallows k
        rw [hdriver] at hk'
        simp only [DriverPhase.Allows, if_pos hk] at hk'
        refine h.wire_enabled ⟨d, k⟩ ?_
        cases hlink : links ⟨d, k⟩ with
        | closing => exact Or.inl rfl
        | closed => exact Or.inr rfl
        | gone => exact absurd hlink hne
        | idle | resolvingAddr | resolvingRoute | requested | pending | accepted | confirming
        | confirmed | connected =>
            rw [hlink] at hk'
            exact absurd hk' (by decide)

theorem ConnInv.enabled
    (h : ConnInv hash exclusivePolicy cfg filterAddr numHash numBits s₀ links s)
    (hwaiting : s.Waiting) : ∃ a : ConnStep Page, a.Goes ∧ s.Allowed a ∧
      ∃ s', s.step hash exclusivePolicy cfg filterAddr a = some s' := by
  unfold ConnState.Waiting at hwaiting
  cases hphase : s.listener.phase with
  | connecting c i =>
      rw [hphase] at hwaiting
      exact h.enabled_connecting hphase (List.getElem?_eq_getElem hwaiting)
  | leaving c i =>
      rw [hphase] at hwaiting
      obtain ⟨d, hc, hstopped⟩ := hwaiting
      exact h.enabled_leaving hphase hc hstopped
  | done =>
      rw [hphase] at hwaiting
      exact absurd hwaiting not_false

/-! ## The wait ends -/

/-- Only steps that are not theirs leave the wait as long as it was. -/
theorem ConnInv.toGo_own
    (h : ConnInv hash exclusivePolicy cfg filterAddr numHash numBits s₀ links s) {a : ConnStep Page}
    (hallowed : s.Allowed a) (hgoes : a.Goes) (hwaiting : s.Waiting) (hwaiting' : s'.Waiting)
    (hstep : s.step hash exclusivePolicy cfg filterAddr a = some s') : s'.toGo < s.toGo := by
  obtain ⟨links', hadv, -, h'⟩ := h.step hallowed hstep
  cases a with
  | load _ | cmFails _ _ | waitTimesOut _ | unload _ | sendLocalmr _ _ | reportOther _ | server _ =>
      exact absurd hgoes not_false
  | initQueue _ | addrResolved _ | routeResolved _ | stopQueue _ | deliver _ | handleEvent =>
      exact h.toGo_lt_of_advances h' (hadv trivial) (.of_moves hstep trivial) hwaiting
  | waitForCm d => exact h.toGo_waitForCm hstep
  | recvRemotemr d => exact h.toGo_recvRemotemr hstep
  | finishClient => exact absurd hwaiting' (h.not_waiting_finishClient hstep)
  | freeClient => exact absurd hwaiting' (h.not_waiting_freeClient hstep)

theorem ConnInv.toGo_other
    (h : ConnInv hash exclusivePolicy cfg filterAddr numHash numBits s₀ links s) {a : ConnStep Page}
    (hallowed : s.Allowed a) (hother : ¬ a.Goes) (hwaiting : s.Waiting)
    (hstep : s.step hash exclusivePolicy cfg filterAddr a = some s') : s'.toGo ≤ s.toGo := by
  obtain ⟨links', -, hlinks, h'⟩ := h.step hallowed hstep
  have hstays : SameWait s s' → links' = links → s'.toGo ≤ s.toGo := by
    rintro hsame rfl
    cases hwaits : s.waitsFor with
    | none =>
        unfold ConnState.toGo
        rw [hsame.waitsFor, hwaits]
    | some d =>
        rw [h.toGo_eq hwaits, h'.toGo_eq (hsame.waitsFor.trans hwaits)]
        exact Nat.add_le_add_right (hsame.left d) _
  unfold ConnState.Waiting at hwaiting
  cases a with
  | initQueue _ | addrResolved _ | routeResolved _ | waitForCm _ | recvRemotemr _ | stopQueue _
  | deliver _ | handleEvent | finishClient | freeClient => exact absurd trivial hother
  | cmFails _ _ | waitTimesOut _ | reportOther _ => exact hallowed.elim
  | load d =>
      rw [show s.listener.phase = .connecting s.joined.length 0 from hallowed] at hwaiting
      exact absurd hwaiting (lt_irrefl _)
  | unload d =>
      obtain ⟨c, hc, hphase⟩ := hallowed
      rw [hphase] at hwaiting
      obtain ⟨e, he, hstopped⟩ := hwaiting
      cases hc.symm.trans he
      rw [(Option.ite_none_right_eq_some.mp hstep).1] at hstopped
      exact absurd hstopped not_false
  | sendLocalmr d draw =>
      refine hstays ?_ (hlinks not_false)
      obtain ⟨-, hsend⟩ := Option.ite_none_right_eq_some.mp hstep
      split at hsend
      · obtain ⟨r, -, rfl⟩ := Option.map_eq_some_iff.mp hsend
        exact .of_driver rfl (Nat.zero_le _) rfl rfl
      · cases hsend
  | server b =>
      obtain ⟨⟨t, r⟩, -, rfl⟩ := Option.map_eq_some_iff.mp hstep
      exact hstays ⟨rfl, rfl, fun _ => le_rfl⟩ (hlinks not_false)

theorem waits_end_rule (hash : HashFuncs) (exclusivePolicy : Bool) (cfg : ConnConfig)
    (filterAddr : ℕ → BitVec 64) (numHash numBits : ℕ) (s₀ : Server Page) :
    Ends (connSystem hash exclusivePolicy cfg filterAddr s₀)
      (fun s => ∃ links, ConnInv hash exclusivePolicy cfg filterAddr numHash numBits s₀ links s)
      ConnState.Allowed ConnState.Waiting ConnStep.Goes ConnState.toGo where
  keep _ _ _ := fun ⟨_, h⟩ hallowed hstep =>
    let ⟨links', _, _, hinv⟩ := h.step hallowed hstep
    ⟨links', hinv⟩
  enabled _ := fun ⟨_, h⟩ hwaiting => h.enabled hwaiting
  own _ _ _ := fun ⟨_, h⟩ hallowed hgoes hwaiting hwaiting' hstep =>
    h.toGo_own hallowed hgoes hwaiting hwaiting' hstep
  other _ _ _ := fun ⟨_, h⟩ hallowed hother hwaiting _ hstep =>
    h.toGo_other hallowed hother hwaiting hstep

theorem ConnState.toGo_le (s : ConnState Page) : s.toGo ≤ 12 * numQps + 1 := by
  unfold ConnState.toGo
  split
  next d _ =>
    have hsum : ∑ k ∈ Finset.range numQps, (11 - (s.linkOf ⟨d, k⟩).rank) ≤ numQps * 11 := by
      refine (Finset.sum_le_card_nsmul _ _ 11 fun k _ => Nat.sub_le _ _).trans ?_
      rw [Finset.card_range, smul_eq_mul]
    have hleft := (s.drivers d).phase.left_le
    omega
  · exact Nat.zero_le _

/-- Whatever else happens, the main thread waits for a driver during at most
`12 * numQps + 1` steps of the driver, the network and its own, and from every
such state some of them lead on. -/
theorem waits_end (hash : HashFuncs) (exclusivePolicy : Bool) (cfg : ConnConfig)
    (filterAddr : ℕ → BitVec 64) (startAddr : Daemon.Value) (numHash numBits : ℕ)
    (mem : Daemon.Value → Daemon.Slot Page) (hclients : 0 < cfg.numClients)
    {s₀ : Server Page}
    (hinit : s₀ = .new startAddr cfg.memPoolSize cfg.numClients numHash numBits mem)
    {as : List (ConnStep Page)} {s : ConnState Page}
    (hmeets : (connSystem hash exclusivePolicy cfg filterAddr s₀).Meets ConnState.Allowed
      (.new cfg s₀) as)
    (hexec : (connSystem hash exclusivePolicy cfg filterAddr s₀).exec (.new cfg s₀) as = some s) :
    (∀ bs t, (connSystem hash exclusivePolicy cfg filterAddr s₀).Meets ConnState.Allowed s bs →
      (connSystem hash exclusivePolicy cfg filterAddr s₀).exec s bs = some t →
      (connSystem hash exclusivePolicy cfg filterAddr s₀).Always ConnState.Waiting s bs →
      bs.countP (fun b => b.Goes) ≤ 12 * numQps + 1) ∧
      ∃ bs t, (∀ b ∈ bs, b.Goes) ∧
        (connSystem hash exclusivePolicy cfg filterAddr s₀).Meets ConnState.Allowed s bs ∧
        (connSystem hash exclusivePolicy cfg filterAddr s₀).exec s bs = some t ∧
        ¬ t.Waiting := by
  have hinv := ConnInv.exec hclients hinit hmeets hexec
  have hends := waits_end_rule hash exclusivePolicy cfg filterAddr numHash numBits s₀
  refine ⟨fun bs t hbs ht hwaiting => ?_, ?_⟩
  · have hbound := hends.bound hinv hbs ht hwaiting
    exact (Nat.le_add_right _ _).trans (hbound.trans s.toGo_le)
  · obtain ⟨bs, t, hgoes, -, hbs, ht, hend⟩ := hends.reaches hinv
    exact ⟨bs, t, hgoes, hbs, ht, hend⟩

/-- Driver 5 has connected its first queue, and the request of the second one has arrived. -/
def halfway : List (ConnStep Unit) :=
  connectQueue ++ [.initQueue 5, .addrResolved 5, .routeResolved 5, .deliver 0]

/-- From there the main thread comes through. -/
theorem waits_end_halfway : ∃ s : ConnState Unit,
    (connSystem Daemon.keyHash true oneClient (fun d => BitVec.ofNat 64 d) oneClientServer).exec
      (.new oneClient oneClientServer) (.load 5 :: halfway) = some s ∧
    s.listener.phase = .connecting 0 1 ∧ s.Waiting ∧
    ∃ bs t, (∀ b ∈ bs, b.Goes) ∧
      (connSystem Daemon.keyHash true oneClient (fun d => BitVec.ofNat 64 d) oneClientServer).exec
        s bs = some t ∧ ¬ t.Waiting := by
  have hlast : ((connSystem Daemon.keyHash true oneClient (fun d => BitVec.ofNat 64 d)
      oneClientServer).exec (.new oneClient oneClientServer) (.load 5 :: halfway)).map
        (fun s => (s.joined, s.listener.phase)) = some ([5], .connecting 0 1) := by
    decide +kernel
  obtain ⟨s, hexec, hs⟩ := Option.map_eq_some_iff.mp hlast
  obtain ⟨hjoined, hphase⟩ := Prod.mk.inj hs
  have hwaiting : s.Waiting := by
    unfold ConnState.Waiting
    rw [hphase, hjoined]
    exact Nat.zero_lt_one
  have hmeets : (connSystem Daemon.keyHash true oneClient (fun d => BitVec.ofNat 64 d)
      oneClientServer).Meets ConnState.Allowed (.new oneClient oneClientServer)
        (.load 5 :: halfway) := by
    refine ⟨rfl, fun t _ => System.meets_of_mem t halfway fun a ha u => ?_⟩
    revert a
    simp [halfway, connectQueue, ConnState.Allowed]
  obtain ⟨-, bs, t, hgoes, -, ht, hend⟩ := waits_end Daemon.keyHash true oneClient
    (fun d => BitVec.ofNat 64 d) 4096 2 64 (fun _ => ⟨(), 0⟩) (by decide) rfl
    hmeets hexec
  exact ⟨s, hexec, hphase, hwaiting, bs, t, hgoes, ht, hend⟩

end Ends

end CleancacheRdma.Driver
