import Mathlib
import CleancacheRdma.Driver.ConnectionInv

/-!
# Steps take connections further

Drivers are loaded when the daemon waits for a client, one for each, and are
unloaded in the order in which they came, and no connect fails. Then every step
keeps every connection where the records of both ends say it is.
-/

namespace CleancacheRdma.Driver

open Daemon (HashFuncs Server ServerStep CmId CmEvent CmEventType MmInfo ConnConfig Phase
  RdmaQueue Listener numQps numDataQps serverSystem serverSystem_step)
open Lib (System Tokens)

/-- Not a message of the set-up. -/
def IsTraffic {Page : Type} : ServerStep Page → Prop
  | .prePostRecvs _ _ | .recvMr _ | .send _ _ (.mmInfo _) _ _ => False
  | .send _ _ (.slot _) _ _ | .send _ _ .empty _ _ | .writeImm _ _ _ _ _ _ | .evict _ _
  | .allocateFromPeer _ => True

theorem IsTraffic.postsOn {Page : Type} {a : ServerStep Page} (h : IsTraffic a) :
    a.postsOn = none := by
  cases a with
  | prePostRecvs _ _ | recvMr _ => exact absurd h not_false
  | send _ _ _ _ _ | writeImm _ _ _ _ _ _ | evict _ _ | allocateFromPeer _ => rfl

namespace ConnState

variable {Page : Type}

/-- The daemon waits for the driver that is loaded, and for the one that is
unloaded; requests come from drivers that are set up. No connect fails: no error
is reported, and no wait is given up. -/
def Allowed (s : ConnState Page) : ConnStep Page → Prop
  | .load _ => s.listener.phase = .connecting s.joined.length 0
  | .unload d => ∃ c, s.joined[c]? = some d ∧ s.listener.phase = .leaving c 0
  | .server a => s.listener.server.WellFormed a ∧ IsTraffic a ∧
      ∀ q, a.queue = some q → ∃ d, s.joined[q.1]? = some d ∧ (s.drivers d).phase = .ready
  | .cmFails _ _ | .waitTimesOut _ | .reportOther _ => False
  | .initQueue _ | .addrResolved _ | .routeResolved _ | .waitForCm _ | .recvRemotemr _
  | .sendLocalmr _ _ | .stopQueue _ | .deliver _ | .handleEvent | .finishClient | .freeClient =>
      True

end ConnState

section Steps

variable {Page : Type} {hash : HashFuncs} {exclusivePolicy : Bool} {cfg : ConnConfig}
  {filterAddr : ℕ → BitVec 64} {numHash numBits : ℕ} {s₀ : Server Page} {links : CmId → LinkStage}
  {s s' : ConnState Page} {d : ℕ}

/-! ## What the driver does alone -/

/-- The driver takes the connection of queue `k` to `st`, or sets its phase. -/
theorem ConnInv.driver
    (h : ConnInv hash exclusivePolicy cfg filterAddr numHash numBits s₀ links s) {d k : ℕ}
    (st : LinkStage) (net : List CmMsg) {ctrl : DriverCtrl} (hsame : st.Same (links ⟨d, k⟩))
    (hnet : netTokens.Holds (Function.update links ⟨d, k⟩ st) net)
    (hec : st.cmEvent ⟨d, k⟩ = (links ⟨d, k⟩).cmEvent ⟨d, k⟩)
    (hctrl : DriverInv (Function.update links ⟨d, k⟩ st) d ctrl)
    (hloaded : (s.drivers d).phase ≠ .unloaded ∧ ctrl.phase ≠ .unloaded)
    (hinformed : ctrl.phase.Informed ↔ (s.drivers d).phase.Informed)
    (hannounced : ctrl.phase.Announced ↔ (s.drivers d).phase.Announced)
    (hstopped : ∀ c, s.joined[c]? = some d → ctrl.phase.Stopped → LeftTo c s.listener.phase)
    (hsvr : ctrl.svrMmInfo = (s.drivers d).svrMmInfo) :
    ConnInv hash exclusivePolicy cfg filterAddr numHash numBits s₀ (Function.update links ⟨d, k⟩ st)
      { s.setDriver d ctrl with net } := by
  have hlinks := update_same hsame
  have hself : (Function.update s.drivers d ctrl) d = ctrl := Function.update_self _ _ _
  have hother : ∀ e, e ≠ d → (Function.update s.drivers d ctrl) e = s.drivers e :=
    fun e he => Function.update_of_ne he _ _
  have hiff : ∀ (p : DriverPhase → Prop), (p ctrl.phase ↔ p (s.drivers d).phase) → ∀ e,
      p ((Function.update s.drivers d ctrl) e).phase ↔ p (s.drivers e).phase := by
    intro p hp e
    by_cases he : e = d
    · subst he
      rw [hself]
      exact hp
    · rw [hother e he]
  refine
    { net := hnet
      ec := h.ec.same hec
      drivers := fun e => ?_
      nodup := h.nodup
      joined := fun e => ?_
      records := h.records.same hlinks
      phase := h.phase.same hlinks
      stopped := fun c e he hstop => ?_
      mr := h.mr.same (fun d => (hlinks ⟨d, 0⟩).connected) rfl rfl rfl (hiff _ hinformed) fun e => ?_
      server := h.server.same (fun d => (hlinks ⟨d, 0⟩).connected) rfl rfl (hiff _ hannounced) }
  · show DriverInv _ e ((Function.update s.drivers d ctrl) e)
    by_cases he : e = d
    · subst he
      rw [hself]
      exact hctrl
    · rw [hother e he]
      exact (h.drivers e).of_ne fun hd => he hd.symm
  · refine (h.joined e).trans (not_congr ?_)
    refine (hiff (· = .unloaded) ?_ e).symm
    exact iff_of_false hloaded.2 hloaded.1
  · change ((Function.update s.drivers d ctrl) e).phase.Stopped at hstop
    by_cases hed : e = d
    · subst hed
      rw [hself] at hstop
      exact hstopped c he hstop
    · rw [hother e hed] at hstop
      exact h.stopped c e he hstop
  · show ((Function.update s.drivers d ctrl) e).svrMmInfo = _
    by_cases he : e = d
    · subst he
      rw [hself]
      exact hsvr
    · rw [hother e he]

theorem ConnInv.initQueue
    (h : ConnInv hash exclusivePolicy cfg filterAddr numHash numBits s₀ links s) {d : ℕ}
    (hstep : s.initQueue d = some s') :
    ∃ links', Advances links links' ∧
      ConnInv hash exclusivePolicy cfg filterAddr numHash numBits s₀ links' s' := by
  unfold ConnState.initQueue at hstep
  split at hstep
  next idx hphase =>
    cases hstep
    have hd := h.drivers d
    have hallows := hd.allows
    have hrange := hd.inRange
    rw [hphase] at hallows hrange
    have hlink : links ⟨d, idx⟩ = .idle := by simpa [DriverPhase.Allows] using hallows idx
    rw [ConnState.setQueue_setPhase]
    refine ⟨_, ⟨_, _, rfl, by rw [hlink]; rfl⟩,
      h.driver .resolvingAddr s.net (by rw [hlink]; decide)
      (h.net.same (by rw [hlink]; rfl)) (by rw [hlink]; rfl)
      (hd.set (by simp [DriverPhase.Allows, LinkStage.rank]) (fun j hj => ?_) hrange rfl ?_)
      ⟨by simp [hphase], by simp⟩ (by rw [hphase]; exact Iff.rfl) (by rw [hphase]; exact Iff.rfl)
      (fun _ _ hstop => absurd hstop not_false) rfl⟩
    · have hj' := hallows j
      simp only [DriverPhase.Allows, hj, if_false] at hj' ⊢
      exact hj'
    · rintro _ ⟨⟩
      exact ⟨rfl, by decide⟩
  · cases hstep

theorem ConnInv.addrResolved
    (h : ConnInv hash exclusivePolicy cfg filterAddr numHash numBits s₀ links s) {d : ℕ}
    (hstep : s.addrResolved d = some s') :
    ∃ links', Advances links links' ∧
      ConnInv hash exclusivePolicy cfg filterAddr numHash numBits s₀ links' s' := by
  unfold ConnState.addrResolved at hstep
  split at hstep
  next idx hphase =>
    obtain ⟨hq, heq⟩ := Option.ite_none_right_eq_some.mp hstep
    cases heq
    have hd := h.drivers d
    have hrange := hd.inRange
    have hlink : links ⟨d, idx⟩ = .resolvingAddr :=
      LinkStage.eq_of_cmStage ((hd.stage idx).symm.trans hq) (by decide)
    obtain ⟨hdone, herror⟩ := hd.done idx hphase
    rw [hlink] at hdone herror
    refine ⟨_, ⟨_, _, rfl, by rw [hlink]; rfl⟩,
      h.driver .resolvingRoute s.net (by rw [hlink]; decide)
      (h.net.same (by rw [hlink]; rfl)) (by rw [hlink]; rfl)
      (hd.set ?_ (fun j _ => hd.allows j) hrange rfl ?_)
      ⟨by simp [hphase], by simp [hphase]⟩
      Iff.rfl Iff.rfl (fun c hc => h.stopped c d hc) rfl⟩
    · rw [hphase]
      simp [DriverPhase.Allows, LinkStage.rank]
    · intro i hi
      cases hphase.symm.trans hi
      exact ⟨rfl, hdone.trans (by decide), herror.trans (by decide)⟩
  · cases hstep

theorem ConnInv.routeResolved
    (h : ConnInv hash exclusivePolicy cfg filterAddr numHash numBits s₀ links s) {d : ℕ}
    (hstep : s.routeResolved d = some s') :
    ∃ links', Advances links links' ∧
      ConnInv hash exclusivePolicy cfg filterAddr numHash numBits s₀ links' s' := by
  unfold ConnState.routeResolved at hstep
  split at hstep
  next idx hphase =>
    obtain ⟨hq, heq⟩ := Option.ite_none_right_eq_some.mp hstep
    cases heq
    have hd := h.drivers d
    have hrange := hd.inRange
    have hlink : links ⟨d, idx⟩ = .resolvingRoute :=
      LinkStage.eq_of_cmStage ((hd.stage idx).symm.trans hq) (by decide)
    obtain ⟨hdone, herror⟩ := hd.done idx hphase
    rw [hlink] at hdone herror
    refine ⟨_, ⟨_, _, rfl, by rw [hlink]; rfl⟩,
      h.driver .requested _ (by rw [hlink]; decide)
      (h.net.put (by rw [hlink]; rfl) rfl) (by rw [hlink]; rfl)
      (hd.set ?_ (fun j _ => hd.allows j) hrange rfl ?_)
      ⟨by simp [hphase], by simp [hphase]⟩
      Iff.rfl Iff.rfl (fun c hc => h.stopped c d hc) rfl⟩
    · rw [hphase]
      simp [DriverPhase.Allows, LinkStage.rank]
    · intro i hi
      cases hphase.symm.trans hi
      exact ⟨rfl, hdone.trans (by decide), herror.trans (by decide)⟩
  · cases hstep

theorem ConnInv.waitForCm
    (h : ConnInv hash exclusivePolicy cfg filterAddr numHash numBits s₀ links s) {d : ℕ}
    (hstep : s.waitForCm d = some s') :
    ConnInv hash exclusivePolicy cfg filterAddr numHash numBits s₀ links s' := by
  unfold ConnState.waitForCm at hstep
  split at hstep
  next idx hphase =>
    obtain ⟨hq, heq⟩ := Option.ite_none_right_eq_some.mp hstep
    cases heq
    have hd := h.drivers d
    have hallows := hd.allows
    have hrange := hd.inRange
    have hup := (hd.done idx hphase).1.mp hq
    rw [ConnState.waited_ok ((hd.done idx hphase).2.mpr hup)]
    rw [hphase] at hallows hrange
    simp only [DriverPhase.InRange] at hrange
    have hle : (links ⟨d, idx⟩).rank ≤ 8 := by
      have hidx := hallows idx
      simp only [DriverPhase.Allows, lt_irrefl, if_false, if_true] at hidx
      exact hidx.2
    obtain ⟨hinformed, hannounced, hstopped, hloaded⟩ := DriverPhase.nextQueue_quiet idx
    rw [ConnState.setQueue_setPhase]
    have hself : Function.update links ⟨d, idx⟩ (links ⟨d, idx⟩) = links :=
      Function.update_eq_self _ _
    rw [← hself]
    refine h.driver (k := idx) (links ⟨d, idx⟩) s.net (.refl _) (h.net.same rfl) rfl
      (hd.set ?_ (fun j hj => ?_) ?_ (hd.stage idx) ?_)
      ⟨by simp [hphase], hloaded⟩ (iff_of_false hinformed (by rw [hphase]; exact not_false))
      (iff_of_false hannounced (by rw [hphase]; exact not_false))
      (fun _ _ hstop => absurd hstop hstopped) rfl
    · rcases DriverPhase.nextQueue_or idx with ⟨-, hnext⟩ | ⟨-, hnext⟩
      · rw [hnext]
        simpa [DriverPhase.Allows] using ⟨hup, hle⟩
      · rw [hnext]
        simpa [DriverPhase.Allows, hrange] using ⟨hup, hle⟩
    · have hj' := hallows j
      simp only [DriverPhase.Allows, hj, if_false] at hj'
      rcases DriverPhase.nextQueue_or idx with ⟨-, hnext⟩ | ⟨hlast, hnext⟩
      · have hiff : j < idx + 1 ↔ j < idx := by omega
        simpa only [hnext, DriverPhase.Allows, hiff] using hj'
      · have hiff : j < numQps ↔ j < idx := by omega
        simpa only [hnext, DriverPhase.Allows, hiff] using hj'
    · rcases DriverPhase.nextQueue_or idx with ⟨hlt, hnext⟩ | ⟨-, hnext⟩
      · rw [hnext]
        exact hlt
      · rw [hnext]
        trivial
    · intro i hi
      rcases DriverPhase.nextQueue_or idx with ⟨-, hnext⟩ | ⟨-, hnext⟩
      · cases hnext.symm.trans hi
      · cases hnext.symm.trans hi
  · cases hstep

theorem ConnInv.stopQueue
    (h : ConnInv hash exclusivePolicy cfg filterAddr numHash numBits s₀ links s) {d : ℕ}
    (hstep : s.stopQueue d = some s') :
    ∃ links', Advances links links' ∧
      ConnInv hash exclusivePolicy cfg filterAddr numHash numBits s₀ links' s' := by
  unfold ConnState.stopQueue at hstep
  split at hstep
  next idx hphase =>
    cases hstep
    have hd := h.drivers d
    have hallows := hd.allows
    have hrange := hd.inRange
    rw [hphase] at hallows hrange
    simp only [DriverPhase.InRange] at hrange
    have hlink : links ⟨d, idx⟩ = .connected := by
      simpa [DriverPhase.Allows, hrange] using hallows idx
    obtain ⟨hinformed, hannounced, -, hloaded⟩ := DriverPhase.nextStop_stopped idx
    unfold ConnState.disconnect
    rw [ConnState.setQueue_setPhase]
    refine ⟨_, ⟨_, _, rfl, by rw [hlink]; rfl⟩,
      h.driver .closing _ (by rw [hlink]; decide)
      (h.net.put (by rw [hlink]; rfl) rfl) (by rw [hlink]; rfl)
      (hd.set ?_ (fun j hj => ?_) ?_ rfl ?_) ⟨by simp [hphase], hloaded⟩
      (iff_of_true hinformed (by rw [hphase]; trivial))
      (iff_of_true hannounced (by rw [hphase]; trivial))
      (fun c hc _ => h.stopped c d hc (by rw [hphase]; trivial)) rfl⟩
    · rcases DriverPhase.nextStop_or idx with ⟨-, hnext⟩ | ⟨-, hnext⟩
      · rw [hnext]
        simp [DriverPhase.Allows, LinkStage.rank]
      · rw [hnext]
        simp [DriverPhase.Allows, LinkStage.rank, hrange]
    · have hj' := hallows j
      simp only [DriverPhase.Allows] at hj'
      rcases DriverPhase.nextStop_or idx with ⟨-, hnext⟩ | ⟨hlast, hnext⟩
      · have hiff : j < idx + 1 ↔ j < idx := by omega
        simpa only [hnext, DriverPhase.Allows, hiff] using hj'
      · simp only [hnext, DriverPhase.Allows]
        by_cases hlt : j < idx
        · rw [if_pos hlt] at hj'
          rwa [if_pos (hlt.trans hrange)]
        · have hnot : ¬ j < numQps := by omega
          rw [if_neg hlt, if_neg hnot] at hj'
          rwa [if_neg hnot]
    · rcases DriverPhase.nextStop_or idx with ⟨hlt, hnext⟩ | ⟨-, hnext⟩
      · rw [hnext]
        exact hlt
      · rw [hnext]
        trivial
    · intro i hi
      rcases DriverPhase.nextStop_or idx with ⟨-, hnext⟩ | ⟨-, hnext⟩
      · cases hnext.symm.trans hi
      · cases hnext.symm.trans hi
  next idx tried hphase => exact absurd hphase ((h.drivers d).not_failed idx tried)
  · cases hstep

/-! ## Messages -/

/-- A message arrives, or an event is read, and both ends stay as they are. -/
theorem ConnInv.wire (h : ConnInv hash exclusivePolicy cfg filterAddr numHash numBits s₀ links s)
    {id : CmId} {st : LinkStage} {net : List CmMsg} {ec : List CmEvent} (hsame : st.Same (links id))
    (hstage : st.cmStage = (links id).cmStage) (hne : links id ≠ .connected)
    (hnet : netTokens.Holds (Function.update links id st) net)
    (hec : ecTokens.Holds (Function.update links id st) ec) :
    ConnInv hash exclusivePolicy cfg filterAddr numHash numBits s₀ (Function.update links id st)
      { s with net, ec } := by
  have hlinks := update_same hsame
  refine
    { net := hnet
      ec := hec
      drivers := fun d => ?_
      nodup := h.nodup
      joined := h.joined
      records := h.records.same hlinks
      phase := h.phase.same hlinks
      stopped := h.stopped
      mr := h.mr.same (fun d => (hlinks ⟨d, 0⟩).connected) rfl rfl rfl (fun _ => Iff.rfl)
        fun _ => rfl
      server := h.server.same (fun d => (hlinks ⟨d, 0⟩).connected) rfl rfl fun _ => Iff.rfl }
  by_cases hd : id.driver = d
  · subst hd
    exact (h.drivers id.driver).advance hstage hne
  · exact (h.drivers d).of_ne hd

theorem ConnInv.deliver (h : ConnInv hash exclusivePolicy cfg filterAddr numHash numBits s₀ links s)
    {i : ℕ} {m : CmMsg} (hm : s.net[i]? = some m) :
    ∃ links', Advances links links' ∧
      ConnInv hash exclusivePolicy cfg filterAddr numHash numBits s₀ links'
        ({ s with net := s.net.eraseIdx i }.arrive m) := by
  obtain ⟨hi, hget⟩ := List.getElem?_eq_some_iff.mp hm
  have hperm : s.net.Perm (m :: s.net.eraseIdx i) := by
    rw [← hget]
    exact (List.getElem_cons_eraseIdx_perm hi).symm
  have hmark := h.net.mem_iff.mp (List.mem_of_getElem? hm)
  cases m with
  | req id =>
      have hlink : links id = .requested := LinkStage.eq_of_msg hmark rfl
      have hnet := h.net.take (i := id) (a := .pending) hperm hmark
      rw [show netTokens.mark id .pending = none from rfl, Option.toList_none,
        List.append_nil] at hnet
      exact ⟨_, ⟨_, _, rfl, by rw [hlink]; rfl⟩, h.wire (by rw [hlink]; decide)
        (by rw [hlink]; rfl) (by rw [hlink]; decide) hnet
        (h.ec.put (by rw [hlink]; rfl) rfl)⟩
  | rep id =>
      have hlink : links id = .accepted := LinkStage.eq_of_msg hmark rfl
      have hd := h.drivers id.driver
      have hstage : ((s.drivers id.driver).queues id.queue).stage = .connecting := by
        rw [hd.stage, hlink]
        rfl
      rw [ConnState.arrive_rep (s := { s with net := s.net.eraseIdx i }) hstage]
      have hphase : (s.drivers id.driver).phase = .waitForCm id.queue :=
        hd.idx_of_lt (by rw [hlink]; decide) (by rw [hlink]; decide)
      have hnet := h.net.take (i := id) (a := .confirming) hperm hmark
      refine ⟨_, ⟨id, _, rfl, by rw [hlink]; rfl⟩,
        h.driver (d := id.driver) (k := id.queue) .confirming _ (by rw [hlink]; decide) hnet
        (by rw [hlink]; rfl) (hd.set ?_ (fun j _ => hd.allows j) hd.inRange rfl ?_)
        ⟨by simp [hphase], by simp [hphase]⟩ Iff.rfl Iff.rfl
        (fun c hc => h.stopped c id.driver hc) rfl⟩
      · rw [hphase]
        simp [DriverPhase.Allows, LinkStage.rank]
      · intro j hj
        cases hphase.symm.trans hj
        exact ⟨rfl, iff_of_true rfl (by decide), iff_of_true rfl (by decide)⟩
  | rtu id =>
      have hlink : links id = .confirming := LinkStage.eq_of_msg hmark rfl
      have hnet := h.net.take (i := id) (a := .confirmed) hperm hmark
      rw [show netTokens.mark id .confirmed = none from rfl, Option.toList_none,
        List.append_nil] at hnet
      exact ⟨_, ⟨_, _, rfl, by rw [hlink]; rfl⟩, h.wire (by rw [hlink]; decide)
        (by rw [hlink]; rfl) (by rw [hlink]; decide) hnet
        (h.ec.put (by rw [hlink]; rfl) rfl)⟩
  | dreq id =>
      have hlink : links id = .closing := LinkStage.eq_of_msg hmark rfl
      have hnet := h.net.take (i := id) (a := .closed) hperm hmark
      rw [show netTokens.mark id .closed = none from rfl, Option.toList_none,
        List.append_nil] at hnet
      exact ⟨_, ⟨_, _, rfl, by rw [hlink]; rfl⟩, h.wire (by rw [hlink]; decide)
        (by rw [hlink]; rfl) (by rw [hlink]; decide) hnet
        (h.ec.put (by rw [hlink]; rfl) rfl)⟩

/-! ## Drivers come and go -/

theorem linkAt_snoc (hnot : ∀ k, links ⟨d, k⟩ = .idle) (joined : List ℕ) (c k : ℕ) :
    linkAt links (joined ++ [d]) c k = linkAt links joined c k := by
  rcases lt_trichotomy c joined.length with hlt | heq | hgt
  · unfold linkAt
    rw [List.getElem?_append_left hlt]
  · subst heq
    rw [linkAt_none links (Nat.le_refl _), linkAt_of links List.getElem?_concat_length, hnot]
  · rw [linkAt_none links (Nat.le_of_lt hgt), linkAt_none links]
    rw [List.length_append]
    exact hgt

/-- A driver comes to the place for which the daemon waits. -/
theorem ConnInv.load (h : ConnInv hash exclusivePolicy cfg filterAddr numHash numBits s₀ links s)
    {d : ℕ} (hwaits : s.listener.phase = .connecting s.joined.length 0)
    (hunloaded : (s.drivers d).phase = .unloaded) :
    ConnInv hash exclusivePolicy cfg filterAddr numHash numBits s₀ links
      { s.setPhase d (.initQueue 0) with joined := s.joined ++ [d] } := by
  have hd := h.drivers d
  have hidle : ∀ k, links ⟨d, k⟩ = .idle := by
    intro k
    have hallows := hd.allows k
    rwa [hunloaded] at hallows
  have hnew : d ∉ s.joined := fun hmem => (h.joined d).mp hmem hunloaded
  have hself : (Function.update s.drivers d { s.drivers d with phase := .initQueue 0 }) d =
      { s.drivers d with phase := .initQueue 0 } := Function.update_self _ _ _
  have hother : ∀ e, e ≠ d → (Function.update s.drivers d
      { s.drivers d with phase := .initQueue 0 }) e = s.drivers e :=
    fun e he => Function.update_of_ne he _ _
  have hat : ∀ c e, (s.joined ++ [d])[c]? = some e →
      (s.joined[c]? = some e ∧ e ≠ d) ∨ (c = s.joined.length ∧ e = d) := by
    intro c e he
    rcases lt_trichotomy c s.joined.length with hlt | heq | hgt
    · rw [List.getElem?_append_left hlt] at he
      exact Or.inl ⟨he, fun hed => hnew (hed ▸ List.mem_of_getElem? he)⟩
    · subst heq
      rw [List.getElem?_concat_length] at he
      exact Or.inr ⟨rfl, (Option.some.inj he).symm⟩
    · rw [List.getElem?_eq_none (by rw [List.length_append]; exact hgt)] at he
      cases he
  have hconn : Connecting cfg links s.joined s.listener s.joined.length 0 := by
    have hphase := h.phase
    unfold PhaseInv at hphase
    rw [hwaits] at hphase
    exact hphase
  refine
    { net := h.net
      ec := h.ec
      drivers := fun e => ?_
      nodup := ?_
      joined := fun e => ?_
      records := ?_
      phase := ?_
      stopped := fun c e he hstop => ?_
      mr := ?_
      server := ?_ }
  · show DriverInv links e ((Function.update s.drivers d _) e)
    by_cases he : e = d
    · subst he
      rw [hself]
      refine ⟨fun k => ?_, (by decide : 0 < numQps), hd.stage, by simp⟩
      rw [hidle]
      simp [DriverPhase.Allows]
    · rw [hother e he]
      exact h.drivers e
  · exact List.nodup_append.mpr ⟨h.nodup, List.nodup_singleton d, fun e he f hf hef =>
      hnew (List.mem_singleton.mp hf ▸ hef ▸ he)⟩
  · show e ∈ s.joined ++ [d] ↔ ((Function.update s.drivers d _) e).phase ≠ .unloaded
    by_cases he : e = d
    · subst he
      rw [hself]
      exact iff_of_true (List.mem_append_right _ List.mem_cons_self) (by simp)
    · rw [hother e he, ← h.joined e, List.mem_append, List.mem_singleton, or_iff_left he]
  · have hr := h.records
    refine
      { queues := fun c k => ?_
        context := fun c e he k => ?_
        stranger := fun e he k => hr.stranger e (fun hmem => he (List.mem_append_left _ hmem)) k
        rdev := fun c hc => ?_
        filterMM := fun c => ?_
        handlers := fun c k => ?_ }
    · show (s.listener.clients c).queues k = _
      rw [hr.queues, linkAt_snoc hidle]
      rcases lt_or_ge c s.joined.length with hlt | hge
      · rw [List.getD_append _ _ _ _ hlt]
      · rw [linkAt_none links hge]
        rfl
    · rcases hat c e he with ⟨hold, -⟩ | ⟨-, rfl⟩
      · exact hr.context c e hold k
      · rw [hidle, if_neg (by decide)]
        exact hr.stranger e hnew k
    · rw [linkAt_snoc hidle]
      exact hr.rdev c hc
    · rw [linkAt_snoc hidle]
      exact hr.filterMM c
    · rw [linkAt_snoc hidle]
      exact hr.handlers c k
  · show PhaseInv cfg links (s.joined ++ [d]) s.listener
    unfold PhaseInv
    rw [hwaits]
    exact
      { ctr := hconn.ctr
        client := hconn.client
        joined_ge := by rw [List.length_append]; exact Nat.le_add_right _ _
        joined_le := by rw [List.length_append]; exact Nat.le_refl _
        before := fun c hc k hk => by rw [linkAt_snoc hidle]; exact hconn.before c hc k hk
        waiting := by simp only [linkAt_snoc hidle]; exact hconn.waiting
        counted := fun k hk => by rw [linkAt_snoc hidle]; exact hconn.counted k hk
        queueCtr := hconn.queueCtr
        ids := hconn.ids
        freed := hconn.freed }
  · change ((Function.update s.drivers d _) e).phase.Stopped at hstop
    rcases hat c e he with ⟨hold, hne⟩ | ⟨-, rfl⟩
    · rw [hother e hne] at hstop
      exact h.stopped c e hold hstop
    · rw [hself] at hstop
      exact absurd hstop not_false
  · refine
      { mem := fun m => (h.mr.mem m).trans ⟨?_, ?_⟩
        nodup := h.mr.nodup
        told := fun e he => ?_
        informed := fun c e he => ?_
        unloaded := fun e he => ?_
        before := fun c e he hc => ?_ }
    · rintro ⟨c, e, he, hlink, hinf, rfl⟩
      have hed : e ≠ d := fun hed => hnew (hed ▸ List.mem_of_getElem? he)
      refine ⟨c, e, ?_, hlink, ?_, rfl⟩
      · show (s.joined ++ [d])[c]? = some e
        rw [List.getElem?_append_left (List.getElem?_eq_some_iff.mp he).1]
        exact he
      · show ¬ ((Function.update s.drivers d _) e).phase.Informed
        rw [hother e hed]
        exact hinf
    · rintro ⟨c, e, he, hlink, hinf, rfl⟩
      rcases hat c e he with ⟨hold, hed⟩ | ⟨-, rfl⟩
      · change ¬ ((Function.update s.drivers d _) e).phase.Informed at hinf
        rw [hother e hed] at hinf
        exact ⟨c, e, hold, hlink, hinf, rfl⟩
      · rw [hidle] at hlink
        exact absurd hlink (by decide)
    · change ((Function.update s.drivers d _) e).phase.Informed at he
      by_cases hed : e = d
      · subst hed
        rw [hself] at he
        exact absurd he not_false
      · rw [hother e hed] at he
        exact h.mr.told e he
    · show ((Function.update s.drivers d _) e).svrMmInfo =
        if ((Function.update s.drivers d _) e).phase.Informed then _ else _
      rcases hat c e he with ⟨hold, hed⟩ | ⟨-, rfl⟩
      · rw [hother e hed]
        exact h.mr.informed c e hold
      · rw [hself]
        exact (h.mr.unloaded e hnew).trans (if_neg not_false).symm
    · have hed : e ≠ d := fun hed =>
        he (hed ▸ List.mem_append_right _ List.mem_cons_self)
      show ((Function.update s.drivers d _) e).svrMmInfo = none
      rw [hother e hed]
      exact h.mr.unloaded e fun hmem => he (List.mem_append_left _ hmem)
    · show ((Function.update s.drivers d _) e).phase.Informed
      rcases hat c e he with ⟨hold, hed⟩ | ⟨rfl, -⟩
      · rw [hother e hed]
        exact h.mr.before c e hold hc
      · exact absurd (hconn.ctr ▸ hc) (lt_irrefl _)
  · refine
      { runs := h.server.runs
        unposted := fun c hc => h.server.unposted c (by rwa [← linkAt_snoc hidle])
        posted := fun c e he hlink hann => ?_
        clientMR := fun c e he hann => ?_ }
    · rcases hat c e he with ⟨hold, hed⟩ | ⟨-, rfl⟩
      · change ¬ ((Function.update s.drivers d _) e).phase.Announced at hann
        rw [hother e hed] at hann
        exact h.server.posted c e hold hlink hann
      · rw [hidle] at hlink
        exact absurd hlink (by decide)
    · change ((Function.update s.drivers d _) e).phase.Announced at hann
      rcases hat c e he with ⟨hold, hed⟩ | ⟨-, rfl⟩
      · rw [hother e hed] at hann
        exact h.server.clientMR c e hold hann
      · rw [hself] at hann
        exact absurd hann not_false

/-- The driver in the place that `exit_rdma` waits for begins to leave. -/
theorem ConnInv.unload (h : ConnInv hash exclusivePolicy cfg filterAddr numHash numBits s₀ links s)
    {c : ℕ} (hc : s.joined[c]? = some d) (hwaits : s.listener.phase = .leaving c 0)
    (hready : (s.drivers d).phase = .ready) :
    ConnInv hash exclusivePolicy cfg filterAddr numHash numBits s₀ links
      (s.setPhase d (.stopQueue 0)) := by
  have hd := h.drivers d
  have hallows := hd.allows
  rw [hready] at hallows
  have hleave : Leaving cfg links s.joined s.listener c 0 := by
    have hphase := h.phase
    unfold PhaseInv at hphase
    rw [hwaits] at hphase
    exact hphase
  have hconnected : ∀ k, if k < numQps then links ⟨d, k⟩ = .connected else links ⟨d, k⟩ = .idle := by
    intro k
    have hk := hallows k
    simp only [DriverPhase.Allows] at hk
    split_ifs at hk ⊢ with hlt
    · have hge := hleave.after c (Nat.le_refl c) hleave.client k hlt
      rw [linkAt_of links hc] at hge
      exact LinkStage.eq_of_rank (Nat.le_antisymm hk.2 hge)
    · exact hk
  have hset : DriverInv (Function.update links ⟨d, 0⟩ (links ⟨d, 0⟩)) d { s.drivers d with
      queues := Function.update (s.drivers d).queues 0 ((s.drivers d).queues 0)
      phase := .stopQueue 0 } :=
    hd.set (by simpa [DriverPhase.Allows] using hconnected 0)
      (fun j _ => by simpa [DriverPhase.Allows] using hconnected j) (by decide : 0 < numQps)
      (hd.stage 0) (by simp)
  rw [show Function.update (s.drivers d).queues 0 ((s.drivers d).queues 0) = (s.drivers d).queues
    from Function.update_eq_self 0 _] at hset
  have hself : Function.update links ⟨d, 0⟩ (links ⟨d, 0⟩) = links := Function.update_eq_self _ _
  rw [← hself]
  refine h.driver (k := 0) (links ⟨d, 0⟩) s.net (.refl _) (h.net.same rfl) rfl hset
    ⟨by simp [hready], by simp⟩ (iff_of_true trivial (by rw [hready]; trivial))
    (iff_of_true trivial (by rw [hready]; trivial)) (fun c' hc' _ => ?_) rfl
  rw [hwaits, index_unique h.nodup hc' hc]
  exact Nat.le_refl c

/-- The daemon's message comes to the driver for which it was sent. -/
theorem ConnInv.recvRemotemr
    (h : ConnInv hash exclusivePolicy cfg filterAddr numHash numBits s₀ links s)
    (hstep : s.recvRemotemr d = some s') :
    ConnInv hash exclusivePolicy cfg filterAddr numHash numBits s₀ links s' := by
  unfold ConnState.recvRemotemr at hstep
  obtain ⟨hphase, hfound⟩ := Option.ite_none_right_eq_some.mp hstep
  split at hfound
  next m hfind =>
    cases hfound
    have hm := List.mem_of_find?_eq_some hfind
    have hid : m.1 = ⟨d, 0⟩ := by simpa using List.find?_some hfind
    obtain ⟨c, e, hc, hlink, -, rfl⟩ := (h.mr.mem m).mp hm
    obtain rfl : e = d := congrArg CmId.driver hid
    have hd := h.drivers e
    have hself : (Function.update s.drivers e { s.drivers e with
        phase := .sendLocalmr, svrMmInfo := some (mmInfo cfg numHash numBits c) }) e =
      { s.drivers e with
        phase := .sendLocalmr, svrMmInfo := some (mmInfo cfg numHash numBits c) } :=
      Function.update_self _ _ _
    have hother : ∀ f, f ≠ e → (Function.update s.drivers e { s.drivers e with
        phase := .sendLocalmr, svrMmInfo := some (mmInfo cfg numHash numBits c) }) f = s.drivers f :=
      fun f hf => Function.update_of_ne hf _ _
    refine
      { net := h.net
        ec := h.ec
        drivers := fun f => ?_
        nodup := h.nodup
        joined := fun f => ?_
        records := h.records
        phase := h.phase
        stopped := fun c' f hf hstop => ?_
        mr := ?_
        server := ?_ }
    · show DriverInv links f ((Function.update s.drivers e _) f)
      by_cases hf : f = e
      · subst hf
        rw [hself]
        refine ⟨fun k => ?_, trivial, hd.stage, by simp⟩
        have hallows := hd.allows k
        rwa [hphase] at hallows
      · rw [hother f hf]
        exact h.drivers f
    · show f ∈ s.joined ↔ ((Function.update s.drivers e _) f).phase ≠ .unloaded
      by_cases hf : f = e
      · subst hf
        rw [hself]
        exact iff_of_true (List.mem_of_getElem? hc) (by simp)
      · rw [hother f hf]
        exact h.joined f
    · change ((Function.update s.drivers e _) f).phase.Stopped at hstop
      by_cases hfe : f = e
      · subst hfe
        rw [hself] at hstop
        exact absurd hstop not_false
      · rw [hother f hfe] at hstop
        exact h.stopped c' f hf hstop
    · refine
        { mem := fun m => ?_
          nodup := h.mr.nodup.erase _
          told := fun f hf => ?_
          informed := fun c' f hf => ?_
          unloaded := fun f hf => ?_
          before := fun c' f hf hlt => ?_ }
      · show m ∈ s.mrs.erase (⟨e, 0⟩, mmInfo cfg numHash numBits c) ↔ ∃ c' f,
          s.joined[c']? = some f ∧ 8 ≤ (links ⟨f, 0⟩).rank ∧
            ¬ ((Function.update s.drivers e _) f).phase.Informed ∧ _
        rw [h.mr.nodup.mem_erase_iff, h.mr.mem]
        constructor
        · rintro ⟨hne, c', f, hf, hl, hinf, rfl⟩
          have hfe : f ≠ e := by
            rintro rfl
            exact hne (by rw [index_unique h.nodup hf hc])
          exact ⟨c', f, hf, hl, by rwa [hother f hfe], rfl⟩
        · rintro ⟨c', f, hf, hl, hinf, rfl⟩
          have hfe : f ≠ e := by
            rintro rfl
            rw [hself] at hinf
            exact hinf trivial
          rw [hother f hfe] at hinf
          exact ⟨fun he => hfe (congrArg (fun m => CmId.driver m.1) he), c', f, hf, hl, hinf, rfl⟩
      · change ((Function.update s.drivers e _) f).phase.Informed at hf
        by_cases hfe : f = e
        · rw [hfe]
          exact hlink
        · rw [hother f hfe] at hf
          exact h.mr.told f hf
      · show ((Function.update s.drivers e _) f).svrMmInfo =
          if ((Function.update s.drivers e _) f).phase.Informed then _ else _
        by_cases hfe : f = e
        · subst hfe
          rw [hself, index_unique h.nodup hf hc]
          exact (if_pos trivial).symm
        · rw [hother f hfe]
          exact h.mr.informed c' f hf
      · have hfe : f ≠ e := by
          rintro rfl
          exact hf (List.mem_of_getElem? hc)
        show ((Function.update s.drivers e _) f).svrMmInfo = none
        rw [hother f hfe]
        exact h.mr.unloaded f hf
      · show ((Function.update s.drivers e _) f).phase.Informed
        by_cases hfe : f = e
        · subst hfe
          rw [hself]
          trivial
        · rw [hother f hfe]
          exact h.mr.before c' f hf hlt
    · have hann : ∀ f, ((Function.update s.drivers e { s.drivers e with
          phase := .sendLocalmr, svrMmInfo := some (mmInfo cfg numHash numBits c) }) f).phase.Announced ↔
          (s.drivers f).phase.Announced := by
        intro f
        by_cases hfe : f = e
        · subst hfe
          rw [hself, hphase]
          exact Iff.rfl
        · rw [hother f hfe]
      exact h.server.same (fun _ => Iff.rfl) rfl rfl hann
  · cases hfound

end Steps

end CleancacheRdma.Driver
