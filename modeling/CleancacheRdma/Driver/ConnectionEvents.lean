import Mathlib
import CleancacheRdma.Driver.ConnectionSteps

/-!
# The daemon reads its events

No event of a run makes the daemon stop: a request is counted to the queue for
which it was made, a queue is connected once, and the end of a connection
concerns the client that `exit_rdma` waits for.
-/

namespace CleancacheRdma.Driver

open Daemon (HashFuncs Server ServerStep CmId CmEvent CmEventType MmInfo ConnConfig Phase
  RdmaQueue Listener numQps numDataQps serverSystem serverSystem_step)
open Lib (System Tokens)

section Events

variable {Page : Type} {hash : HashFuncs} {exclusivePolicy : Bool} {cfg : ConnConfig}
  {filterAddr : ℕ → BitVec 64} {numHash numBits : ℕ} {s₀ : Server Page} {links : CmId → LinkStage}
  {s s' : ConnState Page} {c d k : ℕ}

/-! ## Where the main thread waits -/

theorem ConnInv.connecting
    (h : ConnInv hash exclusivePolicy cfg filterAddr numHash numBits s₀ links s)
    {c i : ℕ} (hphase : s.listener.phase = .connecting c i) :
    Connecting cfg links s.joined s.listener c i := by
  have hp := h.phase
  unfold PhaseInv at hp
  rwa [hphase] at hp

theorem ConnInv.leaving
    (h : ConnInv hash exclusivePolicy cfg filterAddr numHash numBits s₀ links s)
    {c i : ℕ} (hphase : s.listener.phase = .leaving c i) :
    Leaving cfg links s.joined s.listener c i := by
  have hp := h.phase
  unfold PhaseInv at hp
  rwa [hphase] at hp

theorem ConnInv.finished
    (h : ConnInv hash exclusivePolicy cfg filterAddr numHash numBits s₀ links s)
    (hphase : s.listener.phase = .done) : Finished cfg links s.joined s.listener := by
  have hp := h.phase
  unfold PhaseInv at hp
  rwa [hphase] at hp

/-- A driver with a connection has its place. -/
theorem ConnInv.place
    (h : ConnInv hash exclusivePolicy cfg filterAddr numHash numBits s₀ links s)
    (hne : links ⟨d, k⟩ ≠ .idle) : k < numQps ∧ ∃ c : ℕ, s.joined[c]? = some d := by
  have hmem : d ∈ s.joined := by
    refine (h.joined d).mpr fun hphase => ?_
    have hallows := (h.drivers d).allows k
    rw [hphase] at hallows
    exact hne hallows
  exact ⟨(h.drivers d).lt_numQps hne, List.mem_iff_getElem?.mp hmem⟩

/-- A driver that is being connected is the one that `run_rdma` waits for. -/
theorem ConnInv.joining
    (h : ConnInv hash exclusivePolicy cfg filterAddr numHash numBits s₀ links s)
    (hc : s.joined[c]? = some d) (hk : k < numQps) (hrank : (links ⟨d, k⟩).rank < 8) :
    ∃ i, s.listener.phase = .connecting c i ∧ Connecting cfg links s.joined s.listener c i := by
  have hlt : c < s.joined.length := (List.getElem?_eq_some_iff.mp hc).1
  rw [← linkAt_of links hc] at hrank
  cases hphase : s.listener.phase with
  | connecting c' i =>
      have hconn := h.connecting hphase
      have hle := hconn.joined_le
      have heq : c = c' := by
        by_contra hne
        have := hconn.before c (by omega) k hk
        omega
      subst heq
      exact ⟨i, rfl, hconn⟩
  | leaving c' i =>
      have hleave := h.leaving hphase
      by_cases hcc : c < c'
      · rw [hleave.before c hcc k hk] at hrank
        exact absurd hrank (by decide)
      · have := hleave.after c (by omega) hlt k hk
        omega
  | done =>
      rw [(h.finished hphase).gone c hlt k hk] at hrank
      exact absurd hrank (by decide)

/-- A driver that is being disconnected is the one that `exit_rdma` waits for. -/
theorem ConnInv.departing
    (h : ConnInv hash exclusivePolicy cfg filterAddr numHash numBits s₀ links s)
    (hc : s.joined[c]? = some d) (hk : k < numQps) (hrank : 9 ≤ (links ⟨d, k⟩).rank)
    (hne : links ⟨d, k⟩ ≠ .gone) :
    ∃ i, s.listener.phase = .leaving c i ∧ Leaving cfg links s.joined s.listener c i := by
  have hlt : c < s.joined.length := (List.getElem?_eq_some_iff.mp hc).1
  have hstop : (s.drivers d).phase.Stopped := by
    by_contra hup
    have := (h.drivers d).rank_le hup k
    omega
  have hleft := h.stopped c d hc hstop
  cases hphase : s.listener.phase with
  | connecting c' i =>
      rw [hphase] at hleft
      exact absurd hleft not_false
  | leaving c' i =>
      rw [hphase] at hleft
      have hleave := h.leaving hphase
      have heq : c = c' := by
        by_contra hcc
        have hgone := hleave.before c (Nat.lt_of_le_of_ne hleft hcc) k hk
        rw [linkAt_of links hc] at hgone
        exact hne hgone
      subst heq
      exact ⟨i, rfl, hleave⟩
  | done =>
      have hgone := (h.finished hphase).gone c hlt k hk
      rw [linkAt_of links hc] at hgone
      exact absurd hgone hne

/-! ## Requests -/

/-- One more queue meets the condition. -/
theorem countP_update {p p' : ℕ → Bool} (hk : k < numQps) (hold : p k = false) (hnew : p' k = true)
    (hother : ∀ j, j ≠ k → p' j = p j) :
    (List.range numQps).countP p' = (List.range numQps).countP p + 1 := by
  have hperm := List.perm_cons_erase (List.mem_range.mpr hk)
  have hrest : ∀ j ∈ (List.range numQps).erase k, p' j = true ↔ p j = true := by
    intro j hj
    rw [hother j fun hjk => List.nodup_range.not_mem_erase (hjk ▸ hj)]
  rw [hperm.countP_eq, hperm.countP_eq, List.countP_cons_of_pos hnew,
    List.countP_cons_of_neg (by rw [hold]; exact Bool.false_ne_true), List.countP_congr hrest]

/-- No queue that is still to be connected is counted. -/
theorem Connecting.lt_numQps {i : ℕ} (hconn : Connecting cfg links s.joined s.listener c i)
    (hk : k < numQps) (hrank : (linkAt links s.joined c k).rank < 8) : i < numQps := by
  have hlt : (List.range numQps).countP (fun k => 8 ≤ (linkAt links s.joined c k).rank) <
      (List.range numQps).length := by
    refine Nat.lt_of_le_of_ne List.countP_le_length fun heq => ?_
    have hall := List.countP_eq_length.mp heq k (List.mem_range.mpr hk)
    rw [decide_eq_true_iff] at hall
    omega
  rw [List.length_range] at hlt
  rw [hconn.waiting]
  exact hlt

/-- The main thread reads events until the last queue of the client has come. -/
theorem Connecting.listens {i : ℕ} (hconn : Connecting cfg links s.joined s.listener c i)
    (hphase : s.listener.phase = .connecting c i) (hk : k < numQps)
    (hrank : (linkAt links s.joined c k).rank < 8) : s.listener.Listens := by
  unfold Listener.Listens
  rw [hphase]
  exact hconn.lt_numQps hk hrank

/-- The queues of the client are accepted one after the other. -/
theorem ConnInv.queueCtr_eq
    (h : ConnInv hash exclusivePolicy cfg filterAddr numHash numBits s₀ links s) {i : ℕ}
    (hconn : Connecting cfg links s.joined s.listener c i) (hc : s.joined[c]? = some d)
    (hk : k < numQps) (hlink : links ⟨d, k⟩ = .pending) : s.listener.queueCtr = k := by
  have hphase := (h.drivers d).idx_of_lt (k := k) (by rw [hlink]; decide) (by rw [hlink]; decide)
  have hbefore : ∀ j < k, 5 ≤ (linkAt links s.joined c j).rank := by
    intro j hj
    have hallows := (h.drivers d).allows j
    rw [hphase] at hallows
    simp only [DriverPhase.Allows, hj, if_true] at hallows
    rw [linkAt_of links hc]
    exact Nat.le_trans (by decide) hallows.1
  have hnot : ¬ k < s.listener.queueCtr := by
    rw [hconn.counted k hk, linkAt_of links hc, hlink]
    decide
  by_contra hne
  have hlt : s.listener.queueCtr < k := by omega
  have := (hconn.counted s.listener.queueCtr (by omega)).mpr (hbefore _ hlt)
  omega

/-- A request is accepted for the queue that it was made for. -/
theorem ConnInv.connectRequest
    (h : ConnInv hash exclusivePolicy cfg filterAddr numHash numBits s₀ links s) {id : CmId}
    {ec : List CmEvent} (hec : s.ec = ⟨id, .connectRequest⟩ :: ec) :
    s.listener.Listens ∧ ∃ l, s.listener.handleRdmaCmEvent cfg ⟨id, .connectRequest⟩ =
        some (l, [.accept id]) ∧
      ConnInv hash exclusivePolicy cfg filterAddr numHash numBits s₀
        (Function.update links id .accepted)
        { s with listener := l, ec, net := s.net ++ [.rep id] } := by
  have hmark := h.ec.mem_iff.mp (hec ▸ List.mem_cons_self)
  have hlink : links id = .pending := LinkStage.eq_of_cmEvent hmark rfl
  obtain ⟨d, k⟩ := id
  obtain ⟨hk, c, hc⟩ := h.place (d := d) (k := k) (by rw [hlink]; decide)
  obtain ⟨i, hphase, hconn⟩ := h.joining hc hk (by rw [hlink]; decide)
  have hctr : s.listener.queueCtr = k := h.queueCtr_eq hconn hc hk hlink
  have hqueue : (s.listener.clients c).queues k = {} := by
    rw [h.records.queues, linkAt_of links hc, hlink]
    rfl
  obtain ⟨l, hl, hacc⟩ := Listener.onConnectRequest_some cfg s.listener ⟨d, k⟩
    (by rw [hconn.ctr]; exact hconn.client) (by rw [hctr]; exact hk)
    (by rw [hconn.ctr, hctr, hqueue])
  have hlistens : s.listener.Listens :=
    hconn.listens hphase hk (by rw [linkAt_of links hc, hlink]; decide)
  refine ⟨hlistens, l, ?_, ?_⟩
  · unfold Listener.handleRdmaCmEvent
    rw [Listener.onEvent_connectRequest, hl]
    rfl
  have hold : (linkAt links s.joined c k).rank < 5 := by
    rw [linkAt_of links hc, hlink]
    decide
  have hat := linkAt_update links h.nodup hc k .accepted
  have hne : ∀ {c' k'}, ¬ (c' = c ∧ k' = k) →
      linkAt (Function.update links ⟨d, k⟩ .accepted) s.joined c' k' = linkAt links s.joined c' k' :=
    fun hcase => (hat _ _).trans (if_neg hcase)
  have hself : linkAt (Function.update links ⟨d, k⟩ .accepted) s.joined c k = .accepted :=
    (hat c k).trans (if_pos ⟨rfl, rfl⟩)
  have hconnected : ∀ id, 8 ≤ (Function.update links ⟨d, k⟩ .accepted id).rank ↔
      8 ≤ (links id).rank := by
    intro id
    by_cases hid : id = ⟨d, k⟩
    · subst hid
      rw [Function.update_self, hlink]
      decide
    · rw [Function.update_of_ne hid]
  have hacc' := hacc
  obtain ⟨hclients, hclientCtr, hqueueCtr, hcontext, hhandlers, hph, hserver⟩ := hacc'
  rw [hconn.ctr, hctr] at hclients hcontext hhandlers
  rw [hctr] at hqueueCtr
  rw [hconn.ids c (Nat.le_refl c)] at hclients hhandlers
  have hother : ∀ c' ≠ c, l.clients c' = s.listener.clients c' := by
    intro c' hc'
    rw [hclients, Function.update_of_ne hc']
  have hzero : 5 ≤ (linkAt (Function.update links ⟨d, k⟩ .accepted) s.joined c 0).rank := by
    by_cases hk0 : (0 : ℕ) = k
    · subst hk0
      rw [hself]
      decide
    · rw [hne fun hcase => hk0 hcase.2, ← hconn.counted 0 (by decide), hctr]
      omega
  refine
    { net := h.net.put (by rw [hlink]; rfl) rfl
      ec := ?_
      drivers := fun e => ?_
      nodup := h.nodup
      joined := h.joined
      records := ?_
      phase := ?_
      stopped := fun c' e he hstop => by
        show LeftTo c' l.phase
        rw [hph]
        exact h.stopped c' e he hstop
      mr := h.mr.same (fun e => hconnected ⟨e, 0⟩) rfl hclientCtr rfl (fun _ => Iff.rfl) fun _ => rfl
      server := h.server.same (fun e => hconnected ⟨e, 0⟩) rfl hserver fun _ => Iff.rfl }
  · have htake := h.ec.take (a := .accepted) (List.Perm.of_eq hec) hmark
    rwa [show ecTokens.mark _ .accepted = none from rfl, Option.toList_none,
      List.append_nil] at htake
  · by_cases he : d = e
    · subst he
      exact (h.drivers d).advance (by rw [hlink]; rfl) (by rw [hlink]; decide)
    · exact (h.drivers e).of_ne he
  · refine
      { queues := fun c' k' => ?_
        context := fun c' e he k' => ?_
        stranger := fun e he k' => ?_
        rdev := fun c' hf => ?_
        filterMM := fun c' => ?_
        handlers := fun c' k' => ?_ }
    · by_cases hc' : c' = c
      · subst hc'
        show (l.clients c').queues k' = _
        rw [hclients, Function.update_self]
        by_cases hk' : k' = k
        · subst hk'
          show Function.update _ k' _ k' = _
          rw [Function.update_self, hself, hqueue, List.getD_eq_getElem?_getD, hc]
          rfl
        · show Function.update _ k _ k' = _
          rw [Function.update_of_ne hk', hne fun hcase => hk' hcase.2]
          exact h.records.queues c' k'
      · show (l.clients c').queues k' = _
        rw [hother c' hc', hne fun hcase => hc' hcase.1]
        exact h.records.queues c' k'
    · show l.context ⟨e, k'⟩ = _
      rw [hcontext]
      by_cases hid : (⟨e, k'⟩ : CmId) = ⟨d, k⟩
      · obtain ⟨rfl, rfl⟩ := CmId.mk.inj hid
        rw [Function.update_self, Function.update_self, index_unique h.nodup he hc]
        rfl
      · rw [Function.update_of_ne hid, Function.update_of_ne hid]
        exact h.records.context c' e he k'
    · show l.context ⟨e, k'⟩ = none
      have hid : (⟨e, k'⟩ : CmId) ≠ ⟨d, k⟩ := by
        intro hid
        obtain ⟨rfl, rfl⟩ := CmId.mk.inj hid
        exact he (List.mem_of_getElem? hc)
      rw [hcontext, Function.update_of_ne hid]
      exact h.records.stranger e he k'
    · change (l.clients c').freed = false at hf
      show (l.clients c').rdev = true ↔ _
      by_cases hc' : c' = c
      · subst hc'
        rw [hclients, Function.update_self]
        exact iff_of_true rfl hzero
      · rw [hother c' hc'] at hf ⊢
        rw [hne fun hcase => hc' hcase.1]
        exact h.records.rdev c' hf
    · show (l.clients c').filterMM = _
      by_cases hc' : c' = c
      · subst hc'
        rw [hclients, Function.update_self, if_pos hzero]
        show (if k = 0 then some c' else (s.listener.clients c').filterMM) = some c'
        by_cases hk0 : k = 0
        · rw [if_pos hk0]
        · rw [if_neg hk0, h.records.filterMM, ← hne fun hcase => hk0 hcase.2.symm, if_pos hzero]
      · rw [hother c' hc', hne fun hcase => hc' hcase.1]
        exact h.records.filterMM c'
    · show l.handlers.count (c', k') = _
      rw [hhandlers, List.count_append, h.records.handlers]
      by_cases hcase : c' = c ∧ k' = k
      · obtain ⟨rfl, rfl⟩ := hcase
        rw [hself, if_neg fun hold' => absurd hold'.1 (Nat.not_le.mpr hold)]
        by_cases hglobal : k' < numDataQps ∧ cfg.pollerType = .globalQp
        · rw [if_pos hglobal, if_neg fun hnew => hnew.2 hglobal]
          rfl
        · rw [if_neg hglobal, if_pos ⟨by decide, hglobal⟩, List.count_singleton_self]
      · rw [hne hcase]
        have hzero' : (if k < numDataQps ∧ cfg.pollerType = .globalQp then []
            else [(c, k)]).count (c', k') = 0 := by
          split_ifs
          · rfl
          · refine List.count_eq_zero.mpr fun hmem => hcase ?_
            obtain ⟨rfl, rfl⟩ := Prod.mk.inj (List.mem_singleton.mp hmem)
            exact ⟨rfl, rfl⟩
        rw [hzero', Nat.add_zero]
  · show PhaseInv cfg _ s.joined l
    unfold PhaseInv
    rw [hph, hphase]
    have hrank : ∀ c' k', 8 ≤ (linkAt (Function.update links ⟨d, k⟩ .accepted) s.joined c' k').rank ↔
        8 ≤ (linkAt links s.joined c' k').rank :=
      fun c' k' => linkAt_connected (fun e => hconnected ⟨e, k'⟩) c'
    refine
      { ctr := hclientCtr.trans hconn.ctr
        client := hconn.client
        joined_ge := hconn.joined_ge
        joined_le := hconn.joined_le
        before := fun c' hc' j hj => (hrank c' j).mpr (hconn.before c' hc' j hj)
        waiting := ?_
        counted := fun j hj => ?_
        queueCtr := by rw [hqueueCtr]; exact hk
        ids := fun c' hc' => ?_
        freed := fun c' => ?_ }
    · simp only [hrank]
      exact hconn.waiting
    · rw [hqueueCtr]
      by_cases hjk : j = k
      · subst hjk
        rw [hself]
        exact iff_of_true (Nat.lt_succ_self j) (by decide)
      · rw [hne fun hcase => hjk hcase.2, ← hconn.counted j hj, hctr]
        omega
    · by_cases hcc : c' = c
      · subst hcc
        rw [hclients, Function.update_self]
        exact hconn.ids c' hc'
      · rw [hother c' hcc]
        exact hconn.ids c' hc'
    · by_cases hcc : c' = c
      · subst hcc
        rw [hclients, Function.update_self]
        exact hconn.freed c'
      · rw [hother c' hcc]
        exact hconn.freed c'

/-! ## Connections -/

/-- The message of `send_mr` is the one for the client. -/
theorem ConnInv.serverMmInfo
    (h : ConnInv hash exclusivePolicy cfg filterAddr numHash numBits s₀ links s) {i : ℕ}
    (hconn : Connecting cfg links s.joined s.listener c i) :
    s.listener.serverMmInfo cfg c = mmInfo cfg numHash numBits c := by
  obtain ⟨hhash, hbits⟩ := h.server.runs.shaped 0
  unfold Listener.serverMmInfo mmInfo
  rw [hconn.ids c (Nat.le_refl c), hhash, hbits]

/-- The message of `send_mr` is on its way once queue 0 is connected. -/
theorem ConnInv.mr_connected
    (h : ConnInv hash exclusivePolicy cfg filterAddr numHash numBits s₀ links s)
    (hc : s.joined[c]? = some d) (hlink : (links ⟨d, 0⟩).rank < 8) {l : Listener Page}
    {ec : List CmEvent} (hctr : l.clientCtr = s.listener.clientCtr) :
    MrInv (mmInfo cfg numHash numBits) (Function.update links ⟨d, 0⟩ .connected)
      { s with listener := l, ec, mrs := s.mrs ++ [(⟨d, 0⟩, mmInfo cfg numHash numBits c)] } := by
  have hinf : ¬ (s.drivers d).phase.Informed := fun hinf => by
    have := h.mr.told d hinf
    omega
  have hother : ∀ e, e ≠ d → Function.update links ⟨d, 0⟩ .connected ⟨e, 0⟩ = links ⟨e, 0⟩ :=
    fun e he => Function.update_of_ne (fun hid => he (congrArg CmId.driver hid)) _ _
  have hnot : (⟨d, 0⟩, mmInfo cfg numHash numBits c) ∉ s.mrs := by
    intro hmem
    obtain ⟨c', e, -, hrank, -, heq⟩ := (h.mr.mem _).mp hmem
    obtain rfl : d = e := congrArg (fun m => CmId.driver m.1) heq
    omega
  refine
    { mem := fun m => ?_
      nodup := ?_
      told := fun e he => ?_
      informed := h.mr.informed
      unloaded := h.mr.unloaded
      before := fun c' e he hlt => h.mr.before c' e he (hctr ▸ hlt) }
  · rw [List.mem_append, List.mem_singleton, h.mr.mem]
    constructor
    · rintro (⟨c', e, he, hrank, hinf', rfl⟩ | rfl)
      · have hed : e ≠ d := by
          rintro rfl
          omega
        exact ⟨c', e, he, by rwa [hother e hed], hinf', rfl⟩
      · exact ⟨c, d, hc, by rw [Function.update_self]; decide, hinf, rfl⟩
    · rintro ⟨c', e, he, hrank, hinf', rfl⟩
      by_cases hed : e = d
      · subst hed
        rw [index_unique h.nodup he hc]
        exact Or.inr rfl
      · rw [hother e hed] at hrank
        exact Or.inl ⟨c', e, he, hrank, hinf', rfl⟩
  · exact List.nodup_append.mpr ⟨h.mr.nodup, List.nodup_singleton _, fun m hm m' hm' heq =>
      hnot (List.mem_singleton.mp hm' ▸ heq ▸ hm)⟩
  · by_cases hed : e = d
    · subst hed
      exact absurd he hinf
    · rw [hother e hed]
      exact h.mr.told e he

/-- Its receive for the region of the client is posted first. -/
theorem ConnInv.server_connected
    (h : ConnInv hash exclusivePolicy cfg filterAddr numHash numBits s₀ links s)
    (hc : s.joined[c]? = some d) (hclient : c < cfg.numClients) (hlink : (links ⟨d, 0⟩).rank < 8)
    {l : Listener Page} (hserver : l.server = s.listener.server.recvMr c) {ec : List CmEvent}
    {mrs : List (CmId × MmInfo)} :
    ServerInv hash exclusivePolicy cfg filterAddr numHash numBits s₀
      (Function.update links ⟨d, 0⟩ .connected) { s with listener := l, ec, mrs } := by
  have hstep : s.listener.server.step hash exclusivePolicy (.recvMr c) =
      some (s.listener.server.recvMr c, none) := rfl
  have hwf : s.listener.server.WellFormed (.recvMr c) := by
    show c < s.listener.server.kv.pool.numClients
    rw [h.server.runs.numClients]
    exact hclient
  have hruns := h.server.runs.step hwf hstep
  have hrecvs : ∀ c' ≠ c, (s.listener.server.recvMr c).recvs (c', 0) =
      s.listener.server.recvs (c', 0) := fun c' hc' =>
    Server.postRecv_recvs_of_ne (fun he => hc' (congrArg Prod.fst he)) _
  have hnil : s.listener.server.recvs (c, 0) = [] := h.server.unposted c (by
    rw [linkAt_of links hc]
    exact hlink)
  refine ⟨hserver ▸ hruns, fun c' hc' => ?_, fun c' e he hrank hann => ?_, fun c' e he hann => ?_⟩
  · rw [linkAt_update links h.nodup hc] at hc'
    have hne : c' ≠ c := by
      rintro rfl
      rw [if_pos ⟨rfl, rfl⟩] at hc'
      exact absurd hc' (by decide)
    rw [if_neg fun hcase => hne hcase.1] at hc'
    show l.server.recvs (c', 0) = []
    rw [hserver, hrecvs c' hne]
    exact h.server.unposted c' hc'
  · show (l.server.recvs (c', 0)).head? = _
    by_cases hne : c' = c
    · subst hne
      rw [hserver, Server.recvMr, Server.postRecv_recvs, hnil]
      rfl
    · rw [hserver, hrecvs c' hne]
      refine h.server.posted c' e he ?_ hann
      rwa [Function.update_of_ne] at hrank
      intro hid
      obtain rfl : e = d := congrArg CmId.driver hid
      exact hne (index_unique h.nodup he hc)
  · show l.server.clientMR c' = filterAddr e
    rw [hserver]
    exact h.server.clientMR c' e he hann

theorem ConnInv.established
    (h : ConnInv hash exclusivePolicy cfg filterAddr numHash numBits s₀ links s) {id : CmId}
    {ec : List CmEvent} (hec : s.ec = ⟨id, .established⟩ :: ec) :
    s.listener.Listens ∧ ∃ l out, s.listener.handleRdmaCmEvent cfg ⟨id, .established⟩ =
        some (l, out) ∧
      ConnInv hash exclusivePolicy cfg filterAddr numHash numBits s₀
        (Function.update links id .connected)
        (out.foldl ConnState.post { s with listener := l, ec }) := by
  have hmark := h.ec.mem_iff.mp (hec ▸ List.mem_cons_self)
  have hlink : links id = .confirmed := LinkStage.eq_of_cmEvent hmark rfl
  obtain ⟨d, k⟩ := id
  obtain ⟨hk, c, hc⟩ := h.place (d := d) (k := k) (by rw [hlink]; decide)
  obtain ⟨i, hphase, hconn⟩ := h.joining hc hk (by rw [hlink]; decide)
  have hcontext : s.listener.context ⟨d, k⟩ = some (c, k) := by
    rw [h.records.context c d hc, hlink]
    rfl
  have hqueue : (s.listener.clients c).queues k = LinkStage.confirmed.queue ⟨d, k⟩ := by
    rw [h.records.queues, linkAt_of links hc, hlink, List.getD_eq_getElem?_getD, hc]
    rfl
  have hlistens : s.listener.Listens :=
    hconn.listens hphase hk (by rw [linkAt_of links hc, hlink]; decide)
  have hold : linkAt links s.joined c k = .confirmed := (linkAt_of links hc k).trans hlink
  have hat := linkAt_update links h.nodup hc k .connected
  have hphase' : ∀ {l : Listener Page}, l.phase = .connecting c (i + 1) →
      l.clientCtr = s.listener.clientCtr → l.queueCtr = s.listener.queueCtr →
      (∀ c', (l.clients c').id = (s.listener.clients c').id ∧
        (l.clients c').freed = (s.listener.clients c').freed) →
      PhaseInv cfg (Function.update links ⟨d, k⟩ .connected) s.joined l := by
    intro l hph hctr hqctr hcl
    unfold PhaseInv
    rw [hph]
    refine
      { ctr := hctr.trans hconn.ctr
        client := hconn.client
        joined_ge := hconn.joined_ge
        joined_le := hconn.joined_le
        before := fun c' hc' j hj => ?_
        waiting := ?_
        counted := fun j hj => ?_
        queueCtr := by rw [hqctr]; exact hconn.queueCtr
        ids := fun c' hc' => (hcl c').1.trans (hconn.ids c' hc')
        freed := fun c' => (hcl c').2.trans (hconn.freed c') }
    · rw [hat, if_neg fun hcase => absurd hcase.1 (Nat.ne_of_lt hc')]
      exact hconn.before c' hc' j hj
    · rw [hconn.waiting]
      refine (countP_update hk ?_ ?_ fun j hj => ?_).symm
      · rw [hold]
        rfl
      · rw [hat, if_pos ⟨rfl, rfl⟩]
        rfl
      · rw [hat, if_neg fun hcase => hj hcase.2]
    · rw [hqctr, hconn.counted j hj, hat]
      split_ifs with hcase
      · rw [hcase.2, hold]
        decide
      · exact Iff.rfl
  have hdrivers : ∀ e, DriverInv (Function.update links ⟨d, k⟩ .connected) e (s.drivers e) := by
    intro e
    by_cases he : d = e
    · subst he
      exact (h.drivers d).advance (by rw [hlink]; rfl) (by rw [hlink]; decide)
    · exact (h.drivers e).of_ne he
  have hec' : ecTokens.Holds (Function.update links ⟨d, k⟩ .connected) ec := by
    have htake := h.ec.take (a := .connected) (List.Perm.of_eq hec) hmark
    rwa [show ecTokens.mark _ .connected = none from rfl, Option.toList_none,
      List.append_nil] at htake
  have hnet : netTokens.Holds (Function.update links ⟨d, k⟩ .connected) s.net :=
    h.net.same (by rw [hlink]; rfl)
  have hcl : ∀ c', ((s.listener.setQueue c k (LinkStage.connected.queue ⟨d, k⟩)).clients c').id =
        (s.listener.clients c').id ∧
      ((s.listener.setQueue c k (LinkStage.connected.queue ⟨d, k⟩)).clients c').freed =
        (s.listener.clients c').freed := by
    intro c'
    by_cases hcc : c' = c
    · subst hcc
      simp [Listener.setQueue, Listener.setClient]
    · simp [Listener.setQueue, Listener.setClient, hcc]
  have hstop : ∀ c' e : ℕ, s.joined[c']? = some e → (s.drivers e).phase.Stopped → False := by
    intro c' e he hs
    have := h.stopped c' e he hs
    rwa [hphase] at this
  refine ⟨hlistens, ?_⟩
  have hevent := Listener.onEvent_established cfg hcontext (hconn.freed c)
  have hinit : ((s.listener.clients c).queues k).state = .init := by
    rw [hqueue]
    rfl
  have hrecord : { (s.listener.clients c).queues k with state := .connected } =
      LinkStage.connected.queue ⟨d, k⟩ := by
    rw [hqueue]
    rfl
  by_cases hk0 : k = 0
  · subst hk0
    rw [Listener.onConnection_zero hinit, hrecord, h.serverMmInfo hconn] at hevent
    refine ⟨_, _, Listener.handleRdmaCmEvent_connecting hevent hphase, ?_⟩
    exact
      { net := hnet
        ec := hec'
        drivers := hdrivers
        nodup := h.nodup
        joined := h.joined
        records := h.records.setQueue h.nodup hc (by rw [hlink]; decide) (by decide) rfl rfl rfl
        phase := hphase' rfl rfl rfl hcl
        stopped := fun c' e he hs => absurd hs (hstop c' e he)
        mr := h.mr_connected hc (by rw [hlink]; decide) rfl
        server := h.server_connected hc hconn.client (by rw [hlink]; decide) rfl }
  · rw [Listener.onConnection_of_ne hinit hk0, hrecord] at hevent
    refine ⟨_, _, Listener.handleRdmaCmEvent_connecting hevent hphase, ?_⟩
    have hzero : ∀ e, 8 ≤ (Function.update links ⟨d, k⟩ .connected ⟨e, 0⟩).rank ↔
        8 ≤ (links ⟨e, 0⟩).rank := fun e => by
      rw [Function.update_of_ne fun hid => hk0 (congrArg CmId.queue hid).symm]
    exact
      { net := hnet
        ec := hec'
        drivers := hdrivers
        nodup := h.nodup
        joined := h.joined
        records := h.records.setQueue h.nodup hc (by rw [hlink]; decide) (by decide) rfl rfl rfl
        phase := hphase' rfl rfl rfl hcl
        stopped := fun c' e he hs => absurd hs (hstop c' e he)
        mr := h.mr.same hzero rfl rfl rfl (fun _ => Iff.rfl) fun _ => rfl
        server := h.server.same hzero rfl rfl fun _ => Iff.rfl }

/-! ## Ends of connections -/

/-- The end of a connection concerns the client that `exit_rdma` waits for. -/
theorem ConnInv.disconnected
    (h : ConnInv hash exclusivePolicy cfg filterAddr numHash numBits s₀ links s) {id : CmId}
    {ec : List CmEvent} (hec : s.ec = ⟨id, .disconnected⟩ :: ec) :
    s.listener.Listens ∧ ∃ l, s.listener.handleRdmaCmEvent cfg ⟨id, .disconnected⟩ =
        some (l, []) ∧
      ConnInv hash exclusivePolicy cfg filterAddr numHash numBits s₀
        (Function.update links id .gone) { s with listener := l, ec } := by
  have hmark := h.ec.mem_iff.mp (hec ▸ List.mem_cons_self)
  have hlink : links id = .closed := LinkStage.eq_of_cmEvent hmark rfl
  obtain ⟨d, k⟩ := id
  obtain ⟨hk, c, hc⟩ := h.place (d := d) (k := k) (by rw [hlink]; decide)
  obtain ⟨i, hphase, hleave⟩ := h.departing hc hk (by rw [hlink]; decide) (by rw [hlink]; decide)
  have hcontext : s.listener.context ⟨d, k⟩ = some (c, k) := by
    rw [h.records.context c d hc, hlink]
    rfl
  have hqueue : (s.listener.clients c).queues k = LinkStage.closed.queue ⟨d, k⟩ := by
    rw [h.records.queues, linkAt_of links hc, hlink, List.getD_eq_getElem?_getD, hc]
    rfl
  have hfreed : (s.listener.clients c).freed = false := by
    rw [hleave.freed]
    exact decide_eq_false (lt_irrefl c)
  have hold : linkAt links s.joined c k = .closed := (linkAt_of links hc k).trans hlink
  have hat := linkAt_update links h.nodup hc k .gone
  have hlistens : s.listener.Listens := by
    unfold Listener.Listens
    rw [hphase]
    have hlt : (List.range numQps).countP (fun k => linkAt links s.joined c k = .gone) <
        (List.range numQps).length := by
      refine Nat.lt_of_le_of_ne List.countP_le_length fun heq => ?_
      have hall := List.countP_eq_length.mp heq k (List.mem_range.mpr hk)
      rw [hold] at hall
      exact absurd hall (by decide)
    rw [List.length_range] at hlt
    show i < numQps
    rw [hleave.waiting]
    exact hlt
  have hevent := Listener.onEvent_disconnected cfg hcontext hfreed
  have hset : s.listener.onDisconnect c k =
      s.listener.setQueue c k (LinkStage.gone.queue ⟨d, k⟩) := by
    unfold Listener.onDisconnect
    rw [hqueue]
    rfl
  rw [hset] at hevent
  have hzero : ∀ e, 8 ≤ (Function.update links ⟨d, k⟩ .gone ⟨e, 0⟩).rank ↔
      8 ≤ (links ⟨e, 0⟩).rank := by
    intro e
    by_cases hid : (⟨e, 0⟩ : CmId) = ⟨d, k⟩
    · rw [hid, Function.update_self, hlink]
      decide
    · rw [Function.update_of_ne hid]
  refine ⟨hlistens, _, Listener.handleRdmaCmEvent_leaving hevent hphase, ?_⟩
  refine
    { net := h.net.same (by rw [hlink]; rfl)
      ec := ?_
      drivers := fun e => ?_
      nodup := h.nodup
      joined := h.joined
      records := h.records.setQueue h.nodup hc (by rw [hlink]; decide) (by decide) rfl rfl rfl
      phase := ?_
      stopped := fun c' e he hs => ?_
      mr := h.mr.same hzero rfl rfl rfl (fun _ => Iff.rfl) fun _ => rfl
      server := h.server.same hzero rfl rfl fun _ => Iff.rfl }
  · have htake := h.ec.take (a := .gone) (List.Perm.of_eq hec) hmark
    rwa [show ecTokens.mark _ .gone = none from rfl, Option.toList_none, List.append_nil] at htake
  · by_cases he : d = e
    · subst he
      exact (h.drivers d).advance (by rw [hlink]; rfl) (by rw [hlink]; decide)
    · exact (h.drivers e).of_ne he
  · show Leaving cfg _ s.joined _ c (i + 1)
    refine
      { ctr := hleave.ctr
        all := hleave.all
        client := hleave.client
        before := fun c' hc' j hj => ?_
        after := fun c' hc' hlt j hj => ?_
        waiting := ?_
        freed := fun c' => ?_ }
    · rw [hat, if_neg fun hcase => absurd hcase.1 (Nat.ne_of_lt hc')]
      exact hleave.before c' hc' j hj
    · rw [hat]
      split_ifs
      · decide
      · exact hleave.after c' hc' hlt j hj
    · rw [hleave.waiting]
      refine (countP_update hk ?_ ?_ fun j hj => ?_).symm
      · rw [hold]
        rfl
      · rw [hat, if_pos ⟨rfl, rfl⟩]
        rfl
      · rw [hat, if_neg fun hcase => hj hcase.2]
    · rw [← hleave.freed c']
      show (Function.update s.listener.clients c _ c').freed = _
      by_cases hcc : c' = c
      · subst hcc
        rw [Function.update_self]
      · rw [Function.update_of_ne hcc]
  · have hleft := h.stopped c' e he hs
    rw [hphase] at hleft
    exact hleft

theorem LinkStage.rank_of_cmEvent {st : LinkStage} {id : CmId} {event : CmEventType}
    (h : st.cmEvent id = some ⟨id, event⟩) :
    st.rank = match event with
      | .connectRequest => 4
      | .established => 7
      | .disconnected => 10
      | .unknown => 0 := by
  cases st <;> first | (cases h; rfl) | cases h

/-- The main thread reads the next event and does not stop. -/
theorem ConnInv.handleEvent
    (h : ConnInv hash exclusivePolicy cfg filterAddr numHash numBits s₀ links s) {e : CmEvent}
    {ec : List CmEvent} (hec : s.ec = e :: ec) :
    ∃ s' links', s.handleEvent cfg = some s' ∧ Advances links links' ∧
      ConnInv hash exclusivePolicy cfg filterAddr numHash numBits s₀ links' s' := by
  have hrun : ∀ {l : Listener Page} {out : List Daemon.Outgoing}, s.listener.Listens →
      s.listener.handleRdmaCmEvent cfg e = some (l, out) →
      s.handleEvent cfg = some (out.foldl ConnState.post { s with listener := l, ec }) := by
    intro l out hlistens hhandle
    unfold ConnState.handleEvent
    rw [hec]
    dsimp only
    rw [if_pos hlistens, hhandle]
    rfl
  have hmark := h.ec.mem_iff.mp (hec ▸ List.mem_cons_self)
  change (links e.id).cmEvent e.id = some e at hmark
  obtain ⟨id, event⟩ := e
  have hrank := LinkStage.rank_of_cmEvent hmark
  cases event with
  | connectRequest =>
      obtain ⟨hlistens, l, hl, hinv⟩ := h.connectRequest hec
      exact ⟨_, _, hrun hlistens hl, ⟨id, _, rfl, congrArg (· + 1) hrank.symm⟩, hinv⟩
  | established =>
      obtain ⟨hlistens, l, out, hl, hinv⟩ := h.established hec
      exact ⟨_, _, hrun hlistens hl, ⟨id, _, rfl, congrArg (· + 1) hrank.symm⟩, hinv⟩
  | disconnected =>
      obtain ⟨hlistens, l, hl, hinv⟩ := h.disconnected hec
      exact ⟨_, _, hrun hlistens hl, ⟨id, _, rfl, congrArg (· + 1) hrank.symm⟩, hinv⟩
  | unknown =>
      cases hlink : links id <;> rw [hlink] at hmark <;> cases hmark

end Events

end CleancacheRdma.Driver
