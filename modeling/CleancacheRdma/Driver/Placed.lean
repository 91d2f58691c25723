import Mathlib
import CleancacheRdma.Driver.Backend
import CleancacheRdma.Driver.Handshake

/-!
# Every driver has its place

Whatever the order of the steps, the number that a driver is told is the one
under which the daemon handles its queues, and no driver shares it with another
one. The daemon does not stop on any event, and does not free a client twice.
-/

namespace CleancacheRdma.Driver

open Daemon (HashFuncs Server ServerStep CmId CmEvent CmEventType MmInfo ConnConfig Phase
  Listener numQps numDataQps serverSystem longkeyToCid)
open Lib (System Tokens)

section Placed

variable {Page : Type} {hash : HashFuncs} {exclusivePolicy : Bool} {cfg : ConnConfig}
  {filterAddr : ℕ → BitVec 64} {numHash numBits : ℕ} {s₀ : Server Page} {links : CmId → LinkStage}
  {s s' : ConnState Page} {c d k : ℕ}

/-! ## Every step -/

theorem ConnInv.step (h : ConnInv hash exclusivePolicy cfg filterAddr numHash numBits s₀ links s)
    {a : ConnStep Page} (hallowed : s.Allowed a)
    (hstep : s.step hash exclusivePolicy cfg filterAddr a = some s') :
    ∃ links', (a.Moves → Advances links links') ∧ (¬ a.Moves → links' = links) ∧
      ConnInv hash exclusivePolicy cfg filterAddr numHash numBits s₀ links' s' := by
  have hmoved : a.Moves → (∃ links', Advances links links' ∧
      ConnInv hash exclusivePolicy cfg filterAddr numHash numBits s₀ links' s') →
      ∃ links', (a.Moves → Advances links links') ∧ (¬ a.Moves → links' = links) ∧
        ConnInv hash exclusivePolicy cfg filterAddr numHash numBits s₀ links' s' :=
    fun hmoves ⟨links', hadv, hinv⟩ => ⟨links', fun _ => hadv, (absurd hmoves ·), hinv⟩
  have hstayed : ¬ a.Moves →
      ConnInv hash exclusivePolicy cfg filterAddr numHash numBits s₀ links s' →
      ∃ links', (a.Moves → Advances links links') ∧ (¬ a.Moves → links' = links) ∧
        ConnInv hash exclusivePolicy cfg filterAddr numHash numBits s₀ links' s' :=
    fun hstays hinv => ⟨links, (absurd · hstays), fun _ => rfl, hinv⟩
  cases a with
  | load d =>
      obtain ⟨hunloaded, heq⟩ := Option.ite_none_right_eq_some.mp hstep
      cases heq
      exact hstayed not_false (h.load hallowed hunloaded)
  | initQueue d => exact hmoved trivial (h.initQueue hstep)
  | addrResolved d => exact hmoved trivial (h.addrResolved hstep)
  | routeResolved d => exact hmoved trivial (h.routeResolved hstep)
  | cmFails _ _ | waitTimesOut _ | reportOther _ => exact hallowed.elim
  | waitForCm d => exact hstayed not_false (h.waitForCm hstep)
  | recvRemotemr d => exact hstayed not_false (h.recvRemotemr hstep)
  | sendLocalmr d draw =>
      have hphase : (s.drivers d).phase = .sendLocalmr :=
        (Option.ite_none_right_eq_some.mp hstep).1
      obtain ⟨t, ht, hinv⟩ := h.sendLocalmr hphase draw
      cases ht.symm.trans hstep
      exact hstayed not_false hinv
  | unload d =>
      obtain ⟨c, hc, hwaits⟩ := hallowed
      obtain ⟨hready, heq⟩ := Option.ite_none_right_eq_some.mp hstep
      cases heq
      exact hstayed not_false (h.unload hc hwaits hready)
  | stopQueue d => exact hmoved trivial (h.stopQueue hstep)
  | deliver i =>
      obtain ⟨m, hm, rfl⟩ := Option.map_eq_some_iff.mp hstep
      exact hmoved trivial (h.deliver hm)
  | handleEvent =>
      cases hec : s.ec with
      | nil =>
          change s.handleEvent cfg = some s' at hstep
          unfold ConnState.handleEvent at hstep
          rw [hec] at hstep
          cases hstep
      | cons e ec =>
          obtain ⟨t, links', ht, hadv, hinv⟩ := h.handleEvent hec
          cases ht.symm.trans hstep
          exact hmoved trivial ⟨links', hadv, hinv⟩
  | finishClient => exact hstayed not_false (h.finishClient hstep)
  | freeClient =>
      change s.freeClient = some s' at hstep
      have hfree := hstep
      unfold ConnState.freeClient at hfree
      split at hfree
      next c i hphase =>
        obtain ⟨rfl, -⟩ := Option.ite_none_right_eq_some.mp hfree
        obtain ⟨t, ht, hinv⟩ := h.freeClient hphase
        cases ht.symm.trans hstep
        exact hstayed not_false hinv
      · cases hfree
  | server a =>
      obtain ⟨⟨t, r⟩, ht, rfl⟩ := Option.map_eq_some_iff.mp hstep
      exact hstayed not_false (h.traffic hallowed ht)

/-- The daemon waits for its first client. -/
theorem ConnInv.new (hclients : 0 < cfg.numClients)
    (hruns : Runs hash exclusivePolicy cfg.numClients numHash numBits s₀ s₀)
    (hrecvs : ∀ c, s₀.recvs (c, 0) = []) :
    ConnInv hash exclusivePolicy cfg filterAddr numHash numBits s₀ (fun _ => .idle)
      (.new cfg s₀) := by
  have hnone : ∀ (c d : ℕ), ([] : List ℕ)[c]? = some d → False := fun c d hc => by
    rw [List.getElem?_nil] at hc
    cases hc
  have hidle : ∀ c k, linkAt (fun _ => .idle) [] c k = .idle :=
    fun c k => linkAt_none _ (Nat.zero_le c) k
  have hlistener : (ConnState.new cfg s₀).listener =
      { ({ server := s₀ } : Listener Page).setClient 0 {} with } := by
    show Listener.awaitClient cfg { server := s₀ } 0 = _
    unfold Listener.awaitClient
    rw [if_pos hclients]
    rfl
  have hids : ∀ c, ∃ id, (ConnState.new cfg s₀).listener.clients c = { id := id } :=
    fun c => Listener.awaitClient_clients 0 c
  have hphase : (ConnState.new cfg s₀).listener.phase = .connecting 0 0 := by
    rw [hlistener]
    rfl
  refine
    { net := Tokens.holds_nil fun _ => rfl
      ec := Tokens.holds_nil fun _ => rfl
      drivers := fun d => ⟨fun _ => rfl, trivial, fun _ => rfl, fun _ h => by cases h⟩
      nodup := List.nodup_nil
      joined := fun d => iff_of_false List.not_mem_nil fun hd => hd rfl
      records := ?_
      phase := ?_
      stopped := fun c d hc => absurd hc (hnone c d)
      mr :=
        { mem := fun m => iff_of_false List.not_mem_nil
            fun ⟨c, d, hc, _⟩ => hnone c d hc
          nodup := List.nodup_nil
          told := fun d hd => absurd hd not_false
          informed := fun c d hc => absurd hc (hnone c d)
          unloaded := fun _ _ => rfl
          before := fun c d hc => absurd hc (hnone c d) }
      server := ?_ }
  · show RecordInv cfg _ [] (ConnState.new cfg s₀).listener
    refine
      { queues := fun c k => ?_
        context := fun c d hc => absurd hc (hnone c d)
        stranger := fun d _ k => by rw [hlistener]; rfl
        rdev := fun c _ => ?_
        filterMM := fun c => ?_
        handlers := fun c k => ?_ }
    · obtain ⟨id, hid⟩ := hids c
      rw [hid, hidle]
      rfl
    · obtain ⟨id, hid⟩ := hids c
      rw [hid, hidle]
      exact iff_of_false Bool.false_ne_true (by decide)
    · obtain ⟨id, hid⟩ := hids c
      rw [hid, hidle]
      rfl
    · rw [hlistener, hidle, if_neg fun hc => absurd hc.1 (by decide)]
      rfl
  · show PhaseInv cfg _ [] (ConnState.new cfg s₀).listener
    unfold PhaseInv
    rw [hphase]
    refine
      { ctr := by rw [hlistener]; rfl
        client := hclients
        joined_ge := Nat.le_refl 0
        joined_le := Nat.zero_le _
        before := fun c hc => absurd hc (Nat.not_lt_zero c)
        waiting := countP_none fun k _ => by rw [hidle]; rfl
        counted := fun k _ => by
          rw [hidle, hlistener]
          exact iff_of_false (Nat.not_lt_zero k) (by decide)
        queueCtr := by rw [hlistener]; exact Nat.zero_le _
        ids := fun c hc => ?_
        freed := fun c => ?_ }
    · obtain rfl := Nat.le_zero.mp hc
      rw [hlistener]
      rfl
    · obtain ⟨id, hid⟩ := hids c
      rw [hid]
  · have hserver : (ConnState.new cfg s₀).listener.server = s₀ := Listener.awaitClient_server 0
    exact
      { runs := hserver.symm ▸ hruns
        unposted := fun c _ => by rw [hserver]; exact hrecvs c
        posted := fun c d hc => absurd hc (hnone c d)
        clientMR := fun c d hc => absurd hc (hnone c d) }

theorem ConnInv.exec (hclients : 0 < cfg.numClients) {startAddr : Daemon.Value}
    {mem : Daemon.Value → Daemon.Slot Page}
    (hinit : s₀ = .new startAddr cfg.memPoolSize cfg.numClients numHash numBits mem)
    {as : List (ConnStep Page)}
    (hmeets : (connSystem hash exclusivePolicy cfg filterAddr s₀).Meets ConnState.Allowed
      (.new cfg s₀) as)
    (hexec : (connSystem hash exclusivePolicy cfg filterAddr s₀).exec (.new cfg s₀) as = some s) :
    ∃ links, ConnInv hash exclusivePolicy cfg filterAddr numHash numBits s₀ links s := by
  have hruns : Runs hash exclusivePolicy cfg.numClients numHash numBits s₀ s₀ := by
    subst hinit
    exact ⟨⟨[], trivial, rfl⟩, Server.new_inv _ _ _ _ _ _, rfl, fun _ => ⟨rfl, rfl⟩⟩
  have hrecvs : ∀ c, s₀.recvs (c, 0) = [] := by
    subst hinit
    exact fun _ => rfl
  refine System.exec_invariant
    (I := fun s => ∃ links, ConnInv hash exclusivePolicy cfg filterAddr numHash numBits s₀ links s)
    (fun t a t' ⟨links, h⟩ hallowed hstep => ?_) ⟨_, .new hclients hruns hrecvs⟩ hmeets hexec
  obtain ⟨links', -, -, hinv⟩ := h.step hallowed hstep
  exact ⟨links', hinv⟩

/-! ## Places -/

/-- The number `c` that driver `d` is told is the one under which the daemon
handles its queues; once it is ready, all of them are there, and its filter
region is the one to which the filter of client `c` is sent. -/
structure Placed (cfg : ConnConfig) (filterAddr : ℕ → BitVec 64) (s : ConnState Page) (c d : ℕ) :
    Prop where
  client : c < cfg.numClients
  context : ∀ k cid qid, s.listener.context ⟨d, k⟩ = some (cid, qid) → cid = c ∧ qid = k
  told : ∀ info, (s.drivers d).svrMmInfo = some info →
    info.cliId = BitVec.ofNat 32 c ∧ info.baseaddr = cfg.metaAddr c ∧ info.key = cfg.metaKey c ∧
      info.numHash = BitVec.ofNat 32 (s.listener.server.kv.cbfs c).numHash ∧
      info.numBits = BitVec.ofNat 32 (s.listener.server.kv.cbfs c).numBits
  ready : (s.drivers d).phase = .ready → (s.drivers d).svrMmInfo.isSome = true ∧
    s.listener.server.clientMR c = filterAddr d ∧
    (s.listener.clients c).filterMM = some c ∧
    ∀ k < numQps, s.listener.context ⟨d, k⟩ = some (c, k) ∧
      s.listener.handlers.count (c, k) =
        if k < numDataQps ∧ cfg.pollerType = .globalQp then 0 else 1

theorem ConnInv.placed
    (h : ConnInv hash exclusivePolicy cfg filterAddr numHash numBits s₀ links s)
    (hc : s.joined[c]? = some d) : Placed cfg filterAddr s c d where
  client := by
    have hlt := (List.getElem?_eq_some_iff.mp hc).1
    cases hl : s.listener.phase with
    | connecting c' i =>
        have hconn := h.connecting hl
        exact Nat.lt_of_lt_of_le hlt (Nat.le_trans hconn.joined_le hconn.client)
    | leaving c' i => exact (h.leaving hl).all ▸ hlt
    | done => exact (h.finished hl).all ▸ hlt
  context k cid qid hcontext := by
    rw [h.records.context c d hc] at hcontext
    obtain ⟨-, heq⟩ := Option.ite_none_right_eq_some.mp hcontext
    obtain ⟨rfl, rfl⟩ := Prod.mk.inj (Option.some.inj heq)
    exact ⟨rfl, rfl⟩
  told info hinfo := by
    rw [h.mr.informed c d hc] at hinfo
    obtain ⟨-, heq⟩ := Option.ite_none_right_eq_some.mp hinfo
    cases heq
    obtain ⟨hnum, hbits⟩ := h.server.runs.shaped c
    rw [hnum, hbits]
    exact ⟨rfl, rfl, rfl, rfl, rfl⟩
  ready hphase := by
    have hinf : (s.drivers d).phase.Informed := by rw [hphase]; trivial
    have hann : (s.drivers d).phase.Announced := by rw [hphase]; trivial
    have hallows := (h.drivers d).allows
    rw [hphase] at hallows
    have hrank : ∀ k < numQps, 5 ≤ (links ⟨d, k⟩).rank := by
      intro k hk
      have hk' := hallows k
      simp only [DriverPhase.Allows, if_pos hk] at hk'
      exact Nat.le_trans (by decide) hk'.1
    refine ⟨?_, h.server.clientMR c d hc hann, ?_, fun k hk => ⟨?_, ?_⟩⟩
    · rw [h.mr.informed c d hc, if_pos hinf]
      rfl
    · rw [h.records.filterMM, linkAt_of links hc, if_pos (hrank 0 (by decide))]
    · rw [h.records.context c d hc, if_pos (hrank k hk)]
    · rw [h.records.handlers, linkAt_of links hc]
      by_cases hglobal : k < numDataQps ∧ cfg.pollerType = .globalQp
      · rw [if_pos hglobal, if_neg fun hcase => hcase.2 hglobal]
      · rw [if_neg hglobal, if_pos ⟨hrank k hk, hglobal⟩]

/-- The keys of a driver name the client under which its messages are handled. -/
theorem Placed.longkeyToCid_key (h : Placed cfg filterAddr s c d) {info : MmInfo}
    (hinfo : (s.drivers d).svrMmInfo = some info) {cid qid : ℕ}
    (hcontext : s.listener.context ⟨d, k⟩ = some (cid, qid)) (hclients : cfg.numClients ≤ 2 ^ 4)
    {ino index : BitVec 64} (hino : ino.toNat < 2 ^ 32) (hindex : index.toNat < 2 ^ 28) :
    longkeyToCid (makeLongkey (info.cliId.signExtend 64) ino index) = cid := by
  obtain ⟨rfl, -⟩ := h.context k cid qid hcontext
  have hcid : cid < 2 ^ 4 := Nat.lt_of_lt_of_le h.client hclients
  have hsign : info.cliId.signExtend 64 = BitVec.ofNat 64 cid := by
    rw [(h.told info hinfo).1]
    refine BitVec.eq_of_toNat_eq ?_
    rw [BitVec.signExtend_eq_setWidth_of_msb_false, BitVec.toNat_setWidth, BitVec.toNat_ofNat,
      BitVec.toNat_ofNat]
    · omega
    · rw [BitVec.msb_eq_decide, BitVec.toNat_ofNat]
      exact decide_eq_false (by omega)
  rw [hsign]
  exact FilePage.Fits.longkeyToCid_key (p := ⟨cid, ino, index⟩) ⟨hcid, hino, hindex⟩

/-! ## A wait that is given up -/

variable (hash exclusivePolicy cfg filterAddr s₀) in
/-- The clean-up disconnects the queues that were connected before, the first of
them first. -/
theorem ConnState.exec_given_up {idx : ℕ}
    (hphase : (s.drivers d).phase = .waitForCm idx) (hidx : 0 < idx)
    (hdone : ((s.drivers d).queues idx).cmDone = false)
    (herror : ((s.drivers d).queues idx).cmError ≠ 0) :
    ∃ t, (connSystem hash exclusivePolicy cfg filterAddr s₀).exec s
        [.waitTimesOut d, .stopQueue d, .deliver s.net.length] = some t ∧
      t.ec = s.ec ++ [⟨⟨d, 0⟩, .disconnected⟩] ∧ t.listener = s.listener := by
  set u := s.waited d idx with hu
  rw [ConnState.waited_failed herror] at hu
  have hphase' : (u.drivers d).phase = .initFailed 0 idx := by
    rw [hu]
    simp [ConnState.setPhase, ConnState.setDriver]
  have hout : s.waitTimesOut d = some u := by
    unfold ConnState.waitTimesOut
    rw [hphase]
    dsimp only
    rw [hdone]
    rfl
  set v := u.disconnect d 0 (.initFailed 1 idx) with hv
  have hstop : u.stopQueue d = some v := by
    unfold ConnState.stopQueue
    rw [hphase']
    exact if_pos hidx
  have hnet : v.net = s.net ++ [.dreq ⟨d, 0⟩] := by
    rw [hv, hu]
    rfl
  have hget : v.net[s.net.length]? = some (.dreq ⟨d, 0⟩) := by
    rw [hnet]
    exact List.getElem?_concat_length
  refine ⟨{ v with net := v.net.eraseIdx s.net.length }.arrive (.dreq ⟨d, 0⟩), ?_, ?_, ?_⟩
  · refine System.exec_cons_some.mpr ⟨u, hout, System.exec_cons_some.mpr ⟨v, hstop, ?_⟩⟩
    refine System.exec_cons_some.mpr ⟨_, ?_, rfl⟩
    show v.net[s.net.length]?.map _ = _
    rw [hget]
    rfl
  · rw [hv, hu]
    rfl
  · rw [hv, hu]
    rfl

/-- A driver that gives a queue up when others of its queues have come stops the daemon. -/
theorem ConnInv.given_up
    (h : ConnInv hash exclusivePolicy cfg filterAddr numHash numBits s₀ links s) {idx : ℕ}
    (hphase : (s.drivers d).phase = .waitForCm idx) (hidx : 0 < idx)
    (hdone : ((s.drivers d).queues idx).cmDone = false) (hec : s.ec = []) :
    ∃ t, (connSystem hash exclusivePolicy cfg filterAddr s₀).exec s
        [.waitTimesOut d, .stopQueue d, .deliver s.net.length] = some t ∧
      t.listener.Listens ∧ t.ec ≠ [] ∧ t.handleEvent cfg = none := by
  have hd := h.drivers d
  have hrange := hd.inRange
  rw [hphase] at hrange
  obtain ⟨hup, herror⟩ := hd.done idx hphase
  have hlow : ¬ 6 ≤ (links ⟨d, idx⟩).rank := fun hge => by simpa [hdone] using hup.mpr hge
  obtain ⟨t, ht, htec, hlistener⟩ := ConnState.exec_given_up hash exclusivePolicy cfg filterAddr
    s₀ hphase hidx hdone (mt herror.mp hlow)
  rw [hec, List.nil_append] at htec
  -- its last queue has not come, so `run_rdma` waits for it
  obtain ⟨c, hc⟩ := List.mem_iff_getElem?.mp ((h.joined d).mpr (by simp [hphase]))
  obtain ⟨i, hwaits, hconn⟩ := h.joining hc hrange (by omega)
  have hlistens := hconn.listens hwaits hrange (by rw [linkAt_of links hc]; omega)
  rw [← hlistener] at hwaits hlistens
  refine ⟨t, ht, hlistens, ?_, ConnState.handleEvent_stops htec hwaits (.inl rfl)⟩
  rw [htec]
  exact List.cons_ne_nil _ _

/-- In every run every driver that was loaded has a place of its own, the
daemon stops on no event, and its store is one that runs without connections
lead to. It would stop if a driver gave up a queue behind its first one. -/
theorem drivers_placed (hash : HashFuncs) (exclusivePolicy : Bool) (cfg : ConnConfig)
    (filterAddr : ℕ → BitVec 64) (startAddr : Daemon.Value) (numHash numBits : ℕ)
    (mem : Daemon.Value → Daemon.Slot Page) (hclients : 0 < cfg.numClients)
    {s₀ : Server Page}
    (hinit : s₀ = .new startAddr cfg.memPoolSize cfg.numClients numHash numBits mem)
    {as : List (ConnStep Page)} {s : ConnState Page}
    (hmeets : (connSystem hash exclusivePolicy cfg filterAddr s₀).Meets ConnState.Allowed
      (.new cfg s₀) as)
    (hexec : (connSystem hash exclusivePolicy cfg filterAddr s₀).exec (.new cfg s₀) as = some s) :
    (s.ec ≠ [] → (s.handleEvent cfg).isSome = true) ∧
      (∀ c, s.listener.phase = .leaving c numQps → s.freeClient.isSome = true) ∧
      s.joined.Nodup ∧
      (∀ d, (s.drivers d).phase ≠ .unloaded → ∃ c : ℕ, s.joined[c]? = some d) ∧
      (∀ c d, s.joined[c]? = some d → Placed cfg filterAddr s c d) ∧
      (∀ d k cid qid info, s.listener.context ⟨d, k⟩ = some (cid, qid) →
        (s.drivers d).svrMmInfo = some info → cfg.numClients ≤ 2 ^ 4 →
        ∀ ino index : BitVec 64, ino.toNat < 2 ^ 32 → index.toNat < 2 ^ 28 →
          longkeyToCid (makeLongkey (info.cliId.signExtend 64) ino index) = cid) ∧
      (∃ bs, (serverSystem hash exclusivePolicy s₀).Meets Server.WellFormed s₀ bs ∧
        (serverSystem hash exclusivePolicy s₀).exec s₀ bs = some s.listener.server) ∧
      ∀ d idx, (s.drivers d).phase = .waitForCm idx → 0 < idx →
        ((s.drivers d).queues idx).cmDone = false → s.ec = [] →
        ∃ t, (connSystem hash exclusivePolicy cfg filterAddr s₀).exec s
            [.waitTimesOut d, .stopQueue d, .deliver s.net.length] = some t ∧
          t.listener.Listens ∧ t.ec ≠ [] ∧ t.handleEvent cfg = none := by
  obtain ⟨links, h⟩ := ConnInv.exec hclients hinit hmeets hexec
  have hplace : ∀ d, (s.drivers d).phase ≠ .unloaded → ∃ c : ℕ, s.joined[c]? = some d :=
    fun d hd => List.mem_iff_getElem?.mp ((h.joined d).mpr hd)
  refine ⟨fun hne => ?_, fun c hphase => ?_, h.nodup, hplace, fun c d hc => h.placed hc, ?_,
    h.server.runs.run, fun d idx hphase hidx hdone hec => h.given_up hphase hidx hdone hec⟩
  · obtain ⟨e, ec, hec⟩ := List.exists_cons_of_ne_nil hne
    obtain ⟨t, -, ht, -, -⟩ := h.handleEvent hec
    rw [ht]
    rfl
  · obtain ⟨t, ht, -⟩ := h.freeClient hphase
    rw [ht]
    rfl
  · intro d k cid qid info hcontext hinfo hfew ino index hino hindex
    have hd : (s.drivers d).phase ≠ .unloaded := by
      intro hd
      rw [h.mr.unloaded d fun hmem => (h.joined d).mp hmem hd] at hinfo
      cases hinfo
    obtain ⟨c, hc⟩ := hplace d hd
    exact (h.placed hc).longkeyToCid_key hinfo hcontext hfew hino hindex

end Placed

/-! ## One driver -/

/-- One client may connect. -/
def oneClient : ConnConfig where
  numClients := 1
  memPoolSize := 2 ^ 20
  pollerType := .globalQp
  metaAddr := fun _ => 4096
  metaKey := fun _ => 7

def oneClientServer : Server Unit := .new 4096 (2 ^ 20) 1 2 64 fun _ => ⟨(), 0⟩

/-- One queue of driver 5, from its address to the daemon's last event. -/
def connectQueue : List (ConnStep Unit) :=
  [.initQueue 5, .addrResolved 5, .routeResolved 5, .deliver 0, .handleEvent, .deliver 0,
    .waitForCm 5, .deliver 0, .handleEvent]

def handshakeRun : List (ConnStep Unit) :=
  (List.replicate numQps connectQueue).flatten ++ [.recvRemotemr 5, .sendLocalmr 5 {}]

/-- The driver is set up and has the first place. -/
theorem drivers_placed_handshake : ∃ s,
    (connSystem Daemon.keyHash true oneClient (fun d => BitVec.ofNat 64 d)
      oneClientServer).exec (.new oneClient oneClientServer) (.load 5 :: handshakeRun) = some s ∧
      (s.drivers 5).phase = .ready ∧ Placed oneClient (fun d => BitVec.ofNat 64 d) s 0 5 := by
  have hlast : ((connSystem Daemon.keyHash true oneClient (fun d => BitVec.ofNat 64 d)
      oneClientServer).exec (.new oneClient oneClientServer) (.load 5 :: handshakeRun)).map
        (fun s => (s.joined, (s.drivers 5).phase)) = some ([5], .ready) := by
    decide +kernel
  obtain ⟨s, hexec, hs⟩ := Option.map_eq_some_iff.mp hlast
  obtain ⟨hjoined, hphase⟩ := Prod.mk.inj hs
  have hqueue : ∀ a ∈ connectQueue, ∀ u : ConnState Unit, u.Allowed a := by
    simp [connectQueue, ConnState.Allowed]
  have hmeets : (connSystem Daemon.keyHash true oneClient (fun d => BitVec.ofNat 64 d)
      oneClientServer).Meets ConnState.Allowed (.new oneClient oneClientServer)
        (.load 5 :: handshakeRun) := by
    refine ⟨rfl, fun t _ => System.meets_of_mem t handshakeRun fun a ha u => ?_⟩
    rcases List.mem_append.mp ha with hqueues | hmrs
    · obtain ⟨l, hl, hal⟩ := List.mem_flatten.mp hqueues
      rw [List.eq_of_mem_replicate hl] at hal
      exact hqueue a hal u
    · rcases List.mem_pair.mp hmrs with rfl | rfl
      · trivial
      · trivial
  exact ⟨s, hexec, hphase, (drivers_placed Daemon.keyHash true oneClient
    (fun d => BitVec.ofNat 64 d) 4096 2 64 (fun _ => ⟨(), 0⟩) (by decide) rfl hmeets
    hexec).2.2.2.2.1 0 5 (by rw [hjoined]; rfl)⟩

/-- Driver 5 gives its first queue up when the daemon has accepted it, and the
daemon's count goes on from there: the first queue of driver 6 is taken for a second one. -/
example : ((connSystem Daemon.keyHash true oneClient (fun d => BitVec.ofNat 64 d)
    oneClientServer).exec (.new oneClient oneClientServer)
      [.load 5, .initQueue 5, .addrResolved 5, .routeResolved 5, .deliver 0, .handleEvent,
        .waitTimesOut 5, .deliver 0, .load 6, .initQueue 6, .addrResolved 6, .routeResolved 6,
        .deliver 0, .handleEvent]).map (fun s => s.listener.context ⟨6, 0⟩) =
      some (some (0, 1)) := by
  decide +kernel

end CleancacheRdma.Driver
