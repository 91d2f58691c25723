import Mathlib
import CleancacheRdma.Driver.Connection
import CleancacheRdma.Lib.Tokens

/-!
# Where every connection is

A connection goes through one chain of stages, from the driver's queue over the
network and the daemon's events to its end, and every step takes at most one
connection one stage further. The messages, the events and the records of both
ends are what the stages say they are.
-/

namespace CleancacheRdma.Driver

open Daemon (HashFuncs Server ServerStep CmId CmEvent CmEventType MmInfo ConnConfig Phase
  RdmaQueue Listener numQps numDataQps serverSystem)
open Lib (System Tokens)

/-! ## Stages -/

/-- What a connection waits for. `requested`, `accepted`, `confirming` and
`closing` are those with a message on the way, `pending`, `confirmed` and
`closed` those with an event that the daemon has not read. -/
inductive LinkStage where
  | idle
  | resolvingAddr
  | resolvingRoute
  | requested
  | pending
  | accepted
  | confirming
  | confirmed
  | connected
  | closing
  | closed
  | gone
deriving DecidableEq

namespace LinkStage

def rank : LinkStage → ℕ
  | idle => 0
  | resolvingAddr => 1
  | resolvingRoute => 2
  | requested => 3
  | pending => 4
  | accepted => 5
  | confirming => 6
  | confirmed => 7
  | connected => 8
  | closing => 9
  | closed => 10
  | gone => 11

def cmStage : LinkStage → CmStage
  | idle => .idle
  | resolvingAddr => .resolvingAddr
  | resolvingRoute => .resolvingRoute
  | requested | pending | accepted => .connecting
  | confirming | confirmed | connected => .established
  | closing | closed | gone => .disconnected

def msg (id : CmId) : LinkStage → Option CmMsg
  | requested => some (.req id)
  | accepted => some (.rep id)
  | confirming => some (.rtu id)
  | closing => some (.dreq id)
  | _ => none

def cmEvent (id : CmId) : LinkStage → Option CmEvent
  | pending => some ⟨id, .connectRequest⟩
  | confirmed => some ⟨id, .established⟩
  | closed => some ⟨id, .disconnected⟩
  | _ => none

/-- The daemon's record of the queue. -/
def queue (id : CmId) : LinkStage → RdmaQueue
  | idle | resolvingAddr | resolvingRoute | requested | pending => {}
  | accepted | confirming | confirmed => { id := id.queue, cmId := some id }
  | connected | closing | closed => { id := id.queue, cmId := some id, state := .connected }
  | gone => { id := id.queue }

variable {st st' : LinkStage} {id : CmId}

theorem eq_of_rank (h : st.rank = st'.rank) : st = st' := by
  cases st <;> cases st' <;> first | rfl | cases h

/-- A message tells the stage of its connection. -/
theorem eq_of_msg {m : CmMsg} (h : st.msg id = some m) (h' : st'.msg id = some m) : st = st' := by
  cases st <;> cases h <;> cases st' <;> cases h' <;> rfl

theorem eq_of_cmEvent {e : CmEvent} (h : st.cmEvent id = some e) (h' : st'.cmEvent id = some e) :
    st = st' := by
  cases st <;> cases h <;> cases st' <;> cases h' <;> rfl

theorem eq_of_cmStage (h : st.cmStage = st'.cmStage) (hlow : st'.rank < 3) : st = st' := by
  cases st' <;> first | (cases st <;> cases h <;> rfl) | exact absurd hlow (by decide)

/-- The daemon does not see the difference. -/
structure Same (st st' : LinkStage) : Prop where
  accepted : 5 ≤ st.rank ↔ 5 ≤ st'.rank
  connected : 8 ≤ st.rank ↔ 8 ≤ st'.rank
  gone : st = .gone ↔ st' = .gone

instance (st st' : LinkStage) : Decidable (st.Same st') :=
  decidable_of_iff ((5 ≤ st.rank ↔ 5 ≤ st'.rank) ∧ (8 ≤ st.rank ↔ 8 ≤ st'.rank) ∧
    (st = .gone ↔ st' = .gone))
    ⟨fun h => ⟨h.1, h.2.1, h.2.2⟩, fun h => ⟨h.accepted, h.connected, h.gone⟩⟩

theorem Same.refl (st : LinkStage) : st.Same st := ⟨Iff.rfl, Iff.rfl, Iff.rfl⟩

theorem Same.queue_eq (h : st.Same st') (id : CmId) : st.queue id = st'.queue id := by
  have htable : ∀ st st' : LinkStage, st.Same st' → st.queue id = st'.queue id := by
    intro st st'
    cases st <;> cases st' <;> first | exact fun _ => rfl | exact fun h => absurd h (by decide)
  exact htable st st' h

end LinkStage

/-- One connection comes one stage further. -/
def Advances (links links' : CmId → LinkStage) : Prop :=
  ∃ id st, links' = Function.update links id st ∧ st.rank = (links id).rank + 1

def CmMsg.id : CmMsg → CmId
  | .req id | .rep id | .rtu id | .dreq id => id

def netTokens : Tokens CmId LinkStage CmMsg where
  mark id st := st.msg id
  owner := CmMsg.id
  owner_mark id st m h := by
    cases st <;> cases h <;> rfl

def ecTokens : Tokens CmId LinkStage CmEvent where
  mark id st := st.cmEvent id
  owner := CmEvent.id
  owner_mark id st m h := by
    cases st <;> cases h <;> rfl

/-! ## The driver -/

namespace DriverPhase

/-- The stages that the connection of queue `k` may have. -/
def Allows : DriverPhase → ℕ → LinkStage → Prop
  | .unloaded, _, st => st = .idle
  | .initQueue idx, k, st => if k < idx then 6 ≤ st.rank ∧ st.rank ≤ 8 else st = .idle
  | .waitForCm idx, k, st =>
      if k < idx then 6 ≤ st.rank ∧ st.rank ≤ 8
      else if k = idx then 1 ≤ st.rank ∧ st.rank ≤ 8
      else st = .idle
  | .initFailed _ _, _, _ => False
  | .recvRemotemr, k, st | .sendLocalmr, k, st | .ready, k, st =>
      if k < numQps then 6 ≤ st.rank ∧ st.rank ≤ 8 else st = .idle
  | .stopQueue idx, k, st =>
      if k < idx then 9 ≤ st.rank else if k < numQps then st = .connected else st = .idle
  | .exited, k, st => if k < numQps then 9 ≤ st.rank else st = .idle

/-- The index of the queue at work, if there is one, exists. -/
def InRange : DriverPhase → Prop
  | .initQueue idx | .waitForCm idx | .stopQueue idx => idx < numQps
  | _ => True

/-- `dcc_rdma_recv_remotemr` has returned. -/
def Informed : DriverPhase → Prop
  | .sendLocalmr | .ready | .stopQueue _ | .exited => True
  | _ => False

instance : DecidablePred Informed
  | .unloaded | .initQueue _ | .waitForCm _ | .initFailed _ _ | .recvRemotemr => isFalse not_false
  | .sendLocalmr | .ready | .stopQueue _ | .exited => isTrue trivial

/-- `dcc_rdma_stopandfree_queues` was called. -/
def Stopped : DriverPhase → Prop
  | .stopQueue _ | .exited => True
  | _ => False

/-- `dcc_rdma_send_localmr` has returned. -/
def Announced : DriverPhase → Prop
  | .ready | .stopQueue _ | .exited => True
  | _ => False

instance : DecidablePred Announced
  | .unloaded | .initQueue _ | .waitForCm _ | .initFailed _ _ | .recvRemotemr | .sendLocalmr =>
      isFalse not_false
  | .ready | .stopQueue _ | .exited => isTrue trivial

end DriverPhase

namespace DriverPhase

theorem nextQueue_or (idx : ℕ) : (idx + 1 < numQps ∧ nextQueue idx = .initQueue (idx + 1)) ∨
    (numQps ≤ idx + 1 ∧ nextQueue idx = .recvRemotemr) := by
  unfold nextQueue
  by_cases h : idx + 1 < numQps
  · exact Or.inl ⟨h, if_pos h⟩
  · exact Or.inr ⟨Nat.not_lt.mp h, if_neg h⟩

theorem nextQueue_quiet (idx : ℕ) : ¬ (nextQueue idx).Informed ∧ ¬ (nextQueue idx).Announced ∧
    ¬ (nextQueue idx).Stopped ∧ nextQueue idx ≠ .unloaded := by
  rcases nextQueue_or idx with ⟨-, h⟩ | ⟨-, h⟩
  · rw [h]
    exact ⟨not_false, not_false, not_false, by simp⟩
  · rw [h]
    exact ⟨not_false, not_false, not_false, by simp⟩

theorem nextStop_or (idx : ℕ) : (idx + 1 < numQps ∧ nextStop idx = .stopQueue (idx + 1)) ∨
    (numQps ≤ idx + 1 ∧ nextStop idx = .exited) := by
  unfold nextStop
  by_cases h : idx + 1 < numQps
  · exact Or.inl ⟨h, if_pos h⟩
  · exact Or.inr ⟨Nat.not_lt.mp h, if_neg h⟩

theorem nextStop_stopped (idx : ℕ) : (nextStop idx).Informed ∧ (nextStop idx).Announced ∧
    (nextStop idx).Stopped ∧ nextStop idx ≠ .unloaded := by
  rcases nextStop_or idx with ⟨-, h⟩ | ⟨-, h⟩
  · rw [h]
    exact ⟨trivial, trivial, trivial, by simp⟩
  · rw [h]
    exact ⟨trivial, trivial, trivial, by simp⟩

end DriverPhase

structure DriverInv (links : CmId → LinkStage) (d : ℕ) (ctrl : DriverCtrl) : Prop where
  allows : ∀ k, ctrl.phase.Allows k (links ⟨d, k⟩)
  inRange : ctrl.phase.InRange
  stage : ∀ k, (ctrl.queues k).stage = (links ⟨d, k⟩).cmStage
  done : ∀ idx, ctrl.phase = .waitForCm idx →
    ((ctrl.queues idx).cmDone = true ↔ 6 ≤ (links ⟨d, idx⟩).rank) ∧
      ((ctrl.queues idx).cmError = 0 ↔ 6 ≤ (links ⟨d, idx⟩).rank)

/-! ## The daemon -/

/-- The connection of queue `k` of client `c`. -/
def linkAt (links : CmId → LinkStage) (joined : List ℕ) (c k : ℕ) : LinkStage :=
  match joined[c]? with
  | some d => links ⟨d, k⟩
  | none => .idle

/-- A queue is the one of the client in whose place its driver was loaded. -/
structure RecordInv {Page : Type} (cfg : ConnConfig) (links : CmId → LinkStage) (joined : List ℕ)
    (l : Listener Page) : Prop where
  queues : ∀ c k, (l.clients c).queues k =
    (linkAt links joined c k).queue ⟨joined.getD c 0, k⟩
  context : ∀ c d, joined[c]? = some d → ∀ k,
    l.context ⟨d, k⟩ = if 5 ≤ (links ⟨d, k⟩).rank then some (c, k) else none
  stranger : ∀ d, d ∉ joined → ∀ k, l.context ⟨d, k⟩ = none
  rdev : ∀ c, (l.clients c).freed = false →
    ((l.clients c).rdev = true ↔ 5 ≤ (linkAt links joined c 0).rank)
  filterMM : ∀ c, (l.clients c).filterMM =
    if 5 ≤ (linkAt links joined c 0).rank then some c else none
  handlers : ∀ c k, l.handlers.count (c, k) =
    if 5 ≤ (linkAt links joined c k).rank ∧ ¬ (k < numDataQps ∧ cfg.pollerType = .globalQp) then 1
    else 0

/-- `run_rdma` waits for client `c`, of which `i` queues are connected. -/
structure Connecting {Page : Type} (cfg : ConnConfig) (links : CmId → LinkStage) (joined : List ℕ)
    (l : Listener Page) (c i : ℕ) : Prop where
  ctr : l.clientCtr = c
  client : c < cfg.numClients
  joined_ge : c ≤ joined.length
  joined_le : joined.length ≤ c + 1
  before : ∀ c' < c, ∀ k < numQps, 8 ≤ (linkAt links joined c' k).rank
  waiting : i = (List.range numQps).countP fun k => 8 ≤ (linkAt links joined c k).rank
  counted : ∀ k < numQps, k < l.queueCtr ↔ 5 ≤ (linkAt links joined c k).rank
  queueCtr : l.queueCtr ≤ numQps
  ids : ∀ c' ≤ c, (l.clients c').id = c'
  freed : ∀ c', (l.clients c').freed = false

/-- `exit_rdma` waits for the end of client `c`, of which `i` queues are gone. -/
structure Leaving {Page : Type} (cfg : ConnConfig) (links : CmId → LinkStage) (joined : List ℕ)
    (l : Listener Page) (c i : ℕ) : Prop where
  ctr : l.clientCtr = joined.length
  all : joined.length = cfg.numClients
  client : c < joined.length
  before : ∀ c' < c, ∀ k < numQps, linkAt links joined c' k = .gone
  after : ∀ c', c ≤ c' → c' < joined.length → ∀ k < numQps, 8 ≤ (linkAt links joined c' k).rank
  waiting : i = (List.range numQps).countP fun k => linkAt links joined c k = .gone
  freed : ∀ c', (l.clients c').freed = decide (c' < c)

structure Finished {Page : Type} (cfg : ConnConfig) (links : CmId → LinkStage) (joined : List ℕ)
    (l : Listener Page) : Prop where
  ctr : l.clientCtr = joined.length
  all : joined.length = cfg.numClients
  gone : ∀ c < joined.length, ∀ k < numQps, linkAt links joined c k = .gone

def PhaseInv {Page : Type} (cfg : ConnConfig) (links : CmId → LinkStage) (joined : List ℕ)
    (l : Listener Page) : Prop :=
  match l.phase with
  | .connecting c i => Connecting cfg links joined l c i
  | .leaving c i => Leaving cfg links joined l c i
  | .done => Finished cfg links joined l

/-- The main thread has let the clients up to `c` go, or waits for them to go. -/
def LeftTo (c : ℕ) : Phase → Prop
  | .connecting _ _ => False
  | .leaving c' _ => c ≤ c'
  | .done => True

/-- What `send_mr` tells client `c`. -/
def mmInfo (cfg : ConnConfig) (numHash numBits c : ℕ) : MmInfo where
  baseaddr := cfg.metaAddr c
  key := cfg.metaKey c
  len := BitVec.ofNat 32 (Daemon.metadataMrSize / Daemon.PAGE_SIZE)
  cliId := BitVec.ofNat 32 c
  numHash := BitVec.ofNat 32 numHash
  numBits := BitVec.ofNat 32 numBits
  numRmemPages := BitVec.ofNat 32 (cfg.memPoolSize / Daemon.PAGE_SIZE)

/-- The sends of `send_mr` that have not arrived, and those that have. -/
structure MrInv {Page : Type} (info : ℕ → MmInfo) (links : CmId → LinkStage) (s : ConnState Page) :
    Prop where
  mem : ∀ m, m ∈ s.mrs ↔ ∃ c d, s.joined[c]? = some d ∧ 8 ≤ (links ⟨d, 0⟩).rank ∧
    ¬ (s.drivers d).phase.Informed ∧ m = (⟨d, 0⟩, info c)
  nodup : s.mrs.Nodup
  told : ∀ d, (s.drivers d).phase.Informed → 8 ≤ (links ⟨d, 0⟩).rank
  informed : ∀ c d, s.joined[c]? = some d →
    (s.drivers d).svrMmInfo = if (s.drivers d).phase.Informed then some (info c) else none
  unloaded : ∀ d, d ∉ s.joined → (s.drivers d).svrMmInfo = none
  before : ∀ c d, s.joined[c]? = some d → c < s.listener.clientCtr → (s.drivers d).phase.Informed

/-- The daemon is where steps of its own bring it from `s₀`. -/
structure Runs {Page : Type} (hash : HashFuncs) (exclusivePolicy : Bool) (numClients : ℕ)
    (numHash numBits : ℕ) (s₀ s : Server Page) : Prop where
  run : ∃ as, (serverSystem hash exclusivePolicy s₀).Meets Server.WellFormed s₀ as ∧
    (serverSystem hash exclusivePolicy s₀).exec s₀ as = some s
  inv : s.Inv hash
  numClients : s.kv.pool.numClients = numClients
  shaped : Daemon.KV.Shaped numHash numBits s.kv

theorem Runs.step {Page : Type} {hash : HashFuncs} {exclusivePolicy : Bool}
    {numClients numHash numBits : ℕ} {s₀ s s' : Server Page}
    (h : Runs hash exclusivePolicy numClients numHash numBits s₀ s) {a : ServerStep Page}
    (hwf : s.WellFormed a) {r : Option (Daemon.Reply Page)}
    (hstep : s.step hash exclusivePolicy a = some (s', r)) :
    Runs hash exclusivePolicy numClients numHash numBits s₀ s' := by
  obtain ⟨as, hmeets, hexec⟩ := h.run
  have hfollows := h.inv.step hwf hstep
  have hone : (serverSystem hash exclusivePolicy s₀).step s a = some s' := by
    show (s.step hash exclusivePolicy a).map Prod.fst = some s'
    rw [hstep]
    rfl
  obtain ⟨hmeets', hexec'⟩ := System.trace_append ⟨hmeets, hexec⟩
    (System.trace_cons hwf hone (System.trace_nil s'))
  exact ⟨⟨as ++ [a], hmeets', hexec'⟩, hfollows.inv, hfollows.numClients.trans h.numClients,
    Server.step_shaped h.shaped hstep⟩

/-- The daemon runs as it does without connections, and the region that a driver
announces comes to the receive of `recv_mr`. -/
structure ServerInv {Page : Type} (hash : HashFuncs) (exclusivePolicy : Bool) (cfg : ConnConfig)
    (filterAddr : ℕ → BitVec 64) (numHash numBits : ℕ) (s₀ : Server Page)
    (links : CmId → LinkStage) (s : ConnState Page) : Prop where
  runs : Runs hash exclusivePolicy cfg.numClients numHash numBits s₀ s.listener.server
  unposted : ∀ c, (linkAt links s.joined c 0).rank < 8 → s.listener.server.recvs (c, 0) = []
  posted : ∀ c d, s.joined[c]? = some d → 8 ≤ (links ⟨d, 0⟩).rank →
    ¬ (s.drivers d).phase.Announced → (s.listener.server.recvs (c, 0)).head? = some Daemon.NONE
  clientMR : ∀ c d, s.joined[c]? = some d → (s.drivers d).phase.Announced →
    s.listener.server.clientMR c = filterAddr d

structure ConnInv {Page : Type} (hash : HashFuncs) (exclusivePolicy : Bool) (cfg : ConnConfig)
    (filterAddr : ℕ → BitVec 64) (numHash numBits : ℕ) (s₀ : Server Page)
    (links : CmId → LinkStage) (s : ConnState Page) : Prop where
  net : netTokens.Holds links s.net
  ec : ecTokens.Holds links s.ec
  drivers : ∀ d, DriverInv links d (s.drivers d)
  nodup : s.joined.Nodup
  joined : ∀ d, d ∈ s.joined ↔ (s.drivers d).phase ≠ .unloaded
  records : RecordInv cfg links s.joined s.listener
  phase : PhaseInv cfg links s.joined s.listener
  stopped : ∀ c d, s.joined[c]? = some d → (s.drivers d).phase.Stopped →
    LeftTo c s.listener.phase
  mr : MrInv (mmInfo cfg numHash numBits) links s
  server : ServerInv hash exclusivePolicy cfg filterAddr numHash numBits s₀ links s

/-! ## Connections that the daemon sees no change of -/

section Same

variable {Page : Type} {cfg : ConnConfig} {links links' : CmId → LinkStage} {joined : List ℕ}
  {l : Listener Page}

theorem linkAt_of (links : CmId → LinkStage) {c d : ℕ} (hd : joined[c]? = some d) (k : ℕ) :
    linkAt links joined c k = links ⟨d, k⟩ := by
  unfold linkAt
  rw [hd]

theorem linkAt_none (links : CmId → LinkStage) {c : ℕ} (h : joined.length ≤ c) (k : ℕ) :
    linkAt links joined c k = .idle := by
  unfold linkAt
  rw [List.getElem?_eq_none h]

theorem index_unique {joined : List ℕ} (hnodup : joined.Nodup) {c c' d : ℕ}
    (hc : joined[c]? = some d) (hc' : joined[c']? = some d) : c = c' := by
  obtain ⟨hlt, hget⟩ := List.getElem?_eq_some_iff.mp hc
  obtain ⟨hlt', hget'⟩ := List.getElem?_eq_some_iff.mp hc'
  exact hnodup.getElem_inj_iff.mp (hget.trans hget'.symm)

theorem linkAt_update (links : CmId → LinkStage) (hnodup : joined.Nodup) {c d : ℕ}
    (hc : joined[c]? = some d) (k : ℕ) (st : LinkStage) (c' k' : ℕ) :
    linkAt (Function.update links ⟨d, k⟩ st) joined c' k' =
      if c' = c ∧ k' = k then st else linkAt links joined c' k' := by
  unfold linkAt
  cases hc' : joined[c']? with
  | none =>
      have hne : ¬ (c' = c ∧ k' = k) := by
        rintro ⟨rfl, -⟩
        rw [hc] at hc'
        cases hc'
      rw [if_neg hne]
  | some d' =>
      dsimp only
      by_cases heq : c' = c ∧ k' = k
      · obtain ⟨rfl, rfl⟩ := heq
        cases hc.symm.trans hc'
        rw [Function.update_self, if_pos ⟨rfl, rfl⟩]
      · rw [if_neg heq, Function.update_of_ne]
        intro hid
        obtain ⟨rfl, rfl⟩ := CmId.mk.inj hid
        exact heq ⟨index_unique hnodup hc' hc, rfl⟩

theorem update_same {id : CmId} {st : LinkStage} (h : st.Same (links id)) (id' : CmId) :
    (Function.update links id st id').Same (links id') := by
  by_cases hid : id' = id
  · subst hid
    rw [Function.update_self]
    exact h
  · rw [Function.update_of_ne hid]
    exact .refl _

theorem linkAt_same (h : ∀ id, (links' id).Same (links id)) (c k : ℕ) :
    (linkAt links' joined c k).Same (linkAt links joined c k) := by
  unfold linkAt
  split
  · exact h _
  · exact .refl _

theorem RecordInv.same (hr : RecordInv cfg links joined l)
    (h : ∀ id, (links' id).Same (links id)) : RecordInv cfg links' joined l where
  queues c k := by
    rw [hr.queues, (linkAt_same h c k).queue_eq]
  context c d hd k := by
    rw [hr.context c d hd, if_congr (h _).accepted rfl rfl]
  stranger := hr.stranger
  rdev c hc := (hr.rdev c hc).trans (linkAt_same h c 0).accepted.symm
  filterMM c := by
    rw [hr.filterMM, if_congr (linkAt_same h c 0).accepted rfl rfl]
  handlers c k := by
    rw [hr.handlers, if_congr (and_congr_left' (linkAt_same h c k).accepted) rfl rfl]

theorem Connecting.same {c i : ℕ} (hp : Connecting cfg links joined l c i)
    (h : ∀ id, (links' id).Same (links id)) : Connecting cfg links' joined l c i where
  ctr := hp.ctr
  client := hp.client
  joined_ge := hp.joined_ge
  joined_le := hp.joined_le
  before c' hc' k hk := (linkAt_same h c' k).connected.mpr (hp.before c' hc' k hk)
  waiting := by
    refine hp.waiting.trans (List.countP_congr fun k _ => ?_)
    rw [decide_eq_true_iff, decide_eq_true_iff]
    exact (linkAt_same h c k).connected.symm
  counted k hk := (hp.counted k hk).trans (linkAt_same h c k).accepted.symm
  queueCtr := hp.queueCtr
  ids := hp.ids
  freed := hp.freed

theorem Leaving.same {c i : ℕ} (hp : Leaving cfg links joined l c i)
    (h : ∀ id, (links' id).Same (links id)) : Leaving cfg links' joined l c i where
  ctr := hp.ctr
  all := hp.all
  client := hp.client
  before c' hc' k hk := (linkAt_same h c' k).gone.mpr (hp.before c' hc' k hk)
  after c' hc hc' k hk := (linkAt_same h c' k).connected.mpr (hp.after c' hc hc' k hk)
  waiting := by
    refine hp.waiting.trans (List.countP_congr fun k _ => ?_)
    rw [decide_eq_true_iff, decide_eq_true_iff]
    exact (linkAt_same h c k).gone.symm
  freed := hp.freed

theorem PhaseInv.same (hp : PhaseInv cfg links joined l)
    (h : ∀ id, (links' id).Same (links id)) : PhaseInv cfg links' joined l := by
  unfold PhaseInv at hp ⊢
  split
  next c i hphase =>
    rw [hphase] at hp
    exact Connecting.same hp h
  next c i hphase =>
    rw [hphase] at hp
    exact Leaving.same hp h
  next hphase =>
    rw [hphase] at hp
    exact ⟨hp.ctr, hp.all, fun c hc k hk => (linkAt_same h c k).gone.mpr (hp.gone c hc k hk)⟩

theorem linkAt_connected {k : ℕ}
    (h : ∀ d, 8 ≤ (links' ⟨d, k⟩).rank ↔ 8 ≤ (links ⟨d, k⟩).rank) (c : ℕ) :
    8 ≤ (linkAt links' joined c k).rank ↔ 8 ≤ (linkAt links joined c k).rank := by
  unfold linkAt
  split
  · exact h _
  · exact Iff.rfl

/-- The daemon's record of one queue follows its connection. -/
theorem RecordInv.setQueue (hr : RecordInv cfg links joined l) (hnodup : joined.Nodup) {c d k : ℕ}
    (hc : joined[c]? = some d) {st : LinkStage} (hold : 5 ≤ (links ⟨d, k⟩).rank)
    (hnew : 5 ≤ st.rank) {l' : Listener Page}
    (hclients : l'.clients = (l.setQueue c k (st.queue ⟨d, k⟩)).clients)
    (hcontext : l'.context = l.context) (hhandlers : l'.handlers = l.handlers) :
    RecordInv cfg (Function.update links ⟨d, k⟩ st) joined l' := by
  have hself : l'.clients c = { l.clients c with
      queues := Function.update (l.clients c).queues k (st.queue ⟨d, k⟩) } := by
    rw [hclients]
    exact Function.update_self _ _ _
  have hother : ∀ c' ≠ c, l'.clients c' = l.clients c' := by
    intro c' hc'
    rw [hclients]
    exact Function.update_of_ne hc' _ _
  have hlinks : ∀ id, 5 ≤ (Function.update links ⟨d, k⟩ st id).rank ↔ 5 ≤ (links id).rank := by
    intro id
    by_cases hid : id = ⟨d, k⟩
    · subst hid
      rw [Function.update_self]
      exact iff_of_true hnew hold
    · rw [Function.update_of_ne hid]
  have hat : ∀ c' k', 5 ≤ (linkAt (Function.update links ⟨d, k⟩ st) joined c' k').rank ↔
      5 ≤ (linkAt links joined c' k').rank := by
    intro c' k'
    unfold linkAt
    split
    · exact hlinks _
    · exact Iff.rfl
  refine
    { queues := fun c' k' => ?_
      context := fun c' e he k' => by
        rw [hcontext, hr.context c' e he k', if_congr (hlinks _) rfl rfl]
      stranger := fun e he k' => by rw [hcontext, hr.stranger e he k']
      rdev := fun c' hf => ?_
      filterMM := fun c' => ?_
      handlers := fun c' k' => by
        rw [hhandlers, hr.handlers c' k', if_congr (and_congr_left' (hat c' k')) rfl rfl] }
  · rw [linkAt_update links hnodup hc]
    by_cases hcase : c' = c ∧ k' = k
    · obtain ⟨rfl, rfl⟩ := hcase
      rw [if_pos ⟨rfl, rfl⟩, hself, List.getD_eq_getElem?_getD, hc]
      exact Function.update_self _ _ _
    · rw [if_neg hcase, ← hr.queues c' k']
      by_cases hc' : c' = c
      · subst hc'
        rw [hself]
        exact Function.update_of_ne (fun hk' => hcase ⟨rfl, hk'⟩) _ _
      · rw [hother c' hc']
  · rw [hat]
    by_cases hc' : c' = c
    · subst hc'
      rw [hself] at hf ⊢
      exact hr.rdev c' hf
    · rw [hother c' hc'] at hf ⊢
      exact hr.rdev c' hf
  · rw [if_congr (hat c' 0) rfl rfl, ← hr.filterMM c']
    by_cases hc' : c' = c
    · subst hc'
      rw [hself]
    · rw [hother c' hc']

theorem MrInv.same {info : ℕ → MmInfo} {s s' : ConnState Page} (hm : MrInv info links s)
    (h : ∀ d, 8 ≤ (links' ⟨d, 0⟩).rank ↔ 8 ≤ (links ⟨d, 0⟩).rank) (hjoined : s'.joined = s.joined)
    (hctr : s'.listener.clientCtr = s.listener.clientCtr) (hmrs : s'.mrs = s.mrs)
    (hinformed : ∀ d, (s'.drivers d).phase.Informed ↔ (s.drivers d).phase.Informed)
    (hsvr : ∀ d, (s'.drivers d).svrMmInfo = (s.drivers d).svrMmInfo) : MrInv info links' s' where
  mem m := by
    rw [hmrs, hm.mem, hjoined]
    simp only [hinformed, h]
  nodup := hmrs ▸ hm.nodup
  told d hd := (h _).mpr (hm.told d ((hinformed d).mp hd))
  informed c d hd := by
    rw [hsvr, hm.informed c d (hjoined ▸ hd), if_congr (hinformed d) rfl rfl]
  unloaded d hd := by
    rw [hsvr, hm.unloaded d (hjoined ▸ hd)]
  before c d hd hc := (hinformed d).mpr (hm.before c d (hjoined ▸ hd) (hctr ▸ hc))

theorem ServerInv.same {hash : HashFuncs} {exclusivePolicy : Bool} {filterAddr : ℕ → BitVec 64}
    {numHash numBits : ℕ} {s₀ : Server Page} {s s' : ConnState Page}
    (hs : ServerInv hash exclusivePolicy cfg filterAddr numHash numBits s₀ links s)
    (h : ∀ d, 8 ≤ (links' ⟨d, 0⟩).rank ↔ 8 ≤ (links ⟨d, 0⟩).rank) (hjoined : s'.joined = s.joined)
    (hserver : s'.listener.server = s.listener.server)
    (hannounced : ∀ d, (s'.drivers d).phase.Announced ↔ (s.drivers d).phase.Announced) :
    ServerInv hash exclusivePolicy cfg filterAddr numHash numBits s₀ links' s' where
  runs := hserver ▸ hs.runs
  unposted c hc := by
    rw [hserver]
    refine hs.unposted c ?_
    rw [hjoined, ← Nat.not_le, linkAt_connected h c, Nat.not_le] at hc
    exact hc
  posted c d hd hlink hann := by
    rw [hserver]
    exact hs.posted c d (hjoined ▸ hd) ((h _).mp hlink) fun ha => hann ((hannounced d).mpr ha)
  clientMR c d hd hann := by
    rw [hserver]
    exact hs.clientMR c d (hjoined ▸ hd) ((hannounced d).mp hann)

end Same

/-! ## Drivers -/

section Drivers

variable {links links' : CmId → LinkStage} {d k : ℕ} {ctrl : DriverCtrl} {st st' : LinkStage}

theorem LinkStage.rank_of_cmStage (h : st'.cmStage = st.cmStage) :
    (6 ≤ st'.rank ↔ 6 ≤ st.rank) ∧ (9 ≤ st'.rank ↔ 9 ≤ st.rank) ∧
      (1 ≤ st'.rank ↔ 1 ≤ st.rank) := by
  have htable : ∀ st' st : LinkStage, st'.cmStage = st.cmStage →
      (6 ≤ st'.rank ↔ 6 ≤ st.rank) ∧ (9 ≤ st'.rank ↔ 9 ≤ st.rank) ∧
        (1 ≤ st'.rank ↔ 1 ≤ st.rank) := by
    intro st' st
    cases st' <;> cases st <;> decide
  exact htable st' st h

theorem LinkStage.eq_idle_iff : st = .idle ↔ ¬ 1 ≤ st.rank := by
  cases st <;> decide

/-- What happens to a connection beyond the driver is nothing to the driver. -/
theorem DriverPhase.Allows.congr {phase : DriverPhase} (h : phase.Allows k st)
    (hstage : st'.cmStage = st.cmStage) (hne : st ≠ .connected) : phase.Allows k st' := by
  obtain ⟨hsix, hnine, hone⟩ := LinkStage.rank_of_cmStage hstage
  have hidle : st' = .idle ↔ st = .idle := by
    rw [LinkStage.eq_idle_iff, LinkStage.eq_idle_iff, hone]
  cases phase with
  | unloaded => exact hidle.mpr h
  | initFailed _ _ => exact h
  | initQueue idx =>
      simp only [DriverPhase.Allows] at h ⊢
      split_ifs at h ⊢
      · omega
      · exact hidle.mpr h
  | waitForCm idx =>
      simp only [DriverPhase.Allows] at h ⊢
      split_ifs at h ⊢
      · omega
      · omega
      · exact hidle.mpr h
  | recvRemotemr | sendLocalmr | ready =>
      simp only [DriverPhase.Allows] at h ⊢
      split_ifs at h ⊢
      · omega
      · exact hidle.mpr h
  | stopQueue idx =>
      simp only [DriverPhase.Allows] at h ⊢
      split_ifs at h ⊢
      · omega
      · exact absurd h hne
      · exact hidle.mpr h
  | exited =>
      simp only [DriverPhase.Allows] at h ⊢
      split_ifs at h ⊢
      · omega
      · exact hidle.mpr h

theorem DriverInv.not_failed (h : DriverInv links d ctrl) (idx tried : ℕ) :
    ctrl.phase ≠ .initFailed idx tried := by
  intro hphase
  have hallows := h.allows 0
  rw [hphase] at hallows
  exact hallows

/-- Nothing of a driver is in a queue beyond the last. -/
theorem DriverInv.lt_numQps (h : DriverInv links d ctrl) (hne : links ⟨d, k⟩ ≠ .idle) :
    k < numQps := by
  have hallows := h.allows k
  have hrange := h.inRange
  by_contra hk
  cases hphase : ctrl.phase with
  | unloaded =>
      rw [hphase] at hallows
      exact hne hallows
  | initFailed idx tried => exact h.not_failed idx tried hphase
  | initQueue idx | waitForCm idx | stopQueue idx =>
      rw [hphase] at hallows hrange
      simp only [DriverPhase.InRange] at hrange
      simp only [DriverPhase.Allows] at hallows
      split_ifs at hallows
      all_goals first | omega | exact hne hallows
  | recvRemotemr | sendLocalmr | ready | exited =>
      rw [hphase] at hallows
      simp only [DriverPhase.Allows] at hallows
      rw [if_neg hk] at hallows
      exact hne hallows

theorem DriverInv.rank_le (h : DriverInv links d ctrl) (hup : ¬ ctrl.phase.Stopped) (k : ℕ) :
    (links ⟨d, k⟩).rank ≤ 8 := by
  have hallows := h.allows k
  have hidle : links ⟨d, k⟩ = .idle → (links ⟨d, k⟩).rank ≤ 8 := by
    intro hidle
    rw [hidle]
    decide
  cases hphase : ctrl.phase with
  | stopQueue idx | exited =>
      rw [hphase] at hup
      exact absurd trivial hup
  | unloaded =>
      rw [hphase] at hallows
      exact hidle hallows
  | initFailed idx tried => exact absurd hphase (h.not_failed idx tried)
  | initQueue idx | waitForCm idx =>
      rw [hphase] at hallows
      simp only [DriverPhase.Allows] at hallows
      split_ifs at hallows
      all_goals first | exact hallows.2 | exact hidle hallows
  | recvRemotemr | sendLocalmr | ready =>
      rw [hphase] at hallows
      simp only [DriverPhase.Allows] at hallows
      split_ifs at hallows
      · exact hallows.2
      · exact hidle hallows

theorem DriverInv.of_eq (h : DriverInv links d ctrl) (heq : ∀ k, links' ⟨d, k⟩ = links ⟨d, k⟩) :
    DriverInv links' d ctrl where
  allows k := by
    rw [heq]
    exact h.allows k
  inRange := h.inRange
  stage k := by
    rw [heq]
    exact h.stage k
  done idx hphase := by
    rw [heq]
    exact h.done idx hphase

theorem DriverInv.of_ne (h : DriverInv links d ctrl) {id : CmId} (hid : id.driver ≠ d) :
    DriverInv (Function.update links id st) d ctrl :=
  h.of_eq fun _ => Function.update_of_ne (fun he => hid (congrArg CmId.driver he).symm) _ _

theorem DriverInv.advance (h : DriverInv links d ctrl)
    (hstage : st.cmStage = (links ⟨d, k⟩).cmStage) (hne : links ⟨d, k⟩ ≠ .connected) :
    DriverInv (Function.update links ⟨d, k⟩ st) d ctrl := by
  have hlink : ∀ j, (Function.update links ⟨d, k⟩ st ⟨d, j⟩).cmStage = (links ⟨d, j⟩).cmStage := by
    intro j
    by_cases hj : j = k
    · subst hj
      rw [Function.update_self]
      exact hstage
    · rw [Function.update_of_ne fun he => hj (congrArg CmId.queue he)]
  refine ⟨fun j => ?_, h.inRange, fun j => ?_, fun idx hphase => ?_⟩
  · by_cases hj : j = k
    · subst hj
      rw [Function.update_self]
      exact (h.allows j).congr hstage hne
    · rw [Function.update_of_ne fun he => hj (congrArg CmId.queue he)]
      exact h.allows j
  · rw [hlink]
    exact h.stage j
  · rw [(LinkStage.rank_of_cmStage (hlink idx)).1]
    exact h.done idx hphase

/-- The driver writes queue `k`, whose connection is in stage `st` then. -/
theorem DriverInv.set (h : DriverInv links d ctrl) {phase : DriverPhase} {q : ConnQueue}
    (hk : phase.Allows k st) (hother : ∀ j, j ≠ k → phase.Allows j (links ⟨d, j⟩))
    (hrange : phase.InRange) (hstage : q.stage = st.cmStage)
    (hdone : ∀ idx, phase = .waitForCm idx → idx = k ∧ (q.cmDone = true ↔ 6 ≤ st.rank) ∧
      (q.cmError = 0 ↔ 6 ≤ st.rank)) :
    DriverInv (Function.update links ⟨d, k⟩ st) d
      { ctrl with queues := Function.update ctrl.queues k q, phase } := by
  have hlink : ∀ j, j ≠ k → Function.update links ⟨d, k⟩ st ⟨d, j⟩ = links ⟨d, j⟩ :=
    fun j hj => Function.update_of_ne (fun he => hj (congrArg CmId.queue he)) _ _
  refine ⟨fun j => ?_, hrange, fun j => ?_, fun idx hphase => ?_⟩
  · by_cases hj : j = k
    · subst hj
      rw [Function.update_self]
      exact hk
    · rw [hlink j hj]
      exact hother j hj
  · dsimp only
    by_cases hj : j = k
    · subst hj
      rw [Function.update_self, Function.update_self]
      exact hstage
    · rw [hlink j hj, Function.update_of_ne hj]
      exact h.stage j
  · obtain ⟨rfl, hd⟩ := hdone idx hphase
    dsimp only
    rw [Function.update_self, Function.update_self]
    exact hd

/-- A connection of a driver that waits for queue `idx` and has not come further than that. -/
theorem DriverInv.idx_of_lt (h : DriverInv links d ctrl) (hlow : 1 ≤ (links ⟨d, k⟩).rank)
    (hhigh : (links ⟨d, k⟩).rank < 6) : ctrl.phase = .waitForCm k := by
  have hallows := h.allows k
  have hidle : links ⟨d, k⟩ ≠ .idle := by
    intro hidle
    rw [hidle] at hlow
    exact absurd hlow (by decide)
  cases hphase : ctrl.phase with
  | unloaded =>
      rw [hphase] at hallows
      exact absurd hallows hidle
  | initFailed idx tried => exact absurd hphase (h.not_failed idx tried)
  | waitForCm idx =>
      rw [hphase] at hallows
      simp only [DriverPhase.Allows] at hallows
      split_ifs at hallows with hlt heq
      · omega
      · rw [heq]
      · exact absurd hallows hidle
  | initQueue idx =>
      rw [hphase] at hallows
      simp only [DriverPhase.Allows] at hallows
      split_ifs at hallows
      · omega
      · exact absurd hallows hidle
  | recvRemotemr | sendLocalmr | ready | exited =>
      rw [hphase] at hallows
      simp only [DriverPhase.Allows] at hallows
      split_ifs at hallows
      · omega
      · exact absurd hallows hidle
  | stopQueue idx =>
      rw [hphase] at hallows
      simp only [DriverPhase.Allows] at hallows
      split_ifs at hallows
      · omega
      · rw [hallows] at hhigh
        exact absurd hhigh (by decide)
      · exact absurd hallows hidle

end Drivers

end CleancacheRdma.Driver
