import Mathlib
import CleancacheRdma.Daemon.Ownership
import CleancacheRdma.Daemon.Receives

/-!
# Connections on the daemon

`run_rdma` takes one client after the other and `exit_rdma` lets them go in the
same order. A connection request does not say which client and which queue it
is for: `on_connect_request` counts.
-/

namespace CleancacheRdma.Daemon

/-- A connection: the driver and its queue that it was made for. The two
`rdma_cm_id`s are those of its ends. -/
structure CmId where
  driver : ℕ
  queue : ℕ
deriving DecidableEq

inductive CmEventType where
  | connectRequest
  | established
  | disconnected
  | unknown
deriving DecidableEq

/-- `struct rdma_cm_event`. -/
structure CmEvent where
  id : CmId
  event : CmEventType
deriving DecidableEq

inductive QueueState where
  | init
  | connected
deriving DecidableEq

/-- `struct rdma_queue`. -/
structure RdmaQueue where
  id : ℕ := 0
  cmId : Option CmId := none
  state : QueueState := .init
deriving DecidableEq

/-- `struct dcc_rdma_ctrl`. `filterMM` is the client whose filter `Register`
has registered, `freed` is set by the `free` of `exit_rdma`. -/
structure RdmaCtrl where
  id : ℕ := 0
  queues : ℕ → RdmaQueue := fun _ => {}
  rdev : Bool := false
  filterMM : Option ℕ := none
  freed : Bool := false

/-- `struct mm_info`. -/
structure MmInfo where
  baseaddr : BitVec 64
  key : BitVec 32
  len : BitVec 32
  cliId : BitVec 32
  numHash : BitVec 32
  numBits : BitVec 32
  numRmemPages : BitVec 32
deriving DecidableEq

inductive PollerType where
  | globalQp
  | perQp
deriving DecidableEq

/-- The configuration, and the addresses and keys that `ibv_reg_mr` gave the
metadata regions. -/
structure ConnConfig where
  numClients : ℕ
  memPoolSize : ℕ
  pollerType : PollerType
  metaAddr : ℕ → BitVec 64
  metaKey : ℕ → BitVec 32

def PAGE_SIZE : ℕ := 4096

def metadataMrSize : ℕ := numDataQps * metadataSize

/-- Where the main thread is: in `run_rdma`, waiting for the connection of
queue `i` of client `cliId`, in `exit_rdma`, waiting for its end, or through. -/
inductive Phase where
  | connecting (cliId i : ℕ)
  | leaving (cliId i : ℕ)
  | done
deriving DecidableEq

/-- What the daemon hands to its adapter. -/
inductive Outgoing where
  | accept (id : CmId)
  | sendMr (id : CmId) (info : MmInfo)

/-- The connections of the daemon; `handlers` are the threads that were
started, by the client and the queue that they serve. -/
structure Listener (Page : Type) where
  clients : ℕ → RdmaCtrl := fun _ => {}
  clientCtr : ℕ := 0
  queueCtr : ℕ := 0
  context : CmId → Option (ℕ × ℕ) := fun _ => none
  handlers : List (ℕ × ℕ) := []
  phase : Phase := .connecting 0 0
  server : Server Page

namespace Listener

variable {Page : Type} (cfg : ConnConfig) (l : Listener Page)

def setClient (cid : ℕ) (ctrl : RdmaCtrl) : Listener Page :=
  { l with clients := Function.update l.clients cid ctrl }

def setQueue (cid qid : ℕ) (q : RdmaQueue) : Listener Page :=
  l.setClient cid { l.clients cid with queues := Function.update (l.clients cid).queues qid q }

/-- A thread for the queue, unless global threads poll all data queues. -/
def createCqHandler (cid qid : ℕ) : Listener Page :=
  if qid < numDataQps ∧ cfg.pollerType = .globalQp then l
  else { l with handlers := l.handlers ++ [((l.clients cid).id, qid)] }

/-- `none` where the client or the queue is outside its array or the check of
the state fails. -/
def onConnectRequest (id : CmId) : Option (Listener Page × List Outgoing) :=
  let cid := l.clientCtr
  let qid := l.queueCtr
  let ctrl := l.clients cid
  if cid < cfg.numClients ∧ qid < numQps ∧ (ctrl.queues qid).state = .init then
    let l := { l with
      queueCtr := qid + 1
      context := Function.update l.context id (some (cid, qid)) }
    let l := l.setClient cid
      { ctrl with
        queues := Function.update ctrl.queues qid { ctrl.queues qid with id := qid, cmId := some id }
        rdev := true
        filterMM := if qid = 0 then some ctrl.id else ctrl.filterMM }
    some (l.createCqHandler cfg cid qid, [.accept id])
  else none

/-- The message of `send_mr`. -/
def serverMmInfo (cid : ℕ) : MmInfo where
  baseaddr := cfg.metaAddr cid
  key := cfg.metaKey cid
  len := BitVec.ofNat 32 (metadataMrSize / PAGE_SIZE)
  cliId := BitVec.ofNat 32 (l.clients cid).id
  numHash := BitVec.ofNat 32 (l.server.kv.cbfs 0).numHash
  numBits := BitVec.ofNat 32 (l.server.kv.cbfs 0).numBits
  numRmemPages := BitVec.ofNat 32 (cfg.memPoolSize / PAGE_SIZE)

def onConnection (id : CmId) (cid qid : ℕ) : Option (Listener Page × List Outgoing) :=
  let q := (l.clients cid).queues qid
  if q.state = .init then
    let l' := l.setQueue cid qid { q with state := .connected }
    if qid = 0 then
      some ({ l' with server := l.server.recvMr cid }, [.sendMr id (l.serverMmInfo cfg cid)])
    else some (l', [])
  else none

def onDisconnect (cid qid : ℕ) : Listener Page :=
  let q := (l.clients cid).queues qid
  if q.state = .connected then l.setQueue cid qid { q with state := .init, cmId := none } else l

/-- `none` also where the event's context is null or points into what was freed. -/
def onEvent (e : CmEvent) : Option (Listener Page × ℤ × List Outgoing) :=
  match e.event with
  | .connectRequest => (l.onConnectRequest cfg e.id).map fun r => (r.1, 0, r.2)
  | .established =>
      match l.context e.id with
      | none => none
      | some (cid, qid) =>
          if (l.clients cid).freed then none
          else (l.onConnection cfg e.id cid qid).map fun r => (r.1, 1, r.2)
  | .disconnected =>
      match l.context e.id with
      | none => none
      | some (cid, qid) =>
          if (l.clients cid).freed then none else some (l.onDisconnect cid qid, -1, [])
  | .unknown => some (l, -2, [])

/-- The main thread is in `handle_rdma_cm_event`. -/
def Listens : Prop :=
  match l.phase with
  | .connecting _ i | .leaving _ i => i < numQps
  | .done => False

instance : Decidable l.Listens := by
  unfold Listens
  cases l.phase
  · exact inferInstanceAs (Decidable (_ < _))
  · exact inferInstanceAs (Decidable (_ < _))
  · exact inferInstanceAs (Decidable False)

/-- One pass of the loop of `handle_rdma_cm_event` and, if it was the last, one
of the loop around it; `none` if an assertion fails. -/
def handleRdmaCmEvent (e : CmEvent) : Option (Listener Page × List Outgoing) :=
  (l.onEvent cfg e).bind fun r =>
    let l := r.1
    if r.2.1 = 0 then some (l, r.2.2)
    else
      match l.phase with
      | .connecting cliId i =>
          if r.2.1 < 0 then none else some ({ l with phase := .connecting cliId (i + 1) }, r.2.2)
      | .leaving cliId i =>
          if r.2.1 ≠ -1 then none else some ({ l with phase := .leaving cliId (i + 1) }, r.2.2)
      | .done => none

/-- `run_rdma` comes to client `cliId`. -/
def awaitClient (cliId : ℕ) : Listener Page :=
  if cliId < cfg.numClients then
    { l.setClient cliId { l.clients cliId with id := cliId } with
      queueCtr := 0
      phase := .connecting cliId 0 }
  else { l with phase := if 0 < l.clientCtr then .leaving 0 0 else .done }

/-- The steps of `run_rdma` once the queues of a client are connected. -/
def finishClient (cliId : ℕ) : Listener Page :=
  { l with
    clientCtr := l.clientCtr + 1
    server := (List.range numQps).foldl (fun s i => s.prePostRecvs cliId i) l.server }.awaitClient
      cfg (cliId + 1)

/-- `destroy_device` and the two `free` of `exit_rdma`; `none` if there is no
device or the client was freed before. -/
def freeClient (cliId : ℕ) : Option (Listener Page) :=
  if (l.clients cliId).rdev ∧ (l.clients cliId).freed = false then
    some { l.setClient cliId { l.clients cliId with rdev := false, freed := true } with
      phase := if cliId + 1 < l.clientCtr then .leaving (cliId + 1) 0 else .done }
  else none

/-- The daemon when `run_rdma` is called. -/
def new (server : Server Page) : Listener Page := awaitClient cfg { server } 0

/-! ## What the handlers do -/

variable {cfg l} {id : CmId} {l' : Listener Page} {cid qid : ℕ}

/-- A request is for the queue that is next in the count. -/
structure Accepts (cfg : ConnConfig) (l : Listener Page) (id : CmId) (l' : Listener Page) :
    Prop where
  clients : l'.clients = Function.update l.clients l.clientCtr
    { l.clients l.clientCtr with
      queues := Function.update (l.clients l.clientCtr).queues l.queueCtr
        { (l.clients l.clientCtr).queues l.queueCtr with id := l.queueCtr, cmId := some id }
      rdev := true
      filterMM := if l.queueCtr = 0 then some (l.clients l.clientCtr).id
        else (l.clients l.clientCtr).filterMM }
  clientCtr : l'.clientCtr = l.clientCtr
  queueCtr : l'.queueCtr = l.queueCtr + 1
  context : l'.context = Function.update l.context id (some (l.clientCtr, l.queueCtr))
  handlers : l'.handlers = l.handlers ++
    if l.queueCtr < numDataQps ∧ cfg.pollerType = .globalQp then []
    else [((l.clients l.clientCtr).id, l.queueCtr)]
  phase : l'.phase = l.phase
  server : l'.server = l.server

theorem onConnectRequest_some (cfg : ConnConfig) (l : Listener Page) (id : CmId)
    (hclient : l.clientCtr < cfg.numClients)
    (hqueue : l.queueCtr < numQps)
    (hstate : ((l.clients l.clientCtr).queues l.queueCtr).state = .init) :
    ∃ l', l.onConnectRequest cfg id = some (l', [.accept id]) ∧ Accepts cfg l id l' := by
  unfold onConnectRequest
  dsimp only
  rw [if_pos ⟨hclient, hqueue, hstate⟩]
  refine ⟨_, rfl, ?_⟩
  unfold createCqHandler
  by_cases hglobal : l.queueCtr < numDataQps ∧ cfg.pollerType = .globalQp
  · rw [if_pos hglobal]
    exact ⟨rfl, rfl, rfl, rfl, by rw [if_pos hglobal, List.append_nil]; rfl, rfl, rfl⟩
  · rw [if_neg hglobal]
    refine ⟨rfl, rfl, rfl, rfl, ?_, rfl, rfl⟩
    rw [if_neg hglobal]
    simp [setClient]

/-- Nothing of a client but its number is written when `run_rdma` comes to it. -/
theorem awaitClient_clients (cliId c : ℕ) :
    ∃ id, (l.awaitClient cfg cliId).clients c = { l.clients c with id } := by
  unfold awaitClient
  split
  · by_cases hc : c = cliId
    · subst hc
      exact ⟨c, Function.update_self _ _ _⟩
    · exact ⟨(l.clients c).id, Function.update_of_ne hc _ _⟩
  · exact ⟨(l.clients c).id, rfl⟩

theorem awaitClient_clientCtr (cliId : ℕ) :
    (l.awaitClient cfg cliId).clientCtr = l.clientCtr := by
  unfold awaitClient
  split <;> rfl

theorem awaitClient_context (cliId : ℕ) : (l.awaitClient cfg cliId).context = l.context := by
  unfold awaitClient
  split <;> rfl

theorem awaitClient_handlers (cliId : ℕ) : (l.awaitClient cfg cliId).handlers = l.handlers := by
  unfold awaitClient
  split <;> rfl

theorem awaitClient_server (cliId : ℕ) : (l.awaitClient cfg cliId).server = l.server := by
  unfold awaitClient
  split <;> rfl

theorem onEvent_connectRequest : l.onEvent cfg ⟨id, .connectRequest⟩ =
    (l.onConnectRequest cfg id).map fun r => (r.1, 0, r.2) := rfl

theorem onEvent_established (cfg : ConnConfig) (hcontext : l.context id = some (cid, qid))
    (hfreed : (l.clients cid).freed = false) : l.onEvent cfg ⟨id, .established⟩ =
      (l.onConnection cfg id cid qid).map fun r => (r.1, 1, r.2) := by
  simp only [onEvent, hcontext, hfreed, Bool.false_eq_true, if_false]

theorem onEvent_disconnected (cfg : ConnConfig) (hcontext : l.context id = some (cid, qid))
    (hfreed : (l.clients cid).freed = false) : l.onEvent cfg ⟨id, .disconnected⟩ =
      some (l.onDisconnect cid qid, -1, []) := by
  simp only [onEvent, hcontext, hfreed, Bool.false_eq_true, if_false]

theorem onConnection_zero (hstate : ((l.clients cid).queues 0).state = .init) :
    l.onConnection cfg id cid 0 = some
      ({ l.setQueue cid 0 { (l.clients cid).queues 0 with state := .connected } with
        server := l.server.recvMr cid }, [.sendMr id (l.serverMmInfo cfg cid)]) := by
  unfold onConnection
  rw [if_pos hstate, if_pos rfl]

theorem onConnection_of_ne (hstate : ((l.clients cid).queues qid).state = .init) (hqid : qid ≠ 0) :
    l.onConnection cfg id cid qid =
      some (l.setQueue cid qid { (l.clients cid).queues qid with state := .connected }, []) := by
  unfold onConnection
  rw [if_pos hstate, if_neg hqid]

theorem createCqHandler_phase (l : Listener Page) (cid qid : ℕ) :
    (l.createCqHandler cfg cid qid).phase = l.phase := by
  unfold createCqHandler
  split <;> rfl

theorem onDisconnect_phase (l : Listener Page) (cid qid : ℕ) :
    (l.onDisconnect cid qid).phase = l.phase := by
  unfold onDisconnect
  dsimp only
  split <;> rfl

/-- No handler decides where the main thread goes on. -/
theorem onEvent_phase {e : CmEvent} {r : Listener Page × ℤ × List Outgoing}
    (h : l.onEvent cfg e = some r) : r.1.phase = l.phase := by
  unfold onEvent at h
  split at h
  · obtain ⟨r', hreq, rfl⟩ := Option.map_eq_some_iff.mp h
    unfold onConnectRequest at hreq
    dsimp only at hreq
    obtain ⟨-, heq⟩ := Option.ite_none_right_eq_some.mp hreq
    cases heq
    rw [createCqHandler_phase]
    rfl
  · split at h
    · cases h
    · obtain ⟨-, hmap⟩ := Option.ite_none_left_eq_some.mp h
      obtain ⟨r', hconn, rfl⟩ := Option.map_eq_some_iff.mp hmap
      unfold onConnection at hconn
      obtain ⟨-, heq⟩ := Option.ite_none_right_eq_some.mp hconn
      split at heq
      · cases heq
        rfl
      · cases heq
        rfl
  · split at h
    · cases h
    · obtain ⟨-, heq⟩ := Option.ite_none_left_eq_some.mp h
      cases heq
      exact onDisconnect_phase l _ _
  · cases h
    rfl

/-- A queue of the client that `run_rdma` waits for is connected. -/
theorem handleRdmaCmEvent_connecting {e : CmEvent} {out : List Outgoing} {cliId i : ℕ}
    (hevent : l.onEvent cfg e = some (l', 1, out)) (hphase : l'.phase = .connecting cliId i) :
    l.handleRdmaCmEvent cfg e = some ({ l' with phase := .connecting cliId (i + 1) }, out) := by
  unfold handleRdmaCmEvent
  rw [hevent, Option.bind_some]
  dsimp only
  rw [if_neg (by decide), hphase]
  rfl

/-- A queue of the client that `exit_rdma` waits for is gone. -/
theorem handleRdmaCmEvent_leaving {e : CmEvent} {out : List Outgoing} {cliId i : ℕ}
    (hevent : l.onEvent cfg e = some (l', -1, out)) (hphase : l'.phase = .leaving cliId i) :
    l.handleRdmaCmEvent cfg e = some ({ l' with phase := .leaving cliId (i + 1) }, out) := by
  unfold handleRdmaCmEvent
  rw [hevent, Option.bind_some]
  dsimp only
  rw [if_neg (by decide), hphase]
  rfl

/-- While `run_rdma` waits for queues to come, the end of one stops it, and so does
an event that it does not know. -/
theorem handleRdmaCmEvent_stops (cfg : ConnConfig) {e : CmEvent} {cliId i : ℕ}
    (hphase : l.phase = .connecting cliId i)
    (hevent : e.event = .disconnected ∨ e.event = .unknown) :
    l.handleRdmaCmEvent cfg e = none := by
  have hneg : ∀ r, l.onEvent cfg e = some r → r.2.1 < 0 := by
    intro r hr
    unfold onEvent at hr
    rcases hevent with hevent | hevent
    · rw [hevent] at hr
      dsimp only at hr
      split at hr
      · cases hr
      · obtain ⟨-, heq⟩ := Option.ite_none_left_eq_some.mp hr
        cases heq
        exact neg_one_lt_zero
    · rw [hevent] at hr
      cases hr
      exact neg_lt_zero.mpr two_pos
  unfold handleRdmaCmEvent
  rw [Option.bind_eq_none_iff]
  intro r hr
  have hr' := onEvent_phase hr
  dsimp only
  rw [if_neg (hneg r hr).ne, hr', hphase]
  exact if_pos (hneg r hr)

end Listener

end CleancacheRdma.Daemon
