import Mathlib
import CleancacheRdma.Daemon.Connection
import CleancacheRdma.Driver.Init
import CleancacheRdma.Lib.System

/-!
# Drivers connect to the daemon

A driver connects its queues one after the other, fetches the daemon's regions
and its own number over queue 0, and announces its filter region there. The
messages of the connection manager are delivered in any order; the daemon reads
its events one by one. Several drivers may be there, and connected drivers go
on with their requests while another one connects. The connection manager may
report an error, and the wait of a driver may end before its queue is connected.
-/

namespace CleancacheRdma.Driver

open Daemon (HashFuncs Server ServerStep Draw CmId CmEvent CmEventType MmInfo ConnConfig Phase
  Outgoing Listener numQps serverSystem)
open Lib (System)

/-- How far the CM id of a queue is; one that has `failed` is told nothing more. -/
inductive CmStage where
  | idle
  | resolvingAddr
  | resolvingRoute
  | connecting
  | established
  | disconnected
  | failed
deriving DecidableEq

/-- What `struct rdma_queue` holds for the connection. -/
structure ConnQueue where
  cmError : ℤ := 0
  cmDone : Bool := false
  stage : CmStage := .idle

/-- The events of the driver's connection manager; `ret` is what
`dcc_rdma_addr_resolved` returns. -/
inductive CmHandlerEvent where
  | addrResolved (ret : ℤ)
  | routeResolved
  | established
  | rejected
  | addrError
  | routeError
  | connectError
  | unreachable
  | disconnected
  | addrChange
  | timewaitExit
  | deviceRemoval
deriving DecidableEq

/-- `dcc_rdma_cm_handler`. A rejection is printed only: nobody completes `cm_done`. -/
def ConnQueue.cmHandler (q : ConnQueue) : CmHandlerEvent → ConnQueue
  | .addrResolved ret =>
      if ret = 0 then { q with stage := .resolvingRoute }
      else { cmError := ret, cmDone := true, stage := .failed }
  | .routeResolved => { q with stage := .connecting }
  | .established => { cmError := 0, cmDone := true, stage := .established }
  | .rejected => { q with stage := .failed }
  | .addrError | .routeError | .connectError | .unreachable =>
      { cmError := -econnreset, cmDone := true, stage := .failed }
  | .disconnected | .addrChange | .timewaitExit | .deviceRemoval => q

/-- The event may come to a queue at this stage and takes no connection further. -/
def CmHandlerEvent.failsAt (stage : CmStage) : CmHandlerEvent → Bool
  | .addrResolved ret => stage = .resolvingAddr ∧ ret ≠ 0
  | .addrError => stage = .resolvingAddr
  | .routeError => stage = .resolvingRoute
  | .rejected | .connectError | .unreachable => stage = .connecting
  | .routeResolved | .established => false
  | .disconnected | .addrChange | .timewaitExit | .deviceRemoval => true

/-- Where the thread of `dcc_rdma_init`, or later of `dcc_rdma_exit`, is. In
`initFailed` it is at queue `idx` of the clean-up, after queue `tried` failed. -/
inductive DriverPhase where
  | unloaded
  | initQueue (idx : ℕ)
  | waitForCm (idx : ℕ)
  | initFailed (idx tried : ℕ)
  | recvRemotemr
  | sendLocalmr
  | ready
  | stopQueue (idx : ℕ)
  | exited
deriving DecidableEq

/-- The loop of `dcc_rdma_init_queue` goes on, or `dcc_rdma_init` does. -/
def DriverPhase.nextQueue (idx : ℕ) : DriverPhase :=
  if idx + 1 < numQps then .initQueue (idx + 1) else .recvRemotemr

/-- The same for `dcc_rdma_stopandfree_queues`. -/
def DriverPhase.nextStop (idx : ℕ) : DriverPhase :=
  if idx + 1 < numQps then .stopQueue (idx + 1) else .exited

/-- `struct dcc_rdma_ctrl`. -/
structure DriverCtrl where
  queues : ℕ → ConnQueue := fun _ => {}
  phase : DriverPhase := .unloaded
  svrMmInfo : Option MmInfo := none

/-- The messages of the connection manager. -/
inductive CmMsg where
  | req (id : CmId)
  | rep (id : CmId)
  | rtu (id : CmId)
  | dreq (id : CmId)
deriving DecidableEq

/-- `net` is on the way, `ec` is the daemon's event channel, `mrs` holds the
sends of `send_mr` that are not completed. `joined` remembers the drivers in
the order they were loaded. -/
structure ConnState (Page : Type) where
  listener : Listener Page
  drivers : ℕ → DriverCtrl := fun _ => {}
  net : List CmMsg := []
  ec : List CmEvent := []
  mrs : List (CmId × MmInfo) := []
  joined : List ℕ := []

/-- `cmFails` and `reportOther` are what the connection managers of the driver and
of the daemon report besides. -/
inductive ConnStep (Page : Type) where
  | load (d : ℕ)
  | initQueue (d : ℕ)
  | addrResolved (d : ℕ)
  | routeResolved (d : ℕ)
  | cmFails (d : ℕ) (e : CmHandlerEvent)
  | waitForCm (d : ℕ)
  | waitTimesOut (d : ℕ)
  | recvRemotemr (d : ℕ)
  | sendLocalmr (d : ℕ) (draw : Draw)
  | unload (d : ℕ)
  | stopQueue (d : ℕ)
  | deliver (i : ℕ)
  | reportOther (id : CmId)
  | handleEvent
  | finishClient
  | freeClient
  | server (a : ServerStep Page)

/-- The step takes a connection further. -/
def ConnStep.Moves {Page : Type} : ConnStep Page → Prop
  | .initQueue _ | .addrResolved _ | .routeResolved _ | .stopQueue _ | .deliver _
  | .handleEvent => True
  | .load _ | .cmFails _ _ | .waitForCm _ | .waitTimesOut _ | .recvRemotemr _ | .sendLocalmr _ _
  | .unload _ | .reportOther _ | .finishClient | .freeClient | .server _ => False

namespace ConnState

variable {Page : Type} (hash : HashFuncs) (exclusivePolicy : Bool) (cfg : ConnConfig)
  (filterAddr : ℕ → BitVec 64) (s : ConnState Page)

def setDriver (d : ℕ) (ctrl : DriverCtrl) : ConnState Page :=
  { s with drivers := Function.update s.drivers d ctrl }

def setQueue (d k : ℕ) (q : ConnQueue) : ConnState Page :=
  s.setDriver d { s.drivers d with queues := Function.update (s.drivers d).queues k q }

def setPhase (d : ℕ) (phase : DriverPhase) : ConnState Page :=
  s.setDriver d { s.drivers d with phase }

theorem setQueue_setPhase (d k : ℕ) (q : ConnQueue) (phase : DriverPhase) :
    (s.setQueue d k q).setPhase d phase = s.setDriver d
      { s.drivers d with queues := Function.update (s.drivers d).queues k q, phase } := by
  simp [setQueue, setPhase, setDriver]

/-! ## The driver -/

/-- `rdma_disconnect`, after which the thread goes on to `phase`. -/
def disconnect (d idx : ℕ) (phase : DriverPhase) : ConnState Page :=
  { (s.setQueue d idx { (s.drivers d).queues idx with stage := .disconnected }).setPhase d phase with
    net := s.net ++ [.dreq ⟨d, idx⟩] }

/-- `__dcc_rdma_init_queue` up to `rdma_resolve_addr`. -/
def initQueue (d : ℕ) : Option (ConnState Page) :=
  match (s.drivers d).phase with
  | .initQueue idx =>
      some ((s.setQueue d idx { cmError := -etimedout, stage := .resolvingAddr }).setPhase d
        (.waitForCm idx))
  | _ => none

def addrResolved (d : ℕ) : Option (ConnState Page) :=
  match (s.drivers d).phase with
  | .waitForCm idx =>
      if ((s.drivers d).queues idx).stage = .resolvingAddr then
        some (s.setQueue d idx (((s.drivers d).queues idx).cmHandler (.addrResolved 0)))
      else none
  | _ => none

/-- The handler calls `rdma_connect`. -/
def routeResolved (d : ℕ) : Option (ConnState Page) :=
  match (s.drivers d).phase with
  | .waitForCm idx =>
      if ((s.drivers d).queues idx).stage = .resolvingRoute then
        some { s.setQueue d idx (((s.drivers d).queues idx).cmHandler .routeResolved) with
          net := s.net ++ [.req ⟨d, idx⟩] }
      else none
  | _ => none

/-- Nothing comes of the queue, or of a call that the handler made for it. -/
def cmFails (d : ℕ) (e : CmHandlerEvent) : Option (ConnState Page) :=
  match (s.drivers d).phase with
  | .waitForCm idx =>
      if e.failsAt ((s.drivers d).queues idx).stage then
        some (s.setQueue d idx (((s.drivers d).queues idx).cmHandler e))
      else none
  | _ => none

/-- `__dcc_rdma_init_queue` after `dcc_rdma_wait_for_cm`, which returns `cm_error`.
At `out_destroy_cm_id` the connection of the queue is given up. -/
def waited (d idx : ℕ) : ConnState Page :=
  let q := (s.drivers d).queues idx
  if q.cmError = 0 then
    (s.setQueue d idx { q with cmDone := false }).setPhase d (.nextQueue idx)
  else
    (s.setQueue d idx { q with cmDone := false, stage := .failed }).setPhase d
      (.initFailed 0 idx)

variable {s} in
theorem waited_ok {d idx : ℕ} (h : ((s.drivers d).queues idx).cmError = 0) :
    s.waited d idx = (s.setQueue d idx { (s.drivers d).queues idx with cmDone := false }).setPhase
      d (.nextQueue idx) :=
  if_pos h

variable {s} in
theorem waited_failed {d idx : ℕ} (h : ((s.drivers d).queues idx).cmError ≠ 0) :
    s.waited d idx = (s.setQueue d idx
      { (s.drivers d).queues idx with cmDone := false, stage := .failed }).setPhase d
        (.initFailed 0 idx) :=
  if_neg h

/-- `cm_done` is completed. -/
def waitForCm (d : ℕ) : Option (ConnState Page) :=
  match (s.drivers d).phase with
  | .waitForCm idx =>
      if ((s.drivers d).queues idx).cmDone then some (s.waited d idx) else none
  | _ => none

/-- The time limit or a signal ends the wait. -/
def waitTimesOut (d : ℕ) : Option (ConnState Page) :=
  match (s.drivers d).phase with
  | .waitForCm idx =>
      if ((s.drivers d).queues idx).cmDone then none else some (s.waited d idx)
  | _ => none

/-- The message of `send_mr` arrives on queue 0. -/
def recvRemotemr (d : ℕ) : Option (ConnState Page) :=
  if (s.drivers d).phase = .recvRemotemr then
    match s.mrs.find? fun m => m.1 = ⟨d, 0⟩ with
    | some m =>
        some { s.setDriver d { s.drivers d with phase := .sendLocalmr, svrMmInfo := some m.2 } with
          mrs := s.mrs.erase m }
    | none => none
  else none

/-- The daemon's end of queue 0 takes the message. -/
def sendLocalmr (d : ℕ) (draw : Draw) : Option (ConnState Page) :=
  if (s.drivers d).phase = .sendLocalmr then
    match s.listener.context ⟨d, 0⟩ with
    | some (cid, qid) =>
        (s.listener.server.step hash exclusivePolicy
          (.send cid qid (.mmInfo (filterAddr d)) 0 draw)).map fun r =>
            { s.setPhase d .ready with listener := { s.listener with server := r.1 } }
    | none => none
  else none

/-- `dcc_rdma_stop_queue` and `dcc_rdma_free_queue`. The clean-up of a failed
initialisation comes to queue `tried` as well, whose identifier is destroyed, and
to those behind it, which have none: no message is sent for them. -/
def stopQueue (d : ℕ) : Option (ConnState Page) :=
  match (s.drivers d).phase with
  | .stopQueue idx => some (s.disconnect d idx (.nextStop idx))
  | .initFailed idx tried =>
      if idx < tried then some (s.disconnect d idx (.initFailed (idx + 1) tried)) else none
  | _ => none

/-! ## The network and the daemon -/

/-- What a message does where it arrives; an answer that comes too late does nothing. -/
def arrive : CmMsg → ConnState Page
  | .req id => { s with ec := s.ec ++ [⟨id, .connectRequest⟩] }
  | .rep id =>
      if ((s.drivers id.driver).queues id.queue).stage = .connecting then
        { s.setQueue id.driver id.queue
            (((s.drivers id.driver).queues id.queue).cmHandler .established) with
          net := s.net ++ [.rtu id] }
      else s
  | .rtu id => { s with ec := s.ec ++ [⟨id, .established⟩] }
  | .dreq id => { s with ec := s.ec ++ [⟨id, .disconnected⟩] }

variable {s} in
theorem arrive_rep {id : CmId}
    (h : ((s.drivers id.driver).queues id.queue).stage = .connecting) :
    s.arrive (.rep id) = { s.setQueue id.driver id.queue
      (((s.drivers id.driver).queues id.queue).cmHandler .established) with
        net := s.net ++ [.rtu id] } :=
  if_pos h

def post : Outgoing → ConnState Page
  | .accept id => { s with net := s.net ++ [.rep id] }
  | .sendMr id info => { s with mrs := s.mrs ++ [(id, info)] }

def handleEvent : Option (ConnState Page) :=
  match s.ec with
  | [] => none
  | e :: ec =>
      if s.listener.Listens then
        (s.listener.handleRdmaCmEvent cfg e).map fun r =>
          r.2.foldl post { s with listener := r.1, ec }
      else none

/-- `poll_send_cq` of queue 0 returns. -/
def finishClient : Option (ConnState Page) :=
  match s.listener.phase with
  | .connecting cid i =>
      if i = numQps ∧ ∀ m ∈ s.mrs, some m.1 ≠ ((s.listener.clients cid).queues 0).cmId then
        some { s with listener := s.listener.finishClient cfg cid }
      else none
  | _ => none

def freeClient : Option (ConnState Page) :=
  match s.listener.phase with
  | .leaving cid i =>
      if i = numQps then (s.listener.freeClient cid).map fun listener => { s with listener }
      else none
  | _ => none

variable {cfg s} in
/-- The daemon reads the event first and does not go on. -/
theorem handleEvent_stops {e : CmEvent} {ec : List CmEvent} {cliId i : ℕ} (hec : s.ec = e :: ec)
    (hphase : s.listener.phase = .connecting cliId i)
    (hevent : e.event = .disconnected ∨ e.event = .unknown) : s.handleEvent cfg = none := by
  unfold handleEvent
  rw [hec]
  dsimp only
  split
  · rw [s.listener.handleRdmaCmEvent_stops cfg hphase hevent]
    rfl
  · rfl

def step : ConnStep Page → Option (ConnState Page)
  | .load d =>
      if (s.drivers d).phase = .unloaded then
        some { s.setPhase d (.initQueue 0) with joined := s.joined ++ [d] }
      else none
  | .initQueue d => s.initQueue d
  | .addrResolved d => s.addrResolved d
  | .routeResolved d => s.routeResolved d
  | .cmFails d e => s.cmFails d e
  | .waitForCm d => s.waitForCm d
  | .waitTimesOut d => s.waitTimesOut d
  | .recvRemotemr d => s.recvRemotemr d
  | .sendLocalmr d draw => s.sendLocalmr hash exclusivePolicy filterAddr d draw
  | .unload d =>
      if (s.drivers d).phase = .ready then some (s.setPhase d (.stopQueue 0)) else none
  | .stopQueue d => s.stopQueue d
  | .deliver i => s.net[i]?.map fun m => { s with net := s.net.eraseIdx i }.arrive m
  | .reportOther id => some { s with ec := s.ec ++ [⟨id, .unknown⟩] }
  | .handleEvent => s.handleEvent cfg
  | .finishClient => s.finishClient cfg
  | .freeClient => s.freeClient
  | .server a =>
      (s.listener.server.step hash exclusivePolicy a).map fun r =>
        { s with listener := { s.listener with server := r.1 } }

/-- The daemon is at the start of `run_rdma` and no driver is loaded. -/
def new (server : Server Page) : ConnState Page where
  listener := .new cfg server

end ConnState

def connSystem {Page : Type} (hash : HashFuncs) (exclusivePolicy : Bool) (cfg : ConnConfig)
    (filterAddr : ℕ → BitVec 64) (s₀ : Server Page) : System (ConnState Page) (ConnStep Page) where
  init s := s = .new cfg s₀
  step s a := s.step hash exclusivePolicy cfg filterAddr a

end CleancacheRdma.Driver
