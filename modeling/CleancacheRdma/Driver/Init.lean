import Mathlib
import CleancacheRdma.Daemon.Rdma
import CleancacheRdma.Lib.Attempt

/-!
# Initialisation of the driver and its clean-up

Translated from `dcc_rdma_init` and what it calls in the driver's `rdma.c`,
`rdma.h`, `rdma_mem.c` and `backend.c`. The environment says what every step
returned, `0` if it went well. A call into the kernel on a pointer that is not live
is logged like any other; where the driver itself reads through such a pointer, or
polls for a completion that nothing can produce, the call does not come back.
-/

namespace CleancacheRdma.Driver

open Daemon (numDataQps numQps)
open Lib (Act Attempt ReleasedOnce NeverStale)
open Lib.Attempt (did step stuck inOrder)

inductive MetadataType where
  | filterOff
  | coopBf
  | ordinaryBf
  | countingBf
  | hashTable
deriving DecidableEq

/-- What initialisation acquires for a queue. -/
inductive QueueResource where
  | cmId
  | sendCq
  | recvCq
  | eventCq
  | qp
deriving DecidableEq

/-- What it acquires for a server. `reqVar` is the local variable of
`dcc_rdma_recv_remotemr`, no object of the cache. -/
inductive ServerResource where
  | ctrl
  | queues
  | mm
  | ht
  | rdev
  | pd
  | mr
  | req
  | reqVar
  | reqDma
  | filterPool
  | keyPool
  | pagebufPool
  | keypagePool
  | metadata
  | worker
  | af
deriving DecidableEq

inductive Resource where
  | client
  | reqCache
  | ctrls
  | server (i : ℕ) (r : ServerResource)
  | queue (i q : ℕ) (r : QueueResource)
deriving DecidableEq

/-- The steps for one server that can fail. -/
inductive InitStep where
  | ctrl
  | queues
  | mm
  | ht
  | svrIp
  | cliIp
  | createId (q : ℕ)
  | resolveAddr (q : ℕ)
  | addrEvent (q : ℕ)
  | rdev (q : ℕ)
  | pd (q : ℕ)
  | sendCq (q : ℕ)
  | recvCq (q : ℕ)
  | eventCq (q : ℕ)
  | createQp (q : ℕ)
  | resolveRoute (q : ℕ)
  | routeEvent (q : ℕ)
  | connect (q : ℕ)
  | connectEvent (q : ℕ)
  | dmaMr
  | req
  | reqDma
  | postRecv
  | dmaMask
  | filterPool
  | keyPool
  | pagebufPool
  | keypagePool
  | postSend
  | metadata
  | worker
  | af

/-- The configuration, and what every step returned. -/
structure InitEnv where
  numSvrs : ℕ
  metadataType : MetadataType
  afEnable : Bool
  reqCache : ℤ
  ctrls : ℤ
  server : ℕ → InitStep → ℤ

def enodev : ℤ := 19
def enomem : ℤ := 12
def einval : ℤ := 22
def econnreset : ℤ := 104
def etimedout : ℤ := 110

namespace InitEnv

variable (env : InitEnv) (i : ℕ)

/-- `dma_mem_for_filter`, as the module's initialisation leaves it. -/
def dmaMemForFilter : Bool := env.metadataType = .coopBf

/-! ## Releasing queues -/

/-- `dcc_rdma_stop_queue` and `dcc_rdma_free_queue`. A queue that was never brought
up has identifier 0. -/
def stopAndFreeQueue (i q qid : ℕ) : List (Act Resource) :=
  let cqs : List (Act Resource) :=
    if qid < numDataQps then [.release (.queue i q .sendCq), .release (.queue i q .recvCq)]
    else [.release (.queue i q .eventCq)]
  .use (.queue i q .cmId) :: .release (.queue i q .qp) :: (cqs ++ [.release (.queue i q .cmId)])

/-- `dcc_rdma_stopandfree_queues`, after the first `tried` queues got an identifier. -/
def stopAndFreeQueues (tried i : ℕ) : List (Act Resource) :=
  .use (.server i .ctrl) ::
    (List.range numQps).flatMap fun q => stopAndFreeQueue i q (if q < tried then q else 0)

/-! ## Bringing up a queue -/

/-- `dcc_rdma_get_device`. Only the first queue finds `ctrl->rdev` unset: a later
one is tried after it has come up. -/
def getDevice (q : ℕ) : Attempt Resource :=
  if q = 0 then
    ((step (env.server i (.rdev q)) [.acquire (.server i .rdev)]).andThen
      ((step (env.server i (.pd q)) [.acquire (.server i .pd)]).orUndo
        [.release (.server i .rdev)])).withError (-enodev)
  else did []

/-- An allocation whose result is not looked at. -/
def unchecked (ret : ℤ) (r : Resource) : List (Act Resource) :=
  if ret = 0 then [.acquire r] else []

/-- `dcc_rdma_create_qp`. -/
def createQp (q : ℕ) : Attempt Resource :=
  (did (if q < numDataQps then
      unchecked (env.server i (.sendCq q)) (.queue i q .sendCq) ++
        unchecked (env.server i (.recvCq q)) (.queue i q .recvCq)
    else unchecked (env.server i (.eventCq q)) (.queue i q .eventCq))).andThen
    (step (env.server i (.createQp q)) [.acquire (.queue i q .qp)])

/-- `dcc_rdma_destroy_queue_ib`. -/
def destroyQueueIb (q : ℕ) : List (Act Resource) :=
  if q < numDataQps then [] else [.release (.queue i q .eventCq)]

/-- `dcc_rdma_addr_resolved`. After `rdma_resolve_route` failed nobody completes
`cm_done`, and the wait runs into its time limit. -/
def addrResolved (q : ℕ) : Attempt Resource :=
  (env.getDevice i q).andThen
    (((env.createQp i q).withError (-1)).andThen
      (((step (env.server i (.resolveRoute q)) []).orUndo (destroyQueueIb i q)).withError
        (-etimedout)))

/-- `dcc_rdma_route_resolved`. -/
def routeResolved (q : ℕ) : Attempt Resource :=
  ((step (env.server i (.connect q)) []).orUndo (destroyQueueIb i q)).withError (-etimedout)

/-- `dcc_rdma_wait_for_cm`, with what `dcc_rdma_cm_handler` did meanwhile. -/
def waitForCm (q : ℕ) : Attempt Resource :=
  ((step (env.server i (.addrEvent q)) []).withError (-econnreset)).andThen <|
    (env.addrResolved i q).andThen <|
      ((step (env.server i (.routeEvent q)) []).withError (-econnreset)).andThen <|
        (env.routeResolved i q).andThen (step (env.server i (.connectEvent q)) [])

/-- `__dcc_rdma_init_queue`. -/
def initOneQueue (q : ℕ) : Attempt Resource :=
  ((step (env.server i (.createId q)) [.acquire (.queue i q .cmId)]).withError (-enodev)).andThen
    (((step (env.server i (.resolveAddr q)) []).andThen (env.waitForCm i q)).orUndo
      [.release (.queue i q .cmId)])

/-- The number of queues `__dcc_rdma_init_queue` is called for. -/
def queuesTried : ℕ :=
  min numQps
    (((List.range numQps).takeWhile fun q => (env.initOneQueue i q).ret = some 0).length + 1)

/-- `dcc_rdma_init_queue`, on a control block that is live. -/
def initQueue : Attempt Resource :=
  (did [.use (.server i .ctrl)]).andThen
    ((inOrder ((List.range numQps).map (env.initOneQueue i))).orUndo
      (stopAndFreeQueues (env.queuesTried i) i))

/-! ## Control blocks, regions, backends -/

/-- A `struct dcc_rdma_ctrl *`. -/
inductive CtrlPtr where
  | null
  | errPtr
  | live
  | freed
deriving DecidableEq

def acquired (rs : List ServerResource) : List (Act Resource) :=
  rs.map fun r => .acquire (.server i r)

def released (rs : List ServerResource) : List (Act Resource) :=
  rs.map fun r => .release (.server i r)

/-- `dcc_rdma_alloc_control`. Every label falls through to `return ctrl`; the
assignments of an error pointer stand behind a `goto`. -/
def allocControl : CtrlPtr × List (Act Resource) :=
  if env.server i .ctrl ≠ 0 then (.null, [])
  else if env.server i .queues ≠ 0 then (.freed, acquired i [.ctrl] ++ released i [.ctrl])
  else if env.server i .mm ≠ 0 then
    (.freed, acquired i [.ctrl, .queues] ++ released i [.queues, .ctrl])
  else if env.server i .ht ≠ 0 then
    (.freed, acquired i [.ctrl, .queues, .mm] ++ released i [.mm, .queues, .ctrl])
  else if env.server i .svrIp ≠ 0 ∨ env.server i .cliIp ≠ 0 then
    (.freed, acquired i [.ctrl, .queues, .mm, .ht] ++ released i [.ht, .mm, .queues, .ctrl])
  else (.live, acquired i [.ctrl, .queues, .mm, .ht])

/-- `rdma_mem_register_region`. -/
def registerRegion : Attempt Resource :=
  (did [.use (.server i .ctrl)]).andThen (step (env.server i .dmaMr) [.acquire (.server i .mr)])

/-- `get_req_for_buf`. Its test is of the caller's pointer, never of what the cache
returned, and its clean-up frees the caller's pointer as well. -/
def getReqForBuf : Attempt Resource :=
  if env.server i .req ≠ 0 then stuck []
  else (did [.acquire (.server i .req)]).andThen
    (((step (env.server i .reqDma) [.acquire (.server i .reqDma)]).orUndo
      [.release (.server i .reqVar)]).withError (-enomem))

/-- `dcc_rdma_recv_remotemr`, with a server that sends its region. -/
def recvRemotemr : Attempt Resource :=
  (did [.use (.server i .ctrl)]).andThen <|
    (env.getReqForBuf i).andThen <|
      (step (env.server i .postRecv) [.release (.server i .reqDma)]).andAlways
        [.release (.server i .req)]

/-- `rdma_mem_alloc_region`. -/
def allocRegion : Attempt Resource :=
  let pool (s : InitStep) (r : ServerResource) : Attempt Resource :=
    step (env.server i s) [.acquire (.server i r)]
  (did [.use (.server i .ctrl)]).andThen <|
    ((step (env.server i .dmaMask) []).withError (-einval)).andThen <|
      ((if env.dmaMemForFilter then pool .filterPool .filterPool else did []).andThen <|
        (pool .keyPool .keyPool).andThen <|
          (pool .pagebufPool .pagebufPool).andThen (pool .keypagePool .keypagePool)).withError
        (-enomem)

/-- `dcc_rdma_send_localmr`. It polls for the completion of the send also when
nothing was posted. -/
def sendLocalmr : Attempt Resource :=
  if env.server i .postSend ≠ 0 then stuck [.use (.server i .ctrl)]
  else did [.use (.server i .ctrl)]

/-- `dcc_backend_init`. After `dcc_start_worker` failed, `dcc_backend_stop_worker`
reads through the error pointer. -/
def backendInit : Attempt Resource :=
  (did (.use (.server i .ctrl) :: if env.metadataType ≠ .filterOff then
      unchecked (env.server i .metadata) (.server i .metadata) else [])).andThen <|
    (if env.metadataType = .coopBf then
        if env.server i .worker ≠ 0 then stuck [.use (.server i .worker)]
        else did [.acquire (.server i .worker)]
      else did []).andThen
      (did (if env.afEnable then unchecked (env.server i .af) (.server i .af) else []))

/-! ## `dcc_rdma_init` -/

def outUnregisterClient : List (Act Resource) := [.release .client]

def outFreeReqCache : List (Act Resource) := .release .reqCache :: outUnregisterClient

/-- `out_free_ctrl` in the iteration for server `i`: the pointers behind it are
still `NULL`. -/
def outFreeCtrl : List (Act Resource) :=
  ((List.range env.numSvrs).flatMap fun j => if j ≤ i then [.release (.server j .ctrl)] else []) ++
    .release .ctrls :: outFreeReqCache

def outFreeQueues : List (Act Resource) :=
  ((List.range env.numSvrs).flatMap fun j =>
    if j ≤ i then stopAndFreeQueues (env.queuesTried j) j else []) ++ env.outFreeCtrl i

/-- The iteration for server `i`, from `dcc_rdma_init_queue` on. -/
def bringUp : Attempt Resource :=
  (((env.initQueue i).orUndo (env.outFreeQueues i)).withError (-1)).andThen <|
    (((env.registerRegion i).orUndo (env.outFreeQueues i)).withError (-1)).andThen <|
      ((env.recvRemotemr i).withError (-enomem)).andThen <|
        ((env.allocRegion i).withError (-enomem)).andThen <|
          ((env.sendLocalmr i).withError (-enodev)).andThen <|
            -- `pre_post_recvs`
            (did [.use (.server i .ctrl)]).andThen ((env.backendInit i).withError (-enomem))

/-- The iteration for server `i`. `IS_ERR` catches error pointers only:
`dcc_rdma_init_queue` is handed `NULL` and freed blocks too. -/
def initServer : Attempt Resource :=
  match env.allocControl i with
  | (.null, log) => stuck log
  | (.errPtr, log) => ⟨some (-1), log ++ env.outFreeCtrl i⟩
  | (.freed, log) => stuck (log ++ [.use (.server i .ctrl)])
  | (.live, log) => (did log).andThen (env.bringUp i)

/-- The first `k` iterations. -/
def initServers : ℕ → Attempt Resource
  | 0 => did []
  | k + 1 => (initServers k).andThen (env.initServer k)

def dccRdmaInit : Attempt Resource :=
  (did [.acquire .client]).andThen <|
    (((step env.reqCache [.acquire .reqCache]).orUndo outUnregisterClient).withError
      (-1)).andThen <|
      (((step env.ctrls [.acquire .ctrls]).orUndo outFreeReqCache).withError (-1)).andThen
        (env.initServers env.numSvrs)

/-! ## When a server comes up -/

/-- The steps of one queue whose failure is noticed. -/
def queueSteps (q : ℕ) : List InitStep :=
  [InitStep.createId q, .resolveAddr q, .addrEvent q] ++
    (if q = 0 then [InitStep.rdev q, .pd q] else []) ++
    [InitStep.createQp q, .resolveRoute q, .routeEvent q, .connect q, .connectEvent q]

/-- The steps of one server whose failure is noticed, or ends the run. -/
def serverSteps : List InitStep :=
  [InitStep.ctrl, .queues, .mm, .ht, .svrIp, .cliIp] ++
    (List.range numQps).flatMap queueSteps ++
    [InitStep.dmaMr, .req, .reqDma, .postRecv, .dmaMask] ++
    (if env.metadataType = .coopBf then [InitStep.filterPool] else []) ++
    [InitStep.keyPool, .pagebufPool, .keypagePool, .postSend] ++
    (if env.metadataType = .coopBf then [InitStep.worker] else [])

/-- No step for server `i` fails. -/
def ComesUp : Prop := ∀ s ∈ env.serverSteps, env.server i s = 0

theorem getDevice_ok (q : ℕ) : (env.getDevice i q).ret = some 0 ↔
    ∀ s ∈ if q = 0 then [InitStep.rdev q, .pd q] else [], env.server i s = 0 := by
  unfold getDevice
  split <;> simp [Lib.Attempt.withError_ok, enodev]

theorem initOneQueue_ok (q : ℕ) : (env.initOneQueue i q).ret = some 0 ↔
    ∀ s ∈ queueSteps q, env.server i s = 0 := by
  simp only [initOneQueue, waitForCm, addrResolved, routeResolved, createQp, getDevice_ok,
    Lib.Attempt.andThen_ok, Lib.Attempt.orUndo_ret, Lib.Attempt.step_ok, Lib.Attempt.did_ok,
    Lib.Attempt.withError_ok (show (-enodev : ℤ) ≠ 0 by decide),
    Lib.Attempt.withError_ok (show (-econnreset : ℤ) ≠ 0 by decide),
    Lib.Attempt.withError_ok (show (-etimedout : ℤ) ≠ 0 by decide),
    Lib.Attempt.withError_ok (show (-1 : ℤ) ≠ 0 by decide), queueSteps,
    List.forall_mem_append, List.forall_mem_cons, List.not_mem_nil, IsEmpty.forall_iff,
    implies_true, and_true, true_and, and_assoc]

theorem initQueue_ok : (env.initQueue i).ret = some 0 ↔
    ∀ s ∈ (List.range numQps).flatMap queueSteps, env.server i s = 0 := by
  simp only [initQueue, Lib.Attempt.andThen_ok, Lib.Attempt.did_ok, Lib.Attempt.orUndo_ret,
    Lib.Attempt.inOrder_ok, List.forall_mem_map, initOneQueue_ok, true_and, List.mem_flatMap]
  constructor
  · rintro h s ⟨q, hq, hs⟩
    exact h q hq s hs
  · intro h q hq s hs
    exact h s ⟨q, hq, hs⟩

theorem registerRegion_ok :
    (env.registerRegion i).ret = some 0 ↔ env.server i .dmaMr = 0 := by
  simp [registerRegion]

theorem getReqForBuf_ok : (env.getReqForBuf i).ret = some 0 ↔
    env.server i .req = 0 ∧ env.server i .reqDma = 0 := by
  unfold getReqForBuf
  split <;> simp_all [Lib.Attempt.withError_ok, enomem]

theorem recvRemotemr_ok : (env.recvRemotemr i).ret = some 0 ↔
    (env.server i .req = 0 ∧ env.server i .reqDma = 0) ∧ env.server i .postRecv = 0 := by
  simp [recvRemotemr, getReqForBuf_ok]

theorem allocRegion_ok : (env.allocRegion i).ret = some 0 ↔
    env.server i .dmaMask = 0 ∧ (env.metadataType = .coopBf → env.server i .filterPool = 0) ∧
      env.server i .keyPool = 0 ∧ env.server i .pagebufPool = 0 ∧
        env.server i .keypagePool = 0 := by
  simp only [allocRegion, Lib.Attempt.andThen_ok, Lib.Attempt.did_ok, Lib.Attempt.step_ok,
    Lib.Attempt.withError_ok (show (-einval : ℤ) ≠ 0 by decide),
    Lib.Attempt.withError_ok (show (-enomem : ℤ) ≠ 0 by decide), dmaMemForFilter]
  by_cases hcoop : env.metadataType = .coopBf <;> simp [hcoop]

theorem sendLocalmr_ok :
    (env.sendLocalmr i).ret = some 0 ↔ env.server i .postSend = 0 := by
  unfold sendLocalmr
  split <;> simp_all

theorem backendInit_ok : (env.backendInit i).ret = some 0 ↔
    (env.metadataType = .coopBf → env.server i .worker = 0) := by
  simp only [backendInit, Lib.Attempt.andThen_ok, Lib.Attempt.did_ok, true_and, and_true]
  split
  · split <;> simp_all
  · simp_all

theorem bringUp_ok : (env.bringUp i).ret = some 0 ↔
    (∀ s ∈ (List.range numQps).flatMap queueSteps, env.server i s = 0) ∧
      (∀ s ∈ [InitStep.dmaMr, .req, .reqDma, .postRecv, .dmaMask], env.server i s = 0) ∧
      (∀ s ∈ if env.metadataType = .coopBf then [InitStep.filterPool] else [],
        env.server i s = 0) ∧
      (∀ s ∈ [InitStep.keyPool, .pagebufPool, .keypagePool, .postSend], env.server i s = 0) ∧
      ∀ s ∈ if env.metadataType = .coopBf then [InitStep.worker] else [], env.server i s = 0 := by
  simp only [bringUp, Lib.Attempt.andThen_ok, Lib.Attempt.did_ok, Lib.Attempt.orUndo_ret,
    Lib.Attempt.withError_ok (show (-1 : ℤ) ≠ 0 by decide),
    Lib.Attempt.withError_ok (show (-enomem : ℤ) ≠ 0 by decide),
    Lib.Attempt.withError_ok (show (-enodev : ℤ) ≠ 0 by decide), initQueue_ok,
    registerRegion_ok, recvRemotemr_ok, allocRegion_ok, sendLocalmr_ok, backendInit_ok]
  by_cases hcoop : env.metadataType = .coopBf
  · simp only [hcoop, if_true, forall_const, List.forall_mem_cons, List.not_mem_nil,
      IsEmpty.forall_iff, implies_true, and_true, true_and, and_assoc]
  · simp only [hcoop, if_false, IsEmpty.forall_iff, List.forall_mem_cons, List.not_mem_nil,
      implies_true, and_true, true_and, and_assoc]

theorem allocControl_live : (env.allocControl i).1 = .live ↔
    ∀ s ∈ [InitStep.ctrl, .queues, .mm, .ht, .svrIp, .cliIp], env.server i s = 0 := by
  unfold allocControl
  by_cases hctrl : env.server i .ctrl = 0
  · by_cases hqueues : env.server i .queues = 0
    · by_cases hmm : env.server i .mm = 0
      · by_cases hht : env.server i .ht = 0
        · by_cases hip : env.server i .svrIp ≠ 0 ∨ env.server i .cliIp ≠ 0
          · simp [hctrl, hqueues, hmm, hht, hip]
            tauto
          · simp [hctrl, hqueues, hmm, hht, hip]
            tauto
        · simp [hctrl, hqueues, hmm, hht]
      · simp [hctrl, hqueues, hmm]
    · simp [hctrl, hqueues]
  · simp [hctrl]

theorem allocControl_log (h : (env.allocControl i).1 = .live) :
    (env.allocControl i).2 = acquired i [.ctrl, .queues, .mm, .ht] := by
  have hsteps := (env.allocControl_live i).mp h
  simp only [List.forall_mem_cons] at hsteps
  obtain ⟨hctrl, hqueues, hmm, hht, hsvr, hcli, -⟩ := hsteps
  simp only [allocControl, hctrl, hqueues, hmm, hht, hsvr, hcli, ne_eq, not_true_eq_false,
    or_self, if_false]

/-- No path of `dcc_rdma_alloc_control` returns an error pointer. -/
theorem allocControl_ne_errPtr : (env.allocControl i).1 ≠ .errPtr := by
  simp only [allocControl]
  split_ifs <;> simp

theorem initServer_of_live (h : (env.allocControl i).1 = .live) : env.initServer i =
    ⟨(env.bringUp i).ret, acquired i [.ctrl, .queues, .mm, .ht] ++ (env.bringUp i).log⟩ := by
  have hlog := env.allocControl_log i h
  rcases halloc : env.allocControl i with ⟨ptr, log⟩
  rw [halloc] at h hlog
  cases h
  cases hlog
  simp only [initServer, halloc]
  exact Lib.Attempt.andThen_of_ok Lib.Attempt.did_ok

/-- A control block that could not be set up is read through all the same. -/
theorem initServer_stuck (h : (env.allocControl i).1 ≠ .live) : (env.initServer i).ret = none := by
  have herr := env.allocControl_ne_errPtr i
  rcases halloc : env.allocControl i with ⟨ptr, log⟩
  rw [halloc] at h herr
  cases ptr with
  | null => simp only [initServer, halloc, Lib.Attempt.stuck_ret]
  | freed => simp only [initServer, halloc, Lib.Attempt.stuck_ret]
  | errPtr => exact absurd rfl herr
  | live => exact absurd rfl h

theorem initServer_ok : (env.initServer i).ret = some 0 ↔ env.ComesUp i := by
  have hsteps : env.ComesUp i ↔
      (env.allocControl i).1 = .live ∧ (env.bringUp i).ret = some 0 := by
    rw [allocControl_live, bringUp_ok, ComesUp, serverSteps]
    simp only [List.forall_mem_append, and_assoc]
  rw [hsteps]
  by_cases hlive : (env.allocControl i).1 = .live
  · rw [env.initServer_of_live i hlive]
    exact (and_iff_right hlive).symm
  · rw [env.initServer_stuck i hlive]
    exact iff_of_false nofun fun h => hlive h.1

/-! ## What a failed server leaves behind -/

/-- No array of queues and no control block is given back. -/
def KeepsBlocks (a : Act Resource) : Prop :=
  ∀ k, a ≠ .release (.server k .queues) ∧ a ≠ .release (.server k .ctrl)

theorem stopAndFreeQueues_keeps (tried : ℕ) :
    ∀ a ∈ stopAndFreeQueues tried i, KeepsBlocks a := by
  simp only [stopAndFreeQueues, List.forall_mem_cons, List.mem_flatMap]
  refine ⟨by simp [KeepsBlocks], ?_⟩
  rintro a ⟨q, -, ha⟩ k
  unfold stopAndFreeQueue at ha
  split_ifs at ha <;> constructor <;> rintro rfl <;> simp at ha

theorem unchecked_keeps (ret : ℤ) (r : Resource) : ∀ a ∈ unchecked ret r, KeepsBlocks a := by
  unfold unchecked
  split <;> simp [KeepsBlocks]

theorem getDevice_keeps (q : ℕ) : (env.getDevice i q).Every KeepsBlocks := by
  unfold getDevice
  split
  · apply Attempt.Every.withError
    apply Attempt.Every.andThen
    · exact .step (by simp [KeepsBlocks])
    · exact .orUndo (.step (by simp [KeepsBlocks])) (by simp [KeepsBlocks])
  · exact .did (by simp)

theorem createQp_keeps (q : ℕ) : (env.createQp i q).Every KeepsBlocks := by
  apply Attempt.Every.andThen
  · apply Attempt.Every.did
    split
    · exact List.forall_mem_append.mpr ⟨unchecked_keeps _ _, unchecked_keeps _ _⟩
    · exact unchecked_keeps _ _
  · exact .step (by simp [KeepsBlocks])

theorem destroyQueueIb_keeps (q : ℕ) : ∀ a ∈ destroyQueueIb i q, KeepsBlocks a := by
  unfold destroyQueueIb
  split <;> simp [KeepsBlocks]

theorem waitForCm_keeps (q : ℕ) : (env.waitForCm i q).Every KeepsBlocks := by
  have hstep (ret : ℤ) : (step ret [] : Attempt Resource).Every KeepsBlocks := .step (by simp)
  refine .andThen (hstep _) (.andThen ?addr (.andThen (hstep _) (.andThen ?route (hstep _))))
  case addr =>
    refine .andThen (env.getDevice_keeps i q) (.andThen (env.createQp_keeps i q) ?_)
    exact .withError (.orUndo (hstep _) (destroyQueueIb_keeps i q))
  case route => exact .withError (.orUndo (hstep _) (destroyQueueIb_keeps i q))

theorem initOneQueue_keeps (q : ℕ) : (env.initOneQueue i q).Every KeepsBlocks := by
  apply Attempt.Every.andThen
  · exact .withError (.step (by simp [KeepsBlocks]))
  · exact .orUndo (.andThen (.step (by simp)) (env.waitForCm_keeps i q)) (by simp [KeepsBlocks])

theorem initQueue_keeps : (env.initQueue i).Every KeepsBlocks := by
  refine .andThen (.did (by simp [KeepsBlocks])) (.orUndo (.inOrder ?_) ?_)
  · exact List.forall_mem_map.mpr fun q _ => env.initOneQueue_keeps i q
  · exact stopAndFreeQueues_keeps i _

theorem recvRemotemr_keeps : (env.recvRemotemr i).Every KeepsBlocks := by
  refine .andThen (.did (by simp [KeepsBlocks])) (.andThen ?_ ?_)
  · unfold getReqForBuf
    split
    · exact .stuck (by simp)
    · refine .andThen (.did (by simp [KeepsBlocks])) (.withError ?_)
      exact .orUndo (.step (by simp [KeepsBlocks])) (by simp [KeepsBlocks])
  · exact .andAlways (.step (by simp [KeepsBlocks])) (by simp [KeepsBlocks])

theorem allocRegion_keeps : (env.allocRegion i).Every KeepsBlocks := by
  have hpool (s : InitStep) (r : ServerResource) :
      (step (env.server i s) [.acquire (.server i r)]).Every KeepsBlocks :=
    .step (by simp [KeepsBlocks])
  refine .andThen (.did (by simp [KeepsBlocks])) (.andThen (.withError (.step (by simp))) ?_)
  refine .withError (.andThen ?_ (.andThen (hpool _ _) (.andThen (hpool _ _) (hpool _ _))))
  split
  · exact hpool _ _
  · exact .did (List.forall_mem_nil _)

theorem sendLocalmr_keeps : (env.sendLocalmr i).Every KeepsBlocks := by
  unfold sendLocalmr
  split
  · exact .stuck (by simp [KeepsBlocks])
  · exact .did (by simp [KeepsBlocks])

theorem backendInit_keeps : (env.backendInit i).Every KeepsBlocks := by
  refine .andThen (.did (List.forall_mem_cons.mpr ⟨by simp [KeepsBlocks], ?_⟩)) (.andThen ?_ ?_)
  · split
    · exact unchecked_keeps _ _
    · exact List.forall_mem_nil _
  · split_ifs
    · exact .stuck (by simp [KeepsBlocks])
    · exact .did (by simp [KeepsBlocks])
    · exact .did (by simp)
  · apply Attempt.Every.did
    split
    · exact unchecked_keeps _ _
    · exact List.forall_mem_nil _

theorem registerRegion_keeps : (env.registerRegion i).Every KeepsBlocks :=
  .andThen (.did (by simp [KeepsBlocks])) (.step (by simp [KeepsBlocks]))

/-- The array of the queues is given back by `dcc_rdma_alloc_control` only. -/
def KeepsQueues (a : Act Resource) : Prop := ∀ k, a ≠ .release (.server k .queues)

theorem KeepsBlocks.queues {a : Act Resource} (h : KeepsBlocks a) : KeepsQueues a :=
  fun k => (h k).1

theorem outFreeQueues_keeps : ∀ a ∈ env.outFreeQueues i, KeepsQueues a := by
  intro a ha
  simp only [outFreeQueues, outFreeCtrl, outFreeReqCache, outUnregisterClient, List.mem_append,
    List.mem_flatMap] at ha
  rcases ha with ⟨j, -, ha⟩ | ⟨j, -, ha⟩ | ha
  · split at ha
    · exact (stopAndFreeQueues_keeps j _ a ha).queues
    · cases ha
  · intro k hk
    split at ha <;> simp_all
  · intro k hk
    simp_all

/-- What holds of the clean-up and of everything that keeps the blocks holds of the
whole iteration. -/
theorem bringUp_every {p : Act Resource → Prop} (hp : ∀ a, KeepsBlocks a → p a)
    (hqueue : ((env.initQueue i).orUndo (env.outFreeQueues i)).Every p)
    (hregion : ((env.registerRegion i).orUndo (env.outFreeQueues i)).Every p) :
    (env.bringUp i).Every p := by
  refine .andThen (.withError hqueue) (.andThen (.withError hregion) ?_)
  refine .andThen (.withError ((env.recvRemotemr_keeps i).mono hp)) ?_
  refine .andThen (.withError ((env.allocRegion_keeps i).mono hp)) ?_
  refine .andThen (.withError ((env.sendLocalmr_keeps i).mono hp)) ?_
  refine .andThen (.did ?_) (.withError ((env.backendInit_keeps i).mono hp))
  exact List.forall_mem_singleton.mpr (hp _ (by simp [KeepsBlocks]))

theorem bringUp_keepsQueues : (env.bringUp i).Every KeepsQueues := by
  have hundo := env.outFreeQueues_keeps i
  apply env.bringUp_every i (fun a ha => ha.queues)
  · exact .orUndo ((env.initQueue_keeps i).mono fun a ha => ha.queues) hundo
  · exact .orUndo ((env.registerRegion_keeps i).mono fun a ha => ha.queues) hundo

theorem bringUp_keepsBlocks (h : (env.bringUp i).ret = some 0) :
    (env.bringUp i).Every KeepsBlocks := by
  simp only [bringUp, Lib.Attempt.andThen_ok, Lib.Attempt.orUndo_ret,
    Lib.Attempt.withError_ok (show (-1 : ℤ) ≠ 0 by decide)] at h
  apply env.bringUp_every i fun a ha => ha
  · rw [Lib.Attempt.orUndo_of_ok h.1]
    exact env.initQueue_keeps i
  · rw [Lib.Attempt.orUndo_of_ok h.2.1]
    exact env.registerRegion_keeps i

theorem release_mem_stopAndFreeQueues (tried : ℕ) :
    .release (.queue i 0 .cmId) ∈ stopAndFreeQueues tried i := by
  refine List.mem_cons_of_mem _ (List.mem_flatMap.mpr ⟨0, by decide, ?_⟩)
  apply List.mem_cons_of_mem
  apply List.mem_cons_of_mem
  exact List.mem_append_right _ (List.mem_singleton.mpr rfl)

theorem release_mem_outFreeQueues (hi : i < env.numSvrs) :
    .release (.queue i 0 .cmId) ∈ env.outFreeQueues i := by
  refine List.mem_append_left _ (List.mem_flatMap.mpr ⟨i, List.mem_range.mpr hi, ?_⟩)
  rw [if_pos (Nat.le_refl i)]
  exact release_mem_stopAndFreeQueues i _

/-- `out_free_queues` runs after `dcc_rdma_init_queue` has torn down the queues of the
server itself: the connection identifiers are given back twice. -/
theorem bringUp_twice (hi : i < env.numSvrs) (h : (env.initQueue i).ret ≠ some 0)
    (hret : (env.bringUp i).ret ≠ none) :
    2 ≤ (env.bringUp i).log.count (.release (.queue i 0 .cmId)) := by
  set failed := ((env.initQueue i).orUndo (env.outFreeQueues i)).withError (-1) with hfailed
  have hcall : env.bringUp i = failed := by
    apply Lib.Attempt.andThen_of_not_ok
    rwa [Ne, Lib.Attempt.withError_ok (show (-1 : ℤ) ≠ 0 by decide), Lib.Attempt.orUndo_ret]
  have hback : (env.initQueue i).ret ≠ none := by
    intro hnone
    rw [hcall, hfailed, Attempt.withError, Lib.Attempt.orUndo_ret, hnone] at hret
    exact hret rfl
  have hlog : failed.log = (env.initQueue i).log ++ env.outFreeQueues i :=
    Lib.Attempt.orUndo_log h hback
  have hfirst : .release (.queue i 0 .cmId) ∈ (env.initQueue i).log := by
    rw [initQueue, Lib.Attempt.andThen_of_ok Lib.Attempt.did_ok] at h hback ⊢
    rw [Lib.Attempt.orUndo_ret] at h hback
    rw [Lib.Attempt.orUndo_log h hback]
    apply List.mem_append_right
    apply List.mem_append_right
    exact release_mem_stopAndFreeQueues i _
  have hsecond := env.release_mem_outFreeQueues i hi
  rw [hcall, hlog, List.count_append]
  exact Nat.add_le_add (List.count_pos_iff.mpr hfirst) (List.count_pos_iff.mpr hsecond)

/-- An iteration that returns gives a connection identifier back twice, or keeps the
array of the queues. -/
theorem initServer_failed (hi : i < env.numSvrs) (hret : (env.initServer i).ret ≠ none) :
    2 ≤ (env.initServer i).log.count (.release (.queue i 0 .cmId)) ∨
      .acquire (.server i .queues) ∈ (env.initServer i).log ∧
        (env.initServer i).Every KeepsQueues := by
  have hlive : (env.allocControl i).1 = .live := by
    by_contra hdead
    exact hret (env.initServer_stuck i hdead)
  rw [env.initServer_of_live i hlive] at hret ⊢
  by_cases hqueue : (env.initQueue i).ret = some 0
  · right
    refine ⟨List.mem_append_left _ (by simp [acquired]), List.forall_mem_append.mpr ⟨?_, ?_⟩⟩
    · simp [acquired, KeepsQueues]
    · exact env.bringUp_keepsQueues i
  · left
    rw [List.count_append]
    exact Nat.le_add_left_of_le (env.bringUp_twice i hi hqueue hret)

theorem initServer_keepsBlocks (h : env.ComesUp i) : (env.initServer i).Every KeepsBlocks := by
  rw [← initServer_ok] at h
  have hlive : (env.allocControl i).1 = .live := by
    by_contra hdead
    rw [env.initServer_stuck i hdead] at h
    cases h
  rw [env.initServer_of_live i hlive] at h ⊢
  refine List.forall_mem_append.mpr ⟨?_, env.bringUp_keepsBlocks i h⟩
  simp [acquired, KeepsBlocks]

/-! ## Whole runs -/

theorem initServers_ok (k : ℕ) :
    (env.initServers k).ret = some 0 ↔ ∀ j < k, env.ComesUp j := by
  induction k with
  | zero => simp [initServers]
  | succ k ih =>
      rw [initServers, Lib.Attempt.andThen_ok, ih, initServer_ok, Nat.forall_lt_succ_right]

theorem initServers_keepsBlocks (k : ℕ) (h : ∀ j < k, env.ComesUp j) :
    (env.initServers k).Every KeepsBlocks := by
  induction k with
  | zero => exact .did (List.forall_mem_nil _)
  | succ k ih =>
      apply Attempt.Every.andThen
      · exact ih fun j hj => h j (Nat.lt_succ_of_lt hj)
      · exact env.initServer_keepsBlocks k (h k (Nat.lt_succ_self k))

/-- Something is given back twice, or not at all. -/
def Unbalanced (log : List (Act Resource)) : Prop :=
  ∃ r, 2 ≤ log.count (.release r) ∨ .acquire r ∈ log ∧ .release r ∉ log

theorem Unbalanced.not_releasedOnce {log : List (Act Resource)} (h : Unbalanced log) :
    ¬ ReleasedOnce log := by
  intro honce
  obtain ⟨r, htwice | ⟨hacq, hrel⟩⟩ := h
  · exact absurd (honce.count_le r) (Nat.not_le.mpr htwice)
  · exact hrel (honce.release_mem hacq)

theorem Unbalanced.append {pre log : List (Act Resource)} (h : Unbalanced log)
    (hpre : ∀ r, .release r ∉ pre) : Unbalanced (pre ++ log) := by
  obtain ⟨r, htwice | ⟨hacq, hrel⟩⟩ := h
  · refine ⟨r, .inl (htwice.trans ?_)⟩
    rw [List.count_append]
    exact Nat.le_add_left _ _
  · refine ⟨r, .inr ⟨List.mem_append_right _ hacq, fun hmem => ?_⟩⟩
    exact (List.mem_append.mp hmem).elim (hpre r) hrel

theorem initServers_failed (k : ℕ) (hk : k ≤ env.numSvrs) (h : ¬ ∀ j < k, env.ComesUp j)
    (hret : (env.initServers k).ret ≠ none) : Unbalanced (env.initServers k).log := by
  induction k with
  | zero => exact absurd (fun j hj => absurd hj (Nat.not_lt_zero j)) h
  | succ k ih =>
      by_cases hbefore : ∀ j < k, env.ComesUp j
      · rw [initServers, Lib.Attempt.andThen_of_ok ((env.initServers_ok k).mpr hbefore)] at hret ⊢
        rcases env.initServer_failed k hk hret with htwice | ⟨hacq, hkeeps⟩
        · refine ⟨.queue k 0 .cmId, .inl (htwice.trans ?_)⟩
          rw [List.count_append]
          exact Nat.le_add_left _ _
        · refine ⟨.server k .queues, .inr ⟨List.mem_append_right _ hacq, fun hmem => ?_⟩⟩
          rcases List.mem_append.mp hmem with hmem | hmem
          · exact (env.initServers_keepsBlocks k hbefore _ hmem k).1 rfl
          · exact hkeeps _ hmem k rfl
      · have hstop : (env.initServers k).ret ≠ some 0 := mt (env.initServers_ok k).mp hbefore
        rw [initServers, Lib.Attempt.andThen_of_not_ok hstop] at hret ⊢
        exact ih (Nat.le_of_succ_le hk) hbefore hret

/-- What failed initialisation owes: it returns, everything acquired is released
exactly once and nothing else is, and no control block is used after its release. -/
structure CleansUp : Prop where
  returns : env.dccRdmaInit.ret ≠ none
  released : env.dccRdmaInit.ret ≠ some 0 → ReleasedOnce env.dccRdmaInit.log
  fresh : ∀ i, NeverStale (.server i .ctrl) env.dccRdmaInit.log

theorem dccRdmaInit_eq (hcache : env.reqCache = 0) (hctrls : env.ctrls = 0) :
    env.dccRdmaInit = ⟨(env.initServers env.numSvrs).ret,
      [Act.acquire .client, .acquire .reqCache, .acquire .ctrls] ++
        (env.initServers env.numSvrs).log⟩ := by
  simp [dccRdmaInit, Attempt.andThen, Attempt.withError, Attempt.orUndo, did, step, hcache, hctrls]

theorem dccRdmaInit_no_cache (hcache : env.reqCache ≠ 0) :
    env.dccRdmaInit = ⟨some (-1), .acquire .client :: ([] ++ [Act.release .client])⟩ := by
  simp [dccRdmaInit, Attempt.andThen, Attempt.withError, Attempt.orUndo, did, step, hcache,
    outUnregisterClient]

theorem dccRdmaInit_no_ctrls (hcache : env.reqCache = 0) (hctrls : env.ctrls ≠ 0) :
    env.dccRdmaInit = ⟨some (-1), .acquire .client ::
      (Act.acquire .reqCache :: ([] ++ [Act.release .reqCache]) ++ [Act.release .client])⟩ := by
  simp [dccRdmaInit, Attempt.andThen, Attempt.withError, Attempt.orUndo, did, step, hcache,
    hctrls, outFreeReqCache, outUnregisterClient]

theorem CleansUp.of_log {ret : ℤ} {log : List (Act Resource)}
    (hinit : env.dccRdmaInit = ⟨some ret, log⟩) (hlog : ret ≠ 0 → ReleasedOnce log)
    (hfresh : ∀ i, .release (.server i .ctrl) ∉ log) : env.CleansUp := by
  constructor
  · rw [hinit]
    exact Option.some_ne_none ret
  · intro herr
    rw [hinit] at herr ⊢
    exact hlog fun hzero => herr (congrArg some hzero)
  · intro i
    rw [hinit]
    exact .of_not_mem (hfresh i)

theorem cleansUp_of_all_up (hcache : env.reqCache = 0) (hctrls : env.ctrls = 0)
    (hup : ∀ i < env.numSvrs, env.ComesUp i) : env.CleansUp := by
  have hinit := env.dccRdmaInit_eq hcache hctrls
  rw [(env.initServers_ok env.numSvrs).mpr hup] at hinit
  apply CleansUp.of_log env hinit
  · exact fun herr => absurd rfl herr
  · intro i hmem
    rcases List.mem_append.mp hmem with hmem | hmem
    · simp at hmem
    · exact (env.initServers_keepsBlocks _ hup _ hmem i).2 rfl

/-- Clean-up is right before the loop over the servers, and wrong from there on:
initialisation meets its promise if it fails to set up the request cache or the
array of control blocks, or does not fail at all. -/
theorem cleansUp_iff : env.CleansUp ↔
    env.reqCache ≠ 0 ∨ env.ctrls ≠ 0 ∨ ∀ i < env.numSvrs, env.ComesUp i := by
  by_cases hcache : env.reqCache = 0
  · by_cases hctrls : env.ctrls = 0
    · have hzero : ∀ p : Prop, (env.reqCache ≠ 0 ∨ env.ctrls ≠ 0 ∨ p) ↔ p := by
        simp [hcache, hctrls]
      rw [hzero]
      constructor
      · intro h
        by_contra hfails
        have hreturns := h.returns
        have hreleased := h.released
        rw [env.dccRdmaInit_eq hcache hctrls] at hreturns hreleased
        have hunbalanced := env.initServers_failed env.numSvrs le_rfl hfails hreturns
        refine (hunbalanced.append ?_).not_releasedOnce (hreleased ?_)
        · simp
        · exact mt (env.initServers_ok env.numSvrs).mp hfails
      · exact env.cleansUp_of_all_up hcache hctrls
    · refine iff_of_true ?_ (.inr (.inl hctrls))
      apply CleansUp.of_log env (env.dccRdmaInit_no_ctrls hcache hctrls)
      · intro _
        exact (ReleasedOnce.nil.around List.not_mem_nil).around (by simp)
      · simp
  · refine iff_of_true ?_ (.inl hcache)
    apply CleansUp.of_log env (env.dccRdmaInit_no_cache hcache)
    · intro _
      exact ReleasedOnce.nil.around List.not_mem_nil
    · simp

/-- One server whose key buffer cannot be allocated: initialisation returns an error
and the client stays registered. -/
theorem client_stays_registered : ¬ CleansUp
    ⟨1, .filterOff, false, 0, 0, fun _ s => match s with | .keyPool => 1 | _ => 0⟩ := by
  intro h
  have honce := h.released (by decide +kernel)
  have hmem := @honce.release_mem _ _ _ .client (by decide +kernel)
  exact absurd hmem (by decide +kernel)

end InitEnv

end CleancacheRdma.Driver
