import CleancacheRdma.Daemon.Rdma

/-!
# Queue 0 of the driver: the put buffer and its work items

Translated from `dcc_rdma_send_page` and `send_page_work_handler` of the
driver's `rdma.c`. The counter `msg_id` is unbounded here. A critical section
under `q->lock` is one step: the up to seven tests of the wait bit are made
with the lock held, and the outcome is that of the last one. The handler's
critical section under `q->mtx` is split: the sends are posted, the adapter
reads the slots one by one, the completion is seen, the bit is cleared, and
after the last batch of a round the reply is polled.
-/

namespace CleancacheRdma.Driver

open Daemon (Slot MsgType TxState bitMask htonl numMsgs)
open Lib (System)

/-- `rdma_config.num_put_batch`. -/
def numPutBatch : ℕ := 32

/-- A scheduled item; `batch` is a ghost, which batch of accepted puts it was
scheduled for. -/
structure WorkData where
  msgId : ℕ
  batch : ℕ
deriving DecidableEq

/-- A send posted on queue 0: the slot its `sge` points to. -/
structure SendWr where
  slot : ℕ
  imm : BitVec 32

/-- Who is inside `q->mtx`, and how far. -/
inductive Mtx where
  | free
  | posted (data : WorkData)
  | completed (data : WorkData)
  | polling
deriving DecidableEq

structure PutQueue (Page : Type) where
  msgId : ℕ := 0
  wait : ℕ → Bool := fun _ => false
  keypageMmPool : ℕ → Slot Page
  work : List WorkData := []
  mtx : Mtx := .free
  sends : List SendWr := []
  wire : List (Slot Page × BitVec 32) := []
  replies : List (BitVec 32) := []

namespace PutQueue

variable {Page : Type} (q : PutQueue Page)

/-- `copy_to_send_buffer`. -/
def copyToSendBuffer (page : Slot Page) (msgId : ℕ) : PutQueue Page :=
  { q with keypageMmPool := Function.update q.keypageMmPool msgId page }

/-- `dcc_rdma_send_page`. -/
def sendPage (page : Slot Page) : PutQueue Page × ℤ :=
  let msgId := q.msgId % numMsgs
  if q.wait (msgId / numPutBatch) then (q, -6)
  else
    let batch := q.msgId / numPutBatch
    let q := { q with msgId := q.msgId + 1 }.copyToSendBuffer page msgId
    if msgId % numPutBatch ≠ numPutBatch - 1 then (q, 0)
    else
      ({ q with
         wait := Function.update q.wait (msgId / numPutBatch) true
         work := q.work ++ [{ msgId, batch }] }, 0)

/-- The sends of `send_page_work_handler`. -/
def batchSends (data : WorkData) : List SendWr :=
  (List.range numPutBatch).map fun i =>
    let sendingMsgId := data.msgId - (numPutBatch - 1) + i
    { slot := sendingMsgId
      imm := htonl (bitMask sendingMsgId MsgType.write.code TxState.writeBegin.code 0 0) }

/-- Scheduled item `i` runs: it takes `q->mtx` and posts its sends. -/
def post (i : ℕ) : Option (PutQueue Page) :=
  match q.mtx, q.work[i]? with
  | .free, some data =>
      some { q with
        work := q.work.eraseIdx i
        mtx := .posted data
        sends := batchSends data }
  | _, _ => none

/-- The adapter reads the next posted slot. -/
def transmit : Option (PutQueue Page) :=
  match q.sends with
  | [] => none
  | wr :: sends =>
      some { q with
        sends
        wire := q.wire ++ [(q.keypageMmPool wr.slot, wr.imm)] }

/-- `poll_send_cq`: only the last send of a batch is signaled. -/
def pollSendCq : Option (PutQueue Page) :=
  match q.mtx, q.sends with
  | .posted data, [] => some { q with mtx := .completed data }
  | _, _ => none

/-- `clear_bit`; all but the last item of a round leave `q->mtx` after it. -/
def clearBit : Option (PutQueue Page) :=
  match q.mtx with
  | .completed data =>
      some { q with
        wait := Function.update q.wait (data.msgId / numPutBatch) false
        mtx := if data.msgId = numMsgs - 1 then .polling else .free }
  | _ => none

/-- `poll_recv_cq` of the last item of a round. -/
def pollRecvCq : Option (PutQueue Page) :=
  match q.mtx, q.replies with
  | .polling, _ :: replies => some { q with mtx := .free, replies }
  | _, _ => none

end PutQueue

/-! ## Runs -/

/-- Queue 0 with its history: the puts that returned 0, the batches whose items
have run, and what the adapter has sent. -/
structure PutRun (Page : Type) where
  queue : PutQueue Page
  accepted : List (Slot Page) := []
  ran : List ℕ := []
  sent : List (Slot Page × BitVec 32) := []

inductive PutStep (Page : Type) where
  | sendPage (page : Slot Page)
  | post (i : ℕ)
  | transmit
  | pollSendCq
  | clearBit
  | receive
  | reply (imm : BitVec 32)
  | pollRecvCq

namespace PutRun

variable {Page : Type}

/-- `receive` and `reply` are the daemon's end of the queue. -/
def step (s : PutRun Page) : PutStep Page → Option (PutRun Page)
  | .sendPage page =>
      let r := s.queue.sendPage page
      some { s with
        queue := r.1
        accepted := if r.2 = 0 then s.accepted ++ [page] else s.accepted }
  | .post i =>
      (s.queue.post i).map fun queue =>
        { s with queue, ran := s.ran ++ (s.queue.work[i]?.map WorkData.batch).toList }
  | .transmit =>
      s.queue.transmit.map fun queue =>
        { s with
          queue
          sent := s.sent ++
            (s.queue.sends.head?.map fun wr => (s.queue.keypageMmPool wr.slot, wr.imm)).toList }
  | .pollSendCq => s.queue.pollSendCq.map fun queue => { s with queue }
  | .clearBit => s.queue.clearBit.map fun queue => { s with queue }
  | .receive =>
      match s.queue.wire with
      | [] => none
      | _ :: wire => some { s with queue := { s.queue with wire } }
  | .reply imm =>
      some { s with queue := { s.queue with replies := s.queue.replies ++ [imm] } }
  | .pollRecvCq => s.queue.pollRecvCq.map fun queue => { s with queue }

/-- A connected queue, nothing put yet. -/
def Initial (s : PutRun Page) : Prop :=
  ∃ pool, s = { queue := { keypageMmPool := pool } }

end PutRun

def putSystem (Page : Type) : System (PutRun Page) (PutStep Page) where
  init := PutRun.Initial
  step := PutRun.step

end CleancacheRdma.Driver
