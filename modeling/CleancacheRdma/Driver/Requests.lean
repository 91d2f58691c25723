import Mathlib
import CleancacheRdma.Daemon.Imm

/-!
# The request queues of the driver

Translated from `dcc_rdma_write_msg` and `dcc_rdma_write_msg2` of the driver's
`rdma.c`. Queue 1 carries the invalidations, the queues from 2 on the gets.
What a call does under `q->lock` is split where it waits: the request is
posted, the completion of its send is seen, the reply is polled. A queue keeps
its order; a request is delivered when its words are in the metadata region,
and the daemon handles the completions of a queue one after the other.
-/

namespace CleancacheRdma.Driver

open Daemon (Key HashFuncs Server ServerStep Reply Draw MsgType TxState ImmFields bitMask bitUnmask
  htonl ntohl numMsgs numGetQps numDataQps)
open Lib (System)

/-! ## The driver's side of the metadata region -/

/-- `rdma_config.get_metadata_size`. -/
def getMetadataSize : ℕ := 8 * 2
def invMetadataSize : ℕ := 8 * numMsgs
def metadataSize : ℕ := getMetadataSize + invMetadataSize

/-- `GET_METADATA_OFFSET`. -/
def getMetadataOffset (queueId : ℕ) (msgId : ℤ) : MsgType → BitVec 64
  | .read => BitVec.ofNat 64 metadataSize * BitVec.ofNat 64 queueId
  | .invPage =>
      BitVec.ofNat 64 metadataSize * BitVec.ofNat 64 queueId + BitVec.ofNat 64 getMetadataSize +
        BitVec.ofInt 64 msgId * 8
  | _ => -1

/-- `msg_id` of a queue whose counter stands at `count`: a remainder of `int`s. -/
def slotOf (count : BitVec 32) : ℤ := count.toInt.tmod numMsgs

/-- A posted `RDMA_WRITE_WITH_IMM`. -/
structure Request where
  off : ℕ
  words : List (BitVec 64)
  imm : BitVec 32

/-- The request of a get: key and address for the reply. -/
def getRequest (queueId : ℕ) (key : Key) (raddr : BitVec 64) : Request where
  off := (getMetadataOffset queueId 0 .read).toNat
  words := [key, raddr]
  imm := htonl (bitMask 0 MsgType.read.code TxState.readBegin.code 0 0)

def invRequest (msgId : ℤ) (key : Key) : Request where
  off := (getMetadataOffset 1 msgId .invPage).toNat
  words := [key]
  imm := htonl (bitMask (BitVec.ofInt 32 msgId).toNat MsgType.invPage.code
    TxState.invPageBegin.code 0 0)

/-- How far the holder of `q->lock` is. -/
inductive ReqLock where
  | free
  | posted
  | polling
deriving DecidableEq

/-- One of the queues from 1 on. `sends` are on the way, `completions` have
arrived and wait for the daemon, `replies` wait for the client. The history: the
calls with key and address, the keys the daemon has read with the reply it made
to each, and the replies that were polled. -/
structure ReqQueue (Page : Type) where
  msgId : BitVec 32 := 0
  lock : ReqLock := .free
  sends : List Request := []
  completions : List (BitVec 32) := []
  replies : List (Reply Page) := []
  calls : List (Key × BitVec 64) := []
  handled : List (Key × Option (Reply Page)) := []
  polled : List (Reply Page) := []

namespace ReqQueue

variable {Page : Type} (q : ReqQueue Page)

/-- `dcc_rdma_write_msg` up to `poll_send_cq`. -/
def writeMsg (queueId : ℕ) (key : Key) (raddr : BitVec 64) : Option (ReqQueue Page) :=
  match q.lock with
  | .free =>
      some { q with
        lock := .posted
        sends := q.sends ++ [getRequest queueId key raddr]
        calls := q.calls ++ [(key, raddr)] }
  | _ => none

/-- `dcc_rdma_write_msg2`: only the last message of a round waits for a reply. -/
def writeMsg2 (key : Key) : Option (ReqQueue Page) :=
  match q.lock with
  | .free =>
      let msgId := slotOf q.msgId
      some { q with
        msgId := q.msgId + 1
        lock := if msgId < numMsgs - 1 then .free else .posted
        sends := q.sends ++ [invRequest msgId key]
        calls := q.calls ++ [(key, 0)] }
  | _ => none

/-- `poll_send_cq`. -/
def pollSendCq : Option (ReqQueue Page) :=
  match q.lock, q.sends with
  | .posted, [] => some { q with lock := .polling }
  | _, _ => none

/-- `poll_recv_cq`, with the lock given back after it. -/
def pollRecvCq : Option (ReqQueue Page) :=
  match q.lock, q.replies with
  | .polling, r :: replies =>
      some { q with lock := .free, replies, polled := q.polled ++ [r] }
  | _, _ => none

end ReqQueue

/-! ## Runs -/

/-- The request queues of one client and the daemon. -/
structure ReqPath (Page : Type) where
  queues : ℕ → ReqQueue Page := fun _ => {}
  server : Server Page

inductive ReqStep (Page : Type) where
  | writeMsg (cpu : ℕ) (key : Key) (raddr : BitVec 64)
  | writeMsg2 (key : Key)
  | pollSendCq (qid : ℕ)
  | pollRecvCq (qid : ℕ)
  | deliver (qid : ℕ)
  | process (qid : ℕ) (d : Draw)
  | server (a : ServerStep Page)

namespace ReqPath

variable {Page : Type}

def setQueue (s : ReqPath Page) (qid : ℕ) (q : ReqQueue Page) : ReqPath Page :=
  { s with queues := Function.update s.queues qid q }

/-- The words of the oldest request are placed, then its completion is queued. -/
def deliver (cid : ℕ) (s : ReqPath Page) (qid : ℕ) : Option (ReqPath Page) :=
  match (s.queues qid).sends, (s.server.recvs (cid, qid)).head? with
  | r :: sends, some _ =>
      let q := s.queues qid
      some
        { (s.setQueue qid { q with sends, completions := q.completions ++ [r.imm] }) with
          server := (s.server.popRecv cid qid).remoteWrite cid r.off r.words }
  | _, _ => none

/-- The daemon handles the oldest completion of a queue. -/
def process (hash : HashFuncs) (exclusivePolicy : Bool) (cid : ℕ) (s : ReqPath Page) (qid : ℕ)
    (d : Draw) : Option (ReqPath Page) :=
  match (s.queues qid).completions with
  | [] => none
  | imm :: completions =>
      let q := s.queues qid
      let r := s.server.processImm hash exclusivePolicy cid qid imm d
      some
        { (s.setQueue qid
            { q with
              completions
              replies := q.replies ++ r.2.toList
              handled :=
                q.handled ++ (s.server.requestKey cid qid imm).toList.map fun key => (key, r.2) }) with
          server := r.1 }

/-- A request of the client to the daemon, which takes the way through the
queues. -/
def Reserved (cid : ℕ) : ServerStep Page → Prop
  | .writeImm c _ _ _ _ _ => c = cid
  | _ => False

instance (cid : ℕ) : (a : ServerStep Page) → Decidable (Reserved cid a)
  | .writeImm _ _ _ _ _ _ => inferInstanceAs (Decidable (_ = _))
  | .prePostRecvs _ _ | .recvMr _ | .send _ _ _ _ _ | .evict _ _ | .allocateFromPeer _ =>
      isFalse not_false

def step (hash : HashFuncs) (exclusivePolicy : Bool) (cid : ℕ) (s : ReqPath Page) :
    ReqStep Page → Option (ReqPath Page)
  | .writeMsg cpu key raddr =>
      -- 0: put, 1: inv, 2 ~ N: get
      let qid := cpu % numGetQps + 2
      ((s.queues qid).writeMsg qid key raddr).map (s.setQueue qid)
  | .writeMsg2 key => ((s.queues 1).writeMsg2 key).map (s.setQueue 1)
  | .pollSendCq qid => (s.queues qid).pollSendCq.map (s.setQueue qid)
  | .pollRecvCq qid => (s.queues qid).pollRecvCq.map (s.setQueue qid)
  | .deliver qid => s.deliver cid qid
  | .process qid d => s.process hash exclusivePolicy cid qid d
  | .server a =>
      if Reserved cid a then none
      else (s.server.step hash exclusivePolicy a).map fun r => { s with server := r.1 }

end ReqPath

/-- From the connection on. -/
def reqSystem {Page : Type} (hash : HashFuncs) (exclusivePolicy : Bool) (cid : ℕ) :
    System (ReqPath Page) (ReqStep Page) where
  init s := s.queues = fun _ => {}
  step := ReqPath.step hash exclusivePolicy cid

end CleancacheRdma.Driver
