import Mathlib
import CleancacheRdma.Driver.Backend
import CleancacheRdma.Driver.GetReply
import CleancacheRdma.Driver.LastPut
import CleancacheRdma.Driver.Metadata
import CleancacheRdma.Driver.Requests

/-!
# The driver and the daemon

The three handlers of `backend.c`, called by any number of threads of a client,
over everything they share: the access filter, the metadata, the put queue, the
request queues and the daemon behind them. A call is a thread's place in its
handler; it is split wherever another thread can come in between.
-/

namespace CleancacheRdma.Driver

open Daemon (Slot Key HashFuncs Server ServerStep Reply Draw Usable longkeyToCid numGetQps)
open Lib (System)

/-! ## The access filter -/

/-- `struct af_bucket`. -/
structure AfBucket where
  ino : BitVec 64
  index : BitVec 64

/-- `access_filter_t`. -/
structure AccessFilter where
  numBuckets : ℕ
  buckets : ℕ → AfBucket

namespace AccessFilter

/-- `af_init`. -/
def init : AccessFilter := ⟨4096, fun _ => ⟨0, 0⟩⟩

/-- `DIFF_ABS`. -/
def diffAbs (x y : BitVec 64) : BitVec 64 := if y < x then x - y else y - x

/-- `af_upsert`. -/
def upsert (af : AccessFilter) (ino index : BitVec 64) : AccessFilter × Bool :=
  let bktId := (ino * GOLDEN_RATIO_64).toNat % af.numBuckets
  let bucket := af.buckets bktId
  -- an access very close to the one before is refused, another inode evicts
  let ret := if bucket.ino = ino then decide (¬ diffAbs bucket.index index < 32) else true
  ({ af with buckets := Function.update af.buckets bktId ⟨ino, index⟩ }, ret)

end AccessFilter

/-! ## Calls -/

deriving instance DecidableEq for Slot

/-- What callers and daemon do to a page. `invReturn` names the message that
was sent, by its number on queue 1, `invHandled` the one that was handled. -/
inductive Event (Page : Type) where
  | putCall (t : ℕ) (page : Slot Page)
  | putReturn (t : ℕ) (page : Slot Page) (ret : ℤ)
  | getCall (t : ℕ) (key : Key)
  | getReturn (t : ℕ) (key : Key) (ret : ℤ) (page : Page)
  | invCall (t : ℕ) (key : Key)
  | invReturn (t : ℕ) (key : Key) (msg : Option ℕ) (ret : ℤ)
  | invHandled (n : ℕ)
deriving DecidableEq

/-- How far a thread is in its handler. -/
inductive Call (Page : Type) where
  | idle
  /-- Before `af_upsert`. -/
  | upsert (ino index : BitVec 64) (page : Slot Page)
  /-- Before `metadata_contain` of a put. -/
  | put (page : Slot Page)
  /-- Before `dcc_rdma_send_page`. -/
  | send (page : Slot Page)
  /-- Before `metadata_add`. -/
  | add (page : Slot Page)
  /-- Before `metadata_contain` of a get; `page` is what its page holds. -/
  | get (key : Key) (page : Page)
  /-- Before the request is written. -/
  | msg (key : Key) (page : Page)
  /-- Under the lock of queue `qid`. -/
  | wait (key : Key) (qid : ℕ) (page : Page)
  /-- Before the `metadata_remove` of a get. -/
  | got (key : Key) (ret : ℤ) (page : Page)
  /-- Before `metadata_contain` of an invalidation. -/
  | inv (key : Key)
  | msg2 (key : Key)
  /-- Message `n` is the last of its round. -/
  | wait2 (key : Key) (n : ℕ)
  | sent2 (key : Key) (n : ℕ) (ret : ℤ)
  | putDone (page : Slot Page) (ret : ℤ)
  | getDone (key : Key) (ret : ℤ) (page : Page)
  | invDone (key : Key) (msg : Option ℕ) (ret : ℤ)

/-- What a call finds around it: the mark of the page, the processor, the
address its page is mapped to, and what `crc` holds before it is set. -/
structure Env where
  dirtied : Bool := false
  cpu : ℕ := 0
  raddr : BitVec 64 := 0
  crc : BitVec 32 := 0

/-- The page of a get after the reply was written. -/
def fillPage {Page : Type} (r : Reply Page) (page : Page) : Page :=
  match r.payload with
  | .page data => data
  | _ => page

/-! ## State -/

structure World (Page : Type) where
  af : Option AccessFilter
  metadata : Metadata
  put : PutRun Page
  req : ReqPath Page
  calls : ℕ → Call Page := fun _ => .idle
  log : List (Event Page) := []

/-- The key that `DECLARE_BACKEND_VAR` makes. -/
def pageKey (cid : ℕ) (ino index : BitVec 64) : Key := makeLongkey (BitVec.ofNat 64 cid) ino index

inductive WorldStep (Page : Type) where
  | putPage (t : ℕ) (ino index : BitVec 64) (page : Page)
  | getPage (t : ℕ) (ino index : BitVec 64) (page : Page)
  | invalidatePage (t : ℕ) (ino index : BitVec 64)
  | run (t : ℕ) (env : Env)
  | worker (a : PutStep Page)
  | processPut (d : Draw)
  | deliver (qid : ℕ)
  | process (qid : ℕ) (d : Draw)
  | server (a : ServerStep Page)
  | updateFilter (bf : BloomFilter)

namespace World

variable {Page : Type} (hash : HashFuncs) (exclusivePolicy : Bool) (cid : ℕ) (w : World Page)

def setCall (t : ℕ) (c : Call Page) : World Page :=
  { w with calls := Function.update w.calls t c }

def record (e : Event Page) : World Page := { w with log := w.log ++ [e] }

/-- A thread enters a handler. -/
def enter (t : ℕ) (c : Call Page) (e : Event Page) : Option (World Page) :=
  match w.calls t with
  | .idle => some ((w.setCall t c).record e)
  | _ => none

/-- `metadata_type` is set and `metadata_contain` finds nothing. -/
def Denies (key : Key) : Prop := w.metadata.isOn = true ∧ w.metadata.contain hash key = false

instance (key : Key) : Decidable (w.Denies hash key) := inferInstanceAs (Decidable (_ ∧ _))

/-- `metadata_remove`, if there is metadata. -/
def forget (key : Key) : World Page :=
  { w with
    metadata := if w.metadata.isOn then (w.metadata.remove hash key).1 else w.metadata }

/-- `poll_send_cq` and `poll_recv_cq` of the thread that holds the lock of
queue `qid`; `next` is where the reply leads it. -/
def poll (t qid : ℕ) (next : Reply Page → Option (Call Page)) : Option (World Page) :=
  match (w.req.queues qid).lock with
  | .free => none
  | .posted =>
      (w.req.step hash exclusivePolicy cid (.pollSendCq qid)).map fun req => { w with req }
  | .polling =>
      (w.req.queues qid).replies.head?.bind fun r =>
        (next r).bind fun c =>
          (w.req.step hash exclusivePolicy cid (.pollRecvCq qid)).map fun req =>
            { w with req }.setCall t c

/-- The next section of the call of thread `t`. -/
def run (t : ℕ) (env : Env) : Option (World Page) :=
  match w.calls t with
  | .idle => none
  | .upsert ino index page =>
      match w.af with
      | none => some (w.setCall t (.put page))
      | some af =>
          let r := af.upsert ino index
          some ({ w with af := some r.1 }.setCall t
            (if r.2 then .put page else .putDone page (-5)))
  | .put page =>
      let isKnown := if w.metadata.isOn then w.metadata.contain hash page.key else true
      some (w.setCall t
        (if !exclusivePolicy && isKnown && !env.dirtied then .putDone page (-3) else .send page))
  | .send page =>
      let ret := (w.put.queue.sendPage page).2
      (w.put.step (.sendPage page)).map fun put =>
        { w with put }.setCall t (if ret = 0 then .add page else .putDone page ret)
  | .add page =>
      some ({ w with
          metadata :=
            if w.metadata.isOn then w.metadata.add hash page.key else w.metadata }.setCall t
        (.putDone page 0))
  | .get key page =>
      some (w.setCall t
        (if w.Denies hash key then .getDone key (-1) page else .msg key page))
  | .msg key page =>
      (w.req.step hash exclusivePolicy cid (.writeMsg env.cpu key env.raddr)).map fun req =>
        { w with req }.setCall t (.wait key (env.cpu % numGetQps + 2) page)
  | .wait key qid page =>
      w.poll hash exclusivePolicy cid t qid fun r =>
        (GetCall.writeMsg ⟨true, true, ⟨0, r.imm⟩, env.crc, fillPage r page⟩).map fun ret =>
          .got key ret (fillPage r page)
  | .got key ret page =>
      -- don't have to remove for inclusive
      some ((if exclusivePolicy || ret ≠ 0 then w.forget hash key else w).setCall t
        (.getDone key ret page))
  | .inv key =>
      some (w.setCall t
        (if w.Denies hash key then .invDone key none (-1) else .msg2 key))
  | .msg2 key =>
      let n := (w.req.queues 1).calls.length
      (w.req.step hash exclusivePolicy cid (.writeMsg2 key)).map fun req =>
        { w with req }.setCall t
          (if (req.queues 1).lock = ReqLock.free then .sent2 key n 0 else .wait2 key n)
  | .wait2 key n =>
      w.poll hash exclusivePolicy cid t 1 fun r => some (.sent2 key n (pollRecvCq ⟨0, r.imm⟩ 0).1)
  | .sent2 key n ret => some ((w.forget hash key).setCall t (.invDone key (some n) ret))
  | .putDone page ret => some ((w.setCall t .idle).record (.putReturn t page ret))
  | .getDone key ret page => some ((w.setCall t .idle).record (.getReturn t key ret page))
  | .invDone key msg ret => some ((w.setCall t .idle).record (.invReturn t key msg ret))

/-- Queue 0 with the daemon. -/
def path : PutPath Page := ⟨w.put, w.req.server⟩

def setPath (p : PutPath Page) : World Page :=
  { w with put := p.put, req := { w.req with server := p.server } }

/-- Pages and requests of the client, which take their own ways. -/
def Reserved : ServerStep Page → Prop
  | .send c _ (.slot _) _ _ => c = cid
  | .writeImm c _ _ _ _ _ => c = cid
  | _ => False

instance : (a : ServerStep Page) → Decidable (Reserved cid a)
  | .send _ _ (.slot _) _ _ | .writeImm _ _ _ _ _ _ => inferInstanceAs (Decidable (_ = _))
  | .send _ _ (.mmInfo _) _ _ | .send _ _ .empty _ _ => isFalse not_false
  | .prePostRecvs _ _ | .recvMr _ | .evict _ _ | .allocateFromPeer _ => isFalse not_false

/-- One step of a thread, the worker, the adapter or the daemon. The filter
worker and the daemon may change a cooperative filter in any way. -/
def step : WorldStep Page → Option (World Page)
  | .putPage t ino index data =>
      let page := ⟨data, pageKey cid ino index⟩
      w.enter t (.upsert ino index page) (.putCall t page)
  | .getPage t ino index page =>
      let key := pageKey cid ino index
      w.enter t (.get key page) (.getCall t key)
  | .invalidatePage t ino index =>
      let key := pageKey cid ino index
      w.enter t (.inv key) (.invCall t key)
  | .run t env => w.run hash exclusivePolicy cid t env
  | .worker (.sendPage _) => none
  | .worker a => (w.path.step hash exclusivePolicy cid (.client a)).map w.setPath
  | .processPut d => (w.path.step hash exclusivePolicy cid (.process d)).map w.setPath
  | .deliver qid =>
      (w.req.step hash exclusivePolicy cid (.deliver qid)).map fun req => { w with req }
  | .process qid d =>
      (w.req.step hash exclusivePolicy cid (.process qid d)).map fun req =>
        let w' := { w with req }
        if qid = 1 then w'.record (.invHandled (w.req.queues 1).handled.length) else w'
  | .server a =>
      if Reserved cid a then none
      else (w.req.step hash exclusivePolicy cid (.server a)).map fun req => { w with req }
  | .updateFilter bf =>
      match w.metadata with
      | .coopBf _ => some { w with metadata := .coopBf bf }
      | _ => none

end World

/-- From the connection on, with any metadata and any access filter. -/
def worldSystem {Page : Type} (hash : HashFuncs) (exclusivePolicy : Bool) (cid : ℕ)
    (s₀ : Server Page) : System (World Page) (WorldStep Page) where
  init w := w.put.Initial ∧ (w.req.queues = fun _ => {}) ∧ w.req.server = s₀ ∧
    (w.calls = fun _ => .idle) ∧ w.log = []
  step := World.step hash exclusivePolicy cid

end CleancacheRdma.Driver
