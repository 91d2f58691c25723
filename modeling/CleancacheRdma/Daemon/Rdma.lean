import CleancacheRdma.Daemon.KV
import CleancacheRdma.Lib.System

/-!
# The daemon's side of the RDMA connections

Translated from `rdma.{hpp,cpp}` of the daemon. A completion is handled as soon
as the message has taken the oldest posted receive of its queue. A page is
known by its address, the memory behind the addresses is a field. Assertions
are compiled out, as the Release build does.
-/

namespace CleancacheRdma.Daemon

open Lib (System)
open LinearProbingApprox (EvictDraw)

/-! ## The immediate word -/

inductive MsgType where
  | writeRequest
  | writeRequestReply
  | write
  | writeReply
  | readRequest
  | readRequestReply
  | read
  | readReply
  | invPage
  | invPageReply
deriving DecidableEq

namespace MsgType

def code : MsgType → ℕ
  | writeRequest => 1
  | writeRequestReply => 2
  | write => 3
  | writeReply => 4
  | readRequest => 5
  | readRequestReply => 6
  | read => 7
  | readReply => 8
  | invPage => 9
  | invPageReply => 10

/-- The `switch` over a decoded type. -/
def ofCode : ℕ → Option MsgType
  | 1 => some writeRequest
  | 2 => some writeRequestReply
  | 3 => some write
  | 4 => some writeReply
  | 5 => some readRequest
  | 6 => some readRequestReply
  | 7 => some read
  | 8 => some readReply
  | 9 => some invPage
  | 10 => some invPageReply
  | _ => none

end MsgType

inductive TxState where
  | writeBegin
  | writeReady
  | writeCommitted
  | writeAborted
  | readBegin
  | readReady
  | readCommitted
  | readAborted
  | invPageBegin
  | invPageCommited
  | invPageAborted
deriving DecidableEq

def TxState.code : TxState → ℕ
  | writeBegin => 1
  | writeReady => 2
  | writeCommitted => 3
  | writeAborted => 4
  | readBegin => 5
  | readReady => 6
  | readCommitted => 7
  | readAborted => 8
  | invPageBegin => 9
  | invPageCommited => 10
  | invPageAborted => 11

def FILTER_UPDATE_BEGIN : BitVec 32 := 100
def FILTER_UPDATE_END : BitVec 32 := 101

/-- `bit_mask`. -/
def bitMask (mid msg tx etc crc : ℕ) : BitVec 32 :=
  (BitVec.ofNat 32 mid <<< 20) ||| (BitVec.ofNat 32 msg <<< 16) ||| (BitVec.ofNat 32 tx <<< 12) |||
    (BitVec.ofNat 32 etc <<< 8) ||| BitVec.ofNat 32 crc

/-- What `bit_unmask` stores through its pointers. -/
structure ImmFields where
  mid : ℕ
  msg : ℕ
  tx : ℕ
  etc : ℕ
  crc : ℕ
deriving DecidableEq

def bitUnmask (target : BitVec 32) : ImmFields where
  mid := ((target >>> 20) &&& 0xfff).toNat
  msg := ((target >>> 16) &&& 0xf).toNat
  tx := ((target >>> 12) &&& 0xf).toNat
  etc := ((target >>> 8) &&& 0xf).toNat
  crc := (target &&& 0xff).toNat

/-- The bytes of a word in the opposite order. -/
def htonl (x : BitVec 32) : BitVec 32 :=
  x.extractLsb' 0 8 ++ x.extractLsb' 8 8 ++ x.extractLsb' 16 8 ++ x.extractLsb' 24 8

def ntohl (x : BitVec 32) : BitVec 32 := htonl x

/-! ## Configuration and the metadata region -/

def numFilterQps : ℕ := 1
def numQps : ℕ := numDataQps + numFilterQps
def getMetadataSize : ℕ := 8 * 2
def invMetadataSize : ℕ := 8 * numMsgs
def metadataSize : ℕ := getMetadataSize + invMetadataSize

/-- `MAX_QPS_RECVS`. -/
def maxQpsRecvs : ℕ := 4096 - 1

/-- `KEY_META_REGION` for a get, less the base address. -/
def readKeyOffset (qid : ℕ) : ℕ := metadataSize * qid

/-- `KEY_META_REGION` for an invalidation. -/
def invKeyOffset (qid mid : ℕ) : ℕ := metadataSize * qid + getMetadataSize + mid * 8

/-- `ADDR_META_REGION`. -/
def addrOffset (qid : ℕ) : ℕ := readKeyOffset qid + 8

/-! ## State -/

/-- A page and the key that was sent behind it, `struct slot`. -/
structure Slot (Page : Type) where
  data : Page
  key : Key

/-- What a reply carries besides its immediate. -/
inductive Payload (Page : Type) where
  | empty
  | page (data : Page)
  | bitmap (words : List (BitVec 64))
deriving DecidableEq

/-- An `RDMA_WRITE_WITH_IMM` to the client. -/
structure Reply (Page : Type) where
  imm : BitVec 32
  payload : Payload Page
  raddr : BitVec 64

/-- A message that takes a receive without writing the metadata region. -/
inductive Message (Page : Type) where
  | slot (slot : Slot Page)
  | mmInfo (baseaddr : BitVec 64)
  | empty

/-- `recvs (cid, qid)` are the receives posted on a queue, the oldest first,
`NONE` being one without a buffer; `metaRegion cid` is the region the client
writes, by offset. -/
structure Server (Page : Type) where
  kv : KV
  mem : Value → Slot Page
  metaRegion : ℕ → ℕ → BitVec 64
  clientMR : ℕ → BitVec 64
  recvs : ℕ × ℕ → List Value

/-- What one completion draws: the list of `Allocate` or `Free`, the attempts
of `Insert`, the clock at the two lookups of a get, the CPU usage. -/
structure Draw where
  rand : ℕ := 0
  inserts : List KV.InsertDraw := []
  now : BitVec 32 := 0
  nowEnd : BitVec 32 := 0
  cpuUsage : ℕ := 0

namespace Server

variable {Page : Type} (hash : HashFuncs) (exclusivePolicy : Bool) (s : Server Page)

/-- No client has connected. -/
def new (startAddr : Value) (memPoolSize numClients numHash numBits : ℕ)
    (mem : Value → Slot Page) : Server Page where
  kv := .new startAddr memPoolSize numClients numHash numBits
  mem := mem
  metaRegion := fun _ _ => 0
  clientMR := fun _ => 0
  recvs := fun _ => []

def postRecv (cid qid : ℕ) (addr : Value) : Server Page :=
  { s with recvs := Function.update s.recvs (cid, qid) (s.recvs (cid, qid) ++ [addr]) }

/-! ## Start-up -/

/-- One pass of the loop of `pre_post_recvs`. -/
def prePostRecv (cid qid : ℕ) : Server Page :=
  if qid < numDataQps then
    match s.kv.allocate cid (some qid) 0 with
    | some (value, kv) => { s with kv }.postRecv cid qid value
    | none => s.postRecv cid qid FAILED
  else s.postRecv cid qid NONE

def prePostRecvs (cid qid : ℕ) : Server Page :=
  (fun s => prePostRecv s cid qid)^[maxQpsRecvs] s

/-- `recv_mr` of `on_connection`. -/
def recvMr (cid : ℕ) : Server Page := s.postRecv cid 0 NONE

/-! ## Completions -/

/-- `CRC8` without `DCC_CRC_CHECK`. -/
def crc8 (_buf : Page) : ℕ := 0

def processPut (cid qid mid : ℕ) (recvAddr : Value) (d : Draw) :
    Except Stop (Server Page × Option (Reply Page)) :=
  let key := (s.mem recvAddr).key
  let done : Except Stop (Server Page) :=
    match s.kv.allocate cid none d.rand with
    | none => .ok (s.postRecv cid qid recvAddr)
    | some (value, kv) =>
        let s := { s with kv }.postRecv cid qid value
        (s.kv.insert hash key recvAddr cid d.inserts).map fun kv => { s with kv }
  done.map fun s =>
    if mid = numMsgs - 1 then
      let etc := if 50 < d.cpuUsage then 1 else 0
      (s, some
        { imm := htonl (bitMask mid MsgType.writeReply.code TxState.writeCommitted.code etc 0)
          payload := .empty
          raddr := 0 })
    else (s, none)

/-- The key of a get, `*KEY_META_REGION(.., MSG_READ)`. -/
def readKey (cid qid : ℕ) : Key := s.metaRegion cid (readKeyOffset qid)

/-- The key of an invalidation, `*KEY_META_REGION(.., MSG_INV_PAGE)`. -/
def invKey (cid qid mid : ℕ) : Key := s.metaRegion cid (invKeyOffset qid mid)

def processGet (cid qid mid : ℕ) (d : Draw) : Server Page × Reply Page :=
  let key := s.readKey cid qid
  let r :=
    if exclusivePolicy then s.kv.remove hash key cid
    else s.kv.getWithFlag hash key true d.now
  let value := r.2
  let reply : Reply Page :=
    if value ≠ NONE then
      { imm := htonl (bitMask mid MsgType.readReply.code TxState.readCommitted.code 0
          (crc8 (s.mem value).data))
        payload := .page (s.mem value).data
        raddr := s.metaRegion cid (addrOffset qid) }
    else
      { imm := htonl (bitMask mid MsgType.readReply.code TxState.readAborted.code 0 0)
        payload := .empty
        raddr := s.metaRegion cid (addrOffset qid) }
  let kv :=
    if value ≠ NONE then
      if exclusivePolicy then r.1.free value cid d.rand
      else (r.1.getWithFlag hash key false d.nowEnd).1
    else r.1
  ({ s with kv }, reply)

def processInvalidatePage (cid qid mid : ℕ) (d : Draw) : Server Page × Option (Reply Page) :=
  let key := s.invKey cid qid mid
  let r := s.kv.remove hash key cid
  let value := r.2
  let kv := if value ≠ NONE then r.1.free value cid d.rand else r.1
  ({ s with kv },
    if mid = numMsgs - 1 then
      let tx := if value ≠ NONE then TxState.invPageCommited else TxState.invPageAborted
      some
        { imm := htonl (bitMask mid MsgType.invPageReply.code tx.code 0 0)
          payload := .empty
          raddr := 0 }
    else none)

def processImm (cid qid : ℕ) (imm : BitVec 32) (d : Draw) : Server Page × Option (Reply Page) :=
  let f := bitUnmask (ntohl imm)
  match MsgType.ofCode f.msg with
  | some .read =>
      let r := (s.postRecv cid qid NONE).processGet hash exclusivePolicy cid qid f.mid d
      (r.1, some r.2)
  | some .invPage =>
      (s.postRecv cid qid NONE).processInvalidatePage hash cid qid f.mid d
  -- `assert(0)` for `MSG_WRITE`, a line on `stderr` for the others
  | _ => (s, none)

/-- `send_bf`. -/
def sendBf (cid : ℕ) : Reply Page where
  imm := FILTER_UPDATE_END
  payload := .bitmap ((List.range (s.kv.cbfs cid).numLongs).map (s.kv.cbfs cid).bfLongBitarr)
  raddr := s.clientMR cid

def processRecv (cid qid : ℕ) (wrId : Value) (imm : BitVec 32) (d : Draw) :
    Except Stop (Server Page × Option (Reply Page)) :=
  if qid = numDataQps ∧ imm = FILTER_UPDATE_BEGIN then
    let kv := { s.kv with
      cbfs := Function.update s.kv.cbfs cid (s.kv.cbfs cid).toOrdinaryBF }
    let s := { s with kv }
    .ok (s.postRecv cid qid NONE, some (s.sendBf cid))
  else if wrId = NONE then .ok (s, none)
  else s.processPut hash cid qid (bitUnmask (ntohl imm)).mid wrId d

/-! ## Messages -/

/-- The oldest receive of a queue is used up. -/
def popRecv (cid qid : ℕ) : Server Page :=
  { s with recvs := Function.update s.recvs (cid, qid) (s.recvs (cid, qid)).tail }

/-- Where a message lands. A page needs a buffer of the registered pool. The other
two have none: the client's region is expected by the receive of `recv_mr`, and an
empty message comes on the filter queue, where no receive has a buffer. -/
def deliver (cid : ℕ) (addr : Value) : Message Page → Option (Server Page)
  | .slot slot =>
      if addr = NONE ∨ addr = FAILED then none
      else some { s with mem := Function.update s.mem addr slot }
  | .mmInfo baseaddr =>
      if addr = NONE then some { s with clientMR := Function.update s.clientMR cid baseaddr }
      else none
  | .empty => if addr = NONE then some s else none

/-- Words of eight bytes, stored one after the other. -/
def storeWords : ℕ → List (BitVec 64) → (ℕ → BitVec 64) → ℕ → BitVec 64
  | _, [], region => region
  | off, w :: ws, region => storeWords (off + 8) ws (Function.update region off w)

/-- A client writes its part of the metadata. -/
def remoteWrite (cid off : ℕ) (words : List (BitVec 64)) : Server Page :=
  { s with
    metaRegion :=
      Function.update s.metaRegion cid (storeWords off words (s.metaRegion cid)) }

end Server

/-- What happens to the daemon. -/
inductive ServerStep (Page : Type) where
  | prePostRecvs (cid qid : ℕ)
  | recvMr (cid : ℕ)
  | send (cid qid : ℕ) (msg : Message Page) (imm : BitVec 32) (d : Draw)
  | writeImm (cid qid off : ℕ) (words : List (BitVec 64)) (imm : BitVec 32) (d : Draw)
  | evict (draws : List EvictDraw) (rand : ℕ)
  | allocateFromPeer (fl : ℕ)

namespace Server

variable {Page : Type} (hash : HashFuncs) (exclusivePolicy : Bool) (s : Server Page)

/-- One step and the reply it sends; `none` if no receive is posted or the
daemon does not come back from the call. -/
def step : ServerStep Page → Option (Server Page × Option (Reply Page))
  | .prePostRecvs cid qid => some (s.prePostRecvs cid qid, none)
  | .recvMr cid => some (s.recvMr cid, none)
  | .send cid qid msg imm d =>
      match (s.recvs (cid, qid)).head? with
      | none => none
      | some addr =>
          ((s.popRecv cid qid).deliver cid addr msg).bind fun s =>
            (s.processRecv hash cid qid addr imm d).toOption
  | .writeImm cid qid off words imm d =>
      match (s.recvs (cid, qid)).head? with
      | none => none
      | some _ =>
          some (((s.popRecv cid qid).remoteWrite cid off words).processImm hash exclusivePolicy
            cid qid imm d)
  | .evict draws rand => (s.kv.evict hash draws rand).toOption.map fun kv => ({ s with kv }, none)
  | .allocateFromPeer fl =>
      (s.kv.pool.allocateFromPeer fl).map fun r =>
        ({ s with kv := { s.kv with pool := r.2 } }, none)

end Server

/-! ## What the handlers do -/

namespace Server

variable {Page : Type} {hash : HashFuncs} {exclusivePolicy : Bool} {s s' : Server Page}

@[simp] theorem postRecv_kv (cid qid : ℕ) (addr : Value) :
    (s.postRecv cid qid addr).kv = s.kv := rfl
@[simp] theorem postRecv_mem (cid qid : ℕ) (addr : Value) :
    (s.postRecv cid qid addr).mem = s.mem := rfl
@[simp] theorem postRecv_metaRegion (cid qid : ℕ) (addr : Value) :
    (s.postRecv cid qid addr).metaRegion = s.metaRegion := rfl

/-- Once the lists of a client are empty, every further pass posts the failure
value. -/
theorem iterate_prePostRecv_exhausted {cid qid : ℕ} (hqid : qid < numDataQps) (n : ℕ) :
    ∀ {s : Server Page}, s.kv.allocate cid (some qid) 0 = none →
      (fun s => prePostRecv s cid qid)^[n] s =
        { s with
          recvs := Function.update s.recvs (cid, qid)
            (s.recvs (cid, qid) ++ List.replicate n FAILED) } := by
  induction n with
  | zero => intro s _; simp
  | succ n ih =>
      intro s hnone
      have hone : prePostRecv s cid qid = s.postRecv cid qid FAILED := by
        rw [prePostRecv, if_pos hqid, hnone]
      rw [Function.iterate_succ_apply, hone, ih (s := s.postRecv cid qid FAILED) hnone]
      simp [postRecv, List.replicate_succ]

theorem prePostRecvs_exhausted {cid qid : ℕ} (hqid : qid < numDataQps) {n : ℕ}
    (hn : n ≤ maxQpsRecvs) {t : Server Page} (ht : (fun s => prePostRecv s cid qid)^[n] s = t)
    (hnone : t.kv.allocate cid (some qid) 0 = none) :
    s.prePostRecvs cid qid =
      { t with
        recvs := Function.update t.recvs (cid, qid)
          (t.recvs (cid, qid) ++ List.replicate (maxQpsRecvs - n) FAILED) } := by
  rw [prePostRecvs, ← Nat.sub_add_cancel hn, Function.iterate_add_apply, ht,
    iterate_prePostRecv_exhausted hqid _ hnone, Nat.sub_add_cancel hn]

/-- A put posts its receive again, or it posts a new page and inserts the one
it received. -/
theorem processPut_ok {cid qid mid : ℕ} {recvAddr : Value} {d : Draw}
    {r : Option (Reply Page)} (hr : s.processPut hash cid qid mid recvAddr d = .ok (s', r)) :
    (s.kv.allocate cid none d.rand = none ∧ s' = s.postRecv cid qid recvAddr) ∨
    ∃ value kv kv', s.kv.allocate cid none d.rand = some (value, kv) ∧
      kv.insert hash (s.mem recvAddr).key recvAddr cid d.inserts = .ok kv' ∧
      s' = { s.postRecv cid qid value with kv := kv' } := by
  have hdone : ∀ {x : Except Stop (Server Page)} {f : Server Page → Server Page × Option (Reply Page)},
      (∀ t, (f t).1 = t) → x.map f = .ok (s', r) → x = .ok s' := by
    intro x f hf hx
    cases x with
    | error e => cases hx
    | ok t =>
        have ht := congrArg Prod.fst (Except.ok.inj hx)
        rw [hf] at ht
        exact congrArg Except.ok ht
  have h := hdone (fun t => by split <;> rfl) hr
  cases halloc : s.kv.allocate cid none d.rand with
  | none =>
      rw [halloc] at h
      cases h
      exact Or.inl ⟨rfl, rfl⟩
  | some v =>
      obtain ⟨value, kv⟩ := v
      rw [halloc] at h
      refine Or.inr ⟨value, kv, ?_⟩
      change (kv.insert hash (s.mem recvAddr).key recvAddr cid d.inserts).map _ = _ at h
      cases hins : kv.insert hash (s.mem recvAddr).key recvAddr cid d.inserts with
      | error e =>
          rw [hins] at h
          cases h
      | ok kv' =>
          rw [hins] at h
          cases h
          exact ⟨kv', rfl, rfl, rfl⟩

theorem processPut_of_insert {cid qid mid : ℕ} {recvAddr value : Value} {d : Draw} {kv kv' : KV}
    (halloc : s.kv.allocate cid none d.rand = some (value, kv))
    (hins : kv.insert hash (s.mem recvAddr).key recvAddr cid d.inserts = .ok kv') :
    ∃ r, s.processPut hash cid qid mid recvAddr d =
      .ok ({ s.postRecv cid qid value with kv := kv' }, r) := by
  unfold processPut
  rw [halloc]
  change ∃ r, Except.map _ (Except.map _ (kv.insert hash (s.mem recvAddr).key recvAddr cid
    d.inserts)) = _
  rw [hins]
  simp only [Except.map]
  split
  · exact ⟨_, rfl⟩
  · exact ⟨_, rfl⟩

theorem processGet_exclusive (cid qid mid : ℕ) (d : Draw) :
    (s.processGet hash true cid qid mid d).1 =
      { s with kv := s.kv.removeFree hash (s.metaRegion cid (readKeyOffset qid)) cid d.rand } := rfl

/-- The busy flag is set and, if the key was found, cleared. -/
theorem processGet_inclusive (cid qid mid : ℕ) (d : Draw) :
    let key := s.metaRegion cid (readKeyOffset qid)
    let flagged := s.kv.getWithFlag hash key true d.now
    (s.processGet hash false cid qid mid d).1 =
      { s with kv := if flagged.2 ≠ NONE then (flagged.1.getWithFlag hash key false d.nowEnd).1
        else flagged.1 } := rfl

theorem processInvalidatePage_fst (cid qid mid : ℕ) (d : Draw) :
    (s.processInvalidatePage hash cid qid mid d).1 =
      { s with kv := s.kv.removeFree hash (s.metaRegion cid (invKeyOffset qid mid)) cid d.rand } :=
  rfl

/-- The key the handler of an immediate reads from the metadata region. -/
def requestKey (s : Server Page) (cid qid : ℕ) (imm : BitVec 32) : Option Key :=
  match MsgType.ofCode (bitUnmask (ntohl imm)).msg with
  | some .read => some (s.readKey cid qid)
  | some .invPage => some (s.invKey cid qid (bitUnmask (ntohl imm)).mid)
  | _ => none

/-- A get, an invalidation, or nothing. -/
theorem processImm_cases (hash : HashFuncs) (exclusivePolicy : Bool) (s : Server Page)
    (cid qid : ℕ) (imm : BitVec 32) (d : Draw) :
    (s.requestKey cid qid imm = some (s.metaRegion cid (readKeyOffset qid)) ∧
      ∃ mid, s.processImm hash exclusivePolicy cid qid imm d =
        (((s.postRecv cid qid NONE).processGet hash exclusivePolicy cid qid mid d).1,
          some ((s.postRecv cid qid NONE).processGet hash exclusivePolicy cid qid mid d).2)) ∨
    (∃ mid, s.requestKey cid qid imm = some (s.metaRegion cid (invKeyOffset qid mid)) ∧
      s.processImm hash exclusivePolicy cid qid imm d =
        (s.postRecv cid qid NONE).processInvalidatePage hash cid qid mid d) ∨
    (s.requestKey cid qid imm = none ∧
      s.processImm hash exclusivePolicy cid qid imm d = (s, none)) := by
  unfold requestKey processImm
  cases htype : MsgType.ofCode (bitUnmask (ntohl imm)).msg with
  | none => exact Or.inr (Or.inr ⟨rfl, by simp only [htype]⟩)
  | some m =>
      cases m with
      | read => exact Or.inl ⟨rfl, (bitUnmask (ntohl imm)).mid, by simp only [htype]⟩
      | invPage => exact Or.inr (Or.inl ⟨_, rfl, by simp only [htype]⟩)
      | _ => exact Or.inr (Or.inr ⟨rfl, by simp only [htype]⟩)

/-- A message leaves store and receives alone. Behind a receive with a buffer
lies the page it carried. -/
theorem deliver_some {cid : ℕ} {addr : Value} {msg : Message Page}
    (h : s.deliver cid addr msg = some s') :
    s'.kv = s.kv ∧ s'.recvs = s.recvs ∧
      ((addr = NONE ∧ s'.mem = s.mem) ∨
        (addr ≠ NONE ∧ addr ≠ FAILED ∧
          ∃ b, msg = .slot b ∧ s'.mem = Function.update s.mem addr b)) := by
  cases msg with
  | slot b =>
      simp only [deliver] at h
      split at h
      · cases h
      next hne =>
        cases h
        push Not at hne
        exact ⟨rfl, rfl, Or.inr ⟨hne.1, hne.2, b, rfl, rfl⟩⟩
  | mmInfo baseaddr =>
      simp only [deliver] at h
      split at h
      next hnone =>
        cases h
        exact ⟨rfl, rfl, Or.inl ⟨hnone, rfl⟩⟩
      · cases h
  | empty =>
      simp only [deliver] at h
      split at h
      next hnone =>
        cases h
        exact ⟨rfl, rfl, Or.inl ⟨hnone, rfl⟩⟩
      · cases h

theorem step_send {cid qid : ℕ} {msg : Message Page} {imm : BitVec 32} {d : Draw}
    {r : Option (Reply Page)}
    (h : s.step hash exclusivePolicy (.send cid qid msg imm d) = some (s', r)) :
    ∃ addr t, (s.recvs (cid, qid)).head? = some addr ∧
      (s.popRecv cid qid).deliver cid addr msg = some t ∧
      t.processRecv hash cid qid addr imm d = .ok (s', r) := by
  simp only [step] at h
  split at h
  · cases h
  next addr hhead =>
    obtain ⟨t, hdeliver, hrecv⟩ := Option.bind_eq_some_iff.mp h
    exact ⟨addr, t, hhead, hdeliver, toOption_some hrecv⟩

theorem step_writeImm {cid qid off : ℕ} {words : List (BitVec 64)} {imm : BitVec 32} {d : Draw}
    {r : Option (Reply Page)}
    (h : s.step hash exclusivePolicy (.writeImm cid qid off words imm d) = some (s', r)) :
    ∃ addr, (s.recvs (cid, qid)).head? = some addr ∧
      ((s.popRecv cid qid).remoteWrite cid off words).processImm hash exclusivePolicy cid qid
        imm d = (s', r) := by
  simp only [step] at h
  split at h
  · cases h
  next addr hhead => exact ⟨addr, hhead, Option.some.inj h⟩

theorem step_evict {draws : List EvictDraw} {rand : ℕ} {r : Option (Reply Page)}
    (h : s.step hash exclusivePolicy (.evict draws rand) = some (s', r)) :
    ∃ kv, s.kv.evict hash draws rand = .ok kv ∧ s' = { s with kv } ∧ r = none := by
  obtain ⟨kv, hev, heq⟩ := Option.map_eq_some_iff.mp h
  cases heq
  exact ⟨kv, toOption_some hev, rfl, rfl⟩

theorem step_allocateFromPeer {fl : ℕ} {r : Option (Reply Page)}
    (h : s.step hash exclusivePolicy (.allocateFromPeer fl) = some (s', r)) :
    ∃ a pool, s.kv.pool.allocateFromPeer fl = some (a, pool) ∧
      s' = { s with kv := { s.kv with pool } } ∧ r = none := by
  obtain ⟨⟨a, pool⟩, halloc, heq⟩ := Option.map_eq_some_iff.mp h
  cases heq
  exact ⟨a, pool, halloc, rfl, rfl⟩

end Server

/-- The daemon from the start on. -/
def serverSystem {Page : Type} (hash : HashFuncs) (exclusivePolicy : Bool) (s₀ : Server Page) :
    System (Server Page) (ServerStep Page) where
  init s := s = s₀
  step s a := (s.step hash exclusivePolicy a).map Prod.fst

theorem serverSystem_step {Page : Type} {hash : HashFuncs} {exclusivePolicy : Bool}
    {s₀ s s' : Server Page} {a : ServerStep Page}
    (h : (serverSystem hash exclusivePolicy s₀).step s a = some s') :
    ∃ r, s.step hash exclusivePolicy a = some (s', r) := by
  obtain ⟨⟨t, r⟩, hs, rfl⟩ := Option.map_eq_some_iff.mp h
  exact ⟨r, hs⟩

theorem serverSystem_prePostRecvs {Page : Type} {hash : HashFuncs} {exclusivePolicy : Bool}
    {s₀ s s' : Server Page} {cid qid : ℕ} (h : s.prePostRecvs cid qid = s') :
    (serverSystem hash exclusivePolicy s₀).step s (.prePostRecvs cid qid) = some s' := by
  simp only [serverSystem, Server.step, Option.map_some, h]

end CleancacheRdma.Daemon
