import Mathlib
import CleancacheRdma.Driver.Requests

/-!
# Requests and their metadata

The requests of a queue pass through three places, on the way, delivered, read.
A delivered request stays written in the metadata region until the daemon reads
it: the regions of two queues are apart, a get queue has one request at a time,
and the invalidations between two replies have different slots.
-/

namespace CleancacheRdma.Daemon.Server

variable {Page : Type} {hash : HashFuncs} {exclusivePolicy : Bool} {s s' : Server Page}

/-! ## The metadata region -/

theorem storeWords_of_ne {x : ℕ} : ∀ {ws : List (BitVec 64)} {off : ℕ} {region : ℕ → BitVec 64},
    (∀ i < ws.length, x ≠ off + 8 * i) → storeWords off ws region x = region x := by
  intro ws
  induction ws with
  | nil => intro off region _; rfl
  | cons w ws ih =>
      intro off region hne
      rw [storeWords, ih fun i hi he => hne (i + 1) (Nat.succ_lt_succ hi) (by rw [he]; ring)]
      exact Function.update_of_ne (hne 0 (Nat.succ_pos _)) _ _

theorem storeWords_get : ∀ {ws : List (BitVec 64)} {off i : ℕ} {region : ℕ → BitVec 64}
    {w : BitVec 64}, ws[i]? = some w → storeWords off ws region (off + 8 * i) = w := by
  intro ws
  induction ws with
  | nil => intro off i region w hw; cases hw
  | cons v ws ih =>
      intro off i region w hw
      rw [storeWords]
      cases i with
      | zero =>
          rw [storeWords_of_ne fun j _ => by omega]
          exact (Function.update_self _ _ _).trans (Option.some.inj hw)
      | succ i =>
          have hoff : off + 8 * (i + 1) = off + 8 + 8 * i := by ring
          rw [hoff]
          exact ih hw

theorem prePostRecvs_metaRegion (cid qid : ℕ) :
    (s.prePostRecvs cid qid).metaRegion = s.metaRegion := by
  have hone : ∀ t : Server Page, (t.prePostRecv cid qid).metaRegion = t.metaRegion := by
    intro t
    unfold prePostRecv
    split
    · split
      · rfl
      · rfl
    · rfl
  have hloop : ∀ n, ((fun s => prePostRecv s cid qid)^[n] s).metaRegion = s.metaRegion := by
    intro n
    induction n with
    | zero => rfl
    | succ n ih => rw [Function.iterate_succ_apply', hone, ih]
  unfold prePostRecvs
  exact hloop maxQpsRecvs

theorem processImm_metaRegion (cid qid : ℕ) (imm : BitVec 32) (d : Draw) :
    (s.processImm hash exclusivePolicy cid qid imm d).1.metaRegion = s.metaRegion := by
  rcases processImm_cases hash exclusivePolicy s cid qid imm d with
    ⟨-, mid, heq⟩ | ⟨mid, -, heq⟩ | ⟨-, heq⟩
  · rw [heq]
    rfl
  · rw [heq]
    rfl
  · rw [heq]

theorem processGet_raddr (cid qid mid : ℕ) (d : Draw) :
    (s.processGet hash exclusivePolicy cid qid mid d).2.raddr = s.metaRegion cid (addrOffset qid) := by
  unfold processGet
  dsimp only
  rw [apply_ite Reply.raddr, ite_self]

theorem processRecv_metaRegion {cid qid : ℕ} {wrId : Value} {imm : BitVec 32} {d : Draw}
    {r : Option (Reply Page)} (hr : s.processRecv hash cid qid wrId imm d = .ok (s', r)) :
    s'.metaRegion = s.metaRegion := by
  unfold processRecv at hr
  split at hr
  · cases hr
    rfl
  · split at hr
    · cases hr
      rfl
    · rcases processPut_ok hr with ⟨-, rfl⟩ | ⟨value, kv, kv', -, -, rfl⟩
      · rfl
      · rfl

theorem deliver_metaRegion {cid : ℕ} {addr : Value} {msg : Message Page}
    (h : s.deliver cid addr msg = some s') : s'.metaRegion = s.metaRegion := by
  cases msg with
  | slot _ =>
      simp only [deliver] at h
      split at h
      · cases h
      · cases h
        rfl
  | mmInfo _ | empty =>
      simp only [deliver] at h
      split at h
      · cases h
        rfl
      · cases h

/-- Only a client writes its region. -/
theorem step_metaRegion {cid : ℕ} {a : ServerStep Page}
    (ha : ∀ qid off words imm d, a ≠ .writeImm cid qid off words imm d)
    {r : Option (Reply Page)} (hstep : s.step hash exclusivePolicy a = some (s', r)) :
    s'.metaRegion cid = s.metaRegion cid := by
  cases a with
  | prePostRecvs c qid =>
      simp only [step, Option.some.injEq, Prod.mk.injEq] at hstep
      rw [← hstep.1, prePostRecvs_metaRegion]
  | recvMr c =>
      cases hstep
      rfl
  | send c qid msg imm d =>
      obtain ⟨addr, t, -, hdeliver, hrecv⟩ := step_send hstep
      rw [processRecv_metaRegion hrecv, deliver_metaRegion hdeliver]
      rfl
  | writeImm c qid off words imm d =>
      obtain ⟨addr, -, himm⟩ := step_writeImm hstep
      have hc : c ≠ cid := fun he => ha qid off words imm d (by rw [he])
      have hfst := congrArg Prod.fst himm
      change _ = s' at hfst
      rw [← hfst, processImm_metaRegion]
      exact Function.update_of_ne (Ne.symm hc) _ _
  | evict draws rand =>
      obtain ⟨kv, -, rfl, -⟩ := step_evict hstep
      rfl
  | allocateFromPeer fl =>
      obtain ⟨_, _, -, rfl, -⟩ := step_allocateFromPeer hstep
      rfl

end CleancacheRdma.Daemon.Server

namespace CleancacheRdma.Driver

open Daemon (Key HashFuncs Server Reply Draw MsgType TxState ImmFields bitMask bitUnmask htonl ntohl
  numMsgs numDataQps readKeyOffset invKeyOffset addrOffset bitUnmask_wire)
open Lib (System)

/-! ## Requests as the daemon reads them -/

namespace Request

def key (r : Request) : Key := r.words.headD 0

/-- The address for the reply. An invalidation has none, its reply goes to 0. -/
def raddr (r : Request) : BitVec 64 := r.words.getD 1 0

/-- The daemon replies, and the client waits for it. -/
def Asks (r : Request) : Prop :=
  (bitUnmask (ntohl r.imm)).msg = MsgType.read.code ∨ (bitUnmask (ntohl r.imm)).mid = numMsgs - 1

instance (r : Request) : Decidable r.Asks := inferInstanceAs (Decidable (_ ∨ _))

/-- The key a handler has to read and the address it has to reply to. -/
def due (r : Request) : Key × Option (BitVec 64) :=
  (r.key, if r.Asks then some r.raddr else none)

/-- The region holds the words of the request. -/
def Written (region : ℕ → BitVec 64) (r : Request) : Prop :=
  ∀ i w, r.words[i]? = some w → region (r.off + 8 * i) = w

/-- Two requests have no byte in common. -/
def Apart (r t : Request) : Prop :=
  r.off + 8 * r.words.length ≤ t.off ∨ t.off + 8 * t.words.length ≤ r.off

variable {region : ℕ → BitVec 64} {r t : Request}

theorem written_storeWords : r.Written (Server.storeWords r.off r.words region) :=
  fun _ _ hw => Server.storeWords_get hw

theorem Written.storeWords (h : r.Written region) (hapart : r.Apart t) :
    r.Written (Server.storeWords t.off t.words region) := by
  intro i w hw
  have hi : i < r.words.length := (List.getElem?_eq_some_iff.mp hw).1
  rw [Server.storeWords_of_ne fun j hj => ?_]
  · exact h i w hw
  · rcases hapart with hle | hle
    · omega
    · omega

end Request

/-! ## Both layouts agree -/

theorem getRequest_off {qid : ℕ} (hqid : qid < numDataQps) (key : Key) (raddr : BitVec 64) :
    (getRequest qid key raddr).off = readKeyOffset qid := by
  have hlt : qid < 8 := hqid
  have hsize : metadataSize = 4112 := rfl
  show (BitVec.ofNat 64 metadataSize * BitVec.ofNat 64 qid).toNat = Daemon.metadataSize * qid
  have hdaemon : Daemon.metadataSize = 4112 := rfl
  rw [hsize, hdaemon, BitVec.toNat_mul, BitVec.toNat_ofNat, BitVec.toNat_ofNat]
  omega

theorem invRequest_off {m : ℕ} (hm : m < numMsgs) (key : Key) :
    (invRequest m key).off = invKeyOffset 1 m := by
  have hlt : m < 512 := hm
  show (BitVec.ofNat 64 4112 * BitVec.ofNat 64 1 + BitVec.ofNat 64 16 +
    BitVec.ofInt 64 (m : ℤ) * 8).toNat = 4112 * 1 + 16 + m * 8
  rw [BitVec.ofInt_natCast, BitVec.toNat_add, BitVec.toNat_mul, BitVec.toNat_ofNat]
  have h8 : (8 : BitVec 64).toNat = 8 := rfl
  have hbase : (BitVec.ofNat 64 4112 * BitVec.ofNat 64 1 + BitVec.ofNat 64 16).toNat = 4128 := rfl
  rw [h8, hbase]
  omega

theorem getRequest_imm (qid : ℕ) (key : Key) (raddr : BitVec 64) :
    bitUnmask (ntohl (getRequest qid key raddr).imm) =
      ⟨0, MsgType.read.code, TxState.readBegin.code, 0, 0⟩ :=
  bitUnmask_wire (f := ⟨0, MsgType.read.code, TxState.readBegin.code, 0, 0⟩)
    ⟨by decide, by decide, by decide, by decide, by decide⟩

theorem invRequest_imm {m : ℕ} (hm : m < numMsgs) (key : Key) :
    bitUnmask (ntohl (invRequest m key).imm) =
      ⟨m, MsgType.invPage.code, TxState.invPageBegin.code, 0, 0⟩ := by
  have hlt : m < 512 := hm
  have hval : (BitVec.ofInt 32 (m : ℤ)).toNat = m := by
    rw [BitVec.ofInt_natCast, BitVec.toNat_ofNat]
    omega
  show bitUnmask (ntohl (htonl (bitMask (BitVec.ofInt 32 (m : ℤ)).toNat _ _ 0 0))) = _
  rw [hval]
  have hfits : (⟨m, MsgType.invPage.code, TxState.invPageBegin.code, 0, 0⟩ : ImmFields).Fits := by
    refine ⟨?_, (by decide : 9 < 2 ^ 4), (by decide : 9 < 2 ^ 4), (by decide : 0 < 2 ^ 4),
      (by decide : 0 < 2 ^ 8)⟩
    show m < 2 ^ 12
    omega
  exact bitUnmask_wire (f := ⟨m, MsgType.invPage.code, TxState.invPageBegin.code, 0, 0⟩) hfits

/-- While the counter is below the sign bit, the slot is its remainder. -/
theorem slotOf_natCast {n : ℕ} (hn : n < 2 ^ 31) :
    slotOf (BitVec.ofNat 32 n) = ((n % numMsgs : ℕ) : ℤ) := by
  have hint : (BitVec.ofNat 32 n).toInt = n := by
    rw [BitVec.toInt_eq_toNat_of_lt, BitVec.toNat_ofNat, Nat.mod_eq_of_lt (by omega)]
    rw [BitVec.toNat_ofNat]
    omega
  rw [slotOf, hint]
  rfl

/-- The request of the `n`-th call of a queue. -/
def request (qid n : ℕ) (call : Key × BitVec 64) : Request :=
  if qid = 1 then invRequest (n % numMsgs : ℕ) call.1 else getRequest qid call.1 call.2

section Layout

variable {qid n : ℕ} {call : Key × BitVec 64}

theorem request_key : (request qid n call).key = call.1 := by
  unfold request
  split
  · rfl
  · rfl

theorem request_inv (n : ℕ) (call : Key × BitVec 64) :
    request 1 n call = invRequest (n % numMsgs : ℕ) call.1 := if_pos rfl

theorem request_get (hqid : qid ≠ 1) (n : ℕ) (call : Key × BitVec 64) :
    request qid n call = getRequest qid call.1 call.2 := if_neg hqid

theorem slot_lt (n : ℕ) : n % numMsgs < numMsgs := Nat.mod_lt n (by decide)

theorem request_asks_get (hqid : qid ≠ 1) : (request qid n call).Asks := by
  rw [request_get hqid]
  unfold Request.Asks
  rw [getRequest_imm]
  exact Or.inl rfl

theorem request_asks_inv (n : ℕ) (call : Key × BitVec 64) :
    (request 1 n call).Asks ↔ n % numMsgs = numMsgs - 1 := by
  rw [request_inv]
  unfold Request.Asks
  rw [invRequest_imm (slot_lt n)]
  constructor
  · rintro (h | h)
    · cases h
    · exact h
  · exact Or.inr

theorem request_due_get (hqid : qid ≠ 1) : (request qid n call).due = (call.1, some call.2) := by
  rw [Request.due, if_pos (request_asks_get hqid), request_key, request_get hqid]
  rfl

/-- The bytes of a request lie in the part of its queue. -/
theorem request_bounds (hqid : qid < numDataQps) (n : ℕ) (call : Key × BitVec 64) :
    Daemon.metadataSize * qid ≤ (request qid n call).off ∧
      (request qid n call).off + 8 * (request qid n call).words.length ≤
        Daemon.metadataSize * (qid + 1) := by
  have hsize : Daemon.metadataSize = 4112 := rfl
  have hget : Daemon.getMetadataSize = 16 := rfl
  by_cases h : qid = 1
  · subst h
    have hslot : n % numMsgs < 512 := slot_lt n
    have hlen : (invRequest (n % numMsgs : ℕ) call.1).words.length = 1 := rfl
    rw [request_inv, invRequest_off (slot_lt n), invKeyOffset, hlen, hsize, hget]
    omega
  · have hlen : (getRequest qid call.1 call.2).words.length = 2 := rfl
    rw [request_get h, getRequest_off hqid, readKeyOffset, hlen, hsize]
    omega

theorem request_apart {qid' n' : ℕ} {call' : Key × BitVec 64} (hqid : qid < numDataQps)
    (hqid' : qid' < numDataQps) (hne : qid ≠ qid') :
    (request qid n call).Apart (request qid' n' call') := by
  obtain ⟨hlow, hhigh⟩ := request_bounds hqid n call
  obtain ⟨hlow', hhigh'⟩ := request_bounds hqid' n' call'
  rcases Nat.lt_or_gt_of_ne hne with hlt | hgt
  · exact Or.inl (hhigh.trans ((Nat.mul_le_mul_left _ hlt).trans hlow'))
  · exact Or.inr (hhigh'.trans ((Nat.mul_le_mul_left _ hgt).trans hlow))

theorem request_apart_inv {n' : ℕ} {call' : Key × BitVec 64} (hne : n % numMsgs ≠ n' % numMsgs) :
    (request 1 n call).Apart (request 1 n' call') := by
  have hlen : ∀ m : ℕ, (invRequest m call.1).words.length = 1 := fun _ => rfl
  have hlen' : ∀ m : ℕ, (invRequest m call'.1).words.length = 1 := fun _ => rfl
  unfold Request.Apart
  rw [request_inv, request_inv, invRequest_off (slot_lt n), invRequest_off (slot_lt n'), hlen, hlen',
    invKeyOffset, invKeyOffset]
  omega

/-- The address of a get lies behind its key. -/
theorem written_addr {region : ℕ → BitVec 64} (hqid : qid < numDataQps) (hne : qid ≠ 1)
    (hwritten : (request qid n call).Written region) : region (addrOffset qid) = call.2 := by
  have hraddr := hwritten 1 call.2 (by rw [request_get hne]; rfl)
  rwa [request_get hne, getRequest_off hqid] at hraddr

variable {Page : Type} {hash : HashFuncs} {exclusivePolicy : Bool} {cid : ℕ} {s : Server Page}

/-- The handler of a request that is written reads its key. -/
theorem requestKey_request (hqid : qid < numDataQps)
    (hwritten : (request qid n call).Written (s.metaRegion cid)) :
    s.requestKey cid qid (request qid n call).imm = some call.1 := by
  by_cases h : qid = 1
  · subst h
    have hkey := hwritten 0 call.1 (by rw [request_inv]; rfl)
    have htype : MsgType.ofCode MsgType.invPage.code = some .invPage := rfl
    rw [request_inv, invRequest_off (slot_lt n)] at hkey
    rw [request_inv, Server.requestKey, invRequest_imm (slot_lt n), htype]
    exact congrArg some hkey
  · have hkey := hwritten 0 call.1 (by rw [request_get h]; rfl)
    have htype : MsgType.ofCode MsgType.read.code = some .read := rfl
    rw [request_get h, getRequest_off hqid] at hkey
    rw [request_get h, Server.requestKey, getRequest_imm, htype]
    exact congrArg some hkey

/-- It replies if asked to, and to the address of the request. -/
theorem processImm_request (hqid : qid < numDataQps)
    (hwritten : (request qid n call).Written (s.metaRegion cid)) (d : Draw) :
    (s.processImm hash exclusivePolicy cid qid (request qid n call).imm d).2.map (·.raddr) =
      (request qid n call).due.2 := by
  by_cases h : qid = 1
  · subst h
    have himm := invRequest_imm (slot_lt n) call.1
    have htype : MsgType.ofCode MsgType.invPage.code = some .invPage := rfl
    have hasks := request_asks_inv n call
    rw [request_inv] at hasks
    rw [Request.due, request_inv, Server.processImm, himm, htype]
    dsimp only [Server.processInvalidatePage]
    split
    next hlast =>
      rw [if_pos (hasks.mpr hlast)]
      rfl
    next hlast =>
      rw [if_neg fun h => hlast (hasks.mp h)]
      rfl
  · have hraddr := written_addr hqid h hwritten
    have htype : MsgType.ofCode MsgType.read.code = some .read := rfl
    rw [request_due_get h, request_get h, Server.processImm, getRequest_imm, htype]
    exact congrArg some ((Server.processGet_raddr cid qid 0 d).trans hraddr)

end Layout

/-! ## One queue -/

namespace ReqQueue

variable {Page : Type} {qid : ℕ} {region : ℕ → BitVec 64} {q : ReqQueue Page}
  {done pend : List Request}

/-- The requests of all calls so far. -/
def requests (qid : ℕ) (q : ReqQueue Page) : List Request := q.calls.mapIdx (request qid)

/-- Requests pass from the calls over the connection to the handlers. -/
structure Flow (qid : ℕ) (region : ℕ → BitVec 64) (q : ReqQueue Page) (done pend : List Request) :
    Prop where
  requests : q.requests qid = done ++ (pend ++ q.sends)
  completions : q.completions = pend.map Request.imm
  written : ∀ r ∈ pend, r.Written region
  handled : q.handled.map (fun h => (h.1, h.2.map (·.raddr))) = done.map Request.due

/-- The lock lets one request at a time wait for a reply, and that is the
newest. -/
structure Turns (qid : ℕ) (q : ReqQueue Page) : Prop where
  known : q.calls ≠ [] → qid < numDataQps
  msgId : qid = 1 → q.msgId = BitVec.ofNat 32 q.calls.length
  polled : q.handled.filterMap Prod.snd = q.polled ++ q.replies
  asked : (q.requests qid).countP (fun r => r.Asks) =
    q.polled.length + if q.lock = .free then 0 else 1
  last : q.lock ≠ .free → ∃ r, (q.requests qid).getLast? = some r ∧ r.Asks

theorem requests_length : (q.requests qid).length = q.calls.length := List.length_mapIdx

theorem requests_get {n : ℕ} {r : Request} (h : (q.requests qid)[n]? = some r) :
    ∃ call, q.calls[n]? = some call ∧ r = request qid n call := by
  rw [requests, List.getElem?_mapIdx] at h
  obtain ⟨call, hcall, heq⟩ := Option.map_eq_some_iff.mp h
  exact ⟨call, hcall, heq.symm⟩

/-- Every reply there was belongs to a request that asked for one. -/
theorem Flow.asked_done (hf : q.Flow qid region done pend) :
    (q.handled.filterMap Prod.snd).length = done.countP fun r => r.Asks := by
  have hcount := congrArg (List.countP fun x => x.2.isSome) hf.handled
  rw [List.countP_map, List.countP_map] at hcount
  rw [List.length_filterMap_eq_countP]
  calc
    q.handled.countP (fun h => h.2.isSome) = q.handled.countP
        ((fun x => x.2.isSome) ∘ fun h => (h.1, h.2.map (·.raddr))) := by
      refine List.countP_congr fun h _ => ?_
      simp
    _ = done.countP ((fun x => x.2.isSome) ∘ Request.due) := hcount
    _ = done.countP fun r => r.Asks := by
      refine List.countP_congr fun r _ => ?_
      by_cases h : r.Asks
      · simp [Request.due, h]
      · simp [Request.due, h]

/-- No request on the way or unread asks for a reply but the newest of all. -/
theorem Turns.quiet (ht : q.Turns qid) (hf : q.Flow qid region done pend) {n : ℕ} {r : Request}
    (hr : (q.requests qid)[n]? = some r) (hn : done.length ≤ n)
    (hlast : n + 1 < q.calls.length) : ¬ r.Asks := by
  intro hasks
  have hlt : n < (q.requests qid).length := (List.getElem?_eq_some_iff.mp hr).1
  have hsplit : q.requests qid =
      (q.requests qid).take n ++ r :: (q.requests qid).drop (n + 1) := by
    rw [← (List.getElem?_eq_some_iff.mp hr).2, List.getElem_cons_drop, List.take_append_drop]
  have hcount := congrArg (List.countP fun r : Request => r.Asks) hsplit
  rw [List.countP_append, List.countP_cons, if_pos (by simpa using hasks), ht.asked] at hcount
  have hdone : done.countP (fun r => r.Asks) ≤
      ((q.requests qid).take n).countP fun r => r.Asks := by
    apply List.Sublist.countP_le
    rw [hf.requests, List.take_append, List.take_of_length_le hn]
    exact List.sublist_append_left _ _
  have hpolled := congrArg List.length ht.polled
  rw [hf.asked_done, List.length_append] at hpolled
  cases hlock : q.lock with
  | free =>
      rw [hlock, if_pos rfl] at hcount
      omega
  | posted | polling =>
      obtain ⟨last, hget, hask⟩ := ht.last (by rw [hlock]; decide)
      have hmem : last ∈ (q.requests qid).drop (n + 1) := by
        apply List.mem_of_getLast?
        rw [List.getLast?_drop, if_neg (by rw [requests_length]; omega)]
        exact hget
      have hpos : 0 < ((q.requests qid).drop (n + 1)).countP fun r => r.Asks :=
        List.countP_pos_iff.mpr ⟨last, hmem, by simpa using hask⟩
      rw [hlock, if_neg (by decide)] at hcount
      omega

/-! ### What a call does -/

variable {q' : ReqQueue Page}

theorem requests_concat {msgId : BitVec 32} {lock : ReqLock} {sends : List Request}
    (call : Key × BitVec 64) :
    ({ q with msgId, lock, sends, calls := q.calls ++ [call] } : ReqQueue Page).requests qid =
      q.requests qid ++ [request qid q.calls.length call] := List.mapIdx_concat

theorem Flow.call {msgId : BitVec 32} {lock : ReqLock} (hf : q.Flow qid region done pend)
    (call : Key × BitVec 64) :
    ({ q with
        msgId
        lock
        sends := q.sends ++ [request qid q.calls.length call]
        calls := q.calls ++ [call] } : ReqQueue Page).Flow qid region done pend where
  requests := by
    rw [requests_concat, hf.requests, List.append_assoc, List.append_assoc]
  completions := hf.completions
  written := hf.written
  handled := hf.handled

theorem Turns.call {msgId : BitVec 32} {lock : ReqLock} (ht : q.Turns qid)
    (hfree : q.lock = .free) (hqid : qid < numDataQps) {call : Key × BitVec 64}
    (hmsg : qid = 1 → msgId = q.msgId + 1)
    (hlock : lock = .free ↔ ¬ (request qid q.calls.length call).Asks) :
    ({ q with
        msgId
        lock
        sends := q.sends ++ [request qid q.calls.length call]
        calls := q.calls ++ [call] } : ReqQueue Page).Turns qid where
  known _ := hqid
  msgId h := by
    rw [hmsg h, ht.msgId h, List.length_append, List.length_singleton, BitVec.ofNat_add]
    rfl
  polled := ht.polled
  asked := by
    have hasked := ht.asked
    rw [hfree, if_pos rfl] at hasked
    rw [requests_concat, List.countP_append, hasked, List.countP_singleton]
    by_cases h : lock = .free
    · rw [if_pos h, if_neg (by simpa using hlock.mp h)]
    · have hasks : (request qid q.calls.length call).Asks :=
        Classical.not_not.mp fun hno => h (hlock.mpr hno)
      rw [if_neg h, if_pos (by simpa using hasks)]
  last hne := by
    refine ⟨request qid q.calls.length call, ?_, ?_⟩
    · rw [requests_concat, List.getLast?_concat]
    · exact Classical.not_not.mp fun hno => hne (hlock.mpr hno)

theorem writeMsg_some {key : Key} {raddr : BitVec 64} (h : q.writeMsg qid key raddr = some q') :
    q.lock = .free ∧ q' = { q with
      lock := .posted
      sends := q.sends ++ [getRequest qid key raddr]
      calls := q.calls ++ [(key, raddr)] } := by
  unfold writeMsg at h
  split at h
  next hfree => exact ⟨hfree, (Option.some.inj h).symm⟩
  · cases h

theorem writeMsg2_some {key : Key} (h : q.writeMsg2 key = some q') :
    q.lock = .free ∧ q' = { q with
      msgId := q.msgId + 1
      lock := if slotOf q.msgId < numMsgs - 1 then .free else .posted
      sends := q.sends ++ [invRequest (slotOf q.msgId) key]
      calls := q.calls ++ [(key, 0)] } := by
  unfold writeMsg2 at h
  split at h
  next hfree => exact ⟨hfree, (Option.some.inj h).symm⟩
  · cases h

theorem Turns.writeMsg (ht : q.Turns qid) (hf : q.Flow qid region done pend) {key : Key}
    {raddr : BitVec 64} (hqid : qid < numDataQps) (hne : qid ≠ 1)
    (h : q.writeMsg qid key raddr = some q') :
    q'.Flow qid region done pend ∧ q'.Turns qid := by
  obtain ⟨hfree, rfl⟩ := writeMsg_some h
  rw [← request_get hne q.calls.length (key, raddr)]
  refine ⟨hf.call (key, raddr), ht.call hfree hqid (fun h => absurd h hne) ?_⟩
  exact iff_of_false (by decide) fun hno => hno (request_asks_get hne)

/-- The client waits exactly when the request asks for a reply, as long as the
counter has not reached the sign bit. -/
theorem Turns.writeMsg2 (ht : q.Turns 1) (hf : q.Flow 1 region done pend) {key : Key}
    (hcalls : q.calls.length < 2 ^ 31) (h : q.writeMsg2 key = some q') :
    q'.Flow 1 region done pend ∧ q'.Turns 1 := by
  obtain ⟨hfree, rfl⟩ := writeMsg2_some h
  have hslot : slotOf q.msgId = ((q.calls.length % numMsgs : ℕ) : ℤ) := by
    rw [ht.msgId rfl, slotOf_natCast hcalls]
  rw [hslot, ← request_inv q.calls.length (key, 0)]
  refine ⟨hf.call (key, 0), ht.call hfree (by decide) (fun _ => rfl) ?_⟩
  rw [request_asks_inv]
  have hlt : q.calls.length % numMsgs < 512 := slot_lt _
  have hmsgs : numMsgs = 512 := rfl
  rw [hmsgs] at hlt ⊢
  split
  next hless => exact iff_of_true rfl (by omega)
  next hless => exact iff_of_false (by decide) (by omega)

theorem pollSendCq_some (h : q.pollSendCq = some q') :
    q.lock = .posted ∧ q' = { q with lock := .polling } := by
  unfold pollSendCq at h
  split at h
  next hlock _ =>
    cases h
    exact ⟨hlock, rfl⟩
  · cases h

theorem pollRecvCq_some (h : q.pollRecvCq = some q') :
    ∃ r replies, q.lock = .polling ∧ q.replies = r :: replies ∧
      q' = { q with lock := .free, replies, polled := q.polled ++ [r] } := by
  unfold pollRecvCq at h
  split at h
  next r replies hlock hreplies =>
    cases h
    exact ⟨r, replies, hlock, hreplies, rfl⟩
  · cases h

theorem Turns.pollSendCq (ht : q.Turns qid) (hf : q.Flow qid region done pend)
    (h : q.pollSendCq = some q') : q'.Flow qid region done pend ∧ q'.Turns qid := by
  obtain ⟨hlock, rfl⟩ := pollSendCq_some h
  have hne : q.lock ≠ .free := by rw [hlock]; decide
  refine ⟨⟨hf.requests, hf.completions, hf.written, hf.handled⟩, ⟨ht.known, ht.msgId, ht.polled,
    ?_, fun _ => ht.last hne⟩⟩
  have hasked := ht.asked
  rw [if_neg hne] at hasked
  exact hasked

theorem Turns.pollRecvCq (ht : q.Turns qid) (hf : q.Flow qid region done pend)
    (h : q.pollRecvCq = some q') : q'.Flow qid region done pend ∧ q'.Turns qid := by
  obtain ⟨r, replies, hlock, hreplies, rfl⟩ := pollRecvCq_some h
  refine ⟨⟨hf.requests, hf.completions, hf.written, hf.handled⟩, ⟨ht.known, ht.msgId, ?_, ?_,
    fun hne => absurd rfl hne⟩⟩
  · rw [ht.polled, hreplies, List.append_assoc]
    rfl
  · have hasked := ht.asked
    rw [hlock, if_neg (by decide)] at hasked
    rw [if_pos rfl, List.length_append]
    exact hasked

end ReqQueue

/-! ## All queues -/

namespace ReqPath

variable {Page : Type} {hash : HashFuncs} {exclusivePolicy : Bool} {cid : ℕ} {s s' : ReqPath Page}

def Inv (cid : ℕ) (s : ReqPath Page) : Prop :=
  ∀ qid, (s.queues qid).Turns qid ∧
    ∃ done pend, (s.queues qid).Flow qid (s.server.metaRegion cid) done pend

theorem init_inv (h : s.queues = fun _ => {}) : s.Inv cid := by
  intro qid
  rw [h]
  refine ⟨⟨fun hne => absurd rfl hne, fun _ => rfl, rfl, rfl, fun hne => absurd rfl hne⟩, [], [],
    ⟨rfl, rfl, nofun, rfl⟩⟩

theorem setQueue_self (qid : ℕ) (q : ReqQueue Page) : (s.setQueue qid q).queues qid = q :=
  Function.update_self _ _ _

/-- What holds of the new queue and of all queues before holds of all queues. -/
theorem forall_setQueue {P : ℕ → ReqQueue Page → Prop} {qid : ℕ} {q : ReqQueue Page}
    (hself : P qid q) (hother : ∀ i, P i (s.queues i)) (i : ℕ) :
    P i ((s.setQueue qid q).queues i) :=
  (Function.forall_update_iff s.queues P).mpr ⟨hself, fun i _ => hother i⟩ i

/-- A queue changes, the region does not. -/
theorem Inv.setQueue (h : s.Inv cid) {qid : ℕ} {q : ReqQueue Page} (ht : q.Turns qid)
    (hf : ∃ done pend, q.Flow qid (s.server.metaRegion cid) done pend) :
    (s.setQueue qid q).Inv cid :=
  forall_setQueue (P := fun i q' =>
    q'.Turns i ∧ ∃ done pend, q'.Flow i (s.server.metaRegion cid) done pend) ⟨ht, hf⟩ h

/-- The daemon changes, the region does not. -/
theorem Inv.setServer (h : s.Inv cid) {t : Server Page}
    (hregion : t.metaRegion cid = s.server.metaRegion cid) :
    ({ s with server := t } : ReqPath Page).Inv cid := by
  intro qid
  dsimp only
  rw [hregion]
  exact h qid

/-- Only the queues of the connection are in use. -/
theorem Inv.qid_lt (h : s.Inv cid) {qid : ℕ} (hsends : (s.queues qid).sends ≠ []) :
    qid < numDataQps := by
  obtain ⟨ht, done, pend, hf⟩ := h qid
  refine ht.known fun hnil => hsends ?_
  have hreq := hf.requests
  rw [ReqQueue.requests, hnil, List.mapIdx_nil] at hreq
  exact (List.append_eq_nil_iff.mp (List.append_eq_nil_iff.mp hreq.symm).2).2

/-! ### Slots -/

/-- An unread request of a queue has no byte in common with the next one that
any queue places. -/
theorem Inv.apart (h : s.Inv cid) {qid qid' : ℕ} {done pend : List Request}
    (hf : (s.queues qid).Flow qid (s.server.metaRegion cid) done pend) {p r : Request}
    (hp : p ∈ pend) (hr : (s.queues qid').sends.head? = some r) : p.Apart r := by
  obtain ⟨ht', done', pend', hf'⟩ := h qid'
  obtain ⟨k, hk⟩ := List.mem_iff_getElem?.mp hp
  have hklt : k < pend.length := (List.getElem?_eq_some_iff.mp hk).1
  have hpget : ((s.queues qid).requests qid)[done.length + k]? = some p := by
    rw [hf.requests, List.getElem?_append_right (Nat.le_add_right _ _), Nat.add_sub_cancel_left,
      List.getElem?_append_left hklt, hk]
  have hrget : ((s.queues qid').requests qid')[done'.length + pend'.length]? = some r := by
    rw [hf'.requests, ← List.append_assoc, ← List.length_append,
      List.getElem?_append_right (Nat.le_refl _), Nat.sub_self, ← List.head?_eq_getElem?, hr]
  obtain ⟨call, hcall, rfl⟩ := ReqQueue.requests_get hpget
  obtain ⟨call', hcall', rfl⟩ := ReqQueue.requests_get hrget
  have hlt : qid < numDataQps := (h qid).1.known fun hnil => by simp [hnil] at hcall
  have hlt' : qid' < numDataQps := ht'.known fun hnil => by simp [hnil] at hcall'
  by_cases hne : qid = qid'
  swap
  · exact request_apart hlt hlt' hne
  subst hne
  -- the same queue: the unread ones lie within one round
  have hcalls := (List.getElem?_eq_some_iff.mp hcall').1
  have hdone : done.length = done'.length ∧ pend.length = pend'.length := by
    have hcomp := congrArg List.length (hf.completions.symm.trans hf'.completions)
    have hreq := congrArg List.length (hf.requests.symm.trans hf'.requests)
    simp only [List.length_map, List.length_append] at hcomp hreq
    omega
  have hquiet : ∀ {n : ℕ} {r : Request}, ((s.queues qid).requests qid)[n]? = some r →
      done.length ≤ n → n < done.length + pend.length → ¬ r.Asks := by
    intro n r hr hn hlt
    exact (h qid).1.quiet hf hr hn (by omega)
  by_cases hinv : qid = 1
  · subst hinv
    apply request_apart_inv
    intro hslot
    have hmsgs : numMsgs = 512 := rfl
    rw [hmsgs] at hslot
    -- the last slot of the round of `p` comes before `r`
    obtain ⟨c, hc⟩ : ∃ c, c = done.length + k - (done.length + k) % 512 + 511 := ⟨_, rfl⟩
    have hclt : c < (s.queues 1).calls.length := by omega
    refine hquiet (n := c) (r := request 1 c (s.queues 1).calls[c]) ?_ (by omega) (by omega) ?_
    · rw [ReqQueue.requests, List.getElem?_mapIdx, List.getElem?_eq_getElem hclt]
      rfl
    · rw [request_asks_inv, hmsgs]
      omega
  · exact absurd (request_asks_get hinv) (hquiet hpget (Nat.le_add_right _ _) (by omega))

/-! ### Steps -/

theorem Inv.deliver (h : s.Inv cid) {qid : ℕ} (hstep : s.deliver cid qid = some s') :
    s'.Inv cid := by
  unfold ReqPath.deliver at hstep
  split at hstep
  swap
  · cases hstep
  next r sends _ hsends _ =>
    cases hstep
    have hr : (s.queues qid).sends.head? = some r := by rw [hsends]; rfl
    have hregion : ((s.server.popRecv cid qid).remoteWrite cid r.off r.words).metaRegion cid =
        Server.storeWords r.off r.words (s.server.metaRegion cid) := Function.update_self _ _ _
    intro qid'
    obtain ⟨ht, done, pend, hf⟩ := h qid'
    have hwritten : ∀ p ∈ pend,
        p.Written (Server.storeWords r.off r.words (s.server.metaRegion cid)) :=
      fun p hp => (hf.written p hp).storeWords (h.apart hf hp hr)
    dsimp only
    rw [hregion]
    by_cases hne : qid' = qid
    · subst hne
      simp only [ReqPath.setQueue, Function.update_self]
      refine ⟨⟨ht.known, ht.msgId, ht.polled, ht.asked, ht.last⟩, done, pend ++ [r], ?_, ?_, ?_,
        hf.handled⟩
      · have hreq := hf.requests
        rw [hsends] at hreq
        rw [List.append_assoc]
        exact hreq
      · rw [hf.completions, List.map_append]
        rfl
      · intro p hp
        rcases List.mem_append.mp hp with hp | hp
        · exact hwritten p hp
        · obtain rfl := List.mem_singleton.mp hp
          exact Request.written_storeWords
    · simp only [ReqPath.setQueue, Function.update_of_ne hne]
      exact ⟨ht, done, pend, hf.requests, hf.completions, hwritten, hf.handled⟩

theorem Inv.process (h : s.Inv cid) {qid : ℕ} {d : Draw}
    (hstep : s.process hash exclusivePolicy cid qid d = some s') : s'.Inv cid := by
  unfold ReqPath.process at hstep
  split at hstep
  · cases hstep
  next imm completions hcomp =>
    cases hstep
    have hregion :
        (s.server.processImm hash exclusivePolicy cid qid imm d).1.metaRegion =
          s.server.metaRegion := Server.processImm_metaRegion cid qid imm d
    intro qid'
    obtain ⟨ht, done, pend, hf⟩ := h qid'
    dsimp only
    rw [hregion]
    by_cases hne : qid' = qid
    swap
    · simp only [ReqPath.setQueue, Function.update_of_ne hne]
      exact ⟨ht, done, pend, hf⟩
    subst hne
    simp only [ReqPath.setQueue, Function.update_self]
    have hmap := hf.completions
    rw [hcomp] at hmap
    cases pend with
    | nil => cases hmap
    | cons p pend =>
        obtain ⟨rfl, rfl⟩ := List.cons.inj hmap
        have hpget : ((s.queues qid').requests qid')[done.length]? = some p := by
          rw [hf.requests, List.getElem?_append_right (Nat.le_refl _), Nat.sub_self]
          rfl
        obtain ⟨call, hcall, hp⟩ := ReqQueue.requests_get hpget
        have hlt : qid' < numDataQps := ht.known fun hnil => by simp [hnil] at hcall
        have hwritten : (request qid' done.length call).Written (s.server.metaRegion cid) :=
          hp ▸ hf.written p List.mem_cons_self
        have hkey : s.server.requestKey cid qid' p.imm = some p.key := by
          rw [hp, request_key]
          exact requestKey_request hlt hwritten
        have hreply : (s.server.processImm hash exclusivePolicy cid qid' p.imm d).2.map (·.raddr) =
            p.due.2 := by
          rw [hp]
          exact processImm_request hlt hwritten d
        rw [hkey]
        refine ⟨⟨ht.known, ht.msgId, ?_, ht.asked, ht.last⟩, done ++ [p], pend, ?_, rfl, ?_, ?_⟩
        · dsimp only [Option.toList, List.map]
          rw [List.filterMap_append, ht.polled, List.append_assoc]
          congr 2
        · have hreq := hf.requests
          rw [List.append_assoc]
          exact hreq
        · exact fun r hr => hf.written r (List.mem_cons_of_mem p hr)
        · dsimp only [Option.toList, List.map]
          rw [List.map_append, List.map_append, hf.handled]
          congr 1
          simp only [List.map_cons, List.map_nil, hreply]
          rfl

/-- The history only grows. -/
theorem step_calls {a : ReqStep Page} (hstep : s.step hash exclusivePolicy cid a = some s')
    (qid : ℕ) : (s.queues qid).calls <+: (s'.queues qid).calls := by
  have hset : ∀ {i : ℕ} {o : Option (ReqQueue Page)},
      (∀ q, o = some q → (s.queues i).calls <+: q.calls) →
      o.map (s.setQueue i) = some s' → (s.queues qid).calls <+: (s'.queues qid).calls := by
    intro i o hq ho
    obtain ⟨q, hoq, rfl⟩ := Option.map_eq_some_iff.mp ho
    exact forall_setQueue (P := fun i q' => (s.queues i).calls <+: q'.calls) (hq q hoq)
      (fun _ => List.prefix_refl _) qid
  have hsame : ∀ {i : ℕ} {q : ReqQueue Page}, s'.queues = (s.setQueue i q).queues →
      q.calls = (s.queues i).calls → (s.queues qid).calls <+: (s'.queues qid).calls := by
    intro i q heq hq
    rw [heq]
    exact forall_setQueue (P := fun i q' => (s.queues i).calls <+: q'.calls)
      (hq ▸ List.prefix_refl _) (fun _ => List.prefix_refl _) qid
  cases a with
  | writeMsg cpu key raddr =>
      refine hset (fun q hq => ?_) hstep
      obtain ⟨-, rfl⟩ := ReqQueue.writeMsg_some hq
      exact List.prefix_append _ _
  | writeMsg2 key =>
      refine hset (fun q hq => ?_) hstep
      obtain ⟨-, rfl⟩ := ReqQueue.writeMsg2_some hq
      exact List.prefix_append _ _
  | pollSendCq i =>
      refine hset (fun q hq => ?_) hstep
      obtain ⟨-, rfl⟩ := ReqQueue.pollSendCq_some hq
      exact List.prefix_refl _
  | pollRecvCq i =>
      refine hset (fun q hq => ?_) hstep
      obtain ⟨_, _, -, -, rfl⟩ := ReqQueue.pollRecvCq_some hq
      exact List.prefix_refl _
  | deliver i =>
      simp only [step, ReqPath.deliver] at hstep
      split at hstep
      · exact hsame (congrArg ReqPath.queues (Option.some.inj hstep)).symm rfl
      · cases hstep
  | process i d =>
      simp only [step, ReqPath.process] at hstep
      split at hstep
      · cases hstep
      · exact hsame (congrArg ReqPath.queues (Option.some.inj hstep)).symm rfl
  | server a =>
      simp only [step] at hstep
      split at hstep
      · cases hstep
      · obtain ⟨_, -, rfl⟩ := Option.map_eq_some_iff.mp hstep
        exact List.prefix_refl _

theorem Inv.step (h : s.Inv cid) {a : ReqStep Page} (hcalls : (s.queues 1).calls.length < 2 ^ 31)
    (hstep : s.step hash exclusivePolicy cid a = some s') : s'.Inv cid := by
  cases a with
  | writeMsg cpu key raddr =>
      obtain ⟨q, hq, rfl⟩ := Option.map_eq_some_iff.mp hstep
      obtain ⟨ht, done, pend, hf⟩ := h (cpu % Daemon.numGetQps + 2)
      have hlt : cpu % Daemon.numGetQps < Daemon.numGetQps := Nat.mod_lt cpu (by decide)
      have hqid : cpu % Daemon.numGetQps + 2 < numDataQps := by
        rw [numDataQps]
        omega
      obtain ⟨hf', ht'⟩ := ht.writeMsg hf hqid (by omega) hq
      exact h.setQueue ht' ⟨done, pend, hf'⟩
  | writeMsg2 key =>
      obtain ⟨q, hq, rfl⟩ := Option.map_eq_some_iff.mp hstep
      obtain ⟨ht, done, pend, hf⟩ := h 1
      obtain ⟨hf', ht'⟩ := ht.writeMsg2 hf hcalls hq
      exact h.setQueue ht' ⟨done, pend, hf'⟩
  | pollSendCq qid =>
      obtain ⟨q, hq, rfl⟩ := Option.map_eq_some_iff.mp hstep
      obtain ⟨ht, done, pend, hf⟩ := h qid
      obtain ⟨hf', ht'⟩ := ht.pollSendCq hf hq
      exact h.setQueue ht' ⟨done, pend, hf'⟩
  | pollRecvCq qid =>
      obtain ⟨q, hq, rfl⟩ := Option.map_eq_some_iff.mp hstep
      obtain ⟨ht, done, pend, hf⟩ := h qid
      obtain ⟨hf', ht'⟩ := ht.pollRecvCq hf hq
      exact h.setQueue ht' ⟨done, pend, hf'⟩
  | deliver qid => exact h.deliver hstep
  | process qid d => exact h.process hstep
  | server a =>
      simp only [ReqPath.step] at hstep
      split at hstep
      · cases hstep
      next hfree =>
        obtain ⟨⟨t, r⟩, hs, rfl⟩ := Option.map_eq_some_iff.mp hstep
        refine h.setServer (Server.step_metaRegion ?_ hs)
        rintro qid off words imm d rfl
        exact hfree rfl

theorem Inv.of_reachable (hreach : (reqSystem hash exclusivePolicy cid).Reachable s)
    (hcalls : (s.queues 1).calls.length < 2 ^ 31) : s.Inv cid := by
  revert hcalls
  refine System.Reachable.invariant (I := fun s => (s.queues 1).calls.length < 2 ^ 31 → s.Inv cid)
    (fun t hinit _ => init_inv hinit) ?_ hreach
  intro t a t' h hstep hlt
  have hle := (step_calls hstep 1).length_le
  have hlt' : (t.queues 1).calls.length < 2 ^ 31 := Nat.lt_of_le_of_lt hle hlt
  exact (h hlt').step hlt' hstep

end ReqPath

/-! ## What is read is what was passed -/

/-- Where the handler of an immediate reads. -/
def slots (qid : ℕ) (imm : BitVec 32) : List ℕ :=
  match MsgType.ofCode (bitUnmask (ntohl imm)).msg with
  | some .read => [readKeyOffset qid, addrOffset qid]
  | some .invPage => [invKeyOffset qid (bitUnmask (ntohl imm)).mid]
  | _ => []

/-- A handler reads within the bytes of its request. -/
theorem slots_request {qid n off : ℕ} {call : Key × BitVec 64} (hqid : qid < numDataQps)
    (hoff : off ∈ slots qid (request qid n call).imm) :
    (request qid n call).off ≤ off ∧
      off + 8 ≤ (request qid n call).off + 8 * (request qid n call).words.length := by
  by_cases h : qid = 1
  · subst h
    have htype : MsgType.ofCode MsgType.invPage.code = some .invPage := rfl
    have hlen : (invRequest (n % numMsgs : ℕ) call.1).words.length = 1 := rfl
    rw [request_inv, slots, invRequest_imm (slot_lt n), htype] at hoff
    rw [request_inv, invRequest_off (slot_lt n), hlen, List.mem_singleton.mp hoff]
    exact ⟨Nat.le_refl _, Nat.le_refl _⟩
  · have htype : MsgType.ofCode MsgType.read.code = some .read := rfl
    have hlen : (getRequest qid call.1 call.2).words.length = 2 := rfl
    rw [request_get h, slots, getRequest_imm, htype] at hoff
    rw [request_get h, getRequest_off hqid, hlen]
    rcases List.mem_cons.mp hoff with rfl | hoff
    · omega
    · rw [List.mem_singleton.mp hoff, addrOffset]
      omega

namespace ReqQueue

variable {Page : Type} {qid : ℕ} {region : ℕ → BitVec 64} {q : ReqQueue Page}
  {done pend : List Request}

/-- The get whose caller waits under the lock; all calls before it are over. -/
def Outstanding (q : ReqQueue Page) (call : Key × BitVec 64) : Prop :=
  q.lock ≠ .free ∧ q.calls.getLast? = some call ∧ q.calls.length = q.polled.length + 1

/-- What depends on the call alone is mapped over the calls. -/
theorem requests_map (q : ReqQueue Page) {α : Type} {f : Request → α} {g : Key × BitVec 64 → α}
    (h : ∀ n call, f (request qid n call) = g call) : (q.requests qid).map f = q.calls.map g := by
  apply List.ext_getElem?
  intro n
  rw [requests, List.getElem?_map, List.getElem?_mapIdx, List.getElem?_map]
  cases q.calls[n]? with
  | none => rfl
  | some call => exact congrArg some (h n call)

/-- The handlers read the keys of the calls, in the order of the calls. -/
theorem Flow.handled_key (hf : q.Flow qid region done pend) :
    q.handled.map Prod.fst <+: q.calls.map Prod.fst := by
  have hkeys : q.handled.map Prod.fst = done.map Request.key := by
    have hmap := congrArg (List.map Prod.fst) hf.handled
    rw [List.map_map, List.map_map] at hmap
    exact hmap
  rw [hkeys, ← requests_map q fun n call => @request_key qid n call, hf.requests]
  exact (List.prefix_append _ _).map Request.key

/-- The handlers of the gets also reply to the addresses of the calls. -/
theorem Flow.handled_due (hf : q.Flow qid region done pend) (hqid : qid ≠ 1) :
    q.handled.map (fun h => (h.1, h.2.map (·.raddr))) <+: q.calls.map fun c => (c.1, some c.2) := by
  rw [hf.handled, ← requests_map q fun _ _ => request_due_get hqid, hf.requests]
  exact (List.prefix_append _ _).map Request.due

theorem Flow.handled_length (hf : q.Flow qid region done pend) :
    q.handled.length = done.length := by
  have hlen := congrArg List.length hf.handled
  rwa [List.length_map, List.length_map] at hlen

/-- A get queue in numbers: every get is replied to, and one at a time. -/
theorem Turns.counts (ht : q.Turns qid) (hf : q.Flow qid region done pend) (hqid : qid ≠ 1) :
    done.length = q.polled.length + q.replies.length ∧
      q.calls.length = q.polled.length + if q.lock = .free then 0 else 1 := by
  have hall : ∀ r ∈ q.requests qid, r.Asks := by
    intro r hr
    obtain ⟨n, hn⟩ := List.mem_iff_getElem?.mp hr
    obtain ⟨call, -, rfl⟩ := requests_get hn
    exact request_asks_get hqid
  have hcount : (q.requests qid).countP (fun r => r.Asks) = (q.requests qid).length :=
    List.countP_eq_length.mpr fun r hr => by simpa using hall r hr
  have hdone : done.countP (fun r => r.Asks) = done.length := by
    refine List.countP_eq_length.mpr fun r hr => ?_
    simpa using hall r (by rw [hf.requests]; exact List.mem_append_left _ hr)
  have hpolled := congrArg List.length ht.polled
  rw [hf.asked_done, hdone, List.length_append] at hpolled
  have hlen : q.calls.length = (q.requests qid).length := requests_length.symm
  rw [hlen, ← hcount]
  exact ⟨hpolled, ht.asked⟩

/-- What has not been polled belongs to the newest get. -/
theorem Turns.outstanding (ht : q.Turns qid) (hf : q.Flow qid region done pend) (hqid : qid ≠ 1)
    {n : ℕ} {call : Key × BitVec 64} (hcall : q.calls[n]? = some call)
    (hn : q.polled.length ≤ n) : q.Outstanding call := by
  have hlt := (List.getElem?_eq_some_iff.mp hcall).1
  have hcount := (ht.counts hf hqid).2
  have hne : q.lock ≠ .free := by
    intro hfree
    rw [if_pos hfree] at hcount
    omega
  rw [if_neg hne] at hcount
  refine ⟨hne, ?_, hcount⟩
  rw [List.getLast?_eq_getElem?, ← hcall]
  congr 1
  omega

end ReqQueue

namespace ReqPath

variable {Page : Type} {hash : HashFuncs} {exclusivePolicy : Bool} {cid : ℕ} {s : ReqPath Page}

/-- Handlers and callers agree on what they are about, on every queue. -/
structure Matched (cid : ℕ) (s : ReqPath Page) : Prop where
  /-- The `n`-th invalidation that was handled had the key of the `n`-th call. -/
  invRead : (s.queues 1).handled.map Prod.fst <+: (s.queues 1).calls.map Prod.fst
  /-- The next ones will have theirs. -/
  invNext : ∀ i imm, (s.queues 1).completions[i]? = some imm →
    ∃ call, (s.queues 1).calls[(s.queues 1).handled.length + i]? = some call ∧
      s.server.requestKey cid 1 imm = some call.1
  /-- The `n`-th get had the key and the address of the `n`-th call. -/
  getRead : ∀ qid ≠ 1, (s.queues qid).handled.map (fun h => (h.1, h.2.map (·.raddr))) <+:
    (s.queues qid).calls.map fun c => (c.1, some c.2)
  /-- A get that will be handled is the outstanding one. -/
  getNext : ∀ qid ≠ 1, ∀ imm ∈ (s.queues qid).completions,
    ∃ call, (s.queues qid).Outstanding call ∧ s.server.requestKey cid qid imm = some call.1 ∧
      s.server.metaRegion cid (addrOffset qid) = call.2
  /-- A reply that will be polled was made for the outstanding get. -/
  getReply : ∀ qid ≠ 1, ∀ r ∈ (s.queues qid).replies,
    ∃ call, (s.queues qid).Outstanding call ∧ r.raddr = call.2 ∧
      (s.queues qid).handled.getLast? = some (call.1, some r)
  /-- Replies are polled in the order in which they were made. -/
  polled : ∀ qid, (s.queues qid).handled.filterMap Prod.snd =
    (s.queues qid).polled ++ (s.queues qid).replies
  /-- The next request to be placed leaves alone what is still to be read. -/
  fresh : ∀ qid, ∀ imm ∈ (s.queues qid).completions, ∀ off ∈ slots qid imm,
    ∀ qid' r, (s.queues qid').sends.head? = some r →
      r.off + 8 * r.words.length ≤ off ∨ off + 8 ≤ r.off

/-- A completion that waits for its handler, with its call. -/
theorem Inv.unread (h : s.Inv cid) {qid i : ℕ} {imm : BitVec 32} {done pend : List Request}
    (hf : (s.queues qid).Flow qid (s.server.metaRegion cid) done pend)
    (himm : (s.queues qid).completions[i]? = some imm) :
    ∃ call, (s.queues qid).calls[(s.queues qid).handled.length + i]? = some call ∧
      qid < numDataQps ∧ imm = (request qid ((s.queues qid).handled.length + i) call).imm ∧
      request qid ((s.queues qid).handled.length + i) call ∈ pend := by
  rw [hf.completions, List.getElem?_map] at himm
  obtain ⟨p, hp, rfl⟩ := Option.map_eq_some_iff.mp himm
  have hilt : i < pend.length := (List.getElem?_eq_some_iff.mp hp).1
  have hget : ((s.queues qid).requests qid)[(s.queues qid).handled.length + i]? = some p := by
    rw [hf.handled_length, hf.requests, List.getElem?_append_right (Nat.le_add_right _ _),
      Nat.add_sub_cancel_left, List.getElem?_append_left hilt, hp]
  obtain ⟨call, hcall, rfl⟩ := ReqQueue.requests_get hget
  refine ⟨call, hcall, (h qid).1.known fun hnil => by simp [hnil] at hcall, rfl, ?_⟩
  exact List.mem_of_getElem? hp

theorem Inv.getReply (h : s.Inv cid) {qid : ℕ} (hqid : qid ≠ 1) {r : Reply Page}
    (hr : r ∈ (s.queues qid).replies) :
    ∃ call, (s.queues qid).Outstanding call ∧ r.raddr = call.2 ∧
      (s.queues qid).handled.getLast? = some (call.1, some r) := by
  obtain ⟨ht, done, pend, hf⟩ := h qid
  obtain ⟨hdone, hcalls⟩ := ht.counts hf hqid
  have hprefix := hf.handled_due hqid
  have hle := hprefix.length_le
  rw [List.length_map, List.length_map, hf.handled_length] at hle
  -- at most one reply waits, and it is that of the last call
  have hpos := List.length_pos_of_mem hr
  have hone : (if (s.queues qid).lock = .free then 0 else 1) ≤ 1 := by
    split
    · exact Nat.zero_le 1
    · exact Nat.le_refl 1
  obtain ⟨r', hr'⟩ : ∃ r', (s.queues qid).replies = [r'] :=
    List.length_eq_one_iff.mp (by omega)
  obtain rfl : r = r' := by
    rw [hr'] at hr
    exact List.mem_singleton.mp hr
  rw [hr', List.length_singleton] at hdone
  have hall := hprefix.eq_of_length
    (by rw [List.length_map, List.length_map, hf.handled_length]; omega)
  obtain ⟨call, hcall⟩ : ∃ call, (s.queues qid).calls[(s.queues qid).polled.length]? = some call :=
    ⟨_, List.getElem?_eq_getElem (by omega)⟩
  have hout := ht.outstanding hf hqid hcall (Nat.le_refl _)
  have hlast := congrArg List.getLast? hall
  rw [List.getLast?_map, List.getLast?_map, hout.2.1] at hlast
  obtain ⟨⟨key, reply⟩, hget, heq⟩ := Option.map_eq_some_iff.mp hlast
  obtain ⟨hkey, hraddr⟩ := Prod.mk.inj heq
  obtain ⟨r'', rfl, hr''⟩ := Option.map_eq_some_iff.mp hraddr
  have hpolled := ht.polled
  rw [← List.dropLast_append_getLast? _ hget, List.filterMap_append, hr'] at hpolled
  obtain rfl : r'' = r := by
    have := congrArg List.getLast? hpolled
    simpa using this
  exact ⟨call, hout, hr'', hkey ▸ hget⟩

theorem Inv.matched (h : s.Inv cid) : s.Matched cid where
  invRead := by
    obtain ⟨-, done, pend, hf⟩ := h 1
    exact hf.handled_key
  invNext i imm himm := by
    obtain ⟨-, done, pend, hf⟩ := h 1
    obtain ⟨call, hcall, hlt, rfl, hmem⟩ := h.unread hf himm
    exact ⟨call, hcall, requestKey_request hlt (hf.written _ hmem)⟩
  getRead qid hqid := by
    obtain ⟨-, done, pend, hf⟩ := h qid
    exact hf.handled_due hqid
  getNext qid hqid imm himm := by
    obtain ⟨i, hi⟩ := List.mem_iff_getElem?.mp himm
    obtain ⟨ht, done, pend, hf⟩ := h qid
    obtain ⟨call, hcall, hlt, rfl, hmem⟩ := h.unread hf hi
    have hle := (ht.counts hf hqid).1
    have hlen := hf.handled_length
    have hwritten := hf.written _ hmem
    exact ⟨call, ht.outstanding hf hqid hcall (by omega), requestKey_request hlt hwritten,
      written_addr hlt hqid hwritten⟩
  getReply qid hqid r hr := h.getReply hqid hr
  polled qid := (h qid).1.polled
  fresh qid imm himm off hoff qid' r hr := by
    obtain ⟨i, hi⟩ := List.mem_iff_getElem?.mp himm
    obtain ⟨-, done, pend, hf⟩ := h qid
    obtain ⟨call, -, hlt, rfl, hmem⟩ := h.unread hf hi
    obtain ⟨hlow, hhigh⟩ := slots_request hlt hoff
    rcases h.apart hf hmem hr with hle | hle
    · exact Or.inr (hhigh.trans hle)
    · exact Or.inl (hle.trans hlow)

/-- In every run with fewer than `2 ^ 31` invalidations the handlers read what
the calls passed, the callers get the replies to their own calls, and no slot is
written again before it is read. -/
theorem requests_matched (hreach : (reqSystem hash exclusivePolicy cid).Reachable s)
    (hcalls : (s.queues 1).calls.length < 2 ^ 31) : s.Matched cid :=
  (Inv.of_reachable hreach hcalls).matched

/-- A get and an invalidation of one client. -/
def getAndInv : List (ReqStep ℕ) :=
  [.writeMsg 0 7 0x1000, .writeMsg2 9, .deliver 2, .deliver 1, .process 1 {}, .process 2 {},
   .pollSendCq 2, .pollRecvCq 2]

def listening : ReqPath ℕ where
  server := { Server.new 4096 (2 ^ 20) 1 1 8 fun _ => ⟨0, 0⟩ with recvs := fun _ => [0, 0] }

theorem requests_matched_getAndInv :
    ∃ s, (reqSystem (fun _ key => key.toNat) true 0).exec listening getAndInv = some s ∧
      s.Matched 0 ∧ (s.queues 2).lock = .free ∧ (s.queues 2).polled.length = 1 := by
  have hrun : ((reqSystem (fun _ key => key.toNat) true 0).exec listening getAndInv).map
      (fun s => ((s.queues 1).calls.length, (s.queues 2).lock, (s.queues 2).polled.length)) =
      some (1, .free, 1) := by decide +kernel
  obtain ⟨s, hexec, heq⟩ := Option.map_eq_some_iff.mp hrun
  obtain ⟨hcalls, hrest⟩ := Prod.mk.inj heq
  obtain ⟨hlock, hpolled⟩ := Prod.mk.inj hrest
  refine ⟨s, hexec, requests_matched ⟨listening, getAndInv, rfl, hexec⟩ ?_, hlock, hpolled⟩
  rw [hcalls]
  decide

end ReqPath

end CleancacheRdma.Driver
