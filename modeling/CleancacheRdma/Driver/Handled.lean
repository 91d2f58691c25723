import Mathlib
import CleancacheRdma.Daemon.Content
import CleancacheRdma.Driver.GetReply
import CleancacheRdma.Driver.Matching

/-!
# What a request does to the daemon

The handlers of the requests of a client, as steps of its queues: what they
leave of the table, what they answer, and what they leave of the queues.
-/

namespace CleancacheRdma.Daemon.Server

variable {Page : Type} {hash : HashFuncs} {exclusivePolicy : Bool} {s : Server Page}

/-- A request is placed. -/
theorem Inv.popRecv (h : s.Inv hash) {cid qid : ℕ} (hcid : cid < s.kv.pool.numClients)
    (hqid : qid < numQps) {addr : Value} (hhead : (s.recvs (cid, qid)).head? = some addr) (off : ℕ)
    (words : List (BitVec 64)) :
    Follows hash s ((s.popRecv cid qid).remoteWrite cid off words) fun _ => 0 where
  inv := ⟨h.kv, h.perCliFl⟩
  numClients := rfl
  places p _ _ := by
    have hposted := posted_popRecv hcid hqid hhead p
    show s.kv.places p + (s.popRecv cid qid).posted p ≤ s.kv.places p + s.posted p
    omega

/-- The key of an invalidation is gone. -/
theorem processInvalidatePage_view (hinv : s.Inv hash) {cid qid mid : ℕ}
    (hkey : Usable (s.metaRegion cid (invKeyOffset qid mid))) (d : Draw) :
    (s.processInvalidatePage hash cid qid mid d).1.kv.table.view (hash 0)
      (s.metaRegion cid (invKeyOffset qid mid)) = none := by
  rw [processInvalidatePage_fst]
  show (s.kv.removeFree hash _ cid d.rand).table.view (hash 0) _ = none
  rw [KV.removeFree_table, KV.remove_view hinv.kv.table hkey, Function.update_self]

/-- Requests store nothing. -/
theorem processImm_view (hinv : s.Inv hash) {cid qid : ℕ} {imm : BitVec 32}
    (hkeys : ∀ key ∈ s.requestKey cid qid imm, Usable key) (d : Draw) {k : Key} {p : Value}
    (hp : (s.processImm hash exclusivePolicy cid qid imm d).1.kv.table.view (hash 0) k = some p) :
    s.kv.table.view (hash 0) k = some p := by
  have hpost : (s.postRecv cid qid NONE).Inv hash := ⟨hinv.kv, hinv.perCliFl⟩
  rcases processImm_cases hash exclusivePolicy s cid qid imm d with
    ⟨hkey, mid, heq⟩ | ⟨mid, hkey, heq⟩ | ⟨-, heq⟩
  · rw [heq] at hp
    exact view_processGet hpost (hkeys _ hkey) mid d hp
  · rw [heq, processInvalidatePage_fst] at hp
    exact view_removeFree hpost (hkeys _ hkey) cid d.rand hp
  · rw [heq] at hp
    exact hp

end CleancacheRdma.Daemon.Server

namespace CleancacheRdma.Driver

open Daemon (Key Value HashFuncs Server ServerStep Reply Draw MsgType Usable longkeyToCid NONE FAILED
  numMsgs numQps numDataQps readKeyOffset invKeyOffset)

/-! ## The handler of a request -/

section Handler

variable {Page : Type} {hash : HashFuncs} {exclusivePolicy : Bool} {cid : ℕ} {s : Server Page}

theorem processImm_get {qid : ℕ} (hqid : qid ≠ 1) (n : ℕ) (call : Key × BitVec 64) (d : Draw) :
    s.processImm hash exclusivePolicy cid qid (request qid n call).imm d =
      (((s.postRecv cid qid NONE).processGet hash exclusivePolicy cid qid 0 d).1,
        some ((s.postRecv cid qid NONE).processGet hash exclusivePolicy cid qid 0 d).2) := by
  have htype : MsgType.ofCode MsgType.read.code = some .read := rfl
  rw [request_get hqid, Server.processImm, getRequest_imm, htype]

theorem processImm_inv (n : ℕ) (call : Key × BitVec 64) (d : Draw) :
    s.processImm hash exclusivePolicy cid 1 (request 1 n call).imm d =
      (s.postRecv cid 1 NONE).processInvalidatePage hash cid 1 (n % numMsgs) d := by
  have htype : MsgType.ofCode MsgType.invPage.code = some .invPage := rfl
  rw [request_inv, Server.processImm, invRequest_imm (slot_lt n), htype]

/-- A written get finds its key where the handler reads it. -/
theorem written_key {qid n : ℕ} {call : Key × BitVec 64} {region : ℕ → BitVec 64}
    (hqid : qid < numDataQps) (hne : qid ≠ 1) (hwritten : (request qid n call).Written region) :
    region (readKeyOffset qid) = call.1 := by
  have hkey := hwritten 0 call.1 (by rw [request_get hne]; rfl)
  rwa [request_get hne, getRequest_off hqid] at hkey

theorem written_invKey {n : ℕ} {call : Key × BitVec 64} {region : ℕ → BitVec 64}
    (hwritten : (request 1 n call).Written region) :
    region (invKeyOffset 1 (n % numMsgs)) = call.1 := by
  have hkey := hwritten 0 call.1 (by rw [request_inv]; rfl)
  rwa [request_inv, invRequest_off (slot_lt n)] at hkey

end Handler

/-- The caller of a get makes 0 of a reply with a page and 1 of one without. -/
def Answers {Page : Type} (r : Reply Page) : Prop :=
  ∀ (page : Page) (crc : BitVec 32),
    (GetCall.mk true true ⟨0, r.imm⟩ crc page).writeMsg = some 0 ∧ (∃ data, r.payload = .page data) ∨
    (GetCall.mk true true ⟨0, r.imm⟩ crc page).writeMsg = some 1 ∧ r.payload = .empty

theorem processGet_answers {Page : Type} (hash : HashFuncs) (exclusivePolicy : Bool)
    (s : Server Page) (cid qid : ℕ) (d : Draw) :
    Answers (s.processGet hash exclusivePolicy cid qid 0 d).2 :=
  fun page crc => GetCall.writeMsg_processGet (by decide) rfl page crc

namespace ReqPath

variable {Page : Type} {hash : HashFuncs} {exclusivePolicy : Bool} {cid : ℕ} {s s' : ReqPath Page}

/-! ## Queues -/

/-- Two queues that agree on calls, lock, replies and what was handled. -/
def SameQueue (q q' : ReqQueue Page) : Prop :=
  q'.calls = q.calls ∧ q'.lock = q.lock ∧ q'.replies = q.replies ∧ q'.handled = q.handled

theorem deliver_queue {qid : ℕ} (h : s.deliver cid qid = some s') (i : ℕ) :
    SameQueue (s.queues i) (s'.queues i) := by
  unfold ReqPath.deliver at h
  split at h
  · cases h
    refine forall_setQueue (P := fun i q' => SameQueue (s.queues i) q') ?_
      (fun _ => ⟨rfl, rfl, rfl, rfl⟩) i
    exact ⟨rfl, rfl, rfl, rfl⟩
  · cases h

theorem deliver_server {qid : ℕ} (h : s.deliver cid qid = some s') :
    ∃ addr off words, (s.server.recvs (cid, qid)).head? = some addr ∧ (s.queues qid).sends ≠ [] ∧
      s'.server = (s.server.popRecv cid qid).remoteWrite cid off words := by
  unfold ReqPath.deliver at h
  split at h
  next r sends addr hsends haddr =>
    cases h
    exact ⟨addr, r.off, r.words, haddr, by rw [hsends]; exact List.cons_ne_nil _ _, rfl⟩
  · cases h

/-- The handler of the oldest completion of a queue, which is that of the first
call not handled yet. -/
structure Handles (hash : HashFuncs) (exclusivePolicy : Bool) (cid : ℕ) (s s' : ReqPath Page)
    (qid : ℕ) (d : Draw) (call : Key × BitVec 64) (reply : Option (Reply Page)) : Prop where
  qid_lt : qid < numDataQps
  next : (s.queues qid).calls[(s.queues qid).handled.length]? = some call
  completion : (s.queues qid).completions.head? =
    some (request qid (s.queues qid).handled.length call).imm
  written : (request qid (s.queues qid).handled.length call).Written (s.server.metaRegion cid)
  result : s.server.processImm hash exclusivePolicy cid qid
    (request qid (s.queues qid).handled.length call).imm d = (s'.server, reply)
  other : ∀ i, i ≠ qid → s'.queues i = s.queues i
  calls : (s'.queues qid).calls = (s.queues qid).calls
  lock : (s'.queues qid).lock = (s.queues qid).lock
  replies : (s'.queues qid).replies = (s.queues qid).replies ++ reply.toList
  handled : (s'.queues qid).handled.length = (s.queues qid).handled.length + 1

theorem Inv.handles (h : s.Inv cid) {qid : ℕ} {d : Draw}
    (hstep : s.process hash exclusivePolicy cid qid d = some s') :
    ∃ call reply, Handles hash exclusivePolicy cid s s' qid d call reply := by
  unfold ReqPath.process at hstep
  split at hstep
  · cases hstep
  next imm completions hcomp =>
    cases hstep
    obtain ⟨-, done, pend, hf⟩ := h qid
    obtain ⟨call, hcall, hlt, rfl, hmem⟩ := h.unread hf (i := 0) (by rw [hcomp]; rfl)
    have hwritten := hf.written _ hmem
    have hkey := requestKey_request hlt hwritten
    refine ⟨call, (s.server.processImm hash exclusivePolicy cid qid
      (request qid ((s.queues qid).handled.length + 0) call).imm d).2, hlt, hcall, by rw [hcomp]; rfl, hwritten,
      rfl, fun i hi => Function.update_of_ne hi _ _, ?_, ?_, ?_, ?_⟩
    · simp only [ReqPath.setQueue, Function.update_self]
    · simp only [ReqPath.setQueue, Function.update_self]
    · simp only [ReqPath.setQueue, Function.update_self]
    · simp only [ReqPath.setQueue, Function.update_self, hkey, Option.toList_some, List.map_singleton,
        List.length_append, List.length_singleton]

/-- Under a free lock no reply waits. -/
theorem Inv.replies_nil (h : s.Inv cid) {qid : ℕ} (hqid : qid ≠ 1)
    (hlock : (s.queues qid).lock = .free) : (s.queues qid).replies = [] := by
  refine List.eq_nil_iff_forall_not_mem.mpr fun r hr => ?_
  obtain ⟨call, hout, -⟩ := h.getReply hqid hr
  exact hout.1 hlock

theorem Inv.handled_le (h : s.Inv cid) (qid : ℕ) :
    (s.queues qid).handled.length ≤ (s.queues qid).calls.length := by
  obtain ⟨-, done, pend, hf⟩ := h qid
  have hreq := congrArg List.length hf.requests
  rw [ReqQueue.requests_length, List.length_append] at hreq
  rw [hf.handled_length]
  omega

section Handles

variable {qid : ℕ} {d : Draw} {call : Key × BitVec 64} {reply : Option (Reply Page)}

theorem Handles.requestKey (h : Handles hash exclusivePolicy cid s s' qid d call reply) :
    s.server.requestKey cid qid (request qid (s.queues qid).handled.length call).imm = some call.1 :=
  requestKey_request h.qid_lt h.written

/-- What the handler leaves of every queue. -/
theorem Handles.queue (h : Handles hash exclusivePolicy cid s s' qid d call reply) (i : ℕ) :
    (s'.queues i).calls = (s.queues i).calls ∧ (s'.queues i).lock = (s.queues i).lock ∧
      (s.queues i).handled.length ≤ (s'.queues i).handled.length ∧
      ∀ r ∈ (s'.queues i).replies, r ∈ (s.queues i).replies ∨ i = qid ∧ reply = some r := by
  by_cases hi : i = qid
  · subst hi
    refine ⟨h.calls, h.lock, h.handled ▸ Nat.le_succ _, fun r hr => ?_⟩
    rw [h.replies] at hr
    exact (List.mem_append.mp hr).imp_right fun hnew => ⟨rfl, Option.mem_toList.mp hnew⟩
  · rw [h.other i hi]
    exact ⟨rfl, rfl, Nat.le_refl _, fun r hr => Or.inl hr⟩

theorem Handles.follows (h : Handles hash exclusivePolicy cid s s' qid d call reply)
    (hinv : s.server.Inv hash) (hcid : cid < s.server.kv.pool.numClients)
    (hkey : Usable call.1 ∧ longkeyToCid call.1 = cid) :
    Server.Follows hash s.server s'.server fun _ => 0 := by
  refine hinv.processImm hcid (Nat.lt_succ_of_lt h.qid_lt) (fun key hk => ?_) h.result
  rw [h.requestKey] at hk
  cases hk
  exact hkey

theorem Handles.view (h : Handles hash exclusivePolicy cid s s' qid d call reply)
    (hinv : s.server.Inv hash) (hkey : Usable call.1) {k : Key} {p : Value}
    (hp : s'.server.kv.table.view (hash 0) k = some p) :
    s.server.kv.table.view (hash 0) k = some p := by
  have hfst := congrArg Prod.fst h.result
  dsimp only at hfst
  rw [← hfst] at hp
  refine Server.processImm_view hinv (fun key hk => ?_) d hp
  rw [h.requestKey] at hk
  cases hk
  exact hkey

/-- A get is handled for the thread that made the last call of its queue. -/
theorem Handles.last (h : Handles hash exclusivePolicy cid s s' qid d call reply) (hreq : s.Inv cid)
    (hqid : qid ≠ 1) {call' : Key × BitVec 64} (hlast : (s.queues qid).calls.getLast? = some call') :
    call.1 = call'.1 := by
  obtain ⟨imm, himm⟩ := List.head?_eq_some_iff.mp h.completion
  obtain ⟨outer, hout, hkey, -⟩ := hreq.matched.getNext qid hqid
    (request qid (s.queues qid).handled.length call).imm (by rw [himm]; exact List.mem_cons_self)
  have hsame := h.requestKey.symm.trans hkey
  rw [hout.2.1] at hlast
  cases hlast
  exact Option.some.inj hsame

/-- After an invalidation its key is gone. -/
theorem Handles.inv (h : Handles hash exclusivePolicy cid s s' 1 d call reply)
    (hinv : s.server.Inv hash) (hkey : Usable call.1) :
    s'.server.kv.table.view (hash 0) call.1 = none := by
  have hread := written_invKey h.written
  have hfst := congrArg Prod.fst h.result
  rw [processImm_inv] at hfst
  dsimp only at hfst
  have hpost : (s.server.postRecv cid 1 NONE).Inv hash := ⟨hinv.kv, hinv.perCliFl⟩
  have hread' : Usable ((s.server.postRecv cid 1 NONE).metaRegion cid
      (invKeyOffset 1 ((s.queues 1).handled.length % numMsgs))) := by
    rw [Server.postRecv_metaRegion, hread]
    exact hkey
  have hview := Server.processInvalidatePage_view hpost hread' d
  rw [Server.postRecv_metaRegion, hread, hfst] at hview
  exact hview

/-- A get is answered with what is stored under its key. -/
theorem Handles.get (h : Handles hash exclusivePolicy cid s s' qid d call reply) (hqid : qid ≠ 1)
    (hinv : s.server.Inv hash) (hkey : Usable call.1) :
    ∃ r, reply = some r ∧ Answers r ∧
      ((s.server.kv.table.view (hash 0) call.1 = none ∧ r.payload = .empty) ∨
        ∃ p, s.server.kv.table.view (hash 0) call.1 = some p ∧
          r.payload = .page (s.server.mem p).data) := by
  have hread := written_key h.qid_lt hqid h.written
  have hsnd := congrArg Prod.snd h.result
  rw [processImm_get hqid] at hsnd
  dsimp only at hsnd
  have hpost : (s.server.postRecv cid qid NONE).Inv hash := ⟨hinv.kv, hinv.perCliFl⟩
  have hread' : Usable ((s.server.postRecv cid qid NONE).metaRegion cid (readKeyOffset qid)) := by
    rw [Server.postRecv_metaRegion, hread]
    exact hkey
  have hanswer := @Server.processGet_answer _ _ exclusivePolicy _ hpost cid qid hread' 0 d
  rw [Server.postRecv_metaRegion, hread] at hanswer
  exact ⟨_, hsnd.symm, processGet_answers hash exclusivePolicy _ cid qid d, hanswer⟩

end Handles

end ReqPath

end CleancacheRdma.Driver
