import Mathlib
import CleancacheRdma.Daemon.Circulation
import CleancacheRdma.Daemon.Imm
import CleancacheRdma.Daemon.Receives
import CleancacheRdma.Driver.InTransit
import CleancacheRdma.Driver.LastPut
import CleancacheRdma.Lib.Progress

/-!
# The put buffer drains

A put is refused with -6 while the bit of its batch is set. The bit is cleared
by the work item of the batch, and the items wait for each other at `q->mtx`;
the item of the last batch of a round keeps the mutex until the daemon has
replied to its last message. So the buffer is open again only if the daemon
takes every message and replies to exactly the one that is waited for. The
pages of an incomplete batch have no item and stay.
-/

namespace CleancacheRdma.Daemon

open Lib (System)

/-- A buffer that a page can be received in. -/
def IsPage (a : Value) : Prop := a ≠ NONE ∧ a ≠ FAILED

namespace Server

variable {Page : Type} {hash : HashFuncs} {exclusivePolicy : Bool} {s s' : Server Page} {cid : ℕ}

/-! ## The daemon takes puts -/

/-- Queue 0 of the client has receives posted, with pages only. -/
structure TakesPuts (hash : HashFuncs) (cid : ℕ) (s : Server Page) : Prop where
  inv : s.Inv hash
  only : s.Only IsPage
  client : cid < s.kv.pool.numClients
  posted : s.recvs (cid, 0) ≠ []
  pages : ∀ a ∈ s.recvs (cid, 0), IsPage a

/-- Two passes of `RETRY` are enough for every put. -/
theorem processPut_some (h : s.kv.table.TableInv (hash 0)) {mid : ℕ} {recvAddr : Value}
    (haddr : recvAddr ≠ NONE) (hkey : Usable (s.mem recvAddr).key) (d : Draw)
    (x y : KV.InsertDraw) :
    ∃ r, s.processPut hash cid 0 mid recvAddr { d with inserts := [x, y] } = .ok r := by
  cases halloc : s.kv.allocate cid none d.rand with
  | none =>
      unfold Server.processPut
      dsimp only
      rw [halloc]
      exact ⟨_, rfl⟩
  | some v =>
      obtain ⟨value, kv⟩ := v
      have htable : kv.table = s.kv.table := by
        obtain ⟨⟨_, pool⟩, -, heq⟩ := Option.map_eq_some_iff.mp halloc
        cases heq
        rfl
      obtain ⟨kv', hins⟩ :
      ∃ kv', kv.insert hash (s.mem recvAddr).key recvAddr cid [x, y] = .ok kv' :=
        KV.insert_returns (htable ▸ h) hkey haddr x y []
      have hput : ∃ r, s.processPut hash cid 0 mid recvAddr { d with inserts := [x, y] } =
          .ok ({ s.postRecv cid 0 value with kv := kv' }, r) := processPut_of_insert halloc hins
      obtain ⟨r, hr⟩ := hput
      exact ⟨_, hr⟩

/-- The message numbered last in a round is replied to, the others are not. -/
theorem processPut_reply {mid : ℕ} {recvAddr : Value} {d : Draw} {r : Option (Reply Page)}
    (hr : s.processPut hash cid 0 mid recvAddr d = .ok (s', r)) :
    r.toList.length = if mid = numMsgs - 1 then 1 else 0 := by
  have hdone : ∀ {x : Except Stop (Server Page)} {f : Server Page → Server Page × Option (Reply Page)},
      x.map f = .ok (s', r) → ∃ t, f t = (s', r) := by
    intro x f hx
    cases x with
    | error e => cases hx
    | ok t => exact ⟨t, Except.ok.inj hx⟩
  obtain ⟨t, ht⟩ := hdone hr
  by_cases hlast : mid = numMsgs - 1
  · rw [if_pos hlast] at ht ⊢
    cases ht
    rfl
  · rw [if_neg hlast] at ht ⊢
    cases ht
    rfl

/-- A put on queue 0 is handled by `process_put`. -/
theorem TakesPuts.step_eq (h : s.TakesPuts hash cid) (exclusivePolicy : Bool) :
    ∃ addr, IsPage addr ∧ ∀ (b : Slot Page) (imm : BitVec 32) (d : Draw),
      s.step hash exclusivePolicy (.send cid 0 (.slot b) imm d) =
        ({ s.popRecv cid 0 with mem := Function.update s.mem addr b }.processPut hash cid 0
          (bitUnmask (ntohl imm)).mid addr d).toOption := by
  obtain ⟨addr, hhead⟩ := Option.isSome_iff_exists.mp (List.isSome_head?.mpr h.posted)
  have hpage := h.pages addr (List.mem_of_head? hhead)
  refine ⟨addr, hpage, fun b imm d => ?_⟩
  have hdata : ¬ ((0 : ℕ) = numDataQps ∧ imm = FILTER_UPDATE_BEGIN) :=
    fun h => absurd h.1 (by decide)
  simp only [step, hhead, deliver, hpage.1, hpage.2, or_self, if_false, Option.bind_some,
    processRecv, hdata]
  rfl

theorem TakesPuts.step_some (h : s.TakesPuts hash cid) (exclusivePolicy : Bool) {b : Slot Page}
    (hkey : Usable b.key) (imm : BitVec 32) (d : Draw) (x y : KV.InsertDraw) :
    ∃ r, s.step hash exclusivePolicy (.send cid 0 (.slot b) imm { d with inserts := [x, y] }) =
      some r := by
  obtain ⟨addr, hpage, hstep⟩ := h.step_eq exclusivePolicy
  have hput : ∃ r, ({ s.popRecv cid 0 with mem := Function.update s.mem addr b } :
      Server Page).processPut hash cid 0 (bitUnmask (ntohl imm)).mid addr
        { d with inserts := [x, y] } = .ok r := by
    have htable : ({ s.popRecv cid 0 with mem := Function.update s.mem addr b } :
        Server Page).kv.table.TableInv (hash 0) := h.inv.kv.table
    refine processPut_some htable hpage.1 ?_ d x y
    show Usable (Function.update s.mem addr b addr).key
    rw [Function.update_self]
    exact hkey
  obtain ⟨r, hr⟩ := hput
  rw [hstep, hr]
  exact ⟨r, rfl⟩

theorem TakesPuts.step_reply (h : s.TakesPuts hash cid) {b : Slot Page} {imm : BitVec 32}
    {d : Draw} {r : Option (Reply Page)}
    (hstep : s.step hash exclusivePolicy (.send cid 0 (.slot b) imm d) = some (s', r)) :
    r.toList.length = if (bitUnmask (ntohl imm)).mid = numMsgs - 1 then 1 else 0 := by
  obtain ⟨addr, -, heq⟩ := h.step_eq exclusivePolicy
  rw [heq] at hstep
  exact processPut_reply (toOption_some hstep)

/-- In the place of the receive of a put a page is posted again. -/
theorem TakesPuts.send (h : s.TakesPuts hash cid) {b : Slot Page} {imm : BitVec 32} {d : Draw}
    (hkey : Usable b.key ∧ longkeyToCid b.key = cid) {r : Option (Reply Page)}
    (hstep : s.step hash exclusivePolicy (.send cid 0 (.slot b) imm d) = some (s', r)) :
    s'.TakesPuts hash cid := by
  have hwf : s.WellFormed (.send cid 0 (.slot b) imm d) :=
    ⟨h.client, by decide, by decide, hkey.1, hkey.2⟩
  have hfollows := h.inv.step hwf hstep
  obtain ⟨honly, hrep⟩ := step_replaced_iff h.only hstep
  have hhead : (s.recvs (cid, 0)).head? ≠ some NONE := fun hnone =>
    (h.pages NONE (List.mem_of_head? hnone)).1 rfl
  obtain ⟨addr, hrecvs, hpage⟩ := hrep.mpr (Or.inr hhead) (cid, 0) rfl
  have hself : s'.recvs (cid, 0) = (s.recvs (cid, 0)).tail ++ [addr] := by
    rw [hrecvs, Function.update_self]
  refine ⟨hfollows.inv, honly, by rw [hfollows.numClients]; exact h.client, ?_, fun a ha => ?_⟩
  · rw [hself]
    exact List.append_ne_nil_of_right_ne_nil _ (List.cons_ne_nil _ _)
  · rw [hself] at ha
    rcases List.mem_append.mp ha with hold | hnew
    · exact h.pages a (List.mem_of_mem_tail hold)
    · rw [List.mem_singleton.mp hnew]
      exact hpage ⟨fun h => absurd h.1 (by decide), hhead⟩

theorem TakesPuts.step (h : s.TakesPuts hash cid) {a : ServerStep Page} (hwf : s.WellFormed a)
    (hqueue : a.queue ≠ some (cid, 0)) (hposts : a.postsOn ≠ some (cid, 0))
    {r : Option (Reply Page)} (hstep : s.step hash exclusivePolicy a = some (s', r)) :
    s'.TakesPuts hash cid := by
  have hfollows := h.inv.step hwf hstep
  have hrecvs := step_recvs_of_ne hqueue hposts hstep
  exact ⟨hfollows.inv, (step_replaced_iff h.only hstep).1,
    by rw [hfollows.numClients]; exact h.client, by rw [hrecvs]; exact h.posted,
    by rw [hrecvs]; exact h.pages⟩

/-- A queue whose own list is long enough gets pages from there only. -/
theorem prePostRecvs_take {qid : ℕ} (hqid : qid < Daemon.numDataQps)
    (h : s.kv.pool.perCliFl = Daemon.numDataQps)
    (hlen : maxQpsRecvs ≤ (s.kv.pool.freelist (cid * Daemon.numDataQps + qid)).addrs.length)
    (hnil : s.recvs (cid, qid) = []) :
    (s.prePostRecvs cid qid).recvs (cid, qid) =
      (s.kv.pool.freelist (cid * Daemon.numDataQps + qid)).addrs.take maxQpsRecvs := by
  unfold prePostRecvs
  rw [(iterate_prePostRecv_take hqid maxQpsRecvs h hlen).1, hnil, List.nil_append]

end Server

end CleancacheRdma.Daemon

namespace CleancacheRdma.Driver

open Daemon (Slot Value HashFuncs Server ServerStep Reply Draw Usable longkeyToCid MsgType TxState
  ImmFields NONE IsPage bitMask bitUnmask htonl ntohl numMsgs bitUnmask_wire serverSystem
  serverSystem_step)
open Lib (System Ends)

/-! ## Replies and who waits for them -/

/-- The message is the last of a round. -/
def EndsRound (imm : BitVec 32) : Prop := (bitUnmask (ntohl imm)).mid = numMsgs - 1

instance : DecidablePred EndsRound := fun _ => inferInstanceAs (Decidable (_ = _))

theorem endsRound_iff {m : ℕ} (hm : m < numMsgs) :
    EndsRound (htonl (bitMask m MsgType.write.code TxState.writeBegin.code 0 0)) ↔
      m = numMsgs - 1 := by
  have hlt : m < 512 := hm
  have hfits : (⟨m, MsgType.write.code, TxState.writeBegin.code, 0, 0⟩ : ImmFields).Fits := by
    refine ⟨?_, (by decide : 3 < 2 ^ 4), (by decide : 1 < 2 ^ 4), (by decide : 0 < 2 ^ 4),
      (by decide : 0 < 2 ^ 8)⟩
    show m < 2 ^ 12
    omega
  have hwire := bitUnmask_wire (f := ⟨m, MsgType.write.code, TxState.writeBegin.code, 0, 0⟩) hfits
  unfold EndsRound
  rw [hwire]

namespace PutQueue

variable {Page : Type} {q q' : PutQueue Page}

/-- The replies that are there, and those that the messages on the way will bring. -/
def owed (q : PutQueue Page) : ℕ :=
  q.replies.length + q.wire.countP (fun m => EndsRound m.2) +
    q.sends.countP fun wr => EndsRound wr.imm

/-- The replies that the holder of `q->mtx` polls before it leaves. -/
def awaited (q : PutQueue Page) : ℕ :=
  match q.mtx with
  | .free => 0
  | .posted data | .completed data => if data.msgId = numMsgs - 1 then 1 else 0
  | .polling => 1

/-- How many steps there are at most before no item is left. -/
def toGo (q : PutQueue Page) : ℕ :=
  69 * q.work.length + 2 * q.sends.length + q.wire.length +
    match q.mtx with
    | .free => 0
    | .posted _ => 3
    | .completed _ => 2
    | .polling => 1

/-- An item is scheduled or at work, or a message is on its way. -/
def Busy (q : PutQueue Page) : Prop := q.work ≠ [] ∨ q.mtx ≠ .free ∨ q.wire ≠ []

/-- A batch has one message that ends a round if it is the last of the round. -/
theorem batchSends_owed {data : WorkData} (h : data.msgId = data.batch % 16 * 32 + 31) :
    (batchSends data).countP (fun wr => EndsRound wr.imm) =
      if data.msgId = numMsgs - 1 then 1 else 0 := by
  have hgroup : data.batch % 16 < 16 := Nat.mod_lt _ (by decide)
  have hlast : ∀ i ∈ List.range 32, EndsRound (htonl (bitMask
      (data.msgId - (numPutBatch - 1) + i) MsgType.write.code TxState.writeBegin.code 0 0)) ↔
        data.batch % 16 * 32 + i = 511 := by
    intro i hi
    have hlt := List.mem_range.mp hi
    have hid : data.msgId - (numPutBatch - 1) + i = data.batch % 16 * 32 + i := by
      rw [h]
      show data.batch % 16 * 32 + 31 - 31 + i = _
      omega
    rw [hid]
    exact endsRound_iff (show _ < 512 by omega)
  unfold batchSends
  rw [List.countP_map]
  refine (List.countP_congr (q := fun i => decide (data.batch % 16 * 32 + i = 511))
    fun i hi => ?_).trans ?_
  · rw [Function.comp_apply, decide_eq_true_iff, decide_eq_true_iff]
    exact hlast i hi
  · rw [h]
    show (List.range 32).countP _ = if data.batch % 16 * 32 + 31 = 511 then 1 else 0
    generalize data.batch % 16 = g at hgroup
    revert g
    decide

end PutQueue

/-! ## Steps -/

namespace PutPathStep

variable {Page : Type}

/-- An item or the daemon goes on. -/
def Drains : PutPathStep Page → Prop
  | .client (.post _) | .client .transmit | .client .pollSendCq | .client .clearBit
  | .client .pollRecvCq | .process _ => True
  | .client (.sendPage _) | .client .receive | .client (.reply _) | .server _ => False

instance : DecidablePred (@Drains Page)
  | .client (.post _) | .client .transmit | .client .pollSendCq | .client .clearBit
  | .client .pollRecvCq | .process _ => isTrue trivial
  | .client (.sendPage _) | .client .receive | .client (.reply _) | .server _ => isFalse not_false

end PutPathStep

namespace PutPath

variable {Page : Type} {hash : HashFuncs} {exclusivePolicy : Bool} {cid : ℕ}
  {s s' t : PutPath Page}

/-- Keys are the client's, and the counter has not wrapped; what else happens to
the daemon is well formed and leaves queue 0 of the client alone. -/
def Allowed (cid : ℕ) (s : PutPath Page) : PutPathStep Page → Prop
  | .client (.sendPage page) =>
      (Usable page.key ∧ longkeyToCid page.key = cid) ∧ s.put.queue.msgId < 2 ^ 31
  | .client _ | .process _ => True
  | .server a => s.server.WellFormed a ∧ a.queue ≠ some (cid, 0) ∧ a.postsOn ≠ some (cid, 0)

/-- No new put comes. -/
def Resting (cid : ℕ) (s : PutPath Page) (a : PutPathStep Page) : Prop :=
  s.Allowed cid a ∧ ∀ page, a ≠ .client (.sendPage page)

/-- A set bit is that of an item, the holder of the mutex waits for exactly the
replies that are owed, and the daemon can take what is on the wire. -/
structure Flowing (hash : HashFuncs) (cid : ℕ) (s : PutPath Page) : Prop where
  put : s.put.Inv
  waits : ∀ group, s.put.queue.wait group = true →
    ∃ data ∈ s.put.queue.pending, data.batch % 16 = group
  keys : ∀ page ∈ s.put.accepted, Usable page.key ∧ longkeyToCid page.key = cid
  wire : ∀ m ∈ s.put.queue.wire, m.1 ∈ s.put.accepted
  owed : s.put.queue.owed = s.put.queue.awaited
  server : s.server.TakesPuts hash cid

/-- What the adapter has still to read was accepted. -/
theorem Flowing.unread (h : s.Flowing hash cid) {page : Slot Page}
    (hpage : page ∈ s.put.queue.unread) : page ∈ s.put.accepted := by
  have hmem : page ∈ s.put.ran.flatMap (batchOf s.put.accepted) := by
    rw [← h.put.posted]
    exact List.mem_append_right _ hpage
  obtain ⟨b, -, hb⟩ := List.mem_flatMap.mp hmem
  exact List.mem_of_mem_drop (List.mem_of_mem_take hb)

theorem Flowing.sendPage (h : s.Flowing hash cid) {page : Slot Page}
    (hkey : Usable page.key ∧ longkeyToCid page.key = cid) {put : PutRun Page}
    (hstep : s.put.step (.sendPage page) = some put) : Flowing hash cid { s with put } := by
  have hput := h.put.step hstep
  cases hstep
  rcases s.put.queue.sendPage_cases page with
    ⟨-, hrej⟩ | ⟨-, q', hacc, -, hmtx, hsends, hwire, hreplies, -, hlast⟩
  · simp only [hrej] at hput ⊢
    exact ⟨hput, h.waits, h.keys, h.wire, h.owed, h.server⟩
  simp only [hacc, if_true] at hput ⊢
  have hmore : ∀ data ∈ s.put.queue.pending, data ∈ q'.pending := by
    intro data hdata
    unfold PutQueue.pending at hdata ⊢
    rw [hmtx]
    rcases List.mem_append.mp hdata with hwork | hrest
    · refine List.mem_append_left _ ?_
      rcases hlast with ⟨-, -, hw⟩ | ⟨-, -, hw⟩
      · rwa [hw]
      · rw [hw]
        exact List.mem_append_left _ hwork
    · exact List.mem_append_right _ hrest
  refine ⟨hput, fun group hw => ?_, ?_, ?_, ?_, h.server⟩
  · rcases hlast with ⟨-, hwait, -⟩ | ⟨hfull, hwait, hwork⟩
    · obtain ⟨data, hdata, hg⟩ := h.waits group (hwait ▸ hw)
      exact ⟨data, hmore data hdata, hg⟩
    · by_cases hg : group = s.put.queue.msgId % 512 / 32
      · refine ⟨⟨s.put.queue.msgId % 512, s.put.queue.msgId / 32⟩, ?_, ?_⟩
        · refine List.mem_append_left _ ?_
          rw [hwork]
          exact List.mem_append_right _ (List.mem_singleton.mpr rfl)
        · dsimp only
          omega
      · have hw' : q'.wait group = true := hw
        rw [hwait, Function.update_of_ne hg] at hw'
        obtain ⟨data, hdata, hg'⟩ := h.waits group hw'
        exact ⟨data, hmore data hdata, hg'⟩
  · intro p hp
    rcases List.mem_append.mp hp with hold | hnew
    · exact h.keys p hold
    · rw [List.mem_singleton.mp hnew]
      exact hkey
  · intro m hm
    exact List.mem_append_left _ (h.wire m (hwire ▸ hm))
  · have howed := h.owed
    unfold PutQueue.owed PutQueue.awaited at howed ⊢
    rw [hreplies, hwire, hsends, hmtx]
    exact howed

theorem Flowing.post (h : s.Flowing hash cid) {i : ℕ} {q' : PutQueue Page}
    (hpost : s.put.queue.post i = some q')
    (hput : PutRun.Inv { s.put with
      queue := q', ran := s.put.ran ++ (s.put.queue.work[i]?.map WorkData.batch).toList }) :
    Flowing hash cid { s with put := { s.put with
      queue := q', ran := s.put.ran ++ (s.put.queue.work[i]?.map WorkData.batch).toList } } := by
  obtain ⟨data, hmtx, hdata, rfl⟩ := PutQueue.post_some hpost
  have hi : i < s.put.queue.work.length := (List.getElem?_eq_some_iff.mp hdata).1
  have hget : s.put.queue.work[i] = data := (List.getElem?_eq_some_iff.mp hdata).2
  have hwork : s.put.queue.work.Perm (data :: s.put.queue.work.eraseIdx i) := by
    rw [← hget]
    exact (List.getElem_cons_eraseIdx_perm hi).symm
  refine ⟨hput, fun group hw => ?_, h.keys, h.wire, ?_, h.server⟩
  · obtain ⟨data', hdata', hg⟩ := h.waits group hw
    refine ⟨data', ?_, hg⟩
    unfold PutQueue.pending at hdata' ⊢
    rw [hmtx, List.append_nil] at hdata'
    rcases List.mem_cons.mp (hwork.mem_iff.mp hdata') with rfl | hrest
    · exact List.mem_append_right _ (List.mem_singleton.mpr rfl)
    · exact List.mem_append_left _ hrest
  · have hold := h.put.holds data (PutRun.mem_pending_work (List.mem_of_getElem? hdata))
    have howed := h.owed
    unfold PutQueue.owed PutQueue.awaited at howed ⊢
    rw [hmtx] at howed
    rw [PutQueue.batchSends_owed hold.msgId]
    dsimp only at howed ⊢
    omega

theorem Flowing.client (h : s.Flowing hash cid) {a : PutStep Page} {put : PutRun Page}
    (ha : PutPathStep.Drains (.client a)) (hstep : s.put.step a = some put) :
    Flowing hash cid { s with put } := by
  have hput := h.put.step hstep
  cases a with
  | sendPage _ | receive | reply _ => exact absurd ha not_false
  | post i =>
      obtain ⟨q', hpost, rfl⟩ := Option.map_eq_some_iff.mp hstep
      exact h.post hpost hput
  | transmit =>
      obtain ⟨q', htrans, rfl⟩ := Option.map_eq_some_iff.mp hstep
      obtain ⟨wr, sends, hsends, rfl⟩ := PutQueue.transmit_some htrans
      refine ⟨hput, h.waits, h.keys, fun m hm => ?_, ?_, h.server⟩
      · rcases List.mem_append.mp hm with hold | hnew
        · exact h.wire m hold
        · rw [List.mem_singleton.mp hnew]
          refine h.unread ?_
          unfold PutQueue.unread
          rw [hsends]
          exact List.mem_cons_self
      · have howed := h.owed
        unfold PutQueue.owed PutQueue.awaited at howed ⊢
        rw [hsends, List.countP_cons] at howed
        rw [List.countP_append, List.countP_singleton]
        dsimp only at howed ⊢
        omega
  | pollSendCq =>
      obtain ⟨q', hpoll, rfl⟩ := Option.map_eq_some_iff.mp hstep
      obtain ⟨data, hmtx, hsends, rfl⟩ := PutQueue.pollSendCq_some hpoll
      refine ⟨hput, fun group hw => ?_, h.keys, h.wire, ?_, h.server⟩
      · obtain ⟨data', hdata', hg⟩ := h.waits group hw
        refine ⟨data', ?_, hg⟩
        unfold PutQueue.pending at hdata' ⊢
        rwa [hmtx] at hdata'
      · have howed := h.owed
        unfold PutQueue.owed PutQueue.awaited at howed ⊢
        rwa [hmtx] at howed
  | clearBit =>
      obtain ⟨q', hclear, rfl⟩ := Option.map_eq_some_iff.mp hstep
      obtain ⟨data, hmtx, rfl⟩ := PutQueue.clearBit_some hclear
      have hmem : data ∈ s.put.queue.pending := by
        unfold PutQueue.pending
        rw [hmtx]
        exact List.mem_append_right _ (List.mem_singleton.mpr rfl)
      have hmsg := (h.put.holds data hmem).msgId
      refine ⟨hput, fun group hw => ?_, h.keys, h.wire, ?_, h.server⟩
      · have hne : group ≠ data.msgId / 32 := by
          rintro rfl
          simp at hw
        simp only [Function.update_of_ne hne] at hw
        obtain ⟨data', hdata', hg⟩ := h.waits group hw
        refine ⟨data', ?_, hg⟩
        unfold PutQueue.pending at hdata' ⊢
        rw [hmtx] at hdata'
        rcases List.mem_append.mp hdata' with hwork | hself
        · exact List.mem_append_left _ hwork
        · rw [List.mem_singleton.mp hself] at hg
          omega
      · have howed := h.owed
        unfold PutQueue.owed PutQueue.awaited at howed ⊢
        rw [hmtx] at howed
        dsimp only at howed ⊢
        rw [howed]
        show (if data.msgId = 511 then 1 else 0) = _
        by_cases hlast : data.msgId = 511
        · rw [if_pos hlast, if_pos hlast]
        · rw [if_neg hlast, if_neg hlast]
  | pollRecvCq =>
      obtain ⟨q', hpoll, rfl⟩ := Option.map_eq_some_iff.mp hstep
      obtain ⟨imm, replies, hmtx, hreplies, rfl⟩ := PutQueue.pollRecvCq_some hpoll
      refine ⟨hput, fun group hw => ?_, h.keys, h.wire, ?_, h.server⟩
      · obtain ⟨data', hdata', hg⟩ := h.waits group hw
        refine ⟨data', ?_, hg⟩
        unfold PutQueue.pending at hdata' ⊢
        rwa [hmtx] at hdata'
      · have howed := h.owed
        unfold PutQueue.owed PutQueue.awaited at howed ⊢
        rw [hmtx, hreplies, List.length_cons] at howed
        dsimp only at howed ⊢
        omega

theorem process_some {d : Draw} (h : s.step hash exclusivePolicy cid (.process d) = some s') :
    ∃ m wire r server, s.put.queue.wire = m :: wire ∧
      s.server.step hash exclusivePolicy (.send cid 0 (.slot m.1) m.2 d) = some (server, r) ∧
      s' = ⟨{ s.put with queue := { s.put.queue with
        wire, replies := s.put.queue.replies ++ (r.map Reply.imm).toList } }, server⟩ := by
  simp only [PutPath.step] at h
  split at h
  · cases h
  next m wire hwire =>
    obtain ⟨⟨server, r⟩, hserver, rfl⟩ := Option.map_eq_some_iff.mp h
    exact ⟨m, wire, r, server, hwire, hserver, rfl⟩

/-- The daemon replies to the message that ends a round and to no other. -/
theorem Flowing.process (h : s.Flowing hash cid) {d : Draw}
    (hstep : s.step hash exclusivePolicy cid (.process d) = some s') : s'.Flowing hash cid := by
  obtain ⟨m, wire, r, server, hwire, hserver, rfl⟩ := process_some hstep
  have hkey := h.keys m.1 (h.wire m (by rw [hwire]; exact List.mem_cons_self))
  refine ⟨h.put.daemon _ _, h.waits, h.keys, fun m' hm' => ?_, ?_, h.server.send hkey hserver⟩
  · exact h.wire m' (by rw [hwire]; exact List.mem_cons_of_mem m hm')
  · have howed := h.owed
    have hreply : r.toList.length = if EndsRound m.2 then 1 else 0 := h.server.step_reply hserver
    have hlen : (r.map Reply.imm).toList.length = r.toList.length := by cases r <;> rfl
    unfold PutQueue.owed PutQueue.awaited at howed ⊢
    rw [hwire, List.countP_cons] at howed
    dsimp only at howed ⊢
    rw [List.length_append, hlen, hreply]
    by_cases hlast : EndsRound m.2
    · rw [if_pos (decide_eq_true hlast)] at howed
      rw [if_pos hlast]
      omega
    · rw [if_neg (by simpa using hlast)] at howed
      rw [if_neg hlast]
      omega

/-- The client's own steps change nothing of the daemon. -/
theorem client_some {a : PutStep Page}
    (h : s.step hash exclusivePolicy cid (.client a) = some s') :
    ∃ put, s.put.step a = some put ∧ s' = { s with put } ∧ a ≠ .receive ∧ ∀ imm, a ≠ .reply imm := by
  cases a with
  | receive => cases h
  | reply imm => cases h
  | _ =>
      simp only [PutPath.step] at h
      obtain ⟨put, hput, rfl⟩ := Option.map_eq_some_iff.mp h
      exact ⟨put, hput, rfl, by rintro ⟨⟩, by rintro _ ⟨⟩⟩

theorem Flowing.step (h : s.Flowing hash cid) {a : PutPathStep Page}
    (hallowed : s.Allowed cid a) (hstep : s.step hash exclusivePolicy cid a = some s') :
    s'.Flowing hash cid := by
  cases a with
  | client a =>
      obtain ⟨put, hput, rfl, hreceive, hreply⟩ := client_some hstep
      cases a with
      | sendPage page => exact h.sendPage hallowed.1 hput
      | receive => exact absurd rfl hreceive
      | reply imm => exact absurd rfl (hreply imm)
      | post i => exact h.client (a := .post i) trivial hput
      | transmit => exact h.client (a := .transmit) trivial hput
      | pollSendCq => exact h.client (a := .pollSendCq) trivial hput
      | clearBit => exact h.client (a := .clearBit) trivial hput
      | pollRecvCq => exact h.client (a := .pollRecvCq) trivial hput
  | process d => exact h.process hstep
  | server a =>
      obtain ⟨⟨t, r⟩, hserver, rfl⟩ := Option.map_eq_some_iff.mp hstep
      obtain ⟨hwf, hqueue, hposts⟩ := hallowed
      exact ⟨h.put, h.waits, h.keys, h.wire, h.owed, h.server.step hwf hqueue hposts hserver⟩

/-- Items and daemon have less to do after each of their steps, and nobody else
gives them more while no put comes. -/
theorem step_toGo {a : PutPathStep Page} (hput : ∀ page, a ≠ .client (.sendPage page))
    (hstep : s.step hash exclusivePolicy cid a = some s') :
    (a.Drains → s'.put.queue.toGo < s.put.queue.toGo) ∧
      (¬ a.Drains → s'.put.queue.toGo = s.put.queue.toGo) := by
  cases a with
  | client a =>
      obtain ⟨put, hrun, rfl, hreceive, hreply⟩ := client_some hstep
      cases a with
      | sendPage page => exact absurd rfl (hput page)
      | receive => exact absurd rfl hreceive
      | reply imm => exact absurd rfl (hreply imm)
      | post i =>
          obtain ⟨q', hq, rfl⟩ := Option.map_eq_some_iff.mp hrun
          obtain ⟨data, hmtx, hdata, rfl⟩ := PutQueue.post_some hq
          have hi : i < s.put.queue.work.length := (List.getElem?_eq_some_iff.mp hdata).1
          have hlen : (PutQueue.batchSends data).length = 32 := by
            rw [PutQueue.batchSends, List.length_map, List.length_range]
            rfl
          refine ⟨fun _ => ?_, fun hno => absurd trivial hno⟩
          unfold PutQueue.toGo
          dsimp only
          rw [hmtx, hlen, List.length_eraseIdx_of_lt hi]
          dsimp only
          omega
      | transmit =>
          obtain ⟨q', hq, rfl⟩ := Option.map_eq_some_iff.mp hrun
          obtain ⟨wr, sends, hsends, rfl⟩ := PutQueue.transmit_some hq
          refine ⟨fun _ => ?_, fun hno => absurd trivial hno⟩
          unfold PutQueue.toGo
          simp only [hsends, List.length_append, List.length_cons, List.length_nil]
          omega
      | pollSendCq =>
          obtain ⟨q', hq, rfl⟩ := Option.map_eq_some_iff.mp hrun
          obtain ⟨data, hmtx, -, rfl⟩ := PutQueue.pollSendCq_some hq
          refine ⟨fun _ => ?_, fun hno => absurd trivial hno⟩
          unfold PutQueue.toGo
          rw [hmtx]
          exact Nat.lt_succ_self _
      | clearBit =>
          obtain ⟨q', hq, rfl⟩ := Option.map_eq_some_iff.mp hrun
          obtain ⟨data, hmtx, rfl⟩ := PutQueue.clearBit_some hq
          refine ⟨fun _ => ?_, fun hno => absurd trivial hno⟩
          unfold PutQueue.toGo
          rw [hmtx]
          dsimp only
          split_ifs
          · exact Nat.lt_succ_self _
          · exact Nat.lt_add_of_pos_right Nat.two_pos
      | pollRecvCq =>
          obtain ⟨q', hq, rfl⟩ := Option.map_eq_some_iff.mp hrun
          obtain ⟨imm, replies, hmtx, -, rfl⟩ := PutQueue.pollRecvCq_some hq
          refine ⟨fun _ => ?_, fun hno => absurd trivial hno⟩
          unfold PutQueue.toGo
          rw [hmtx]
          exact Nat.lt_succ_self _
  | process d =>
      obtain ⟨m, wire, r, server, hwire, -, rfl⟩ := process_some hstep
      refine ⟨fun _ => ?_, fun hno => absurd trivial hno⟩
      unfold PutQueue.toGo
      rw [hwire, List.length_cons]
      dsimp only
      omega
  | server a =>
      obtain ⟨⟨t, r⟩, -, rfl⟩ := Option.map_eq_some_iff.mp hstep
      exact ⟨fun h => absurd h not_false, fun _ => rfl⟩

/-- The daemon can take the next message. -/
theorem Flowing.takes (h : s.Flowing hash cid) (exclusivePolicy : Bool)
    (hwire : s.put.queue.wire ≠ []) :
    ∃ a, a.Drains ∧ s.Resting cid a ∧ ∃ s', s.step hash exclusivePolicy cid a = some s' := by
  obtain ⟨m, wire, hcons⟩ := List.exists_cons_of_ne_nil hwire
  have hkey := h.keys m.1 (h.wire m (by rw [hcons]; exact List.mem_cons_self))
  obtain ⟨r, hr⟩ := h.server.step_some exclusivePolicy hkey.1 m.2 {} {} {}
  refine ⟨.process { inserts := [{}, {}] }, trivial, ⟨trivial, by rintro _ ⟨⟩⟩, ?_⟩
  simp only [PutPath.step, hcons, hr, Option.map_some]
  exact ⟨_, rfl⟩

/-- An item that waits for its reply finds it, or its message is on the wire. -/
theorem Flowing.enabled (h : s.Flowing hash cid) (exclusivePolicy : Bool)
    (hbusy : s.put.queue.Busy) :
    ∃ a, a.Drains ∧ s.Resting cid a ∧ ∃ s', s.step hash exclusivePolicy cid a = some s' := by
  have hclient : ∀ {a : PutStep Page}, PutPathStep.Drains (.client a) → (s.put.step a).isSome →
      ∃ a : PutPathStep Page, a.Drains ∧ s.Resting cid a ∧
        ∃ s', s.step hash exclusivePolicy cid a = some s' := by
    intro a ha hsome
    obtain ⟨put, hput⟩ := Option.isSome_iff_exists.mp hsome
    cases a with
    | sendPage _ | receive | reply _ => exact absurd ha not_false
    | _ =>
        refine ⟨.client _, ha, ⟨trivial, by rintro _ ⟨⟩⟩, { s with put }, ?_⟩
        simp only [PutPath.step, hput, Option.map_some]
  cases hmtx : s.put.queue.mtx with
  | free =>
      rcases hbusy with hwork | hheld | hwire
      · obtain ⟨data, work, hcons⟩ := List.exists_cons_of_ne_nil hwork
        exact hclient (a := .post 0) trivial (by simp [PutRun.step, PutQueue.post, hmtx, hcons])
      · exact absurd hmtx hheld
      · exact h.takes exclusivePolicy hwire
  | posted data =>
      cases hsends : s.put.queue.sends with
      | nil =>
          exact hclient (a := .pollSendCq) trivial
            (by simp [PutRun.step, PutQueue.pollSendCq, hmtx, hsends])
      | cons wr sends =>
          exact hclient (a := .transmit) trivial (by simp [PutRun.step, PutQueue.transmit, hsends])
  | completed data =>
      exact hclient (a := .clearBit) trivial (by simp [PutRun.step, PutQueue.clearBit, hmtx])
  | polling =>
      cases hreplies : s.put.queue.replies with
      | cons imm replies =>
          exact hclient (a := .pollRecvCq) trivial
            (by simp [PutRun.step, PutQueue.pollRecvCq, hmtx, hreplies])
      | nil =>
          -- the reply is owed, and all sends of the item were read
          have howed := h.owed
          have hsends : s.put.queue.sends = [] := by
            apply List.eq_nil_iff_forall_not_mem.mpr
            intro wr hwr
            obtain ⟨data, hposted, -⟩ := h.put.sends wr hwr
            rw [hmtx] at hposted
            cases hposted
          unfold PutQueue.owed PutQueue.awaited at howed
          rw [hmtx, hreplies, hsends] at howed
          refine h.takes exclusivePolicy fun hwire => ?_
          rw [hwire] at howed
          cases howed

theorem ends (hash : HashFuncs) (exclusivePolicy : Bool) (cid : ℕ) (s₀ : Server Page) :
    Ends (putPathSystem hash exclusivePolicy cid s₀) (Flowing hash cid) (Resting cid)
      (fun s => s.put.queue.Busy) PutPathStep.Drains (fun s => s.put.queue.toGo) where
  keep _ _ _ h hrest hstep := h.step hrest.1 hstep
  enabled _ h hbusy := h.enabled exclusivePolicy hbusy
  own _ _ _ _ hrest hown _ _ hstep := (step_toGo hrest.2 hstep).1 hown
  other _ _ _ _ hrest hown _ _ hstep := le_of_eq ((step_toGo hrest.2 hstep).2 hown)

/-! ## The buffer is open again -/

/-- The full batches are with the daemon, and no put is refused. -/
structure Drained (s : PutPath Page) : Prop where
  wire : s.put.queue.wire = []
  /-- Each accepted put of a full batch was sent, and sent once. -/
  sent : (s.put.sent.map Prod.fst).Perm
    (s.put.accepted.take (s.put.accepted.length / numPutBatch * numPutBatch))
  accepts : ∀ page, (s.put.queue.sendPage page).2 = 0

theorem Flowing.drained (h : s.Flowing hash cid) (hidle : ¬ s.put.queue.Busy) : s.Drained := by
  obtain ⟨hwork, hrest⟩ := not_or.mp hidle
  obtain ⟨hmtx, hwire⟩ := not_or.mp hrest
  refine ⟨not_not.mp hwire, ?_, fun page => ?_⟩
  · have hsends : s.put.queue.sends = [] := by
      refine List.eq_nil_iff_forall_not_mem.mpr fun wr hwr => ?_
      obtain ⟨data, hposted, -⟩ := h.put.sends wr hwr
      exact hmtx (by rw [hposted]; exact fun heq => by cases heq)
    have hposted := h.put.posted
    have honce := h.put.once
    rw [PutQueue.unread, hsends, List.map_nil, List.append_nil] at hposted
    rw [not_not.mp hwork, List.map_nil, List.append_nil] at honce
    rw [hposted]
    show List.Perm _ (s.put.accepted.take (s.put.accepted.length / 32 * 32))
    rw [← flatMap_batchOf (Nat.div_mul_le_self _ _)]
    exact honce.flatMap_right _
  -- without items no bit is set
  · rcases s.put.queue.sendPage_cases page with ⟨hwait, -⟩ | ⟨-, q', hacc, -⟩
    · obtain ⟨data, hdata, -⟩ := h.waits _ hwait
      unfold PutQueue.pending at hdata
      rw [not_not.mp hwork, not_not.mp hmtx] at hdata
      exact absurd hdata List.not_mem_nil
    · rw [hacc]

/-- The buffer does not stay closed. -/
structure Reopens (hash : HashFuncs) (exclusivePolicy : Bool) (cid : ℕ) (s₀ : Server Page)
    (s : PutPath Page) : Prop where
  /-- Items and daemon alone empty it. -/
  reaches : ∃ as t, (∀ a ∈ as, a.Drains) ∧ as.length ≤ s.put.queue.toGo + 1 ∧
    (putPathSystem hash exclusivePolicy cid s₀).exec s as = some t ∧ t.Drained
  /-- Whatever else happens to the daemon meanwhile, they need no more steps than that, and one
  of them can always be taken. -/
  meanwhile : ∀ as t, (putPathSystem hash exclusivePolicy cid s₀).Meets (Resting cid) s as →
    (putPathSystem hash exclusivePolicy cid s₀).exec s as = some t →
    (putPathSystem hash exclusivePolicy cid s₀).Always (fun s => s.put.queue.Busy) s as →
    as.countP (fun a => a.Drains) ≤ s.put.queue.toGo ∧
      ∃ a t', a.Drains ∧ t.step hash exclusivePolicy cid a = some t'
  /-- When they have nothing to do any more, it is empty. -/
  empties : ∀ as t, (putPathSystem hash exclusivePolicy cid s₀).Meets (Resting cid) s as →
    (putPathSystem hash exclusivePolicy cid s₀).exec s as = some t →
    ¬ t.put.queue.Busy → t.Drained

theorem Flowing.reopens (h : s.Flowing hash cid) (exclusivePolicy : Bool) (s₀ : Server Page) :
    s.Reopens hash exclusivePolicy cid s₀ := by
  have hends := ends hash exclusivePolicy cid s₀
  have hflow : ∀ {as : List (PutPathStep Page)} {t : PutPath Page},
      (putPathSystem hash exclusivePolicy cid s₀).Meets (Resting cid) s as →
      (putPathSystem hash exclusivePolicy cid s₀).exec s as = some t → t.Flowing hash cid :=
    fun hmeets hexec => System.exec_invariant (fun s a s' => hends.keep s a s') h hmeets hexec
  constructor
  · obtain ⟨as, t, hown, hlen, hmeets, hexec, hidle⟩ := hends.reaches h
    exact ⟨as, t, hown, hlen, hexec, (hflow hmeets hexec).drained hidle⟩
  · intro as t hmeets hexec hbusy
    have hcount := hends.bound h hmeets hexec hbusy
    obtain ⟨a, hown, -, t', hstep⟩ :=
      hends.enabled t (hflow hmeets hexec) (hbusy as (List.prefix_refl as) t hexec)
    exact ⟨by omega, a, t', hown, hstep⟩
  · exact fun as t hmeets hexec hidle => (hflow hmeets hexec).drained hidle

theorem init_flowing {i : PutPath Page} (hput : i.put.Initial)
    (hserver : i.server.TakesPuts hash cid) : i.Flowing hash cid := by
  have hinv := hput.inv
  obtain ⟨pool, hpool⟩ := hput
  rw [hpool] at hinv
  obtain ⟨put, server⟩ := i
  obtain rfl : put = { queue := { keypageMmPool := pool } } := hpool
  exact ⟨hinv, nofun, nofun, nofun, rfl, hserver⟩

end PutPath

namespace PutPath

variable {Page : Type} {hash : HashFuncs} {exclusivePolicy : Bool} {cid : ℕ}

/-- What a run from the constructor on leaves, if only pages are posted on queue
0 of the client. -/
theorem takesPuts_of_setup {startAddr : Value} {memPoolSize numClients numHash numBits : ℕ}
    {mem : Value → Slot Page} {setup : List (ServerStep Page)} {s₀ : Server Page}
    (hstart : startAddr ≠ NONE) (hend : startAddr + memPoolSize ≤ 2 ^ 64) (hcid : cid < numClients)
    (hwf : (serverSystem hash exclusivePolicy
      (.new startAddr memPoolSize numClients numHash numBits mem)).Meets Server.WellFormed
      (.new startAddr memPoolSize numClients numHash numBits mem) setup)
    (hsetup : (serverSystem hash exclusivePolicy
      (.new startAddr memPoolSize numClients numHash numBits mem)).exec
      (.new startAddr memPoolSize numClients numHash numBits mem) setup = some s₀)
    (hposted : s₀.recvs (cid, 0) ≠ []) (hpages : ∀ a ∈ s₀.recvs (cid, 0), IsPage a) :
    s₀.TakesPuts hash cid := by
  have honly : (Server.new startAddr memPoolSize numClients numHash numBits mem).Only IsPage := by
    have hnew := Server.new_only hstart memPoolSize numClients numHash numBits mem
    refine ⟨⟨fun slot hne => absurd rfl hne, fun fl a ha => ?_⟩, nofun⟩
    exact Daemon.InPool.ne hstart hend (hnew.kv.pool fl a ha).1
  have hkept : s₀.Inv hash ∧ s₀.Only IsPage ∧ cid < s₀.kv.pool.numClients := by
    refine System.exec_invariant (P := Server.WellFormed)
      (I := fun s => s.Inv hash ∧ s.Only IsPage ∧ cid < s.kv.pool.numClients) ?_
      ⟨Server.new_inv _ _ _ _ _ _, honly, hcid⟩ hwf hsetup
    rintro s a s' ⟨hinv, honly, hlt⟩ ha hstep
    obtain ⟨r, hr⟩ := serverSystem_step hstep
    have hfollows := hinv.step ha hr
    exact ⟨hfollows.inv, (Server.step_replaced_iff honly hr).1, by rw [hfollows.numClients]; exact hlt⟩
  exact ⟨hkept.1, hkept.2.1, hkept.2.2, hposted, hpages⟩

/-- Once queue 0 is connected, the full batches are with the daemon after a bounded
number of steps of the work items and the daemon, which never wait for each other, and
puts that were refused with -6 are accepted again. -/
theorem puts_drain {startAddr : Value} {memPoolSize numClients numHash numBits : ℕ}
    {mem : Value → Slot Page} {setup : List (ServerStep Page)} {s₀ : Server Page}
    (hstart : startAddr ≠ NONE) (hend : startAddr + memPoolSize ≤ 2 ^ 64) (hcid : cid < numClients)
    (hwf : (serverSystem hash exclusivePolicy
      (.new startAddr memPoolSize numClients numHash numBits mem)).Meets Server.WellFormed
      (.new startAddr memPoolSize numClients numHash numBits mem) setup)
    (hsetup : (serverSystem hash exclusivePolicy
      (.new startAddr memPoolSize numClients numHash numBits mem)).exec
      (.new startAddr memPoolSize numClients numHash numBits mem) setup = some s₀)
    (hposted : s₀.recvs (cid, 0) ≠ []) (hpages : ∀ a ∈ s₀.recvs (cid, 0), IsPage a)
    {i s : PutPath Page} {as : List (PutPathStep Page)}
    (hinit : (putPathSystem hash exclusivePolicy cid s₀).init i)
    (hok : (putPathSystem hash exclusivePolicy cid s₀).Meets (Allowed cid) i as)
    (hrun : (putPathSystem hash exclusivePolicy cid s₀).exec i as = some s) :
    s.Reopens hash exclusivePolicy cid s₀ := by
  have htakes := takesPuts_of_setup hstart hend hcid hwf hsetup hposted hpages
  have hflow : s.Flowing hash cid :=
    System.exec_invariant (P := Allowed cid) (fun s a s' h ha hstep => h.step ha hstep)
      (init_flowing hinit.1 (hinit.2 ▸ htakes)) hok hrun
  exact hflow.reopens exclusivePolicy s₀

/-! ## A daemon with pages for every receive -/

/-- 256 mebibytes for one client: 8159 pages for each list. -/
def ampleServer : Server ℕ := .new 4096 (Daemon.memPoolSize 256) 1 1 8 fun _ => ⟨0, 0⟩

theorem ampleServer_list : Daemon.maxQpsRecvs ≤
    (ampleServer.kv.pool.freelist (0 * Daemon.numDataQps + 0)).addrs.length := by
  have haddrs := Daemon.PerCPUPool.new_addrs 4096 (Daemon.memPoolSize 256) 1 Daemon.numDataQps
    (i := 0 * Daemon.numDataQps + 0) (by decide)
  change (ampleServer.kv.pool.freelist (0 * Daemon.numDataQps + 0)).addrs = _ at haddrs
  rw [haddrs, List.length_map, List.length_range]
  decide

/-- Its receives are pages from the list of queue 0. -/
theorem ampleServer_recvs : (ampleServer.prePostRecvs 0 0).recvs (0, 0) =
    (ampleServer.kv.pool.freelist (0 * Daemon.numDataQps + 0)).addrs.take Daemon.maxQpsRecvs :=
  @Server.prePostRecvs_take ℕ ampleServer 0 0 (by decide) rfl ampleServer_list rfl

theorem ampleServer_posted : (ampleServer.prePostRecvs 0 0).recvs (0, 0) ≠ [] := by
  intro hnil
  have hzero := congrArg List.length (ampleServer_recvs.symm.trans hnil)
  rw [List.length_take, Nat.min_eq_left ampleServer_list] at hzero
  exact absurd hzero (by decide)

theorem ampleServer_pages : ∀ a ∈ (ampleServer.prePostRecvs 0 0).recvs (0, 0), IsPage a := by
  intro a ha
  rw [ampleServer_recvs] at ha
  have hfl : 0 * Daemon.numDataQps + 0 ∈ Finset.range (1 * Daemon.numDataQps) := by decide
  have hmem : a ∈ (Daemon.PerCPUPool.new 4096 (Daemon.memPoolSize 256) 1 Daemon.numDataQps).pages :=
    Finset.mem_biUnion.mpr ⟨_, hfl, List.mem_toFinset.mpr (List.mem_of_mem_take ha)⟩
  exact Daemon.InPool.ne (by decide) (by decide)
    (Daemon.PerCPUPool.new_pages_slot _ _ _ _ a hmem)

/-- Puts do not need the daemon. -/
theorem sendPages_trace {Page : Type} {hash : HashFuncs} {exclusivePolicy : Bool} {cid : ℕ}
    {s₀ server : Server Page} {pages : List (Slot Page)} {q : PutRun Page} :
    ∀ {p : PutRun Page}, (∀ page ∈ pages, Usable page.key ∧ longkeyToCid page.key = cid) →
      p.queue.msgId + pages.length ≤ 2 ^ 31 →
      (putSystem Page).exec p (pages.map .sendPage) = some q →
      (putPathSystem hash exclusivePolicy cid s₀).Meets (Allowed cid) ⟨p, server⟩
          (pages.map fun page => .client (.sendPage page)) ∧
        (putPathSystem hash exclusivePolicy cid s₀).exec ⟨p, server⟩
          (pages.map fun page => .client (.sendPage page)) = some ⟨q, server⟩ := by
  induction pages with
  | nil =>
      rintro p - - hrun
      cases hrun
      exact System.trace_nil _
  | cons page pages ih =>
      intro p hkeys hroom hrun
      obtain ⟨hkey, hrest⟩ := List.forall_mem_cons.mp hkeys
      obtain ⟨m, hput, hexec⟩ := System.exec_cons_some.mp hrun
      change p.step (.sendPage page) = some m at hput
      have hle := PutRun.msgId_sendPage_le hput
      rw [List.length_cons] at hroom
      refine System.trace_cons (m := ⟨m, server⟩) ⟨hkey, show p.queue.msgId < _ by omega⟩ ?_
        (ih hrest (by omega) hexec)
      simp only [putPathSystem, PutPath.step, hput, Option.map_some]

/-- A batch was put, and its item waits. -/
theorem puts_drain_fullBatch :
    ∃ s : PutPath ℕ, s.put.accepted.length = 32 ∧ s.put.queue.work = [⟨31, 0⟩] ∧
      s.Reopens Daemon.keyHash true 0 (ampleServer.prePostRecvs 0 0) := by
  have hrun : (serverSystem Daemon.keyHash true ampleServer).exec ampleServer [.prePostRecvs 0 0] =
      some (ampleServer.prePostRecvs 0 0) :=
    System.exec_cons_some.mpr ⟨_, Daemon.serverSystem_prePostRecvs rfl, rfl⟩
  have hwf : (serverSystem Daemon.keyHash true ampleServer).Meets Server.WellFormed ampleServer
      [.prePostRecvs 0 0] := ⟨⟨by decide, by decide⟩, fun _ _ => trivial⟩
  let pages : List (Slot ℕ) := (List.range 32).map fun i => ⟨i, BitVec.ofNat 64 (i + 1)⟩
  have hobs : ((putSystem ℕ).exec { queue := { keypageMmPool := fun _ => ⟨0, 0⟩ } }
      (pages.map .sendPage)).map (fun p => (p.accepted.length, p.queue.work)) =
        some (32, [⟨31, 0⟩]) := by
    decide +kernel
  obtain ⟨p, hputs, hp⟩ := Option.map_eq_some_iff.mp hobs
  obtain ⟨hlen, hwork⟩ := Prod.mk.inj hp
  have hinit : ∀ s₀ : Server ℕ, (putPathSystem Daemon.keyHash true 0 s₀).init
      ⟨{ queue := { keypageMmPool := fun _ => ⟨0, 0⟩ } }, s₀⟩ := fun _ => ⟨⟨_, rfl⟩, rfl⟩
  obtain ⟨hok, hs⟩ := @sendPages_trace ℕ Daemon.keyHash true 0 (ampleServer.prePostRecvs 0 0)
    (ampleServer.prePostRecvs 0 0) pages p _ (by decide +kernel) (by decide) hputs
  exact ⟨_, hlen, hwork, puts_drain (by decide) (by decide) (by decide) hwf hrun
    ampleServer_posted ampleServer_pages (hinit _) hok hs⟩

end PutPath

end CleancacheRdma.Driver
