import Mathlib
import CleancacheRdma.Daemon.Receives
import CleancacheRdma.Driver.Handled
import CleancacheRdma.Lib.Progress

/-!
# No caller waits for ever

A caller of `dcc_rdma_write_msg` or `dcc_rdma_write_msg2` spins under `q->lock`
until its reply is there. The requests of its queue are delivered and handled
one after the other, each handler posts the receive for the next delivery, and
the last request of all is one that is replied to.
-/

namespace CleancacheRdma.Driver

open Daemon (Key HashFuncs Server ServerStep Reply Draw numMsgs numDataQps)
open Lib (System Ends)

/-! ## Requests -/

namespace ReqStep

variable {Page : Type}

/-- The step brings queue `qid` forward. -/
def Serves (qid : ℕ) : ReqStep Page → Prop
  | .deliver i | .process i _ | .pollSendCq i | .pollRecvCq i => i = qid
  | .writeMsg _ _ _ | .writeMsg2 _ | .server _ => False

instance (qid : ℕ) : DecidablePred (@Serves Page qid)
  | .deliver _ | .process _ _ | .pollSendCq _ | .pollRecvCq _ => inferInstanceAs (Decidable (_ = _))
  | .writeMsg _ _ _ | .writeMsg2 _ | .server _ => isFalse not_false

end ReqStep

namespace ReqQueue

variable {Page : Type} {qid : ℕ} {region : ℕ → BitVec 64} {q q' : ReqQueue Page}
  {done pend : List Request}

/-- How many steps of the queue there are at most before its lock is free. -/
def toGo (q : ReqQueue Page) : ℕ :=
  2 * q.sends.length + q.completions.length + if q.lock = .posted then 1 else 0

/-- What is unread ends with the next request that is replied to. -/
theorem Turns.unread_le (ht : q.Turns qid) (hf : q.Flow qid region done pend) :
    q.sends.length + q.completions.length ≤ numMsgs := by
  have hlen : done.length + (q.completions.length + q.sends.length) = q.calls.length := by
    have hreq := congrArg List.length hf.requests
    have hcomp := congrArg List.length hf.completions
    simp only [List.length_append, List.length_map, requests_length] at hreq hcomp
    omega
  have hmsgs : numMsgs = 512 := rfl
  by_contra hlong
  -- the request that ends the round of the first unread one
  obtain ⟨n, hn⟩ : ∃ n, n = if qid = 1 then done.length - done.length % 512 + 511 else done.length :=
    ⟨_, rfl⟩
  have hlt : n + 1 < q.calls.length := by
    split at hn
    · omega
    · omega
  have hle : done.length ≤ n := by
    split at hn
    · omega
    · omega
  have hget : (q.requests qid)[n]? = some (request qid n q.calls[n]) := by
    rw [requests, List.getElem?_mapIdx, List.getElem?_eq_getElem (by omega)]
    rfl
  refine ht.quiet hf hget hle hlt ?_
  by_cases hqid : qid = 1
  · subst hqid
    rw [if_pos rfl] at hn
    rw [request_asks_inv, hmsgs]
    omega
  · exact request_asks_get hqid

theorem Turns.toGo_le (ht : q.Turns qid) (hf : q.Flow qid region done pend) : q.toGo ≤ 1025 := by
  have hle : q.sends.length + q.completions.length ≤ 512 := ht.unread_le hf
  unfold toGo
  split
  · omega
  · omega

/-- When everything was handled the reply that is waited for is there. -/
theorem Turns.reply_ready (ht : q.Turns qid) (hf : q.Flow qid region done pend)
    (hlock : q.lock ≠ .free) (hsends : q.sends = []) (hcomp : q.completions = []) :
    q.replies ≠ [] := by
  intro hnil
  have hpend : pend = [] := by
    have hmap := hf.completions
    rw [hcomp] at hmap
    exact List.map_eq_nil_iff.mp hmap.symm
  have hreq := hf.requests
  rw [hpend, hsends, List.append_nil, List.append_nil] at hreq
  have hasked := ht.asked
  rw [hreq, if_neg hlock, ← hf.asked_done, ht.polled, hnil, List.append_nil] at hasked
  omega

end ReqQueue

namespace ReqPath

variable {Page : Type} {hash : HashFuncs} {exclusivePolicy : Bool} {cid qid : ℕ}
  {s s' t : ReqPath Page}

theorem setQueue_of_ne {i : ℕ} (h : i ≠ qid) (q : ReqQueue Page) :
    (s.setQueue i q).queues qid = s.queues qid := Function.update_of_ne (Ne.symm h) _ _

/-- There are fewer than `2 ^ 31` invalidations, and nobody else takes the
receives of queue `qid`. -/
def Allowed (cid qid : ℕ) (s : ReqPath Page) : ReqStep Page → Prop
  | .writeMsg2 _ => (s.queues 1).calls.length + 1 < 2 ^ 31
  | .server a => a.queue ≠ some (cid, qid)
  | _ => True

/-- A receive of the queue is posted or will be. -/
def Credited (cid qid : ℕ) (s : ReqPath Page) : Prop :=
  0 < (s.server.recvs (cid, qid)).length + (s.queues qid).completions.length

structure Served (cid qid : ℕ) (s : ReqPath Page) : Prop where
  inv : s.Inv cid
  calls : (s.queues 1).calls.length < 2 ^ 31
  credited : s.Credited cid qid

/-! ### What a step does to the queue -/

theorem deliver_some {i : ℕ} (h : s.deliver cid i = some s') :
    ∃ r sends addr, (s.queues i).sends = r :: sends ∧
      (s.server.recvs (cid, i)).head? = some addr ∧
      s'.queues = (s.setQueue i { s.queues i with
        sends, completions := (s.queues i).completions ++ [r.imm] }).queues ∧
      s'.server = (s.server.popRecv cid i).remoteWrite cid r.off r.words := by
  unfold ReqPath.deliver at h
  split at h
  next r sends addr hsends haddr =>
    cases h
    exact ⟨r, sends, addr, hsends, haddr, rfl, rfl⟩
  · cases h

theorem process_some {i : ℕ} {d : Draw}
    (h : s.process hash exclusivePolicy cid i d = some s') :
    ∃ imm completions replies handled, (s.queues i).completions = imm :: completions ∧
      s'.queues = (s.setQueue i { s.queues i with completions, replies, handled }).queues ∧
      s'.server = (s.server.processImm hash exclusivePolicy cid i imm d).1 := by
  unfold ReqPath.process at h
  split at h
  · cases h
  next imm completions hcomp =>
    cases h
    exact ⟨imm, completions, _, _, hcomp, rfl, rfl⟩

/-- Only a call takes the lock, and only the holder's poll gives it back. -/
theorem step_toGo {a : ReqStep Page} (hlock : (s.queues qid).lock ≠ .free)
    (hlock' : (s'.queues qid).lock ≠ .free)
    (hstep : s.step hash exclusivePolicy cid a = some s') :
    (a.Serves qid → (s'.queues qid).toGo < (s.queues qid).toGo) ∧
      (¬ a.Serves qid → (s'.queues qid).toGo = (s.queues qid).toGo) := by
  cases a with
  | writeMsg cpu key raddr =>
      obtain ⟨q, hq, rfl⟩ := Option.map_eq_some_iff.mp hstep
      refine ⟨fun h => absurd h not_false, fun _ => ?_⟩
      have hne : cpu % Daemon.numGetQps + 2 ≠ qid := by
        rintro rfl
        exact hlock (ReqQueue.writeMsg_some hq).1
      rw [setQueue_of_ne hne]
  | writeMsg2 key =>
      obtain ⟨q, hq, rfl⟩ := Option.map_eq_some_iff.mp hstep
      refine ⟨fun h => absurd h not_false, fun _ => ?_⟩
      have hne : 1 ≠ qid := by
        rintro rfl
        exact hlock (ReqQueue.writeMsg2_some hq).1
      rw [setQueue_of_ne hne]
  | pollSendCq i =>
      obtain ⟨q, hq, rfl⟩ := Option.map_eq_some_iff.mp hstep
      refine ⟨?_, fun hne => by rw [setQueue_of_ne hne]⟩
      rintro rfl
      obtain ⟨hposted, rfl⟩ := ReqQueue.pollSendCq_some hq
      rw [setQueue_self, ReqQueue.toGo, ReqQueue.toGo, hposted]
      exact Nat.lt_succ_self _
  | pollRecvCq i =>
      obtain ⟨q, hq, rfl⟩ := Option.map_eq_some_iff.mp hstep
      refine ⟨?_, fun hne => by rw [setQueue_of_ne hne]⟩
      rintro rfl
      obtain ⟨r, replies, -, -, rfl⟩ := ReqQueue.pollRecvCq_some hq
      rw [setQueue_self] at hlock'
      exact absurd rfl hlock'
  | deliver i =>
      obtain ⟨r, sends, addr, hsends, -, hqueues, -⟩ := deliver_some hstep
      refine ⟨?_, fun hne => by rw [hqueues, setQueue_of_ne hne]⟩
      rintro rfl
      rw [hqueues, setQueue_self, ReqQueue.toGo, ReqQueue.toGo, hsends]
      simp only [List.length_append, List.length_cons, List.length_nil]
      omega
  | process i d =>
      obtain ⟨imm, completions, replies, handled, hcomp, hqueues, -⟩ := process_some hstep
      refine ⟨?_, fun hne => by rw [hqueues, setQueue_of_ne hne]⟩
      rintro rfl
      rw [hqueues, setQueue_self, ReqQueue.toGo, ReqQueue.toGo, hcomp, List.length_cons]
      dsimp only
      omega
  | server a =>
      simp only [step] at hstep
      split at hstep
      · cases hstep
      · obtain ⟨_, -, rfl⟩ := Option.map_eq_some_iff.mp hstep
        exact ⟨fun h => absurd h not_false, fun _ => rfl⟩

/-! ### The invariant -/

/-- The handler of an unread request has a case for it. -/
theorem Inv.unread_key (h : s.Inv cid) {imm : BitVec 32} {completions : List (BitVec 32)}
    (hcomp : (s.queues qid).completions = imm :: completions) :
    ∃ key, s.server.requestKey cid qid imm = some key := by
  obtain ⟨-, done, pend, hf⟩ := h qid
  have hget : (s.queues qid).completions[0]? = some imm := by rw [hcomp]; rfl
  obtain ⟨call, -, hlt, rfl, hmem⟩ := h.unread hf hget
  exact ⟨call.1, requestKey_request hlt (hf.written _ hmem)⟩

theorem Credited.of_eq (h : s.Credited cid qid) (hqueues : s'.queues qid = s.queues qid)
    (hrecvs : (s.server.recvs (cid, qid)).length ≤ (s'.server.recvs (cid, qid)).length) :
    s'.Credited cid qid := by
  unfold Credited at h ⊢
  rw [hqueues]
  exact Nat.lt_of_lt_of_le h (Nat.add_le_add_right hrecvs _)

/-- A delivery turns a receive into a completion, its handler turns it back. -/
theorem Credited.step (h : s.Credited cid qid) (hinv : s.Inv cid) {a : ReqStep Page}
    (hother : ∀ b, a = .server b → b.queue ≠ some (cid, qid))
    (hstep : s.step hash exclusivePolicy cid a = some s') : s'.Credited cid qid := by
  have hcall : ∀ {i : ℕ} {q : ReqQueue Page}, q.completions = (s.queues i).completions →
      (s.setQueue i q).Credited cid qid := by
    intro i q hq
    unfold Credited at h ⊢
    by_cases hne : i = qid
    · subst hne
      rw [setQueue_self, hq]
      exact h
    · rw [setQueue_of_ne hne]
      exact h
  cases a with
  | writeMsg cpu key raddr =>
      obtain ⟨q, hq, rfl⟩ := Option.map_eq_some_iff.mp hstep
      obtain ⟨-, rfl⟩ := ReqQueue.writeMsg_some hq
      exact hcall rfl
  | writeMsg2 key =>
      obtain ⟨q, hq, rfl⟩ := Option.map_eq_some_iff.mp hstep
      obtain ⟨-, rfl⟩ := ReqQueue.writeMsg2_some hq
      exact hcall rfl
  | pollSendCq i =>
      obtain ⟨q, hq, rfl⟩ := Option.map_eq_some_iff.mp hstep
      obtain ⟨-, rfl⟩ := ReqQueue.pollSendCq_some hq
      exact hcall rfl
  | pollRecvCq i =>
      obtain ⟨q, hq, rfl⟩ := Option.map_eq_some_iff.mp hstep
      obtain ⟨_, _, -, -, rfl⟩ := ReqQueue.pollRecvCq_some hq
      exact hcall rfl
  | deliver i =>
      obtain ⟨r, sends, addr, -, -, hqueues, hserver⟩ := deliver_some hstep
      by_cases hne : i = qid
      · subst hne
        unfold Credited
        rw [hqueues, setQueue_self, List.length_append, List.length_singleton]
        omega
      · refine h.of_eq (by rw [hqueues, setQueue_of_ne hne]) (le_of_eq ?_)
        rw [hserver]
        exact congrArg List.length
          (Server.popRecv_recvs_of_ne fun he => hne (congrArg Prod.snd he).symm).symm
  | process i d =>
      obtain ⟨imm, completions, replies, handled, hcomp, hqueues, hserver⟩ := process_some hstep
      by_cases hne : i = qid
      · subst hne
        obtain ⟨key, hkey⟩ := hinv.unread_key hcomp
        unfold Credited
        rw [hserver, Server.processImm_recvs d hkey, Daemon.Server.postRecv_recvs,
          List.length_append, List.length_singleton]
        omega
      · refine h.of_eq (by rw [hqueues, setQueue_of_ne hne]) ?_
        rw [hserver]
        exact le_of_eq (congrArg List.length (Server.processImm_recvs_of_ne d
          fun he => hne (congrArg Prod.snd he).symm).symm)
  | server a =>
      simp only [ReqPath.step] at hstep
      split at hstep
      · cases hstep
      · obtain ⟨⟨t, r⟩, hs, rfl⟩ := Option.map_eq_some_iff.mp hstep
        exact h.of_eq rfl (Server.length_step_le (hother a rfl) hs)

/-- Only a call of `dcc_rdma_write_msg2` is one on queue 1. -/
theorem step_calls_eq {a : ReqStep Page} (hstep : s.step hash exclusivePolicy cid a = some s')
    (ha : ∀ key, a ≠ .writeMsg2 key) : (s'.queues 1).calls = (s.queues 1).calls := by
  have hset : ∀ {i : ℕ} {q : ReqQueue Page}, (i = 1 → q.calls = (s.queues i).calls) →
      ((s.setQueue i q).queues 1).calls = (s.queues 1).calls := by
    intro i q hq
    by_cases hi : i = 1
    · subst hi
      rw [setQueue_self, hq rfl]
    · rw [setQueue_of_ne hi]
  cases a with
  | writeMsg cpu key raddr =>
      obtain ⟨q, -, rfl⟩ := Option.map_eq_some_iff.mp hstep
      exact hset fun h => absurd h (by omega)
  | writeMsg2 key => exact absurd rfl (ha key)
  | pollSendCq i =>
      obtain ⟨q, hq, rfl⟩ := Option.map_eq_some_iff.mp hstep
      obtain ⟨-, rfl⟩ := ReqQueue.pollSendCq_some hq
      exact hset fun _ => rfl
  | pollRecvCq i =>
      obtain ⟨q, hq, rfl⟩ := Option.map_eq_some_iff.mp hstep
      obtain ⟨_, _, -, -, rfl⟩ := ReqQueue.pollRecvCq_some hq
      exact hset fun _ => rfl
  | deliver i =>
      obtain ⟨r, sends, addr, -, -, hqueues, -⟩ := deliver_some hstep
      rw [hqueues]
      exact hset fun _ => rfl
  | process i d =>
      obtain ⟨imm, completions, replies, handled, -, hqueues, -⟩ := process_some hstep
      rw [hqueues]
      exact hset fun _ => rfl
  | server a =>
      simp only [ReqPath.step] at hstep
      split at hstep
      · cases hstep
      · obtain ⟨_, -, rfl⟩ := Option.map_eq_some_iff.mp hstep
        rfl

theorem Served.step (h : s.Served cid qid) {a : ReqStep Page} (hallowed : s.Allowed cid qid a)
    (hstep : s.step hash exclusivePolicy cid a = some s') : s'.Served cid qid := by
  have hserver : ∀ b, a = .server b → b.queue ≠ some (cid, qid) := by
    rintro b rfl
    exact hallowed
  refine ⟨h.inv.step h.calls hstep, ?_, h.credited.step h.inv hserver hstep⟩
  by_cases hcall : ∃ key, a = .writeMsg2 key
  · obtain ⟨key, rfl⟩ := hcall
    obtain ⟨q, hq, rfl⟩ := Option.map_eq_some_iff.mp hstep
    obtain ⟨-, rfl⟩ := ReqQueue.writeMsg2_some hq
    have hlt : (s.queues 1).calls.length + 1 < 2 ^ 31 := hallowed
    rw [setQueue_self, List.length_append]
    exact hlt
  · rw [step_calls_eq hstep fun key hkey => hcall ⟨key, hkey⟩]
    exact h.calls

/-! ### The queue goes on -/

/-- While a caller holds the lock, some step of its queue can be taken. -/
theorem Served.enabled (h : s.Served cid qid) (hlock : (s.queues qid).lock ≠ .free) :
    ∃ a, a.Serves qid ∧ s.Allowed cid qid a ∧ ∃ s', s.step hash exclusivePolicy cid a = some s' := by
  obtain ⟨ht, done, pend, hf⟩ := h.inv qid
  cases hcomp : (s.queues qid).completions with
  | cons imm completions =>
      refine ⟨.process qid {}, rfl, trivial, ?_⟩
      simp only [ReqPath.step, ReqPath.process, hcomp]
      exact ⟨_, rfl⟩
  | nil =>
      cases hsends : (s.queues qid).sends with
      | cons r sends =>
          -- no completion waits, so the receive is posted
          have hcredit := h.credited
          rw [Credited, hcomp, List.length_nil, Nat.add_zero] at hcredit
          obtain ⟨addr, haddr⟩ := Option.isSome_iff_exists.mp
            (List.isSome_head?.mpr (List.length_pos_iff.mp hcredit))
          refine ⟨.deliver qid, rfl, trivial, ?_⟩
          simp only [ReqPath.step, ReqPath.deliver, hsends, haddr]
          exact ⟨_, rfl⟩
      | nil =>
          cases hl : (s.queues qid).lock with
          | free => exact absurd hl hlock
          | posted =>
              refine ⟨.pollSendCq qid, rfl, trivial, ?_⟩
              simp only [ReqPath.step, ReqQueue.pollSendCq, hl, hsends]
              exact ⟨_, rfl⟩
          | polling =>
              obtain ⟨r, replies, hreplies⟩ :=
                List.exists_cons_of_ne_nil (ht.reply_ready hf hlock hsends hcomp)
              refine ⟨.pollRecvCq qid, rfl, trivial, ?_⟩
              simp only [ReqPath.step, ReqQueue.pollRecvCq, hl, hreplies]
              exact ⟨_, rfl⟩

theorem ends (hash : HashFuncs) (exclusivePolicy : Bool) (cid qid : ℕ) :
    Ends (@reqSystem Page hash exclusivePolicy cid) (Served cid qid) (Allowed cid qid)
      (fun s => (s.queues qid).lock ≠ .free) (ReqStep.Serves qid)
      (fun s => (s.queues qid).toGo) where
  keep _ _ _ h hallowed hstep := h.step hallowed hstep
  enabled _ h hlock := h.enabled hlock
  own _ _ _ _ _ hown hlock hlock' hstep := (step_toGo hlock hlock' hstep).1 hown
  other _ _ _ _ _ hown hlock hlock' hstep := le_of_eq ((step_toGo hlock hlock' hstep).2 hown)

/-- A caller that waits on queue `qid` gets its reply. -/
structure Answered (hash : HashFuncs) (exclusivePolicy : Bool) (cid qid : ℕ) (s : ReqPath Page) :
    Prop where
  /-- The queue alone can bring it. -/
  reaches : ∃ as t, (∀ a ∈ as, a.Serves qid) ∧ as.length ≤ 1026 ∧
    (reqSystem hash exclusivePolicy cid).exec s as = some t ∧ (t.queues qid).lock = .free
  /-- Whatever else happens meanwhile, a bounded number of steps of the queue brings it, and
  the next one can always be taken. -/
  meanwhile : ∀ as t, (reqSystem hash exclusivePolicy cid).Meets (Allowed cid qid) s as →
    (reqSystem hash exclusivePolicy cid).exec s as = some t →
    (reqSystem hash exclusivePolicy cid).Always (fun s => (s.queues qid).lock ≠ .free) s as →
    as.countP (fun a => a.Serves qid) ≤ 1025 ∧
      ∃ a t', a.Serves qid ∧ t.step hash exclusivePolicy cid a = some t'

theorem Served.answered (h : s.Served cid qid) : s.Answered hash exclusivePolicy cid qid := by
  have hends := @ends Page hash exclusivePolicy cid qid
  obtain ⟨ht, done, pend, hf⟩ := h.inv qid
  have hle := ht.toGo_le hf
  constructor
  · obtain ⟨as, t, hown, hlen, -, hexec, hfree⟩ := hends.reaches h
    exact ⟨as, t, hown, by omega, hexec, not_not.mp hfree⟩
  · intro as t hmeets hexec hbusy
    have hcount := hends.bound h hmeets hexec hbusy
    have hserved : t.Served cid qid :=
      System.exec_invariant (fun s a s' => hends.keep s a s') h hmeets hexec
    obtain ⟨a, hown, -, t', hstep⟩ :=
      hends.enabled t hserved (hbusy as (List.prefix_refl as) t hexec)
    exact ⟨by omega, a, t', hown, hstep⟩

theorem init_served {s₀ : ReqPath Page} (hinit : s₀.queues = fun _ => {})
    (hrecv : 0 < (s₀.server.recvs (cid, qid)).length) : s₀.Served cid qid := by
  refine ⟨init_inv hinit, ?_, Nat.lt_of_lt_of_le hrecv (Nat.le_add_right _ _)⟩
  rw [hinit]
  exact Nat.two_pow_pos 31

/-- With one receive posted from the start, every caller that waits on a request
queue is answered within the 512 requests of a round, whatever the other
threads, the other queues and the daemon do in between. -/
theorem requests_answered {s₀ : ReqPath Page} {as : List (ReqStep Page)}
    (hinit : s₀.queues = fun _ => {}) (hrecv : 0 < (s₀.server.recvs (cid, qid)).length)
    (hmeets : (reqSystem hash exclusivePolicy cid).Meets (Allowed cid qid) s₀ as)
    (hexec : (reqSystem hash exclusivePolicy cid).exec s₀ as = some s) :
    s.Answered hash exclusivePolicy cid qid :=
  (System.exec_invariant (fun _ _ _ h hallowed hstep => h.step hallowed hstep)
    (init_served hinit hrecv) hmeets hexec : s.Served cid qid).answered

/-- A get that was posted while an invalidation is on its way. -/
theorem requests_answered_getAndInv :
    ∃ s, (reqSystem (fun _ key => key.toNat) true 0).exec listening
        [.writeMsg2 9, .writeMsg 0 7 0x1000, .deliver 1] = some s ∧
      s.Answered (fun _ key => key.toNat) true 0 2 ∧ (s.queues 2).lock = .posted := by
  have hrun : ((reqSystem (fun _ key => key.toNat) true 0).exec listening
      [.writeMsg2 9, .writeMsg 0 7 0x1000, .deliver 1]).map (fun s => (s.queues 2).lock) =
      some .posted := by decide +kernel
  obtain ⟨s, hexec, hlock⟩ := Option.map_eq_some_iff.mp hrun
  refine ⟨s, hexec, requests_answered rfl (by decide) ?_ hexec, hlock⟩
  exact ⟨Nat.one_lt_two_pow (by decide), fun _ _ => ⟨trivial, fun _ _ => ⟨trivial, fun _ _ => trivial⟩⟩⟩

end ReqPath

end CleancacheRdma.Driver
