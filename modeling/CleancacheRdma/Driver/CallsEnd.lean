import Mathlib
import CleancacheRdma.Driver.Coherence
import CleancacheRdma.Driver.Progress
import CleancacheRdma.Lib.Places

/-!
# Every call comes to its end

The handlers of a client wait for each other at the locks of the request queues, and
who holds a lock waits for the daemon. No state is a deadlock: while a call is under
way a thread can move on, or a message on a queue that is held. Each such step lowers
a measure that only a new call raises.
-/

namespace CleancacheRdma.Driver

open Daemon (Slot Key Value HashFuncs Server ServerStep Reply Draw numDataQps)
open Lib (System Ends sum_update)

/-! ## Calls -/

namespace Call

variable {Page : Type}

/-- How many sections there are at most until the call has returned. -/
def sections : Call Page → ℕ
  | .idle => 0
  | .putDone _ _ | .getDone _ _ _ | .invDone _ _ _ => 1
  | .add _ | .got _ _ _ | .sent2 _ _ _ => 2
  | .send _ | .wait _ _ _ | .wait2 _ _ => 3
  | .put _ | .msg _ _ | .msg2 _ => 4
  | .upsert _ _ _ | .get _ _ | .inv _ => 5

theorem sections_le (c : Call Page) : c.sections ≤ 5 := by
  cases c <;> simp only [sections] <;> decide

/-- The queue whose lock the call holds. -/
def holds : Call Page → Option ℕ
  | .wait _ qid _ => some qid
  | .wait2 _ _ => some 1
  | _ => none

/-- The messages the call has yet to write to queue 1. -/
def messages : Call Page → ℕ
  | .inv _ | .msg2 _ => 1
  | _ => 0

theorem messages_le (c : Call Page) : c.messages ≤ 1 := by
  cases c <;> simp only [messages] <;> decide

/-- The pages the call has yet to hand to queue 0. -/
def toPut : Call Page → ℕ
  | .upsert _ _ _ | .put _ | .send _ => 1
  | _ => 0

theorem toPut_le (c : Call Page) : c.toPut ≤ 1 := by
  cases c <;> simp only [toPut] <;> decide

end Call

section Calls

variable {Page : Type} {c c' : Call Page} {e : Event Page} {key : Key} {cid t : ℕ}
  {a : WorldStep Page}

theorem Local.spends (h : Local c c') :
    c'.sections < c.sections ∧ c'.messages ≤ c.messages ∧ c'.toPut ≤ c.toPut := by
  cases h <;> exact ⟨by simp only [Call.sections]; decide, by simp only [Call.messages]; decide,
    by simp only [Call.toPut]; decide⟩

theorem Denied.spends (h : Denied key c c') :
    c'.sections < c.sections ∧ c'.messages ≤ c.messages ∧ c'.toPut ≤ c.toPut := by
  cases h <;> exact ⟨by simp only [Call.sections]; decide, by simp only [Call.messages]; decide,
    by simp only [Call.toPut]; decide⟩

theorem Returns.spends (h : Returns t c e) : 0 < c.sections := by
  cases h <;> exact Nat.one_pos

/-! Nothing of this is done under a lock. -/

theorem Enters.holds (h : Enters cid t a c e) : c.holds = none := by
  cases h <;> rfl

theorem Local.holds (h : Local c c') : c.holds = none ∧ c'.holds = none := by
  cases h <;> exact ⟨rfl, rfl⟩

theorem Denied.holds (h : Denied key c c') : c.holds = none ∧ c'.holds = none := by
  cases h <;> exact ⟨rfl, rfl⟩

theorem Returns.holds (h : Returns t c e) : c.holds = none := by
  cases h <;> rfl

end Calls

/-! ## Locks -/

namespace ReqQueue

variable {Page : Type} {q q' : ReqQueue Page} {qid : ℕ} {key : Key}

/-- A request has two steps to go, and its caller one. -/
theorem toGo_writeMsg {raddr : BitVec 64} (h : q.writeMsg qid key raddr = some q') :
    q'.toGo = q.toGo + 3 := by
  obtain ⟨hfree, rfl⟩ := writeMsg_some h
  have hnone : q.toGo = 2 * q.sends.length + q.completions.length + 0 := by
    rw [toGo, hfree]
    rfl
  rw [hnone, toGo, List.length_append, List.length_singleton, if_pos rfl]
  dsimp only
  omega

theorem toGo_le_sends (q : ReqQueue Page) :
    q.toGo ≤ 2 * q.sends.length + q.completions.length + 1 := by
  unfold toGo
  split
  · exact Nat.le_refl _
  · exact Nat.le_succ _

theorem toGo_writeMsg2 (h : q.writeMsg2 key = some q') : q'.toGo ≤ q.toGo + 3 := by
  obtain ⟨-, rfl⟩ := writeMsg2_some h
  have hle : 2 * q.sends.length + q.completions.length ≤ q.toGo := Nat.le_add_right _ _
  refine (toGo_le_sends _).trans ?_
  rw [List.length_append, List.length_singleton]
  dsimp only
  omega

theorem toGo_pollSendCq (h : q.pollSendCq = some q') : q'.toGo + 1 = q.toGo := by
  obtain ⟨hposted, rfl⟩ := pollSendCq_some h
  rw [toGo, toGo, hposted]
  rfl

theorem toGo_pollRecvCq (h : q.pollRecvCq = some q') : q'.toGo = q.toGo := by
  obtain ⟨r, replies, hpolling, -, rfl⟩ := pollRecvCq_some h
  rw [toGo, toGo, hpolling]
  rfl

/-! Who polls holds the lock. -/

theorem pollSendCq_held (h : q.pollSendCq = some q') : q.lock ≠ .free := by
  obtain ⟨hposted, -⟩ := pollSendCq_some h
  rw [hposted]
  rintro ⟨⟩

theorem pollRecvCq_held (h : q.pollRecvCq = some q') : q.lock ≠ .free := by
  obtain ⟨_, _, hpolling, -⟩ := pollRecvCq_some h
  rw [hpolling]
  rintro ⟨⟩

end ReqQueue

/-- A lock is taken on one of the client's data queues only. -/
theorem ReqPath.Inv.lock_lt {Page : Type} {s : ReqPath Page} {cid qid : ℕ} (h : s.Inv cid)
    (hlock : (s.queues qid).lock ≠ .free) : qid < numDataQps := by
  obtain ⟨ht, -⟩ := h qid
  refine ht.known fun hnil => ?_
  obtain ⟨r, hr, -⟩ := ht.last hlock
  rw [ReqQueue.requests, hnil, List.mapIdx_nil] at hr
  cases hr

namespace World

variable {Page : Type} {hash : HashFuncs} {exclusivePolicy : Bool} {cid : ℕ} {w w' : World Page}
  {a : WorldStep Page} {S : Finset ℕ}

/-- The locks that are taken and the calls that hold them are the same. -/
structure Held (w : World Page) : Prop where
  taken : ∀ qid, (w.req.queues qid).lock ≠ .free → 0 < qid ∧ ∃ t, (w.calls t).holds = some qid
  holds : ∀ t qid, (w.calls t).holds = some qid → (w.req.queues qid).lock ≠ .free
  alone : ∀ t t' qid, (w.calls t).holds = some qid → (w.calls t').holds = some qid → t = t'

theorem Held.of_eq (h : w.Held) (hcalls : w'.calls = w.calls)
    (hlock : ∀ qid, (w'.req.queues qid).lock = .free ↔ (w.req.queues qid).lock = .free) :
    w'.Held := by
  refine ⟨fun qid hne => ?_, fun t qid ht => ?_, ?_⟩
  · rw [hcalls]
    exact h.taken qid fun hfree => hne ((hlock qid).mpr hfree)
  · rw [hcalls] at ht
    exact fun hfree => h.holds t qid ht ((hlock qid).mp hfree)
  · rw [hcalls]
    exact h.alone

/-- A call takes the lock of a queue or gives it back. -/
theorem Held.setQueue (h : w.Held) {t qid : ℕ} {c : Call Page} {q : ReqQueue Page}
    (hqid : 0 < qid) (hold : ∀ i, (w.calls t).holds = some i → i = qid)
    (hown : (w.req.queues qid).lock = .free ∨ (w.calls t).holds = some qid)
    (hc : c.holds = if q.lock = .free then none else some qid) :
    ({ w with req := w.req.setQueue qid q }.setCall t c : World Page).Held := by
  have hnone : ∀ t' ≠ t, (w.calls t').holds ≠ some qid := by
    intro t' hne ht'
    rcases hown with hfree | ht
    · exact h.holds t' qid ht' hfree
    · exact hne (h.alone t' t qid ht' ht)
  have hnew : ∀ i, c.holds = some i → i = qid ∧ q.lock ≠ .free := by
    intro i hi
    rw [hc] at hi
    split at hi
    · cases hi
    next hlock =>
      cases hi
      exact ⟨rfl, hlock⟩
  have hself : ((w.req.setQueue qid q).queues qid).lock = q.lock :=
    congrArg ReqQueue.lock (ReqPath.setQueue_self qid q)
  have hother : ∀ {i}, i ≠ qid →
      ((w.req.setQueue qid q).queues i).lock = (w.req.queues i).lock :=
    fun hi => congrArg ReqQueue.lock (ReqPath.setQueue_of_ne (Ne.symm hi) q)
  constructor
  · intro i hlock
    by_cases hi : i = qid
    · subst hi
      have hq : q.lock ≠ .free := fun hfree => hlock (hself.trans hfree)
      rw [if_neg hq] at hc
      exact ⟨hqid, t, by rw [setCall_self]; exact hc⟩
    · obtain ⟨hpos, t', ht'⟩ := h.taken i fun hfree => hlock ((hother hi).trans hfree)
      have hne : t' ≠ t := by
        rintro rfl
        exact hi (hold i ht')
      exact ⟨hpos, t', by rw [setCall_of_ne hne]; exact ht'⟩
  · intro t' i ht' hfree
    by_cases hne : t' = t
    · subst hne
      rw [setCall_self] at ht'
      obtain ⟨rfl, hq⟩ := hnew i ht'
      exact hq (hself.symm.trans hfree)
    · rw [setCall_of_ne hne] at ht'
      have hi : i ≠ qid := by
        rintro rfl
        exact hnone t' hne ht'
      exact h.holds t' i ht' ((hother hi).symm.trans hfree)
  · intro t₁ t₂ i h₁ h₂
    by_cases hne₁ : t₁ = t
    · subst hne₁
      by_contra hne₂
      rw [setCall_self] at h₁
      rw [setCall_of_ne (Ne.symm hne₂)] at h₂
      obtain ⟨rfl, -⟩ := hnew i h₁
      exact hnone t₂ (Ne.symm hne₂) h₂
    · rw [setCall_of_ne hne₁] at h₁
      by_cases hne₂ : t₂ = t
      · subst hne₂
        rw [setCall_self] at h₂
        obtain ⟨rfl, -⟩ := hnew i h₂
        exact absurd h₁ (hnone t₁ hne₁)
      · rw [setCall_of_ne hne₂] at h₂
        exact h.alone t₁ t₂ i h₁ h₂

theorem Held.setCall (h : w.Held) {t : ℕ} {c : Call Page} (hold : (w.calls t).holds = none)
    (hc : c.holds = none) : (w.setCall t c).Held := by
  have hsame : ∀ t' i, ((w.setCall t c).calls t').holds = some i ↔ (w.calls t').holds = some i := by
    intro t' i
    by_cases hne : t' = t
    · subst hne
      rw [setCall_self, hold, hc]
    · rw [setCall_of_ne hne]
  refine ⟨fun i hlock => ?_, fun t' i ht' => h.holds t' i ((hsame t' i).mp ht'),
    fun t₁ t₂ i h₁ h₂ => h.alone t₁ t₂ i ((hsame t₁ i).mp h₁) ((hsame t₂ i).mp h₂)⟩
  obtain ⟨hpos, t', ht'⟩ := h.taken i hlock
  exact ⟨hpos, t', (hsame t' i).mpr ht'⟩

/-- The last message of a round waits under the lock. -/
theorem run_msg2 {t : ℕ} {env : Env} {key : Key} (hcall : w.calls t = .msg2 key)
    {q : ReqQueue Page} (hq : (w.req.queues 1).writeMsg2 key = some q) {c : Call Page}
    (hrun : w.run hash exclusivePolicy cid t env =
      some ({ w with req := w.req.setQueue 1 q }.setCall t c)) :
    c.holds = if q.lock = .free then none else some 1 := by
  have hreq : w.req.step hash exclusivePolicy cid (.writeMsg2 key) = some (w.req.setQueue 1 q) :=
    congrArg (Option.map _) hq
  simp only [run, hcall, hreq, Option.map_some, ReqPath.setQueue_self] at hrun
  have hc := congrArg (fun w : World Page => w.calls t) (Option.some.inj hrun)
  simp only [setCall_self] at hc
  rw [← hc]
  split
  · rfl
  · rfl

theorem Held.initial {s₀ : Server Page}
    (hinit : (worldSystem hash exclusivePolicy cid s₀).init w) : w.Held := by
  obtain ⟨-, hqueues, -, hcalls, -⟩ := hinit
  constructor
  · intro qid hlock
    rw [hqueues] at hlock
    exact absurd rfl hlock
  · intro t qid ht
    rw [hcalls] at ht
    cases ht
  · intro t t' qid ht
    rw [hcalls] at ht
    cases ht

theorem Held.step (h : w.Held) (hstep : w.step hash exclusivePolicy cid a = some w') : w'.Held := by
  have heffect := step_effect hstep
  cases heffect with
  | entered hidle henters =>
      exact (h.setCall (by rw [hidle]; rfl) henters.holds).of_eq rfl fun _ => Iff.rfl
  | moved af metadata hcall hlocal =>
      exact (h.of_eq rfl fun _ => Iff.rfl : ({ w with af, metadata } : World Page).Held).setCall
        (by rw [hcall]; exact hlocal.holds.1) hlocal.holds.2
  | denied hcall hdenies hdenied =>
      exact h.setCall (by rw [hcall]; exact hdenied.holds.1) hdenied.holds.2
  | returned hcall hreturns =>
      exact (h.setCall (by rw [hcall]; exact hreturns.holds) rfl).of_eq rfl fun _ => Iff.rfl
  | @accepted t env page put hcall hput =>
      exact (h.of_eq rfl fun _ => Iff.rfl : ({ w with put } : World Page).Held).setCall
        (by rw [hcall]; rfl) rfl
  | asked hcall hqid hq =>
      obtain ⟨hfree, rfl⟩ := ReqQueue.writeMsg_some hq
      refine h.setQueue ?_ (by rw [hcall]; nofun) (Or.inl hfree) rfl
      rw [hqid]
      exact Nat.succ_pos _
  | asked2 hcall hq hc =>
      exact h.setQueue Nat.one_pos (by rw [hcall]; nofun) (Or.inl (ReqQueue.writeMsg2_some hq).1)
        (run_msg2 hcall hq hstep)
  | @sent t qid env q hq =>
      obtain ⟨hposted, rfl⟩ := ReqQueue.pollSendCq_some hq
      refine h.of_eq rfl fun i => ?_
      by_cases hi : i = qid
      · subst hi
        rw [hposted]
        refine ⟨fun hfree => ?_, nofun⟩
        cases (congrArg ReqQueue.lock (ReqPath.setQueue_self i _)).symm.trans hfree
      · exact Eq.congr_left (congrArg ReqQueue.lock (ReqPath.setQueue_of_ne (Ne.symm hi) _))
  | @answered t qid env key page r q ret hcall hr hq hret =>
      obtain ⟨_, _, -, -, rfl⟩ := ReqQueue.pollRecvCq_some hq
      have hholds : (w.calls t).holds = some qid := by rw [hcall]; rfl
      refine h.setQueue (h.taken qid (h.holds t qid hholds)).1 (fun i hi => ?_) (Or.inr hholds) rfl
      exact Option.some.inj (hi.symm.trans hholds)
  | @answered2 t n env key q ret hcall hq =>
      obtain ⟨_, _, -, -, rfl⟩ := ReqQueue.pollRecvCq_some hq
      have hholds : (w.calls t).holds = some 1 := by rw [hcall]; rfl
      exact h.setQueue Nat.one_pos (fun i hi => Option.some.inj (hi.symm.trans hholds))
        (Or.inr hholds) rfl
  | worked ha hput => exact h.of_eq rfl fun _ => Iff.rfl
  | tookPut hwire hserver => exact h.of_eq rfl fun _ => Iff.rfl
  | delivered hreq =>
      refine h.of_eq rfl fun i => ?_
      rw [(ReqPath.deliver_queue hreq i).2.1]
  | @handled qid d req hreq =>
      obtain ⟨imm, completions, replies, handled, -, hqueues, -⟩ := ReqPath.process_some hreq
      refine h.of_eq rfl fun i => ?_
      have hset := congrFun hqueues i
      by_cases hi : i = qid
      · subst hi
        rw [hset, ReqPath.setQueue_self]
      · rw [hset, ReqPath.setQueue_of_ne (Ne.symm hi)]
  | served hfree hserver => exact h.of_eq rfl fun _ => Iff.rfl
  | refreshed metadata => exact h.of_eq rfl fun _ => Iff.rfl

/-! ## Receives -/

/-- On every request queue a receive is posted or will be. -/
def Posted (cid : ℕ) (w : World Page) : Prop :=
  ∀ qid, 0 < qid → qid < numDataQps → w.req.Credited cid qid

/-- Nobody else takes the receives of the request queues. -/
def Undisturbed (cid : ℕ) : WorldStep Page → Prop
  | .server a => ∀ qid, 0 < qid → qid < numDataQps → a.queue ≠ some (cid, qid)
  | _ => True

/-- The request path does nothing in a step or takes one of its own. -/
theorem req_step (h : Effect hash exclusivePolicy cid w a w') : w'.req = w.req ∨
    ∃ b, w.req.step hash exclusivePolicy cid b = some w'.req ∧
      ∀ sa, b = .server sa → sa.queue = some (cid, 0) ∨ a = .server sa := by
  cases h with
  | @asked t qid env key page q hcall hqid hq =>
      refine Or.inr ⟨.writeMsg env.cpu key env.raddr, ?_, nofun⟩
      rw [hqid] at hq ⊢
      exact congrArg (Option.map _) hq
  | @asked2 t env key q c hcall hq hc =>
      exact Or.inr ⟨.writeMsg2 key, congrArg (Option.map _) hq, nofun⟩
  | @sent t qid env q hq => exact Or.inr ⟨.pollSendCq qid, congrArg (Option.map _) hq, nofun⟩
  | @answered t qid env key page r q ret hcall hr hq hret =>
      exact Or.inr ⟨.pollRecvCq qid, congrArg (Option.map _) hq, nofun⟩
  | @answered2 t n env key q ret hcall hq =>
      exact Or.inr ⟨.pollRecvCq 1, congrArg (Option.map _) hq, nofun⟩
  | @tookPut d m wire s r replies hwire hserver =>
      refine Or.inr ⟨.server (.send cid 0 (.slot m.1) m.2 d), ?_, ?_⟩
      · exact congrArg (Option.map _) hserver
      · rintro sa hsa
        cases hsa
        exact Or.inl rfl
  | @delivered qid req hreq => exact Or.inr ⟨.deliver qid, hreq, nofun⟩
  | @handled qid d req hreq => exact Or.inr ⟨.process qid d, hreq, nofun⟩
  | @served sa s r hfree hserver =>
      refine Or.inr ⟨.server sa, ?_, ?_⟩
      · have hown : ¬ ReqPath.Reserved cid sa := by
          intro hres
          cases sa with
          | writeImm c qid off words imm d => exact hfree hres
          | _ => exact hres
        show (if ReqPath.Reserved cid sa then none else _) = _
        rw [if_neg hown]
        exact congrArg (Option.map _) hserver
      · rintro sa' hsa
        cases hsa
        exact Or.inr rfl
  | _ => exact Or.inl rfl

theorem Posted.step (h : w.Posted cid) (hreq : w.req.Inv cid) (hquiet : Undisturbed cid a)
    (heffect : Effect hash exclusivePolicy cid w a w') : w'.Posted cid := by
  intro qid hpos hqid
  rcases req_step heffect with hsame | ⟨b, hstep, hserver⟩
  · rw [hsame]
    exact h qid hpos hqid
  · refine (h qid hpos hqid).step hreq (fun sa hsa => ?_) hstep
    rcases hserver sa hsa with hzero | rfl
    · rw [hzero]
      rintro ⟨⟩
      exact absurd hpos (Nat.lt_irrefl 0)
    · exact hquiet qid hpos hqid

/-! ## The measure -/

/-- How much there is to do at most for the calls of `S`: a section may leave three
steps to its queue. -/
def toGo (S : Finset ℕ) (w : World Page) : ℕ :=
  ∑ t ∈ S, 4 * (w.calls t).sections + ∑ qid ∈ Finset.range numDataQps, (w.req.queues qid).toGo

/-- The messages of queue 1, with those that the calls of `S` have yet to write. -/
def messages (S : Finset ℕ) (w : World Page) : ℕ :=
  (w.req.queues 1).calls.length + ∑ t ∈ S, (w.calls t).messages

/-- The counter of queue 0, with the pages that the calls of `S` have yet to hand over. -/
def pages (S : Finset ℕ) (w : World Page) : ℕ :=
  w.put.queue.msgId + ∑ t ∈ S, (w.calls t).toPut

/-- No call begins, and `n` of what there is to do is done. -/
structure Spends (S : Finset ℕ) (w w' : World Page) (n : ℕ) : Prop where
  idle : ∀ t ∉ S, w'.calls t = .idle
  messages_le : w'.messages S ≤ w.messages S
  pages_le : w'.pages S ≤ w.pages S
  toGo_le : w'.toGo S + n ≤ w.toGo S

section Spends

variable {t qid : ℕ} {c : Call Page} {q : ReqQueue Page}

theorem toGo_update (hqid : qid < numDataQps)
    (hqueues : w'.req.queues = (w.req.setQueue qid q).queues) :
    ∑ i ∈ Finset.range numDataQps, (w'.req.queues i).toGo + (w.req.queues qid).toGo =
      ∑ i ∈ Finset.range numDataQps, (w.req.queues i).toGo + q.toGo := by
  rw [hqueues]
  exact sum_update (Finset.mem_range.mpr hqid) ReqQueue.toGo w.req.queues q

/-- A call moves on together with a queue. -/
theorem Spends.move (hidle : ∀ t ∉ S, w.calls t = .idle) (hbusy : w.calls t ≠ .idle)
    (hcalls : w'.calls = Function.update w.calls t c) (hqid : qid < numDataQps)
    (hqueues : w'.req.queues = (w.req.setQueue qid q).queues)
    (hless : 4 * c.sections + q.toGo < 4 * (w.calls t).sections + (w.req.queues qid).toGo)
    (hmessages : (w'.req.queues 1).calls.length + c.messages ≤
      (w.req.queues 1).calls.length + (w.calls t).messages)
    (hpages : w'.put.queue.msgId + c.toPut ≤ w.put.queue.msgId + (w.calls t).toPut) :
    Spends S w w' 1 := by
  have ht : t ∈ S := by
    by_contra hout
    exact hbusy (hidle t hout)
  refine ⟨fun t' ht' => ?_, ?_, ?_, ?_⟩
  · rw [hcalls, Function.update_of_ne (ne_of_mem_of_not_mem ht ht').symm]
    exact hidle t' ht'
  · have hsum := sum_update ht Call.messages w.calls c
    rw [messages, messages, hcalls]
    omega
  · have hsum := sum_update ht Call.toPut w.calls c
    rw [pages, pages, hcalls]
    omega
  · have hsum := sum_update ht (fun c : Call Page => 4 * c.sections) w.calls c
    have hqueue := toGo_update hqid hqueues
    rw [toGo, toGo, hcalls]
    omega

/-- A call moves on alone. -/
theorem Spends.call (hidle : ∀ t ∉ S, w.calls t = .idle) (hbusy : w.calls t ≠ .idle)
    (hcalls : w'.calls = Function.update w.calls t c) (hreq : w'.req = w.req)
    (hless : c.sections < (w.calls t).sections) (hmessages : c.messages ≤ (w.calls t).messages)
    (hpages : w'.put.queue.msgId + c.toPut ≤ w.put.queue.msgId + (w.calls t).toPut) :
    Spends S w w' 1 := by
  have hqueues : w'.req.queues = (w.req.setQueue 0 (w.req.queues 0)).queues := by
    rw [hreq]
    exact (Function.update_eq_self 0 w.req.queues).symm
  refine .move hidle hbusy hcalls (by decide) hqueues (by omega) ?_ hpages
  rw [hreq]
  exact Nat.add_le_add_left hmessages _

/-- A request queue moves on alone. -/
theorem Spends.queue (hidle : ∀ t ∉ S, w.calls t = .idle) (hcalls : w'.calls = w.calls)
    (hput : w'.put = w.put)
    (hqid : qid < numDataQps) (hqueues : w'.req.queues = (w.req.setQueue qid q).queues)
    (hless : q.toGo < (w.req.queues qid).toGo)
    (hmessages : (w'.req.queues 1).calls = (w.req.queues 1).calls) : Spends S w w' 1 := by
  refine ⟨fun t ht => ?_, ?_, ?_, ?_⟩
  · rw [hcalls]
    exact hidle t ht
  · rw [messages, messages, hcalls, hmessages]
  · rw [pages, pages, hcalls, hput]
  · have hqueue := toGo_update hqid hqueues
    rw [toGo, toGo, hcalls]
    omega

theorem Spends.rest (hidle : ∀ t ∉ S, w.calls t = .idle) (hcalls : w'.calls = w.calls)
    (hqueues : w'.req.queues = w.req.queues) (hmsgId : w'.put.queue.msgId = w.put.queue.msgId) :
    Spends S w w' 0 := by
  refine ⟨fun t ht => ?_, ?_, ?_, ?_⟩
  · rw [hcalls]
    exact hidle t ht
  · rw [messages, messages, hcalls, hqueues]
  · rw [pages, pages, hcalls, hmsgId]
  · rw [toGo, toGo, hcalls, hqueues]
    exact Nat.le_refl _

end Spends

end World

/-! ## What the steps of a call do -/

namespace WorldStep

variable {Page : Type}

/-- A call begins. -/
def Begins : WorldStep Page → Prop
  | .putPage _ _ _ _ | .getPage _ _ _ _ | .invalidatePage _ _ _ => True
  | _ => False

/-- A call moves on, or a message on a request queue. -/
def Serves : WorldStep Page → Prop
  | .run _ _ | .deliver _ | .process _ _ => True
  | _ => False

instance : DecidablePred (@Serves Page)
  | .run _ _ | .deliver _ | .process _ _ => isTrue trivial
  | .putPage _ _ _ _ | .getPage _ _ _ _ | .invalidatePage _ _ _ | .worker _ | .processPut _ |
    .server _ | .updateFilter _ => isFalse not_false

end WorldStep

/-- An unread request is one of the client's data queues. -/
theorem ReqPath.Inv.unread_lt {Page : Type} {s : ReqPath Page} {cid qid : ℕ} (h : s.Inv cid)
    (hunread : (s.queues qid).completions ≠ []) : qid < numDataQps := by
  obtain ⟨ht, done, pend, hf⟩ := h qid
  refine ht.known fun hnil => hunread ?_
  have hreq := hf.requests
  rw [ReqQueue.requests, hnil, List.mapIdx_nil] at hreq
  rw [hf.completions, (List.append_eq_nil_iff.mp (List.append_eq_nil_iff.mp hreq.symm).2).1]
  rfl

namespace World

variable {Page : Type} {hash : HashFuncs} {exclusivePolicy : Bool} {cid : ℕ} {w w' : World Page}
  {a : WorldStep Page} {S : Finset ℕ}

theorem spends_of_effect (h : Effect hash exclusivePolicy cid w a w') (hreq : w.req.Inv cid)
    (hidle : ∀ t ∉ S, w.calls t = .idle) (hbegins : ¬ a.Begins) :
    Spends S w w' (if a.Serves then 1 else 0) := by
  have hbusy : ∀ {t : ℕ} {c : Call Page}, w.calls t = c → 0 < c.sections → w.calls t ≠ .idle := by
    rintro t c hcall hpos hnone
    rw [← hcall, hnone] at hpos
    exact absurd hpos (Nat.lt_irrefl 0)
  have three : 0 < 3 := Nat.succ_pos 2
  have four : 0 < 4 := Nat.succ_pos 3
  cases h with
  | entered hnone henters =>
      cases henters with
      | put ino index data => exact absurd trivial hbegins
      | get ino index page => exact absurd trivial hbegins
      | inv ino index => exact absurd trivial hbegins
  | moved af metadata hcall hlocal =>
      obtain ⟨hless, hmessages, hpages⟩ := hlocal.spends
      rw [← hcall] at hless hmessages hpages
      exact .call hidle (hbusy rfl (Nat.zero_lt_of_lt hless)) rfl rfl hless hmessages
        (Nat.add_le_add_left hpages _)
  | denied hcall hdenies hdenied =>
      obtain ⟨hless, hmessages, hpages⟩ := hdenied.spends
      rw [← hcall] at hless hmessages hpages
      exact .call hidle (hbusy rfl (Nat.zero_lt_of_lt hless)) rfl rfl hless hmessages
        (Nat.add_le_add_left hpages _)
  | returned hcall hreturns =>
      have hless := hreturns.spends
      rw [← hcall] at hless
      exact .call hidle (hbusy rfl hless) rfl rfl hless (Nat.zero_le _)
        (Nat.add_le_add_left (Nat.zero_le _) _)
  | accepted hcall hput =>
      refine .call hidle (hbusy hcall three) rfl rfl (by rw [hcall]; exact Nat.lt_succ_self 2)
        (Nat.zero_le _) ?_
      rw [hcall]
      exact PutRun.msgId_sendPage_le hput
  | @asked t qid env key page q hcall hqid hq =>
      have hgo := ReqQueue.toGo_writeMsg hq
      have hlt : qid < numDataQps := by
        rw [hqid]
        exact Nat.add_lt_add_right (Nat.mod_lt _ (by decide)) 2
      have hne : qid ≠ 1 := by omega
      refine .move hidle (hbusy hcall four) rfl hlt rfl ?_ ?_ (Nat.add_le_add_left (Nat.zero_le _) _)
      -- the section that is over pays for the three steps of the request
      · rw [hcall, hgo]
        show 4 * 3 + _ < 4 * 4 + _
        omega
      · show ((w.req.setQueue qid q).queues 1).calls.length + 0 ≤ _
        rw [ReqPath.setQueue_of_ne hne]
        exact Nat.add_le_add_left (Nat.zero_le _) _
  | @asked2 t env key q c hcall hq hc =>
      have hgo := ReqQueue.toGo_writeMsg2 hq
      have hlast : c.sections ≤ 3 ∧ c.messages = 0 ∧ c.toPut = 0 := by
        rcases hc with rfl | rfl
        · exact ⟨Nat.le_succ 2, rfl, rfl⟩
        · exact ⟨Nat.le_refl 3, rfl, rfl⟩
      refine .move hidle (hbusy hcall four) rfl (by decide) rfl ?_ ?_
        (Nat.add_le_add_left (hlast.2.2.le.trans (Nat.zero_le _)) _)
      · rw [hcall]
        show _ < 4 * 4 + _
        omega
      · obtain ⟨-, rfl⟩ := ReqQueue.writeMsg2_some hq
        show ((w.req.setQueue 1 _).queues 1).calls.length + _ ≤ _
        rw [ReqPath.setQueue_self, hcall, hlast.2.1, List.length_append]
        exact Nat.le_refl _
  | @sent t qid env q hq =>
      have hstep : w.req.step hash exclusivePolicy cid (.pollSendCq qid) =
          some (w.req.setQueue qid q) := congrArg (Option.map _) hq
      have hgo := ReqQueue.toGo_pollSendCq hq
      have hlt : qid < numDataQps := hreq.lock_lt (ReqQueue.pollSendCq_held hq)
      exact .queue hidle rfl rfl hlt rfl (by omega) (ReqPath.step_calls_eq hstep (by rintro _ ⟨⟩))
  | @answered t qid env key page r q ret hcall hr hq hret =>
      have hstep : w.req.step hash exclusivePolicy cid (.pollRecvCq qid) =
          some (w.req.setQueue qid q) := congrArg (Option.map _) hq
      have hgo := ReqQueue.toGo_pollRecvCq hq
      have hlt : qid < numDataQps := hreq.lock_lt (ReqQueue.pollRecvCq_held hq)
      refine .move hidle (hbusy hcall three) rfl hlt rfl ?_ ?_ (Nat.add_le_add_left (Nat.zero_le _) _)
      · rw [hcall, hgo]
        exact Nat.add_lt_add_right (by decide : 4 * 2 < 4 * 3) _
      · rw [hcall]
        exact (congrArg List.length (ReqPath.step_calls_eq hstep (by rintro _ ⟨⟩))).le
  | @answered2 t n env key q ret hcall hq =>
      have hstep : w.req.step hash exclusivePolicy cid (.pollRecvCq 1) =
          some (w.req.setQueue 1 q) := congrArg (Option.map _) hq
      have hgo := ReqQueue.toGo_pollRecvCq hq
      refine .move hidle (hbusy hcall three) rfl (by decide) rfl ?_ ?_
        (Nat.add_le_add_left (Nat.zero_le _) _)
      · rw [hcall, hgo]
        exact Nat.add_lt_add_right (by decide : 4 * 2 < 4 * 3) _
      · rw [hcall]
        exact (congrArg List.length (ReqPath.step_calls_eq hstep (by rintro _ ⟨⟩))).le
  | @delivered qid req hstep =>
      obtain ⟨r, sends, addr, hsends, -, hqueues, -⟩ := ReqPath.deliver_some hstep
      have hsent : (w.req.queues qid).sends ≠ [] := by
        rw [hsends]
        exact List.cons_ne_nil _ _
      refine .queue hidle rfl rfl (hreq.qid_lt hsent) hqueues ?_ (ReqPath.deliver_queue hstep 1).1
      simp only [ReqQueue.toGo, hsends, List.length_append, List.length_cons, List.length_nil]
      omega
  | @handled qid d req hstep =>
      obtain ⟨imm, completions, replies, handled, hcomp, hqueues, -⟩ := ReqPath.process_some hstep
      have hproc : w.req.step hash exclusivePolicy cid (.process qid d) = some req := hstep
      have hunread : (w.req.queues qid).completions ≠ [] := by
        rw [hcomp]
        exact List.cons_ne_nil _ _
      refine .queue hidle rfl rfl (hreq.unread_lt hunread) hqueues ?_
        (ReqPath.step_calls_eq hproc (by rintro _ ⟨⟩))
      simp only [ReqQueue.toGo, hcomp, List.length_cons]
      omega
  | worked ha hput => exact .rest hidle rfl rfl (PutRun.msgId_step_eq ha hput)
  | tookPut hwire hserver => exact .rest hidle rfl rfl rfl
  | served hfree hserver => exact .rest hidle rfl rfl rfl
  | refreshed metadata => exact .rest hidle rfl rfl rfl

/-! ## No deadlock -/

/-- What every step keeps while no call begins. -/
structure Settling (hash : HashFuncs) (cid : ℕ) (S : Finset ℕ) (w : World Page) : Prop where
  sound : w.Sound hash cid
  held : w.Held
  posted : w.Posted cid
  idle : ∀ t ∉ S, w.calls t = .idle
  calls : w.messages S < 2 ^ 31
  puts : w.pages S < 2 ^ 31

def Closing (cid : ℕ) (w : World Page) (a : WorldStep Page) : Prop :=
  (w.WellFormed cid a ∧ Undisturbed cid a) ∧ ¬ a.Begins

/-- A call is under way. -/
def Busy (w : World Page) : Prop := ∃ t, w.calls t ≠ .idle

theorem Settling.unwrapped (h : w.Settling hash cid S) : w.Unwrapped :=
  ⟨Nat.lt_of_le_of_lt (Nat.le_add_right _ _) h.puts,
    Nat.lt_of_le_of_lt (Nat.le_add_right _ _) h.calls⟩

theorem Settling.spends (h : w.Settling hash cid S) (ha : w.Closing cid a)
    (hstep : w.step hash exclusivePolicy cid a = some w') :
    Spends S w w' (if a.Serves then 1 else 0) :=
  spends_of_effect (step_effect hstep) h.sound.req h.idle ha.2

theorem Settling.step (h : w.Settling hash cid S) (ha : w.Closing cid a)
    (hstep : w.step hash exclusivePolicy cid a = some w') : w'.Settling hash cid S where
  sound := h.sound.step ha.1.1 (step_effect hstep)
  held := h.held.step hstep
  posted := h.posted.step h.sound.req ha.1.2 (step_effect hstep)
  idle := (h.spends ha hstep).idle
  calls := Nat.lt_of_le_of_lt (h.spends ha hstep).messages_le h.calls
  puts := Nat.lt_of_le_of_lt (h.spends ha hstep).pages_le h.puts

/-- A call, a delivery or a request handler can go on. -/
def Moves (hash : HashFuncs) (exclusivePolicy : Bool) (cid : ℕ) (w : World Page) : Prop :=
  ∃ a : WorldStep Page, a.Serves ∧ w.Closing cid a ∧
    ∃ w', w.step hash exclusivePolicy cid a = some w'

theorem Settling.moves_of_run (h : w.Settling hash cid S) {t : ℕ}
    (hrun : ∃ w', w.run hash exclusivePolicy cid t {} = some w') :
    w.Moves hash exclusivePolicy cid :=
  ⟨.run t {}, trivial, ⟨⟨h.unwrapped, trivial⟩, not_false⟩, hrun⟩

section Poll

variable {qid : ℕ} {b : ReqStep Page} {req : ReqPath Page}

theorem polled_held (hb : b = .pollSendCq qid ∨ b = .pollRecvCq qid)
    (hstep : w.req.step hash exclusivePolicy cid b = some req) :
    (w.req.queues qid).lock ≠ .free := by
  rcases hb with rfl | rfl
  · obtain ⟨q, hq, -⟩ := Option.map_eq_some_iff.mp hstep
    exact ReqQueue.pollSendCq_held hq
  · obtain ⟨q, hq, -⟩ := Option.map_eq_some_iff.mp hstep
    exact ReqQueue.pollRecvCq_held hq

/-- A poll goes on when its queue does and every reply leads somewhere. -/
theorem poll_enabled (hb : b = .pollSendCq qid ∨ b = .pollRecvCq qid)
    (hstep : w.req.step hash exclusivePolicy cid b = some req) (t : ℕ)
    {next : Reply Page → Option (Call Page)} (hnext : ∀ r, ∃ c, next r = some c) :
    ∃ w', w.poll hash exclusivePolicy cid t qid next = some w' := by
  rcases hb with rfl | rfl
  · obtain ⟨q, hq, -⟩ := Option.map_eq_some_iff.mp hstep
    rw [poll, (ReqQueue.pollSendCq_some hq).1, hstep]
    exact ⟨_, rfl⟩
  · obtain ⟨q, hq, -⟩ := Option.map_eq_some_iff.mp hstep
    obtain ⟨r, replies, hpolling, hreplies, -⟩ := ReqQueue.pollRecvCq_some hq
    obtain ⟨c, hc⟩ := hnext r
    refine ⟨{ w with req }.setCall t c, ?_⟩
    rw [poll, hpolling, hreplies, hstep]
    show (next r).bind _ = _
    rw [hc]
    rfl

/-- The poll of a queue is the next section of the call that holds its lock. -/
theorem Held.run_poll (h : w.Held) (hb : b = .pollSendCq qid ∨ b = .pollRecvCq qid)
    (hstep : w.req.step hash exclusivePolicy cid b = some req) :
    ∃ t w', w.run hash exclusivePolicy cid t {} = some w' := by
  obtain ⟨-, t, ht⟩ := h.taken qid (polled_held hb hstep)
  refine ⟨t, ?_⟩
  cases hcall : w.calls t with
  | wait key i page =>
      rw [hcall] at ht
      cases ht
      simp only [run, hcall]
      -- the request of the page was mapped, so any reply gives a result
      exact poll_enabled hb hstep t fun r => ⟨_, rfl⟩
  | wait2 key n =>
      rw [hcall] at ht
      cases ht
      simp only [run, hcall]
      exact poll_enabled hb hstep t fun r => ⟨_, rfl⟩
  | _ =>
      rw [hcall] at ht
      cases ht

end Poll

/-- Behind a lock something can move. -/
theorem Settling.lock_moves (exclusivePolicy : Bool) (h : w.Settling hash cid S) {qid : ℕ}
    (hlock : (w.req.queues qid).lock ≠ .free) : w.Moves hash exclusivePolicy cid := by
  have hposted := h.posted qid (h.held.taken qid hlock).1 (h.sound.req.lock_lt hlock)
  have hserved : w.req.Served cid qid := ⟨h.sound.req, h.unwrapped.calls, hposted⟩
  obtain ⟨b, hserves, -, req, hreq⟩ :=
    @ReqPath.Served.enabled Page hash exclusivePolicy cid qid w.req hserved hlock
  cases b with
  | deliver i =>
      exact ⟨.deliver i, trivial, ⟨⟨trivial, trivial⟩, not_false⟩, _,
        congrArg (Option.map _) hreq⟩
  | process i d =>
      exact ⟨.process i d, trivial, ⟨⟨trivial, trivial⟩, not_false⟩, _,
        congrArg (Option.map _) hreq⟩
  | pollSendCq i =>
      obtain ⟨t, hrun⟩ := h.held.run_poll (Or.inl rfl) hreq
      exact h.moves_of_run hrun
  | pollRecvCq i =>
      obtain ⟨t, hrun⟩ := h.held.run_poll (Or.inr rfl) hreq
      exact h.moves_of_run hrun
  | _ => exact absurd hserves not_false

/-- While a call is under way it can move, or what it waits for. -/
theorem Settling.enabled (exclusivePolicy : Bool) (h : w.Settling hash cid S) (hbusy : w.Busy) :
    w.Moves hash exclusivePolicy cid := by
  obtain ⟨t, ht⟩ := hbusy
  cases hcall : w.calls t with
  | idle => exact absurd hcall ht
  | upsert ino index page =>
      refine h.moves_of_run (t := t) ?_
      simp only [run, hcall]
      cases w.af with
      | none => exact ⟨_, rfl⟩
      | some af => exact ⟨_, rfl⟩
  | msg key page =>
      -- processor 0 asks on queue 2, if nobody else does
      by_cases hlock : (w.req.queues 2).lock = .free
      swap
      · exact h.lock_moves exclusivePolicy hlock
      obtain ⟨q, hq⟩ : ∃ q, (w.req.queues 2).writeMsg 2 key 0 = some q := by
        rw [ReqQueue.writeMsg, hlock]
        exact ⟨_, rfl⟩
      have hreq : w.req.step hash exclusivePolicy cid (.writeMsg 0 key 0) =
          some (w.req.setQueue 2 q) := congrArg (Option.map _) hq
      refine h.moves_of_run (t := t) ?_
      simp only [run, hcall, hreq]
      exact ⟨_, rfl⟩
  | msg2 key =>
      by_cases hlock : (w.req.queues 1).lock = .free
      swap
      · exact h.lock_moves exclusivePolicy hlock
      obtain ⟨q, hq⟩ : ∃ q, (w.req.queues 1).writeMsg2 key = some q := by
        rw [ReqQueue.writeMsg2, hlock]
        exact ⟨_, rfl⟩
      have hreq : w.req.step hash exclusivePolicy cid (.writeMsg2 key) =
          some (w.req.setQueue 1 q) := congrArg (Option.map _) hq
      refine h.moves_of_run (t := t) ?_
      simp only [run, hcall, hreq]
      exact ⟨_, rfl⟩
  | wait key qid page =>
      exact h.lock_moves exclusivePolicy (h.held.holds t qid (by rw [hcall]; rfl))
  | wait2 key n =>
      exact h.lock_moves exclusivePolicy (h.held.holds t 1 (by rw [hcall]; rfl))
  | _ =>
      refine h.moves_of_run (t := t) ?_
      simp only [run, hcall]
      exact ⟨_, rfl⟩

/-- Every step of a call or of a message brings the calls nearer to their end. -/
theorem calls_rule (hash : HashFuncs) (exclusivePolicy : Bool) (cid : ℕ) (S : Finset ℕ)
    (s₀ : Server Page) :
    Lib.Ends (worldSystem hash exclusivePolicy cid s₀) (Settling hash cid S) (Closing cid) Busy
      WorldStep.Serves (toGo S) where
  keep _ _ _ h ha hstep := h.step ha hstep
  enabled _ h hbusy := h.enabled exclusivePolicy hbusy
  own w a w' h ha hown _ _ hstep := by
    have hle := (h.spends ha hstep).toGo_le
    rw [if_pos hown] at hle
    exact hle
  other w a w' h ha hown _ _ hstep := by
    have hle := (h.spends ha hstep).toGo_le
    rw [if_neg hown] at hle
    exact hle

theorem Settling.toGo_le (h : w.Settling hash cid S) : w.toGo S ≤ 20 * S.card + 8200 := by
  have hcalls : ∑ t ∈ S, 4 * (w.calls t).sections ≤ S.card • 20 := by
    refine Finset.sum_le_card_nsmul S _ 20 fun t _ => ?_
    exact Nat.mul_le_mul_left 4 (w.calls t).sections_le
  have hqueues : ∑ qid ∈ Finset.range numDataQps, (w.req.queues qid).toGo ≤
      (Finset.range numDataQps).card • 1025 := by
    refine Finset.sum_le_card_nsmul _ _ 1025 fun qid _ => ?_
    obtain ⟨hturns, done, pend, hflow⟩ := h.sound.req qid
    exact hturns.toGo_le hflow
  rw [Finset.card_range, smul_eq_mul] at hqueues
  rw [smul_eq_mul] at hcalls
  have height : numDataQps = 8 := rfl
  rw [height] at hqueues
  rw [toGo, height]
  omega

/-- All calls that are under way come to their end, within `n` steps of theirs
and of the messages. -/
structure Finishing (hash : HashFuncs) (exclusivePolicy : Bool) (cid : ℕ) (s₀ : Server Page)
    (n : ℕ) (w : World Page) : Prop where
  /-- They can do so with these steps alone. -/
  reaches : ∃ as w', (∀ a ∈ as, a.Serves) ∧ as.length ≤ n + 1 ∧
    (worldSystem hash exclusivePolicy cid s₀).exec w as = some w' ∧ ∀ t, w'.calls t = .idle
  /-- Whatever else happens meanwhile but new calls, there are at most `n` of these steps,
  and the next one can always be taken. -/
  meanwhile : ∀ as w', (worldSystem hash exclusivePolicy cid s₀).Meets (Closing cid) w as →
    (worldSystem hash exclusivePolicy cid s₀).exec w as = some w' →
    (worldSystem hash exclusivePolicy cid s₀).Always Busy w as →
    as.countP (fun a => a.Serves) ≤ n ∧
      ∃ a w'', a.Serves ∧ w'.step hash exclusivePolicy cid a = some w''

theorem Settling.finishing (exclusivePolicy : Bool) (s₀ : Server Page)
    (h : w.Settling hash cid S) :
    w.Finishing hash exclusivePolicy cid s₀ (20 * S.card + 8200) := by
  have hrule := calls_rule hash exclusivePolicy cid S s₀
  have hle := h.toGo_le
  constructor
  · obtain ⟨as, w', hown, hlen, -, hexec, hdone⟩ := hrule.reaches h
    refine ⟨as, w', hown, by omega, hexec, fun t => ?_⟩
    by_contra hne
    exact hdone ⟨t, hne⟩
  · intro as w' hmeets hexec hbusy
    have hcount := hrule.bound h hmeets hexec hbusy
    have hsettling : w'.Settling hash cid S :=
      System.exec_invariant (fun w a w' => hrule.keep w a w') h hmeets hexec
    obtain ⟨a, hown, -, w'', hstep⟩ :=
      hrule.enabled w' hsettling (hbusy as (List.prefix_refl as) w' hexec)
    exact ⟨by omega, a, w'', hown, hstep⟩

end World

/-- In every state that can be reached once receives are posted on the request
queues, the calls under way come to their end unless new ones begin, whatever
the daemon and the other clients do. -/
theorem calls_end {Page : Type} (hash : HashFuncs) (exclusivePolicy : Bool) (startAddr : Value)
    (memPoolSize numClients numHash numBits : ℕ) (mem : Value → Slot Page) {cid : ℕ}
    (hcid : cid < numClients) {S : Finset ℕ} {w₀ w₁ w : World Page} {as bs : List (WorldStep Page)}
    (hinit : (worldSystem hash exclusivePolicy cid
      (.new startAddr memPoolSize numClients numHash numBits mem)).init w₀)
    (hstart : (worldSystem hash exclusivePolicy cid
      (.new startAddr memPoolSize numClients numHash numBits mem)).Meets
        (World.WellFormed cid) w₀ as)
    (hstarted : (worldSystem hash exclusivePolicy cid
      (.new startAddr memPoolSize numClients numHash numBits mem)).exec w₀ as = some w₁)
    (hposted : ∀ qid, 0 < qid → qid < numDataQps → w₁.req.server.recvs (cid, qid) ≠ [])
    (hok : (worldSystem hash exclusivePolicy cid
      (.new startAddr memPoolSize numClients numHash numBits mem)).Meets
        (fun w a => w.WellFormed cid a ∧ World.Undisturbed cid a) w₁ bs)
    (hrun : (worldSystem hash exclusivePolicy cid
      (.new startAddr memPoolSize numClients numHash numBits mem)).exec w₁ bs = some w)
    (hidle : ∀ t ∉ S, w.calls t = .idle)
    (hcalls : (w.req.queues 1).calls.length + S.card < 2 ^ 31)
    (hputs : w.put.queue.msgId + S.card < 2 ^ 31) :
    w.Finishing hash exclusivePolicy cid
      (.new startAddr memPoolSize numClients numHash numBits mem) (20 * S.card + 8200) := by
  have hsteady : w₁.Sound hash cid ∧ w₁.Held :=
    System.exec_invariant (I := fun w => w.Sound hash cid ∧ w.Held)
      (fun w a w' h ha hstep => ⟨h.1.step ha (World.step_effect hstep), h.2.step hstep⟩)
      ⟨World.Sound.initial hcid hinit, .initial hinit⟩ hstart hstarted
  have hcredit : w₁.Posted cid := fun qid hpos hqid =>
    Nat.lt_of_lt_of_le (List.length_pos_iff.mpr (hposted qid hpos hqid)) (Nat.le_add_right _ _)
  obtain ⟨hsound, hheld, hserved⟩ : w.Sound hash cid ∧ w.Held ∧ w.Posted cid :=
    System.exec_invariant (I := fun w => w.Sound hash cid ∧ w.Held ∧ w.Posted cid)
      (fun w a w' h ha hstep => ⟨h.1.step ha.1 (World.step_effect hstep), h.2.1.step hstep,
        h.2.2.step h.1.req ha.2 (World.step_effect hstep)⟩)
      ⟨hsteady.1, hsteady.2, hcredit⟩ hok hrun
  have hsum : ∀ f : Call Page → ℕ, (∀ c, f c ≤ 1) → ∑ t ∈ S, f (w.calls t) ≤ S.card := by
    intro f hf
    have hle := Finset.sum_le_card_nsmul S (fun t => f (w.calls t)) 1 fun t _ => hf _
    rwa [smul_eq_mul, Nat.mul_one] at hle
  have hmessages := Nat.add_le_add_left (hsum _ Call.messages_le) (w.req.queues 1).calls.length
  have hpages := Nat.add_le_add_left (hsum _ Call.toPut_le) w.put.queue.msgId
  have hsettling : w.Settling hash cid S :=
    ⟨hsound, hheld, hserved, hidle, Nat.lt_of_le_of_lt hmessages hcalls,
      Nat.lt_of_le_of_lt hpages hputs⟩
  exact hsettling.finishing exclusivePolicy _

/-! ## After the connection -/

section Connected

variable {Page : Type} {hash : HashFuncs} {exclusivePolicy : Bool} {cid : ℕ} {s s₀ : Server Page}

theorem prePostRecvs_ne_nil (cid qid : ℕ) : (s.prePostRecvs cid qid).recvs (cid, qid) ≠ [] := by
  have hpost : ∀ (t : Server Page) (addr : Value),
      (t.postRecv cid qid addr).recvs (cid, qid) ≠ [] := by
    intro t addr
    rw [Server.postRecv_recvs]
    exact List.append_ne_nil_of_right_ne_nil _ (List.cons_ne_nil _ _)
  have hone : ∀ t : Server Page, (t.prePostRecv cid qid).recvs (cid, qid) ≠ [] := by
    intro t
    unfold Server.prePostRecv
    split
    · split
      · exact hpost _ _
      · exact hpost t _
    · exact hpost t _
  have hloop : ∀ n, 0 < n →
      ((fun s => Server.prePostRecv s cid qid)^[n] s).recvs (cid, qid) ≠ [] := by
    rintro (_ | n) hpos
    · exact absurd hpos (Nat.lt_irrefl 0)
    · rw [Function.iterate_succ_apply']
      exact hone _
  unfold Server.prePostRecvs
  exact hloop Daemon.maxQpsRecvs (by decide)

/-- A loop of `pre_post_recvs` leaves receives on each of its queues. -/
theorem foldl_prePostRecvs_ne_nil {qid : ℕ} (qids : List ℕ) :
    ∀ {s : Server Page}, qid ∈ qids ∨ s.recvs (cid, qid) ≠ [] →
      (qids.foldl (fun s i => s.prePostRecvs cid i) s).recvs (cid, qid) ≠ [] := by
  induction qids with
  | nil =>
      rintro s (hnone | hs)
      · cases hnone
      · exact hs
  | cons i qids ih =>
      intro s hs
      rw [List.foldl_cons]
      rcases hs with hmem | hs
      · rcases List.mem_cons.mp hmem with rfl | hin
        · exact ih (Or.inr (prePostRecvs_ne_nil cid qid))
        · exact ih (Or.inl hin)
      · refine ih (Or.inr fun hnil => hs ?_)
        have hle := Server.length_prePostRecvs_le (s := s) cid i (cid, qid)
        rw [hnil] at hle
        exact List.eq_nil_of_length_eq_zero (Nat.le_zero.mp hle)

theorem foldl_prePostRecvs_trace (qids : List ℕ) (hqids : ∀ qid ∈ qids, qid < Daemon.numQps) :
    ∀ {s : Server Page}, s.Inv hash → cid < s.kv.pool.numClients →
      (Daemon.serverSystem hash exclusivePolicy s₀).Meets Server.WellFormed s
          (qids.map (.prePostRecvs cid)) ∧
        (Daemon.serverSystem hash exclusivePolicy s₀).exec s (qids.map (.prePostRecvs cid)) =
          some (qids.foldl (fun s i => s.prePostRecvs cid i) s) := by
  induction qids with
  | nil => exact fun _ _ => System.trace_nil _
  | cons i qids ih =>
      intro s hinv hcid
      obtain ⟨hi, hrest⟩ := List.forall_mem_cons.mp hqids
      have hfollows := hinv.prePostRecvs hcid hi
      have hclient : cid < (s.prePostRecvs cid i).kv.pool.numClients := by
        rw [hfollows.numClients]
        exact hcid
      rw [List.map_cons, List.foldl_cons]
      exact System.trace_cons ⟨hcid, hi⟩ (Daemon.serverSystem_prePostRecvs rfl)
        (ih hrest hfollows.inv hclient)

end Connected

/-- A get of the client of the small daemon waits. -/
theorem waiting_get_trace (s₀ s : Server ℕ) :
    ∃ w, ((worldSystem Daemon.keyHash true 0 s₀).Meets
        (fun w a => w.WellFormed 0 a ∧ World.Undisturbed 0 a)
        { smallWorld none .filterOff with req := { server := s } }
        [.getPage 0 2 0 9, .run 0 {}, .run 0 {}] ∧
      (worldSystem Daemon.keyHash true 0 s₀).exec
        { smallWorld none .filterOff with req := { server := s } }
        [.getPage 0 2 0 9, .run 0 {}, .run 0 {}] = some w) ∧
      w.calls 0 = .wait lateKey 2 9 ∧ (w.req.queues 1).calls = [] ∧ w.put.queue.msgId = 0 ∧
      ∀ t ∉ ({0} : Finset ℕ), w.calls t = .idle := by
  let w₀ : World ℕ := { smallWorld none .filterOff with req := { server := s } }
  let w₁ : World ℕ := (w₀.setCall 0 (.get lateKey 9)).record (.getCall 0 lateKey)
  let w₂ : World ℕ := w₁.setCall 0 (.msg lateKey 9)
  have hlt₁ : w₁.Unwrapped := ⟨Nat.two_pow_pos 31, Nat.two_pow_pos 31⟩
  have hlt₂ : w₂.Unwrapped := ⟨Nat.two_pow_pos 31, Nat.two_pow_pos 31⟩
  have hkey : OwnKey 0 lateKey := by decide
  refine ⟨_, System.trace_cons (m := w₁) ⟨hkey, trivial⟩ rfl (System.trace_cons (m := w₂)
    ⟨hlt₁, trivial⟩ rfl (System.trace_cons ⟨hlt₂, trivial⟩ rfl (System.trace_nil _))), rfl, rfl, rfl,
    fun t ht => ?_⟩
  rw [Finset.mem_singleton] at ht
  show Function.update (Function.update (Function.update _ 0 _) 0 _) 0 _ t = _
  rw [Function.update_of_ne ht, Function.update_of_ne ht, Function.update_of_ne ht]
  rfl

/-- The get waits for the daemon after the connection. -/
theorem calls_end_get :
    ∃ as w, (worldSystem Daemon.keyHash true 0 Daemon.smallServer).exec
        (smallWorld none .filterOff) as = some w ∧
      w.calls 0 = .wait lateKey 2 9 ∧
      w.Finishing Daemon.keyHash true 0 Daemon.smallServer 8220 := by
  have hinv : Daemon.smallServer.Inv Daemon.keyHash := Server.new_inv _ _ _ _ _ _
  have hfree : ∀ a ∈ ((List.range Daemon.numQps).map (.prePostRecvs 0) : List (ServerStep ℕ)),
      ¬ World.Reserved 0 a := by
    intro a ha
    obtain ⟨i, -, rfl⟩ := List.mem_map.mp ha
    exact not_false
  have hposted : ∀ qid < numDataQps, ((List.range Daemon.numQps).foldl
      (fun s i => s.prePostRecvs 0 i) Daemon.smallServer).recvs (0, qid) ≠ [] := fun qid hqid =>
    foldl_prePostRecvs_ne_nil _ (Or.inl (List.mem_range.mpr (Nat.lt_succ_of_lt hqid)))
  obtain ⟨hstart, hstarted⟩ := server_trace (w := smallWorld none .filterOff) hfree
    (@foldl_prePostRecvs_trace ℕ Daemon.keyHash true 0 Daemon.smallServer
      (List.range Daemon.numQps) (fun _ => List.mem_range.mp) _ hinv (by decide))
  generalize (List.range Daemon.numQps).foldl (fun s i => s.prePostRecvs 0 i) Daemon.smallServer =
    served at hposted hstarted
  obtain ⟨w, ⟨hok, hrun⟩, hwait, hcalls, hmsgId, hidle⟩ := waiting_get_trace Daemon.smallServer served
  refine ⟨_, w, System.exec_append_some.mpr ⟨_, hstarted, hrun⟩, hwait, ?_⟩
  refine calls_end Daemon.keyHash true 4096 1048576 16 1 8 _ (by decide)
    (smallWorld_init Daemon.keyHash true none .filterOff) hstart hstarted
    (fun qid _ hqid => hposted qid hqid) hok hrun hidle ?_ ?_
  · rw [hcalls]
    exact Nat.one_lt_two_pow (by decide)
  · rw [hmsgId]
    exact Nat.one_lt_two_pow (by decide)

end CleancacheRdma.Driver
