import Mathlib
import CleancacheRdma.Driver.Absence

/-!
# What a call has learned

A get has its answer before it returns, and an invalidation is over before it
does. What a call knows after a step it knew before, or the metadata or the
daemon told it in that step.
-/

namespace CleancacheRdma.Driver

open Daemon (Slot Key HashFuncs Server ServerStep Reply Draw)

namespace Call

variable {Page : Type}

/-- A lookup of the key in the metadata is next. -/
def looksUp : Call Page → Option Key
  | .get key _ | .inv key => some key
  | _ => none

/-- A get with an answer of a kind: a reply that is `good`, or already a return value
that is `ok`. -/
def Answered (good : Reply Page → Prop) (ok : ℤ → Prop) (key : Key) (req : ReqPath Page) :
    Call Page → Prop
  | .wait k qid _ => k = key ∧ ∃ r ∈ (req.queues qid).replies, good r
  | .got k ret _ | .getDone k ret _ => k = key ∧ ok ret
  | _ => False

instance (good : Reply Page → Prop) (ok : ℤ → Prop) [DecidablePred good] [DecidablePred ok]
    (key : Key) (req : ReqPath Page) : (c : Call Page) → Decidable (c.Answered good ok key req)
  | .wait _ _ _ => inferInstanceAs (Decidable (_ ∧ ∃ r ∈ _, good r))
  | .got _ ret _ | .getDone _ ret _ => inferInstanceAs (Decidable (_ ∧ ok ret))
  | .idle | .upsert _ _ _ | .put _ | .send _ | .add _ | .get _ _ | .msg _ _ | .inv _ | .msg2 _
  | .wait2 _ _ | .sent2 _ _ _ | .putDone _ _ | .invDone _ _ _ => isFalse not_false

/-- A get whose answer is a page. -/
def Hit (key : Key) (req : ReqPath Page) : Call Page → Prop :=
  Answered (fun r => ∃ data, r.payload = .page data) (· = 0) key req

instance (r : Reply Page) : Decidable (∃ data, r.payload = .page data) :=
  match h : r.payload with
  | .page data => isTrue ⟨data, rfl⟩
  | .empty => isFalse fun ⟨_, hpage⟩ => by cases hpage
  | .bitmap _ => isFalse fun ⟨_, hpage⟩ => by cases hpage

instance (key : Key) (req : ReqPath Page) (c : Call Page) : Decidable (c.Hit key req) :=
  inferInstanceAs (Decidable (c.Answered _ _ key req))

/-- An invalidation whose message was handled, or that sends none. -/
def Dropped (key : Key) (req : ReqPath Page) : Call Page → Prop
  | .wait2 k n | .sent2 k n _ | .invDone k (some n) _ => k = key ∧ n < (req.queues 1).handled.length
  | .invDone k none _ => k = key
  | _ => False

instance (key : Key) (req : ReqPath Page) : (c : Call Page) → Decidable (c.Dropped key req)
  | .wait2 _ _ | .sent2 _ _ _ | .invDone _ (some _) _ => inferInstanceAs (Decidable (_ ∧ _))
  | .invDone _ none _ => inferInstanceAs (Decidable (_ = _))
  | .idle | .upsert _ _ _ | .put _ | .send _ | .add _ | .get _ _ | .msg _ _ | .wait _ _ _
  | .got _ _ _ | .getDone _ _ _ | .inv _ | .msg2 _ | .putDone _ _ => isFalse not_false

/-- A get whose answer is a miss, or an invalidation that is over. -/
def Missed (key : Key) (req : ReqPath Page) (c : Call Page) : Prop :=
  c.Answered (fun r => r.payload = .empty) (· ≠ 0) key req ∨ c.Dropped key req

instance [DecidableEq Page] (key : Key) (req : ReqPath Page) (c : Call Page) :
    Decidable (c.Missed key req) := inferInstanceAs (Decidable (_ ∨ _))

section Learned

variable {c c' : Call Page} {key : Key} {req req' : ReqPath Page} {good : Reply Page → Prop}
  {ok : ℤ → Prop}

theorem Answered.of_replies
    (hreplies : ∀ i, ∀ r ∈ (req'.queues i).replies, r ∈ (req.queues i).replies)
    (h : c.Answered good ok key req') : c.Answered good ok key req := by
  cases c with
  | wait k qid page =>
      obtain ⟨hk, r, hr, hgood⟩ := h
      exact ⟨hk, r, hreplies qid r hr, hgood⟩
  | _ => exact h

theorem Answered.of_local (hlocal : Local c c') (h : c'.Answered good ok key req) :
    c.Answered good ok key req := by
  cases hlocal with
  | removed k ret page => exact h
  | _ => exact absurd h not_false

theorem Dropped.of_handled (hhandled : (req'.queues 1).handled.length = (req.queues 1).handled.length)
    (h : c.Dropped key req') : c.Dropped key req := by
  cases c with
  | wait2 k n => exact ⟨h.1, hhandled ▸ h.2⟩
  | sent2 k n ret => exact ⟨h.1, hhandled ▸ h.2⟩
  | invDone k msg ret =>
      cases msg with
      | none => exact h
      | some n => exact ⟨h.1, hhandled ▸ h.2⟩
  | _ => exact h

theorem Dropped.of_local (hlocal : Local c c') (h : c'.Dropped key req) : c.Dropped key req := by
  cases hlocal with
  | removed2 k n ret => exact h
  | _ => exact absurd h not_false

/-- An invalidation is over when its message is handled. -/
theorem Dropped.of_handled_succ
    (hhandled : (req'.queues 1).handled.length = (req.queues 1).handled.length + 1)
    (h : c.Dropped key req') :
    c.Dropped key req ∨ c.message = some ((req.queues 1).handled.length, key) := by
  have hmessage : ∀ n k, k = key ∧ n < (req'.queues 1).handled.length →
      (k = key ∧ n < (req.queues 1).handled.length) ∨
        (n, k) = ((req.queues 1).handled.length, key) := by
    rintro n k ⟨rfl, hlt⟩
    rw [hhandled] at hlt
    rcases Nat.lt_succ_iff_lt_or_eq.mp hlt with hlt | rfl
    · exact Or.inl ⟨rfl, hlt⟩
    · exact Or.inr rfl
  cases c with
  | wait2 k n => exact (hmessage n k h).imp_right (congrArg some)
  | sent2 k n ret => exact (hmessage n k h).imp_right (congrArg some)
  | invDone k msg ret =>
      cases msg with
      | none => exact Or.inl h
      | some n => exact (hmessage n k h).imp_right (congrArg some)
  | _ => exact absurd h not_false

end Learned

end Call

namespace World

variable {Page : Type} {hash : HashFuncs} {exclusivePolicy : Bool} {cid : ℕ} {w w' : World Page}
  {a : WorldStep Page} {key : Key}

/-- A step that handles no request leaves no new reply and no new message handled. -/
theorem quiet_or_handled (heffect : Effect hash exclusivePolicy cid w a w') :
    ((∀ i, ∀ r ∈ (w'.req.queues i).replies, r ∈ (w.req.queues i).replies) ∧
      (w'.req.queues 1).handled.length = (w.req.queues 1).handled.length) ∨
    ∃ qid d req, a = .process qid d ∧ w.req.process hash exclusivePolicy cid qid d = some req ∧
      w'.req = req ∧ w'.calls = w.calls := by
  have hqueue : ∀ {qid : ℕ} {q : ReqQueue Page}, (∀ r ∈ q.replies, r ∈ (w.req.queues qid).replies) →
      q.handled = (w.req.queues qid).handled →
      (∀ i, ∀ r ∈ ((w.req.setQueue qid q).queues i).replies, r ∈ (w.req.queues i).replies) ∧
        ((w.req.setQueue qid q).queues 1).handled.length = (w.req.queues 1).handled.length := by
    intro qid q hreplies hhandled
    constructor
    · exact ReqPath.forall_setQueue (P := fun i q' => ∀ r ∈ q'.replies, r ∈ (w.req.queues i).replies)
        hreplies fun _ _ hr => hr
    · exact ReqPath.forall_setQueue
        (P := fun i q' => q'.handled.length = (w.req.queues i).handled.length)
        (congrArg List.length hhandled) (fun _ => rfl) 1
  cases heffect with
  | asked hcall hqid hq =>
      obtain ⟨-, hq'⟩ := ReqQueue.writeMsg_some hq
      exact Or.inl (hqueue (by rw [hq']; exact fun r hr => hr) (by rw [hq']))
  | asked2 hcall hq hc =>
      obtain ⟨-, hq'⟩ := ReqQueue.writeMsg2_some hq
      exact Or.inl (hqueue (by rw [hq']; exact fun r hr => hr) (by rw [hq']))
  | sent hq =>
      obtain ⟨-, hq'⟩ := ReqQueue.pollSendCq_some hq
      exact Or.inl (hqueue (by rw [hq']; exact fun r hr => hr) (by rw [hq']))
  | answered hcall hr hq hret =>
      obtain ⟨r', replies, -, hreplies, hq'⟩ := ReqQueue.pollRecvCq_some hq
      refine Or.inl (hqueue (fun r hr => ?_) (by rw [hq']))
      rw [hq'] at hr
      rw [hreplies]
      exact List.mem_cons_of_mem _ hr
  | answered2 hcall hq =>
      obtain ⟨r', replies, -, hreplies, hq'⟩ := ReqQueue.pollRecvCq_some hq
      refine Or.inl (hqueue (fun r hr => ?_) (by rw [hq']))
      rw [hq'] at hr
      rw [hreplies]
      exact List.mem_cons_of_mem _ hr
  | delivered hreq =>
      refine Or.inl ⟨fun i r hr => ?_, congrArg List.length (ReqPath.deliver_queue hreq 1).2.2.2⟩
      rwa [(ReqPath.deliver_queue hreq i).2.2.1] at hr
  | @handled qid d req hreq => exact Or.inr ⟨qid, d, req, rfl, hreq, rfl, rfl⟩
  | _ => exact Or.inl ⟨fun i r hr => hr, rfl⟩

/-- A get has its answer from the metadata or from the daemon. -/
theorem answered_step (hsound : w.Sound hash cid) (horderly : w.Orderly)
    (heffect : Effect hash exclusivePolicy cid w a w') {good : Reply Page → Prop} {ok : ℤ → Prop}
    (hok : ∀ (r : Reply Page) (crc : BitVec 32) (page : Page) (ret : ℤ), Answers r →
      GetCall.writeMsg ⟨true, true, ⟨0, r.imm⟩, crc, page⟩ = some ret → ok ret → good r)
    {t : ℕ} (h : (w'.calls t).Answered good ok key w'.req) :
    (w.calls t).Answered good ok key w.req ∨
    (ok (-1) ∧ w.Denies hash key ∧ ∃ env, a = .run t env ∧ (w.calls t).looksUp = some key) ∨
    ∃ qid d call r, a = .process qid d ∧ qid ≠ 1 ∧ call.1 = key ∧ good r ∧
      ReqPath.Handles hash exclusivePolicy cid w.req w'.req qid d call (some r) := by
  rcases quiet_or_handled heffect with ⟨hreplies, -⟩ | ⟨qid, d, req, rfl, hreq, rfl, hcalls⟩
  · replace h := h.of_replies hreplies
    cases heffect with
    | @entered a t' c e hidle henters =>
        refine Or.inl (of_setCall (t := t') (c := c) (fun hc => ?_) h)
        cases henters with
        | _ => exact absurd hc not_false
    | @moved t' env c c' af metadata hcall hlocal =>
        refine Or.inl (of_setCall (t := t') (c := c') (fun hc => ?_) h)
        rw [hcall]
        exact Call.Answered.of_local hlocal hc
    | @denied t' env k c c' hcall hdenies hdenied =>
        by_cases ht : t = t'
        · subst ht
          rw [setCall_self] at h
          cases hdenied with
          | get page =>
              obtain ⟨rfl, hret⟩ := h
              exact Or.inr (Or.inl ⟨hret, hdenies, env, rfl, by rw [hcall]; rfl⟩)
          | inv => exact absurd h not_false
        · rw [setCall_of_ne ht] at h
          exact Or.inl h
    | @returned t' env c e hcall hreturns =>
        exact Or.inl (of_setCall (t := t') (c := .idle) (fun hc => absurd hc not_false) h)
    | @accepted t' env page put hcall hput =>
        exact Or.inl (of_setCall (t := t') (c := .add page) (fun hc => absurd hc not_false) h)
    | @asked t' qid env k page q hcall hqid hq =>
        obtain ⟨hlock, -⟩ := ReqQueue.writeMsg_some hq
        have hnil := hsound.req.replies_nil (by omega) hlock
        refine Or.inl (of_setCall (t := t') (c := .wait k qid page) (fun hc => ?_) h)
        obtain ⟨-, r, hr, -⟩ := hc
        rw [hnil] at hr
        cases hr
    | @asked2 t' env k q c hcall hq hc =>
        refine Or.inl (of_setCall (t := t') (c := c) (fun hm => ?_) h)
        rcases hc with rfl | rfl
        · exact absurd hm not_false
        · exact absurd hm not_false
    | @answered t' qid env k page r q ret hcall hr hq hret =>
        refine Or.inl (of_setCall (t := t') (c := .got k ret (fillPage r page)) (fun hc => ?_) h)
        have hmem := List.mem_of_mem_head? hr
        have hqid := (horderly.waits t' k qid page hcall).1
        rw [hcall]
        exact ⟨hc.1, r, hmem, hok r env.crc _ ret (horderly.answers qid hqid r hmem) hret hc.2⟩
    | @answered2 t' n env k q ret hcall hq =>
        exact Or.inl (of_setCall (t := t') (c := .sent2 k n ret) (fun hc => absurd hc not_false) h)
    | _ => exact Or.inl h
  · obtain ⟨call, reply, hhandles⟩ := hsound.req.handles hreq
    rw [hcalls] at h
    cases hcall : w.calls t with
    | wait k i page =>
        rw [hcall] at h
        obtain ⟨hk, r, hr, hgood⟩ := h
        rcases (hhandles.queue i).2.2.2 r hr with hold | ⟨rfl, rfl⟩
        · exact Or.inl ⟨hk, r, hold, hgood⟩
        · obtain ⟨hne, -, raddr, hlast⟩ := horderly.waits t k i page hcall
          have hkey := hhandles.last hsound.req hne hlast
          exact Or.inr (Or.inr ⟨i, d, call, r, rfl, hne, hkey.trans hk, hgood, hhandles⟩)
    | _ =>
        rw [hcall] at h
        exact Or.inl h

/-- A page that a get has as its answer was stored when the daemon sent it. -/
theorem hit_step (hsound : w.Sound hash cid) (horderly : w.Orderly)
    (heffect : Effect hash exclusivePolicy cid w a w') {t : ℕ}
    (h : (w'.calls t).Hit key w'.req) :
    (w.calls t).Hit key w.req ∨ w.req.server.kv.table.view (hash 0) key ≠ none := by
  have hok : ∀ (r : Reply Page) (crc : BitVec 32) (page : Page) (ret : ℤ), Answers r →
      GetCall.writeMsg ⟨true, true, ⟨0, r.imm⟩, crc, page⟩ = some ret → ret = 0 →
      ∃ data, r.payload = .page data := by
    intro r crc page ret hr hret hzero
    rcases hr page crc with ⟨-, hdata⟩ | ⟨hone, -⟩
    · exact hdata
    · rw [hzero] at hret
      cases hret.symm.trans hone
  rcases answered_step hsound horderly heffect hok h with
    hold | ⟨hzero, -⟩ | ⟨qid, d, call, r, rfl, hne, hkey, ⟨data, hdata⟩, hhandles⟩
  · exact Or.inl hold
  · cases hzero
  · have hown := hsound.requested qid call (List.mem_of_getElem? hhandles.next)
    obtain ⟨r', hr', -, ⟨-, hempty⟩ | ⟨p, hview, -⟩⟩ := hhandles.get hne hsound.server hown.1
    · cases hr'
      cases hempty.symm.trans hdata
    · rw [hkey] at hview
      rw [hview]
      exact Or.inr (Option.some_ne_none p)

end World

end CleancacheRdma.Driver
