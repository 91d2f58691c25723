import Mathlib
import CleancacheRdma.Driver.Handled
import CleancacheRdma.Driver.InTransit
import CleancacheRdma.Driver.WorldSteps

/-!
# What always holds of driver and daemon

The parts keep their own invariants when they run together. Between them: a
thread that waits on a queue is the only one and made its last call, and the
messages of queue 1 are known by their numbers.
-/

namespace CleancacheRdma.Driver

open Daemon (Slot Key Value HashFuncs Server ServerStep Reply Draw Usable longkeyToCid numQps
  numDataQps)
open Lib (System)

/-- A key of the client. -/
def OwnKey (cid : ℕ) (key : Key) : Prop := Usable key ∧ longkeyToCid key = cid

instance (cid : ℕ) (key : Key) : Decidable (OwnKey cid key) := inferInstanceAs (Decidable (_ ∧ _))

namespace Call

variable {Page : Type}

/-- The key of a call that may still use it. -/
def key : Call Page → Option Key
  | .upsert _ _ page | .put page | .send page | .add page => some page.key
  | .get key _ | .msg key _ | .wait key _ _ | .got key _ _ => some key
  | .inv key | .msg2 key | .wait2 key _ | .sent2 key _ _ => some key
  | .idle | .putDone _ _ | .getDone _ _ _ | .invDone _ _ _ => none

/-- The message of an invalidation on queue 1. -/
def message : Call Page → Option (ℕ × Key)
  | .wait2 key n | .sent2 key n _ | .invDone key (some n) _ => some (n, key)
  | _ => none

end Call

section Local

variable {Page : Type} {c c' : Call Page}

theorem Local.key (h : Local c c') {key : Key} (hkey : c'.key = some key) : c.key = some key := by
  cases h with
  | admitted ino index page => exact hkey
  | wanted page => exact hkey
  | asked key page => exact hkey
  | asked2 key => exact hkey
  | _ => cases hkey

theorem Local.message (h : Local c c') {m : ℕ × Key} (hm : c'.message = some m) :
    c.message = some m := by
  cases h with
  | removed2 key n ret => exact hm
  | _ => cases hm

theorem Local.not_wait (h : Local c c') (key : Key) (qid : ℕ) (page : Page) :
    c' ≠ .wait key qid page := by
  rintro rfl
  cases h

end Local

namespace World

variable {Page : Type} {hash : HashFuncs} {exclusivePolicy : Bool} {cid : ℕ} {w w' : World Page}
  {a : WorldStep Page}

/-- The `int` counters of queue 0 and queue 1 are below the sign bit. -/
structure Unwrapped (w : World Page) : Prop where
  puts : w.put.queue.msgId < 2 ^ 31
  calls : (w.req.queues 1).calls.length < 2 ^ 31

instance (w : World Page) : Decidable w.Unwrapped :=
  decidable_of_iff (w.put.queue.msgId < 2 ^ 31 ∧ (w.req.queues 1).calls.length < 2 ^ 31)
    ⟨fun h => ⟨h.1, h.2⟩, fun h => ⟨h.puts, h.calls⟩⟩

/-- Keys are the client's, what else happens to the daemon is well formed, and
no counter has wrapped. -/
def WellFormed (cid : ℕ) (w : World Page) : WorldStep Page → Prop
  | .putPage _ ino index _ => OwnKey cid (pageKey cid ino index)
  | .getPage _ ino index _ => OwnKey cid (pageKey cid ino index)
  | .invalidatePage _ ino index => OwnKey cid (pageKey cid ino index)
  | .run _ _ => w.Unwrapped
  | .server a => w.req.server.WellFormed a
  | _ => True

instance : (a : WorldStep Page) → Decidable (w.WellFormed cid a)
  | .putPage _ _ _ _ | .getPage _ _ _ _ | .invalidatePage _ _ _ =>
      inferInstanceAs (Decidable (OwnKey _ _))
  | .run _ _ => inferInstanceAs (Decidable w.Unwrapped)
  | .server a => inferInstanceAs (Decidable (w.req.server.WellFormed a))
  | .worker _ | .processPut _ | .deliver _ | .process _ _ | .updateFilter _ => isTrue trivial

/-! ## The parts -/

structure Sound (hash : HashFuncs) (cid : ℕ) (w : World Page) : Prop where
  put : w.put.Inv
  req : w.req.Inv cid
  server : w.req.server.Inv hash
  single : w.req.server.SinglePlace
  client : cid < w.req.server.kv.pool.numClients
  callKeys : ∀ t, ∀ key ∈ (w.calls t).key, OwnKey cid key
  buffered : ∀ m ∈ w.put.queue.inTransit, OwnKey cid m.key
  requested : ∀ qid, ∀ call ∈ (w.req.queues qid).calls, OwnKey cid call.1

theorem Sound.setCall (h : w.Sound hash cid) {t : ℕ} {c : Call Page}
    (hc : ∀ key ∈ c.key, OwnKey cid key) : (w.setCall t c).Sound hash cid :=
  have hkeys := forall_setCall (P := fun _ c' => ∀ key ∈ c'.key, OwnKey cid key) hc h.callKeys
  ⟨h.put, h.req, h.server, h.single, h.client, hkeys, h.buffered, h.requested⟩

/-- Nothing depends on the filters and the log. -/
theorem Sound.set (h : w.Sound hash cid) (af : Option AccessFilter) (metadata : Metadata)
    (log : List (Event Page)) : ({ w with af, metadata, log } : World Page).Sound hash cid :=
  ⟨h.put, h.req, h.server, h.single, h.client, h.callKeys, h.buffered, h.requested⟩

theorem Sound.setPut (h : w.Sound hash cid) {put : PutRun Page} (hput : put.Inv)
    (hbuffered : ∀ m ∈ put.queue.inTransit, m ∈ w.put.queue.inTransit ∨ OwnKey cid m.key) :
    ({ w with put } : World Page).Sound hash cid := by
  refine ⟨hput, h.req, h.server, h.single, h.client, h.callKeys, fun m hm => ?_, h.requested⟩
  rcases hbuffered m hm with hin | hown
  · exact h.buffered m hin
  · exact hown

theorem Sound.setReq (h : w.Sound hash cid) {req : ReqPath Page} (hreq : req.Inv cid)
    (hfollows : Server.Follows hash w.req.server req.server fun _ => 0)
    (hcalls : ∀ qid, ∀ call ∈ (req.queues qid).calls,
      call ∈ (w.req.queues qid).calls ∨ OwnKey cid call.1) :
    ({ w with req } : World Page).Sound hash cid := by
  refine ⟨h.put, hreq, hfollows.inv, h.single.of_follows hfollows, ?_, h.callKeys, h.buffered,
    fun qid call hcall => ?_⟩
  · show cid < req.server.kv.pool.numClients
    rw [hfollows.numClients]
    exact h.client
  · rcases hcalls qid call hcall with hin | hown
    · exact h.requested qid call hin
    · exact hown

variable (exclusivePolicy) in
/-- A queue of the client moves on; a call may be new. -/
theorem Sound.setQueue (h : w.Sound hash cid) (a : ReqStep Page) {qid : ℕ} {q : ReqQueue Page}
    (hcalls : (w.req.queues 1).calls.length < 2 ^ 31)
    (hstep : w.req.step hash exclusivePolicy cid a = some (w.req.setQueue qid q))
    (hq : ∀ call ∈ q.calls, call ∈ (w.req.queues qid).calls ∨ OwnKey cid call.1) :
    ({ w with req := w.req.setQueue qid q } : World Page).Sound hash cid := by
  refine h.setReq (h.req.step hcalls hstep) (.refl h.server) ?_
  exact ReqPath.forall_setQueue
    (P := fun i q' => ∀ call ∈ q'.calls, call ∈ (w.req.queues i).calls ∨ OwnKey cid call.1)
    hq fun _ _ hcall => Or.inl hcall

/-- The daemon alone moves on. -/
theorem Sound.setServer (h : w.Sound hash cid) {a : ServerStep Page} {t : Server Page}
    {r : Option (Reply Page)} (hwf : w.req.server.WellFormed a)
    (hown : ∀ qid off words imm d, a ≠ .writeImm cid qid off words imm d)
    (hserver : w.req.server.step hash exclusivePolicy a = some (t, r)) :
    ({ w with req := { w.req with server := t } } : World Page).Sound hash cid :=
  h.setReq (h.req.setServer (Server.step_metaRegion hown hserver)) (h.server.step hwf hserver)
    fun _ _ hcall => Or.inl hcall

theorem Sound.step (h : w.Sound hash cid) {a : WorldStep Page} (hwf : w.WellFormed cid a)
    (heffect : Effect hash exclusivePolicy cid w a w') : w'.Sound hash cid := by
  cases heffect with
  | entered hidle henters =>
      refine (h.setCall fun key hkey => ?_).set _ _ _
      cases henters with
      | put ino index data =>
          cases hkey
          exact hwf
      | get ino index page =>
          cases hkey
          exact hwf
      | inv ino index =>
          cases hkey
          exact hwf
  | @moved t env c c' af metadata hcall hlocal =>
      refine (h.set af metadata w.log).setCall fun key hkey => h.callKeys t key ?_
      rw [hcall]
      exact hlocal.key hkey
  | denied hcall hdenies hdenied =>
      refine h.setCall fun key hkey => ?_
      cases hdenied with
      | get page => cases hkey
      | inv => cases hkey
  | returned hcall hreturns =>
      refine (h.setCall fun key hkey => ?_).set _ _ _
      cases hkey
  | @accepted t env page put hcall hput =>
      have hkey : OwnKey cid page.key := h.callKeys t _ (by rw [hcall]; rfl)
      refine (h.setPut (h.put.step hput) fun m hm => ?_).setCall fun key hk => ?_
      · refine (h.put.inTransit_step hput hm).imp_right fun heq => ?_
        cases heq
        exact hkey
      · cases hk
        exact hkey
  | @asked t qid env key page q hcall hqid hq =>
      have hkey : OwnKey cid key := h.callKeys t _ (by rw [hcall]; rfl)
      refine (h.setQueue exclusivePolicy (.writeMsg env.cpu key env.raddr) hwf.calls ?_
        fun call hc => ?_).setCall fun k hk => ?_
      · rw [hqid] at hq ⊢
        exact congrArg (Option.map _) hq
      · obtain ⟨-, rfl⟩ := ReqQueue.writeMsg_some hq
        refine (List.mem_append.mp hc).imp_right fun hlast => ?_
        rw [List.mem_singleton.mp hlast]
        exact hkey
      · cases hk
        exact hkey
  | @asked2 t env key q c hcall hq hc =>
      have hkey : OwnKey cid key := h.callKeys t _ (by rw [hcall]; rfl)
      refine (h.setQueue exclusivePolicy (.writeMsg2 key) hwf.calls (congrArg (Option.map _) hq)
        fun call hin => ?_).setCall fun k hk => ?_
      · obtain ⟨-, rfl⟩ := ReqQueue.writeMsg2_some hq
        refine (List.mem_append.mp hin).imp_right fun hlast => ?_
        rw [List.mem_singleton.mp hlast]
        exact hkey
      · rcases hc with rfl | rfl
        · cases hk
          exact hkey
        · cases hk
          exact hkey
  | @sent t qid env q hq =>
      obtain ⟨-, rfl⟩ := ReqQueue.pollSendCq_some hq
      exact h.setQueue exclusivePolicy (.pollSendCq qid) hwf.calls (congrArg (Option.map _) hq)
        fun call hc => Or.inl hc
  | @answered t qid env key page r q ret hcall hr hq hret =>
      have hkey : OwnKey cid key := h.callKeys t _ (by rw [hcall]; rfl)
      obtain ⟨_, _, -, -, rfl⟩ := ReqQueue.pollRecvCq_some hq
      refine (h.setQueue exclusivePolicy (.pollRecvCq qid) hwf.calls (congrArg (Option.map _) hq)
        fun call hc => Or.inl hc).setCall fun k hk => ?_
      cases hk
      exact hkey
  | @answered2 t n env key q ret hcall hq =>
      have hkey : OwnKey cid key := h.callKeys t _ (by rw [hcall]; rfl)
      obtain ⟨_, _, -, -, rfl⟩ := ReqQueue.pollRecvCq_some hq
      refine (h.setQueue exclusivePolicy (.pollRecvCq 1) hwf.calls (congrArg (Option.map _) hq)
        fun call hc => Or.inl hc).setCall fun k hk => ?_
      cases hk
      exact hkey
  | worked ha hput =>
      refine h.setPut (h.put.step hput) fun m hm => ?_
      exact (h.put.inTransit_step hput hm).imp_right fun heq => absurd heq (ha m)
  | @tookPut d m wire t r replies hwire hserver =>
      have hm : m.1 ∈ w.put.queue.inTransit :=
        PutQueue.mem_inTransit_wire (by rw [hwire]; exact List.mem_cons_self)
      have hkey := h.buffered _ hm
      have hwf' : w.req.server.WellFormed (.send cid 0 (.slot m.1) m.2 d) :=
        ⟨h.client, by decide, by decide, hkey⟩
      refine (h.setServer hwf' (by rintro _ _ _ _ _ ⟨⟩) hserver).setPut
        (h.put.daemon wire replies) fun m' hm' => Or.inl ?_
      exact PutQueue.mem_inTransit_of_tail hwire hm'
  | @delivered qid req hreq =>
      obtain ⟨addr, off, words, hhead, hsends, hserver⟩ := ReqPath.deliver_server hreq
      have hlt := h.req.qid_lt hsends
      refine h.setReq (h.req.deliver hreq) ?_ fun i call hc => Or.inl ?_
      · rw [hserver]
        exact h.server.popRecv h.client (Nat.lt_succ_of_lt hlt) hhead off words
      · rw [(ReqPath.deliver_queue hreq i).1] at hc
        exact hc
  | @handled qid d req hreq =>
      obtain ⟨call, reply, hhandles⟩ := h.req.handles hreq
      have hkey := h.requested qid call (List.mem_of_getElem? hhandles.next)
      refine (h.setReq (h.req.process hreq) (hhandles.follows h.server h.client hkey)
        fun i call' hc => Or.inl ?_).set _ _ _
      rwa [(hhandles.queue i).1] at hc
  | served hfree hserver =>
      refine h.setServer hwf ?_ hserver
      rintro qid off words imm d rfl
      exact hfree rfl
  | refreshed metadata => exact h.set w.af metadata w.log

/-! ## Threads and queues -/

structure Orderly (w : World Page) : Prop where
  /-- A thread that waits holds the lock, and the last call of its queue is its own. -/
  waits : ∀ t key qid page, w.calls t = .wait key qid page → qid ≠ 1 ∧
    (w.req.queues qid).lock ≠ .free ∧
      ∃ raddr, (w.req.queues qid).calls.getLast? = some (key, raddr)
  alone : ∀ t t' key key' qid page page', w.calls t = .wait key qid page →
    w.calls t' = .wait key' qid page' → t = t'
  answers : ∀ qid ≠ 1, ∀ r ∈ (w.req.queues qid).replies, Answers r
  numbered : ∀ t n key, (w.calls t).message = some (n, key) →
    ∃ raddr, (w.req.queues 1).calls[n]? = some (key, raddr)
  logged : ∀ t n key ret, .invReturn t key (some n) ret ∈ w.log →
    ∃ raddr, (w.req.queues 1).calls[n]? = some (key, raddr)
  read : ∀ n, .invHandled n ∈ w.log → n < (w.req.queues 1).handled.length

/-- A thread moves on that does not begin to wait. -/
theorem Orderly.setCall (h : w.Orderly) {t : ℕ} {c : Call Page}
    (hwait : ∀ key qid page, c ≠ .wait key qid page)
    (hmessage : ∀ n key, c.message = some (n, key) →
      ∃ raddr, (w.req.queues 1).calls[n]? = some (key, raddr)) : (w.setCall t c).Orderly := by
  have hold : ∀ t' key qid page, (w.setCall t c).calls t' = .wait key qid page →
      w.calls t' = .wait key qid page := by
    intro t' key qid page
    exact of_setCall (P := fun c' => c' = .wait key qid page) fun hc => absurd hc (hwait key qid page)
  refine ⟨fun t' key qid page hc => h.waits t' key qid page (hold _ _ _ _ hc), ?_, h.answers, ?_,
    h.logged, h.read⟩
  · intro t₁ t₂ key key' qid page page' h₁ h₂
    exact h.alone t₁ t₂ key key' qid page page' (hold _ _ _ _ h₁) (hold _ _ _ _ h₂)
  · exact forall_setCall (P := fun _ c' => ∀ n key, c'.message = some (n, key) →
      ∃ raddr, (w.req.queues 1).calls[n]? = some (key, raddr)) hmessage h.numbered

/-- Nothing depends on the filters and the put queue. -/
theorem Orderly.set (h : w.Orderly) (af : Option AccessFilter) (metadata : Metadata)
    (put : PutRun Page) : ({ w with af, metadata, put } : World Page).Orderly :=
  ⟨h.waits, h.alone, h.answers, h.numbered, h.logged, h.read⟩

theorem Orderly.record (h : w.Orderly) {e : Event Page}
    (hlogged : ∀ t n key ret, e = .invReturn t key (some n) ret →
      ∃ raddr, (w.req.queues 1).calls[n]? = some (key, raddr))
    (hread : ∀ n, e = .invHandled n → n < (w.req.queues 1).handled.length) :
    (w.record e).Orderly := by
  refine ⟨h.waits, h.alone, h.answers, h.numbered, fun t n key ret hmem => ?_, fun n hmem => ?_⟩
  · rcases List.mem_append.mp hmem with hin | hlast
    · exact h.logged t n key ret hin
    · exact hlogged t n key ret (List.mem_singleton.mp hlast).symm
  · rcases List.mem_append.mp hmem with hin | hlast
    · exact h.read n hin
    · exact hread n (List.mem_singleton.mp hlast).symm

/-- The queues move on, those with a waiting thread without a call and under
the same lock. -/
theorem Orderly.setReq (h : w.Orderly) {req : ReqPath Page}
    (hheld : ∀ t key qid page, w.calls t = .wait key qid page →
      (req.queues qid).lock ≠ .free ∧ (req.queues qid).calls = (w.req.queues qid).calls)
    (hanswers : ∀ qid ≠ 1, ∀ r ∈ (req.queues qid).replies,
      r ∈ (w.req.queues qid).replies ∨ Answers r)
    (hcalls : (w.req.queues 1).calls <+: (req.queues 1).calls)
    (hhandled : (w.req.queues 1).handled.length ≤ (req.queues 1).handled.length) :
    ({ w with req } : World Page).Orderly := by
  have hkeep : ∀ {n : ℕ} {call : Key × BitVec 64}, (w.req.queues 1).calls[n]? = some call →
      (req.queues 1).calls[n]? = some call := by
    intro n call hn
    obtain ⟨rest, hrest⟩ := hcalls
    rw [← hrest, List.getElem?_append_left (List.getElem?_eq_some_iff.mp hn).1]
    exact hn
  refine ⟨fun t key qid page hc => ?_, h.alone, fun qid hqid r hr => ?_, fun t n key hm => ?_,
    fun t n key ret hmem => ?_, fun n hmem => (h.read n hmem).trans_le hhandled⟩
  · obtain ⟨hqid, -, hlast⟩ := h.waits t key qid page hc
    obtain ⟨hlock, hsame⟩ := hheld t key qid page hc
    refine ⟨hqid, hlock, ?_⟩
    rw [hsame]
    exact hlast
  · rcases hanswers qid hqid r hr with hin | hr
    · exact h.answers qid hqid r hin
    · exact hr
  · obtain ⟨raddr, hn⟩ := h.numbered t n key hm
    exact ⟨raddr, hkeep hn⟩
  · obtain ⟨raddr, hn⟩ := h.logged t n key ret hmem
    exact ⟨raddr, hkeep hn⟩

/-- One queue moves on. -/
theorem Orderly.setQueue (h : w.Orderly) {qid : ℕ} {q : ReqQueue Page}
    (hheld : ∀ t key page, w.calls t = .wait key qid page →
      q.lock ≠ .free ∧ q.calls = (w.req.queues qid).calls)
    (hanswers : ∀ r ∈ q.replies, r ∈ (w.req.queues qid).replies)
    (hcalls : (w.req.queues qid).calls <+: q.calls)
    (hhandled : (w.req.queues qid).handled = q.handled) :
    ({ w with req := w.req.setQueue qid q } : World Page).Orderly := by
  refine h.setReq (fun t key i page => ?_) (fun i _ r hr => Or.inl ?_) ?_ ?_
  · exact ReqPath.forall_setQueue
      (P := fun i q' => w.calls t = .wait key i page →
        q'.lock ≠ .free ∧ q'.calls = (w.req.queues i).calls)
      (hheld t key page) (fun i hc => ⟨(h.waits t key i page hc).2.1, rfl⟩) i
  · exact ReqPath.forall_setQueue
      (P := fun i q' => ∀ r ∈ q'.replies, r ∈ (w.req.queues i).replies) hanswers
      (fun _ _ hr => hr) i r hr
  · exact ReqPath.forall_setQueue (P := fun i q' => (w.req.queues i).calls <+: q'.calls) hcalls
      (fun _ => List.prefix_refl _) 1
  · exact ReqPath.forall_setQueue
      (P := fun i q' => (w.req.queues i).handled.length ≤ q'.handled.length)
      (congrArg List.length hhandled).le (fun _ => Nat.le_refl _) 1

/-- Queue 1 moves on; nobody waits on it. -/
theorem Orderly.setQueue1 (h : w.Orderly) {q : ReqQueue Page}
    (hanswers : ∀ r ∈ q.replies, r ∈ (w.req.queues 1).replies)
    (hcalls : (w.req.queues 1).calls <+: q.calls)
    (hhandled : (w.req.queues 1).handled = q.handled) :
    ({ w with req := w.req.setQueue 1 q } : World Page).Orderly :=
  h.setQueue (fun t key page hc => absurd rfl (h.waits t key 1 page hc).1) hanswers hcalls hhandled

/-- A thread begins to wait on a queue whose lock was free. -/
theorem Orderly.setWait (h : w.Orderly) {t qid : ℕ} {key : Key} {page : Page} (hqid : qid ≠ 1)
    (hfree : ∀ t' key' page', w.calls t' ≠ .wait key' qid page')
    (hlock : (w.req.queues qid).lock ≠ .free)
    (hlast : ∃ raddr, (w.req.queues qid).calls.getLast? = some (key, raddr)) :
    (w.setCall t (.wait key qid page)).Orderly := by
  refine ⟨?_, fun t₁ t₂ key₁ key₂ i page₁ page₂ h₁ h₂ => ?_, h.answers, ?_, h.logged, h.read⟩
  · refine forall_setCall (P := fun _ c => ∀ key' i page', c = .wait key' i page' → i ≠ 1 ∧
      (w.req.queues i).lock ≠ .free ∧
        ∃ raddr, (w.req.queues i).calls.getLast? = some (key', raddr)) ?_ h.waits
    intro key' i page' hc
    cases hc
    exact ⟨hqid, hlock, hlast⟩
  · by_cases ht₁ : t₁ = t
    · by_cases ht₂ : t₂ = t
      · rw [ht₁, ht₂]
      · rw [ht₁, setCall_self] at h₁
        rw [setCall_of_ne ht₂] at h₂
        cases h₁
        exact absurd h₂ (hfree t₂ key₂ page₂)
    · rw [setCall_of_ne ht₁] at h₁
      by_cases ht₂ : t₂ = t
      · rw [ht₂, setCall_self] at h₂
        cases h₂
        exact absurd h₁ (hfree t₁ key₁ page₁)
      · rw [setCall_of_ne ht₂] at h₂
        exact h.alone t₁ t₂ key₁ key₂ i page₁ page₂ h₁ h₂
  · refine forall_setCall (P := fun _ c => ∀ n key', c.message = some (n, key') →
      ∃ raddr, (w.req.queues 1).calls[n]? = some (key', raddr)) ?_ h.numbered
    intro n key' hm
    cases hm

/-- A free lock has nobody waiting. -/
theorem Orderly.not_waiting (h : w.Orderly) {qid : ℕ} (hlock : (w.req.queues qid).lock = .free)
    (t : ℕ) (key : Key) (page : Page) : w.calls t ≠ .wait key qid page :=
  fun hc => (h.waits t key qid page hc).2.1 hlock

theorem Orderly.step (h : w.Orderly) (hsound : w.Sound hash cid)
    (heffect : Effect hash exclusivePolicy cid w a w') : w'.Orderly := by
  cases heffect with
  | @entered a t c e hidle henters =>
      refine (h.setCall (t := t) (c := c) ?_ ?_).record ?_ ?_
      · rintro key qid page rfl
        cases henters
      · intro n key hm
        cases henters with
        | _ => cases hm
      · rintro t' n key ret rfl
        cases henters
      · rintro n rfl
        cases henters
  | @moved t env c c' af metadata hcall hlocal =>
      refine (h.set af metadata w.put).setCall hlocal.not_wait fun n key hm => h.numbered t n key ?_
      rw [hcall]
      exact hlocal.message hm
  | denied hcall hdenies hdenied =>
      refine h.setCall ?_ fun n key hm => ?_
      · rintro key qid page rfl
        cases hdenied
      · cases hdenied with
        | _ => cases hm
  | @returned t env c e hcall hreturns =>
      refine (h.setCall (by rintro key qid page ⟨⟩) fun n key hm => by cases hm).record ?_ ?_
      · rintro t' n key ret rfl
        cases hreturns
        exact h.numbered t n key (by rw [hcall]; rfl)
      · rintro n rfl
        cases hreturns
  | accepted hcall hput =>
      exact (h.set w.af w.metadata _).setCall (by rintro key qid page ⟨⟩) fun n key hm => by cases hm
  | @asked t qid env key page q hcall hqid hq =>
      obtain ⟨hlock, hq'⟩ := ReqQueue.writeMsg_some hq
      have hfree := h.not_waiting hlock
      have hmoved : ({ w with req := w.req.setQueue qid q } : World Page).Orderly := by
        subst hq'
        exact h.setQueue (fun t' key' page' hc => absurd hc (hfree t' key' page')) (fun r hr => hr)
          (List.prefix_append _ _) rfl
      refine hmoved.setWait (by omega) hfree ?_ ⟨env.raddr, ?_⟩
      · rw [ReqPath.setQueue_self, hq']
        exact fun heq => by cases heq
      · rw [ReqPath.setQueue_self, hq']
        exact List.getLast?_concat
  | @asked2 t env key q c hcall hq hc =>
      obtain ⟨-, hq'⟩ := ReqQueue.writeMsg2_some hq
      have hmoved : ({ w with req := w.req.setQueue 1 q } : World Page).Orderly := by
        subst hq'
        exact h.setQueue1 (fun r hr => hr) (List.prefix_append _ _) rfl
      refine hmoved.setCall ?_ fun n key' hm => ⟨0, ?_⟩
      · rcases hc with rfl | rfl
        · rintro key' qid page ⟨⟩
        · rintro key' qid page ⟨⟩
      · rw [ReqPath.setQueue_self, hq']
        rcases hc with rfl | rfl
        · cases hm
          exact List.getElem?_concat_length
        · cases hm
          exact List.getElem?_concat_length
  | @sent t qid env q hq =>
      obtain ⟨-, rfl⟩ := ReqQueue.pollSendCq_some hq
      refine h.setQueue (fun _ _ _ _ => ⟨?_, rfl⟩) (fun r hr => hr) (List.prefix_refl _) rfl
      intro heq
      cases heq
  | @answered t qid env key page r q ret hcall hr hq hret =>
      obtain ⟨r', replies, -, hreplies, rfl⟩ := ReqQueue.pollRecvCq_some hq
      have hmoved := h.setCall (t := t) (c := .got key ret (fillPage r page))
        (by rintro key' qid' page' ⟨⟩) fun n key' hm => by cases hm
      refine hmoved.setQueue (fun t' key' page' hc => ?_) (fun r'' hr'' => ?_)
        (List.prefix_refl _) rfl
      · -- the thread was alone
        by_cases ht : t' = t
        · rw [ht, setCall_self] at hc
          cases hc
        · rw [setCall_of_ne ht] at hc
          exact absurd (h.alone t' t key' key qid page' page hc hcall) ht
      · show r'' ∈ (w.req.queues qid).replies
        rw [hreplies]
        exact List.mem_cons_of_mem _ hr''
  | @answered2 t n env key q ret hcall hq =>
      obtain ⟨r', replies, -, hreplies, hq'⟩ := ReqQueue.pollRecvCq_some hq
      have hmoved : ({ w with req := w.req.setQueue 1 q } : World Page).Orderly := by
        subst hq'
        refine h.setQueue1 (fun r hr => ?_) (List.prefix_refl _) rfl
        rw [hreplies]
        exact List.mem_cons_of_mem _ hr
      refine hmoved.setCall (by rintro key' qid page ⟨⟩) fun n' key' hm => ?_
      rw [ReqPath.setQueue_self, hq']
      exact h.numbered t n' key' (by rw [hcall]; exact hm)
  | worked ha hput => exact h.set w.af w.metadata _
  | @tookPut d m wire t r replies hwire hserver =>
      have hmoved : ({ w with req := { w.req with server := t } } : World Page).Orderly :=
        h.setReq (fun t key qid page hc => ⟨(h.waits t key qid page hc).2.1, rfl⟩)
          (fun _ _ r hr => Or.inl hr) (List.prefix_refl _) (Nat.le_refl _)
      exact hmoved.set w.af w.metadata _
  | @delivered qid req hreq =>
      refine h.setReq (fun t key i page hc => ?_) (fun i _ r hr => Or.inl ?_) ?_ ?_
      · obtain ⟨hcalls, hlock, -, -⟩ := ReqPath.deliver_queue hreq i
        rw [hlock]
        exact ⟨(h.waits t key i page hc).2.1, hcalls⟩
      · rwa [(ReqPath.deliver_queue hreq i).2.2.1] at hr
      · rw [(ReqPath.deliver_queue hreq 1).1]
      · rw [(ReqPath.deliver_queue hreq 1).2.2.2]
  | @handled qid d req hreq =>
      obtain ⟨call, reply, hhandles⟩ := hsound.req.handles hreq
      have hkey := hsound.requested qid call (List.mem_of_getElem? hhandles.next)
      have hmoved : ({ w with req } : World Page).Orderly := by
        refine h.setReq (fun t key i page hc => ?_) (fun i hi r hr => ?_) ?_ ?_
        · obtain ⟨hcalls, hlock, -, -⟩ := hhandles.queue i
          rw [hlock]
          exact ⟨(h.waits t key i page hc).2.1, hcalls⟩
        · refine ((hhandles.queue i).2.2.2 r hr).imp_right fun ⟨heq, hreply⟩ => ?_
          subst heq
          obtain ⟨r', hr', hanswers, -⟩ := hhandles.get hi hsound.server hkey.1
          rw [hreply] at hr'
          cases hr'
          exact hanswers
        · rw [(hhandles.queue 1).1]
        · exact (hhandles.queue 1).2.2.1
      split
      next hqid =>
        subst hqid
        refine hmoved.record (by rintro t n key ret ⟨⟩) fun n hn => ?_
        cases hn
        show _ < (req.queues 1).handled.length
        rw [hhandles.handled]
        exact Nat.lt_succ_self _
      next =>
        rw [List.append_nil]
        exact hmoved
  | served hfree hserver =>
      exact h.setReq (fun t key qid page hc => ⟨(h.waits t key qid page hc).2.1, rfl⟩)
        (fun _ _ r hr => Or.inl hr) (List.prefix_refl _) (Nat.le_refl _)
  | refreshed metadata => exact h.set w.af metadata w.put

/-! ## Runs -/

section Runs

variable {startAddr : Value} {memPoolSize numClients numHash numBits : ℕ} {mem : Value → Slot Page}

theorem Sound.initial (hcid : cid < numClients)
    (hinit : (worldSystem hash exclusivePolicy cid
      (.new startAddr memPoolSize numClients numHash numBits mem)).init w) : w.Sound hash cid := by
  obtain ⟨hput, hqueues, hserver, hcalls, -⟩ := hinit
  refine ⟨hput.inv, ReqPath.init_inv hqueues, ?_, ?_, ?_, fun t key hkey => ?_,
    fun m hm => ?_, fun qid call hcall => ?_⟩
  · rw [hserver]
    exact Server.new_inv _ _ _ _ _ _
  · rw [hserver]
    exact Server.new_singlePlace _ _ _ _ _ _
  · rw [hserver]
    exact hcid
  · rw [hcalls] at hkey
    cases hkey
  · obtain ⟨pool, heq⟩ := hput
    rw [heq] at hm
    cases hm
  · rw [hqueues] at hcall
    cases hcall

theorem Orderly.initial {s₀ : Server Page}
    (hinit : (worldSystem hash exclusivePolicy cid s₀).init w) : w.Orderly := by
  obtain ⟨-, hqueues, -, hcalls, hlog⟩ := hinit
  have hidle : ∀ t, w.calls t = .idle := fun t => by rw [hcalls]
  constructor
  · intro t key qid page hcall
    cases (hidle t).symm.trans hcall
  · intro t t' key key' qid page page' hcall _
    cases (hidle t).symm.trans hcall
  · intro qid _ r hr
    rw [hqueues] at hr
    cases hr
  · intro t n key hmessage
    rw [hidle t] at hmessage
    cases hmessage
  · intro t n key ret hmem
    rw [hlog] at hmem
    cases hmem
  · intro n hmem
    rw [hlog] at hmem
    cases hmem

/-- What every step keeps that meets a condition holds after every such run. -/
theorem exec_keeps (hcid : cid < numClients) {P : World Page → WorldStep Page → Prop}
    {I : World Page → Prop}
    (hstep : ∀ {w w' : World Page} {a : WorldStep Page}, w.Sound hash cid → w.Orderly →
      w.WellFormed cid a → P w a → Effect hash exclusivePolicy cid w a w' → I w → I w')
    {w₀ : World Page} {as : List (WorldStep Page)}
    (hinit : (worldSystem hash exclusivePolicy cid
      (.new startAddr memPoolSize numClients numHash numBits mem)).init w₀) (hI : I w₀)
    (hok : (worldSystem hash exclusivePolicy cid
      (.new startAddr memPoolSize numClients numHash numBits mem)).Meets
        (fun w a => w.WellFormed cid a ∧ P w a) w₀ as)
    (hrun : (worldSystem hash exclusivePolicy cid
      (.new startAddr memPoolSize numClients numHash numBits mem)).exec w₀ as = some w) : I w := by
  have hall : w.Sound hash cid ∧ w.Orderly ∧ I w := by
    refine System.exec_invariant (P := fun w a => w.WellFormed cid a ∧ P w a)
      (I := fun w => w.Sound hash cid ∧ w.Orderly ∧ I w) ?_
      ⟨Sound.initial hcid hinit, Orderly.initial hinit, hI⟩ hok hrun
    rintro w a w' ⟨hsound, horderly, hw⟩ ⟨hwf, ha⟩ hs
    have heffect := step_effect hs
    exact ⟨hsound.step hwf heffect, horderly.step hsound heffect,
      hstep hsound horderly hwf ha heffect hw⟩
  exact hall.2.2

end Runs

end World

end CleancacheRdma.Driver
