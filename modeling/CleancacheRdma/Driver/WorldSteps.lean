import Mathlib
import CleancacheRdma.Driver.Matching
import CleancacheRdma.Driver.World

/-!
# What a step of driver and daemon does

Every step is one of a few kinds. Most sections of a call are local: they move
their thread on and touch at most the metadata and the access filter.
-/

namespace CleancacheRdma.Driver

open Daemon (Slot Key HashFuncs Server ServerStep Reply Draw Usable longkeyToCid numGetQps)
open Lib (System)

/-- The thread that takes a step. -/
def WorldStep.thread {Page : Type} : WorldStep Page → Option ℕ
  | .putPage t _ _ _ | .getPage t _ _ _ | .invalidatePage t _ _ | .run t _ => some t
  | _ => none

/-- A thread enters a handler. -/
inductive Enters {Page : Type} (cid t : ℕ) : WorldStep Page → Call Page → Event Page → Prop where
  | put (ino index : BitVec 64) (data : Page) :
      Enters cid t (.putPage t ino index data) (.upsert ino index ⟨data, pageKey cid ino index⟩)
        (.putCall t ⟨data, pageKey cid ino index⟩)
  | get (ino index : BitVec 64) (page : Page) :
      Enters cid t (.getPage t ino index page) (.get (pageKey cid ino index) page)
        (.getCall t (pageKey cid ino index))
  | inv (ino index : BitVec 64) :
      Enters cid t (.invalidatePage t ino index) (.inv (pageKey cid ino index))
        (.invCall t (pageKey cid ino index))

/-- A local section. -/
inductive Local {Page : Type} : Call Page → Call Page → Prop where
  | admitted (ino index : BitVec 64) (page : Slot Page) : Local (.upsert ino index page) (.put page)
  | refused (ino index : BitVec 64) (page : Slot Page) :
      Local (.upsert ino index page) (.putDone page (-5))
  | clean (page : Slot Page) : Local (.put page) (.putDone page (-3))
  | wanted (page : Slot Page) : Local (.put page) (.send page)
  | blocked (page : Slot Page) : Local (.send page) (.putDone page (-6))
  | added (page : Slot Page) : Local (.add page) (.putDone page 0)
  | asked (key : Key) (page : Page) : Local (.get key page) (.msg key page)
  | removed (key : Key) (ret : ℤ) (page : Page) : Local (.got key ret page) (.getDone key ret page)
  | asked2 (key : Key) : Local (.inv key) (.msg2 key)
  | removed2 (key : Key) (n : ℕ) (ret : ℤ) : Local (.sent2 key n ret) (.invDone key (some n) ret)

/-- The handlers end where the metadata denies the key. -/
inductive Denied {Page : Type} (key : Key) : Call Page → Call Page → Prop where
  | get (page : Page) : Denied key (.get key page) (.getDone key (-1) page)
  | inv : Denied key (.inv key) (.invDone key none (-1))

/-- A call returns. -/
inductive Returns {Page : Type} (t : ℕ) : Call Page → Event Page → Prop where
  | put (page : Slot Page) (ret : ℤ) : Returns t (.putDone page ret) (.putReturn t page ret)
  | get (key : Key) (ret : ℤ) (page : Page) :
      Returns t (.getDone key ret page) (.getReturn t key ret page)
  | inv (key : Key) (msg : Option ℕ) (ret : ℤ) :
      Returns t (.invDone key msg ret) (.invReturn t key msg ret)

/-- What a step does. -/
inductive Effect {Page : Type} (hash : HashFuncs) (exclusivePolicy : Bool) (cid : ℕ)
    (w : World Page) : WorldStep Page → World Page → Prop where
  | entered {a : WorldStep Page} {t : ℕ} {c : Call Page} {e : Event Page}
      (hidle : w.calls t = .idle) (henters : Enters cid t a c e) :
      Effect hash exclusivePolicy cid w a ((w.setCall t c).record e)
  | moved {t : ℕ} {env : Env} {c c' : Call Page} (af : Option AccessFilter) (metadata : Metadata)
      (hcall : w.calls t = c) (hlocal : Local c c') :
      Effect hash exclusivePolicy cid w (.run t env) ({ w with af, metadata }.setCall t c')
  | denied {t : ℕ} {env : Env} {key : Key} {c c' : Call Page} (hcall : w.calls t = c)
      (hdenies : w.Denies hash key) (hdenied : Denied key c c') :
      Effect hash exclusivePolicy cid w (.run t env) (w.setCall t c')
  | returned {t : ℕ} {env : Env} {c : Call Page} {e : Event Page} (hcall : w.calls t = c)
      (hreturns : Returns t c e) :
      Effect hash exclusivePolicy cid w (.run t env) ((w.setCall t .idle).record e)
  | accepted {t : ℕ} {env : Env} {page : Slot Page} {put : PutRun Page}
      (hcall : w.calls t = .send page) (hput : w.put.step (.sendPage page) = some put) :
      Effect hash exclusivePolicy cid w (.run t env) ({ w with put }.setCall t (.add page))
  | asked {t qid : ℕ} {env : Env} {key : Key} {page : Page} {q : ReqQueue Page}
      (hcall : w.calls t = .msg key page) (hqid : qid = env.cpu % numGetQps + 2)
      (hq : (w.req.queues qid).writeMsg qid key env.raddr = some q) :
      Effect hash exclusivePolicy cid w (.run t env)
        ({ w with req := w.req.setQueue qid q }.setCall t (.wait key qid page))
  | asked2 {t : ℕ} {env : Env} {key : Key} {q : ReqQueue Page} {c : Call Page}
      (hcall : w.calls t = .msg2 key) (hq : (w.req.queues 1).writeMsg2 key = some q)
      (hc : c = .sent2 key (w.req.queues 1).calls.length 0 ∨
        c = .wait2 key (w.req.queues 1).calls.length) :
      Effect hash exclusivePolicy cid w (.run t env)
        ({ w with req := w.req.setQueue 1 q }.setCall t c)
  | sent {t qid : ℕ} {env : Env} {q : ReqQueue Page}
      (hq : (w.req.queues qid).pollSendCq = some q) :
      Effect hash exclusivePolicy cid w (.run t env) { w with req := w.req.setQueue qid q }
  | answered {t qid : ℕ} {env : Env} {key : Key} {page : Page} {r : Reply Page}
      {q : ReqQueue Page} {ret : ℤ} (hcall : w.calls t = .wait key qid page)
      (hr : (w.req.queues qid).replies.head? = some r)
      (hq : (w.req.queues qid).pollRecvCq = some q)
      (hret : GetCall.writeMsg ⟨true, true, ⟨0, r.imm⟩, env.crc, fillPage r page⟩ = some ret) :
      Effect hash exclusivePolicy cid w (.run t env)
        ({ w with req := w.req.setQueue qid q }.setCall t (.got key ret (fillPage r page)))
  | answered2 {t n : ℕ} {env : Env} {key : Key} {q : ReqQueue Page} {ret : ℤ}
      (hcall : w.calls t = .wait2 key n) (hq : (w.req.queues 1).pollRecvCq = some q) :
      Effect hash exclusivePolicy cid w (.run t env)
        ({ w with req := w.req.setQueue 1 q }.setCall t (.sent2 key n ret))
  | worked {a : PutStep Page} {put : PutRun Page} (ha : ∀ page, a ≠ .sendPage page)
      (hput : w.put.step a = some put) :
      Effect hash exclusivePolicy cid w (.worker a) { w with put }
  | tookPut {d : Draw} {m : Slot Page × BitVec 32} {wire : List (Slot Page × BitVec 32)}
      {t : Server Page} {r : Option (Reply Page)} {replies : List (BitVec 32)}
      (hwire : w.put.queue.wire = m :: wire)
      (hserver : w.req.server.step hash exclusivePolicy (.send cid 0 (.slot m.1) m.2 d) =
        some (t, r)) :
      Effect hash exclusivePolicy cid w (.processPut d)
        { w with
          put := { w.put with queue := { w.put.queue with wire, replies } }
          req := { w.req with server := t } }
  | delivered {qid : ℕ} {req : ReqPath Page} (hreq : w.req.deliver cid qid = some req) :
      Effect hash exclusivePolicy cid w (.deliver qid) { w with req }
  | handled {qid : ℕ} {d : Draw} {req : ReqPath Page}
      (hreq : w.req.process hash exclusivePolicy cid qid d = some req) :
      Effect hash exclusivePolicy cid w (.process qid d)
        { w with
          req
          log := w.log ++
            if qid = 1 then [.invHandled (w.req.queues 1).handled.length] else [] }
  | served {a : ServerStep Page} {t : Server Page} {r : Option (Reply Page)}
      (hfree : ¬ World.Reserved cid a)
      (hserver : w.req.server.step hash exclusivePolicy a = some (t, r)) :
      Effect hash exclusivePolicy cid w (.server a) { w with req := { w.req with server := t } }
  | refreshed {bf : BloomFilter} (metadata : Metadata) :
      Effect hash exclusivePolicy cid w (.updateFilter bf) { w with metadata }

namespace World

variable {Page : Type} {hash : HashFuncs} {exclusivePolicy : Bool} {cid : ℕ} {w w' : World Page}

theorem setCall_self (t : ℕ) (c : Call Page) : (w.setCall t c).calls t = c :=
  Function.update_self _ _ _

theorem setCall_of_ne {t t' : ℕ} (h : t' ≠ t) (c : Call Page) :
    (w.setCall t c).calls t' = w.calls t' :=
  Function.update_of_ne h _ _

/-- What holds of the new call and of all calls before holds of all calls. -/
theorem forall_setCall {P : ℕ → Call Page → Prop} {t : ℕ} {c : Call Page} (hself : P t c)
    (hother : ∀ t', P t' (w.calls t')) (t' : ℕ) : P t' ((w.setCall t c).calls t') :=
  (Function.forall_update_iff w.calls P).mpr ⟨hself, fun t' _ => hother t'⟩ t'

/-- What holds of the new call only if it held of the old one. -/
theorem of_setCall {P : Call Page → Prop} {t t' : ℕ} {c : Call Page} (hc : P c → P (w.calls t))
    (h : P ((w.setCall t c).calls t')) : P (w.calls t') :=
  forall_setCall (P := fun t' c' => P c' → P (w.calls t')) hc (fun _ hold => hold) t' h

theorem enter_some {t : ℕ} {c : Call Page} {e : Event Page} (h : w.enter t c e = some w') :
    w.calls t = .idle ∧ w' = (w.setCall t c).record e := by
  unfold enter at h
  split at h
  next hidle =>
    cases h
    exact ⟨hidle, rfl⟩
  · cases h

/-- The lock holder sees the completion of its send, or it takes a reply. -/
theorem poll_some {t qid : ℕ} {next : Reply Page → Option (Call Page)}
    (h : w.poll hash exclusivePolicy cid t qid next = some w') :
    (∃ q, (w.req.queues qid).pollSendCq = some q ∧ w' = { w with req := w.req.setQueue qid q }) ∨
    ∃ r c q, (w.req.queues qid).replies.head? = some r ∧ next r = some c ∧
      (w.req.queues qid).pollRecvCq = some q ∧
      w' = { w with req := w.req.setQueue qid q }.setCall t c := by
  unfold poll at h
  split at h
  · cases h
  · obtain ⟨req, hreq, rfl⟩ := Option.map_eq_some_iff.mp h
    obtain ⟨q, hq, rfl⟩ := Option.map_eq_some_iff.mp hreq
    exact Or.inl ⟨q, hq, rfl⟩
  · obtain ⟨r, hr, h⟩ := Option.bind_eq_some_iff.mp h
    obtain ⟨c, hc, h⟩ := Option.bind_eq_some_iff.mp h
    obtain ⟨req, hreq, rfl⟩ := Option.map_eq_some_iff.mp h
    obtain ⟨q, hq, rfl⟩ := Option.map_eq_some_iff.mp hreq
    exact Or.inr ⟨r, c, q, hr, hc, hq, rfl⟩

theorem run_effect {t : ℕ} {env : Env} (h : w.run hash exclusivePolicy cid t env = some w') :
    Effect hash exclusivePolicy cid w (.run t env) w' := by
  unfold run at h
  split at h
  next hcall => cases h
  next ino index page hcall =>
    split at h
    · cases h
      exact .moved w.af w.metadata hcall (.admitted ino index page)
    next af haf =>
      cases h
      refine .moved (some (af.upsert ino index).1) w.metadata hcall ?_
      split
      · exact .admitted ino index page
      · exact .refused ino index page
  next page hcall =>
    cases h
    refine .moved w.af w.metadata hcall ?_
    generalize (if w.metadata.isOn then w.metadata.contain hash page.key else true) = isKnown
    split
    · exact .clean page
    · exact .wanted page
  next page hcall =>
    obtain ⟨put, hput, rfl⟩ := Option.map_eq_some_iff.mp h
    by_cases hret : (w.put.queue.sendPage page).2 = 0
    · rw [if_pos hret]
      exact .accepted hcall hput
    · have hrej := PutQueue.sendPage_rejected hret
      have hsame : put = w.put := by
        simp only [PutRun.step, hrej] at hput
        cases hput
        rfl
      rw [if_neg hret, hsame, hrej]
      exact .moved w.af w.metadata hcall (.blocked page)
  next page hcall =>
    cases h
    exact .moved w.af _ hcall (.added page)
  next key page hcall =>
    cases h
    split
    next hdenies => exact .denied hcall hdenies (.get page)
    · exact .moved w.af w.metadata hcall (.asked key page)
  next key page hcall =>
    obtain ⟨req, hreq, rfl⟩ := Option.map_eq_some_iff.mp h
    obtain ⟨q, hq, rfl⟩ := Option.map_eq_some_iff.mp hreq
    exact .asked hcall rfl hq
  next key qid page hcall =>
    rcases poll_some h with ⟨q, hq, rfl⟩ | ⟨r, c, q, hr, hnext, hq, rfl⟩
    · exact .sent hq
    · obtain ⟨ret, hret, rfl⟩ := Option.map_eq_some_iff.mp hnext
      exact .answered hcall hr hq hret
  next key ret page hcall =>
    cases h
    split
    · exact .moved w.af _ hcall (.removed key ret page)
    · exact .moved w.af w.metadata hcall (.removed key ret page)
  next key hcall =>
    cases h
    split
    next hdenies => exact .denied hcall hdenies .inv
    · exact .moved w.af w.metadata hcall (.asked2 key)
  next key hcall =>
    obtain ⟨req, hreq, rfl⟩ := Option.map_eq_some_iff.mp h
    obtain ⟨q, hq, rfl⟩ := Option.map_eq_some_iff.mp hreq
    refine .asked2 hcall hq ?_
    split
    · exact Or.inl rfl
    · exact Or.inr rfl
  next key n hcall =>
    rcases poll_some h with ⟨q, hq, rfl⟩ | ⟨r, c, q, -, hnext, hq, rfl⟩
    · exact .sent hq
    · cases hnext
      exact .answered2 hcall hq
  next key n ret hcall =>
    cases h
    exact .moved w.af _ hcall (.removed2 key n ret)
  next page ret hcall =>
    cases h
    exact .returned hcall (.put page ret)
  next key ret page hcall =>
    cases h
    exact .returned hcall (.get key ret page)
  next key msg ret hcall =>
    cases h
    exact .returned hcall (.inv key msg ret)

theorem step_effect {a : WorldStep Page} (h : w.step hash exclusivePolicy cid a = some w') :
    Effect hash exclusivePolicy cid w a w' := by
  cases a with
  | putPage t ino index data =>
      obtain ⟨hidle, rfl⟩ := enter_some h
      exact .entered hidle (.put ino index data)
  | getPage t ino index page =>
      obtain ⟨hidle, rfl⟩ := enter_some h
      exact .entered hidle (.get ino index page)
  | invalidatePage t ino index =>
      obtain ⟨hidle, rfl⟩ := enter_some h
      exact .entered hidle (.inv ino index)
  | run t env => exact run_effect h
  | worker a =>
      cases a with
      | sendPage page => cases h
      | receive => cases h
      | reply imm => cases h
      | _ =>
          obtain ⟨p, hp, rfl⟩ := Option.map_eq_some_iff.mp h
          obtain ⟨put, hput, rfl⟩ := Option.map_eq_some_iff.mp hp
          exact .worked (by rintro page ⟨⟩) hput
  | processPut d =>
      obtain ⟨p, hp, rfl⟩ := Option.map_eq_some_iff.mp h
      simp only [PutPath.step] at hp
      split at hp
      · cases hp
      next m wire hwire =>
        obtain ⟨⟨t, r⟩, hserver, rfl⟩ := Option.map_eq_some_iff.mp hp
        exact .tookPut hwire hserver
  | deliver qid =>
      obtain ⟨req, hreq, rfl⟩ := Option.map_eq_some_iff.mp h
      exact .delivered hreq
  | process qid d =>
      obtain ⟨req, hreq, rfl⟩ := Option.map_eq_some_iff.mp h
      have heffect : Effect hash exclusivePolicy cid w (.process qid d) _ := .handled hreq
      split
      next hqid =>
        rw [if_pos hqid] at heffect
        exact heffect
      next hqid =>
        rw [if_neg hqid, List.append_nil] at heffect
        exact heffect
  | server a =>
      simp only [step] at h
      split at h
      · cases h
      next hfree =>
        obtain ⟨req, hreq, rfl⟩ := Option.map_eq_some_iff.mp h
        simp only [ReqPath.step] at hreq
        split at hreq
        · cases hreq
        · obtain ⟨⟨t, r⟩, hserver, rfl⟩ := Option.map_eq_some_iff.mp hreq
          exact .served hfree hserver
  | updateFilter bf =>
      simp only [step] at h
      split at h
      · cases h
        exact .refreshed _
      · cases h

/-! ## Runs of few threads -/

/-- No other threads than those of `S` are in a handler. -/
def Within (S : Finset ℕ) (w : World Page) : Prop := ∀ t ∉ S, w.calls t = .idle

theorem Within.setCall {S : Finset ℕ} (h : w.Within S) {t : ℕ} (ht : t ∈ S) (c : Call Page) :
    (w.setCall t c).Within S := by
  intro t' ht'
  rw [setCall_of_ne (ne_of_mem_of_not_mem ht ht').symm]
  exact h t' ht'

theorem Within.step {S : Finset ℕ} (h : w.Within S) {a : WorldStep Page}
    (ha : ∀ t ∈ a.thread, t ∈ S) (heffect : Effect hash exclusivePolicy cid w a w') :
    w'.Within S := by
  cases heffect with
  | entered hidle henters =>
      cases henters with
      | _ => exact h.setCall (ha _ rfl) _
  | moved | denied | returned | accepted | asked | asked2 | answered | answered2 =>
      exact h.setCall (ha _ rfl) _
  | _ => exact h

end World

end CleancacheRdma.Driver
