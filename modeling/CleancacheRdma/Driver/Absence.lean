import Mathlib
import CleancacheRdma.Driver.WorldInv

/-!
# When nothing is left of a page

A version of a page is with a put that may still be accepted, on its way to the
daemon, or in the daemon's table. Once it is in none of these places only the
next put brings it back.
-/

namespace CleancacheRdma.Driver

open Daemon (Slot Key Value HashFuncs Server ServerStep Reply Draw Usable longkeyToCid)
open Lib (System)

/-- The put that a thread may still have accepted. -/
def Call.putting {Page : Type} : Call Page → Option (Slot Page)
  | .upsert _ _ page | .put page | .send page => some page
  | _ => none

theorem Local.putting {Page : Type} {c c' : Call Page} (h : Local c c') {page : Slot Page}
    (hpage : c'.putting = some page) : c.putting = some page := by
  cases h with
  | admitted ino index page => exact hpage
  | wanted page => exact hpage
  | _ => cases hpage

/-- A put of the key is called. -/
def WorldStep.Puts {Page : Type} (cid : ℕ) (key : Key) : WorldStep Page → Prop
  | .putPage _ ino index _ => pageKey cid ino index = key
  | _ => False

instance {Page : Type} (cid : ℕ) (key : Key) : (a : WorldStep Page) → Decidable (a.Puts cid key)
  | .putPage _ _ _ _ => inferInstanceAs (Decidable (_ = _))
  | .getPage _ _ _ _ | .invalidatePage _ _ _ | .run _ _ | .worker _ | .processPut _ | .deliver _
  | .process _ _ | .server _ | .updateFilter _ => isFalse not_false

theorem Enters.puts {Page : Type} {cid t : ℕ} {a : WorldStep Page} {c : Call Page} {e : Event Page}
    (h : Enters cid t a c e) {key : Key} (hputs : a.Puts cid key) :
    ∃ page, e = .putCall t page ∧ page.key = key := by
  cases h with
  | put ino index data => exact ⟨_, rfl, hputs⟩
  | _ => exact absurd hputs not_false

namespace World

variable {Page : Type} {hash : HashFuncs} {exclusivePolicy : Bool} {cid : ℕ} {w w' : World Page}
  {a : WorldStep Page} {key : Key}

/-- What a step adds to the log: nothing, a call, a return, or a handled message. -/
theorem log_step (heffect : Effect hash exclusivePolicy cid w a w') :
    (w'.log = w.log ∧ ∀ key, ¬ a.Puts cid key) ∨
    (∃ t c e, Enters cid t a c e ∧ w' = (w.setCall t c).record e) ∨
    (∃ t env c e, a = .run t env ∧ w.calls t = c ∧ Returns t c e ∧
      w' = (w.setCall t .idle).record e) ∨
    ∃ d, a = .process 1 d ∧ w.req.process hash exclusivePolicy cid 1 d = some w'.req ∧
      w'.log = w.log ++ [.invHandled (w.req.queues 1).handled.length] := by
  cases heffect with
  | entered hidle henters => exact Or.inr (Or.inl ⟨_, _, _, henters, rfl⟩)
  | returned hcall hreturns =>
      exact Or.inr (Or.inr (Or.inl ⟨_, _, _, _, rfl, hcall, hreturns, rfl⟩))
  | @handled qid d req hreq =>
      by_cases hqid : qid = 1
      · subst hqid
        exact Or.inr (Or.inr (Or.inr ⟨d, rfl, hreq, rfl⟩))
      · refine Or.inl ⟨?_, fun _ => not_false⟩
        rw [if_neg hqid, List.append_nil]
  | _ => exact Or.inl ⟨rfl, fun _ => not_false⟩

/-- A put of the key was called, and it has been neither rejected nor taken by
the daemon. -/
def UnderWay (key : Key) (w : World Page) : Prop :=
  (∃ t page, (w.calls t).putting = some page ∧ page.key = key) ∨
    ∃ m ∈ w.put.queue.inTransit, m.key = key

/-- No version of the page is left. -/
structure Absent (hash : HashFuncs) (key : Key) (w : World Page) : Prop where
  notUnderWay : ¬ w.UnderWay key
  notStored : w.req.server.kv.table.view (hash 0) key = none

/-- A thread moves on with no other put of the key than before. -/
theorem UnderWay.of_setCall {t : ℕ} {c : Call Page}
    (hc : ∀ page, c.putting = some page → page.key = key → (w.calls t).putting = some page)
    (h : (w.setCall t c).UnderWay key) : w.UnderWay key := by
  rcases h with ⟨t', page, hput, hkey⟩ | hbuffered
  · exact Or.inl ⟨t', page, World.of_setCall (P := fun c' => c'.putting = some page)
      (fun h' => hc page h' hkey) hput, hkey⟩
  · exact Or.inr hbuffered

/-- Only a call of a put brings a new one under way. -/
theorem UnderWay.step (hsound : w.Sound hash cid)
    (heffect : Effect hash exclusivePolicy cid w a w') (hputs : ¬ a.Puts cid key)
    (h : w'.UnderWay key) : w.UnderWay key := by
  cases heffect with
  | @entered a t c e hidle henters =>
      cases henters with
      | put ino index data =>
          refine UnderWay.of_setCall (fun page hc hkey => ?_) h
          cases hc
          exact absurd hkey hputs
      | get ino index page => exact UnderWay.of_setCall (fun _ hc => by cases hc) h
      | inv ino index => exact UnderWay.of_setCall (fun _ hc => by cases hc) h
  | @moved t env c c' af metadata hcall hlocal =>
      refine UnderWay.of_setCall (fun page hc _ => ?_) h
      rw [hcall]
      exact hlocal.putting hc
  | denied hcall hdenies hdenied =>
      refine UnderWay.of_setCall (fun page hc => ?_) h
      cases hdenied with
      | _ => cases hc
  | returned hcall hreturns => exact UnderWay.of_setCall (fun _ hc => by cases hc) h
  | @accepted t env page put hcall hput =>
      have hmoved : ({ w with put } : World Page).UnderWay key :=
        UnderWay.of_setCall (fun _ hc => by cases hc) h
      rcases hmoved with hcalled | ⟨m, hm, hkey⟩
      · exact Or.inl hcalled
      · rcases hsound.put.inTransit_step hput hm with hin | heq
        · exact Or.inr ⟨m, hin, hkey⟩
        · cases heq
          exact Or.inl ⟨t, page, by rw [hcall]; rfl, hkey⟩
  | asked hcall hqid hq => exact UnderWay.of_setCall (fun _ hc => by cases hc) h
  | asked2 hcall hq hc =>
      refine UnderWay.of_setCall (fun page hput => ?_) h
      rcases hc with rfl | rfl
      · cases hput
      · cases hput
  | sent hq => exact h
  | answered hcall hr hq hret => exact UnderWay.of_setCall (fun _ hc => by cases hc) h
  | answered2 hcall hq => exact UnderWay.of_setCall (fun _ hc => by cases hc) h
  | worked ha hput =>
      refine h.imp_right fun ⟨m, hm, hkey⟩ => ⟨m, ?_, hkey⟩
      exact (hsound.put.inTransit_step hput hm).resolve_right (ha m)
  | tookPut hwire hserver =>
      exact h.imp_right fun ⟨m, hm, hkey⟩ => ⟨m, PutQueue.mem_inTransit_of_tail hwire hm, hkey⟩
  | delivered hreq => exact h
  | handled hreq => exact h
  | served hfree hserver => exact h
  | refreshed metadata => exact h

/-- What is stored was stored, or it was the oldest put on the wire. -/
theorem view_step (hsound : w.Sound hash cid) (hwf : w.WellFormed cid a)
    (hown : longkeyToCid key = cid) (heffect : Effect hash exclusivePolicy cid w a w') {p : Value}
    (hp : w'.req.server.kv.table.view (hash 0) key = some p) :
    w.req.server.kv.table.view (hash 0) key = some p ∨ w.UnderWay key := by
  cases heffect with
  | @tookPut d m wire t r replies hwire hserver =>
      have hm : m.1 ∈ w.put.queue.inTransit :=
        PutQueue.mem_inTransit_wire (by rw [hwire]; exact List.mem_cons_self)
      have hwf' : w.req.server.WellFormed (.send cid 0 (.slot m.1) m.2 d) :=
        ⟨hsound.client, by decide, by decide, hsound.buffered _ hm⟩
      rcases Server.step_pageOrigin hsound.server hsound.single hwf' hserver hp with
        ⟨hview, -⟩ | ⟨cid', qid, b, imm, d', heq, hkey, -⟩
      · exact Or.inl hview
      · cases heq
        exact Or.inr (Or.inr ⟨m.1, hm, hkey⟩)
  | delivered hreq =>
      obtain ⟨addr, off, words, -, -, hserver⟩ := ReqPath.deliver_server hreq
      dsimp only at hp
      rw [hserver] at hp
      exact Or.inl hp
  | @handled qid d req hreq =>
      obtain ⟨call, reply, hhandles⟩ := hsound.req.handles hreq
      have hkey := hsound.requested qid call (List.mem_of_getElem? hhandles.next)
      exact Or.inl (hhandles.view hsound.server hkey.1 hp)
  | served hfree hserver =>
      rcases Server.step_pageOrigin hsound.server hsound.single hwf hserver hp with
        ⟨hview, -⟩ | ⟨cid', qid, b, imm, d', rfl, rfl, -⟩
      · exact Or.inl hview
      · -- another client's page carries that client
        have howner : longkeyToCid b.key = cid' := hwf.2.2.2.2
        exact absurd (howner.symm.trans hown) hfree
  | _ => exact Or.inl hp

theorem Absent.step (h : w.Absent hash key) (hsound : w.Sound hash cid) (hwf : w.WellFormed cid a)
    (hown : longkeyToCid key = cid) (heffect : Effect hash exclusivePolicy cid w a w')
    (hputs : ¬ a.Puts cid key) : w'.Absent hash key := by
  refine ⟨fun hunder => h.notUnderWay (hunder.step hsound heffect hputs), ?_⟩
  cases hview : w'.req.server.kv.table.view (hash 0) key with
  | none => rfl
  | some p =>
      rcases view_step hsound hwf hown heffect hview with hold | hunder
      · rw [h.notStored] at hold
        cases hold
      · exact absurd hunder h.notUnderWay

/-- No call has put anything yet. -/
theorem Absent.initial {startAddr : Value} {memPoolSize numClients numHash numBits : ℕ}
    {mem : Value → Slot Page} (hinit : (worldSystem hash exclusivePolicy cid
      (.new startAddr memPoolSize numClients numHash numBits mem)).init w) :
    w.Absent hash key := by
  obtain ⟨⟨pool, hput⟩, -, hserver, hcalls, -⟩ := hinit
  constructor
  · rintro (⟨t, page, hputting, -⟩ | ⟨m, hm, -⟩)
    · rw [hcalls] at hputting
      cases hputting
    · rw [hput] at hm
      cases hm
  · rw [hserver]
    exact congrFun (Daemon.LinearProbingApprox.view_new _) key

/-! ## With few threads -/

section Within

variable {S : Finset ℕ}

/-- `UnderWay`, as far as the threads of `S` go. -/
def UnderWayAmong (S : Finset ℕ) (key : Key) (w : World Page) : Prop :=
  (∃ t ∈ S, ∃ page ∈ (w.calls t).putting, page.key = key) ∨
    ∃ m ∈ w.put.queue.inTransit, m.key = key

instance : Decidable (w.UnderWayAmong S key) := inferInstanceAs (Decidable (_ ∨ _))

theorem Within.underWayAmong (h : w.Within S) (hunder : w.UnderWay key) :
    w.UnderWayAmong S key := by
  refine hunder.imp_left fun ⟨t, page, hputting, hkey⟩ => ⟨t, ?_, page, hputting, hkey⟩
  by_contra ht
  rw [h t ht] at hputting
  cases hputting

def AbsentAmong (hash : HashFuncs) (S : Finset ℕ) (key : Key) (w : World Page) : Prop :=
  ¬ w.UnderWayAmong S key ∧ w.req.server.kv.table.view (hash 0) key = none

instance : Decidable (w.AbsentAmong hash S key) := inferInstanceAs (Decidable (_ ∧ _))

theorem Within.absent (h : w.Within S) (habsent : w.AbsentAmong hash S key) :
    w.Absent hash key :=
  ⟨fun hunder => habsent.1 (h.underWayAmong hunder), habsent.2⟩

end Within

end World

end CleancacheRdma.Driver
