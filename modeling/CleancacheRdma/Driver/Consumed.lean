import Mathlib
import CleancacheRdma.Driver.Coherence
import CleancacheRdma.Lib.Places

/-!
# A get takes its page

Under the exclusive policy the daemon removes what it sends. What was put and is
neither lost nor got is in one place: with a put that may still be accepted, on its
way to the daemon, in the daemon's table, or with a get that has not returned. So no
page is got more often than it was put.
-/

namespace CleancacheRdma.Daemon

variable {Page : Type}

/-- The page of a reply to a get of the key. -/
def Reply.slot (key : Key) (r : Reply Page) : Option (Slot Page) :=
  match r.payload with
  | .page data => some ⟨data, key⟩
  | _ => none

namespace Server

variable {hash : HashFuncs} {exclusivePolicy : Bool} {cid : ℕ} {s s' : Server Page} {key : Key}
  {p : Value}

/-- What is stored under a key of the client. -/
def stored (hash : HashFuncs) (cid : ℕ) (s : Server Page) (key : Key) : Option (Slot Page) :=
  if longkeyToCid key = cid then
    (s.kv.table.view (hash 0) key).map fun p => ⟨(s.mem p).data, key⟩
  else none

theorem stored_some (hown : longkeyToCid key = cid) (h : s.kv.table.view (hash 0) key = some p) :
    s.stored hash cid key = some ⟨(s.mem p).data, key⟩ := by
  rw [stored, if_pos hown, h, Option.map_some]

theorem stored_none (h : s.kv.table.view (hash 0) key = none) : s.stored hash cid key = none := by
  rw [stored, h, Option.map_none, ite_self]

theorem stored_foreign (h : longkeyToCid key ≠ cid) : s.stored hash cid key = none := if_neg h

/-- The key of a get is gone. -/
theorem processGet_view (hinv : s.Inv hash) {cid qid : ℕ}
    (hkey : Usable (s.metaRegion cid (readKeyOffset qid))) (mid : ℕ) (d : Draw) :
    (s.processGet hash true cid qid mid d).1.kv.table.view (hash 0)
      (s.metaRegion cid (readKeyOffset qid)) = none := by
  rw [processGet_exclusive]
  show (s.kv.removeFree hash _ cid d.rand).table.view (hash 0) _ = none
  rw [KV.removeFree_table, KV.remove_view hinv.kv.table hkey, Function.update_self]

/-- Requests change no page. -/
theorem processImm_mem (cid qid : ℕ) (imm : BitVec 32) (d : Draw) :
    (s.processImm hash exclusivePolicy cid qid imm d).1.mem = s.mem := by
  rcases processImm_cases hash exclusivePolicy s cid qid imm d with
    ⟨-, mid, heq⟩ | ⟨mid, -, heq⟩ | ⟨-, heq⟩
  · rw [heq]
    cases exclusivePolicy with
    | true => rfl
    | false => rfl
  · rw [heq, processInvalidatePage_fst]
    rfl
  · rw [heq]

end Server

end CleancacheRdma.Daemon

namespace CleancacheRdma.Driver

open Daemon (Slot Key Value HashFuncs Server ServerStep Reply Draw Usable longkeyToCid NONE
  readKeyOffset)
open Lib (System sum_le_of_others)

/-! ## Histories -/

namespace Event

variable {Page : Type}

def putPage : Event Page → Option (Slot Page)
  | .putCall _ page => some page
  | _ => none

def gotPage : Event Page → Option (Slot Page)
  | .getReturn _ key ret page => if ret = 0 then some ⟨page, key⟩ else none
  | _ => none

end Event

/-- The pages of all puts that were called. -/
def pagesPut {Page : Type} (log : List (Event Page)) : List (Slot Page) :=
  log.filterMap Event.putPage

/-- The pages that gets have returned. -/
def pagesGot {Page : Type} (log : List (Event Page)) : List (Slot Page) :=
  log.filterMap Event.gotPage

section Snoc

variable {Page : Type} (log : List (Event Page)) (e : Event Page)

theorem pagesPut_snoc : pagesPut (log ++ [e]) = pagesPut log ++ e.putPage.toList := by
  rw [pagesPut, List.filterMap_append, List.filterMap_cons]
  cases e.putPage with
  | none => rfl
  | some page => rfl

theorem pagesGot_snoc : pagesGot (log ++ [e]) = pagesGot log ++ e.gotPage.toList := by
  rw [pagesGot, List.filterMap_append, List.filterMap_cons]
  cases e.gotPage with
  | none => rfl
  | some page => rfl

end Snoc

/-! ## What a call holds -/

namespace Call

variable {Page : Type} {c c' : Call Page} {req req' : ReqPath Page}

/-- The pages a call may still hand on: to the put queue, or to its caller. -/
def pages (req : ReqPath Page) : Call Page → List (Slot Page)
  | .upsert _ _ page | .put page | .send page => [page]
  | .wait key qid _ => (req.queues qid).replies.filterMap (Reply.slot key)
  | .got key ret page | .getDone key ret page => if ret = 0 then [⟨page, key⟩] else []
  | _ => []

theorem pages_sublist (h : ∀ i, (req'.queues i).replies.Sublist (req.queues i).replies)
    (c : Call Page) : (c.pages req').Sublist (c.pages req) := by
  cases c with
  | wait key qid page => exact (h qid).filterMap _
  | _ => exact List.Sublist.refl _

end Call

section Calls

variable {Page : Type} {c c' : Call Page} {req req' : ReqPath Page} {e : Event Page}

theorem Local.pages (h : Local c c') : (c'.pages req').Sublist (c.pages req) := by
  cases h with
  | admitted ino index page => exact List.Sublist.refl _
  | wanted page => exact List.Sublist.refl _
  | removed key ret page => exact List.Sublist.refl _
  | _ => exact List.nil_sublist _

theorem Denied.pages {key : Key} (h : Denied key c c') : c'.pages req = [] := by
  cases h with
  | get page => rfl
  | inv => rfl

variable (req) in
/-- A call begins with what its caller puts. -/
theorem Enters.pages {cid t : ℕ} {a : WorldStep Page} (h : Enters cid t a c e) :
    c.pages req = e.putPage.toList ∧ e.gotPage = none := by
  cases h with
  | put ino index data => exact ⟨rfl, rfl⟩
  | get ino index page => exact ⟨rfl, rfl⟩
  | inv ino index => exact ⟨rfl, rfl⟩

variable (req) in
/-- It hands to its caller what it holds in the end. -/
theorem Returns.pages {t : ℕ} (h : Returns t c e) :
    c.pages req = e.gotPage.toList ∧ e.putPage = none := by
  cases h with
  | put page ret => exact ⟨rfl, rfl⟩
  | get key ret page =>
      refine ⟨?_, rfl⟩
      simp only [Call.pages, Event.gotPage]
      split
      · rfl
      · rfl
  | inv key msg ret => exact ⟨rfl, rfl⟩

variable (req) in
/-- A get makes of its reply the page that came with it, or none. -/
theorem Answers.pages {r : Reply Page} (h : Answers r) (key : Key) {page : Page}
    {crc : BitVec 32} {ret : ℤ}
    (hret : GetCall.writeMsg ⟨true, true, ⟨0, r.imm⟩, crc, fillPage r page⟩ = some ret) :
    (Call.got key ret (fillPage r page)).pages req = (r.slot key).toList := by
  rcases h (fillPage r page) crc with ⟨hzero, data, hdata⟩ | ⟨hone, hempty⟩
  · cases hzero.symm.trans hret
    simp only [Call.pages, fillPage, Reply.slot, hdata, if_true, Option.toList_some]
  · cases hone.symm.trans hret
    simp only [Call.pages, Reply.slot, hempty, one_ne_zero, if_false, Option.toList_none]

end Calls

/-! ## The daemon -/

section Stored

variable {Page : Type} {hash : HashFuncs} {exclusivePolicy : Bool} {cid qid : ℕ}
  {s s' : ReqPath Page} {d : Draw} {call : Key × BitVec 64} {reply : Option (Reply Page)}

/-- Nothing is stored but what was, or the oldest put on the wire. -/
theorem stored_step {a : ServerStep Page} {s s' : Server Page} {r : Option (Reply Page)}
    (hinv : s.Inv hash) (hone : s.SinglePlace) (hwf : s.WellFormed a)
    (hstep : s.step hash exclusivePolicy a = some (s', r)) (cid : ℕ) (key : Key) :
    (s'.stored hash cid key).toList.Sublist (s.stored hash cid key).toList ∨
      ∃ cid' qid b imm d, a = .send cid' qid (.slot b) imm d ∧ longkeyToCid b.key = cid ∧
        s'.stored hash cid key = some b := by
  by_cases hown : longkeyToCid key = cid
  case neg =>
    rw [Server.stored_foreign hown]
    exact Or.inl (List.nil_sublist _)
  cases hview : s'.kv.table.view (hash 0) key with
  | none =>
      rw [Server.stored_none hview]
      exact Or.inl (List.nil_sublist _)
  | some p =>
      rcases Server.step_pageOrigin hinv hone hwf hstep hview with
        ⟨hold, hdata, -⟩ | ⟨cid', qid, b, imm, d, ha, rfl, hdata, -⟩
      · rw [Server.stored_some hown hview, Server.stored_some hown hold, hdata]
        exact Or.inl (List.Sublist.refl _)
      · refine Or.inr ⟨cid', qid, b, imm, d, ha, hown, ?_⟩
        rw [Server.stored_some hown hview, hdata]

theorem ReqPath.Handles.mem (h : Handles hash exclusivePolicy cid s s' qid d call reply) :
    s'.server.mem = s.server.mem := by
  have hfst := congrArg (fun r : Server Page × Option (Reply Page) => r.1.mem) h.result
  rw [Server.processImm_mem] at hfst
  exact hfst.symm

/-- A request leaves what is stored under a key, or nothing. -/
theorem ReqPath.Handles.stored (h : Handles hash exclusivePolicy cid s s' qid d call reply)
    (hinv : s.server.Inv hash) (hkey : Usable call.1) (key : Key) :
    (s'.server.stored hash cid key).toList.Sublist (s.server.stored hash cid key).toList := by
  by_cases hown : longkeyToCid key = cid
  case neg =>
    rw [Server.stored_foreign hown]
    exact List.nil_sublist _
  cases hview : s'.server.kv.table.view (hash 0) key with
  | none =>
      rw [Server.stored_none hview]
      exact List.nil_sublist _
  | some p =>
      rw [Server.stored_some hown hview, Server.stored_some hown (h.view hinv hkey hview), h.mem]

variable [DecidableEq Page] in
/-- The page that a get takes is stored no more. -/
theorem ReqPath.Handles.takes (h : Handles hash true cid s s' qid d call reply) (hqid : qid ≠ 1)
    (hinv : s.server.Inv hash) (hkey : OwnKey cid call.1) (m : Slot Page) :
    (s'.server.stored hash cid m.key).toList.count m +
      (reply.toList.filterMap (Reply.slot call.1)).count m ≤
        (s.server.stored hash cid m.key).toList.count m := by
  have hle := (h.stored hinv hkey.1 m.key).count_le m
  obtain ⟨r, rfl, -, hpayload⟩ := h.get hqid hinv hkey.1
  rw [Option.toList_some, List.filterMap_cons, List.filterMap_nil]
  rcases hpayload with ⟨-, hempty⟩ | ⟨p, hview, hdata⟩
  · have hslot : r.slot call.1 = none := by
      rw [Reply.slot, hempty]
    rw [hslot, List.count_nil]
    exact hle
  · have hslot : r.slot call.1 = some ⟨(s.server.mem p).data, call.1⟩ := by
      rw [Reply.slot, hdata]
    rw [hslot]
    by_cases hm : m.key = call.1
    · have hgone : s'.server.kv.table.view (hash 0) call.1 = none := by
        have hread := written_key h.qid_lt hqid h.written
        have hfst := congrArg Prod.fst h.result
        rw [processImm_get hqid] at hfst
        dsimp only at hfst
        have hpost : (s.server.postRecv cid qid NONE).Inv hash := ⟨hinv.kv, hinv.perCliFl⟩
        have hread' : Usable ((s.server.postRecv cid qid NONE).metaRegion cid
            (readKeyOffset qid)) := by
          rw [Server.postRecv_metaRegion, hread]
          exact hkey.1
        have hview := Server.processGet_view hpost hread' 0 d
        rw [Server.postRecv_metaRegion, hread, hfst] at hview
        exact hview
      rw [hm, Server.stored_none hgone, Server.stored_some hkey.2 hview, Option.toList_none,
        List.count_nil, Nat.zero_add]
      rfl
    · have hne : List.count m [(⟨(s.server.mem p).data, call.1⟩ : Slot Page)] = 0 := by
        refine List.count_eq_zero.mpr fun hin => hm ?_
        rw [List.mem_singleton.mp hin]
      dsimp only
      rw [hne]
      exact hle

end Stored

namespace World

variable {Page : Type} [DecidableEq Page] {hash : HashFuncs} {exclusivePolicy : Bool} {cid : ℕ}
  {w w' : World Page} {a : WorldStep Page} {m : Slot Page} {S : Finset ℕ}

/-! ## All places -/

/-- How often a page is left, the calls outside of `S` being idle. -/
def left (hash : HashFuncs) (cid : ℕ) (m : Slot Page) (S : Finset ℕ) (w : World Page) : ℕ :=
  ∑ t ∈ S, ((w.calls t).pages w.req).count m + w.put.queue.inTransit.count m +
    (w.req.server.stored hash cid m.key).toList.count m

/-- Every page that was got or is left was put. -/
structure Conserved (hash : HashFuncs) (cid : ℕ) (m : Slot Page) (S : Finset ℕ)
    (w : World Page) : Prop where
  idle : ∀ t ∉ S, w.calls t = .idle
  count : (pagesGot w.log).count m + w.left hash cid m S ≤ (pagesPut w.log).count m

theorem Conserved.insert (h : w.Conserved hash cid m S) (t : ℕ) :
    w.Conserved hash cid m (insert t S) := by
  refine ⟨fun t' ht' => h.idle t' fun hin => ht' (Finset.mem_insert_of_mem hin), ?_⟩
  have hsum : ∑ t' ∈ Insert.insert t S, ((w.calls t').pages w.req).count m =
      ∑ t' ∈ S, ((w.calls t').pages w.req).count m :=
    Finset.sum_insert_of_eq_zero_if_notMem fun ht => by
      rw [h.idle t ht]
      rfl
  have hcount := h.count
  rw [left] at hcount ⊢
  rw [hsum]
  exact hcount

theorem Conserved.mem (h : w.Conserved hash cid m S) {t : ℕ} (ht : w.calls t ≠ .idle) : t ∈ S := by
  by_contra hout
  exact ht (h.idle t hout)

/-- A call of `S` moves on. -/
theorem Conserved.act (h : w.Conserved hash cid m S) {t : ℕ} {c : Call Page} (ht : t ∈ S)
    (hcalls : w'.calls = Function.update w.calls t c)
    (hreplies : ∀ i, (w'.req.queues i).replies.Sublist (w.req.queues i).replies)
    (hserver : w'.req.server = w.req.server)
    (hcount : (c.pages w'.req).count m + w'.put.queue.inTransit.count m +
        (pagesGot w'.log).count m + (pagesPut w.log).count m ≤
      ((w.calls t).pages w.req).count m + w.put.queue.inTransit.count m +
        (pagesGot w.log).count m + (pagesPut w'.log).count m) :
    w'.Conserved hash cid m S := by
  refine ⟨fun t' ht' => ?_, ?_⟩
  · rw [hcalls, Function.update_of_ne (ne_of_mem_of_not_mem ht ht').symm]
    exact h.idle t' ht'
  · have hsum := sum_le_of_others ht (f := fun t => ((w.calls t).pages w.req).count m)
      (g := fun t => ((w'.calls t).pages w'.req).count m) fun t' ht' => by
        rw [hcalls, Function.update_of_ne ht']
        exact (Call.pages_sublist hreplies _).count_le m
    rw [hcalls, Function.update_self] at hsum
    have hold := h.count
    rw [left] at hold ⊢
    rw [hcalls, hserver]
    omega

/-- It holds no more than before, and neither the put queue nor the log changes. -/
theorem Conserved.pass (h : w.Conserved hash cid m S) {t : ℕ} {c : Call Page} (ht : t ∈ S)
    (hcalls : w'.calls = Function.update w.calls t c)
    (hreplies : ∀ i, (w'.req.queues i).replies.Sublist (w.req.queues i).replies)
    (hserver : w'.req.server = w.req.server) (hput : w'.put = w.put) (hlog : w'.log = w.log)
    (hpages : (c.pages w'.req).Sublist ((w.calls t).pages w.req)) : w'.Conserved hash cid m S := by
  refine h.act ht hcalls hreplies hserver ?_
  have hle := hpages.count_le m
  rw [hput, hlog]
  omega

theorem Conserved.of_left (h : w.Conserved hash cid m S) (hcalls : w'.calls = w.calls)
    (hleft : w'.left hash cid m S ≤ w.left hash cid m S) (hgot : pagesGot w'.log = pagesGot w.log)
    (hput : pagesPut w'.log = pagesPut w.log) : w'.Conserved hash cid m S := by
  refine ⟨fun t ht => ?_, ?_⟩
  · rw [hcalls]
    exact h.idle t ht
  · rw [hgot, hput]
    exact (Nat.add_le_add_left hleft _).trans h.count

/-- No call moves on. -/
theorem Conserved.rest (h : w.Conserved hash cid m S) (hcalls : w'.calls = w.calls)
    (hreplies : ∀ i, (w'.req.queues i).replies.Sublist (w.req.queues i).replies)
    (hlog : w'.log = w.log)
    (hplaces : w'.put.queue.inTransit.count m +
        (w'.req.server.stored hash cid m.key).toList.count m ≤
      w.put.queue.inTransit.count m + (w.req.server.stored hash cid m.key).toList.count m) :
    w'.Conserved hash cid m S := by
  refine h.of_left hcalls ?_ (by rw [hlog]) (by rw [hlog])
  have hsum := Finset.sum_le_sum (s := S) fun t (_ : t ∈ S) =>
    (Call.pages_sublist hreplies (w.calls t)).count_le m
  rw [left, left, hcalls]
  omega

/-- The daemon takes the oldest put. -/
theorem Conserved.takePut (h : w.Conserved hash cid m S) (hsound : w.Sound hash cid) {d : Draw}
    {b : Slot Page × BitVec 32} {wire : List (Slot Page × BitVec 32)} {s : Server Page}
    {r : Option (Reply Page)} {replies : List (BitVec 32)} (hwire : w.put.queue.wire = b :: wire)
    (hserver : w.req.server.step hash exclusivePolicy (.send cid 0 (.slot b.1) b.2 d) =
      some (s, r)) :
    ({ w with
        put := { w.put with queue := { w.put.queue with wire, replies } }
        req := { w.req with server := s } } : World Page).Conserved hash cid m S := by
  refine h.rest rfl (fun _ => List.Sublist.refl _) rfl ?_
  have hb : b.1 ∈ w.put.queue.inTransit :=
    PutQueue.mem_inTransit_wire (by rw [hwire]; exact List.mem_cons_self)
  have hwf : w.req.server.WellFormed (.send cid 0 (.slot b.1) b.2 d) :=
    ⟨hsound.client, by decide, by decide, hsound.buffered _ hb⟩
  have htransit := (PutQueue.inTransit_tail hwire replies).count_eq m
  rw [← List.singleton_append, List.count_append] at htransit
  have hstored : (s.stored hash cid m.key).toList.count m ≤
      (w.req.server.stored hash cid m.key).toList.count m + [b.1].count m := by
    rcases stored_step hsound.server hsound.single hwf hserver cid m.key with
      hsub | ⟨cid', qid, b', imm, d', heq, -, hnew⟩
    · exact (hsub.count_le m).trans (Nat.le_add_right _ _)
    · cases heq
      rw [hnew]
      exact Nat.le_add_left _ _
  dsimp only
  omega

/-- The page of a get moves from the table to its reply. -/
theorem Conserved.left_handled (h : w.Conserved hash cid m S) (hsound : w.Sound hash cid)
    (horderly : w.Orderly) {qid : ℕ} {d : Draw} {req : ReqPath Page} {call : Key × BitVec 64}
    {reply : Option (Reply Page)} (hkey : OwnKey cid call.1)
    (hhandles : ReqPath.Handles hash true cid w.req req qid d call reply) :
    ({ w with req } : World Page).left hash cid m S ≤ w.left hash cid m S := by
  have hothers : ∀ t, (∀ key page, w.calls t ≠ .wait key qid page) →
      ((w.calls t).pages req).count m ≤ ((w.calls t).pages w.req).count m := by
    intro t ht
    cases hcall : w.calls t with
    | wait key i page =>
        have hi : i ≠ qid := fun heq => ht key page (heq ▸ hcall)
        simp only [Call.pages, hhandles.other i hi, Nat.le_refl]
    | _ => exact Nat.le_refl _
  by_cases hqid : qid = 1
  · subst hqid
    have hsum := Finset.sum_le_sum (s := S) fun t _ =>
      hothers t fun key page hcall => (horderly.waits t key 1 page hcall).1 rfl
    have hstored := (hhandles.stored hsound.server hkey.1 m.key).count_le m
    simp only [left]
    omega
  · have htakes := hhandles.takes hqid hsound.server hkey m
    by_cases hwaits : ∃ t key page, w.calls t = .wait key qid page
    · obtain ⟨t, key, page, hcall⟩ := hwaits
      have ht : t ∈ S := h.mem (by rw [hcall]; rintro ⟨⟩)
      have hsum := sum_le_of_others ht (f := fun t => ((w.calls t).pages w.req).count m)
        (g := fun t => ((w.calls t).pages req).count m) fun t' ht' =>
          hothers t' fun key' page' hcall' =>
            ht' (horderly.alone t' t key' key qid page' page hcall' hcall)
      obtain ⟨-, -, raddr, hlast⟩ := horderly.waits t key qid page hcall
      have hsame : call.1 = key := hhandles.last hsound.req hqid hlast
      have hself : ((w.calls t).pages req).count m = ((w.calls t).pages w.req).count m +
          (reply.toList.filterMap (Reply.slot call.1)).count m := by
        rw [hcall, hsame, Call.pages, Call.pages, hhandles.replies, List.filterMap_append,
          List.count_append]
      simp only [left]
      omega
    · have hsum := Finset.sum_le_sum (s := S) fun t _ =>
        hothers t fun key page hcall => hwaits ⟨t, key, page, hcall⟩
      simp only [left]
      omega

theorem Conserved.step (h : w.Conserved hash cid m S) (hsound : w.Sound hash cid)
    (horderly : w.Orderly) (hwf : w.WellFormed cid a)
    (heffect : Effect hash true cid w a w') : ∃ S, w'.Conserved hash cid m S := by
  have hbusy : ∀ {t : ℕ} {c : Call Page}, w.calls t = c → c ≠ .idle → t ∈ S :=
    fun hcall hne => h.mem (hcall ▸ hne)
  have hqueue : ∀ {qid : ℕ} {q : ReqQueue Page},
      q.replies.Sublist (w.req.queues qid).replies →
        ∀ i, ((w.req.setQueue qid q).queues i).replies.Sublist (w.req.queues i).replies :=
    fun hsub => ReqPath.forall_setQueue
      (P := fun i q' => q'.replies.Sublist (w.req.queues i).replies) hsub
      fun _ => List.Sublist.refl _
  cases heffect with
  | @entered a t c e hidle henters =>
      obtain ⟨hpages, hgot⟩ := henters.pages w.req
      refine ⟨Insert.insert t S, (h.insert t).act (Finset.mem_insert_self t S) rfl
        (fun _ => List.Sublist.refl _) rfl ?_⟩
      show (c.pages w.req).count m + w.put.queue.inTransit.count m +
        (pagesGot (w.log ++ [e])).count m + _ ≤ _ + _ + _ + (pagesPut (w.log ++ [e])).count m
      rw [pagesGot_snoc, pagesPut_snoc, hpages, hgot, Option.toList_none, List.append_nil,
        List.count_append]
      omega
  | @moved t env c c' af metadata hcall hlocal =>
      refine ⟨S, h.pass (hbusy hcall ?_) rfl (fun _ => List.Sublist.refl _) rfl rfl rfl ?_⟩
      · rintro rfl
        cases hlocal
      · rw [hcall]
        exact hlocal.pages
  | @denied t env key c c' hcall hdenies hdenied =>
      refine ⟨S, h.pass (hbusy hcall ?_) rfl (fun _ => List.Sublist.refl _) rfl rfl rfl ?_⟩
      · rintro rfl
        cases hdenied
      · rw [hdenied.pages]
        exact List.nil_sublist _
  | @returned t env c e hcall hreturns =>
      obtain ⟨hpages, hput⟩ := hreturns.pages w.req
      refine ⟨S, h.act (hbusy hcall ?_) rfl (fun _ => List.Sublist.refl _) rfl ?_⟩
      · rintro rfl
        cases hreturns
      · show 0 + w.put.queue.inTransit.count m + (pagesGot (w.log ++ [e])).count m + _ ≤
          _ + _ + _ + (pagesPut (w.log ++ [e])).count m
        rw [pagesGot_snoc, pagesPut_snoc, hcall, hpages, hput, Option.toList_none, List.append_nil,
          List.count_append]
        omega
  | @accepted t env page put hcall hput =>
      refine ⟨S, h.act (hbusy hcall (by rintro ⟨⟩)) rfl (fun _ => List.Sublist.refl _) rfl ?_⟩
      have hle := (hsound.put.inTransit_subperm hput).count_le m
      rw [List.count_append] at hle
      rw [hcall]
      show 0 + put.queue.inTransit.count m + _ + _ ≤ [page].count m + _ + _ + _
      change _ ≤ _ + [page].count m at hle
      dsimp only [setCall]
      omega
  | @asked t qid env key page q hcall hqid hq =>
      obtain ⟨hlock, hq'⟩ := ReqQueue.writeMsg_some hq
      have hreplies : q.replies = [] := by
        rw [hq']
        exact hsound.req.replies_nil (by omega) hlock
      refine ⟨S, h.pass (hbusy hcall (by rintro ⟨⟩)) rfl (hqueue ?_) rfl rfl rfl ?_⟩
      · rw [hreplies]
        exact List.nil_sublist _
      · show (((w.req.setQueue qid q).queues qid).replies.filterMap (Reply.slot key)).Sublist _
        rw [ReqPath.setQueue_self, hreplies]
        exact List.nil_sublist _
  | @asked2 t env key q c hcall hq hc =>
      obtain ⟨-, hq'⟩ := ReqQueue.writeMsg2_some hq
      refine ⟨S, h.pass (hbusy hcall (by rintro ⟨⟩)) rfl (hqueue ?_) rfl rfl rfl ?_⟩
      · rw [hq']
      · rcases hc with rfl | rfl
        · exact List.nil_sublist _
        · exact List.nil_sublist _
  | @sent t qid env q hq =>
      obtain ⟨-, hq'⟩ := ReqQueue.pollSendCq_some hq
      exact ⟨S, h.rest rfl (hqueue (by rw [hq'])) rfl (Nat.le_refl _)⟩
  | @answered t qid env key page r q ret hcall hr hq hret =>
      obtain ⟨r', replies, -, hreplies, hq'⟩ := ReqQueue.pollRecvCq_some hq
      have hmem := List.mem_of_mem_head? hr
      have hqid := (horderly.waits t key qid page hcall).1
      have hpages := (horderly.answers qid hqid r hmem).pages (w.req.setQueue qid q) key hret
      refine ⟨S, h.pass (hbusy hcall (by rintro ⟨⟩)) rfl (hqueue ?_) rfl rfl rfl ?_⟩
      · rw [hq', hreplies]
        exact List.sublist_cons_self _ _
      · show ((Call.got key ret (fillPage r page)).pages (w.req.setQueue qid q)).Sublist _
        rw [hreplies] at hr
        cases hr
        rw [hpages, hcall, Call.pages, hreplies, List.filterMap_cons]
        cases r.slot key with
        | none => exact List.nil_sublist _
        | some b => exact (List.nil_sublist _).cons_cons b
  | @answered2 t n env key q ret hcall hq =>
      obtain ⟨r', replies, -, hreplies, hq'⟩ := ReqQueue.pollRecvCq_some hq
      refine ⟨S, h.pass (hbusy hcall (by rintro ⟨⟩)) rfl (hqueue ?_) rfl rfl rfl
        (List.nil_sublist _)⟩
      rw [hq', hreplies]
      exact List.sublist_cons_self _ _
  | @worked a put ha hput =>
      refine ⟨S, h.rest rfl (fun _ => List.Sublist.refl _) rfl (Nat.add_le_add_right ?_ _)⟩
      have hsub := hsound.put.inTransit_subperm hput
      rw [PutStep.accepting_nil ha, List.append_nil] at hsub
      exact hsub.count_le m
  | tookPut hwire hserver => exact ⟨S, h.takePut hsound hwire hserver⟩
  | @delivered qid req hreq =>
      obtain ⟨addr, off, words, -, -, hserver⟩ := ReqPath.deliver_server hreq
      refine ⟨S, h.rest rfl (fun i => ?_) rfl (Nat.add_le_add_left ?_ _)⟩
      · show ((req.queues i).replies).Sublist _
        rw [(ReqPath.deliver_queue hreq i).2.2.1]
      · show ((req.server.stored hash cid m.key).toList).count m ≤ _
        rw [hserver]
        exact Nat.le_refl _
  | @handled qid d req hreq =>
      obtain ⟨call, reply, hhandles⟩ := hsound.req.handles hreq
      have hkey := hsound.requested qid call (List.mem_of_getElem? hhandles.next)
      refine ⟨S, h.of_left rfl (h.left_handled hsound horderly hkey hhandles) ?_ ?_⟩
      · split
        · exact (pagesGot_snoc _ _).trans (List.append_nil _)
        · rw [List.append_nil]
      · split
        · exact (pagesPut_snoc _ _).trans (List.append_nil _)
        · rw [List.append_nil]
  | @served a s r hfree hserver =>
      refine ⟨S, h.rest rfl (fun _ => List.Sublist.refl _) rfl (Nat.add_le_add_left ?_ _)⟩
      rcases stored_step hsound.server hsound.single hwf hserver cid m.key with
        hsub | ⟨cid', qid, b, imm, d, rfl, hown, -⟩
      · exact hsub.count_le m
      · -- another client's page carries that client
        have howner : longkeyToCid b.key = cid' := hwf.2.2.2.2
        exact absurd (howner.symm.trans hown) hfree
  | refreshed metadata => exact ⟨S, h.idle, h.count⟩

theorem Conserved.initial {startAddr : Value} {memPoolSize numClients numHash numBits : ℕ}
    {mem : Value → Slot Page} (hinit : (worldSystem hash exclusivePolicy cid
      (.new startAddr memPoolSize numClients numHash numBits mem)).init w) :
    w.Conserved hash cid m ∅ := by
  obtain ⟨⟨pool, hput⟩, -, hserver, hcalls, hlog⟩ := hinit
  refine ⟨fun t _ => congrFun hcalls t, ?_⟩
  have hview : w.req.server.kv.table.view (hash 0) m.key = none := by
    rw [hserver]
    exact congrFun (Daemon.LinearProbingApprox.view_new _) m.key
  rw [left, Server.stored_none hview, hput, hlog]
  exact Nat.le_refl 0

end World

/-- Under the exclusive policy the pages that gets return are among those that were
put, each as often at most. -/
theorem gets_take {Page : Type} (hash : HashFuncs) (startAddr : Value)
    (memPoolSize numClients numHash numBits : ℕ) (mem : Value → Slot Page) {cid : ℕ}
    (hcid : cid < numClients) {w₀ w : World Page} {as : List (WorldStep Page)}
    (hinit : (worldSystem hash true cid
      (.new startAddr memPoolSize numClients numHash numBits mem)).init w₀)
    (hok : (worldSystem hash true cid
      (.new startAddr memPoolSize numClients numHash numBits mem)).Meets
        (World.WellFormed cid) w₀ as)
    (hrun : (worldSystem hash true cid
      (.new startAddr memPoolSize numClients numHash numBits mem)).exec w₀ as = some w) :
    (pagesGot w.log).Subperm (pagesPut w.log) := by
  classical
  refine List.subperm_iff_count.mpr fun m => ?_
  have hconserved : ∃ S, w.Conserved hash cid m S := by
    refine World.exec_keeps (P := fun _ _ => True) (I := fun w => ∃ S, w.Conserved hash cid m S)
      hcid ?_ hinit ⟨∅, World.Conserved.initial hinit⟩ ?_ hrun
    · rintro w w' a hsound horderly hwf - heffect ⟨S, h⟩
      exact h.step hsound horderly hwf heffect
    · exact System.meets_and hok (System.meets_of_mem _ _ fun _ _ _ => trivial)
  obtain ⟨S, h⟩ := hconserved
  exact (Nat.le_add_right _ _).trans h.count

/-- A page fills a batch, and the daemon has stored it once. -/
def storedBatch : List (WorldStep ℕ) :=
  (List.replicate 32 (WorldStep.putPage 0 2 0 7 :: List.replicate 5 (.run 0 {}))).flatten ++
    firstStored

/-- The first of two gets takes it. -/
theorem gets_take_storedBatch :
    ∃ w, (worldSystem Daemon.keyHash true 0 Daemon.smallServer).exec (smallWorld none .filterOff)
        (smallStartUp ++ (storedBatch ++ (lateGet ++ lateGet))) = some w ∧
      pagesGot w.log = [⟨7, lateKey⟩] ∧ (pagesGot w.log).Subperm (pagesPut w.log) := by
  have hstart := smallStartUp_trace true none .filterOff
  have hgot : ((worldSystem Daemon.keyHash true 0 Daemon.smallServer).exec
      (servedWorld none .filterOff) (storedBatch ++ (lateGet ++ lateGet))).map
        (fun w => pagesGot w.log) = some [⟨7, lateKey⟩] := by
    decide +kernel
  obtain ⟨w, hrun, hw⟩ := Option.map_eq_some_iff.mp hgot
  obtain ⟨hok, hexec⟩ := System.trace_append hstart ⟨by decide +kernel, hrun⟩
  exact ⟨w, hexec, hw, gets_take Daemon.keyHash 4096 1048576 16 1 8 _ (by decide)
    (smallWorld_init Daemon.keyHash true none .filterOff) hok hexec⟩

end CleancacheRdma.Driver
