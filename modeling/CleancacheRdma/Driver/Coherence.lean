import Mathlib
import CleancacheRdma.Driver.Learned
import CleancacheRdma.Lib.Since

/-!
# Invalidations, misses and later gets

Once an invalidation of a page is over or a get has missed it, no version of it
should be left to be found. The three kinds of queues keep no order between
them, so a put that was accepted before can still arrive after; and a filter
that has lost a key keeps the invalidation of its page from being sent.
-/

namespace CleancacheRdma.Driver

open Daemon (Slot Key Value HashFuncs Server ServerStep Reply Draw Usable longkeyToCid)
open Lib (System Since since_snoc snoc_eq_append_cons)

/-! ## Histories -/

namespace Event

variable {Page : Type} {log : List (Event Page)} {key : Key} {e e' : Event Page}

def Puts (key : Key) : Event Page → Prop
  | .putCall _ page => page.key = key
  | _ => False

/-- The page was missed, or its invalidation has returned and its message, if
one was sent, has been handled. -/
def Ends (log : List (Event Page)) (key : Key) : Event Page → Prop
  | .getReturn _ k ret _ => k = key ∧ ret ≠ 0
  | .invReturn _ k none _ => k = key
  | .invReturn _ k (some n) _ => k = key ∧ .invHandled n ∈ log
  | _ => False

/-- An invalidation of the page with message `n` returns. -/
def Awaits (key : Key) (n : ℕ) : Event Page → Prop
  | .invReturn _ k msg _ => k = key ∧ msg = some n
  | _ => False

end Event

/-- The page was missed or invalidated, and no put of it was called since. -/
def Gone {Page : Type} (key : Key) (log : List (Event Page)) : Prop :=
  Since (Event.Ends log key) (Event.Puts key) log

/-- A get that is called for a page that is gone returns 0 only if a put of the
page was called before. -/
def Coherent {Page : Type} (key : Key) (log : List (Event Page)) : Prop :=
  ∀ pre t mid page post,
    log = pre ++ Event.getCall t key :: (mid ++ Event.getReturn t key 0 page :: post) →
    (∀ k, .getCall t k ∉ mid) → Gone key pre → ∃ e ∈ mid, e.Puts key

/-- The last get that thread `t` called was for a page that was gone, and no
put of the page was called since. -/
def Cold {Page : Type} (t : ℕ) (key : Key) (log : List (Event Page)) : Prop :=
  ∃ pre mid, log = pre ++ Event.getCall t key :: mid ∧ (∀ k, .getCall t k ∉ mid) ∧ Gone key pre ∧
    ∀ e ∈ mid, ¬ e.Puts key

section History

variable {Page : Type} {log : List (Event Page)} {key : Key} {e : Event Page} {t : ℕ}

theorem Event.Ends.mono {log' : List (Event Page)} (hlog : ∀ e ∈ log, e ∈ log')
    (h : e.Ends log key) : e.Ends log' key := by
  cases e with
  | getReturn t k ret page => exact h
  | invReturn t k msg ret =>
      cases msg with
      | none => exact h
      | some n => exact ⟨h.1, hlog _ h.2⟩
  | _ => exact h

/-- What one more entry ends: its own page, or that of an invalidation that waited
for its message. -/
theorem Gone.of_snoc (h : Gone key (log ++ [e])) :
    (Gone key log ∧ ¬ e.Puts key) ∨ e.Ends log key ∨
      ∃ n, e = .invHandled n ∧ Since (Event.Awaits key n) (Event.Puts key) log := by
  rcases since_snoc.mp h with hends | ⟨⟨pre, x, post, hlog, hends, hpost⟩, hputs⟩
  · cases e with
    | invReturn t k msg ret =>
        cases msg with
        | none => exact Or.inr (Or.inl hends)
        | some n =>
            refine Or.inr (Or.inl ⟨hends.1, ?_⟩)
            rcases List.mem_append.mp hends.2 with hin | hlast
            · exact hin
            · cases List.mem_singleton.mp hlast
    | _ => exact Or.inr (Or.inl hends)
  · have hold : x.Ends log key → (Gone key log ∧ ¬ e.Puts key) ∨ e.Ends log key ∨
        ∃ n, e = .invHandled n ∧ Since (Event.Awaits key n) (Event.Puts key) log :=
      fun hx => Or.inl ⟨⟨pre, x, post, hlog, hx, hpost⟩, hputs⟩
    cases x with
    | invReturn t k msg ret =>
        cases msg with
        | none => exact hold hends
        | some n =>
            rcases List.mem_append.mp hends.2 with hin | hlast
            · exact hold ⟨hends.1, hin⟩
            · refine Or.inr (Or.inr ⟨n, (List.mem_singleton.mp hlast).symm, ?_⟩)
              exact ⟨pre, _, post, hlog, ⟨hends.1, rfl⟩, hpost⟩
    | _ => exact hold hends

/-- A cold get has a page that is still gone. -/
theorem Cold.gone (h : Cold t key log) : Gone key log := by
  obtain ⟨pre, mid, rfl, -, hgone, hmid⟩ := h
  have hmono : Since (Event.Ends (pre ++ Event.getCall t key :: mid) key) (Event.Puts key) pre :=
    Since.mono hgone fun x _ hx => hx.mono fun e he => List.mem_append_left _ he
  refine hmono.append fun y hy => ?_
  rcases List.mem_cons.mp hy with rfl | hy
  · exact not_false
  · exact hmid y hy

theorem Cold.of_snoc (h : Cold t key (log ++ [e])) (he : e ≠ .getCall t key) : Cold t key log := by
  obtain ⟨pre, mid, heq, hlast, hgone, hmid⟩ := h
  rcases snoc_eq_append_cons heq with ⟨-, hcall, -⟩ | ⟨rest, rfl, hlog⟩
  · exact absurd hcall.symm he
  · exact ⟨pre, rest, hlog, fun k hk => hlast k (List.mem_append_left _ hk), hgone,
      fun e' he' => hmid e' (List.mem_append_left _ he')⟩

/-- A history stays coherent while no cold get returns 0. -/
theorem Coherent.snoc (h : Coherent key log)
    (he : ∀ t page, e = .getReturn t key 0 page → ¬ Cold t key log) : Coherent key (log ++ [e]) := by
  intro pre t mid page post heq hlast hgone
  have hsplit : log ++ [e] =
      (pre ++ Event.getCall t key :: mid) ++ Event.getReturn t key 0 page :: post := by
    rw [heq, List.append_assoc, List.cons_append]
  rcases snoc_eq_append_cons hsplit with ⟨-, hret, hlog⟩ | ⟨rest, rfl, hlog⟩
  · by_contra hnone
    refine he t page hret.symm ⟨pre, mid, hlog.symm, hlast, hgone, fun e' he' hputs => ?_⟩
    exact hnone ⟨e', he', hputs⟩
  · refine h pre t mid page rest ?_ hlast hgone
    rw [hlog, List.append_assoc, List.cons_append]

end History

namespace World

variable {Page : Type} {hash : HashFuncs} {exclusivePolicy : Bool} {cid : ℕ} {w w' : World Page}
  {a : WorldStep Page} {key : Key}

/-- The oldest message of queue 1 that was not handled belongs to an invalidation of
the page since whose return, if it has returned, no put of the page was called. -/
def Awaited (key : Key) (w : World Page) : Prop :=
  (∃ t, (w.calls t).message = some ((w.req.queues 1).handled.length, key)) ∨
    Since (Event.Awaits key (w.req.queues 1).handled.length) (Event.Puts key) w.log

/-- No put of the page is called between an answer that it is gone and the return
of the call; the metadata denies it only if no version of it is left; and the daemon
handles an awaited invalidation or a vain get of it only while no put of it is under
way. -/
def Careful (hash : HashFuncs) (cid : ℕ) (key : Key) (w : World Page) : WorldStep Page → Prop
  | .putPage _ ino index _ => pageKey cid ino index = key → ∀ t, ¬ (w.calls t).Missed key w.req
  | .run t _ => (w.calls t).looksUp = some key → w.Denies hash key → w.Absent hash key
  | .process qid _ => ∀ imm ∈ (w.req.queues qid).completions.head?,
      w.req.server.requestKey cid qid imm = some key →
      (if qid = 1 then w.Awaited key else w.req.server.kv.table.view (hash 0) key = none) →
      ¬ w.UnderWay key
  | _ => True

/-- Some call has learned that the page is gone, or the callers know. -/
def Over (key : Key) (w : World Page) : Prop :=
  (∃ t, (w.calls t).Missed key w.req) ∨ Gone key w.log

/-! ## Steps -/

/-- An invalidation is over once the metadata has denied its key or the daemon has
handled its message. -/
theorem dropped_step (hsound : w.Sound hash cid) (horderly : w.Orderly)
    (heffect : Effect hash exclusivePolicy cid w a w') {t : ℕ}
    (h : (w'.calls t).Dropped key w'.req) :
    (w.calls t).Dropped key w.req ∨
    (w.Denies hash key ∧ ∃ env, a = .run t env ∧ (w.calls t).looksUp = some key) ∨
    ∃ d call reply, a = .process 1 d ∧ call.1 = key ∧ w.Awaited key ∧
      ReqPath.Handles hash exclusivePolicy cid w.req w'.req 1 d call reply := by
  rcases quiet_or_handled heffect with ⟨-, hhandled⟩ | ⟨qid, d, req, rfl, hreq, rfl, hcalls⟩
  · replace h := h.of_handled hhandled
    cases heffect with
    | @entered a t' c e hidle henters =>
        refine Or.inl (of_setCall (t := t') (c := c) (fun hc => ?_) h)
        cases henters with
        | _ => exact absurd hc not_false
    | @moved t' env c c' af metadata hcall hlocal =>
        refine Or.inl (of_setCall (t := t') (c := c') (fun hc => ?_) h)
        rw [hcall]
        exact Call.Dropped.of_local hlocal hc
    | @denied t' env k c c' hcall hdenies hdenied =>
        by_cases ht : t = t'
        · subst ht
          rw [setCall_self] at h
          cases hdenied with
          | get page => exact absurd h not_false
          | inv =>
              obtain rfl : k = key := h
              exact Or.inr (Or.inl ⟨hdenies, env, rfl, by rw [hcall]; rfl⟩)
        · rw [setCall_of_ne ht] at h
          exact Or.inl h
    | @returned t' env c e hcall hreturns =>
        exact Or.inl (of_setCall (t := t') (c := .idle) (fun hc => absurd hc not_false) h)
    | @accepted t' env page put hcall hput =>
        exact Or.inl (of_setCall (t := t') (c := .add page) (fun hc => absurd hc not_false) h)
    | @asked t' qid env k page q hcall hqid hq =>
        exact Or.inl (of_setCall (t := t') (c := .wait k qid page) (fun hc => absurd hc not_false) h)
    | @asked2 t' env k q c hcall hq hc =>
        refine Or.inl (of_setCall (t := t') (c := c) (fun hm => ?_) h)
        -- the message is the last one made
        have hle := hsound.req.handled_le 1
        rcases hc with rfl | rfl
        · exact absurd hm.2 (Nat.not_lt.mpr hle)
        · exact absurd hm.2 (Nat.not_lt.mpr hle)
    | @answered t' qid env k page r q ret hcall hr hq hret =>
        exact Or.inl (of_setCall (t := t') (c := .got k ret (fillPage r page))
          (fun hc => absurd hc not_false) h)
    | @answered2 t' n env k q ret hcall hq =>
        refine Or.inl (of_setCall (t := t') (c := .sent2 k n ret) (fun hc => ?_) h)
        rw [hcall]
        exact hc
    | _ => exact Or.inl h
  · obtain ⟨call, reply, hhandles⟩ := hsound.req.handles hreq
    rw [hcalls] at h
    by_cases hqid : 1 = qid
    · subst hqid
      rcases h.of_handled_succ hhandles.handled with hold | hmessage
      · exact Or.inl hold
      · obtain ⟨raddr, hn⟩ := horderly.numbered t _ _ hmessage
        have hcall := Option.some.inj (hhandles.next.symm.trans hn)
        refine Or.inr (Or.inr ⟨d, call, reply, rfl, ?_, Or.inl ⟨t, hmessage⟩, hhandles⟩)
        rw [hcall]
    · exact Or.inl (h.of_handled (by rw [hhandles.other 1 hqid]))

theorem Careful.not_puts (h : w.Careful hash cid key a) {t : ℕ}
    (hmissed : (w.calls t).Missed key w.req) : ¬ a.Puts cid key := by
  intro hputs
  cases a with
  | putPage t' ino index page => exact h hputs t hmissed
  | _ => exact hputs

/-- A careful request that was handled in vain leaves the page absent. -/
theorem Absent.of_process (hsound : w.Sound hash cid) {qid : ℕ} {d : Draw}
    {call : Key × BitVec 64} {reply : Option (Reply Page)}
    (heffect : Effect hash exclusivePolicy cid w (.process qid d) w')
    (hhandles : ReqPath.Handles hash exclusivePolicy cid w.req w'.req qid d call reply)
    (hkey : call.1 = key) (hcareful : w.Careful hash cid key (.process qid d))
    (hmiss : if qid = 1 then w.Awaited key else w.req.server.kv.table.view (hash 0) key = none) :
    w'.Absent hash key := by
  subst hkey
  have hown := hsound.requested qid call (List.mem_of_getElem? hhandles.next)
  have hnone : ¬ w.UnderWay call.1 :=
    hcareful _ hhandles.completion hhandles.requestKey hmiss
  refine ⟨fun hunder => hnone (hunder.step hsound heffect not_false), ?_⟩
  split at hmiss
  next hqid =>
    subst hqid
    exact hhandles.inv hsound.server hown.1
  next =>
    cases hview : w'.req.server.kv.table.view (hash 0) call.1 with
    | none => rfl
    | some p =>
        rw [hhandles.view hsound.server hown.1 hview] at hmiss
        cases hmiss

/-- What a call has learned was learned while nothing was left of the page. -/
theorem missed_step (hsound : w.Sound hash cid) (horderly : w.Orderly)
    (hcareful : w.Careful hash cid key a) (heffect : Effect hash exclusivePolicy cid w a w') {t : ℕ}
    (h : (w'.calls t).Missed key w'.req) :
    (((w.calls t).Missed key w.req ∨ w.Absent hash key) ∧ ¬ a.Puts cid key) ∨
      w'.Absent hash key := by
  have hdenied : ∀ env, a = .run t env → (w.calls t).looksUp = some key → w.Denies hash key →
      w.Absent hash key ∧ ¬ a.Puts cid key := by
    rintro env rfl hlooks hdenies
    exact ⟨hcareful hlooks hdenies, not_false⟩
  rcases h with hanswered | hdropped
  · have hok : ∀ (r : Reply Page) (crc : BitVec 32) (page : Page) (ret : ℤ), Answers r →
        GetCall.writeMsg ⟨true, true, ⟨0, r.imm⟩, crc, page⟩ = some ret → ret ≠ 0 →
        r.payload = .empty := by
      intro r crc page ret hr hret hne
      rcases hr page crc with ⟨hzero, -⟩ | ⟨-, hempty⟩
      · exact absurd (Option.some.inj (hret.symm.trans hzero)) hne
      · exact hempty
    rcases answered_step hsound horderly heffect hok hanswered with
      hold | ⟨-, hdenies, env, ha, hlooks⟩ | ⟨qid, d, call, r, rfl, hne, hkey, hempty, hhandles⟩
    · exact Or.inl ⟨Or.inl (Or.inl hold), hcareful.not_puts (Or.inl hold)⟩
    · exact Or.inl ((hdenied env ha hlooks hdenies).imp_left Or.inr)
    · refine Or.inr (Absent.of_process hsound heffect hhandles hkey hcareful ?_)
      have hown := hsound.requested qid call (List.mem_of_getElem? hhandles.next)
      obtain ⟨r', hr', -, ⟨hnone, -⟩ | ⟨p, -, hpage⟩⟩ := hhandles.get hne hsound.server hown.1
      · rw [if_neg hne, ← hkey]
        exact hnone
      · cases hr'
        cases hempty.symm.trans hpage
  · rcases dropped_step hsound horderly heffect hdropped with
      hold | ⟨hdenies, env, ha, hlooks⟩ | ⟨d, call, reply, rfl, hkey, hawaited, hhandles⟩
    · exact Or.inl ⟨Or.inl (Or.inr hold), hcareful.not_puts (Or.inr hold)⟩
    · exact Or.inl ((hdenied env ha hlooks hdenies).imp_left Or.inr)
    · refine Or.inr (Absent.of_process hsound heffect hhandles hkey hcareful ?_)
      rw [if_pos rfl]
      exact hawaited

/-- The callers learn only what a call has learned before. -/
theorem gone_step (hsound : w.Sound hash cid) (horderly : w.Orderly)
    (hcareful : w.Careful hash cid key a) (heffect : Effect hash exclusivePolicy cid w a w')
    (h : Gone key w'.log) : (w.Over key ∧ ¬ a.Puts cid key) ∨ w'.Absent hash key := by
  rcases log_step heffect with
    ⟨hlog, hputs⟩ | ⟨t, c, e, henters, rfl⟩ | ⟨t, env, c, e, rfl, hcall, hreturns, rfl⟩ |
      ⟨d, rfl, hreq, hlog⟩
  · rw [hlog] at h
    exact Or.inl ⟨Or.inr h, hputs key⟩
  · rcases Gone.of_snoc h with ⟨hgone, hputs⟩ | hends | ⟨n, rfl, -⟩
    · refine Or.inl ⟨Or.inr hgone, fun hcall => ?_⟩
      obtain ⟨page, rfl, hkey⟩ := henters.puts hcall
      exact hputs hkey
    · cases henters with
      | _ => exact absurd hends not_false
    · cases henters
  · refine Or.inl ⟨?_, not_false⟩
    rcases Gone.of_snoc h with ⟨hgone, -⟩ | hends | ⟨n, rfl, -⟩
    · exact Or.inr hgone
    · refine Or.inl ⟨t, ?_⟩
      rw [hcall]
      cases hreturns with
      | put page ret => exact absurd hends not_false
      | get k ret page => exact Or.inl hends
      | inv k msg ret =>
          cases msg with
          | none => exact Or.inr hends
          | some n => exact Or.inr ⟨hends.1, horderly.read n hends.2⟩
    · cases hreturns
  · rw [hlog] at h
    rcases Gone.of_snoc h with ⟨hgone, -⟩ | hends | ⟨n, hn, hsince⟩
    · exact Or.inl ⟨Or.inr hgone, not_false⟩
    · exact absurd hends not_false
    · cases hn
      obtain ⟨call, reply, hhandles⟩ := hsound.req.handles hreq
      refine Or.inr (Absent.of_process hsound heffect hhandles ?_ hcareful ?_)
      · -- the message is that of the invalidation which has returned
        obtain ⟨pre, x, post, hsplit, hx, -⟩ := hsince
        cases x with
        | invReturn t k msg ret =>
            obtain ⟨rfl, rfl⟩ := hx
            obtain ⟨raddr, hcall⟩ := horderly.logged t _ k ret
              (by rw [hsplit]; exact List.mem_append_right _ List.mem_cons_self)
            rw [Option.some.inj (hhandles.next.symm.trans hcall)]
        | _ => exact absurd hx not_false
      · rw [if_pos rfl]
        exact Or.inr hsince

theorem over_step (hsound : w.Sound hash cid) (horderly : w.Orderly) (hwf : w.WellFormed cid a)
    (hown : longkeyToCid key = cid) (hcareful : w.Careful hash cid key a)
    (heffect : Effect hash exclusivePolicy cid w a w') (hover : w.Over key → w.Absent hash key)
    (h : w'.Over key) : w'.Absent hash key := by
  have habsent : w.Absent hash key → ¬ a.Puts cid key → w'.Absent hash key :=
    fun h hputs => h.step hsound hwf hown heffect hputs
  rcases h with ⟨t, hmissed⟩ | hgone
  · rcases missed_step hsound horderly hcareful heffect hmissed with
      ⟨hold | hold, hputs⟩ | hnew
    · exact habsent (hover (Or.inl ⟨t, hold⟩)) hputs
    · exact habsent hold hputs
    · exact hnew
  · rcases gone_step hsound horderly hcareful heffect hgone with ⟨hold, hputs⟩ | hnew
    · exact habsent (hover hold) hputs
    · exact hnew

/-! ## Runs -/

/-- What careful runs keep. -/
structure Settled (hash : HashFuncs) (key : Key) (w : World Page) : Prop where
  gone : w.Over key → w.Absent hash key
  hit : ∀ t, (w.calls t).Hit key w.req → ¬ Cold t key w.log
  coherent : Coherent key w.log

/-- A cold get has no page to return. -/
theorem Settled.not_stored (h : w.Settled hash key) {t : ℕ} (hcold : Cold t key w.log) :
    w.req.server.kv.table.view (hash 0) key = none :=
  (h.gone (Or.inr hcold.gone)).notStored

/-- A get in progress was cold before a step if it is after it. -/
theorem cold_step (heffect : Effect hash exclusivePolicy cid w a w') {t : ℕ}
    (hhit : (w'.calls t).Hit key w'.req) (h : Cold t key w'.log) : Cold t key w.log := by
  rcases log_step heffect with
    ⟨hlog, -⟩ | ⟨t', c, e, henters, rfl⟩ | ⟨t', env, c, e, -, -, hreturns, rfl⟩ | ⟨d, -, -, hlog⟩
  · rwa [hlog] at h
  · refine h.of_snoc ?_
    rintro rfl
    cases henters with
    | get ino index page =>
        change ((w.setCall t _).calls t).Hit _ w.req at hhit
        rw [setCall_self] at hhit
        exact hhit
  · refine h.of_snoc ?_
    rintro rfl
    cases hreturns
  · rw [hlog] at h
    exact h.of_snoc nofun

theorem Settled.hit_step (h : w.Settled hash key) (hsound : w.Sound hash cid)
    (horderly : w.Orderly) (heffect : Effect hash exclusivePolicy cid w a w') (t : ℕ)
    (hhit : (w'.calls t).Hit key w'.req) : ¬ Cold t key w'.log := by
  intro hcold
  have hbefore := cold_step heffect hhit hcold
  rcases World.hit_step hsound horderly heffect hhit with hold | hstored
  · exact h.hit t hold hbefore
  · exact hstored (h.not_stored hbefore)

theorem Settled.coherent_step (h : w.Settled hash key)
    (heffect : Effect hash exclusivePolicy cid w a w') : Coherent key w'.log := by
  rcases log_step heffect with
    ⟨hlog, -⟩ | ⟨t, c, e, henters, rfl⟩ | ⟨t, env, c, e, -, hcall, hreturns, rfl⟩ | ⟨d, -, -, hlog⟩
  · rw [hlog]
    exact h.coherent
  · refine h.coherent.snoc ?_
    rintro t' page rfl
    cases henters
  · refine h.coherent.snoc ?_
    rintro t' page rfl
    cases hreturns
    apply h.hit
    rw [hcall]
    exact ⟨rfl, rfl⟩
  · rw [hlog]
    exact h.coherent.snoc nofun

theorem Settled.step (h : w.Settled hash key) (hsound : w.Sound hash cid) (horderly : w.Orderly)
    (hwf : w.WellFormed cid a) (hown : longkeyToCid key = cid)
    (hcareful : w.Careful hash cid key a) (heffect : Effect hash exclusivePolicy cid w a w') :
    w'.Settled hash key where
  gone := over_step hsound horderly hwf hown hcareful heffect h.gone
  hit := h.hit_step hsound horderly heffect
  coherent := h.coherent_step heffect

/-- Nothing was learned yet. -/
theorem Settled.initial {startAddr : Value} {memPoolSize numClients numHash numBits : ℕ}
    {mem : Value → Slot Page} (hinit : (worldSystem hash exclusivePolicy cid
      (.new startAddr memPoolSize numClients numHash numBits mem)).init w) :
    w.Settled hash key := by
  have hlog := hinit.2.2.2.2
  constructor
  · intro _
    exact Absent.initial hinit
  · intro t hhit
    rw [hinit.2.2.2.1] at hhit
    exact absurd hhit not_false
  · intro pre t mid page post heq
    rw [hlog] at heq
    exact absurd heq.symm (List.append_ne_nil_of_right_ne_nil pre (List.cons_ne_nil _ _))

end World

/-- In every careful run a get that is called after its page was missed or
invalidated returns the page only if it was put again. -/
theorem get_coherent {Page : Type} (hash : HashFuncs) (exclusivePolicy : Bool) (startAddr : Value)
    (memPoolSize numClients numHash numBits : ℕ) (mem : Value → Slot Page) {cid : ℕ} {key : Key}
    (hcid : cid < numClients) (hown : longkeyToCid key = cid) {w₀ w : World Page}
    {as : List (WorldStep Page)}
    (hinit : (worldSystem hash exclusivePolicy cid
      (.new startAddr memPoolSize numClients numHash numBits mem)).init w₀)
    (hok : (worldSystem hash exclusivePolicy cid
      (.new startAddr memPoolSize numClients numHash numBits mem)).Meets
        (fun w a => w.WellFormed cid a ∧ w.Careful hash cid key a) w₀ as)
    (hrun : (worldSystem hash exclusivePolicy cid
      (.new startAddr memPoolSize numClients numHash numBits mem)).exec w₀ as = some w) :
    Coherent key w.log := by
  have hsettled : w.Settled hash key :=
    World.exec_keeps (P := fun w a => w.Careful hash cid key a) (I := fun w => w.Settled hash key)
      hcid (fun hsound horderly hwf hcareful heffect h =>
        h.step hsound horderly hwf hown hcareful heffect)
      hinit (World.Settled.initial hinit) hok hrun
  exact hsettled.coherent

/-! ## Runs of few threads -/

namespace World

variable {Page : Type} {hash : HashFuncs} {exclusivePolicy : Bool} {cid : ℕ} {S : Finset ℕ}
  {w : World Page} {a : WorldStep Page} {key : Key}

/-- A careful step of the threads of `S`, in a form that can be evaluated. -/
def CarefulAmong (hash : HashFuncs) (cid : ℕ) (S : Finset ℕ) (key : Key) (w : World Page)
    (a : WorldStep Page) : Prop :=
  (∀ t ∈ a.thread, t ∈ S) ∧
    match a with
    | .putPage _ ino index _ =>
        pageKey cid ino index = key → ∀ t ∈ S, ¬ (w.calls t).Missed key w.req
    | .run t _ =>
        (w.calls t).looksUp = some key → w.Denies hash key → w.AbsentAmong hash S key
    | .process qid _ =>
        ((w.req.queues qid).completions.head?.bind (w.req.server.requestKey cid qid)) = some key →
          ¬ w.UnderWayAmong S key
    | _ => True

instance [DecidableEq Page] : (a : WorldStep Page) → Decidable (w.CarefulAmong hash cid S key a)
  | .putPage _ _ _ _ | .run _ _ | .process _ _ => inferInstanceAs (Decidable (_ ∧ _))
  | .getPage _ _ _ _ | .invalidatePage _ _ _ | .worker _ | .processPut _ | .deliver _ | .server _
  | .updateFilter _ => inferInstanceAs (Decidable (_ ∧ True))

theorem Within.careful (h : w.Within S) (hamong : w.CarefulAmong hash cid S key a) :
    w.Careful hash cid key a := by
  cases a with
  | putPage t ino index page =>
      intro hkey t'
      by_cases ht' : t' ∈ S
      · exact hamong.2 hkey t' ht'
      · rw [h t' ht']
        rintro (hanswered | hdropped)
        · exact hanswered
        · exact hdropped
  | run t env => exact fun hlooks hdenies => h.absent (hamong.2 hlooks hdenies)
  | process qid d =>
      intro imm himm hkey _ hunder
      exact hamong.2 (Option.bind_eq_some_iff.mpr ⟨imm, himm, hkey⟩) (h.underWayAmong hunder)
  | _ => exact trivial

/-- A run of few threads is careful if it is among these threads. -/
theorem Within.meets_careful {s₀ : Server Page} (h : w.Within S) {as : List (WorldStep Page)}
    (hamong : (worldSystem hash exclusivePolicy cid s₀).Meets
      (fun w a => w.WellFormed cid a ∧ w.CarefulAmong hash cid S key a) w as) :
    (worldSystem hash exclusivePolicy cid s₀).Meets
      (fun w a => w.WellFormed cid a ∧ w.Careful hash cid key a) w as :=
  hamong.imp (J := Within S) (fun _ _ _ hw ha hs => hw.step ha.2.1 (step_effect hs))
    (fun _ _ hw ha => ⟨ha.1, hw.careful ha.2⟩) h

end World

/-! ## A put that comes late -/

section Late

/-- A client of the small daemon that has not connected. -/
def smallWorld (af : Option AccessFilter) (metadata : Metadata) : World ℕ where
  af := af
  metadata := metadata
  put := { queue := { keypageMmPool := fun _ => ⟨0, 0⟩ } }
  req := { server := Daemon.smallServer }

theorem smallWorld_init (hash : HashFuncs) (exclusivePolicy : Bool) (af : Option AccessFilter)
    (metadata : Metadata) :
    (worldSystem hash exclusivePolicy 0 Daemon.smallServer).init (smallWorld af metadata) :=
  ⟨⟨_, rfl⟩, rfl, rfl, rfl, rfl⟩

/-- The daemon's own steps do not need the client. -/
theorem server_trace {Page : Type} {hash : HashFuncs} {exclusivePolicy : Bool} {cid : ℕ}
    {s₀ t : Server Page} {w : World Page} {as : List (ServerStep Page)} :
    ∀ {s : Server Page}, (∀ a ∈ as, ¬ World.Reserved cid a) →
      ((Daemon.serverSystem hash exclusivePolicy s₀).Meets Server.WellFormed s as ∧
        (Daemon.serverSystem hash exclusivePolicy s₀).exec s as = some t) →
      (worldSystem hash exclusivePolicy cid s₀).Meets (World.WellFormed cid)
          { w with req := { w.req with server := s } } (as.map .server) ∧
        (worldSystem hash exclusivePolicy cid s₀).exec
          { w with req := { w.req with server := s } } (as.map .server) =
            some { w with req := { w.req with server := t } } := by
  induction as with
  | nil =>
      rintro s - ⟨-, hrun⟩
      cases hrun
      exact System.trace_nil _
  | cons a as ih =>
      rintro s hfree ⟨hwf, hrun⟩
      obtain ⟨m, hstep, hrest⟩ := System.exec_cons_some.mp hrun
      obtain ⟨⟨u, r⟩, hserver, rfl⟩ := Option.map_eq_some_iff.mp hstep
      refine System.trace_cons (m := { w with req := { w.req with server := u } }) hwf.1 ?_
        (ih (fun b hb => hfree b (List.mem_cons_of_mem _ hb)) ⟨hwf.2 _ hstep, hrest⟩)
      have hnot : ¬ World.Reserved cid a := hfree a List.mem_cons_self
      have hreq : ¬ ReqPath.Reserved cid a := by
        cases a with
        | writeImm c qid off words imm d => exact hnot
        | _ => exact not_false
      show (if World.Reserved cid a then none else _) = _
      rw [if_neg hnot]
      show (if ReqPath.Reserved cid a then none else _ : Option (ReqPath Page)).map _ = _
      rw [if_neg hreq]
      show ((s.step hash exclusivePolicy a).map _).map _ = _
      rw [hserver]
      rfl

/-- The small daemon when its client may also invalidate: queue 1 has receives
without a page. -/
def smallServed : Server ℕ := Daemon.started.postRest 1 0

def smallStartUp : List (WorldStep ℕ) :=
  (Daemon.startUp ++ [ServerStep.prePostRecvs 0 1]).map .server

/-- The client of the small daemon after the connection. -/
def servedWorld (af : Option AccessFilter) (metadata : Metadata) : World ℕ :=
  { smallWorld af metadata with req := { server := smallServed } }

theorem smallStartUp_trace (exclusivePolicy : Bool) (af : Option AccessFilter)
    (metadata : Metadata) :
    (worldSystem Daemon.keyHash exclusivePolicy 0 Daemon.smallServer).Meets (World.WellFormed 0)
      (smallWorld af metadata) smallStartUp ∧
    (worldSystem Daemon.keyHash exclusivePolicy 0 Daemon.smallServer).exec (smallWorld af metadata)
      smallStartUp = some (servedWorld af metadata) := by
  have hinv : Daemon.started.prePostRecvs 0 1 = smallServed :=
    Server.prePostRecvs_exhausted (by decide) (n := 0) (by decide) rfl
      (Option.isNone_iff_eq_none.mp (by decide +kernel))
  refine server_trace (w := smallWorld af metadata) ?_ (System.trace_append
    (Daemon.startUp_trace exclusivePolicy) (System.trace_cons (by decide +kernel)
      (Daemon.serverSystem_prePostRecvs hinv) (System.trace_nil _)))
  decide

/-- Key of the page that comes back. -/
def lateKey : Key := pageKey 0 2 0

/-- Another thread invalidates the page, and the daemon handles that. -/
def lateDrop : List (WorldStep ℕ) :=
  [.invalidatePage 1 2 0, .run 1 {}, .run 1 {}, .run 1 {}, .run 1 {}, .deliver 1, .process 1 {}]

/-- The item of a batch sends its first page, and the daemon stores it. -/
def firstStored : List (WorldStep ℕ) :=
  [.worker (.post 0), .worker .transmit, .processPut { rand := 6, inserts := [{}, {}] }]

/-- The page is put 32 times, and only after the invalidation does the item of the
batch run. -/
def lateBatch : List (WorldStep ℕ) :=
  (List.replicate 32 (WorldStep.putPage 0 2 0 7 :: List.replicate 5 (.run 0 {}))).flatten ++
    (lateDrop ++ firstStored)

def lateGet : List (WorldStep ℕ) :=
  [.getPage 1 2 0 0, .run 1 {}, .run 1 { raddr := 0x1000 }, .deliver 2, .run 1 {}, .process 2 {},
    .run 1 {}, .run 1 {}, .run 1 {}]

/-- What the callers have seen before the get. -/
def lateHistory : List (Event ℕ) :=
  (List.replicate 32 [Event.putCall 0 ⟨7, lateKey⟩, .putReturn 0 ⟨7, lateKey⟩ 0]).flatten ++
    [Event.invCall 1 lateKey, .invReturn 1 lateKey (some 0) 0, .invHandled 0]

theorem lateHistory_gone : Gone lateKey lateHistory := by
  refine ⟨_ ++ [Event.invCall 1 lateKey], .invReturn 1 lateKey (some 0) 0, [.invHandled 0],
    (List.append_assoc _ [Event.invCall 1 lateKey] _).symm, ⟨rfl, ?_⟩, ?_⟩
  · exact List.mem_append_right _ (by decide)
  · intro e he
    rw [List.mem_singleton.mp he]
    exact not_false

/-- A get after the invalidation returns the page that was put before it. -/
theorem invalidated_page_returns :
    (worldSystem Daemon.keyHash true 0 Daemon.smallServer).Meets (World.WellFormed 0)
      (smallWorld none .filterOff) (smallStartUp ++ (lateBatch ++ lateGet)) ∧
    ∃ w, (worldSystem Daemon.keyHash true 0 Daemon.smallServer).exec (smallWorld none .filterOff)
        (smallStartUp ++ (lateBatch ++ lateGet)) = some w ∧
      w.log = lateHistory ++ [Event.getCall 1 lateKey, .getReturn 1 lateKey 0 7] ∧
      ¬ Coherent lateKey w.log := by
  have hstart := smallStartUp_trace true none .filterOff
  have hlog : ((worldSystem Daemon.keyHash true 0 Daemon.smallServer).exec
      (servedWorld none .filterOff) (lateBatch ++ lateGet)).map World.log =
        some (lateHistory ++ [Event.getCall 1 lateKey, .getReturn 1 lateKey 0 7]) := by
    decide +kernel
  obtain ⟨w, hrun, hw⟩ := Option.map_eq_some_iff.mp hlog
  obtain ⟨hok, hexec⟩ := System.trace_append hstart ⟨by decide +kernel, hrun⟩
  refine ⟨hok, w, hexec, hw, fun hcoherent => ?_⟩
  obtain ⟨e, he, -⟩ := hcoherent lateHistory 1 [] 7 [] hw (fun _ => List.not_mem_nil)
    lateHistory_gone
  cases he

/-- Pages of one inode fill a batch, and the first one is stored. -/
def spreadBatch : List (WorldStep ℕ) :=
  (List.range 32).flatMap (fun i =>
    WorldStep.putPage 0 2 (BitVec.ofNat 64 i) 7 :: List.replicate 5 (.run 0 {})) ++ firstStored

def spreadHistory : List (Event ℕ) :=
  (List.range 32).flatMap (fun i =>
    let page : Slot ℕ := ⟨7, pageKey 0 2 (BitVec.ofNat 64 i)⟩
    [Event.putCall 0 page, .putReturn 0 page 0]) ++
      [Event.invCall 1 lateKey, .invReturn 1 lateKey (some 0) 0, .invHandled 0]

/-- The daemon drops the stored page for an invalidation, and a get misses it. -/
theorem get_coherent_dropped :
    ∃ w, (worldSystem Daemon.keyHash true 0 Daemon.smallServer).exec (smallWorld none .filterOff)
        (smallStartUp ++ (spreadBatch ++ (lateDrop ++ lateGet))) = some w ∧
      w.log = spreadHistory ++ [Event.getCall 1 lateKey, .getReturn 1 lateKey 1 0] ∧
      Coherent lateKey w.log := by
  obtain ⟨hwf, hstart⟩ := smallStartUp_trace true none .filterOff
  have hstart' := System.meets_and hwf (System.meets_of_mem (S := worldSystem _ _ _ _)
    (P := World.Careful Daemon.keyHash 0 lateKey) _ _ fun a ha w => by
      obtain ⟨b, -, rfl⟩ := List.mem_map.mp ha
      exact trivial)
  have hlog : ((worldSystem Daemon.keyHash true 0 Daemon.smallServer).exec
      (servedWorld none .filterOff) (spreadBatch ++ (lateDrop ++ lateGet))).map World.log =
        some (spreadHistory ++ [Event.getCall 1 lateKey, .getReturn 1 lateKey 1 0]) := by
    decide +kernel
  obtain ⟨w, hrun, hw⟩ := Option.map_eq_some_iff.mp hlog
  have hamong : (worldSystem Daemon.keyHash true 0 Daemon.smallServer).Meets
      (fun w a => w.WellFormed 0 a ∧ w.CarefulAmong Daemon.keyHash 0 {0, 1} lateKey a)
      (servedWorld none .filterOff) (spreadBatch ++ (lateDrop ++ lateGet)) := by
    decide +kernel
  have hwithin : (servedWorld none .filterOff).Within {0, 1} := fun _ _ => rfl
  have hcareful := hwithin.meets_careful hamong
  obtain ⟨hok, hexec⟩ := System.trace_append ⟨hstart', hstart⟩ ⟨hcareful, hrun⟩
  exact ⟨w, hexec, hw, get_coherent Daemon.keyHash true 4096 1048576 16 1 8 _ (by decide)
    (by decide) (smallWorld_init Daemon.keyHash true none .filterOff) hok hexec⟩

end Late

end CleancacheRdma.Driver
