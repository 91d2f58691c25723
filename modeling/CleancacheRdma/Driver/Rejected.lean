import Mathlib
import CleancacheRdma.Driver.Coherence

/-!
# Puts that are rejected

A put that the access filter refuses, or that finds the send buffer blocked, is
lost, and its caller ignores the error. Nothing then removes an older version of
the page.
-/

namespace CleancacheRdma.Driver

open Daemon (Slot Key Value HashFuncs Server ServerStep longkeyToCid)
open Lib (System Since since_snoc snoc_eq_append_cons)

/-! ## Histories -/

/-- A put of the key returns an error, other than that its page is clean. -/
def Event.Rejects {Page : Type} (key : Key) : Event Page → Prop
  | .putReturn _ page ret => page.key = key ∧ ret ≠ 0 ∧ ret ≠ -3
  | _ => False

/-- A put of the key was rejected, and no other was called since. -/
def Rejected {Page : Type} (key : Key) (log : List (Event Page)) : Prop :=
  Since (Event.Rejects key) (Event.Puts key) log

/-- After a put was rejected no get returns what a put before it had. -/
def LeavesNoOlder {Page : Type} (key : Key) (log : List (Event Page)) : Prop :=
  ∀ pre t content post, log = pre ++ Event.getReturn t key 0 content :: post → Rejected key pre →
    ∀ t' page, Event.putCall t' page ∈ pre → page.key = key → page.data ≠ content

theorem LeavesNoOlder.snoc {Page : Type} {key : Key} {log : List (Event Page)} {e : Event Page}
    (h : LeavesNoOlder key log)
    (he : ∀ t content, e = .getReturn t key 0 content → ¬ Rejected key log) :
    LeavesNoOlder key (log ++ [e]) := by
  intro pre t content post heq hrejected
  rcases snoc_eq_append_cons heq with ⟨-, hret, rfl⟩ | ⟨rest, rfl, hlog⟩
  · exact absurd hrejected (he t content hret.symm)
  · exact h pre t content rest hlog hrejected

namespace World

variable {Page : Type} {hash : HashFuncs} {exclusivePolicy : Bool} {cid : ℕ} {w w' : World Page}
  {a : WorldStep Page} {key : Key}

/-- No version of the page is left, nor an answer with one. -/
structure NoneLeft (hash : HashFuncs) (key : Key) (w : World Page) : Prop where
  absent : w.Absent hash key
  unanswered : ∀ t, ¬ (w.calls t).Hit key w.req

/-- A put of the page is rejected only while no version of it is left. -/
def RejectsNew (hash : HashFuncs) (key : Key) (w : World Page) : WorldStep Page → Prop
  | .run t _ => ∀ page ret, w.calls t = .putDone page ret → page.key = key → ret ≠ 0 → ret ≠ -3 →
      w.NoneLeft hash key
  | _ => True

theorem NoneLeft.step (h : w.NoneLeft hash key) (hsound : w.Sound hash cid) (horderly : w.Orderly)
    (hwf : w.WellFormed cid a) (hown : longkeyToCid key = cid)
    (heffect : Effect hash exclusivePolicy cid w a w') (hputs : ¬ a.Puts cid key) :
    w'.NoneLeft hash key := by
  refine ⟨h.absent.step hsound hwf hown heffect hputs, fun t hhit => ?_⟩
  rcases hit_step hsound horderly heffect hhit with hold | hstored
  · exact h.unanswered t hold
  · exact hstored h.absent.notStored

/-- A put is rejected by the return of its call. -/
theorem rejected_step (hcareful : w.RejectsNew hash key a)
    (heffect : Effect hash exclusivePolicy cid w a w')
    (hnone : Rejected key w.log → w.NoneLeft hash key) (h : Rejected key w'.log) :
    w.NoneLeft hash key ∧ ¬ a.Puts cid key := by
  rcases log_step heffect with
    ⟨hlog, hputs⟩ | ⟨t, c, e, henters, rfl⟩ | ⟨t, env, c, e, rfl, hcall, hreturns, rfl⟩ |
      ⟨d, rfl, -, hlog⟩
  · rw [hlog] at h
    exact ⟨hnone h, hputs key⟩
  · rcases since_snoc.mp h with hrejects | ⟨hold, hputs⟩
    · cases henters with
      | _ => exact absurd hrejects not_false
    · refine ⟨hnone hold, fun hcall => ?_⟩
      obtain ⟨page, rfl, hkey⟩ := henters.puts hcall
      exact hputs hkey
  · refine ⟨?_, not_false⟩
    rcases since_snoc.mp h with hrejects | ⟨hold, -⟩
    · cases hreturns with
      | put page ret =>
          obtain ⟨hkey, hzero, hclean⟩ := hrejects
          exact hcareful page ret hcall hkey hzero hclean
      | _ => exact absurd hrejects not_false
    · exact hnone hold
  · refine ⟨?_, not_false⟩
    rw [hlog] at h
    rcases since_snoc.mp h with hrejects | ⟨hold, -⟩
    · exact absurd hrejects not_false
    · exact hnone hold

/-- What runs keep in which only new pages are rejected. -/
structure Renewed (hash : HashFuncs) (key : Key) (w : World Page) : Prop where
  left : Rejected key w.log → w.NoneLeft hash key
  log : LeavesNoOlder key w.log

theorem Renewed.log_step (h : w.Renewed hash key)
    (heffect : Effect hash exclusivePolicy cid w a w') : LeavesNoOlder key w'.log := by
  rcases World.log_step heffect with
    ⟨hlog, -⟩ | ⟨t, c, e, henters, rfl⟩ | ⟨t, env, c, e, -, hcall, hreturns, rfl⟩ | ⟨d, -, -, hlog⟩
  · rw [hlog]
    exact h.log
  · refine h.log.snoc ?_
    rintro t' content rfl
    cases henters
  · refine h.log.snoc ?_
    rintro t' content rfl hrejected
    cases hreturns
    apply (h.left hrejected).unanswered t
    rw [hcall]
    exact ⟨rfl, rfl⟩
  · rw [hlog]
    exact h.log.snoc nofun

theorem Renewed.step (h : w.Renewed hash key) (hsound : w.Sound hash cid) (horderly : w.Orderly)
    (hwf : w.WellFormed cid a) (hown : longkeyToCid key = cid)
    (hcareful : w.RejectsNew hash key a) (heffect : Effect hash exclusivePolicy cid w a w') :
    w'.Renewed hash key := by
  refine ⟨fun hrejected => ?_, h.log_step heffect⟩
  obtain ⟨hnone, hputs⟩ := rejected_step hcareful heffect h.left hrejected
  exact hnone.step hsound horderly hwf hown heffect hputs

end World

/-- If puts of a page are rejected only while nothing is left of it, no get
returns an older version of it until the next put. -/
theorem rejected_put_leaves_no_older {Page : Type} (hash : HashFuncs) (exclusivePolicy : Bool)
    (startAddr : Value) (memPoolSize numClients numHash numBits : ℕ) (mem : Value → Slot Page)
    {cid : ℕ} {key : Key} (hcid : cid < numClients) (hown : longkeyToCid key = cid)
    {w₀ w : World Page} {as : List (WorldStep Page)}
    (hinit : (worldSystem hash exclusivePolicy cid
      (.new startAddr memPoolSize numClients numHash numBits mem)).init w₀)
    (hok : (worldSystem hash exclusivePolicy cid
      (.new startAddr memPoolSize numClients numHash numBits mem)).Meets
        (fun w a => w.WellFormed cid a ∧ w.RejectsNew hash key a) w₀ as)
    (hrun : (worldSystem hash exclusivePolicy cid
      (.new startAddr memPoolSize numClients numHash numBits mem)).exec w₀ as = some w) :
    LeavesNoOlder key w.log := by
  have hlog : w₀.log = [] := hinit.2.2.2.2
  have hinitial : w₀.Renewed hash key := by
    constructor
    · intro hrejected
      rw [Rejected, hlog] at hrejected
      exact absurd hrejected Lib.not_since_nil
    · intro pre t content post heq
      rw [hlog] at heq
      exact absurd heq.symm (List.append_ne_nil_of_right_ne_nil pre (List.cons_ne_nil _ _))
  have hrenewed : w.Renewed hash key :=
    World.exec_keeps (P := fun w a => w.RejectsNew hash key a) (I := fun w => w.Renewed hash key)
      hcid (fun hsound horderly hwf hcareful heffect h =>
        h.step hsound horderly hwf hown hcareful heffect)
      hinit hinitial hok hrun
  exact hrenewed.log

/-! ## Runs of few threads -/

namespace World

variable {Page : Type} {hash : HashFuncs} {exclusivePolicy : Bool} {cid : ℕ} {S : Finset ℕ}
  {w : World Page} {a : WorldStep Page} {key : Key}

/-- The return of a rejected put of the page. -/
def Rejecting (key : Key) : Call Page → Prop
  | .putDone page ret => page.key = key ∧ ret ≠ 0 ∧ ret ≠ -3
  | _ => False

instance : (c : Call Page) → Decidable (Rejecting key c)
  | .putDone _ _ => inferInstanceAs (Decidable (_ ∧ _ ∧ _))
  | .idle | .upsert _ _ _ | .put _ | .send _ | .add _ | .get _ _ | .msg _ _ | .wait _ _ _
  | .got _ _ _ | .inv _ | .msg2 _ | .wait2 _ _ | .sent2 _ _ _ | .getDone _ _ _
  | .invDone _ _ _ => isFalse not_false

/-- A step of the threads of `S` that rejects no put of a page of which something is left, in
a form that can be evaluated. -/
def RejectsNewAmong (hash : HashFuncs) (S : Finset ℕ) (key : Key) (w : World Page)
    (a : WorldStep Page) : Prop :=
  (∀ t ∈ a.thread, t ∈ S) ∧
    match a with
    | .run t _ => Rejecting key (w.calls t) →
        w.AbsentAmong hash S key ∧ ∀ t' ∈ S, ¬ (w.calls t').Hit key w.req
    | _ => True

instance : (a : WorldStep Page) → Decidable (w.RejectsNewAmong hash S key a)
  | .run _ _ => inferInstanceAs (Decidable (_ ∧ _))
  | .putPage _ _ _ _ | .getPage _ _ _ _ | .invalidatePage _ _ _ | .worker _ | .processPut _
  | .deliver _ | .process _ _ | .server _ | .updateFilter _ =>
      inferInstanceAs (Decidable (_ ∧ True))

theorem Within.rejectsNew (h : w.Within S) (hamong : w.RejectsNewAmong hash S key a) :
    w.RejectsNew hash key a := by
  cases a with
  | run t env =>
      intro page ret hcall hkey hzero hclean
      obtain ⟨habsent, hhit⟩ := hamong.2 (by rw [hcall]; exact ⟨hkey, hzero, hclean⟩)
      refine ⟨h.absent habsent, fun t' => ?_⟩
      by_cases ht' : t' ∈ S
      · exact hhit t' ht'
      · rw [h t' ht']
        exact not_false
  | _ => exact trivial

theorem Within.meets_rejectsNew {s₀ : Server Page} (h : w.Within S) {as : List (WorldStep Page)}
    (hamong : (worldSystem hash exclusivePolicy cid s₀).Meets
      (fun w a => w.WellFormed cid a ∧ w.RejectsNewAmong hash S key a) w as) :
    (worldSystem hash exclusivePolicy cid s₀).Meets
      (fun w a => w.WellFormed cid a ∧ w.RejectsNew hash key a) w as :=
  hamong.imp (J := Within S) (fun _ _ _ hw ha hs => hw.step ha.2.1 (step_effect hs))
    (fun _ _ hw ha => ⟨ha.1, hw.rejectsNew ha.2⟩) h

end World

/-! ## Puts close to the access before -/

/-- A thread goes back and forth over an inode. -/
def farIndices : List (BitVec 64) := [0, 32, 64] ++ ((List.replicate 14 [0, 32]).flatten ++ [0])

/-- Its pages fill a batch, and the daemon has stored the first one. -/
def farBatch : List (WorldStep ℕ) :=
  farIndices.flatMap (fun i => WorldStep.putPage 0 2 i 7 :: List.replicate 5 (.run 0 {})) ++
    firstStored

/-- The page is put again, close to the access before, and then another thread
gets it. -/
def putAndGet : List (WorldStep ℕ) :=
  [WorldStep.putPage 0 2 0 8, .run 0 {}, .run 0 {}] ++ lateGet

def farHistory : List (Event ℕ) :=
  farIndices.flatMap (fun i =>
    [Event.putCall 0 ⟨7, pageKey 0 2 i⟩, .putReturn 0 ⟨7, pageKey 0 2 i⟩ 0]) ++
      [Event.putCall 0 ⟨8, lateKey⟩, .putReturn 0 ⟨8, lateKey⟩ (-5), .getCall 1 lateKey]

/-- The put of byte 8 is refused, and the get returns byte 7. -/
theorem rejected_put_leaves_older :
    (worldSystem Daemon.keyHash true 0 Daemon.smallServer).Meets (World.WellFormed 0)
      (smallWorld (some .init) .filterOff) (smallStartUp ++ (farBatch ++ putAndGet)) ∧
    ∃ w, (worldSystem Daemon.keyHash true 0 Daemon.smallServer).exec
        (smallWorld (some .init) .filterOff) (smallStartUp ++ (farBatch ++ putAndGet)) = some w ∧
      w.log = farHistory ++ [.getReturn 1 lateKey 0 7] ∧ ¬ LeavesNoOlder lateKey w.log := by
  have hlog : ((worldSystem Daemon.keyHash true 0 Daemon.smallServer).exec
      (servedWorld (some .init) .filterOff) (farBatch ++ putAndGet)).map World.log =
        some (farHistory ++ [Event.getReturn 1 lateKey 0 7]) := by
    decide +kernel
  obtain ⟨w, hrun, hw⟩ := Option.map_eq_some_iff.mp hlog
  obtain ⟨hok, hexec⟩ := System.trace_append
    (smallStartUp_trace true (some .init) .filterOff) ⟨by decide +kernel, hrun⟩
  refine ⟨hok, w, hexec, hw, fun hnone => ?_⟩
  refine hnone farHistory 1 7 [] hw ?_ 0 ⟨7, lateKey⟩ (List.mem_append_left _ ?_) rfl rfl
  · exact ⟨_ ++ [Event.putCall 0 ⟨8, lateKey⟩], .putReturn 0 ⟨8, lateKey⟩ (-5),
      [.getCall 1 lateKey], (List.append_assoc _ [Event.putCall 0 ⟨8, lateKey⟩] _).symm,
      ⟨rfl, by decide, by decide⟩, by simp [Event.Puts]⟩
  · exact List.mem_flatMap.mpr ⟨0, List.mem_cons_self, List.mem_cons_self⟩

/-- A thread goes over an inode in wide steps and comes back near to its start. -/
def wideIndices : List (BitVec 64) := (List.range 31).map (fun i => BitVec.ofNat 64 (32 * i)) ++ [8]

/-- Its pages fill a batch, the first one is stored, and another thread takes it. -/
def wideBatch : List (WorldStep ℕ) :=
  wideIndices.flatMap (fun i => WorldStep.putPage 0 2 i 7 :: List.replicate 5 (.run 0 {})) ++
    (firstStored ++ lateGet)

def wideHistory : List (Event ℕ) :=
  wideIndices.flatMap (fun i =>
    [Event.putCall 0 ⟨7, pageKey 0 2 i⟩, .putReturn 0 ⟨7, pageKey 0 2 i⟩ 0]) ++
      [Event.getCall 1 lateKey, .getReturn 1 lateKey 0 7,
        .putCall 0 ⟨8, lateKey⟩, .putReturn 0 ⟨8, lateKey⟩ (-5)]

/-- The put of byte 8 is refused once byte 7 was taken, and the next get misses the page. -/
theorem rejected_put_leaves_no_older_taken :
    ∃ w, (worldSystem Daemon.keyHash true 0 Daemon.smallServer).exec
        (smallWorld (some .init) .filterOff) (smallStartUp ++ (wideBatch ++ putAndGet)) = some w ∧
      w.log = wideHistory ++ [Event.getCall 1 lateKey, .getReturn 1 lateKey 1 0] ∧
      LeavesNoOlder lateKey w.log := by
  obtain ⟨hwf, hstart⟩ := smallStartUp_trace true (some .init) .filterOff
  have hstart' := System.meets_and hwf (System.meets_of_mem (S := worldSystem _ _ _ _)
    (P := World.RejectsNew Daemon.keyHash lateKey) _ _ fun a ha w => by
      obtain ⟨b, -, rfl⟩ := List.mem_map.mp ha
      exact trivial)
  have hlog : ((worldSystem Daemon.keyHash true 0 Daemon.smallServer).exec
      (servedWorld (some .init) .filterOff) (wideBatch ++ putAndGet)).map World.log =
        some (wideHistory ++ [Event.getCall 1 lateKey, .getReturn 1 lateKey 1 0]) := by
    decide +kernel
  obtain ⟨w, hrun, hw⟩ := Option.map_eq_some_iff.mp hlog
  have hamong : (worldSystem Daemon.keyHash true 0 Daemon.smallServer).Meets
      (fun w a => w.WellFormed 0 a ∧ w.RejectsNewAmong Daemon.keyHash {0, 1} lateKey a)
      (servedWorld (some .init) .filterOff) (wideBatch ++ putAndGet) := by
    decide +kernel
  have hwithin : (servedWorld (some .init) .filterOff).Within {0, 1} := fun _ _ => rfl
  obtain ⟨hok, hexec⟩ :=
    System.trace_append ⟨hstart', hstart⟩ ⟨hwithin.meets_rejectsNew hamong, hrun⟩
  exact ⟨w, hexec, hw, rejected_put_leaves_no_older Daemon.keyHash true 4096 1048576 16 1 8 _
    (by decide) (by decide) (smallWorld_init Daemon.keyHash true (some .init) .filterOff) hok hexec⟩

end CleancacheRdma.Driver
