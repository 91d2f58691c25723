import Mathlib
import CleancacheRdma.Driver.Slots
import CleancacheRdma.Driver.WorldInv

/-!
# The counter of the put queue before it wraps

`PutQueue` counts its puts without a bound, `SlotQueue` as the `int` of the
source does. Below the sign bit they take the same steps: what the one accepts,
the other accepts too, in the same slot, and the same items are scheduled.
-/

namespace CleancacheRdma.Driver

open Daemon (Slot Key Value HashFuncs Server numMsgs)
open Lib (System)

theorem waitBit_natCast (m : ℕ) : waitBit (m : ℤ) = (m / numPutBatch : ℕ) := by
  rw [waitBit, Int.ofNat_tdiv]

namespace SlotQueue

variable {Page : Type} {q : SlotQueue} {s s' : PutRun Page}

/-- Counter, wait bits and items are those of the queue without a bound. -/
structure Tracks (q : SlotQueue) (s : PutRun Page) : Prop where
  msgId : q.msgId = BitVec.ofNat 32 s.queue.msgId
  wait : ∀ group < numMsgs / numPutBatch, q.wait (group : ℕ) = s.queue.wait group
  work : q.work.Perm (s.queue.pending.map fun data => (data.msgId : ℤ))
  accepted : q.accepted = s.accepted.length

theorem Tracks.slot (h : q.Tracks s) (hlt : s.queue.msgId < 2 ^ 31) :
    slotOf q.msgId = (s.queue.msgId % 512 : ℕ) := by
  rw [h.msgId]
  exact slotOf_natCast hlt

theorem Tracks.wait_slot (h : q.Tracks s) (hlt : s.queue.msgId < 2 ^ 31) :
    q.wait (waitBit (slotOf q.msgId)) = s.queue.wait (s.queue.msgId % 512 / 32) := by
  rw [h.slot hlt, waitBit_natCast]
  refine h.wait _ ?_
  show s.queue.msgId % 512 / 32 < 16
  omega

/-- The two queues accept the same puts. -/
theorem Tracks.ret (h : q.Tracks s) (hlt : s.queue.msgId < 2 ^ 31) (page : Slot Page) :
    q.sendPage.2 = (s.queue.sendPage page).2 := by
  have hbit := h.wait_slot hlt
  rcases s.queue.sendPage_cases page with ⟨hwait, hrej⟩ | ⟨hwait, q', hacc, -⟩
  · rw [hwait] at hbit
    rcases sendPage_cases q with ⟨-, heq⟩ | ⟨hopen, -⟩
    · rw [hrej, heq]
    · cases hbit.symm.trans hopen
  · rw [hwait] at hbit
    rcases sendPage_cases q with ⟨hshut, -⟩ | ⟨-, hret, -⟩
    · cases hbit.symm.trans hshut
    · rw [hacc, hret]

theorem Tracks.sendPage (h : q.Tracks s) (hlt : s.queue.msgId < 2 ^ 31) {page : Slot Page}
    (hstep : s.step (.sendPage page) = some s') : q.sendPage.1.Tracks s' := by
  have hret := h.ret hlt page
  have hslot := h.slot hlt
  cases hstep
  rcases s.queue.sendPage_cases page with
    ⟨-, hrej⟩ | ⟨-, q', hacc, hmsgId, hmtx, -, -, -, -, hfill⟩
  · rw [hrej] at hret
    rcases sendPage_cases q with ⟨-, heq⟩ | ⟨-, hzero, -⟩
    · rw [heq]
      simp only [hrej]
      exact h
    · cases hzero.symm.trans hret
  rw [hacc] at hret
  rcases sendPage_cases q with ⟨-, heq⟩ | ⟨-, -, hnext, hmore, hwork, hwait⟩
  · rw [heq] at hret
    cases hret
  have hlast : (slotOf q.msgId).tmod numPutBatch = numPutBatch - 1 ↔ s.queue.msgId % 32 = 31 := by
    rw [hslot, ← Int.ofNat_tmod]
    show ((s.queue.msgId % 512 % 32 : ℕ) : ℤ) = 32 - 1 ↔ _
    omega
  simp only [hacc, if_true]
  refine ⟨?_, fun group hgroup => ?_, ?_, ?_⟩
  · show _ = BitVec.ofNat 32 q'.msgId
    rw [hnext, hmsgId, h.msgId, BitVec.ofNat_add]
    rfl
  · show _ = q'.wait group
    rcases hfill with ⟨hno, hsame, -⟩ | ⟨hyes, hset, -⟩
    · rw [hwait, if_neg (hlast.not.mpr hno), hsame]
      exact h.wait group hgroup
    · rw [hwait, if_pos (hlast.mpr hyes), hset, hslot, waitBit_natCast]
      show Function.update q.wait ((s.queue.msgId % 512 / 32 : ℕ) : ℤ) true _ = _
      by_cases hg : group = s.queue.msgId % 512 / 32
      · rw [← hg, Function.update_self, Function.update_self]
      · rw [Function.update_of_ne (Int.ofNat_inj.not.mpr hg), Function.update_of_ne hg]
        exact h.wait group hgroup
  · show List.Perm _ (q'.pending.map _)
    have hold := h.work
    unfold PutQueue.pending at hold ⊢
    rw [hmtx]
    rcases hfill with ⟨hno, -, hsame⟩ | ⟨hyes, -, hset⟩
    · rw [hwork, if_neg (hlast.not.mpr hno), hsame]
      exact hold
    · rw [hwork, if_pos (hlast.mpr hyes), hset, hslot, List.append_assoc, List.map_append,
        List.map_append]
      rw [List.map_append] at hold
      refine (hold.append_right _).trans ?_
      rw [List.append_assoc]
      exact List.perm_append_comm.append_left _
  · rw [hmore, h.accepted, List.length_append]
    rfl

/-- Nothing of this depends on the sends, the wire and the replies. -/
theorem Tracks.congr (h : q.Tracks s) (hmsgId : s'.queue.msgId = s.queue.msgId)
    (hwait : s'.queue.wait = s.queue.wait) (hpending : s'.queue.pending.Perm s.queue.pending)
    (haccepted : s'.accepted = s.accepted) : q.Tracks s' := by
  refine ⟨?_, fun group hgroup => ?_, h.work.trans (hpending.map _).symm, ?_⟩
  · rw [hmsgId]
    exact h.msgId
  · rw [hwait]
    exact h.wait group hgroup
  · rw [haccepted]
    exact h.accepted

/-- The item of a batch is done. -/
theorem Tracks.clearBit (h : q.Tracks s) {queue : PutQueue Page}
    (hclear : s.queue.clearBit = some queue) :
    ∃ i q', q.step (.clearBit i) = some q' ∧ q'.Tracks { s with queue } := by
  obtain ⟨data, hmtx, rfl⟩ := PutQueue.clearBit_some hclear
  have hwork := h.work
  have hpending : s.queue.pending = s.queue.work ++ [data] := by
    unfold PutQueue.pending
    rw [hmtx]
  rw [hpending, List.map_append] at hwork
  have hmem : (data.msgId : ℤ) ∈ q.work :=
    hwork.mem_iff.mpr (List.mem_append_right _ (List.mem_singleton.mpr rfl))
  obtain ⟨i, hi, hget⟩ := List.mem_iff_getElem.mp hmem
  have hleft : (q.work.eraseIdx i).Perm (s.queue.work.map fun data => (data.msgId : ℤ)) := by
    have herase := List.getElem_cons_eraseIdx_perm hi
    rw [hget] at herase
    exact (herase.trans (hwork.trans (List.perm_append_singleton _ _))).cons_inv
  refine ⟨i, _, Option.map_eq_some_iff.mpr ⟨_, List.getElem?_eq_getElem hi, rfl⟩, h.msgId,
    fun group hgroup => ?_, ?_, h.accepted⟩
  · dsimp only
    rw [hget, waitBit_natCast]
    show Function.update q.wait ((data.msgId / 32 : ℕ) : ℤ) false _ = _
    by_cases hg : group = data.msgId / 32
    · rw [← hg, Function.update_self, Function.update_self]
    · rw [Function.update_of_ne (Int.ofNat_inj.not.mpr hg), Function.update_of_ne hg]
      exact h.wait group hgroup
  · have hnone : PutQueue.pending { s.queue with
        wait := Function.update s.queue.wait (data.msgId / 32) false
        mtx := if data.msgId = 511 then .polling else .free } = s.queue.work := by
      unfold PutQueue.pending
      dsimp only
      split_ifs
      · exact List.append_nil _
      · exact List.append_nil _
    rw [hnone]
    exact hleft

/-- Each step of the one queue is a step of the other or none. -/
theorem Tracks.step (h : q.Tracks s) {a : PutStep Page}
    (hlt : ∀ page, a = .sendPage page → s.queue.msgId < 2 ^ 31) (hstep : s.step a = some s') :
    ∃ bs q', slotSystem.exec q bs = some q' ∧ q'.Tracks s' := by
  have hidle : q.Tracks s' → ∃ bs q', slotSystem.exec q bs = some q' ∧ q'.Tracks s' :=
    fun h' => ⟨[], q, rfl, h'⟩
  cases a with
  | sendPage page =>
      exact ⟨[.sendPage], _, rfl, h.sendPage (hlt page rfl) hstep⟩
  | post i =>
      obtain ⟨queue, hpost, rfl⟩ := Option.map_eq_some_iff.mp hstep
      obtain ⟨data, hmtx, hdata, rfl⟩ := PutQueue.post_some hpost
      obtain ⟨hi, hget⟩ := List.getElem?_eq_some_iff.mp hdata
      refine hidle (h.congr rfl rfl ?_ rfl)
      unfold PutQueue.pending
      rw [hmtx]
      dsimp only
      rw [List.append_nil, ← hget]
      exact (List.perm_append_singleton _ _).trans (List.getElem_cons_eraseIdx_perm hi)
  | transmit =>
      obtain ⟨queue, htransmit, rfl⟩ := Option.map_eq_some_iff.mp hstep
      obtain ⟨wr, sends, -, rfl⟩ := PutQueue.transmit_some htransmit
      exact hidle (h.congr rfl rfl (List.Perm.refl _) rfl)
  | pollSendCq =>
      obtain ⟨queue, hpoll, rfl⟩ := Option.map_eq_some_iff.mp hstep
      obtain ⟨data, hmtx, -, rfl⟩ := PutQueue.pollSendCq_some hpoll
      refine hidle (h.congr rfl rfl (List.Perm.of_eq ?_) rfl)
      unfold PutQueue.pending
      rw [hmtx]
  | clearBit =>
      obtain ⟨queue, hclear, rfl⟩ := Option.map_eq_some_iff.mp hstep
      obtain ⟨i, q', hq', htracks⟩ := h.clearBit hclear
      exact ⟨[.clearBit i], q', System.exec_cons_some.mpr ⟨q', hq', rfl⟩, htracks⟩
  | receive =>
      simp only [PutRun.step] at hstep
      split at hstep
      · cases hstep
      · cases hstep
        exact hidle (h.congr rfl rfl (List.Perm.refl _) rfl)
  | reply imm =>
      cases hstep
      exact hidle (h.congr rfl rfl (List.Perm.refl _) rfl)
  | pollRecvCq =>
      obtain ⟨queue, hpoll, rfl⟩ := Option.map_eq_some_iff.mp hstep
      obtain ⟨imm, replies, hmtx, -, rfl⟩ := PutQueue.pollRecvCq_some hpoll
      refine hidle (h.congr rfl rfl (List.Perm.of_eq ?_) rfl)
      unfold PutQueue.pending
      rw [hmtx]

end SlotQueue

/-! ## Runs -/

/-- The queue of the source gets to where the queue without a bound is. -/
def PutRun.Tracked {Page : Type} (s : PutRun Page) : Prop :=
  ∃ q, slotSystem.Reachable q ∧ q.Tracks s

namespace PutRun

variable {Page : Type} {s s' : PutRun Page}

theorem Initial.tracked (h : s.Initial) : s.Tracked := by
  obtain ⟨pool, rfl⟩ := h
  exact ⟨{ wait := fun _ => false }, ⟨_, [], ⟨_, fun _ _ => rfl, rfl⟩, rfl⟩, rfl,
    fun _ _ => rfl, List.Perm.refl _, rfl⟩

theorem Tracked.step (h : s.Tracked) {a : PutStep Page}
    (hlt : ∀ page, a = .sendPage page → s.queue.msgId < 2 ^ 31) (hstep : s.step a = some s') :
    s'.Tracked := by
  obtain ⟨q, ⟨q₀, as, hinit, hexec⟩, htracks⟩ := h
  obtain ⟨bs, q', hq', htracks'⟩ := htracks.step hlt hstep
  exact ⟨q', ⟨q₀, as ++ bs, hinit, System.exec_append_some.mpr ⟨q, hexec, hq'⟩⟩, htracks'⟩

/-- As long as the next put does not find a wrapped counter, it has the slot and
the outcome of the source. -/
theorem Tracked.next (h : s.Tracked) (hlt : s.queue.msgId < 2 ^ 31) :
    ∃ q, slotSystem.Reachable q ∧ q.InRange ∧ slotOf q.msgId = (s.queue.msgId % numMsgs : ℕ) ∧
      ∀ page, q.sendPage.2 = (s.queue.sendPage page).2 := by
  obtain ⟨q, hreach, htracks⟩ := h
  refine ⟨q, hreach, ?_, htracks.slot hlt, htracks.ret hlt⟩
  have hcounted := SlotQueue.Counted.of_reachable hreach
  refine hcounted.inRange_iff.mpr (Or.inl ?_)
  have heq : (BitVec.ofNat 32 q.accepted).toNat = (BitVec.ofNat 32 s.queue.msgId).toNat :=
    congrArg BitVec.toNat (hcounted.symm.trans htracks.msgId)
  rw [BitVec.toNat_ofNat, BitVec.toNat_ofNat] at heq
  omega

end PutRun

/-- In every run in which no put finds a wrapped counter the queue is that of the source. -/
theorem putQueue_tracked {Page : Type} {s₀ s : PutRun Page} {as : List (PutStep Page)}
    (hinit : (putSystem Page).init s₀)
    (hok : (putSystem Page).Meets
      (fun s a => ∀ page, a = .sendPage page → s.queue.msgId < 2 ^ 31) s₀ as)
    (hrun : (putSystem Page).exec s₀ as = some s) : s.Tracked :=
  System.exec_invariant (I := PutRun.Tracked) (fun _ _ _ h ha hstep => h.step ha hstep)
    (PutRun.Initial.tracked hinit) hok hrun

/-- The same where driver and daemon run together. -/
theorem World.put_tracked {Page : Type} (hash : HashFuncs) (exclusivePolicy : Bool)
    (startAddr : Value) (memPoolSize numClients numHash numBits : ℕ) (mem : Value → Slot Page)
    {cid : ℕ} (hcid : cid < numClients) {w₀ w : World Page} {as : List (WorldStep Page)}
    (hinit : (worldSystem hash exclusivePolicy cid
      (.new startAddr memPoolSize numClients numHash numBits mem)).init w₀)
    (hok : (worldSystem hash exclusivePolicy cid
      (.new startAddr memPoolSize numClients numHash numBits mem)).Meets
        (World.WellFormed cid) w₀ as)
    (hrun : (worldSystem hash exclusivePolicy cid
      (.new startAddr memPoolSize numClients numHash numBits mem)).exec w₀ as = some w) :
    w.put.Tracked := by
  refine World.exec_keeps (P := fun _ _ => True) (I := fun w => w.put.Tracked) hcid ?_ hinit
    (PutRun.Initial.tracked hinit.1) ?_ hrun
  · rintro w w' a - - hwf - heffect h
    cases heffect with
    | accepted hcall hput => exact h.step (fun _ _ => hwf.puts) hput
    | worked ha hput => exact h.step (fun page heq => absurd heq (ha page)) hput
    | tookPut hwire hserver =>
        obtain ⟨q, hreach, htracks⟩ := h
        exact ⟨q, hreach, htracks.congr rfl rfl (List.Perm.refl _) rfl⟩
    | _ => exact h
  · exact System.meets_and hok (System.meets_of_mem _ _ fun _ _ _ => trivial)

end CleancacheRdma.Driver
