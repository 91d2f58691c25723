import Mathlib
import CleancacheRdma.Driver.PutQueue
import CleancacheRdma.Driver.Matching

/-!
# Message slots of a wrapping counter

`q->msg_id` is an `int`, and the operators `%` and `/` of `int`s round towards
zero. While the counter is not negative the slot computed from it is in range,
and with it every address computed from the slot. On its negative half the slot
is negative too, except where it is 0.
-/

namespace CleancacheRdma.Driver

open Daemon (HashFuncs MsgType TxState ImmFields bitMask bitUnmask numMsgs bitUnmask_bitMask)
open Lib (System)

/-! ## Addresses of a slot -/

/-- `PAGE_SIZE + sizeof(u64)`. -/
def slotSize : ℕ := 4096 + 8

/-- The size of `keypage_mm_pool`. -/
def keypageMmPoolSize : ℕ := slotSize * numMsgs

/-- `off` of `copy_to_send_buffer`: the `int` is widened, then multiplied. -/
def copyOffset (msgId : ℤ) : BitVec 64 := BitVec.ofInt 64 msgId * BitVec.ofNat 64 slotSize

/-- The bit of `ctrl->wait` for the batch of a slot. -/
def waitBit (msgId : ℤ) : ℤ := msgId.tdiv numPutBatch

/-- All that is computed from a slot stays where it belongs. -/
structure SlotFits (msgId : ℤ) : Prop where
  nonneg : 0 ≤ msgId
  lt : msgId < numMsgs
  copy : (copyOffset msgId).toNat + slotSize ≤ keypageMmPoolSize
  bit : 0 ≤ waitBit msgId ∧ waitBit msgId < (numMsgs / numPutBatch : ℕ)
  mid : ∀ msg tx : ℕ, msg < 2 ^ 4 → tx < 2 ^ 4 →
    ((bitUnmask (bitMask (BitVec.ofInt 32 msgId).toNat msg tx 0 0)).mid : ℤ) = msgId
  remote : metadataSize * 1 + getMetadataSize ≤ (getMetadataOffset 1 msgId .invPage).toNat ∧
    (getMetadataOffset 1 msgId .invPage).toNat + 8 ≤ metadataSize * 2

theorem slotFits_natCast {m : ℕ} (hm : m < numMsgs) : SlotFits (m : ℤ) := by
  have hlt : m < 512 := hm
  constructor
  · exact Int.natCast_nonneg m
  · exact Int.ofNat_lt.mpr hm
  · show (BitVec.ofInt 64 (m : ℤ) * BitVec.ofNat 64 4104).toNat + 4104 ≤ 4104 * 512
    have hval : (BitVec.ofInt 64 (m : ℤ)).toNat = m := by
      rw [BitVec.ofInt_natCast, BitVec.toNat_ofNat]
      omega
    have hsize : (BitVec.ofNat 64 4104).toNat = 4104 := rfl
    rw [BitVec.toNat_mul, hval, hsize, Nat.mod_eq_of_lt (by omega)]
    omega
  · show 0 ≤ ((m : ℤ).tdiv (32 : ℕ)) ∧ (m : ℤ).tdiv (32 : ℕ) < ((512 / 32 : ℕ) : ℤ)
    rw [← Int.ofNat_tdiv]
    omega
  · intro msg tx hmsg htx
    have hval : (BitVec.ofInt 32 (m : ℤ)).toNat = m := by
      rw [BitVec.ofInt_natCast, BitVec.toNat_ofNat]
      omega
    have hfits : (⟨m, msg, tx, 0, 0⟩ : ImmFields).Fits :=
      ⟨show m < 4096 by omega, hmsg, htx, (by decide : 0 < 2 ^ 4), (by decide : 0 < 2 ^ 8)⟩
    rw [hval]
    exact congrArg (fun f : ImmFields => (f.mid : ℤ)) (bitUnmask_bitMask hfits)
  · have hoff : (getMetadataOffset 1 (m : ℤ) .invPage).toNat = Daemon.invKeyOffset 1 m :=
      invRequest_off hm 0
    rw [hoff]
    show 4112 * 1 + 16 ≤ 4112 * 1 + 16 + m * 8 ∧ 4112 * 1 + 16 + m * 8 + 8 ≤ 4112 * 2
    omega

/-! ## Slots of a counter -/

/-- A counter that has been stepped `n` times is not in its negative half, or it
is a multiple of the number of slots. -/
def CounterFits (n : ℕ) : Prop := n % 2 ^ 32 < 2 ^ 31 ∨ n % numMsgs = 0

instance (n : ℕ) : Decidable (CounterFits n) := inferInstanceAs (Decidable (_ ∨ _))

/-- The slot on the upper half is the distance to the next wrap, counted down
from 0. -/
theorem slotOf_ofNat (n : ℕ) :
    slotOf (BitVec.ofNat 32 n) =
      if n % 2 ^ 32 < 2 ^ 31 then ((n % numMsgs : ℕ) : ℤ)
      else -(((2 ^ 32 - n % 2 ^ 32) % numMsgs : ℕ) : ℤ) := by
  have hmsgs : numMsgs = 512 := rfl
  have hlt : n % 2 ^ 32 < 2 ^ 32 := Nat.mod_lt n (by decide)
  have hint : (BitVec.ofNat 32 n).toInt =
      if n % 2 ^ 32 < 2 ^ 31 then ((n % 2 ^ 32 : ℕ) : ℤ) else -((2 ^ 32 - n % 2 ^ 32 : ℕ) : ℤ) := by
    rw [BitVec.toInt_eq_toNat_cond, BitVec.toNat_ofNat]
    split
    · rw [if_pos (by omega)]
    · rw [if_neg (by omega)]
      omega
  rw [slotOf, hint, hmsgs]
  split
  · rw [← Int.ofNat_tmod]
    have hmod : n % 2 ^ 32 % 512 = n % 512 := by omega
    rw [hmod]
  · rw [Int.neg_tmod, ← Int.ofNat_tmod]

theorem slotOf_nonneg_iff (n : ℕ) : 0 ≤ slotOf (BitVec.ofNat 32 n) ↔ CounterFits n := by
  have hmsgs : numMsgs = 512 := rfl
  rw [slotOf_ofNat, CounterFits, hmsgs]
  split
  next hlow => exact iff_of_true (Int.natCast_nonneg _) (Or.inl hlow)
  next hhigh =>
    rw [or_iff_right hhigh]
    omega

/-- Where the counter fits, the slot is the remainder of the number of steps. -/
theorem slotOf_of_fits {n : ℕ} (h : CounterFits n) :
    slotOf (BitVec.ofNat 32 n) = ((n % numMsgs : ℕ) : ℤ) := by
  have hmsgs : numMsgs = 512 := rfl
  rw [slotOf_ofNat]
  split
  · rfl
  next hhigh =>
    have hzero : n % numMsgs = 0 := h.resolve_left hhigh
    rw [hzero]
    rw [hmsgs] at hzero ⊢
    omega

theorem slotFits_iff (n : ℕ) : SlotFits (slotOf (BitVec.ofNat 32 n)) ↔ CounterFits n := by
  constructor
  · intro h
    exact (slotOf_nonneg_iff n).mp h.nonneg
  · intro h
    rw [slotOf_of_fits h]
    exact slotFits_natCast (slot_lt n)

/-! ## Queue 0 -/

/-- The counter of queue 0 as it wraps, and the memory around `ctrl->wait`, bit
by bit: only the bits from 0 to 63 are those of `wait`. `work` are the slots of
the scheduled items; the history is the number of puts that returned 0. -/
structure SlotQueue where
  msgId : BitVec 32 := 0
  wait : ℤ → Bool
  work : List ℤ := []
  accepted : ℕ := 0

inductive SlotStep where
  | sendPage
  | clearBit (i : ℕ)
  | other (bit : ℤ) (b : Bool)

namespace SlotQueue

variable (q : SlotQueue)

/-- `dcc_rdma_send_page`; the outcome is that of the last test of the bit. -/
def sendPage : SlotQueue × ℤ :=
  let msgId := slotOf q.msgId
  let q := { q with msgId := q.msgId + 1 }
  if q.wait (waitBit msgId) then ({ q with msgId := q.msgId - 1 }, -6)
  else
    let q := { q with accepted := q.accepted + 1 }
    if msgId.tmod numPutBatch ≠ numPutBatch - 1 then (q, 0)
    else
      ({ q with
         wait := Function.update q.wait (waitBit msgId) true
         work := q.work ++ [msgId] }, 0)

/-- A bit of `ctrl->wait`; what lies around it changes as it likes. -/
def IsWaitBit (bit : ℤ) : Prop := 0 ≤ bit ∧ bit < 64

instance (bit : ℤ) : Decidable (IsWaitBit bit) := inferInstanceAs (Decidable (_ ∧ _))

/-- `clearBit` is a scheduled item that has sent its batch. -/
def step : SlotStep → Option SlotQueue
  | .sendPage => some q.sendPage.1
  | .clearBit i =>
      q.work[i]?.map fun msgId =>
        { q with wait := Function.update q.wait (waitBit msgId) false, work := q.work.eraseIdx i }
  | .other bit b =>
      if IsWaitBit bit then none else some { q with wait := Function.update q.wait bit b }

/-- The next accepted put completes a batch. -/
def Completes : Prop := q.sendPage.1.work = q.work ++ [slotOf q.msgId]

/-- The slot of the next put fits, and if the put is accepted it completes a
batch just when it is the 32nd since the last. -/
structure InRange : Prop where
  fits : SlotFits (slotOf q.msgId)
  batch : q.sendPage.2 = 0 → (q.Completes ↔ (q.accepted + 1) % numPutBatch = 0)

end SlotQueue

def slotSystem : System SlotQueue SlotStep where
  init q := ∃ wait, (∀ bit, SlotQueue.IsWaitBit bit → wait bit = false) ∧ q = { wait }
  step := SlotQueue.step

namespace SlotQueue

variable {q q' : SlotQueue}

/-- A put that is given up steps the counter back. -/
theorem sendPage_cases (q : SlotQueue) :
    (q.wait (waitBit (slotOf q.msgId)) = true ∧ q.sendPage = (q, -6)) ∨
    (q.wait (waitBit (slotOf q.msgId)) = false ∧ q.sendPage.2 = 0 ∧
      q.sendPage.1.msgId = q.msgId + 1 ∧ q.sendPage.1.accepted = q.accepted + 1 ∧
      q.sendPage.1.work =
        (if (slotOf q.msgId).tmod numPutBatch = numPutBatch - 1 then q.work ++ [slotOf q.msgId]
        else q.work) ∧
      q.sendPage.1.wait =
        if (slotOf q.msgId).tmod numPutBatch = numPutBatch - 1 then
          Function.update q.wait (waitBit (slotOf q.msgId)) true
        else q.wait) := by
  unfold sendPage
  dsimp only
  split
  next hwait =>
    refine Or.inl ⟨hwait, ?_⟩
    rw [BitVec.add_sub_cancel]
  next hwait =>
    refine Or.inr ⟨Bool.eq_false_iff.mpr hwait, ?_⟩
    split
    · exact ⟨rfl, rfl, rfl, rfl, rfl⟩
    next hbatch =>
      have hlast := not_not.mp hbatch
      exact ⟨rfl, rfl, rfl, (if_pos hlast).symm, (if_pos hlast).symm⟩

/-- The counter has been stepped once for each accepted put. -/
def Counted (q : SlotQueue) : Prop := q.msgId = BitVec.ofNat 32 q.accepted

theorem Counted.sendPage (h : q.Counted) : q.sendPage.1.Counted := by
  rcases sendPage_cases q with ⟨-, heq⟩ | ⟨-, -, hmsgId, haccepted, -⟩
  · rw [heq]
    exact h
  · unfold Counted
    rw [hmsgId, haccepted, h, BitVec.ofNat_add]
    rfl

theorem Counted.step (h : q.Counted) {a : SlotStep} (hstep : q.step a = some q') : q'.Counted := by
  cases a with
  | sendPage =>
      cases hstep
      exact h.sendPage
  | clearBit i =>
      obtain ⟨msgId, -, rfl⟩ := Option.map_eq_some_iff.mp hstep
      exact h
  | other bit b =>
      simp only [SlotQueue.step] at hstep
      split at hstep
      · cases hstep
      · cases hstep
        exact h

theorem Counted.of_reachable (hreach : slotSystem.Reachable q) : q.Counted := by
  refine hreach.invariant ?_ fun _ _ _ h hstep => h.step hstep
  rintro _ ⟨wait, -, rfl⟩
  rfl

theorem Counted.inRange_iff (h : q.Counted) : q.InRange ↔ CounterFits q.accepted := by
  have hslot : slotOf q.msgId = slotOf (BitVec.ofNat 32 q.accepted) := congrArg slotOf h
  constructor
  · intro hrange
    rw [← slotFits_iff, ← hslot]
    exact hrange.fits
  · intro hfits
    refine ⟨?_, fun hret => ?_⟩
    · rw [hslot]
      exact (slotFits_iff _).mpr hfits
    · rcases sendPage_cases q with ⟨-, heq⟩ | ⟨-, -, -, -, hwork, -⟩
      · rw [heq] at hret
        cases hret
      · have hmsgs : numMsgs = 512 := rfl
        have hbatch : numPutBatch = 32 := rfl
        have hlast : (slotOf q.msgId).tmod numPutBatch = numPutBatch - 1 ↔
            (q.accepted + 1) % numPutBatch = 0 := by
          rw [hslot, slotOf_of_fits hfits, ← Int.ofNat_tmod, hmsgs, hbatch]
          omega
        unfold Completes
        rw [hwork, ← hlast]
        split
        next hyes => exact iff_of_true rfl hyes
        next hno => exact iff_of_false (by simp) hno

/-! ### Every number of puts is reached -/

/-- Nothing of the queue is under way. -/
structure Idle (q : SlotQueue) : Prop where
  wait : ∀ bit, q.wait bit = false
  work : q.work = []

/-- A put to an idle queue is accepted, and the item it may have scheduled runs. -/
theorem Idle.exists_put (h : q.Idle) (hreach : slotSystem.Reachable q) :
    ∃ q', slotSystem.Reachable q' ∧ q'.Idle ∧ q'.accepted = q.accepted + 1 := by
  obtain ⟨q₀, as, hinit, hexec⟩ := hreach
  have hsend : slotSystem.exec q₀ (as ++ [.sendPage]) = some q.sendPage.1 :=
    System.exec_snoc_some.mpr ⟨q, hexec, rfl⟩
  obtain ⟨msgId, wait, work, accepted⟩ := q
  obtain ⟨hwait, hwork⟩ := h
  dsimp only at hwait hwork ⊢
  subst hwork
  have hfree : wait (waitBit (slotOf msgId)) = false := hwait _
  simp only [sendPage, hfree] at hsend
  by_cases hbatch : (slotOf msgId).tmod numPutBatch = numPutBatch - 1
  · -- the item clears the bit again
    rw [if_neg (by simp), if_neg (not_not.mpr hbatch)] at hsend
    let bits := Function.update (Function.update wait (waitBit (slotOf msgId)) true)
      (waitBit (slotOf msgId)) false
    have hclear : slotSystem.exec q₀ (as ++ [.sendPage] ++ [.clearBit 0]) =
        some { msgId := msgId + 1, wait := bits, work := [], accepted := accepted + 1 } :=
      System.exec_snoc_some.mpr ⟨_, hsend, rfl⟩
    refine ⟨_, ⟨q₀, _, hinit, hclear⟩, ⟨fun bit => ?_, rfl⟩, rfl⟩
    show Function.update (Function.update wait _ true) _ false bit = false
    rw [Function.update_idem]
    by_cases hbit : bit = waitBit (slotOf msgId)
    · rw [hbit, Function.update_self]
    · rw [Function.update_of_ne hbit, hwait]
  · rw [if_neg (by simp), if_pos hbatch] at hsend
    exact ⟨_, ⟨q₀, _, hinit, hsend⟩, ⟨hwait, rfl⟩, rfl⟩

theorem exists_accepted (n : ℕ) : ∃ q, slotSystem.Reachable q ∧ q.Idle ∧ q.accepted = n := by
  induction n with
  | zero =>
      exact ⟨{ wait := fun _ => false }, ⟨_, [], ⟨_, fun _ _ => rfl, rfl⟩, rfl⟩,
        ⟨fun _ => rfl, rfl⟩, rfl⟩
  | succ n ih =>
      obtain ⟨q, hreach, hidle, rfl⟩ := ih
      exact hidle.exists_put hreach

end SlotQueue

/-! ## Queue 1 -/

namespace ReqPath

variable {Page : Type} {hash : HashFuncs} {exclusivePolicy : Bool} {cid : ℕ} {s s' : ReqPath Page}

/-- The counter of queue 1 has been stepped once for each call. -/
def Counted (s : ReqPath Page) : Prop :=
  (s.queues 1).msgId = BitVec.ofNat 32 (s.queues 1).calls.length

theorem Counted.setQueue (h : s.Counted) {qid : ℕ} {q : ReqQueue Page}
    (hq : qid = 1 → q.msgId = BitVec.ofNat 32 q.calls.length) : (s.setQueue qid q).Counted := by
  by_cases hqid : qid = 1
  · subst hqid
    have hself : (s.setQueue 1 q).queues 1 = q := by
      simp only [ReqPath.setQueue, Function.update_self]
    rw [Counted, hself]
    exact hq rfl
  · have hsame : (s.setQueue qid q).queues 1 = s.queues 1 :=
      Function.update_of_ne (Ne.symm hqid) _ _
    rw [Counted, hsame]
    exact h

theorem Counted.step (h : s.Counted) {a : ReqStep Page}
    (hstep : s.step hash exclusivePolicy cid a = some s') : s'.Counted := by
  cases a with
  | writeMsg cpu key raddr =>
      obtain ⟨q, -, rfl⟩ := Option.map_eq_some_iff.mp hstep
      exact h.setQueue fun hqid => absurd hqid (by omega)
  | writeMsg2 key =>
      obtain ⟨q, hq, rfl⟩ := Option.map_eq_some_iff.mp hstep
      obtain ⟨-, rfl⟩ := ReqQueue.writeMsg2_some hq
      refine h.setQueue fun _ => ?_
      show (s.queues 1).msgId + 1 = BitVec.ofNat 32 ((s.queues 1).calls ++ [(key, 0)]).length
      rw [h, List.length_append, BitVec.ofNat_add]
      rfl
  | pollSendCq qid =>
      obtain ⟨q, hq, rfl⟩ := Option.map_eq_some_iff.mp hstep
      refine h.setQueue fun hqid => ?_
      subst hqid
      unfold ReqQueue.pollSendCq at hq
      split at hq
      · cases hq
        exact h
      · cases hq
  | pollRecvCq qid =>
      obtain ⟨q, hq, rfl⟩ := Option.map_eq_some_iff.mp hstep
      refine h.setQueue fun hqid => ?_
      subst hqid
      unfold ReqQueue.pollRecvCq at hq
      split at hq
      · cases hq
        exact h
      · cases hq
  | deliver qid =>
      simp only [ReqPath.step, ReqPath.deliver] at hstep
      split at hstep
      · cases hstep
        refine h.setQueue fun hqid => ?_
        subst hqid
        exact h
      · cases hstep
  | process qid d =>
      simp only [ReqPath.step, ReqPath.process] at hstep
      split at hstep
      · cases hstep
      · cases hstep
        refine h.setQueue fun hqid => ?_
        subst hqid
        exact h
  | server a =>
      simp only [ReqPath.step] at hstep
      split at hstep
      · cases hstep
      · obtain ⟨_, -, rfl⟩ := Option.map_eq_some_iff.mp hstep
        exact h

theorem Counted.of_reachable (hreach : (reqSystem hash exclusivePolicy cid).Reachable s) :
    s.Counted := by
  refine hreach.invariant ?_ fun _ _ _ h hstep => h.step hstep
  intro s hinit
  unfold Counted
  rw [hinit]
  rfl

end ReqPath

/-! ## Both -/

/-- The slots of both queues are in range until 2^31 requests, and then again
in every 2^32 after the counter has wrapped. -/
theorem slots_inRange_iff {Page : Type} {hash : HashFuncs} {exclusivePolicy : Bool} {cid : ℕ}
    {q : SlotQueue} (hq : slotSystem.Reachable q) {s : ReqPath Page}
    (hs : (reqSystem hash exclusivePolicy cid).Reachable s) :
    (q.InRange ↔ CounterFits q.accepted) ∧
      (SlotFits (slotOf (s.queues 1).msgId) ↔ CounterFits (s.queues 1).calls.length) := by
  constructor
  · exact (SlotQueue.Counted.of_reachable hq).inRange_iff
  · rw [ReqPath.Counted.of_reachable hs]
    exact slotFits_iff _

/-- The last put before the sign bit, and the first invalidation. -/
theorem slots_inRange_iff_lastPut :
    ∃ (q : SlotQueue) (s : ReqPath ℕ), q.accepted = 2 ^ 31 - 1 ∧ (s.queues 1).calls = [(5, 0)] ∧
      (q.InRange ↔ CounterFits (2 ^ 31 - 1)) ∧
        (SlotFits (slotOf (s.queues 1).msgId) ↔ CounterFits 1) := by
  obtain ⟨q, hreach, -, hn⟩ := SlotQueue.exists_accepted (2 ^ 31 - 1)
  have hcalled : (reqSystem (fun _ key => key.toNat) true 0).Reachable
      (ReqPath.listening.setQueue 1
        { msgId := 1, sends := [invRequest 0 5], calls := [(5, 0)] }) :=
    ⟨ReqPath.listening, [.writeMsg2 5], rfl, rfl⟩
  have hslots := slots_inRange_iff hreach hcalled
  rw [hn] at hslots
  exact ⟨q, _, hn, rfl, hslots⟩

/-- One put after the counter has reached the sign bit. -/
theorem slots_outOfRange : ∃ q, slotSystem.Reachable q ∧ q.accepted = 2 ^ 31 + 1 ∧
    slotOf q.msgId = -511 ∧ ¬ q.InRange := by
  obtain ⟨q, hreach, -, hn⟩ := SlotQueue.exists_accepted (2 ^ 31 + 1)
  have hslot : slotOf q.msgId = -511 := by
    rw [SlotQueue.Counted.of_reachable hreach, hn]
    decide
  refine ⟨q, hreach, hn, hslot, fun hrange => ?_⟩
  have hnonneg := hrange.fits.nonneg
  rw [hslot] at hnonneg
  exact absurd hnonneg (by decide)

end CleancacheRdma.Driver
