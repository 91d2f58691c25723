import Mathlib
import CleancacheRdma.Driver.SendBuffer

/-!
# Accepted puts that the daemon has not taken

An accepted put sits in the batch that is being filled, in a batch whose item
waits, in a posted send, or on the wire. Together with what was sent these are
the accepted puts, so no step but an accepted put adds to them.
-/

namespace CleancacheRdma.Driver

open Daemon (Slot)

namespace PutQueue

variable {Page : Type} (q : PutQueue Page)

/-- The batch that is being filled. -/
def filling : List (Slot Page) :=
  (List.range (q.msgId % 32)).map fun i => q.keypageMmPool (q.msgId % 512 / 32 * 32 + i)

/-- The full batches whose items wait to run. -/
def scheduled : List (Slot Page) :=
  q.work.flatMap fun data => (batchSends data).map fun wr => q.keypageMmPool wr.slot

/-- What was accepted and has not been sent. -/
def unsent : List (Slot Page) := q.unread ++ (q.scheduled ++ q.filling)

def inTransit : List (Slot Page) := q.unsent ++ q.wire.map Prod.fst

variable {q}

theorem mem_inTransit_wire {m : Slot Page × BitVec 32} (h : m ∈ q.wire) : m.1 ∈ q.inTransit :=
  List.mem_append_right _ (List.mem_map_of_mem h)

/-- Without the oldest message on the wire. -/
theorem inTransit_tail {m : Slot Page × BitVec 32} {wire : List (Slot Page × BitVec 32)}
    (hwire : q.wire = m :: wire) (replies : List (BitVec 32)) :
    q.inTransit.Perm (m.1 :: ({ q with wire, replies } : PutQueue Page).inTransit) := by
  rw [inTransit, inTransit, hwire, List.map_cons]
  exact List.perm_middle

/-- The daemon takes the oldest message. -/
theorem mem_inTransit_of_tail {m : Slot Page × BitVec 32} {wire : List (Slot Page × BitVec 32)}
    {replies : List (BitVec 32)} (hwire : q.wire = m :: wire) {page : Slot Page}
    (h : page ∈ ({ q with wire, replies } : PutQueue Page).inTransit) : page ∈ q.inTransit :=
  (inTransit_tail hwire replies).symm.subset (List.mem_cons_of_mem _ h)

end PutQueue

/-- The put that a step may have accepted. -/
def PutStep.accepting {Page : Type} : PutStep Page → List (Slot Page)
  | .sendPage page => [page]
  | _ => []

theorem PutStep.accepting_nil {Page : Type} {a : PutStep Page} (h : ∀ page, a ≠ .sendPage page) :
    a.accepting = [] := by
  cases a with
  | sendPage page => exact absurd rfl (h page)
  | _ => rfl

theorem flatMap_batchOf {α : Type} {l : List α} : ∀ {n : ℕ}, n * 32 ≤ l.length →
    (List.range n).flatMap (batchOf l) = l.take (n * 32) := by
  intro n
  induction n with
  | zero => intro _; rfl
  | succ n ih =>
      intro h
      rw [List.range_succ, List.flatMap_append, List.flatMap_singleton, ih (by omega), batchOf,
        Nat.succ_mul, List.take_add]

namespace PutRun

variable {Page : Type} {s s' : PutRun Page}

theorem Inv.filling_eq (h : s.Inv) :
    s.queue.filling = s.accepted.drop (s.accepted.length / 32 * 32) := by
  have hcount := h.count
  apply List.ext_getElem?
  intro i
  rw [PutQueue.filling, List.getElem?_map, List.getElem?_drop, hcount]
  by_cases hi : i < s.accepted.length % 32
  · have hslot := h.filling (s.accepted.length / 32 * 32 + i) (by omega) (by omega)
    have hmod : (s.accepted.length / 32 * 32 + i) % 512 = s.accepted.length % 512 / 32 * 32 + i := by
      omega
    rw [hslot, hmod, List.getElem?_range hi]
    rfl
  · have hnone : (List.range (s.accepted.length % 32))[i]? = none :=
      List.getElem?_eq_none (by rw [List.length_range]; omega)
    rw [hnone, List.getElem?_eq_none (by omega)]
    rfl

theorem Inv.scheduled_eq (h : s.Inv) :
    s.queue.scheduled = (s.queue.work.map WorkData.batch).flatMap (batchOf s.accepted) := by
  rw [PutQueue.scheduled, List.flatMap_map]
  apply List.flatMap_congr
  intro data hdata
  exact (h.holds data (mem_pending_work hdata)).batchSends_eq

/-- Every accepted put was sent once or is still to be sent once. -/
theorem Inv.conserved (h : s.Inv) :
    (s.sent.map Prod.fst ++ s.queue.unsent).Perm s.accepted := by
  have hfull : ((s.ran ++ s.queue.work.map WorkData.batch).flatMap (batchOf s.accepted)).Perm
      (s.accepted.take (s.accepted.length / 32 * 32)) := by
    rw [← flatMap_batchOf (Nat.div_mul_le_self _ _)]
    exact h.once.flatMap_right _
  rw [PutQueue.unsent, ← List.append_assoc, h.posted, h.scheduled_eq, h.filling_eq,
    ← List.append_assoc, ← List.flatMap_append]
  refine (hfull.append_right _).trans ?_
  rw [List.take_append_drop]

/-- What a step accepts is in transit, and only what is received leaves. -/
theorem Inv.inTransit_perm (h : s.Inv) (h' : s'.Inv) {new : List (Slot Page)}
    {wire : List (Slot Page × BitVec 32)} (haccepted : s'.accepted = s.accepted ++ new)
    (hsent : s'.sent = s.sent ++ wire) (hwire : s'.queue.wire = s.queue.wire ++ wire) :
    s'.queue.inTransit.Perm (s.queue.inTransit ++ new) := by
  have hold := h.conserved
  have hnew := h'.conserved
  rw [haccepted, hsent, List.map_append, List.append_assoc] at hnew
  have hunsent : (wire.map Prod.fst ++ s'.queue.unsent).Perm (s.queue.unsent ++ new) := by
    rw [← List.perm_append_left_iff (s.sent.map Prod.fst), ← List.append_assoc (s.sent.map Prod.fst)
      s.queue.unsent]
    exact hnew.trans (hold.append_right new).symm
  rw [PutQueue.inTransit, PutQueue.inTransit, hwire, List.map_append]
  calc
    (s'.queue.unsent ++ (s.queue.wire.map Prod.fst ++ wire.map Prod.fst)).Perm
        (wire.map Prod.fst ++ s'.queue.unsent ++ s.queue.wire.map Prod.fst) := by
      rw [← List.append_assoc]
      refine List.perm_append_comm.trans ?_
      rw [List.append_assoc]
    _ |>.Perm (s.queue.unsent ++ new ++ s.queue.wire.map Prod.fst) := hunsent.append_right _
    _ |>.Perm (s.queue.unsent ++ s.queue.wire.map Prod.fst ++ new) := by
      rw [List.append_assoc, List.append_assoc]
      exact List.perm_append_comm.append_left _

/-- A client's step leaves in transit what was there, and at most one put more. -/
theorem Inv.inTransit_subperm (h : s.Inv) {a : PutStep Page} (hstep : s.step a = some s') :
    s'.queue.inTransit.Subperm (s.queue.inTransit ++ a.accepting) := by
  have h' := h.step hstep
  have hquiet : ∀ wire, s'.accepted = s.accepted → s'.sent = s.sent ++ wire →
      s'.queue.wire = s.queue.wire ++ wire →
      s'.queue.inTransit.Subperm (s.queue.inTransit ++ a.accepting) := by
    intro wire haccepted hsent hwire
    have hperm := h.inTransit_perm h' (haccepted.trans (List.append_nil _).symm) hsent hwire
    rw [List.append_nil] at hperm
    exact hperm.subperm.trans (List.sublist_append_left _ _).subperm
  cases a with
  | sendPage page =>
      cases hstep
      rcases s.queue.sendPage_cases page with ⟨-, hrej⟩ | ⟨-, q', hacc, -, -, -, hwire, -⟩
      · simp only [hrej]
        exact (List.sublist_append_left _ _).subperm
      · simp only [hacc, if_true] at h' ⊢
        exact (@Inv.inTransit_perm _ _ _ h h' [page] [] rfl (List.append_nil _).symm
          (hwire.trans (List.append_nil _).symm)).subperm
  | post i =>
      obtain ⟨q', hq, rfl⟩ := Option.map_eq_some_iff.mp hstep
      obtain ⟨data, -, -, rfl⟩ := PutQueue.post_some hq
      exact hquiet [] rfl (List.append_nil _).symm (List.append_nil _).symm
  | transmit =>
      obtain ⟨q', hq, rfl⟩ := Option.map_eq_some_iff.mp hstep
      obtain ⟨wr, sends, hsends, rfl⟩ := PutQueue.transmit_some hq
      refine hquiet [(s.queue.keypageMmPool wr.slot, wr.imm)] rfl ?_ rfl
      rw [hsends]
      rfl
  | pollSendCq =>
      obtain ⟨q', hq, rfl⟩ := Option.map_eq_some_iff.mp hstep
      obtain ⟨data, -, -, rfl⟩ := PutQueue.pollSendCq_some hq
      exact hquiet [] rfl (List.append_nil _).symm (List.append_nil _).symm
  | clearBit =>
      obtain ⟨q', hq, rfl⟩ := Option.map_eq_some_iff.mp hstep
      obtain ⟨data, -, rfl⟩ := PutQueue.clearBit_some hq
      exact hquiet [] rfl (List.append_nil _).symm (List.append_nil _).symm
  | receive =>
      simp only [PutRun.step] at hstep
      split at hstep
      · cases hstep
      next m wire hwire =>
        cases hstep
        have hsub := (List.sublist_cons_self _ _).subperm.trans
          (PutQueue.inTransit_tail hwire s.queue.replies).symm.subperm
        exact hsub.trans (List.sublist_append_left _ _).subperm
  | reply imm =>
      cases hstep
      exact hquiet [] rfl (List.append_nil _).symm (List.append_nil _).symm
  | pollRecvCq =>
      obtain ⟨q', hq, rfl⟩ := Option.map_eq_some_iff.mp hstep
      obtain ⟨imm, replies, -, -, rfl⟩ := PutQueue.pollRecvCq_some hq
      exact hquiet [] rfl (List.append_nil _).symm (List.append_nil _).symm

/-- What a client's step leaves in transit was there, or it is the put. -/
theorem Inv.inTransit_step (h : s.Inv) {a : PutStep Page} (hstep : s.step a = some s')
    {m : Slot Page} (hm : m ∈ s'.queue.inTransit) : m ∈ s.queue.inTransit ∨ a = .sendPage m := by
  refine (List.mem_append.mp ((h.inTransit_subperm hstep).subset hm)).imp_right fun hnew => ?_
  cases a with
  | sendPage page => rw [List.mem_singleton.mp hnew]
  | _ => cases hnew

end PutRun

end CleancacheRdma.Driver
