import Mathlib
import CleancacheRdma.Driver.PutQueue

/-!
# The put buffer neither loses, repeats nor corrupts a page

The counter, the wait bits, the half-filled batch and the items that wait to
run are tied together: an item owns the 32 slots of its batch from the put that
completes it to the clearing of its bit, and the bit keeps later puts off them.
-/

namespace CleancacheRdma.Driver

open Daemon (Slot numMsgs)
open Lib (System)

namespace PutQueue

variable {Page : Type} (q : PutQueue Page)

/-- The items whose slots are in use: scheduled, or not past `clear_bit`. -/
def pending : List WorkData :=
  q.work ++
    match q.mtx with
    | .posted data => [data]
    | .completed data => [data]
    | .free => []
    | .polling => []

/-- What the adapter has still to read. -/
def unread : List (Slot Page) := q.sends.map fun wr => q.keypageMmPool wr.slot

variable {q}

theorem sendPage_cases (q : PutQueue Page) (page : Slot Page) :
    (q.wait (q.msgId % 512 / 32) = true ∧ q.sendPage page = (q, -6)) ∨
    (q.wait (q.msgId % 512 / 32) = false ∧
      ∃ q', q.sendPage page = (q', 0) ∧ q'.msgId = q.msgId + 1 ∧ q'.mtx = q.mtx ∧
        q'.sends = q.sends ∧ q'.wire = q.wire ∧ q'.replies = q.replies ∧
        q'.keypageMmPool = Function.update q.keypageMmPool (q.msgId % 512) page ∧
        ((q.msgId % 32 ≠ 31 ∧ q'.wait = q.wait ∧ q'.work = q.work) ∨
          (q.msgId % 32 = 31 ∧ q'.wait = Function.update q.wait (q.msgId % 512 / 32) true ∧
            q'.work = q.work ++ [⟨q.msgId % 512, q.msgId / 32⟩]))) := by
  have hmod : q.msgId % 512 % 32 = q.msgId % 32 := Nat.mod_mod_of_dvd q.msgId (by decide)
  cases hw : q.wait (q.msgId % 512 / 32) with
  | true => exact Or.inl ⟨rfl, if_pos hw⟩
  | false =>
      have hopen : ¬ q.wait (q.msgId % numMsgs / numPutBatch) = true := ne_true_of_eq_false hw
      refine Or.inr ⟨rfl, ?_⟩
      rw [sendPage, if_neg hopen]
      by_cases hlast : q.msgId % 32 = 31
      · refine ⟨_, if_neg ?_, rfl, rfl, rfl, rfl, rfl, rfl, Or.inr ⟨hlast, rfl, rfl⟩⟩
        exact not_not.mpr (hmod.trans hlast)
      · refine ⟨_, if_pos ?_, rfl, rfl, rfl, rfl, rfl, rfl, Or.inl ⟨hlast, rfl, rfl⟩⟩
        exact fun he => hlast (hmod.symm.trans he)

theorem sendPage_rejected {page : Slot Page} (h : (q.sendPage page).2 ≠ 0) :
    q.sendPage page = (q, -6) := by
  rcases q.sendPage_cases page with ⟨-, heq⟩ | ⟨-, q', heq, -⟩
  · exact heq
  · rw [heq] at h
    exact absurd rfl h

theorem post_some {i : ℕ} {q' : PutQueue Page} (h : q.post i = some q') :
    ∃ data, q.mtx = .free ∧ q.work[i]? = some data ∧
      q' = { q with work := q.work.eraseIdx i, mtx := .posted data, sends := batchSends data } := by
  unfold post at h
  split at h
  next data hmtx hdata =>
    cases h
    exact ⟨data, hmtx, hdata, rfl⟩
  · cases h

theorem transmit_some {q' : PutQueue Page} (h : q.transmit = some q') :
    ∃ wr sends, q.sends = wr :: sends ∧
      q' = { q with sends, wire := q.wire ++ [(q.keypageMmPool wr.slot, wr.imm)] } := by
  unfold transmit at h
  split at h
  · cases h
  next wr sends hsends =>
    cases h
    exact ⟨wr, sends, hsends, rfl⟩

theorem pollSendCq_some {q' : PutQueue Page} (h : q.pollSendCq = some q') :
    ∃ data, q.mtx = .posted data ∧ q.sends = [] ∧ q' = { q with mtx := .completed data } := by
  unfold pollSendCq at h
  split at h
  next data hmtx hsends =>
    cases h
    exact ⟨data, hmtx, hsends, rfl⟩
  · cases h

theorem clearBit_some {q' : PutQueue Page} (h : q.clearBit = some q') :
    ∃ data, q.mtx = .completed data ∧
      q' = { q with
        wait := Function.update q.wait (data.msgId / 32) false
        mtx := if data.msgId = 511 then .polling else .free } := by
  unfold clearBit at h
  split at h
  next data hmtx =>
    cases h
    exact ⟨data, hmtx, rfl⟩
  · cases h

theorem pollRecvCq_some {q' : PutQueue Page} (h : q.pollRecvCq = some q') :
    ∃ imm replies, q.mtx = .polling ∧ q.replies = imm :: replies ∧
      q' = { q with mtx := .free, replies } := by
  unfold pollRecvCq at h
  split at h
  next imm replies hmtx hreplies =>
    cases h
    exact ⟨imm, replies, hmtx, hreplies, rfl⟩
  · cases h

end PutQueue

/-! ## Batches -/

/-- Batch `b` of a sequence of puts. -/
def batchOf {α : Type} (l : List α) (b : ℕ) : List α := (l.drop (b * 32)).take 32

theorem batchOf_append {α : Type} {l : List α} {b : ℕ} (h : (b + 1) * 32 ≤ l.length)
    (l' : List α) : batchOf (l ++ l') b = batchOf l b := by
  unfold batchOf
  rw [List.drop_append_of_le_length (by omega), List.take_append_of_le_length]
  rw [List.length_drop]
  omega

/-- A batch, read entry by entry. -/
theorem batchOf_eq {α : Type} {l : List α} {b : ℕ} {f : ℕ → α}
    (h : ∀ i < 32, l[b * 32 + i]? = some (f i)) : batchOf l b = (List.range 32).map f := by
  apply List.ext_getElem?
  intro i
  unfold batchOf
  by_cases hi : i < 32
  · rw [List.getElem?_take_of_lt hi, List.getElem?_drop, h i hi]
    simp [hi]
  · rw [List.getElem?_take, if_neg hi]
    simp [hi]

/-- The numbers of the puts of a batch. -/
def batchNumbers (b : ℕ) : List ℕ := (List.range 32).map fun i => b * 32 + i

theorem mem_batchNumbers {b j : ℕ} : j ∈ batchNumbers b ↔ j / 32 = b := by
  simp only [batchNumbers, List.mem_map, List.mem_range]
  constructor
  · rintro ⟨i, hi, rfl⟩
    omega
  · rintro rfl
    exact ⟨j % 32, Nat.mod_lt _ (by decide), by omega⟩

theorem batchNumbers_nodup (b : ℕ) : (batchNumbers b).Nodup :=
  List.nodup_range.map fun _ _ h => Nat.add_left_cancel h

/-- Different batches have no number in common. -/
theorem flatMap_batchNumbers_nodup {bs : List ℕ} (h : bs.Nodup) :
    (bs.flatMap batchNumbers).Nodup := by
  rw [List.nodup_flatMap]
  refine ⟨fun b _ => batchNumbers_nodup b, h.imp ?_⟩
  intro b b' hne j hj hj'
  exact hne ((mem_batchNumbers.mp hj).symm.trans (mem_batchNumbers.mp hj'))

theorem batchOf_numbers {α : Type} {l : List α} {b : ℕ} (h : (b + 1) * 32 ≤ l.length) :
    (batchOf l b).map some = (batchNumbers b).map fun j => l[j]? := by
  apply List.ext_getElem?
  intro i
  unfold batchOf batchNumbers
  rw [List.getElem?_map, List.getElem?_map, List.getElem?_map]
  by_cases hi : i < 32
  · have hlt : b * 32 + i < l.length := by omega
    rw [List.getElem?_take_of_lt hi, List.getElem?_drop]
    simp [hi, hlt]
  · rw [List.getElem?_take, if_neg hi]
    simp [hi]

/-! ## The invariant -/

namespace PutRun

variable {Page : Type}

/-- The slots of an item hold the puts of its batch, and its bit is set. -/
structure Holds (s : PutRun Page) (data : WorkData) : Prop where
  msgId : data.msgId = data.batch % 16 * 32 + 31
  full : (data.batch + 1) * 32 ≤ s.accepted.length
  waits : s.queue.wait (data.batch % 16) = true
  slots : ∀ i < 32,
    s.accepted[data.batch * 32 + i]? = some (s.queue.keypageMmPool (data.batch % 16 * 32 + i))

structure Inv (s : PutRun Page) : Prop where
  count : s.queue.msgId = s.accepted.length
  holds : ∀ data ∈ s.queue.pending, s.Holds data
  nodup : (s.queue.pending.map fun data => data.batch % 16).Nodup
  filling : ∀ j, s.accepted.length / 32 * 32 ≤ j → j < s.accepted.length →
    s.accepted[j]? = some (s.queue.keypageMmPool (j % 512))
  once : (s.ran ++ s.queue.work.map WorkData.batch).Perm (List.range (s.accepted.length / 32))
  sends : ∀ wr ∈ s.queue.sends,
    ∃ data, s.queue.mtx = .posted data ∧ wr.slot / 32 = data.batch % 16
  posted : s.sent.map Prod.fst ++ s.queue.unread = s.ran.flatMap (batchOf s.accepted)

variable {s s' : PutRun Page}

/-- The sends of an item are for the puts of its batch. -/
theorem Holds.batchSends_eq {data : WorkData} (h : s.Holds data) :
    (PutQueue.batchSends data).map (fun wr => s.queue.keypageMmPool wr.slot) =
      batchOf s.accepted data.batch := by
  have hmsg := h.msgId
  rw [batchOf_eq h.slots, PutQueue.batchSends, List.map_map]
  apply List.map_congr_left
  intro j _
  simp only [Function.comp_apply, numPutBatch]
  congr 1
  omega

theorem Initial.inv (h : s.Initial) : s.Inv := by
  obtain ⟨pool, rfl⟩ := h
  exact ⟨rfl, fun _ h => absurd h List.not_mem_nil, List.nodup_nil,
    fun j _ h => absurd h (Nat.not_lt_zero j), by simp,
    fun _ h => absurd h List.not_mem_nil, rfl⟩

theorem Inv.ran_lt (h : s.Inv) {b : ℕ} (hb : b ∈ s.ran) : (b + 1) * 32 ≤ s.accepted.length := by
  have hmem := h.once.mem_iff.mp (List.mem_append_left _ hb)
  have hlt := List.mem_range.mp hmem
  omega

theorem mem_pending_work {q : PutQueue Page} {data : WorkData} (h : data ∈ q.work) :
    data ∈ q.pending := List.mem_append_left _ h

theorem mem_pending_posted {q : PutQueue Page} {data : WorkData} (h : q.mtx = .posted data) :
    data ∈ q.pending := by
  unfold PutQueue.pending
  rw [h]
  exact List.mem_append_right _ List.mem_cons_self

/-- A clear bit is that of no pending item. -/
theorem Inv.group_free (h : s.Inv) {group : ℕ} (hw : s.queue.wait group = false) :
    group ∉ s.queue.pending.map fun data => data.batch % 16 := by
  intro hmem
  obtain ⟨data, hdata, rfl⟩ := List.mem_map.mp hmem
  rw [(h.holds data hdata).waits] at hw
  cases hw

/-- No slot of a pending item is the one a put is copied to. -/
theorem Inv.slot_ne (h : s.Inv) (hw : s.queue.wait (s.queue.msgId % 512 / 32) = false)
    {data : WorkData} (hdata : data ∈ s.queue.pending) {slot : ℕ}
    (hslot : slot / 32 = data.batch % 16) : slot ≠ s.queue.msgId % 512 := by
  rintro rfl
  exact h.group_free hw (List.mem_map.mpr ⟨data, hdata, hslot.symm⟩)

theorem Inv.unread_eq (h : s.Inv) (hw : s.queue.wait (s.queue.msgId % 512 / 32) = false)
    {q' : PutQueue Page} (hsends : q'.sends = s.queue.sends) {page : Slot Page}
    (hpool : q'.keypageMmPool =
      Function.update s.queue.keypageMmPool (s.queue.msgId % 512) page) :
    q'.unread = s.queue.unread := by
  unfold PutQueue.unread
  rw [hsends]
  apply List.map_congr_left
  intro wr hwr
  obtain ⟨data, hmtx, hslot⟩ := h.sends wr hwr
  rw [hpool, Function.update_of_ne (h.slot_ne hw (mem_pending_posted hmtx) hslot)]

/-- A pending item keeps its slots through an accepted put. -/
theorem Holds.accept {data : WorkData} (hd : s.Holds data) (h : s.Inv)
    (hdata : data ∈ s.queue.pending)
    (hw : s.queue.wait (s.queue.msgId % 512 / 32) = false) {q' : PutQueue Page} {page : Slot Page}
    (hpool : q'.keypageMmPool =
      Function.update s.queue.keypageMmPool (s.queue.msgId % 512) page)
    (hwait : q'.wait (data.batch % 16) = true) :
    Holds { s with queue := q', accepted := s.accepted ++ [page] } data where
  msgId := hd.msgId
  full := by
    have hfull := hd.full
    simp only [List.length_append, List.length_singleton]
    omega
  waits := hwait
  slots i hi := by
    have hfull := hd.full
    have hne : data.batch % 16 * 32 + i ≠ s.queue.msgId % 512 :=
      h.slot_ne hw hdata (by omega)
    simp only [hpool, Function.update_of_ne hne]
    rw [List.getElem?_append_left (by omega)]
    exact hd.slots i hi

/-- The batch being filled, with the put that was copied to its next slot. -/
theorem Inv.filling_accept (h : s.Inv) {pool : ℕ → Slot Page} {page : Slot Page}
    (hpool : pool = Function.update s.queue.keypageMmPool (s.queue.msgId % 512) page) {j : ℕ}
    (hlo : s.accepted.length / 32 * 32 ≤ j) (hhi : j < s.accepted.length + 1) :
    (s.accepted ++ [page])[j]? = some (pool (j % 512)) := by
  rw [hpool, h.count]
  by_cases hj : j = s.accepted.length
  · subst hj
    rw [Function.update_self, List.getElem?_concat_length]
  · rw [Function.update_of_ne (by omega), List.getElem?_append_left (by omega)]
    exact h.filling j hlo (by omega)

theorem Inv.posted_accept (h : s.Inv) {q' : PutQueue Page} (hunread : q'.unread = s.queue.unread)
    (page : Slot Page) :
    s.sent.map Prod.fst ++ q'.unread = s.ran.flatMap (batchOf (s.accepted ++ [page])) := by
  have hran : s.ran.flatMap (batchOf (s.accepted ++ [page])) =
      s.ran.flatMap (batchOf s.accepted) := by
    apply List.flatMap_congr
    intro b hb
    exact batchOf_append (h.ran_lt hb) _
  rw [hunread, hran]
  exact h.posted

/-- The put that completes a batch schedules an item for it. -/
theorem Inv.holds_scheduled (h : s.Inv) {page : Slot Page} {q' : PutQueue Page}
    (hpool : q'.keypageMmPool =
      Function.update s.queue.keypageMmPool (s.queue.msgId % 512) page)
    (hfull : s.queue.msgId % 32 = 31) (hwait : q'.wait (s.queue.msgId % 512 / 32) = true) :
    Holds { s with queue := q', accepted := s.accepted ++ [page] }
      ⟨s.queue.msgId % 512, s.queue.msgId / 32⟩ := by
  have hcount := h.count
  have hgroup : s.queue.msgId % 512 / 32 = s.queue.msgId / 32 % 16 := by omega
  refine ⟨by dsimp only; omega, ?_, hgroup ▸ hwait, fun i hi => ?_⟩
  · simp only [List.length_append, List.length_singleton]
    omega
  · have hslot := h.filling_accept hpool (j := s.queue.msgId / 32 * 32 + i) (by omega) (by omega)
    have he : (s.queue.msgId / 32 * 32 + i) % 512 = s.queue.msgId / 32 % 16 * 32 + i := by omega
    rw [he] at hslot
    exact hslot

theorem Inv.accept (h : s.Inv) {page : Slot Page} {q' : PutQueue Page}
    (heq : s.queue.sendPage page = (q', 0)) :
    Inv { s with queue := q', accepted := s.accepted ++ [page] } := by
  rcases s.queue.sendPage_cases page with
    ⟨-, hrej⟩ | ⟨hw, q'', heq', hid, hmtx, hsends, -, -, hpool, hlast⟩
  · rw [hrej] at heq
    cases heq
  cases heq'.symm.trans heq
  have hcount := h.count
  have hposted := h.posted_accept (h.unread_eq hw hsends hpool) page
  rcases hlast with ⟨hne, hwait, hwork⟩ | ⟨hfull, hwait, hwork⟩
  · -- the batch is not full yet
    have hpending : q'.pending = s.queue.pending := by
      unfold PutQueue.pending
      rw [hwork, hmtx]
    have hdiv : (s.accepted.length + 1) / 32 = s.accepted.length / 32 := by omega
    refine ⟨?_, ?_, ?_, ?_, ?_, ?_, hposted⟩
    · simp [hid, hcount]
    · intro data hdata
      rw [hpending] at hdata
      exact (h.holds data hdata).accept h hdata hw hpool
        (by rw [hwait]; exact (h.holds data hdata).waits)
    · rw [hpending]
      exact h.nodup
    · intro j hlo hhi
      simp only [List.length_append, List.length_singleton] at hlo hhi
      exact h.filling_accept hpool (by omega) hhi
    · rw [hwork]
      simp only [List.length_append, List.length_singleton, hdiv]
      exact h.once
    · rw [hsends, hmtx]
      exact h.sends
  · -- the batch is full and an item is scheduled for it
    have hgroup : s.queue.msgId % 512 / 32 = s.queue.msgId / 32 % 16 := by omega
    have hpending : q'.pending.Perm
        (⟨s.queue.msgId % 512, s.queue.msgId / 32⟩ :: s.queue.pending) := by
      unfold PutQueue.pending
      rw [hwork, hmtx, List.append_assoc]
      exact List.perm_middle
    have hdiv : (s.accepted.length + 1) / 32 = s.accepted.length / 32 + 1 := by omega
    refine ⟨?_, ?_, ?_, ?_, ?_, ?_, hposted⟩
    · simp [hid, hcount]
    · intro data hdata
      rcases List.mem_cons.mp (hpending.mem_iff.mp hdata) with rfl | hold
      · exact h.holds_scheduled hpool hfull (by rw [hwait, Function.update_self])
      · refine (h.holds data hold).accept h hold hw hpool ?_
        rw [hwait]
        by_cases hg : data.batch % 16 = s.queue.msgId % 512 / 32
        · rw [hg, Function.update_self]
        · rw [Function.update_of_ne hg]
          exact (h.holds data hold).waits
    · have hperm := hpending.map fun data => data.batch % 16
      rw [hperm.nodup_iff, List.map_cons, List.nodup_cons]
      exact ⟨hgroup ▸ h.group_free hw, h.nodup⟩
    · intro j hlo hhi
      simp only [List.length_append, List.length_singleton] at hlo hhi
      omega
    · simp only [List.length_append, List.length_singleton, hdiv]
      rw [hwork, List.map_append, ← List.append_assoc, List.range_succ]
      refine h.once.append ?_
      simp [hcount]
    · rw [hsends, hmtx]
      exact h.sends

theorem Inv.post (h : s.Inv) {i : ℕ} {q' : PutQueue Page} (hpost : s.queue.post i = some q') :
    Inv { s with
      queue := q'
      ran := s.ran ++ (s.queue.work[i]?.map WorkData.batch).toList } := by
  obtain ⟨data, hmtx, hdata, rfl⟩ := PutQueue.post_some hpost
  have hmem : data ∈ s.queue.work := List.mem_of_getElem? hdata
  have hd := h.holds data (mem_pending_work hmem)
  have hi : i < s.queue.work.length := (List.getElem?_eq_some_iff.mp hdata).1
  have hget : s.queue.work[i] = data := (List.getElem?_eq_some_iff.mp hdata).2
  have hwork : s.queue.work.Perm (data :: s.queue.work.eraseIdx i) := by
    rw [← hget]
    exact (List.getElem_cons_eraseIdx_perm hi).symm
  have hpending : (s.queue.work.eraseIdx i ++ [data]).Perm s.queue.pending := by
    unfold PutQueue.pending
    rw [hmtx, List.append_nil]
    exact (List.perm_append_singleton _ _).trans hwork.symm
  have hsends : s.queue.sends = [] := by
    apply List.eq_nil_iff_forall_not_mem.mpr
    intro wr hwr
    obtain ⟨data', hposted, -⟩ := h.sends wr hwr
    rw [hmtx] at hposted
    cases hposted
  have hmsg := hd.msgId
  refine ⟨h.count, ?_, ?_, h.filling, ?_, ?_, ?_⟩
  · intro data' hdata'
    have hd' := h.holds data' (hpending.mem_iff.mp hdata')
    exact ⟨hd'.msgId, hd'.full, hd'.waits, hd'.slots⟩
  · exact (hpending.map _).nodup_iff.mpr h.nodup
  · simp only [hdata, Option.map_some, Option.toList_some]
    refine List.Perm.trans ?_ h.once
    rw [List.append_assoc]
    exact ((hwork.map WorkData.batch).symm.append_left s.ran)
  · intro wr hwr
    refine ⟨data, rfl, ?_⟩
    obtain ⟨j, hj, rfl⟩ := List.mem_map.mp hwr
    have hlt := List.mem_range.mp hj
    simp only [numPutBatch] at hlt ⊢
    omega
  · have hold := h.posted
    simp only [PutQueue.unread, hsends, List.map_nil, List.append_nil] at hold
    simp only [PutQueue.unread, hdata, Option.map_some, Option.toList_some, List.flatMap_append,
      List.flatMap_singleton, hd.batchSends_eq, hold]

/-- The daemon's end of the queue is nothing to the buffer. -/
theorem Inv.daemon (h : s.Inv) (wire : List (Slot Page × BitVec 32)) (replies : List (BitVec 32)) :
    Inv { s with queue := { s.queue with wire, replies } } :=
  ⟨h.count, fun data hdata => ⟨(h.holds data hdata).msgId, (h.holds data hdata).full,
    (h.holds data hdata).waits, (h.holds data hdata).slots⟩, h.nodup, h.filling, h.once,
    h.sends, h.posted⟩

/-- The mutex passes from one stage of an item to the next. -/
theorem Inv.handOn (h : s.Inv) {mtx : Mtx} {replies : List (BitVec 32)}
    (hpending : ({ s.queue with mtx, replies } : PutQueue Page).pending = s.queue.pending)
    (hsends : ∀ wr ∈ s.queue.sends, ∃ data, mtx = .posted data ∧ wr.slot / 32 = data.batch % 16) :
    Inv { s with queue := { s.queue with mtx, replies } } := by
  refine ⟨h.count, fun data hdata => ?_, ?_, h.filling, h.once, hsends, h.posted⟩
  · have hd := h.holds data (hpending ▸ hdata)
    exact ⟨hd.msgId, hd.full, hd.waits, hd.slots⟩
  · rw [hpending]
    exact h.nodup

/-- The bit of a posted item is cleared, and its slots are free again. -/
theorem Inv.clearBit (h : s.Inv) {q' : PutQueue Page} (hclear : s.queue.clearBit = some q') :
    Inv { s with queue := q' } := by
  obtain ⟨data, hmtx, rfl⟩ := PutQueue.clearBit_some hclear
  have hpending : s.queue.pending = s.queue.work ++ [data] := by
    unfold PutQueue.pending
    rw [hmtx]
  have hmsg := (h.holds data (by rw [hpending]; simp)).msgId
  have hgroup : data.msgId / 32 = data.batch % 16 := by omega
  have hrest : ({ s.queue with
      wait := Function.update s.queue.wait (data.msgId / 32) false
      mtx := if data.msgId = 511 then .polling else .free } : PutQueue Page).pending =
      s.queue.work := by
    unfold PutQueue.pending
    split_ifs
    · exact List.append_nil _
    · exact List.append_nil _
  have hnodup := h.nodup
  rw [hpending, List.map_append, List.nodup_append] at hnodup
  refine ⟨h.count, fun data' hdata' => ?_, ?_, h.filling, h.once, fun wr hwr => ?_, h.posted⟩
  · rw [hrest] at hdata'
    have hd := h.holds data' (mem_pending_work hdata')
    refine ⟨hd.msgId, hd.full, ?_, hd.slots⟩
    have hne : data'.batch % 16 ≠ data.batch % 16 :=
      hnodup.2.2 _ (List.mem_map_of_mem hdata') _ (by simp)
    simp only [hgroup, Function.update_of_ne hne]
    exact hd.waits
  · rw [hrest]
    exact hnodup.1
  · obtain ⟨data', hposted, -⟩ := h.sends wr hwr
    rw [hmtx] at hposted
    cases hposted

theorem Inv.step (h : s.Inv) {a : PutStep Page} (hstep : s.step a = some s') : s'.Inv := by
  cases a with
  | sendPage page =>
      cases hstep
      rcases s.queue.sendPage_cases page with ⟨-, hrej⟩ | ⟨-, q', hacc, -⟩
      · simp only [hrej]
        exact h
      · simp only [hacc, if_true]
        exact h.accept hacc
  | post i =>
      obtain ⟨q', hpost, rfl⟩ := Option.map_eq_some_iff.mp hstep
      exact h.post hpost
  | transmit =>
      obtain ⟨q', htrans, rfl⟩ := Option.map_eq_some_iff.mp hstep
      obtain ⟨wr, sends, hsends, rfl⟩ := PutQueue.transmit_some htrans
      refine ⟨h.count, fun data hdata => ?_, h.nodup, h.filling, h.once, fun wr' hwr' => ?_, ?_⟩
      · have hd := h.holds data hdata
        exact ⟨hd.msgId, hd.full, hd.waits, hd.slots⟩
      · exact h.sends wr' (by rw [hsends]; exact List.mem_cons_of_mem _ hwr')
      · have hold := h.posted
        simp only [PutQueue.unread, hsends, List.map_cons] at hold
        simpa [PutQueue.unread, hsends] using hold
  | pollSendCq =>
      obtain ⟨q', hpoll, rfl⟩ := Option.map_eq_some_iff.mp hstep
      obtain ⟨data, hmtx, hsends, rfl⟩ := PutQueue.pollSendCq_some hpoll
      refine h.handOn ?_ fun wr hwr => ?_
      · unfold PutQueue.pending
        rw [hmtx]
      · rw [hsends] at hwr
        exact absurd hwr List.not_mem_nil
  | clearBit =>
      obtain ⟨q', hclear, rfl⟩ := Option.map_eq_some_iff.mp hstep
      exact h.clearBit hclear
  | receive =>
      simp only [PutRun.step] at hstep
      split at hstep
      · cases hstep
      next m wire hwire =>
        cases hstep
        exact h.daemon wire s.queue.replies
  | reply imm =>
      cases hstep
      exact h.daemon s.queue.wire (s.queue.replies ++ [imm])
  | pollRecvCq =>
      obtain ⟨q', hpoll, rfl⟩ := Option.map_eq_some_iff.mp hstep
      obtain ⟨imm, replies, hmtx, -, rfl⟩ := PutQueue.pollRecvCq_some hpoll
      refine h.handOn ?_ fun wr hwr => ?_
      · unfold PutQueue.pending
        rw [hmtx]
      · obtain ⟨data', hposted, -⟩ := h.sends wr hwr
        rw [hmtx] at hposted
        cases hposted

/-- Only an accepted put steps the counter. -/
theorem msgId_sendPage_le {page : Slot Page} (hstep : s.step (.sendPage page) = some s') :
    s'.queue.msgId ≤ s.queue.msgId + 1 := by
  cases hstep
  rcases s.queue.sendPage_cases page with ⟨-, hrej⟩ | ⟨-, q', hacc, hmsgId, -⟩
  · simp only [hrej]
    exact Nat.le_succ _
  · simp only [hacc]
    exact hmsgId.le

theorem msgId_step_eq {a : PutStep Page} (ha : ∀ page, a ≠ .sendPage page)
    (hstep : s.step a = some s') : s'.queue.msgId = s.queue.msgId := by
  cases a with
  | sendPage page => exact absurd rfl (ha page)
  | post i =>
      obtain ⟨q', hq, rfl⟩ := Option.map_eq_some_iff.mp hstep
      obtain ⟨data, -, -, rfl⟩ := PutQueue.post_some hq
      rfl
  | transmit =>
      obtain ⟨q', hq, rfl⟩ := Option.map_eq_some_iff.mp hstep
      obtain ⟨wr, sends, -, rfl⟩ := PutQueue.transmit_some hq
      rfl
  | pollSendCq =>
      obtain ⟨q', hq, rfl⟩ := Option.map_eq_some_iff.mp hstep
      obtain ⟨data, -, -, rfl⟩ := PutQueue.pollSendCq_some hq
      rfl
  | clearBit =>
      obtain ⟨q', hq, rfl⟩ := Option.map_eq_some_iff.mp hstep
      obtain ⟨data, -, rfl⟩ := PutQueue.clearBit_some hq
      rfl
  | receive =>
      simp only [PutRun.step] at hstep
      split at hstep
      · cases hstep
      · cases hstep
        rfl
  | reply imm =>
      cases hstep
      rfl
  | pollRecvCq =>
      obtain ⟨q', hq, rfl⟩ := Option.map_eq_some_iff.mp hstep
      obtain ⟨imm, replies, -, -, rfl⟩ := PutQueue.pollRecvCq_some hq
      rfl

theorem reachable_inv (h : (putSystem Page).Reachable s) : s.Inv :=
  h.invariant (fun _ => Initial.inv) fun _ _ _ hinv hstep => hinv.step hstep

/-! ## What the daemon is sent -/

/-- The numbers of the accepted puts whose sends were posted, in their order. -/
def posted (s : PutRun Page) : List ℕ := s.ran.flatMap batchNumbers

/-- No accepted put is lost, repeated or corrupted, and a rejected one leaves
no trace. -/
structure Faithful (s : PutRun Page) : Prop where
  /-- At most once. -/
  once : s.posted.Nodup
  /-- A full batch has an item that waits to run, or its item has run and all
  its puts are posted. -/
  full : ∀ j, j / 32 < s.accepted.length / 32 →
    ((∃ data ∈ s.queue.work, data.batch = j / 32) ↔ j ∉ s.posted)
  /-- Only puts of full batches are posted. -/
  accepted : ∀ j ∈ s.posted, j < s.accepted.length
  /-- What was sent or is still to be read are the posted puts as they were
  accepted. -/
  bytes : (s.sent.map Prod.fst ++ s.queue.unread).map some = s.posted.map fun j => s.accepted[j]?
  /-- No slot of a batch is written between its being full and its completion. -/
  kept : ∀ page, ∀ data ∈ s.queue.pending, ∀ wr ∈ PutQueue.batchSends data,
    (s.queue.sendPage page).1.keypageMmPool wr.slot = s.queue.keypageMmPool wr.slot
  rejected : ∀ page, (s.queue.sendPage page).2 ≠ 0 →
    (s.queue.sendPage page).2 = -6 ∧ s.step (.sendPage page) = some s

theorem Inv.nodup_all (h : s.Inv) : (s.ran ++ s.queue.work.map WorkData.batch).Nodup :=
  h.once.nodup_iff.mpr List.nodup_range

theorem Inv.kept (h : s.Inv) (page : Slot Page) {data : WorkData} (hdata : data ∈ s.queue.pending)
    {wr : SendWr} (hwr : wr ∈ PutQueue.batchSends data) :
    (s.queue.sendPage page).1.keypageMmPool wr.slot = s.queue.keypageMmPool wr.slot := by
  rcases s.queue.sendPage_cases page with ⟨-, hrej⟩ | ⟨hw, q', hacc, -, -, -, -, -, hpool, -⟩
  · rw [hrej]
  · rw [hacc]
    have hmsg := (h.holds data hdata).msgId
    obtain ⟨i, hi, rfl⟩ := List.mem_map.mp hwr
    have hlt := List.mem_range.mp hi
    simp only [numPutBatch] at hlt ⊢
    rw [hpool, Function.update_of_ne (h.slot_ne hw hdata (by omega))]

theorem Inv.faithful (h : s.Inv) : s.Faithful where
  once := flatMap_batchNumbers_nodup (List.nodup_append.mp h.nodup_all).1
  full j hj := by
    have hmem : j / 32 ∈ s.ran ++ s.queue.work.map WorkData.batch :=
      h.once.mem_iff.mpr (List.mem_range.mpr hj)
    have hposted : j ∈ s.posted ↔ j / 32 ∈ s.ran := by
      unfold PutRun.posted
      rw [List.mem_flatMap]
      constructor
      · rintro ⟨b, hb, hjb⟩
        rwa [mem_batchNumbers.mp hjb]
      · exact fun hb => ⟨_, hb, mem_batchNumbers.mpr rfl⟩
    rw [hposted]
    constructor
    · rintro ⟨data, hdata, hb⟩ hran
      exact (List.nodup_append.mp h.nodup_all).2.2 _ hran _ (List.mem_map_of_mem hdata) hb.symm
    · intro hran
      rcases List.mem_append.mp hmem with hin | hwork
      · exact absurd hin hran
      · exact List.mem_map.mp hwork
  accepted j hj := by
    obtain ⟨b, hb, hjb⟩ := List.mem_flatMap.mp hj
    have hlt := h.ran_lt hb
    have hdiv := mem_batchNumbers.mp hjb
    omega
  bytes := by
    rw [h.posted]
    unfold PutRun.posted
    rw [List.map_flatMap, List.map_flatMap]
    apply List.flatMap_congr
    intro b hb
    exact batchOf_numbers (h.ran_lt hb)
  kept page data hdata wr hwr := h.kept page hdata hwr
  rejected page hrej := by
    have heq := PutQueue.sendPage_rejected hrej
    refine ⟨by rw [heq], ?_⟩
    simp only [PutRun.step, heq]
    rfl

end PutRun

/-- In every run of callers and work items the accepted puts are posted at most
once, with the bytes that were accepted, and exactly once when the item of their
batch runs. -/
theorem put_posted_once {Page : Type} {s : PutRun Page} (h : (putSystem Page).Reachable s) :
    s.Faithful :=
  (PutRun.reachable_inv h).faithful

/-- A batch is full, its item has run and the adapter has read two slots. -/
def oneBatch : List (PutStep ℕ) :=
  (List.range 33).map (fun i => .sendPage ⟨i, 5⟩) ++ [.post 0, .transmit, .transmit]

theorem put_posted_once_oneBatch :
    ∃ s, (putSystem ℕ).exec { queue := { keypageMmPool := fun _ => ⟨0, 0⟩ } } oneBatch = some s ∧
      s.sent.map (fun m => m.1.data) = [0, 1] ∧ s.posted = List.range 32 ∧ s.Faithful := by
  have hobs : ((putSystem ℕ).exec { queue := { keypageMmPool := fun _ => ⟨0, 0⟩ } } oneBatch).map
      (fun s => (s.sent.map (fun m => m.1.data), s.posted)) = some ([0, 1], List.range 32) := by
    decide +kernel
  obtain ⟨s, hrun, hs⟩ := Option.map_eq_some_iff.mp hobs
  obtain ⟨hsent, hposted⟩ := Prod.mk.inj hs
  exact ⟨s, hrun, hsent, hposted, put_posted_once ⟨_, oneBatch, ⟨_, rfl⟩, hrun⟩⟩

end CleancacheRdma.Driver
