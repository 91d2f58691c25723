import Mathlib
import CleancacheRdma.Daemon.Imm

/-!
# What a get makes of its reply

Translated from `dcc_rdma_write_msg` of the driver's `rdma.c` and what it calls.
A call is here what its steps bring it: whether the request could be allocated
and mapped, the completion of the receive, what the variable `crc` holds before
it is set, and the page as the reply left it.
-/

namespace CleancacheRdma.Driver

open Daemon (HashFuncs Server Reply Draw MsgType TxState ImmFields bitMask bitUnmask htonl ntohl
  NONE bitUnmask_wire)

/-- The fields of a `struct ib_wc` that are read. `IB_WC_SUCCESS` is 0. -/
structure Wc where
  status : ℕ
  immData : BitVec 32

/-- The fields of its immediate. -/
def Wc.fields (wc : Wc) : ImmFields := bitUnmask (ntohl wc.immData)

/-- `poll_recv_cq`: the result and what `*crc` holds then. A failed status has
been reported by `__poll_cq` and is not looked at. -/
def pollRecvCq (wc : Wc) (crc : BitVec 32) : ℤ × BitVec 32 :=
  if wc.immData = 0 then (0, crc)
  else
    let crc := BitVec.ofNat 32 wc.fields.crc
    let txState := wc.fields.tx
    if txState = TxState.writeCommitted.code ∨ txState = TxState.invPageCommited.code then (0, crc)
    else if txState = TxState.readCommitted.code then (0, crc)
    else if txState = TxState.readAborted.code ∨ txState = TxState.invPageAborted.code then (1, crc)
    else (-1, crc)

/-- `get_req_for_page`. The test after the allocation looks at `req` and not at
`*req`, so a failed allocation is written to: there is no result. -/
def getReqForPage (allocated mapped : Bool) : Option ℤ :=
  if allocated = false then none
  else if mapped = false then some (-12)
  else some 0

structure GetCall (Page : Type) where
  allocated : Bool
  mapped : Bool
  wc : Wc
  crc : BitVec 32
  page : Page

namespace GetCall

variable {Page : Type} (c : GetCall Page)

/-- `dcc_rdma_write_msg`. An error of `get_req_for_page` is reported, and
overwritten by the result of the poll. -/
def writeMsg : Option ℤ :=
  (getReqForPage c.allocated c.mapped).map fun _ =>
    let r := pollRecvCq c.wc c.crc
    if r.1 = 0 ∧ r.2.setWidth 8 ≠ BitVec.ofNat 8 (Server.crc8 c.page) then -4 else r.1

/-- The page was mapped, and a committed read arrived for it. -/
structure Real : Prop where
  mapped : c.allocated = true ∧ c.mapped = true
  status : c.wc.status = 0
  tx : c.wc.fields.tx = TxState.readCommitted.code
  crc : BitVec.ofNat 8 c.wc.fields.crc = BitVec.ofNat 8 (Server.crc8 c.page)

/-- 0 is returned for a real reply only, and without one something else. -/
structure Faithful : Prop where
  hit : c.writeMsg = some 0 → c.Real
  miss : ¬ c.Real → ∃ ret, c.writeMsg = some ret ∧ ret ≠ 0

/-- The states that `poll_recv_cq` maps to 0. -/
def Committed (txState : ℕ) : Prop :=
  txState = TxState.writeCommitted.code ∨ txState = TxState.invPageCommited.code ∨
    txState = TxState.readCommitted.code

instance (txState : ℕ) : Decidable (Committed txState) := inferInstanceAs (Decidable (_ ∨ _))

/-- None of the branches is taken that loses a failure: the failed allocation,
the early return with a `crc` that happens to match, and a committed state with
a matching `crc` that is not a read into a mapped page, completed with success. -/
structure Guarded : Prop where
  allocated : c.allocated = true
  early : c.wc.immData = 0 → c.crc.setWidth 8 ≠ BitVec.ofNat 8 (Server.crc8 c.page)
  committed : c.wc.immData ≠ 0 → Committed c.wc.fields.tx →
    BitVec.ofNat 8 c.wc.fields.crc = BitVec.ofNat 8 (Server.crc8 c.page) →
    c.mapped = true ∧ c.wc.status = 0 ∧ c.wc.fields.tx = TxState.readCommitted.code

variable {c}

theorem fields_zero {wc : Wc} (h : wc.immData = 0) : wc.fields = ⟨0, 0, 0, 0, 0⟩ := by
  rw [Wc.fields, h]
  decide

/-- The result of the poll is 0 for a zero immediate and for a committed state. -/
theorem pollRecvCq_fst (wc : Wc) (crc : BitVec 32) :
    (pollRecvCq wc crc).1 = 0 ↔ wc.immData = 0 ∨ Committed wc.fields.tx := by
  unfold pollRecvCq Committed
  dsimp only
  split
  next hzero => exact iff_of_true rfl (Or.inl hzero)
  next hzero =>
    rw [or_iff_right hzero]
    split
    next hwrite => exact iff_of_true rfl (hwrite.imp_right Or.inl)
    next hwrite =>
      rw [not_or] at hwrite
      rw [or_iff_right hwrite.1, or_iff_right hwrite.2]
      split
      next hread => exact iff_of_true rfl hread
      next hread =>
        split
        · exact iff_of_false (by decide : ¬ (1 : ℤ) = 0) hread
        · exact iff_of_false (by decide : ¬ (-1 : ℤ) = 0) hread

theorem pollRecvCq_snd (wc : Wc) (crc : BitVec 32) :
    (pollRecvCq wc crc).2 = if wc.immData = 0 then crc else BitVec.ofNat 32 wc.fields.crc := by
  unfold pollRecvCq
  dsimp only
  rw [apply_ite Prod.snd]
  congr 1
  rw [apply_ite Prod.snd, apply_ite Prod.snd, apply_ite Prod.snd, ite_self, ite_self, ite_self]

theorem getReqForPage_isSome {allocated mapped : Bool} :
    (getReqForPage allocated mapped).isSome = allocated := by
  cases allocated with
  | false => rfl
  | true =>
      cases mapped with
      | false => rfl
      | true => rfl

/-- Without the allocation there is no result, else it is that of the poll and
of the comparison after it. -/
theorem writeMsg_eq_some {ret : ℤ} : c.writeMsg = some ret ↔ c.allocated = true ∧
    (if (pollRecvCq c.wc c.crc).1 = 0 ∧
        (pollRecvCq c.wc c.crc).2.setWidth 8 ≠ BitVec.ofNat 8 (Server.crc8 c.page) then -4
      else (pollRecvCq c.wc c.crc).1) = ret := by
  have hsome := @getReqForPage_isSome c.allocated c.mapped
  unfold writeMsg
  cases hreq : getReqForPage c.allocated c.mapped with
  | none =>
      rw [hreq] at hsome
      rw [← hsome]
      exact iff_of_false (by simp) (by simp)
  | some r =>
      rw [hreq] at hsome
      rw [← hsome]
      simp

/-- When the call returns 0. -/
theorem writeMsg_zero : c.writeMsg = some 0 ↔ c.allocated = true ∧
    (c.wc.immData = 0 ∨ Committed c.wc.fields.tx) ∧
    (if c.wc.immData = 0 then c.crc.setWidth 8 else BitVec.ofNat 8 c.wc.fields.crc) =
      BitVec.ofNat 8 (Server.crc8 c.page) := by
  have hcut : (if c.wc.immData = 0 then c.crc.setWidth 8 else BitVec.ofNat 8 c.wc.fields.crc) =
      (pollRecvCq c.wc c.crc).2.setWidth 8 := by
    rw [pollRecvCq_snd, apply_ite (BitVec.setWidth 8)]
    congr 1
    rw [BitVec.setWidth_ofNat_of_le (by decide)]
  rw [writeMsg_eq_some, hcut, ← pollRecvCq_fst c.wc c.crc]
  refine and_congr_right fun _ => ?_
  split
  next h => exact iff_of_false (by decide) fun h' => h.2 h'.2
  next h =>
    constructor
    · intro hret
      exact ⟨hret, not_not.mp fun hne => h ⟨hret, hne⟩⟩
    · exact And.left

theorem Real.immData_ne (h : c.Real) : c.wc.immData ≠ 0 := by
  intro hzero
  have htx := h.tx
  rw [fields_zero hzero] at htx
  cases htx

/-- A get is told the truth exactly when no failure is lost on the way. -/
theorem faithful_iff (c : GetCall Page) : c.Faithful ↔ c.Guarded := by
  constructor
  · rintro ⟨hhit, hmiss⟩
    have hallocated : c.allocated = true := by
      by_cases hreal : c.Real
      · exact hreal.mapped.1
      · obtain ⟨ret, hret, -⟩ := hmiss hreal
        exact (writeMsg_eq_some.mp hret).1
    refine ⟨hallocated, fun hzero hcrc => ?_, fun hne htx hcrc => ?_⟩
    · have hreal := hhit (writeMsg_zero.mpr ⟨hallocated, Or.inl hzero, by rwa [if_pos hzero]⟩)
      exact hreal.immData_ne hzero
    · have hreal := hhit (writeMsg_zero.mpr ⟨hallocated, Or.inr htx, by rwa [if_neg hne]⟩)
      exact ⟨hreal.mapped.2, hreal.status, hreal.tx⟩
  · rintro ⟨hallocated, hearly, hcommitted⟩
    have hhit : c.writeMsg = some 0 → c.Real := by
      intro hret
      obtain ⟨-, hzero, hcrc⟩ := writeMsg_zero.mp hret
      by_cases himm : c.wc.immData = 0
      · rw [if_pos himm] at hcrc
        exact absurd hcrc (hearly himm)
      · rw [if_neg himm] at hcrc
        obtain ⟨hmapped, hstatus, htx⟩ := hcommitted himm (hzero.resolve_left himm) hcrc
        exact ⟨⟨hallocated, hmapped⟩, hstatus, htx, hcrc⟩
    refine ⟨hhit, fun hreal => ?_⟩
    exact ⟨_, writeMsg_eq_some.mpr ⟨hallocated, rfl⟩,
      fun hzero => hreal (hhit (writeMsg_eq_some.mpr ⟨hallocated, hzero⟩))⟩

/-- A flushed receive: the status tells the failure, the immediate is 0. -/
def flushed : GetCall ℕ where
  allocated := true
  mapped := true
  wc := ⟨5, 0⟩
  crc := 0
  page := 0

theorem writeMsg_flushed : flushed.writeMsg = some 0 ∧ ¬ flushed.Real ∧ ¬ flushed.Faithful := by
  have hzero : flushed.writeMsg = some 0 := by decide
  have hreal : ¬ flushed.Real := fun h => h.immData_ne rfl
  exact ⟨hzero, hreal, fun h => hreal (h.hit hzero)⟩

/-! ## Replies of the daemon -/

/-- The immediate of a reply to a get reads back. -/
theorem fields_readReply {mid tx : ℕ} (hmid : mid < 2 ^ 12) (htx : tx < 2 ^ 4) (status : ℕ) :
    (Wc.mk status (htonl (bitMask mid MsgType.readReply.code tx 0 0))).fields =
      ⟨mid, MsgType.readReply.code, tx, 0, 0⟩ :=
  bitUnmask_wire (f := ⟨mid, MsgType.readReply.code, tx, 0, 0⟩)
    ⟨hmid, (by decide : 8 < 2 ^ 4), htx, (by decide : 0 < 2 ^ 4), (by decide : 0 < 2 ^ 8)⟩

theorem immData_readReply {mid tx : ℕ} (hmid : mid < 2 ^ 12) (htx : tx < 2 ^ 4) :
    htonl (bitMask mid MsgType.readReply.code tx 0 0) ≠ 0 := by
  intro hzero
  have hmsg := congrArg ImmFields.msg (fields_readReply hmid htx 0)
  rw [fields_zero hzero] at hmsg
  cases hmsg

theorem writeMsg_readCommitted {mid : ℕ} (hallocated : c.allocated = true)
    (hne : c.wc.immData ≠ 0)
    (hfields : c.wc.fields = ⟨mid, MsgType.readReply.code, TxState.readCommitted.code, 0, 0⟩) :
    c.writeMsg = some 0 := by
  refine writeMsg_zero.mpr ⟨hallocated, Or.inr ?_, ?_⟩
  · rw [hfields]
    exact Or.inr (Or.inr rfl)
  · rw [if_neg hne, hfields]
    rfl

theorem writeMsg_readAborted {mid : ℕ} (hallocated : c.allocated = true)
    (hne : c.wc.immData ≠ 0)
    (hfields : c.wc.fields = ⟨mid, MsgType.readReply.code, TxState.readAborted.code, 0, 0⟩) :
    c.writeMsg = some 1 := by
  have hpoll : pollRecvCq c.wc c.crc = (1, 0) := by
    unfold pollRecvCq
    rw [if_neg hne, hfields]
    rfl
  refine writeMsg_eq_some.mpr ⟨hallocated, ?_⟩
  rw [hpoll]
  exact if_neg fun h => absurd h.1 (by decide)

/-- A reply to a get, received for a mapped page, is the hit or the miss the
daemon made it. -/
theorem writeMsg_processGet {hash : HashFuncs} {exclusivePolicy : Bool} {s : Server Page}
    {cid qid mid : ℕ} {d : Draw} {r : Reply Page} (hmid : mid < 2 ^ 12)
    (hr : (s.processGet hash exclusivePolicy cid qid mid d).2 = r) (page : Page)
    (crc : BitVec 32) :
    (GetCall.mk true true ⟨0, r.imm⟩ crc page).writeMsg = some 0 ∧ (∃ data, r.payload = .page data) ∨
    (GetCall.mk true true ⟨0, r.imm⟩ crc page).writeMsg = some 1 ∧ r.payload = .empty := by
  unfold Server.processGet at hr
  dsimp only at hr
  generalize (if exclusivePolicy then _ else _ : Daemon.KV × Daemon.Value) = found at hr
  split at hr
  · subst hr
    refine Or.inl ⟨writeMsg_readCommitted rfl ?_ (fields_readReply hmid (by decide) 0), _, rfl⟩
    exact immData_readReply hmid (by decide)
  · subst hr
    refine Or.inr ⟨writeMsg_readAborted rfl ?_ (fields_readReply hmid (by decide) 0), rfl⟩
    exact immData_readReply hmid (by decide)

end GetCall

end CleancacheRdma.Driver
