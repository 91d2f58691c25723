import Mathlib
import CleancacheRdma.Lib.Overlay
import CleancacheRdma.Daemon.Content
import CleancacheRdma.Daemon.Credits

/-!
# Completions wait for a handler

What a client sends is written to memory when it arrives, by the adapter, which
uses up a receive and adds a completion to the queue of the connection. A
thread of the daemon calls `process_recv` or `process_imm` later, and they see
the memory of that moment. A call is still one step.
-/

namespace CleancacheRdma.Daemon

open Lib (System overlay)

/-! ## Arrivals -/

/-- A `SEND`, or an `RDMA_WRITE_WITH_IMM` to the metadata region. -/
inductive Arrival (Page : Type) where
  | send (msg : Message Page) (imm : BitVec 32)
  | writeImm (off : ℕ) (words : List (BitVec 64)) (imm : BitVec 32)

/-- A `struct ibv_wc`. The handlers read `wr_id`, the opcode and `imm_data`,
not the message, which is in memory by then. -/
structure Completion (Page : Type) where
  wrId : Value
  arrival : Arrival Page

/-- The word that ends up at an offset. -/
def wordAt : ℕ → List (BitVec 64) → ℕ → Option (BitVec 64)
  | _, [], _ => none
  | off, w :: ws, k => (wordAt (off + 8) ws k).or (if k = off then some w else none)

/-- The offsets of the metadata region that a request is about. -/
def requestCells (qid : ℕ) (imm : BitVec 32) : List ℕ :=
  match MsgType.ofCode (bitUnmask (ntohl imm)).msg with
  | some .read => [readKeyOffset qid, addrOffset qid]
  | some .invPage => [invKeyOffset qid (bitUnmask (ntohl imm)).mid]
  | _ => []

namespace Arrival

variable {Page : Type}

/-- The arrival and its handler in one step. -/
def atOnce (cid qid : ℕ) (d : Draw) : Arrival Page → ServerStep Page
  | .send msg imm => .send cid qid msg imm d
  | .writeImm off words imm => .writeImm cid qid off words imm d

/-- What it writes to the buffer of its receive. -/
def page (addr : Value) : Arrival Page → Value → Option (Slot Page)
  | .send (.slot b) _ => fun a => if a = addr then some b else none
  | _ => fun _ => none

/-- What it writes to the metadata region of the client, by client and offset. -/
def words (cid : ℕ) : Arrival Page → ℕ × ℕ → Option (BitVec 64)
  | .writeImm off ws _ => fun k => if k.1 = cid then wordAt off ws k.2 else none
  | .send _ _ => fun _ => none

/-- The address of the client's own region, if that is what it brings. -/
def base (cid : ℕ) : Arrival Page → ℕ → Option (BitVec 64)
  | .send (.mmInfo baseaddr) _ => fun c => if c = cid then some baseaddr else none
  | _ => fun _ => none

/-- The offsets it writes to. -/
def cells : Arrival Page → List ℕ
  | .writeImm off ws _ => (List.range ws.length).map fun i => off + 8 * i
  | .send _ _ => []

/-- The offsets its handler reads. -/
def reads (qid : ℕ) : Arrival Page → List ℕ
  | .writeImm _ _ imm => requestCells qid imm
  | .send _ _ => []

def IsMmInfo : Arrival Page → Prop
  | .send (.mmInfo _) _ => True
  | _ => False

instance : (x : Arrival Page) → Decidable x.IsMmInfo
  | .send (.mmInfo _) _ => isTrue trivial
  | .send (.slot _) _ | .send .empty _ | .writeImm _ _ _ => isFalse id

/-- A filter request, on the filter queue. -/
def AsksFilter (qid : ℕ) : Arrival Page → Prop
  | .send _ imm => qid = numDataQps ∧ imm = FILTER_UPDATE_BEGIN
  | .writeImm _ _ _ => False

instance (qid : ℕ) : (x : Arrival Page) → Decidable (x.AsksFilter qid)
  | .send _ _ => inferInstanceAs (Decidable (_ ∧ _))
  | .writeImm _ _ _ => isFalse id

/-- The receive it takes is one it can take. -/
def Fits (addr : Value) : Arrival Page → Prop
  | .send (.slot _) _ => addr ≠ NONE ∧ addr ≠ FAILED
  | .send _ _ => addr = NONE
  | .writeImm _ _ _ => True

/-- Two messages of one client neither write nor read what the other writes.
It sends its region once, and asks for the filter when that has been handled. -/
structure Apart (i : ℕ) (x : Arrival Page) (j : ℕ) (y : Arrival Page) : Prop where
  cells : ∀ k ∈ x.cells, k ∉ y.cells ∧ k ∉ y.reads j
  reads : ∀ k ∈ x.reads i, k ∉ y.cells
  base : ¬ (x.IsMmInfo ∧ (y.IsMmInfo ∨ y.AsksFilter j)) ∧ ¬ (x.AsksFilter i ∧ y.IsMmInfo)

instance (i : ℕ) (x : Arrival Page) (j : ℕ) (y : Arrival Page) : Decidable (x.Apart i j y) :=
  decidable_of_iff ((∀ k ∈ x.cells, k ∉ y.cells ∧ k ∉ y.reads j) ∧ (∀ k ∈ x.reads i, k ∉ y.cells) ∧
      ¬ (x.IsMmInfo ∧ (y.IsMmInfo ∨ y.AsksFilter j)) ∧ ¬ (x.AsksFilter i ∧ y.IsMmInfo))
    ⟨fun h => ⟨h.1, h.2.1, h.2.2⟩, fun h => ⟨h.cells, h.reads, h.base⟩⟩

end Arrival

/-! ## The daemon and its queues -/

namespace Server

variable {Page : Type} (hash : HashFuncs) (exclusivePolicy : Bool) (s : Server Page)

/-- What the adapter does with an arrival, its receive aside. -/
def land (cid : ℕ) (addr : Value) : Arrival Page → Option (Server Page)
  | .send msg _ => s.deliver cid addr msg
  | .writeImm off words _ => some (s.remoteWrite cid off words)

/-- The `switch` of the pollers over `wc.opcode`. -/
def process (cid qid : ℕ) (c : Completion Page) (d : Draw) :
    Option (Server Page × Option (Reply Page)) :=
  match c.arrival with
  | .send _ imm => (s.processRecv hash cid qid c.wrId imm d).toOption
  | .writeImm _ _ imm => some (s.processImm hash exclusivePolicy cid qid imm d)

end Server

/-- `cqs (cid, qid)` are the completions that no handler has taken, the oldest
first; `replies` is what was sent, with the queue it was sent on. -/
structure QueuedServer (Page : Type) where
  server : Server Page
  cqs : ℕ × ℕ → List (Completion Page) := fun _ => []
  replies : List ((ℕ × ℕ) × Reply Page) := []

inductive QueuedStep (Page : Type) where
  | arrive (cid qid : ℕ) (x : Arrival Page)
  | handle (cid qid : ℕ) (d : Draw)
  | own (a : ServerStep Page)

namespace QueuedServer

variable {Page : Type} (hash : HashFuncs) (exclusivePolicy : Bool) (s : QueuedServer Page)

/-- The steps that no client causes are those of the daemon. -/
def step : QueuedStep Page → Option (QueuedServer Page)
  | .arrive cid qid x =>
      match (s.server.recvs (cid, qid)).head? with
      | none => none
      | some addr =>
          ((s.server.popRecv cid qid).land cid addr x).map fun server =>
            { s with
              server
              cqs := Function.update s.cqs (cid, qid) (s.cqs (cid, qid) ++ [⟨addr, x⟩]) }
  | .handle cid qid d =>
      match s.cqs (cid, qid) with
      | [] => none
      | c :: rest =>
          (s.server.process hash exclusivePolicy cid qid c d).map fun r =>
            { server := r.1
              cqs := Function.update s.cqs (cid, qid) rest
              replies := s.replies ++ r.2.toList.map fun r => ((cid, qid), r) }
  | .own a =>
      match a.queue with
      | some _ => none
      | none => (s.server.step hash exclusivePolicy a).map fun r => { s with server := r.1 }

/-- What a client may send next: a message it may send to the daemon at all,
apart from those of its own that wait. -/
def Orderly : QueuedStep Page → Prop
  | .arrive cid qid x =>
      s.server.WellFormed (x.atOnce cid qid {}) ∧
        ∀ i < numQps, ∀ c ∈ s.cqs (cid, i), x.Apart qid i c.arrival
  | .handle _ _ _ => True
  | .own a => s.server.WellFormed a

instance : (a : QueuedStep Page) → Decidable (s.Orderly a)
  | .arrive _ _ _ => inferInstanceAs (Decidable (_ ∧ _))
  | .handle _ _ _ => isTrue trivial
  | .own a => inferInstanceAs (Decidable (s.server.WellFormed a))

end QueuedServer

/-- The daemon from the start on, with its completion queues. -/
def queuedSystem {Page : Type} (hash : HashFuncs) (exclusivePolicy : Bool) (s₀ : Server Page) :
    System (QueuedServer Page) (QueuedStep Page) where
  init s := s = { server := s₀ }
  step := QueuedServer.step hash exclusivePolicy

/-! ## What a step does -/

namespace QueuedServer

variable {Page : Type} {hash : HashFuncs} {exclusivePolicy : Bool} {s s' : QueuedServer Page}
  {cid qid : ℕ}

theorem step_arrive {x : Arrival Page}
    (h : s.step hash exclusivePolicy (.arrive cid qid x) = some s') :
    ∃ addr server, (s.server.recvs (cid, qid)).head? = some addr ∧
      (s.server.popRecv cid qid).land cid addr x = some server ∧
      s' = { s with
        server
        cqs := Function.update s.cqs (cid, qid) (s.cqs (cid, qid) ++ [⟨addr, x⟩]) } := by
  simp only [step] at h
  split at h
  · cases h
  next addr hhead =>
    obtain ⟨server, hland, rfl⟩ := Option.map_eq_some_iff.mp h
    exact ⟨addr, server, hhead, hland, rfl⟩

theorem step_handle {d : Draw} (h : s.step hash exclusivePolicy (.handle cid qid d) = some s') :
    ∃ c rest server r, s.cqs (cid, qid) = c :: rest ∧
      s.server.process hash exclusivePolicy cid qid c d = some (server, r) ∧
      s' = { server
             cqs := Function.update s.cqs (cid, qid) rest
             replies := s.replies ++ r.toList.map fun r => ((cid, qid), r) } := by
  simp only [step] at h
  split at h
  · cases h
  next c rest hcq =>
    obtain ⟨⟨server, r⟩, hprocess, rfl⟩ := Option.map_eq_some_iff.mp h
    exact ⟨c, rest, server, r, hcq, hprocess, rfl⟩

theorem step_own {a : ServerStep Page} (h : s.step hash exclusivePolicy (.own a) = some s') :
    a.queue = none ∧ ∃ server r, s.server.step hash exclusivePolicy a = some (server, r) ∧
      s' = { s with server } := by
  simp only [step] at h
  split at h
  · cases h
  next hqueue =>
    obtain ⟨⟨server, r⟩, hstep, rfl⟩ := Option.map_eq_some_iff.mp h
    exact ⟨hqueue, server, r, hstep, rfl⟩

end QueuedServer

/-! ## Landing -/

theorem storeWords_apply (off : ℕ) (words : List (BitVec 64)) (region : ℕ → BitVec 64) (k : ℕ) :
    Server.storeWords off words region k = (wordAt off words k).getD (region k) := by
  induction words generalizing off region with
  | nil => rfl
  | cons w ws ih =>
      rw [Server.storeWords, ih, wordAt]
      by_cases hk : k = off
      · subst hk
        rw [Function.update_self, if_pos rfl]
        cases wordAt (k + 8) ws k with
        | none => rfl
        | some v => rfl
      · rw [Function.update_of_ne hk, if_neg hk, Option.or_none]

theorem mem_cells_of_wordAt {off : ℕ} {words : List (BitVec 64)} {k : ℕ}
    (h : wordAt off words k ≠ none) : ∃ i < words.length, k = off + 8 * i := by
  induction words generalizing off with
  | nil => exact absurd rfl h
  | cons w ws ih =>
      by_cases hrest : wordAt (off + 8) ws k = none
      · rw [wordAt, hrest, Option.none_or] at h
        refine ⟨0, Nat.succ_pos _, ?_⟩
        by_contra hne
        exact h (if_neg hne)
      · obtain ⟨i, hi, hk⟩ := ih hrest
        refine ⟨i + 1, Nat.succ_lt_succ hi, ?_⟩
        rw [hk]
        ring

namespace Arrival

variable {Page : Type} {x y : Arrival Page} {cid qid i j : ℕ} {addr : Value}

theorem mem_cells_of_words {k : ℕ × ℕ} (h : x.words cid k ≠ none) : k.1 = cid ∧ k.2 ∈ x.cells := by
  cases x with
  | send msg imm => exact absurd rfl h
  | writeImm off ws imm =>
      unfold words at h
      dsimp only at h
      split at h
      next hcid =>
        obtain ⟨i, hi, hk⟩ := mem_cells_of_wordAt h
        exact ⟨hcid, List.mem_map.mpr ⟨i, List.mem_range.mpr hi, hk.symm⟩⟩
      · exact absurd rfl h

theorem isMmInfo_of_base {c : ℕ} (h : x.base cid c ≠ none) : c = cid ∧ x.IsMmInfo := by
  cases x with
  | writeImm off ws imm => exact absurd rfl h
  | send msg imm =>
      cases msg with
      | mmInfo baseaddr =>
          unfold base at h
          dsimp only at h
          split at h
          next hcid => exact ⟨hcid, trivial⟩
          · exact absurd rfl h
      | slot b => exact absurd rfl h
      | empty => exact absurd rfl h

theorem fits_of_page {a : Value} (hfits : x.Fits addr) (h : x.page addr a ≠ none) :
    a = addr ∧ addr ≠ NONE ∧ addr ≠ FAILED := by
  cases x with
  | writeImm off ws imm => exact absurd rfl h
  | send msg imm =>
      cases msg with
      | slot b =>
          unfold page at h
          dsimp only at h
          split at h
          next ha => exact ⟨ha, hfits⟩
          · exact absurd rfl h
      | mmInfo baseaddr => exact absurd rfl h
      | empty => exact absurd rfl h

theorem Apart.symm (h : x.Apart i j y) : y.Apart j i x where
  cells k hk := ⟨fun hx => (h.cells k hx).1 hk, fun hx => h.reads k hx hk⟩
  reads k hk hx := (h.cells k hx).2 hk
  base := by
    obtain ⟨hinfo, hasks⟩ := h.base
    exact ⟨fun ⟨hy, hor⟩ => hor.elim (fun hx => hinfo ⟨hx, Or.inl hy⟩) fun hx => hasks ⟨hx, hy⟩,
      fun ⟨hy, hx⟩ => hinfo ⟨hx, Or.inr hy⟩⟩

/-- What the one writes the other does not. -/
theorem Apart.words_none (h : x.Apart i j y) {cid' : ℕ} {k : ℕ × ℕ} (hx : x.words cid k ≠ none) :
    y.words cid' k = none := by
  by_contra hy
  exact (h.cells k.2 (mem_cells_of_words hx).2).1 (mem_cells_of_words hy).2

theorem Apart.base_none (h : x.Apart i j y) {cid' c : ℕ} (hx : x.base cid c ≠ none) :
    y.base cid' c = none := by
  by_contra hy
  exact h.base.1 ⟨(isMmInfo_of_base hx).2, Or.inl (isMmInfo_of_base hy).2⟩

/-- What the one reads the other leaves alone. -/
theorem Apart.reads_none (h : x.Apart i j y) {k : ℕ} (hk : k ∈ y.reads j) {cid' : ℕ} :
    x.words cid (cid', k) = none := by
  by_contra hx
  exact (h.cells k (mem_cells_of_words hx).2).2 hk

end Arrival

namespace Server

variable {Page : Type} {s t : Server Page} {x : Arrival Page} {cid qid : ℕ} {addr : Value}

/-- The three memories after an arrival. -/
def landed (s : Server Page) (cid : ℕ) (addr : Value) (x : Arrival Page) : Server Page :=
  { s with
    mem := overlay (x.page addr) s.mem
    metaRegion := fun c k => overlay (x.words cid) (fun k => s.metaRegion k.1 k.2) (c, k)
    clientMR := overlay (x.base cid) s.clientMR }

theorem deliver_eq {msg : Message Page} {imm : BitVec 32}
    (h : (Arrival.send msg imm).Fits addr) :
    s.deliver cid addr msg = some (s.landed cid addr (.send msg imm)) := by
  have hpage : ∀ b : Slot Page, Function.update s.mem addr b =
      overlay (fun a => if a = addr then some b else none) s.mem := by
    intro b
    ext a
    by_cases ha : a = addr
    · simp [overlay, ha]
    · simp [overlay, ha]
  have hbase : ∀ b : BitVec 64, Function.update s.clientMR cid b =
      overlay (fun c => if c = cid then some b else none) s.clientMR := by
    intro b
    ext c
    by_cases hc : c = cid
    · simp [overlay, hc]
    · simp [overlay, hc]
  cases msg with
  | slot b =>
      rw [deliver, if_neg (not_or.mpr h), hpage]
      rfl
  | mmInfo baseaddr =>
      rw [deliver, if_pos (show addr = NONE from h), hbase]
      rfl
  | empty =>
      rw [deliver, if_pos (show addr = NONE from h)]
      rfl

theorem remoteWrite_eq (off : ℕ) (ws : List (BitVec 64)) (imm : BitVec 32) :
    s.remoteWrite cid off ws = s.landed cid addr (.writeImm off ws imm) := by
  have hregion : Function.update s.metaRegion cid (storeWords off ws (s.metaRegion cid)) =
      fun c k => overlay ((Arrival.writeImm off ws imm : Arrival Page).words cid)
        (fun k => s.metaRegion k.1 k.2) (c, k) := by
    ext c k
    by_cases hc : c = cid
    · subst hc
      rw [Function.update_self, storeWords_apply]
      simp [overlay, Arrival.words]
    · rw [Function.update_of_ne hc]
      simp [overlay, Arrival.words, hc]
  unfold remoteWrite landed
  rw [hregion]
  rfl

theorem land_of_fits (h : x.Fits addr) : s.land cid addr x = some (s.landed cid addr x) := by
  cases x with
  | send msg imm => exact deliver_eq h
  | writeImm off ws imm => exact congrArg some (remoteWrite_eq off ws imm)

theorem fits_of_land (h : s.land cid addr x = some t) : x.Fits addr := by
  cases x with
  | writeImm off ws imm => trivial
  | send msg imm =>
      obtain ⟨-, -, hmem⟩ := deliver_some (s := s) h
      cases msg with
      | slot b =>
          rcases hmem with ⟨rfl, -⟩ | ⟨hnull, hfailed, -⟩
          · simp [land, deliver] at h
          · exact ⟨hnull, hfailed⟩
      | mmInfo baseaddr =>
          rcases hmem with ⟨hnone, -⟩ | ⟨-, -, b, hb, -⟩
          · exact hnone
          · cases hb
      | empty =>
          rcases hmem with ⟨hnone, -⟩ | ⟨-, -, b, hb, -⟩
          · exact hnone
          · cases hb

/-- The step that does both at once, on a queue with a receive. -/
theorem step_atOnce {hash : HashFuncs} {exclusivePolicy : Bool} {d : Draw}
    (hhead : (s.recvs (cid, qid)).head? = some addr) (hfits : x.Fits addr) :
    s.step hash exclusivePolicy (x.atOnce cid qid d) =
      ((s.popRecv cid qid).landed cid addr x).process hash exclusivePolicy cid qid ⟨addr, x⟩ d := by
  cases x with
  | send msg imm =>
      simp only [Arrival.atOnce, step, hhead, deliver_eq hfits, Option.bind_some, process]
  | writeImm off ws imm =>
      simp only [Arrival.atOnce, step, hhead, process, ← remoteWrite_eq]

end Server

end CleancacheRdma.Daemon
