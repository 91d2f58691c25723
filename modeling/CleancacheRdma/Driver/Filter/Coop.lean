import Mathlib
import CleancacheRdma.Daemon.Snapshot
import CleancacheRdma.Driver.Filter.BloomFilter
import CleancacheRdma.Driver.LastPut

/-!
# The cooperative filter

`COOP_BF`: accepted puts are added to the client's filter at once, the daemon
counts a put when it processes it, and a refresh replaces the client's bitmap by
a snapshot of the daemon's filter. The three parts of a refresh are atomic here,
rounds of the one server follow each other.
-/

namespace CleancacheRdma.Driver

open Daemon (Slot Key HashFuncs Server ServerStep Reply Payload CountingBloomFilter numDataQps
  FILTER_UPDATE_BEGIN)
open Lib (Bitmap System)

/-- The stages of a refresh round. -/
inductive CoopRound where
  | idle
  | blocked
  | written
deriving DecidableEq

/-- Client `cid` and the daemon. -/
structure Coop (Page : Type) where
  path : PutPath Page
  filter : BloomFilter
  round : CoopRound

inductive CoopStep (Page : Type) where
  | put (page : Slot Page)
  | path (a : PutPathStep Page)
  | blocking
  | snapshot
  | unblocking

namespace Coop

variable {Page : Type}

/-- The steps of the put path that have a step of their own here: an accepted
put is added to the filter, and the filter queue serves the refresh. -/
def Reserved (cid : ℕ) : PutPathStep Page → Prop
  | .client (.sendPage _) => True
  | .server (.send c qid _ _ _) => c = cid ∧ qid = numDataQps
  | _ => False

instance (cid : ℕ) : DecidablePred (Reserved cid : PutPathStep Page → Prop) := fun a =>
  match a with
  | .client (.sendPage _) => isTrue trivial
  | .server (.send _ _ _ _ _) => inferInstanceAs (Decidable (_ ∧ _))
  | .client (.post _) | .client .transmit | .client .pollSendCq | .client .clearBit
  | .client .receive | .client (.reply _) | .client .pollRecvCq | .process _
  | .server (.prePostRecvs _ _) | .server (.recvMr _) | .server (.writeImm _ _ _ _ _ _)
  | .server (.evict _ _) | .server (.allocateFromPeer _) => isFalse not_false

def step (hash : HashFuncs) (exclusivePolicy : Bool) (cid : ℕ) (s : Coop Page) :
    CoopStep Page → Option (Coop Page)
  | .put page =>
      (s.path.step hash exclusivePolicy cid (.client (.sendPage page))).map fun path =>
        { s with
          path
          filter :=
            if (s.path.put.queue.sendPage page).2 = 0 then s.filter.add hash page.key
            else s.filter }
  | .path a =>
      if Reserved cid a then none
      else (s.path.step hash exclusivePolicy cid a).map fun path => { s with path }
  | .blocking =>
      match s.round with
      | .idle => some { s with filter := s.filter.blocking, round := .blocked }
      | _ => none
  | .snapshot =>
      match s.round, s.path.server.step hash exclusivePolicy
          (.send cid numDataQps .empty FILTER_UPDATE_BEGIN {}) with
      | .blocked, some (server, some { payload := .bitmap words, .. }) =>
          some
            { path := { s.path with server }
              filter := s.filter.receive words
              round := .written }
      | _, _ => none
  | .unblocking =>
      match s.round with
      | .written => some { s with filter := s.filter.unblocking, round := .idle }
      | _ => none

end Coop

/-- From the connection on: the filter has the shape of the daemon's. -/
def coopSystem {Page : Type} (hash : HashFuncs) (exclusivePolicy : Bool) (cid : ℕ) :
    System (Coop Page) (CoopStep Page) where
  init s := s.path.put.Initial ∧ ∃ numHash numBits,
    Daemon.KV.Shaped numHash numBits s.path.server.kv ∧ s.filter = .init numHash numBits ∧
    s.round = .idle
  step := Coop.step hash exclusivePolicy cid

namespace Coop

variable {Page : Type}

/-- A put of the key returned 0. -/
def Accepted (s : Coop Page) (key : Key) : Prop := ∃ page ∈ s.path.put.accepted, page.key = key

/-- Each bit of the key is counted by the daemon, or it was set by a key added
since `bf_blocking`. -/
def Gathered (hash : HashFuncs) (cid : ℕ) (key : Key) (s : Coop Page) : Prop :=
  ∀ i ∈ s.filter.indices hash key,
    0 < (s.path.server.kv.cbfs cid).cbfByteBitarr i ∨ s.filter.tmpBitmap.Test i

/-- When a snapshot is taken, an accepted put of `key` is in it or is kept by
the temporary bitmap. -/
def SnapshotHas (hash : HashFuncs) (cid : ℕ) (key : Key) (s : Coop Page) (a : CoopStep Page) :
    Prop :=
  a = .snapshot → s.Accepted key → s.Gathered hash cid key

/-! ## Where the bits of a key are -/

variable {hash : HashFuncs} {exclusivePolicy : Bool} {cid : ℕ} {key : Key} {s s' : Coop Page}

structure Inv (hash : HashFuncs) (cid : ℕ) (key : Key) (numHash numBits : ℕ) (s : Coop Page) :
    Prop where
  server : Daemon.KV.Shaped numHash numBits s.path.server.kv
  numHash : s.filter.numHash = numHash
  numBits : s.filter.numBits = numBits
  merging : s.filter.merging = if s.round = .idle then 0 else 1
  kept : s.round ≠ .blocked → s.Accepted key → ∀ i ∈ s.filter.indices hash key, s.filter.Seen i

variable {numHash numBits : ℕ}

/-- The daemon's filter has the client's indices. -/
theorem Inv.indices (h : s.Inv hash cid key numHash numBits) (k : Key) :
    (s.path.server.kv.cbfs cid).indices hash k = s.filter.indices hash k := by
  rw [CountingBloomFilter.indices, BloomFilter.indices, (h.server cid).1, h.numHash]
  apply List.map_congr_left
  intro i _
  rw [CountingBloomFilter.computeHash, BloomFilter.computeHash, (h.server cid).2, h.numBits]

/-! ## Steps of the put path -/

theorem path_client {s path : PutPath Page} {a : PutStep Page}
    (hstep : s.step hash exclusivePolicy cid (.client a) = some path) :
    ∃ put, s.put.step a = some put ∧ path = { s with put } := by
  have hmap : (s.put.step a).map (fun put => { s with put }) = some path := by
    cases a with
    | receive => cases hstep
    | reply imm => cases hstep
    | sendPage | post | transmit | pollSendCq | clearBit | pollRecvCq => exact hstep
  obtain ⟨put, hput, heq⟩ := Option.map_eq_some_iff.mp hmap
  exact ⟨put, hput, heq.symm⟩

theorem step_accepted {s put : PutRun Page} {a : PutStep Page} (hstep : s.step a = some put)
    (ha : ∀ page, a ≠ .sendPage page) : put.accepted = s.accepted := by
  cases a with
  | sendPage page => exact absurd rfl (ha page)
  | receive =>
      simp only [PutRun.step] at hstep
      split at hstep
      · cases hstep
      · cases hstep
        rfl
  | reply imm =>
      cases hstep
      rfl
  | post | transmit | pollSendCq | clearBit | pollRecvCq =>
      obtain ⟨q, -, rfl⟩ := Option.map_eq_some_iff.mp hstep
      rfl

theorem path_accepted {s path : PutPath Page} {a : PutPathStep Page} (ha : ¬ Reserved cid a)
    (hstep : s.step hash exclusivePolicy cid a = some path) :
    path.put.accepted = s.put.accepted := by
  cases a with
  | client a =>
      obtain ⟨put, hput, rfl⟩ := path_client hstep
      apply step_accepted hput
      rintro page rfl
      exact ha trivial
  | process d =>
      simp only [PutPath.step] at hstep
      split at hstep
      · cases hstep
      · obtain ⟨r, -, rfl⟩ := Option.map_eq_some_iff.mp hstep
        rfl
  | server a =>
      obtain ⟨r, -, rfl⟩ := Option.map_eq_some_iff.mp hstep
      rfl

theorem path_shaped {s path : PutPath Page} (h : Daemon.KV.Shaped numHash numBits s.server.kv)
    {a : PutPathStep Page} (hstep : s.step hash exclusivePolicy cid a = some path) :
    Daemon.KV.Shaped numHash numBits path.server.kv := by
  cases a with
  | client a =>
      obtain ⟨put, -, rfl⟩ := path_client hstep
      exact h
  | process d =>
      simp only [PutPath.step] at hstep
      split at hstep
      · cases hstep
      · obtain ⟨r, hr, rfl⟩ := Option.map_eq_some_iff.mp hstep
        exact Server.step_shaped h hr
  | server a =>
      obtain ⟨r, hr, rfl⟩ := Option.map_eq_some_iff.mp hstep
      exact Server.step_shaped h hr

/-! ## One step -/

/-- A put adds its key where lookups of the stage look, or changes nothing. -/
theorem Inv.put (h : s.Inv hash cid key numHash numBits) {page : Slot Page}
    (hstep : s.step hash exclusivePolicy cid (.put page) = some s') :
    s'.Inv hash cid key numHash numBits := by
  simp only [step] at hstep
  obtain ⟨path, hpath, rfl⟩ := Option.map_eq_some_iff.mp hstep
  have hserver := path_shaped h.server hpath
  obtain ⟨put, hput, rfl⟩ := path_client hpath
  cases hput
  by_cases hret : (s.path.put.queue.sendPage page).2 = 0
  · simp only [hret, if_true] at hserver ⊢
    refine ⟨hserver, (BloomFilter.add_numHash _).trans h.numHash,
      (BloomFilter.add_numBits _).trans h.numBits, (BloomFilter.add_merging _).trans h.merging,
      fun hround hkey i hi => ?_⟩
    rw [BloomFilter.indices_add] at hi
    obtain ⟨page', hmem, hkey⟩ := hkey
    rcases List.mem_append.mp hmem with hold | hnew
    · exact (h.kept hround ⟨page', hold, hkey⟩ i hi).add page.key
    · obtain rfl := List.mem_singleton.mp hnew
      apply BloomFilter.seen_of_current
      apply BloomFilter.holds_current_add
      rw [hkey]
      exact hi
  · simp only [hret, if_false] at hserver ⊢
    exact ⟨hserver, h.numHash, h.numBits, h.merging, h.kept⟩

/-- The words of a snapshot, read back bit by bit. -/
theorem test_words {f : CountingBloomFilter} {i : ℕ} (hi : i < f.numBits) :
    Bitmap.Test (fun j => ((List.range f.numLongs).map f.toOrdinaryBF.bfLongBitarr).getD j 0) i ↔
      0 < f.cbfByteBitarr i := by
  rw [← CountingBloomFilter.test_toOrdinaryBF hi]
  have hword := CountingBloomFilter.word_lt hi
  simp [Bitmap.Test, List.getD_eq_getElem?_getD, hword]

/-- What a snapshot brings: the bits that the daemon counts, and the temporary
bitmap as it was. -/
theorem Inv.snapshot (h : s.Inv hash cid key numHash numBits) (hbits : 0 < numBits)
    (hstep : s.step hash exclusivePolicy cid .snapshot = some s') :
    s'.round = .written ∧ s'.path.put = s.path.put ∧ s'.filter.numHash = numHash ∧
      s'.filter.numBits = numBits ∧ s'.filter.merging = 1 ∧
      Daemon.KV.Shaped numHash numBits s'.path.server.kv ∧
      ∀ i ∈ s.filter.indices hash key,
        s'.filter.Seen i ↔ 0 < (s.path.server.kv.cbfs cid).cbfByteBitarr i ∨
          s.filter.tmpBitmap.Test i := by
  simp only [step] at hstep
  split at hstep
  next server words imm raddr hround hserver =>
    cases hstep
    have hwords := Server.step_filterUpdate hserver
    simp only [Option.some.injEq, Reply.mk.injEq, Payload.bitmap.injEq] at hwords
    obtain ⟨-, rfl, -⟩ := hwords
    have hmerging : s.filter.merging = 1 := by rw [h.merging, hround]; rfl
    have hshaped := Server.step_shaped h.server hserver
    refine ⟨rfl, rfl, ?_, ?_, ?_, hshaped, fun i hi => ?_⟩
    · rw [BloomFilter.receive_eq]
      exact h.numHash
    · rw [BloomFilter.receive_eq]
      exact h.numBits
    · rw [BloomFilter.receive_eq]
      exact hmerging
    · have hlt : i < (s.path.server.kv.cbfs cid).numBits := by
        rw [(h.server cid).2, ← h.numBits]
        exact BloomFilter.index_lt (h.numBits ▸ hbits) hi
      have hlen : i / 64 < ((List.range (s.path.server.kv.cbfs cid).numLongs).map
          (s.path.server.kv.cbfs cid).toOrdinaryBF.bfLongBitarr).length := by
        rw [List.length_map, List.length_range]
        exact CountingBloomFilter.word_lt hlt
      refine or_congr ((BloomFilter.test_receive hlen).trans (test_words hlt)) ?_
      rw [BloomFilter.receive_eq]
      simp only [hmerging, Nat.one_pos, true_and]
  · cases hstep

/-- `bf_unblocking` keeps the bits that were seen and reports the keys whose
bits they are. -/
theorem step_unblocking (key : Key) (hbits : 0 < s.filter.numBits) (hmerging : s.filter.merging = 1)
    (hstep : s.step hash exclusivePolicy cid .unblocking = some s') :
    s.round = .written ∧ s'.round = .idle ∧ s'.path = s.path ∧
      s'.filter.numHash = s.filter.numHash ∧ s'.filter.numBits = s.filter.numBits ∧
      s'.filter.merging = 0 ∧
      (∀ i ∈ s.filter.indices hash key, s'.filter.bitmap.Test i ↔ s.filter.Seen i) ∧
      (s'.filter.mightContain hash key = true ↔
        ∀ i ∈ s.filter.indices hash key, s.filter.Seen i) := by
  simp only [step] at hstep
  split at hstep
  next hround =>
    cases hstep
    have hnumHash : s.filter.unblocking.numHash = s.filter.numHash := by
      rw [BloomFilter.unblocking_eq]
    have hnumBits : s.filter.unblocking.numBits = s.filter.numBits := by
      rw [BloomFilter.unblocking_eq]
    have hzero : s.filter.unblocking.merging = 0 := by rw [BloomFilter.unblocking_eq]
    have hseen : ∀ i ∈ s.filter.indices hash key,
        s.filter.unblocking.bitmap.Test i ↔ s.filter.Seen i := by
      intro i hi
      rw [BloomFilter.test_unblocking (BloomFilter.index_lt hbits hi)]
      simp only [BloomFilter.Seen, hmerging, Nat.one_pos, true_and]
    refine ⟨hround, rfl, rfl, hnumHash, hnumBits, hzero, hseen, ?_⟩
    have hholds : s.filter.unblocking.Holds hash s.filter.unblocking.bitmap key ↔
        ∀ i ∈ s.filter.indices hash key, s.filter.Seen i := by
      rw [BloomFilter.Holds, BloomFilter.indices_congr hnumHash hnumBits]
      exact forall₂_congr fun i hi => hseen i hi
    rw [BloomFilter.mightContain_iff, hzero, hholds]
    simp only [lt_irrefl, false_and, false_or]
  · cases hstep

theorem Inv.step (h : s.Inv hash cid key numHash numBits) (hbits : 0 < numBits)
    {a : CoopStep Page} (hok : s.SnapshotHas hash cid key a)
    (hstep : s.step hash exclusivePolicy cid a = some s') :
    s'.Inv hash cid key numHash numBits := by
  cases a with
  | put page => exact h.put hstep
  | path a =>
      simp only [Coop.step] at hstep
      split at hstep
      · cases hstep
      next ha =>
        obtain ⟨path, hpath, rfl⟩ := Option.map_eq_some_iff.mp hstep
        refine ⟨path_shaped h.server hpath, h.numHash, h.numBits, h.merging,
          fun hround hkey => h.kept hround ?_⟩
        obtain ⟨page, hmem, hpage⟩ := hkey
        rw [path_accepted ha hpath] at hmem
        exact ⟨page, hmem, hpage⟩
  | blocking =>
      simp only [Coop.step] at hstep
      split at hstep
      · cases hstep
        refine ⟨h.server, ?_, ?_, ?_, fun hround => absurd rfl hround⟩
        · rw [BloomFilter.blocking_eq]
          exact h.numHash
        · rw [BloomFilter.blocking_eq]
          exact h.numBits
        · rw [BloomFilter.blocking_eq]
          rfl
      · cases hstep
  | snapshot =>
      obtain ⟨hround, hput, hnumHash, hnumBits, hmerging, hserver, hseen⟩ := h.snapshot hbits hstep
      refine ⟨hserver, hnumHash, hnumBits, by rw [hmerging, hround]; rfl, fun _ hkey i hi => ?_⟩
      rw [BloomFilter.indices_congr (hnumHash.trans h.numHash.symm)
        (hnumBits.trans h.numBits.symm)] at hi
      have hacc : s.Accepted key := by
        obtain ⟨page, hmem, hpage⟩ := hkey
        rw [hput] at hmem
        exact ⟨page, hmem, hpage⟩
      exact (hseen i hi).mpr (hok rfl hacc i hi)
  | unblocking =>
      have hbits' : 0 < s.filter.numBits := h.numBits ▸ hbits
      have hmerging : s.filter.merging = 1 := by
        simp only [Coop.step] at hstep
        split at hstep
        next hround =>
          rw [h.merging, hround]
          rfl
        · cases hstep
      obtain ⟨hround, hidle, hpath, hnumHash, hnumBits, hzero, hseen, -⟩ :=
        step_unblocking key hbits' hmerging hstep
      refine ⟨hpath ▸ h.server, hnumHash.trans h.numHash, hnumBits.trans h.numBits,
        by rw [hzero, hidle]; rfl, fun _ hkey i hi => ?_⟩
      rw [BloomFilter.indices_congr hnumHash hnumBits] at hi
      have hacc : s.Accepted key := by
        rw [Accepted, hpath] at hkey
        exact hkey
      exact Or.inl ((hseen i hi).mpr (h.kept (by simp [hround]) hacc i hi))

/-- When no round is in progress every accepted key is reported. -/
theorem Inv.mightContain (h : s.Inv hash cid key numHash numBits) (hround : s.round = .idle)
    (hkey : s.Accepted key) : s.filter.mightContain hash key = true := by
  have hzero : s.filter.merging = 0 := by rw [h.merging, if_pos hround]
  apply BloomFilter.mightContain_iff.mpr
  refine Or.inr fun i hi => ?_
  rcases h.kept (by simp [hround]) hkey i hi with hbitmap | ⟨hpos, -⟩
  · exact hbitmap
  · omega

/-! ## Runs -/

theorem initial_inv {s₀ : Coop Page} (hinit : (coopSystem hash exclusivePolicy cid).init s₀)
    (key : Key) : s₀.Inv hash cid key s₀.filter.numHash s₀.filter.numBits := by
  obtain ⟨⟨pool, hput⟩, numHash, numBits, hserver, hfilter, hround⟩ := hinit
  rw [hfilter]
  refine ⟨hserver, by rw [hfilter], by rw [hfilter], by rw [hfilter, hround]; rfl, ?_⟩
  rintro - ⟨page, hmem, -⟩
  rw [hput] at hmem
  cases hmem

/-- An accepted key is reported whenever no round is in progress, if each
snapshot so far had it or found it in the temporary bitmap. A further round
forgets it exactly if its snapshot is one that does not. -/
theorem coop_filter_keeps {s₀ : Coop Page} (hinit : (coopSystem hash exclusivePolicy cid).init s₀)
    (hbits : 0 < s₀.filter.numBits) (key : Key) {as : List (CoopStep Page)}
    (hok : (coopSystem hash exclusivePolicy cid).Meets (SnapshotHas hash cid key) s₀ as)
    (hrun : (coopSystem hash exclusivePolicy cid).exec s₀ as = some s) :
    (s.round = .idle → s.Accepted key → s.filter.mightContain hash key = true) ∧
    ∀ t u, s.step hash exclusivePolicy cid .snapshot = some t →
      t.step hash exclusivePolicy cid .unblocking = some u →
      (u.filter.mightContain hash key = true ↔ s.Gathered hash cid key) := by
  have hinv : s.Inv hash cid key s₀.filter.numHash s₀.filter.numBits :=
    System.exec_invariant (P := SnapshotHas hash cid key)
      (fun s a s' h hok hs => h.step hbits hok hs) (initial_inv hinit key) hok hrun
  refine ⟨hinv.mightContain, fun t u ht hu => ?_⟩
  obtain ⟨-, -, hnumHash, hnumBits, hmerging, -, hseen⟩ := hinv.snapshot hbits ht
  obtain ⟨-, -, -, -, -, -, -, hreport⟩ :=
    step_unblocking key (hnumBits ▸ hbits) hmerging hu
  rw [hreport, BloomFilter.indices_congr (hnumHash.trans hinv.numHash.symm)
    (hnumBits.trans hinv.numBits.symm)]
  exact forall₂_congr fun i hi => hseen i hi

/-! ## Two rounds of one client -/

/-- A daemon whose client has connected and whose queues all have receives. -/
def startedServer : Server ℕ :=
  (List.range Daemon.numQps).foldl (fun s qid => s.prePostRecvs 0 qid) Server.roomyConnected

theorem startedServer_cbfs : startedServer.kv.cbfs = Server.roomyConnected.kv.cbfs := by
  have hloop : ∀ (qids : List ℕ) (s : Server ℕ),
      (qids.foldl (fun s qid => s.prePostRecvs 0 qid) s).kv.cbfs = s.kv.cbfs := by
    intro qids
    induction qids with
    | nil => intro s; rfl
    | cons qid qids ih =>
        intro s
        rw [List.foldl_cons, ih, Server.prePostRecvs_cbfs]
  unfold startedServer
  exact hloop _ _

theorem startedServer_recvs : (startedServer.recvs (0, numDataQps)).head? = some Daemon.NONE := by
  have hloop : ∀ (qids : List ℕ) (s : Server ℕ), numDataQps ∉ qids →
      (qids.foldl (fun s qid => s.prePostRecvs 0 qid) s).recvs (0, numDataQps) =
        s.recvs (0, numDataQps) := by
    intro qids
    induction qids with
    | nil => intro s _; rfl
    | cons qid qids ih =>
        intro s hnot
        rw [List.mem_cons, not_or] at hnot
        rw [List.foldl_cons, ih _ hnot.2, Server.prePostRecvs_recvs_of_ne (by simp [hnot.1])]
  have hqids : List.range Daemon.numQps = List.range numDataQps ++ [numDataQps] := rfl
  rw [startedServer, hqids, List.foldl_append, List.foldl_cons, List.foldl_nil,
    Server.prePostRecvs_filter (lt_irrefl _), hloop _ _ (by decide)]
  have hempty : Server.roomyConnected.recvs (0, numDataQps) = [] := rfl
  rw [hempty, List.nil_append, List.head?_replicate, if_neg (by decide)]

def coopStart : Coop ℕ where
  path := ⟨{ queue := { keypageMmPool := fun _ => ⟨0, 0⟩ } }, startedServer⟩
  filter := .init 1 8
  round := .idle

theorem coopStart_cbfs : coopStart.path.server.kv.cbfs = Server.roomyConnected.kv.cbfs := by
  have hserver : coopStart.path.server = startedServer := by rw [coopStart]
  rw [hserver, startedServer_cbfs]

theorem coopStart_recvs :
    (coopStart.path.server.recvs (0, numDataQps)).head? = some Daemon.NONE := by
  have hserver : coopStart.path.server = startedServer := by rw [coopStart]
  rw [hserver, startedServer_recvs]

theorem coopStart_init (hash : HashFuncs) (exclusivePolicy : Bool) :
    (coopSystem hash exclusivePolicy 0).init coopStart := by
  have hshaped : Daemon.KV.Shaped 1 8 coopStart.path.server.kv := by
    intro c
    rw [coopStart_cbfs]
    exact ⟨rfl, rfl⟩
  exact ⟨⟨_, rfl⟩, 1, 8, hshaped, rfl, rfl⟩

section Trace

variable (hash : HashFuncs) (exclusivePolicy : Bool) (cid : ℕ)

theorem put_some (page : Slot Page) (hret : (s.path.put.queue.sendPage page).2 = 0) :
    ∃ t, (coopSystem hash exclusivePolicy cid).step s (.put page) = some t ∧
      t.path.server = s.path.server ∧ t.filter = s.filter.add hash page.key ∧
      t.round = s.round ∧ t.path.put.accepted = s.path.put.accepted ++ [page] ∧
      t.path.put.queue = (s.path.put.queue.sendPage page).1 := by
  simp only [coopSystem, step, PutPath.step, PutRun.step, Option.map_some, hret, if_true]
  exact ⟨_, rfl, rfl, rfl, rfl, rfl, rfl⟩

theorem blocking_some (hround : s.round = .idle) :
    (coopSystem hash exclusivePolicy cid).step s .blocking =
      some { s with filter := s.filter.blocking, round := .blocked } := by
  simp only [coopSystem, step, hround]

theorem snapshot_some (hround : s.round = .blocked)
    (hrecv : (s.path.server.recvs (cid, numDataQps)).head? = some Daemon.NONE) :
    ∃ t, (coopSystem hash exclusivePolicy cid).step s .snapshot = some t ∧ t.round = .written ∧
      t.path.put = s.path.put := by
  obtain ⟨⟨server, r⟩, hserver⟩ :=
    Server.step_filterUpdate_some hash exclusivePolicy {} hrecv
  obtain rfl := Server.step_filterUpdate hserver
  simp only [coopSystem, step, hround, hserver]
  exact ⟨_, rfl, rfl, rfl⟩

theorem unblocking_some (hround : s.round = .written) :
    (coopSystem hash exclusivePolicy cid).step s .unblocking =
      some { s with filter := s.filter.unblocking, round := .idle } := by
  simp only [coopSystem, step, hround]

end Trace

/-- The put is made again while the round is going on. -/
def putAgain : List (CoopStep ℕ) :=
  [.put ⟨7, 1⟩, .blocking, .put ⟨7, 1⟩, .snapshot, .unblocking]

theorem coop_filter_keeps_putAgain :
    ∃ s, (coopSystem Daemon.idHash true 0).exec coopStart putAgain = some s ∧
      s.round = .idle ∧ s.Accepted 1 ∧ s.filter.mightContain Daemon.idHash 1 = true := by
  obtain ⟨s₁, hput₁, hserver₁, hfilter₁, hround₁, -, hqueue₁⟩ :=
    put_some Daemon.idHash true 0 (s := coopStart) ⟨7, 1⟩ (by decide)
  have hblock := blocking_some Daemon.idHash true 0 hround₁
  obtain ⟨s₂, hput₂, hserver₂, hfilter₂, hround₂, hacc₂, -⟩ := put_some Daemon.idHash true 0
    (s := { s₁ with filter := s₁.filter.blocking, round := .blocked }) ⟨7, 1⟩
    (by dsimp only; rw [hqueue₁]; decide)
  have hrecv : (s₂.path.server.recvs (0, numDataQps)).head? = some Daemon.NONE := by
    rw [hserver₂]
    dsimp only
    rw [hserver₁]
    exact coopStart_recvs
  obtain ⟨s₃, hsnap, hround₃, hpath₃⟩ := snapshot_some Daemon.idHash true 0 hround₂ hrecv
  have hunblock := unblocking_some Daemon.idHash true 0 hround₃
  have hgathered : s₂.Gathered Daemon.idHash 0 1 := by
    have htmp : ∀ i ∈ (((BloomFilter.init 1 8).add Daemon.idHash 1).blocking.add
        Daemon.idHash 1).indices Daemon.idHash 1, (((BloomFilter.init 1 8).add
        Daemon.idHash 1).blocking.add Daemon.idHash 1).tmpBitmap.Test i := by decide
    intro i hi
    rw [hfilter₂] at hi ⊢
    dsimp only at hi ⊢
    rw [hfilter₁] at hi ⊢
    exact Or.inr (htmp i hi)
  have hnot : ∀ {s : Coop ℕ} {a : CoopStep ℕ}, a ≠ .snapshot → s.SnapshotHas Daemon.idHash 0 1 a :=
    fun ha h => absurd h ha
  obtain ⟨hok, hrun⟩ := System.trace_cons (P := SnapshotHas Daemon.idHash 0 1) (hnot (by simp)) hput₁
    (System.trace_cons (hnot (by simp)) hblock
      (System.trace_cons (hnot (by simp)) hput₂
        (System.trace_cons (fun _ _ => hgathered) hsnap
          (System.trace_cons (hnot (by simp)) hunblock (System.trace_nil _)))))
  have hacc : Accepted { s₃ with filter := s₃.filter.unblocking, round := .idle } 1 := by
    refine ⟨⟨7, 1⟩, ?_, rfl⟩
    show _ ∈ s₃.path.put.accepted
    rw [hpath₃, hacc₂]
    simp
  exact ⟨_, hrun, rfl, hacc, (coop_filter_keeps (coopStart_init Daemon.idHash true) (by decide) 1
    hok hrun).1 rfl hacc⟩

/-- A put that is still in the send buffer when the snapshot is taken. -/
def bufferedPut : List (CoopStep ℕ) := [.put ⟨7, 1⟩, .blocking, .snapshot, .unblocking]

theorem coop_filter_forgets :
    ∃ s, (coopSystem Daemon.idHash true 0).exec coopStart bufferedPut = some s ∧
      s.round = .idle ∧ s.Accepted 1 ∧ s.filter.mightContain Daemon.idHash 1 = false := by
  obtain ⟨s₁, hput, hserver, hfilter, hround₁, hacc, -⟩ :=
    put_some Daemon.idHash true 0 (s := coopStart) ⟨7, 1⟩ (by decide)
  have hblock := blocking_some Daemon.idHash true 0 hround₁
  have hinit := coopStart_init Daemon.idHash true
  have hput' : coopStart.step Daemon.idHash true 0 (.put ⟨7, 1⟩) = some s₁ := hput
  have hblock' : s₁.step Daemon.idHash true 0 .blocking = some _ := hblock
  have hinv := ((initial_inv hinit 1).put hput').step (by decide)
    (fun h => absurd h (by simp)) hblock'
  obtain ⟨s₃, hsnap, hround₃, hpath₃⟩ := snapshot_some Daemon.idHash true 0
    (s := { s₁ with filter := s₁.filter.blocking, round := .blocked }) rfl
    (by dsimp only; rw [hserver]; exact coopStart_recvs)
  obtain ⟨-, -, hnumHash, hnumBits, hmerging, -, hseen⟩ := hinv.snapshot (by decide) hsnap
  have hunblock := unblocking_some Daemon.idHash true 0 hround₃
  have hunblock' : s₃.step Daemon.idHash true 0 .unblocking = some _ := hunblock
  obtain ⟨-, -, -, -, -, -, -, hreport⟩ := step_unblocking 1
    (by rw [hnumBits]; decide) hmerging hunblock'
  refine ⟨{ s₃ with filter := s₃.filter.unblocking, round := .idle }, ?_, rfl,
    ⟨⟨7, 1⟩, ?_, rfl⟩, ?_⟩
  · exact System.exec_cons_some.mpr ⟨_, hput, System.exec_cons_some.mpr ⟨_, hblock,
      System.exec_cons_some.mpr ⟨_, hsnap, System.exec_cons_some.mpr ⟨_, hunblock, rfl⟩⟩⟩⟩
  · show _ ∈ s₃.path.put.accepted
    rw [hpath₃]
    dsimp only
    rw [hacc]
    simp
  · rw [Bool.eq_false_iff]
    intro hfound
    have hmem : 1 ∈ (BloomFilter.blocking s₁.filter).indices Daemon.idHash 1 := by
      rw [hfilter]
      decide
    have hmem₃ : 1 ∈ s₃.filter.indices Daemon.idHash 1 := by
      rw [BloomFilter.indices_congr (hnumHash.trans hinv.numHash.symm)
        (hnumBits.trans hinv.numBits.symm)]
      exact hmem
    rcases (hseen 1 hmem).mp (hreport.mp hfound 1 hmem₃) with hbyte | htmp
    · have hstarted : 0 < (coopStart.path.server.kv.cbfs 0).cbfByteBitarr 1 := by
        rw [← hserver]
        exact hbyte
      rw [coopStart_cbfs] at hstarted
      exact absurd hstarted (by decide)
    · dsimp only at htmp
      rw [hfilter] at htmp
      exact absurd htmp (by decide)

end Coop

end CleancacheRdma.Driver
