import Mathlib
import CleancacheRdma.Driver.ConnectionEvents
import CleancacheRdma.Lib.Progress

/-!
# The handshake

Drivers that are loaded one after the other are told the place in which they
came, and each of their queues is connected to the daemon's queue of that place
and its own index. Neither end waits for the other for ever.
-/

namespace CleancacheRdma.Driver

open Daemon (HashFuncs Server ServerStep CmId CmEvent CmEventType MmInfo ConnConfig Phase
  RdmaQueue Listener numQps numDataQps serverSystem)
open Lib (System Tokens Ends)

section Handshake

variable {Page : Type} {hash : HashFuncs} {exclusivePolicy : Bool} {cfg : ConnConfig}
  {filterAddr : ℕ → BitVec 64} {numHash numBits : ℕ} {s₀ : Server Page} {links : CmId → LinkStage}
  {s s' : ConnState Page} {c d k : ℕ} {joined : List ℕ} {l l' : Listener Page}

/-! ## From one client to the next -/

/-- Receives are posted for the client, and for no other. -/
theorem foldl_prePostRecvs (c : ℕ) (is : List ℕ) (t : Server Page) :
    (∀ q : ℕ × ℕ, q.1 ≠ c → (is.foldl (fun s i => s.prePostRecvs c i) t).recvs q = t.recvs q) ∧
      (∀ q, ∃ rest, (is.foldl (fun s i => s.prePostRecvs c i) t).recvs q = t.recvs q ++ rest) ∧
      (is.foldl (fun s i => s.prePostRecvs c i) t).clientMR = t.clientMR := by
  induction is generalizing t with
  | nil => exact ⟨fun _ _ => rfl, fun _ => ⟨[], (List.append_nil _).symm⟩, rfl⟩
  | cons i is ih =>
      obtain ⟨hother, hrest, hmr⟩ := ih (t.prePostRecvs c i)
      rw [List.foldl_cons]
      refine ⟨fun q hq => ?_, fun q => ?_, hmr.trans (Server.prePostRecvs_clientMR c i)⟩
      · rw [hother q hq, Server.prePostRecvs_recvs_of_ne fun he => hq (congrArg Prod.fst he)]
      · obtain ⟨rest, hr⟩ := hrest q
        obtain ⟨more, hm⟩ := Server.prePostRecvs_recvs_append (s := t) c i q
        exact ⟨more ++ rest, by rw [hr, hm, List.append_assoc]⟩

theorem Runs.prePostRecvs {numClients : ℕ} {t : Server Page} (hc : c < numClients) (is : List ℕ)
    (his : ∀ i ∈ is, i < numQps)
    (h : Runs hash exclusivePolicy numClients numHash numBits s₀ t) :
    Runs hash exclusivePolicy numClients numHash numBits s₀
      (is.foldl (fun s i => s.prePostRecvs c i) t) := by
  induction is generalizing t with
  | nil => exact h
  | cons i is ih =>
      obtain ⟨hi, htail⟩ := List.forall_mem_cons.mp his
      have hwf : t.WellFormed (.prePostRecvs c i) := ⟨h.numClients.symm ▸ hc, hi⟩
      have hstep : t.step hash exclusivePolicy (.prePostRecvs c i) =
          some (t.prePostRecvs c i, none) := by
        simp only [Server.step]
      rw [List.foldl_cons]
      exact ih htail (h.step hwf hstep)

/-- Nothing of a client changes but its number and whether it was freed. -/
theorem RecordInv.of_clients (hr : RecordInv cfg links joined l)
    (hclients : ∀ c, (l'.clients c).queues = (l.clients c).queues ∧
      (l'.clients c).filterMM = (l.clients c).filterMM ∧
      ((l'.clients c).freed = false →
        (l.clients c).freed = false ∧ (l'.clients c).rdev = (l.clients c).rdev))
    (hcontext : l'.context = l.context) (hhandlers : l'.handlers = l.handlers) :
    RecordInv cfg links joined l' where
  queues c k := by rw [(hclients c).1, hr.queues]
  context c d hd k := by rw [hcontext, hr.context c d hd]
  stranger d hd k := by rw [hcontext, hr.stranger d hd]
  rdev c hc := by
    obtain ⟨hf, hdev⟩ := (hclients c).2.2 hc
    rw [hdev]
    exact hr.rdev c hf
  filterMM c := by rw [(hclients c).2.1, hr.filterMM]
  handlers c k := by rw [hhandlers, hr.handlers]

/-- The main thread does not look at the store. -/
theorem PhaseInv.server (hp : PhaseInv cfg links joined l) (t : Server Page) :
    PhaseInv cfg links joined { l with server := t } := by
  unfold PhaseInv at hp ⊢
  dsimp only
  split
  next c i hphase =>
    rw [hphase] at hp
    exact
      { ctr := hp.ctr
        client := hp.client
        joined_ge := hp.joined_ge
        joined_le := hp.joined_le
        before := hp.before
        waiting := hp.waiting
        counted := hp.counted
        queueCtr := hp.queueCtr
        ids := hp.ids
        freed := hp.freed }
  next c i hphase =>
    rw [hphase] at hp
    exact
      { ctr := hp.ctr
        all := hp.all
        client := hp.client
        before := hp.before
        after := hp.after
        waiting := hp.waiting
        freed := hp.freed }
  next hphase =>
    rw [hphase] at hp
    exact ⟨hp.ctr, hp.all, hp.gone⟩

theorem DriverPhase.Announced.informed {phase : DriverPhase} (h : phase.Announced) :
    phase.Informed := by
  cases phase with
  | unloaded | initQueue _ | waitForCm _ | initFailed _ _ | recvRemotemr | sendLocalmr =>
      exact absurd h not_false
  | ready | stopQueue _ | exited => trivial

theorem countP_full {p : ℕ → Bool} (h : (List.range numQps).countP p = numQps) (hk : k < numQps) :
    p k = true := by
  refine List.countP_eq_length.mp ?_ k (List.mem_range.mpr hk)
  rw [h, List.length_range]

theorem countP_none {p : ℕ → Bool} (h : ∀ k < numQps, p k = false) :
    0 = (List.range numQps).countP p := by
  refine (List.countP_eq_zero.mpr fun k hk => ?_).symm
  rw [h k (List.mem_range.mp hk)]
  exact Bool.false_ne_true

/-- The client whose queues are all connected has its driver, which was told its number. -/
theorem ConnInv.all_connected
    (h : ConnInv hash exclusivePolicy cfg filterAddr numHash numBits s₀ links s)
    (hphase : s.listener.phase = .connecting c numQps)
    (hmrs : ∀ m ∈ s.mrs, some m.1 ≠ ((s.listener.clients c).queues 0).cmId) :
    s.joined.length = c + 1 ∧ ∃ d, s.joined[c]? = some d ∧ (s.drivers d).phase.Informed ∧
      ∀ k < numQps, links ⟨d, k⟩ = .connected := by
  have hconn := h.connecting hphase
  have hall : ∀ k < numQps, 8 ≤ (linkAt links s.joined c k).rank := fun k hk =>
    of_decide_eq_true (countP_full hconn.waiting.symm hk)
  have hlt : c < s.joined.length := by
    by_contra hge
    have hzero := hall 0 (by decide)
    rw [linkAt_none links (Nat.not_lt.mp hge)] at hzero
    exact absurd hzero (by decide)
  have hc : s.joined[c]? = some s.joined[c] := List.getElem?_eq_getElem hlt
  have hup : ¬ (s.drivers s.joined[c]).phase.Stopped := by
    intro hs
    have hleft := h.stopped c _ hc hs
    rw [hphase] at hleft
    exact hleft
  have hlinks : ∀ k < numQps, links ⟨s.joined[c], k⟩ = .connected := by
    intro k hk
    have hge := hall k hk
    rw [linkAt_of links hc] at hge
    exact LinkStage.eq_of_rank (Nat.le_antisymm ((h.drivers _).rank_le hup k) hge)
  refine ⟨Nat.le_antisymm hconn.joined_le hlt, s.joined[c], hc, ?_, hlinks⟩
  by_contra hinf
  have hzero := hlinks 0 (by decide)
  have hmem := (h.mr.mem _).mpr ⟨c, s.joined[c], hc, by rw [hzero]; decide, hinf, rfl⟩
  refine hmrs _ hmem ?_
  rw [h.records.queues, linkAt_of links hc, hzero, List.getD_eq_getElem?_getD, hc]
  rfl

/-- A driver that is up has no connection that is gone. -/
theorem ConnInv.none_gone
    (h : ConnInv hash exclusivePolicy cfg filterAddr numHash numBits s₀ links s)
    (hc : s.joined[c]? = some d) (hup : ¬ (s.drivers d).phase.Stopped) :
    0 = (List.range numQps).countP fun k => linkAt links s.joined c k = .gone := by
  refine countP_none fun k _ => decide_eq_false fun hgone => ?_
  rw [linkAt_of links hc] at hgone
  have hle := (h.drivers d).rank_le hup k
  rw [hgone] at hle
  exact absurd hle (by decide)

theorem ConnInv.finishClient
    (h : ConnInv hash exclusivePolicy cfg filterAddr numHash numBits s₀ links s)
    (hstep : s.finishClient cfg = some s') :
    ConnInv hash exclusivePolicy cfg filterAddr numHash numBits s₀ links s' := by
  unfold ConnState.finishClient at hstep
  split at hstep
  next c i hphase =>
    obtain ⟨⟨rfl, hmrs⟩, heq⟩ := Option.ite_none_right_eq_some.mp hstep
    cases heq
    have hconn := h.connecting hphase
    obtain ⟨hlen, d, hc, hinf, hlinks⟩ := h.all_connected hphase hmrs
    obtain ⟨hother, hrest, hmr⟩ := foldl_prePostRecvs c (List.range numQps) s.listener.server
    have hruns := h.server.runs.prePostRecvs hconn.client (List.range numQps)
      fun i hi => List.mem_range.mp hi
    have hup : ∀ c' e : ℕ, s.joined[c']? = some e → ¬ (s.drivers e).phase.Stopped := by
      intro c' e he hs
      have hleft := h.stopped c' e he hs
      rw [hphase] at hleft
      exact hleft
    have hall : ∀ c' ≤ c, ∀ k < numQps, 8 ≤ (linkAt links s.joined c' k).rank := by
      intro c' hc' k hk
      rcases Nat.lt_or_eq_of_le hc' with hlt | rfl
      · exact hconn.before c' hlt k hk
      · rw [linkAt_of links hc, hlinks k hk]
        decide
    have hids : ∀ c', ∃ id, (s.listener.finishClient cfg c).clients c' =
        { s.listener.clients c' with id } := Listener.awaitClient_clients (c + 1)
    have hctr : (s.listener.finishClient cfg c).clientCtr = s.listener.clientCtr + 1 :=
      Listener.awaitClient_clientCtr (c + 1)
    have hserver : (s.listener.finishClient cfg c).server =
        (List.range numQps).foldl (fun s i => s.prePostRecvs c i) s.listener.server := by
      unfold Listener.finishClient
      rw [Listener.awaitClient_server]
    refine
      { net := h.net
        ec := h.ec
        drivers := h.drivers
        nodup := h.nodup
        joined := h.joined
        records := h.records.of_clients (fun c' => ?_) (Listener.awaitClient_context (c + 1))
          (Listener.awaitClient_handlers (c + 1))
        phase := ?_
        stopped := fun c' e he hs => absurd hs (hup c' e he)
        mr :=
          { mem := h.mr.mem
            nodup := h.mr.nodup
            told := h.mr.told
            informed := h.mr.informed
            unloaded := h.mr.unloaded
            before := fun c' e he hlt => ?_ }
        server :=
          { runs := hserver ▸ hruns
            unposted := fun c' hc' => ?_
            posted := fun c' e he hl hann => ?_
            clientMR := fun c' e he hann => ?_ } }
    · obtain ⟨id, hid⟩ := hids c'
      rw [hid]
      exact ⟨rfl, rfl, fun hf => ⟨hf, rfl⟩⟩
    · show PhaseInv cfg links s.joined (s.listener.finishClient cfg c)
      unfold PhaseInv
      by_cases hlast : c + 1 < cfg.numClients
      · have hnext : (s.listener.finishClient cfg c).phase = .connecting (c + 1) 0 := by
          unfold Listener.finishClient Listener.awaitClient
          rw [if_pos hlast]
        have hqctr : (s.listener.finishClient cfg c).queueCtr = 0 := by
          unfold Listener.finishClient Listener.awaitClient
          rw [if_pos hlast]
        have hidle : ∀ k, linkAt links s.joined (c + 1) k = .idle :=
          linkAt_none links (Nat.le_of_eq hlen)
        rw [hnext]
        refine
          { ctr := by rw [hctr, hconn.ctr]
            client := hlast
            joined_ge := Nat.le_of_eq hlen.symm
            joined_le := by omega
            before := fun c' hc' => hall c' (Nat.lt_succ_iff.mp hc')
            waiting := countP_none fun k _ => by rw [hidle]; rfl
            counted := fun k _ => by rw [hidle, hqctr]; decide +revert
            queueCtr := by rw [hqctr]; exact Nat.zero_le _
            ids := fun c' hc' => ?_
            freed := fun c' => ?_ }
        · unfold Listener.finishClient Listener.awaitClient
          rw [if_pos hlast]
          show (Function.update s.listener.clients (c + 1) _ c').id = c'
          rcases Nat.lt_or_eq_of_le hc' with hlt | rfl
          · rw [Function.update_of_ne (Nat.ne_of_lt hlt)]
            exact hconn.ids c' (Nat.lt_succ_iff.mp hlt)
          · rw [Function.update_self]
        · obtain ⟨id, hid⟩ := hids c'
          rw [hid]
          exact hconn.freed c'
      · have hnext : (s.listener.finishClient cfg c).phase = .leaving 0 0 := by
          unfold Listener.finishClient Listener.awaitClient
          rw [if_neg hlast, if_pos (Nat.succ_pos _)]
        have hclient := hconn.client
        obtain ⟨e, he⟩ : ∃ e, s.joined[0]? = some e :=
          ⟨_, List.getElem?_eq_getElem (hlen ▸ Nat.succ_pos c)⟩
        rw [hnext]
        exact
          { ctr := by rw [hctr, hconn.ctr, hlen]
            all := by omega
            client := hlen ▸ Nat.succ_pos c
            before := fun c' hc' => absurd hc' (Nat.not_lt_zero c')
            after := fun c' _ hc' => hall c' (by omega)
            waiting := h.none_gone he (hup 0 e he)
            freed := fun c' => by
              obtain ⟨id, hid⟩ := hids c'
              rw [hid]
              exact (hconn.freed c').trans (decide_eq_false (Nat.not_lt_zero c')).symm }
    · change c' < (s.listener.finishClient cfg c).clientCtr at hlt
      rw [hctr, hconn.ctr] at hlt
      rcases Nat.lt_or_eq_of_le (Nat.lt_succ_iff.mp hlt) with hlt | rfl
      · exact h.mr.before c' e he (hconn.ctr.symm ▸ hlt)
      · cases hc.symm.trans he
        exact hinf
    · show (s.listener.finishClient cfg c).server.recvs (c', 0) = []
      have hne : c' ≠ c := by
        rintro rfl
        exact absurd (hall c' (Nat.le_refl _) 0 (by decide)) (Nat.not_le.mpr hc')
      rw [hserver, hother (c', 0) hne]
      exact h.server.unposted c' hc'
    · show ((s.listener.finishClient cfg c).server.recvs (c', 0)).head? = _
      obtain ⟨rest, hr⟩ := hrest (c', 0)
      rw [hserver, hr, List.head?_append, h.server.posted c' e he hl hann]
      rfl
    · show (s.listener.finishClient cfg c).server.clientMR c' = _
      rw [hserver, hmr]
      exact h.server.clientMR c' e he hann
  · cases hstep

/-- The client whose queues are all gone is freed, and was not freed before. -/
theorem ConnInv.freeClient
    (h : ConnInv hash exclusivePolicy cfg filterAddr numHash numBits s₀ links s)
    (hphase : s.listener.phase = .leaving c numQps) :
    ∃ s', s.freeClient = some s' ∧
      ConnInv hash exclusivePolicy cfg filterAddr numHash numBits s₀ links s' := by
  have hleave := h.leaving hphase
  have hgone : ∀ k < numQps, linkAt links s.joined c k = .gone := fun k hk =>
    of_decide_eq_true (countP_full hleave.waiting.symm hk)
  have hfreed : (s.listener.clients c).freed = false := by
    rw [hleave.freed]
    exact decide_eq_false (lt_irrefl c)
  have hrdev : (s.listener.clients c).rdev = true := by
    rw [h.records.rdev c hfreed, hgone 0 (by decide)]
    decide
  refine ⟨{ s with listener := { s.listener.setClient c { s.listener.clients c with
    rdev := false, freed := true } with
      phase := if c + 1 < s.listener.clientCtr then .leaving (c + 1) 0 else .done } }, ?_, ?_⟩
  · unfold ConnState.freeClient
    rw [hphase]
    dsimp only
    rw [if_pos rfl]
    unfold Listener.freeClient
    rw [if_pos ⟨hrdev, hfreed⟩]
    rfl
  have hself : (Function.update s.listener.clients c { s.listener.clients c with
      rdev := false, freed := true }) c = { s.listener.clients c with
        rdev := false, freed := true } := Function.update_self _ _ _
  have hother : ∀ c' ≠ c, (Function.update s.listener.clients c { s.listener.clients c with
      rdev := false, freed := true }) c' = s.listener.clients c' :=
    fun c' hc' => Function.update_of_ne hc' _ _
  refine
    { net := h.net
      ec := h.ec
      drivers := h.drivers
      nodup := h.nodup
      joined := h.joined
      records := h.records.of_clients (fun c' => ?_) rfl rfl
      phase := ?_
      stopped := fun c' e he hs => ?_
      mr :=
        { mem := h.mr.mem
          nodup := h.mr.nodup
          told := h.mr.told
          informed := h.mr.informed
          unloaded := h.mr.unloaded
          before := h.mr.before }
      server :=
        { runs := h.server.runs
          unposted := h.server.unposted
          posted := h.server.posted
          clientMR := h.server.clientMR } }
  · show ((Function.update s.listener.clients c _) c').queues = _ ∧
      ((Function.update s.listener.clients c _) c').filterMM = _ ∧
      (((Function.update s.listener.clients c _) c').freed = false →
        _ ∧ ((Function.update s.listener.clients c _) c').rdev = _)
    by_cases hcc : c' = c
    · subst hcc
      rw [hself]
      exact ⟨rfl, rfl, fun hf => absurd hf Bool.noConfusion⟩
    · rw [hother c' hcc]
      exact ⟨rfl, rfl, fun hf => ⟨hf, rfl⟩⟩
  · have hctr := hleave.ctr
    unfold PhaseInv
    dsimp only
    by_cases hlast : c + 1 < s.listener.clientCtr
    · rw [if_pos hlast]
      have hlt : c + 1 < s.joined.length := hctr ▸ hlast
      have he := List.getElem?_eq_getElem hlt
      refine
        { ctr := hctr
          all := hleave.all
          client := hlt
          before := fun c' hc' k hk => ?_
          after := fun c' hc' => hleave.after c' (Nat.le_of_succ_le hc')
          waiting := h.none_gone he fun hs => ?_
          freed := fun c' => ?_ }
      · rcases Nat.lt_or_eq_of_le (Nat.lt_succ_iff.mp hc') with hlt' | rfl
        · exact hleave.before c' hlt' k hk
        · exact hgone k hk
      · have hleft := h.stopped (c + 1) _ he hs
        rw [hphase] at hleft
        exact Nat.not_succ_le_self c hleft
      · show ((Function.update s.listener.clients c _) c').freed = _
        by_cases hcc : c' = c
        · subst hcc
          rw [hself]
          exact (decide_eq_true (Nat.lt_succ_self c')).symm
        · rw [hother c' hcc, hleave.freed, decide_eq_decide]
          omega
    · rw [if_neg hlast]
      refine ⟨hctr, hleave.all, fun c' hc' k hk => ?_⟩
      by_cases hcc : c' < c
      · exact hleave.before c' hcc k hk
      · obtain rfl : c' = c := by omega
        exact hgone k hk
  · have hleft := h.stopped c' e he hs
    rw [hphase] at hleft
    dsimp only
    split
    · exact Nat.le_succ_of_le hleft
    · trivial

/-! ## The driver's region -/

/-- The daemon's end of queue 0 has a receive for the message. -/
theorem ConnInv.sendLocalmr
    (h : ConnInv hash exclusivePolicy cfg filterAddr numHash numBits s₀ links s)
    (hphase : (s.drivers d).phase = .sendLocalmr) (draw : Daemon.Draw) :
    ∃ s', s.sendLocalmr hash exclusivePolicy filterAddr d draw = some s' ∧
      ConnInv hash exclusivePolicy cfg filterAddr numHash numBits s₀ links s' := by
  have hinf : (s.drivers d).phase.Informed := by rw [hphase]; trivial
  have hnann : ¬ (s.drivers d).phase.Announced := by rw [hphase]; exact not_false
  obtain ⟨c, hc⟩ := List.mem_iff_getElem?.mp ((h.joined d).mpr (by simp [hphase]))
  have htold := h.mr.told d hinf
  have hcontext : s.listener.context ⟨d, 0⟩ = some (c, 0) := by
    rw [h.records.context c d hc, if_pos (Nat.le_trans (by decide) htold)]
  have hstep := Server.step_mmInfo hash exclusivePolicy (h.server.posted c d hc htold hnann)
    (filterAddr d) 0 draw
  have hclient : c < cfg.numClients := by
    have hlt := (List.getElem?_eq_some_iff.mp hc).1
    cases hl : s.listener.phase with
    | connecting c' i =>
        have hconn := h.connecting hl
        exact Nat.lt_of_lt_of_le hlt (Nat.le_trans hconn.joined_le hconn.client)
    | leaving c' i => exact (h.leaving hl).all ▸ hlt
    | done => exact (h.finished hl).all ▸ hlt
  have hwf : s.listener.server.WellFormed (.send c 0 (.mmInfo (filterAddr d)) 0 draw) :=
    ⟨h.server.runs.numClients.symm ▸ hclient, by decide, trivial⟩
  have hruns := h.server.runs.step hwf hstep
  set server : Server Page := { s.listener.server.popRecv c 0 with
    clientMR := Function.update s.listener.server.clientMR c (filterAddr d) } with hserver
  have hrecvs : ∀ c' ≠ c, server.recvs (c', 0) = s.listener.server.recvs (c', 0) :=
    fun c' hc' => Server.popRecv_recvs_of_ne fun he => hc' (congrArg Prod.fst he)
  have hself : (Function.update s.drivers d { s.drivers d with phase := .ready }) d =
      { s.drivers d with phase := .ready } := Function.update_self _ _ _
  have hother : ∀ e, e ≠ d → (Function.update s.drivers d
      { s.drivers d with phase := .ready }) e = s.drivers e := fun e he =>
    Function.update_of_ne he _ _
  have hinformed : ∀ e, ((Function.update s.drivers d
      { s.drivers d with phase := .ready }) e).phase.Informed ↔
        (s.drivers e).phase.Informed := by
    intro e
    by_cases he : e = d
    · subst he
      rw [hself]
      exact iff_of_true trivial hinf
    · rw [hother e he]
  have hsvr : ∀ e, ((Function.update s.drivers d
      { s.drivers d with phase := .ready }) e).svrMmInfo = (s.drivers e).svrMmInfo := by
    intro e
    by_cases he : e = d
    · subst he
      rw [hself]
    · rw [hother e he]
  refine ⟨{ s.setPhase d .ready with listener := { s.listener with server } }, ?_, ?_⟩
  · unfold ConnState.sendLocalmr
    rw [if_pos hphase, hcontext]
    dsimp only
    rw [hstep]
    rfl
  refine
    { net := h.net
      ec := h.ec
      drivers := fun e => ?_
      nodup := h.nodup
      joined := fun e => ?_
      records := h.records.of_clients (fun _ => ⟨rfl, rfl, fun hf => ⟨hf, rfl⟩⟩) rfl rfl
      phase := h.phase.server _
      stopped := fun c' e he hs => ?_
      mr := h.mr.same (fun _ => Iff.rfl) rfl rfl rfl hinformed hsvr
      server :=
        { runs := hruns
          unposted := fun c' hc' => ?_
          posted := fun c' e he hl hann => ?_
          clientMR := fun c' e he hann => ?_ } }
  · show DriverInv links e ((Function.update s.drivers d _) e)
    by_cases he : e = d
    · subst he
      rw [hself]
      have hd := h.drivers e
      refine ⟨fun k => ?_, trivial, hd.stage, by simp⟩
      have hallows := hd.allows k
      rwa [hphase] at hallows
    · rw [hother e he]
      exact h.drivers e
  · show e ∈ s.joined ↔ ((Function.update s.drivers d _) e).phase ≠ .unloaded
    by_cases he : e = d
    · subst he
      rw [hself]
      exact iff_of_true (List.mem_of_getElem? hc) (by simp)
    · rw [hother e he]
      exact h.joined e
  · change ((Function.update s.drivers d _) e).phase.Stopped at hs
    by_cases hed : e = d
    · subst hed
      rw [hself] at hs
      exact absurd hs not_false
    · rw [hother e hed] at hs
      exact h.stopped c' e he hs
  · have hne : c' ≠ c := by
      rintro rfl
      change (linkAt links s.joined c' 0).rank < 8 at hc'
      rw [linkAt_of links hc] at hc'
      omega
    show server.recvs (c', 0) = []
    rw [hrecvs c' hne]
    exact h.server.unposted c' hc'
  · change ¬ ((Function.update s.drivers d _) e).phase.Announced at hann
    have hed : e ≠ d := by
      rintro rfl
      rw [hself] at hann
      exact hann trivial
    rw [hother e hed] at hann
    have hne : c' ≠ c := by
      rintro rfl
      exact hed (Option.some.inj (he.symm.trans hc))
    show (server.recvs (c', 0)).head? = _
    rw [hrecvs c' hne]
    exact h.server.posted c' e he hl hann
  · change ((Function.update s.drivers d _) e).phase.Announced at hann
    show Function.update s.listener.server.clientMR c (filterAddr d) c' = filterAddr e
    by_cases hed : e = d
    · subst hed
      rw [index_unique h.nodup he hc, Function.update_self]
    · rw [hother e hed] at hann
      have hne : c' ≠ c := by
        rintro rfl
        exact hed (Option.some.inj (he.symm.trans hc))
      rw [Function.update_of_ne hne]
      exact h.server.clientMR c' e he hann

/-! ## Requests -/

/-- The daemon goes on as it does without connections. -/
theorem ConnInv.traffic
    (h : ConnInv hash exclusivePolicy cfg filterAddr numHash numBits s₀ links s)
    {a : ServerStep Page} (hallowed : s.Allowed (.server a)) {t : Server Page}
    {r : Option (Daemon.Reply Page)}
    (hstep : s.listener.server.step hash exclusivePolicy a = some (t, r)) :
    ConnInv hash exclusivePolicy cfg filterAddr numHash numBits s₀ links
      { s with listener := { s.listener with server := t } } := by
  obtain ⟨hwf, htraffic, hready⟩ := hallowed
  -- a queue 0 from which nothing was announced yet
  have hquiet : ∀ c : ℕ, (∀ e, s.joined[c]? = some e → ¬ (s.drivers e).phase.Announced) →
      t.recvs (c, 0) = s.listener.server.recvs (c, 0) := by
    intro c hc
    refine Server.step_recvs_of_ne (fun hq => ?_) (by simp [htraffic.postsOn]) hstep
    obtain ⟨e, he, hphase⟩ := hready _ hq
    exact hc e he (by rw [hphase]; trivial)
  have hmr : t.clientMR = s.listener.server.clientMR := by
    refine Server.step_clientMR ?_ hstep
    rintro c i addr imm draw rfl
    exact htraffic
  exact
    { net := h.net
      ec := h.ec
      drivers := h.drivers
      nodup := h.nodup
      joined := h.joined
      records := h.records.of_clients (fun _ => ⟨rfl, rfl, fun hf => ⟨hf, rfl⟩⟩) rfl rfl
      phase := h.phase.server _
      stopped := h.stopped
      mr := h.mr.same (fun _ => Iff.rfl) rfl rfl rfl (fun _ => Iff.rfl) fun _ => rfl
      server :=
        { runs := h.server.runs.step hwf hstep
          unposted := fun c hc => by
            show t.recvs (c, 0) = []
            rw [hquiet c fun e he hann => ?_]
            · exact h.server.unposted c hc
            · rw [linkAt_of links he] at hc
              exact absurd (h.mr.told e hann.informed) (Nat.not_le.mpr hc)
          posted := fun c e he hl hann => by
            show (t.recvs (c, 0)).head? = _
            rw [hquiet c fun e' he' => by cases he.symm.trans he'; exact hann]
            exact h.server.posted c e he hl hann
          clientMR := fun c e he hann => by
            show t.clientMR c = _
            rw [hmr]
            exact h.server.clientMR c e he hann } }

end Handshake

end CleancacheRdma.Driver
