import Mathlib
import CleancacheRdma.Daemon.Credits
import CleancacheRdma.Daemon.SingleKey
import CleancacheRdma.Daemon.Snapshot

/-!
# The receives of one queue

A message takes a receive of its own queue, and what is posted in its place is
posted there. Only the two start-up steps post on a queue without a message.
-/

namespace CleancacheRdma.Daemon

/-- The queue a start-up step posts on. -/
def ServerStep.postsOn {Page : Type} : ServerStep Page → Option (ℕ × ℕ)
  | .prePostRecvs cid qid => some (cid, qid)
  | .recvMr cid => some (cid, 0)
  | .send _ _ _ _ _ | .writeImm _ _ _ _ _ _ | .evict _ _ | .allocateFromPeer _ => none

namespace Server

variable {Page : Type} {hash : HashFuncs} {exclusivePolicy : Bool} {s s' : Server Page}
  {cid qid : ℕ} {q : ℕ × ℕ}

theorem popRecv_recvs_of_ne (hq : q ≠ (cid, qid)) : (s.popRecv cid qid).recvs q = s.recvs q :=
  Function.update_of_ne hq _ _

theorem postRecv_recvs_of_ne (hq : q ≠ (cid, qid)) (addr : Value) :
    (s.postRecv cid qid addr).recvs q = s.recvs q := Function.update_of_ne hq _ _

theorem processRecv_recvs_of_ne {wrId : Value} {imm : BitVec 32} {d : Draw}
    {r : Option (Reply Page)} (hr : s.processRecv hash cid qid wrId imm d = .ok (s', r))
    (hq : q ≠ (cid, qid)) : s'.recvs q = s.recvs q := by
  unfold processRecv at hr
  split at hr
  · cases hr
    exact postRecv_recvs_of_ne hq NONE
  · split at hr
    · cases hr
      rfl
    · rcases processPut_ok hr with ⟨-, rfl⟩ | ⟨value, kv, kv', -, -, rfl⟩
      · exact postRecv_recvs_of_ne hq wrId
      · exact postRecv_recvs_of_ne hq value

/-- A request that has a handler gets its receive back. -/
theorem processImm_recvs {imm : BitVec 32} (d : Draw) {key : Key}
    (hkey : s.requestKey cid qid imm = some key) :
    (s.processImm hash exclusivePolicy cid qid imm d).1.recvs =
      (s.postRecv cid qid NONE).recvs := by
  rcases processImm_cases hash exclusivePolicy s cid qid imm d with
    ⟨-, mid, heq⟩ | ⟨mid, -, heq⟩ | ⟨hnone, -⟩
  · rw [heq]
    rfl
  · rw [heq]
    rfl
  · rw [hnone] at hkey
    cases hkey

theorem processImm_recvs_of_ne {imm : BitVec 32} (d : Draw) (hq : q ≠ (cid, qid)) :
    (s.processImm hash exclusivePolicy cid qid imm d).1.recvs q = s.recvs q := by
  rcases processImm_cases hash exclusivePolicy s cid qid imm d with
    ⟨-, mid, heq⟩ | ⟨mid, -, heq⟩ | ⟨-, heq⟩
  · rw [heq]
    exact postRecv_recvs_of_ne hq NONE
  · rw [heq]
    exact postRecv_recvs_of_ne hq NONE
  · rw [heq]

theorem step_recvs_of_ne {a : ServerStep Page} {r : Option (Reply Page)}
    (hq : a.queue ≠ some q) (hpost : a.postsOn ≠ some q)
    (hstep : s.step hash exclusivePolicy a = some (s', r)) : s'.recvs q = s.recvs q := by
  cases a with
  | prePostRecvs c i =>
      simp only [step, Option.some.injEq, Prod.mk.injEq] at hstep
      rw [← hstep.1, prePostRecvs_recvs_of_ne fun he => hpost (congrArg some he.symm)]
  | recvMr c =>
      cases hstep
      exact postRecv_recvs_of_ne (fun he => hpost (congrArg some he.symm)) NONE
  | send c i msg imm d =>
      obtain ⟨addr, t, -, hdeliver, hrecv⟩ := step_send hstep
      have hne : q ≠ (c, i) := fun he => hq (congrArg some he.symm)
      rw [processRecv_recvs_of_ne hrecv hne, (deliver_some hdeliver).2.1, popRecv_recvs_of_ne hne]
  | writeImm c i off words imm d =>
      obtain ⟨addr, -, himm⟩ := step_writeImm hstep
      have hne : q ≠ (c, i) := fun he => hq (congrArg some he.symm)
      have hfst := congrArg Prod.fst himm
      change _ = s' at hfst
      rw [← hfst, processImm_recvs_of_ne d hne]
      exact popRecv_recvs_of_ne hne
  | evict draws rand =>
      obtain ⟨kv, -, rfl, -⟩ := step_evict hstep
      rfl
  | allocateFromPeer fl =>
      obtain ⟨_, _, -, rfl, -⟩ := step_allocateFromPeer hstep
      rfl

/-! ## The clients' regions -/

theorem prePostRecvs_clientMR (cid qid : ℕ) : (s.prePostRecvs cid qid).clientMR = s.clientMR := by
  have hone : ∀ t : Server Page, (t.prePostRecv cid qid).clientMR = t.clientMR := by
    intro t
    unfold prePostRecv
    split
    · split
      · rfl
      · rfl
    · rfl
  have hloop : ∀ n, ((fun s => prePostRecv s cid qid)^[n] s).clientMR = s.clientMR := by
    intro n
    induction n with
    | zero => rfl
    | succ n ih => rw [Function.iterate_succ_apply', hone, ih]
  unfold prePostRecvs
  exact hloop maxQpsRecvs

theorem processRecv_clientMR {wrId : Value} {imm : BitVec 32} {d : Draw} {r : Option (Reply Page)}
    (hr : s.processRecv hash cid qid wrId imm d = .ok (s', r)) : s'.clientMR = s.clientMR := by
  unfold processRecv at hr
  split at hr
  · cases hr
    rfl
  · split at hr
    · cases hr
      rfl
    · rcases processPut_ok hr with ⟨-, rfl⟩ | ⟨value, kv, kv', -, -, rfl⟩
      · rfl
      · rfl

theorem processImm_clientMR {imm : BitVec 32} (d : Draw) :
    (s.processImm hash exclusivePolicy cid qid imm d).1.clientMR = s.clientMR := by
  rcases processImm_cases hash exclusivePolicy s cid qid imm d with
    ⟨-, mid, heq⟩ | ⟨mid, -, heq⟩ | ⟨-, heq⟩
  · rw [heq]
    rfl
  · rw [heq]
    rfl
  · rw [heq]

/-- Only the message of `dcc_rdma_send_localmr` sets a client's region. -/
theorem step_clientMR {a : ServerStep Page} {r : Option (Reply Page)}
    (ha : ∀ cid qid baseaddr imm d, a ≠ .send cid qid (.mmInfo baseaddr) imm d)
    (hstep : s.step hash exclusivePolicy a = some (s', r)) : s'.clientMR = s.clientMR := by
  cases a with
  | prePostRecvs c i =>
      simp only [step, Option.some.injEq, Prod.mk.injEq] at hstep
      rw [← hstep.1, prePostRecvs_clientMR]
  | recvMr c =>
      cases hstep
      rfl
  | send c i msg imm d =>
      obtain ⟨addr, t, -, hdeliver, hrecv⟩ := step_send hstep
      have ht : t.clientMR = s.clientMR := by
        cases msg with
        | mmInfo baseaddr => exact absurd rfl (ha c i baseaddr imm d)
        | slot b =>
            simp only [deliver] at hdeliver
            split at hdeliver
            · cases hdeliver
            · cases hdeliver
              rfl
        | empty =>
            simp only [deliver] at hdeliver
            split at hdeliver
            · cases hdeliver
              rfl
            · cases hdeliver
      rw [processRecv_clientMR hrecv, ht]
  | writeImm c i off words imm d =>
      obtain ⟨addr, -, himm⟩ := step_writeImm hstep
      have hfst := congrArg Prod.fst himm
      change _ = s' at hfst
      rw [← hfst, processImm_clientMR d]
      rfl
  | evict draws rand =>
      obtain ⟨kv, -, rfl, -⟩ := step_evict hstep
      rfl
  | allocateFromPeer fl =>
      obtain ⟨_, _, -, rfl, -⟩ := step_allocateFromPeer hstep
      rfl

/-- It takes the receive of `recv_mr`. -/
theorem step_mmInfo (hash : HashFuncs) (exclusivePolicy : Bool)
    (hhead : (s.recvs (cid, 0)).head? = some NONE) (baseaddr : BitVec 64) (imm : BitVec 32)
    (d : Draw) : s.step hash exclusivePolicy (.send cid 0 (.mmInfo baseaddr) imm d) =
      some ({ s.popRecv cid 0 with
        clientMR := Function.update s.clientMR cid baseaddr }, none) := by
  have hdata : ¬ ((0 : ℕ) = numDataQps ∧ imm = FILTER_UPDATE_BEGIN) :=
    fun h => absurd h.1 (by decide)
  simp only [step, hhead, deliver, if_true, Option.bind_some, processRecv, hdata, if_false]
  rfl

/-! ## Numbers of receives -/

/-- Receives are posted behind those that are there. -/
theorem prePostRecvs_recvs_append (cid qid : ℕ) (q : ℕ × ℕ) :
    ∃ rest, (s.prePostRecvs cid qid).recvs q = s.recvs q ++ rest := by
  have hpost : ∀ (t : Server Page) (addr : Value),
      ∃ rest, (t.postRecv cid qid addr).recvs q = t.recvs q ++ rest := by
    intro t addr
    by_cases hq : q = (cid, qid)
    · subst hq
      exact ⟨[addr], postRecv_recvs cid qid addr⟩
    · exact ⟨[], by rw [postRecv_recvs_of_ne hq, List.append_nil]⟩
  have hone : ∀ t : Server Page, ∃ rest, (t.prePostRecv cid qid).recvs q = t.recvs q ++ rest := by
    intro t
    unfold prePostRecv
    split
    · split
      next value kv _ => exact hpost { t with kv } value
      · exact hpost t FAILED
    · exact hpost t NONE
  have hloop : ∀ n, ∃ rest,
      ((fun s => prePostRecv s cid qid)^[n] s).recvs q = s.recvs q ++ rest := by
    intro n
    induction n with
    | zero => exact ⟨[], (List.append_nil _).symm⟩
    | succ n ih =>
        obtain ⟨rest, hrest⟩ := ih
        obtain ⟨more, hmore⟩ := hone ((fun s => prePostRecv s cid qid)^[n] s)
        refine ⟨rest ++ more, ?_⟩
        rw [Function.iterate_succ_apply', hmore, hrest, List.append_assoc]
  unfold prePostRecvs
  exact hloop maxQpsRecvs

theorem length_postRecv_le (cid qid : ℕ) (addr : Value) (q : ℕ × ℕ) :
    (s.recvs q).length ≤ ((s.postRecv cid qid addr).recvs q).length := by
  by_cases hq : q = (cid, qid)
  · subst hq
    rw [postRecv_recvs, List.length_append]
    exact Nat.le_add_right _ _
  · rw [postRecv_recvs_of_ne hq]

theorem length_prePostRecvs_le (cid qid : ℕ) (q : ℕ × ℕ) :
    (s.recvs q).length ≤ ((s.prePostRecvs cid qid).recvs q).length := by
  obtain ⟨rest, hrest⟩ := prePostRecvs_recvs_append (s := s) cid qid q
  rw [hrest, List.length_append]
  exact Nat.le_add_right _ _

/-- Only a message of its own leaves a queue with fewer receives. -/
theorem length_step_le {a : ServerStep Page} {r : Option (Reply Page)}
    (hq : a.queue ≠ some q) (hstep : s.step hash exclusivePolicy a = some (s', r)) :
    (s.recvs q).length ≤ (s'.recvs q).length := by
  by_cases hpost : a.postsOn = some q
  · cases a with
    | prePostRecvs c i =>
        simp only [step, Option.some.injEq, Prod.mk.injEq] at hstep
        rw [← hstep.1]
        exact length_prePostRecvs_le c i q
    | recvMr c =>
        cases hstep
        exact length_postRecv_le c 0 NONE q
    | send _ _ _ _ _ | writeImm _ _ _ _ _ _ | evict _ _ | allocateFromPeer _ => cases hpost
  · rw [step_recvs_of_ne hq hpost hstep]

/-! ## The filter queues -/

/-- The receives of the filter queues have no buffer. -/
def Bare (s : Server Page) : Prop := ∀ cid, ∀ a ∈ s.recvs (cid, numDataQps), a = NONE

theorem Bare.postRecv (h : s.Bare) {addr : Value} (haddr : qid = numDataQps → addr = NONE) :
    (s.postRecv cid qid addr).Bare := by
  intro c a ha
  by_cases hq : (c, numDataQps) = (cid, qid)
  · obtain ⟨rfl, rfl⟩ := Prod.mk.inj hq
    rw [postRecv_recvs] at ha
    rcases List.mem_append.mp ha with hold | hnew
    · exact h c a hold
    · rw [List.mem_singleton.mp hnew]
      exact haddr rfl
  · rw [postRecv_recvs_of_ne hq] at ha
    exact h c a ha

theorem Bare.popRecv (h : s.Bare) (cid qid : ℕ) : (s.popRecv cid qid).Bare := by
  intro c a ha
  by_cases hq : (c, numDataQps) = (cid, qid)
  · obtain ⟨rfl, rfl⟩ := Prod.mk.inj hq
    unfold Server.popRecv at ha
    dsimp only at ha
    rw [Function.update_self] at ha
    exact h c a (List.mem_of_mem_tail ha)
  · rw [popRecv_recvs_of_ne hq] at ha
    exact h c a ha

theorem Bare.prePostRecvs (h : s.Bare) (cid qid : ℕ) : (s.prePostRecvs cid qid).Bare := by
  have hone : ∀ {t : Server Page}, t.Bare → (t.prePostRecv cid qid).Bare := by
    intro t ht
    unfold prePostRecv
    split
    next hlt =>
      have hdata : ∀ addr, qid = numDataQps → addr = NONE := fun _ heq => by omega
      split
      next value kv _ => exact Bare.postRecv (s := { t with kv }) ht (hdata value)
      · exact ht.postRecv (hdata FAILED)
    · exact ht.postRecv fun _ => rfl
  have hloop : ∀ n, ((fun s => prePostRecv s cid qid)^[n] s).Bare := by
    intro n
    induction n with
    | zero => exact h
    | succ n ih =>
        rw [Function.iterate_succ_apply']
        exact hone ih
  unfold Server.prePostRecvs
  exact hloop maxQpsRecvs

theorem Bare.processRecv (h : s.Bare) {wrId : Value} {imm : BitVec 32} {d : Draw}
    {r : Option (Reply Page)} (hwr : qid = numDataQps → wrId = NONE)
    (hr : s.processRecv hash cid qid wrId imm d = .ok (s', r)) : s'.Bare := by
  unfold Server.processRecv at hr
  split at hr
  · cases hr
    exact Bare.postRecv (s := { s with kv := _ }) h fun _ => rfl
  · split at hr
    · cases hr
      exact h
    next hne =>
      have hdata : ∀ addr, qid = numDataQps → addr = NONE := fun _ heq => absurd (hwr heq) hne
      rcases processPut_ok hr with ⟨-, rfl⟩ | ⟨value, kv, kv', -, -, rfl⟩
      · exact h.postRecv (hdata wrId)
      · exact h.postRecv (hdata value)

theorem Bare.step (h : s.Bare) {a : ServerStep Page} {r : Option (Reply Page)}
    (hstep : s.step hash exclusivePolicy a = some (s', r)) : s'.Bare := by
  cases a with
  | prePostRecvs c i =>
      simp only [Server.step, Option.some.injEq, Prod.mk.injEq] at hstep
      rw [← hstep.1]
      exact h.prePostRecvs c i
  | recvMr c =>
      cases hstep
      exact h.postRecv fun _ => rfl
  | send c i msg imm d =>
      obtain ⟨addr, t, hhead, hdeliver, hrecv⟩ := step_send hstep
      have ht : t.Bare := by
        intro c' a ha
        rw [(deliver_some hdeliver).2.1] at ha
        exact h.popRecv c i c' a ha
      refine ht.processRecv (fun heq => ?_) hrecv
      subst heq
      exact h c addr (List.mem_of_head? hhead)
  | writeImm c i off words imm d =>
      obtain ⟨addr, -, himm⟩ := step_writeImm hstep
      have hfst := congrArg Prod.fst himm
      change _ = s' at hfst
      rw [← hfst]
      have hwritten : ((s.popRecv c i).remoteWrite c off words).Bare := h.popRecv c i
      rcases processImm_cases hash exclusivePolicy ((s.popRecv c i).remoteWrite c off words) c i
        imm d with ⟨-, mid, heq⟩ | ⟨mid, -, heq⟩ | ⟨-, heq⟩
      · rw [heq]
        exact hwritten.postRecv fun _ => rfl
      · rw [heq]
        exact hwritten.postRecv fun _ => rfl
      · rw [heq]
        exact hwritten
  | evict draws rand =>
      obtain ⟨kv, -, rfl, -⟩ := step_evict hstep
      exact h
  | allocateFromPeer fl =>
      obtain ⟨_, _, -, rfl, -⟩ := step_allocateFromPeer hstep
      exact h

end Server

/-- In every run the message that starts a filter update finds a receive without a buffer. -/
theorem filterUpdate_delivered {Page : Type} {hash : HashFuncs} {exclusivePolicy : Bool}
    {startAddr : Value} {memPoolSize numClients numHash numBits : ℕ} {mem : Value → Slot Page}
    {s : Server Page} (hreach : (serverSystem hash exclusivePolicy
      (.new startAddr memPoolSize numClients numHash numBits mem)).Reachable s) {cid : ℕ}
    {addr : Value} (hhead : (s.recvs (cid, numDataQps)).head? = some addr) :
    s.deliver cid addr .empty = some s := by
  have hbare : s.Bare := by
    refine hreach.invariant ?_ fun s a s' h hstep => ?_
    · rintro _ rfl
      exact fun _ _ ha => absurd ha List.not_mem_nil
    · obtain ⟨r, hr⟩ := serverSystem_step hstep
      exact h.step hr
  exact if_pos (hbare cid addr (List.mem_of_head? hhead))

end CleancacheRdma.Daemon
