import Mathlib
import CleancacheRdma.Daemon.SingleKey
import CleancacheRdma.Driver.SendBuffer
import CleancacheRdma.Lib.LastWrite

/-!
# Which put of a key wins

The puts of a client go through its buffer and queue 0 into the daemon's table.
Batches are processed in the order in which their work items took `q->mtx`,
which need not be the order in which they were filled.
-/

namespace CleancacheRdma.Driver

open Daemon (Slot Key Value HashFuncs Server ServerStep Reply Draw Usable longkeyToCid)
open Lib (System lastWrite)

/-- The put queue of a client and the daemon. -/
structure PutPath (Page : Type) where
  put : PutRun Page
  server : Server Page

inductive PutPathStep (Page : Type) where
  | client (a : PutStep Page)
  | process (d : Draw)
  | server (a : ServerStep Page)

namespace PutPath

variable {Page : Type}

/-- `process` is the daemon handling the next message of queue 0 of client
`cid`, `server` is anything else that happens to it. -/
def step (hash : HashFuncs) (exclusivePolicy : Bool) (cid : ℕ) (s : PutPath Page) :
    PutPathStep Page → Option (PutPath Page)
  | .client .receive => none
  | .client (.reply _) => none
  | .client a => (s.put.step a).map fun put => { s with put }
  | .process d =>
      match s.put.queue.wire with
      | [] => none
      | m :: wire =>
          (s.server.step hash exclusivePolicy (.send cid 0 (.slot m.1) m.2 d)).map fun r =>
            let replies := s.put.queue.replies ++ (r.2.map Reply.imm).toList
            { put := { s.put with queue := { s.put.queue with wire, replies } }
              server := r.1 }
  | .server a =>
      (s.server.step hash exclusivePolicy a).map fun r => { s with server := r.1 }

/-- Every accepted put was sent and processed. -/
def Delivered (s : PutPath Page) : Prop :=
  s.put.accepted.length % numPutBatch = 0 ∧ s.put.queue.work = [] ∧ s.put.queue.sends = [] ∧
    s.put.queue.wire = []

end PutPath

def putPathSystem {Page : Type} (hash : HashFuncs) (exclusivePolicy : Bool) (cid : ℕ)
    (s₀ : Server Page) : System (PutPath Page) (PutPathStep Page) where
  init s := s.put.Initial ∧ s.server = s₀
  step := PutPath.step hash exclusivePolicy cid

/-! ## Runs in which no put is lost -/

namespace PutPath

variable {Page : Type}

/-- Keys are well formed; no put is dropped, nothing of the client is evicted,
fetched or invalidated. -/
def Undisturbed (hash : HashFuncs) (exclusivePolicy : Bool) (cid : ℕ) (s : PutPath Page) :
    PutPathStep Page → Prop
  | .client (.sendPage page) => Usable page.key ∧ longkeyToCid page.key = cid
  | .client _ => True
  | .process d => ∀ m ∈ s.put.queue.wire.head?,
      (s.server.kv.allocate cid none d.rand).isSome ∧
      s.server.Keeps hash exclusivePolicy cid (.send cid 0 (.slot m.1) m.2 d) ∧
      ∀ s' r, s.server.step hash exclusivePolicy (.send cid 0 (.slot m.1) m.2 d) = some (s', r) →
        s'.kv.table.view (hash 0) m.1.key ≠ none
  | .server a => s.server.WellFormed a ∧ s.server.Keeps hash exclusivePolicy cid a ∧
      ∀ qid b imm d, a ≠ .send cid qid (.slot b) imm d

/-- What a sequence of puts leaves behind. -/
def lastPut (puts : List (Slot Page)) : Key → Option Page := lastWrite Slot.key Slot.data puts

/-- `done` are the messages that were processed. -/
structure Inv (hash : HashFuncs) (cid : ℕ) (s : PutPath Page) (done : List (Slot Page × BitVec 32)) :
    Prop where
  put : s.put.Inv
  server : s.server.Inv hash
  single : s.server.SinglePlace
  client : cid < s.server.kv.pool.numClients
  keys : ∀ page ∈ s.put.accepted, Usable page.key ∧ longkeyToCid page.key = cid
  sent : s.put.sent = done ++ s.put.queue.wire
  current : ∀ key p, longkeyToCid key = cid → s.server.kv.table.view (hash 0) key = some p →
    lastPut (done.map Prod.fst) key = some (s.server.mem p).data
  stored : ∀ m ∈ done, s.server.kv.table.view (hash 0) m.1.key ≠ none

variable {hash : HashFuncs} {exclusivePolicy : Bool} {cid : ℕ} {s s' : PutPath Page}
  {done : List (Slot Page × BitVec 32)}

/-- What is on the wire was accepted. -/
theorem Inv.of_sent (h : s.Inv hash cid done) {m : Slot Page × BitVec 32} (hm : m ∈ s.put.sent) :
    m.1 ∈ s.put.accepted := by
  have hmem : m.1 ∈ s.put.ran.flatMap (batchOf s.put.accepted) := by
    rw [← h.put.posted]
    exact List.mem_append_left _ (List.mem_map_of_mem hm)
  obtain ⟨b, -, hb⟩ := List.mem_flatMap.mp hmem
  exact List.mem_of_mem_drop (List.mem_of_mem_take hb)

/-- The client's own steps: a put that is accepted, and a slot that is read. -/
theorem Inv.client_step (h : s.Inv hash cid done) {a : PutStep Page} {put : PutRun Page}
    (hstep : s.put.step a = some put)
    (hkey : ∀ page, a = .sendPage page → Usable page.key ∧ longkeyToCid page.key = cid)
    (hreceive : a ≠ .receive) : Inv hash cid { s with put } done := by
  have hput := h.put.step hstep
  have hacc : (∀ page ∈ put.accepted, page ∈ s.put.accepted ∨ a = .sendPage page) ∧
      put.sent = done ++ put.queue.wire := by
    cases a with
    | sendPage page =>
        cases hstep
        rcases s.put.queue.sendPage_cases page with ⟨-, hrej⟩ | ⟨-, q', hq, -, -, -, hwire, -⟩
        · simp only [hrej]
          exact ⟨fun page' hp => Or.inl (by simpa using hp), h.sent⟩
        · simp only [hq, if_true, hwire]
          refine ⟨fun page' hp => ?_, h.sent⟩
          rcases List.mem_append.mp hp with hin | hlast
          · exact Or.inl hin
          · exact Or.inr (by rw [List.mem_singleton.mp hlast])
    | post i =>
        obtain ⟨q', hq, rfl⟩ := Option.map_eq_some_iff.mp hstep
        obtain ⟨data, -, -, rfl⟩ := PutQueue.post_some hq
        exact ⟨fun page hp => Or.inl hp, h.sent⟩
    | transmit =>
        obtain ⟨q', hq, rfl⟩ := Option.map_eq_some_iff.mp hstep
        obtain ⟨wr, sends, hsends, rfl⟩ := PutQueue.transmit_some hq
        refine ⟨fun page hp => Or.inl hp, ?_⟩
        simp only [hsends, List.head?_cons, Option.map_some, Option.toList_some, h.sent,
          List.append_assoc]
    | pollSendCq =>
        obtain ⟨q', hq, rfl⟩ := Option.map_eq_some_iff.mp hstep
        obtain ⟨data, -, -, rfl⟩ := PutQueue.pollSendCq_some hq
        exact ⟨fun page hp => Or.inl hp, h.sent⟩
    | clearBit =>
        obtain ⟨q', hq, rfl⟩ := Option.map_eq_some_iff.mp hstep
        obtain ⟨data, -, rfl⟩ := PutQueue.clearBit_some hq
        exact ⟨fun page hp => Or.inl hp, h.sent⟩
    | receive => exact absurd rfl hreceive
    | reply imm =>
        cases hstep
        exact ⟨fun page hp => Or.inl hp, h.sent⟩
    | pollRecvCq =>
        obtain ⟨q', hq, rfl⟩ := Option.map_eq_some_iff.mp hstep
        obtain ⟨imm, replies, -, -, rfl⟩ := PutQueue.pollRecvCq_some hq
        exact ⟨fun page hp => Or.inl hp, h.sent⟩
  refine ⟨hput, h.server, h.single, h.client, fun page hp => ?_, hacc.2, h.current, h.stored⟩
  rcases hacc.1 page hp with hin | rfl
  · exact h.keys page hin
  · exact hkey page rfl

/-- What the daemon does between two messages, and the handling of a message. -/
theorem Inv.server_step (h : s.Inv hash cid done) {a : ServerStep Page} {t : Server Page}
    {r : Option (Reply Page)} (hwf : s.server.WellFormed a)
    (hstep : s.server.step hash exclusivePolicy a = some (t, r))
    (hkeeps : s.server.Keeps hash exclusivePolicy cid a) :
    t.Inv hash ∧ t.SinglePlace ∧ cid < t.kv.pool.numClients ∧
      ∀ m ∈ done, t.kv.table.view (hash 0) m.1.key ≠ none := by
  have hfollows := h.server.step hwf hstep
  refine ⟨hfollows.inv, h.single.of_follows hfollows,
    by rw [hfollows.numClients]; exact h.client, fun m hm => ?_⟩
  have hmem : m ∈ s.put.sent := by
    rw [h.sent]
    exact List.mem_append_left _ hm
  exact hkeeps t r hstep _ (h.keys _ (h.of_sent hmem)).2 (h.stored m hm)

theorem Inv.process (h : s.Inv hash cid done) {d : Draw}
    (hok : s.Undisturbed hash exclusivePolicy cid (.process d))
    (hstep : s.step hash exclusivePolicy cid (.process d) = some s') :
    ∃ m, s'.Inv hash cid (done ++ [m]) := by
  simp only [PutPath.step] at hstep
  split at hstep
  · cases hstep
  next m wire hwire =>
    obtain ⟨⟨t, r⟩, hserver, rfl⟩ := Option.map_eq_some_iff.mp hstep
    obtain ⟨halloc, hkeeps, hstored⟩ := hok m (by rw [hwire]; rfl)
    have hmem : m ∈ s.put.sent := by
      rw [h.sent, hwire]
      exact List.mem_append_right _ List.mem_cons_self
    obtain ⟨husable, howner⟩ := h.keys _ (h.of_sent hmem)
    have hwf : s.server.WellFormed (.send cid 0 (.slot m.1) m.2 d) :=
      ⟨h.client, by decide, by decide, husable, howner⟩
    obtain ⟨hinv, hsingle, hclient, hold⟩ := h.server_step hwf hserver hkeeps
    refine ⟨m, ⟨h.put.daemon _ _, hinv, hsingle, hclient, h.keys, ?_, ?_, ?_⟩⟩
    · show s.put.sent = (done ++ [m]) ++ wire
      rw [h.sent, hwire, List.append_assoc]
      rfl
    · intro key p hkey hp
      unfold lastPut
      rw [List.map_append, List.map_singleton, Lib.lastWrite_snoc]
      rcases Server.step_pageOrigin h.server h.single hwf hserver hp with
        ⟨hview, hdata, hdropped⟩ | ⟨cid', qid, b, imm, d', heq, rfl, hdata, -⟩
      · have hne : key ≠ m.1.key := by
          rintro rfl
          rw [hdropped cid 0 m.1 m.2 d rfl rfl] at halloc
          cases halloc
        rw [Function.update_of_ne hne, hdata]
        exact h.current key p hkey hview
      · cases heq
        rw [Function.update_self, hdata]
    · intro m' hm'
      rcases List.mem_append.mp hm' with hin | hlast
      · exact hold m' hin
      · rw [List.mem_singleton.mp hlast]
        exact hstored t r hserver

theorem Inv.step (h : s.Inv hash cid done) {a : PutPathStep Page}
    (hok : s.Undisturbed hash exclusivePolicy cid a)
    (hstep : s.step hash exclusivePolicy cid a = some s') : ∃ done, s'.Inv hash cid done := by
  cases a with
  | client a =>
      have hrun : ∃ put, s.put.step a = some put ∧ { s with put } = s' ∧ a ≠ .receive := by
        cases a with
        | receive => cases hstep
        | reply imm => cases hstep
        | _ =>
            simp only [PutPath.step] at hstep
            obtain ⟨put, hput, heq⟩ := Option.map_eq_some_iff.mp hstep
            exact ⟨put, hput, heq, by rintro ⟨⟩⟩
      obtain ⟨put, hput, rfl, hne⟩ := hrun
      refine ⟨done, h.client_step hput ?_ hne⟩
      rintro page rfl
      exact hok
  | process d =>
      obtain ⟨m, hinv⟩ := h.process hok hstep
      exact ⟨_, hinv⟩
  | server a =>
      obtain ⟨⟨t, r⟩, hserver, rfl⟩ := Option.map_eq_some_iff.mp hstep
      obtain ⟨hwf, hkeeps, hforeign⟩ := hok
      obtain ⟨hinv, hsingle, hclient, hold⟩ := h.server_step hwf hserver hkeeps
      refine ⟨done, ⟨h.put, hinv, hsingle, hclient, h.keys, h.sent, fun key p hkey hp => ?_, hold⟩⟩
      rcases Server.step_pageOrigin h.server h.single hwf hserver hp with
        ⟨hview, hdata, -⟩ | ⟨cid', qid, b, imm, d, rfl, rfl, -, -⟩
      · rw [hdata]
        exact h.current key p hkey hview
      · -- another client's page carries that client
        have howner : longkeyToCid b.key = cid' := hwf.2.2.2.2
        rw [hkey] at howner
        subst howner
        exact absurd rfl (hforeign qid b imm d)

/-- Once everything is delivered the table holds the last put of each key in
the order in which the work items ran. -/
theorem Inv.content_eq (h : s.Inv hash cid done) (hdone : s.Delivered) {key : Key}
    (hkey : longkeyToCid key = cid) :
    s.server.content hash key = lastPut (s.put.ran.flatMap (batchOf s.put.accepted)) key := by
  obtain ⟨-, -, hsends, hwire⟩ := hdone
  have hsent := h.sent
  rw [hwire, List.append_nil] at hsent
  have hposted := h.put.posted
  rw [PutQueue.unread, hsends, List.map_nil, List.append_nil, hsent] at hposted
  rw [← hposted]
  unfold Server.content
  cases hview : s.server.kv.table.view (hash 0) key with
  | some p => exact (h.current key p hkey hview).symm
  | none =>
      cases hlast : lastPut (done.map Prod.fst) key with
      | none => rfl
      | some v =>
          obtain ⟨page, hpage, rfl, -⟩ := Lib.exists_of_lastWrite hlast
          obtain ⟨m, hm, rfl⟩ := List.mem_map.mp hpage
          exact absurd hview (h.stored m hm)

theorem Undisturbed.exec (s₀ : Server Page) (hclient : cid < s₀.kv.pool.numClients)
    (hinv : s₀.Inv hash) (hsingle : s₀.SinglePlace)
    (hempty : ∀ key, s₀.kv.table.view (hash 0) key = none) {as : List (PutPathStep Page)}
    {i : PutPath Page} (hinit : (putPathSystem hash exclusivePolicy cid s₀).init i)
    (hok : (putPathSystem hash exclusivePolicy cid s₀).Meets
      (Undisturbed hash exclusivePolicy cid) i as)
    (hrun : (putPathSystem hash exclusivePolicy cid s₀).exec i as = some s) :
    ∃ done, s.Inv hash cid done := by
  refine System.exec_invariant (P := Undisturbed hash exclusivePolicy cid)
    (I := fun s => ∃ done, s.Inv hash cid done) ?_ ?_ hok hrun
  · rintro s a s' ⟨done, hs⟩ ha hstep
    exact hs.step ha hstep
  · obtain ⟨hput, rfl⟩ := hinit
    have hput' := hput.inv
    obtain ⟨pool, hpool⟩ := hput
    refine ⟨[], hput', hinv, hsingle, hclient, ?_, ?_, ?_, ?_⟩
    · rw [hpool]
      exact fun page hp => absurd hp List.not_mem_nil
    · rw [hpool]
      rfl
    · intro key p _ hp
      rw [hempty] at hp
      cases hp
    · exact fun m hm => absurd hm List.not_mem_nil

end PutPath

/-- Once all puts of a run are delivered, the table holds the last accepted put
of every key if and only if, with the batches taken in the order in which their
work items ran, the last put of every key has the same bytes. -/
theorem last_put_wins_iff {Page : Type} (hash : HashFuncs) (exclusivePolicy : Bool)
    (startAddr : Value) (memPoolSize numClients numHash numBits : ℕ) (mem : Value → Slot Page)
    {cid : ℕ} (hcid : cid < numClients) {i s : PutPath Page} {as : List (PutPathStep Page)}
    (hinit : (putPathSystem hash exclusivePolicy cid
      (.new startAddr memPoolSize numClients numHash numBits mem)).init i)
    (hok : (putPathSystem hash exclusivePolicy cid
      (.new startAddr memPoolSize numClients numHash numBits mem)).Meets
      (PutPath.Undisturbed hash exclusivePolicy cid) i as)
    (hrun : (putPathSystem hash exclusivePolicy cid
      (.new startAddr memPoolSize numClients numHash numBits mem)).exec i as = some s)
    (hdone : s.Delivered) :
    (∀ key, longkeyToCid key = cid →
      s.server.content hash key = PutPath.lastPut s.put.accepted key) ↔
    ∀ key, longkeyToCid key = cid →
      PutPath.lastPut (s.put.ran.flatMap (batchOf s.put.accepted)) key =
        PutPath.lastPut s.put.accepted key := by
  obtain ⟨done, hinv⟩ := PutPath.Undisturbed.exec (.new startAddr memPoolSize numClients
    numHash numBits mem) hcid (Server.new_inv _ _ _ _ _ _)
    (Server.new_singlePlace _ _ _ _ _ _)
    (fun key => congrFun (Daemon.LinearProbingApprox.view_new _) key) hinit hok hrun
  constructor
  · intro h key hkey
    rw [← hinv.content_eq hdone hkey, h key hkey]
  · intro h key hkey
    rw [hinv.content_eq hdone hkey, h key hkey]

/-! ## Two batches of one key -/

namespace PutPath

section Build

variable {Page : Type} {hash : HashFuncs} {exclusivePolicy : Bool} {cid : ℕ} {s₀ : Server Page}

/-- The client's own steps do not need the daemon. -/
theorem client_trace (hash : HashFuncs) (exclusivePolicy : Bool) (s₀ server : Server Page)
    {as : List (PutStep Page)} : ∀ {put put' : PutRun Page},
      (∀ a ∈ as, a ≠ .receive ∧ ∀ imm, a ≠ .reply imm) →
      (∀ page, .sendPage page ∈ as → Usable page.key ∧ longkeyToCid page.key = cid) →
      (putSystem Page).exec put as = some put' →
      (putPathSystem hash exclusivePolicy cid s₀).Meets (Undisturbed hash exclusivePolicy cid)
        ⟨put, server⟩ (as.map .client) ∧
      (putPathSystem hash exclusivePolicy cid s₀).exec ⟨put, server⟩ (as.map .client) =
        some ⟨put', server⟩ := by
  induction as with
  | nil =>
      intro put put' _ _ h
      cases h
      exact ⟨trivial, rfl⟩
  | cons a as ih =>
      intro put put' hown hkeys h
      obtain ⟨m, hstep, hrest⟩ := System.exec_cons_some.mp h
      refine System.trace_cons (m := ⟨m, server⟩) ?_ ?_
        (ih (fun b hb => hown b (List.mem_cons_of_mem _ hb))
          (fun page hp => hkeys page (List.mem_cons_of_mem _ hp)) hrest)
      · cases a with
        | sendPage page => exact hkeys page List.mem_cons_self
        | _ => trivial
      · obtain ⟨hreceive, hreply⟩ := hown a List.mem_cons_self
        cases a with
        | receive => exact absurd rfl hreceive
        | reply imm => exact absurd rfl (hreply imm)
        | _ => exact congrArg (Option.map fun put => (⟨put, server⟩ : PutPath Page)) hstep

/-- A daemon that is ready for them takes all puts of one key. -/
theorem process_trace (hash : HashFuncs) (exclusivePolicy : Bool) (s₀ : Server Page) {key : Key}
    {rand : ℕ} (hkey : Usable key) (howner : longkeyToCid key = cid) :
    ∀ (n : ℕ) {s : PutPath Page}, s.put.queue.wire.length = n →
      (∀ m ∈ s.put.queue.wire, m.1.key = key) → s.server.Ready hash cid key rand n →
      ∃ s', ((putPathSystem hash exclusivePolicy cid s₀).Meets
          (Undisturbed hash exclusivePolicy cid) s (List.replicate n (.process (.ofList rand))) ∧
        (putPathSystem hash exclusivePolicy cid s₀).exec s
          (List.replicate n (.process (.ofList rand))) = some s') ∧
        s'.put.accepted = s.put.accepted ∧ s'.put.ran = s.put.ran ∧
        s'.put.queue.work = s.put.queue.work ∧ s'.put.queue.sends = s.put.queue.sends ∧
        s'.put.queue.wire = [] := by
  intro n
  induction n with
  | zero =>
      intro s hlen _ _
      exact ⟨s, ⟨trivial, rfl⟩, rfl, rfl, rfl, rfl, List.length_eq_zero_iff.mp hlen⟩
  | succ n ih =>
      intro s hlen hwire hready
      obtain ⟨m, wire, hcons⟩ := List.exists_cons_of_length_eq_add_one hlen
      have hm : m.1.key = key := hwire m (by rw [hcons]; exact List.mem_cons_self)
      subst hm
      obtain ⟨t, r, hstep, hready', halloc, hstored⟩ :=
        hready.put exclusivePolicy hkey howner m.2
      let s₁ : PutPath Page :=
        { put := { s.put with
            queue := { s.put.queue with
              wire, replies := s.put.queue.replies ++ (r.map Reply.imm).toList } }
          server := t }
      have hs₁ : s.step hash exclusivePolicy cid (.process (.ofList rand)) = some s₁ := by
        simp only [PutPath.step, hcons, hstep, Option.map_some]
        rfl
      obtain ⟨s', hrest, hacc, hran, hwork, hsends, hempty⟩ := ih (s := s₁)
        (by rw [hcons] at hlen; exact Nat.succ.inj hlen)
        (fun m' hm' => hwire m' (by rw [hcons]; exact List.mem_cons_of_mem _ hm')) hready'
      refine ⟨s', System.trace_cons ?_ hs₁ hrest, hacc, hran, hwork, hsends, hempty⟩
      intro m' hm'
      rw [hcons] at hm'
      cases hm'
      refine ⟨halloc, fun t' r' ht' k _ hk => ?_, fun t' r' ht' => ?_⟩
      · cases hstep.symm.trans ht'
        rw [hready.alone k hk]
        exact hstored
      · cases hstep.symm.trans ht'
        exact hstored

/-- While nothing is stored nothing is disturbed. -/
theorem undisturbed_server {s : PutPath Page} {a : ServerStep Page}
    (hempty : ∀ key, s.server.kv.table.view (hash 0) key = none) (hwf : s.server.WellFormed a)
    (hforeign : ∀ qid b imm d, a ≠ .send cid qid (.slot b) imm d) :
    s.Undisturbed hash exclusivePolicy cid (.server a) :=
  ⟨hwf, fun _ _ _ key _ hk => absurd (hempty key) hk, hforeign⟩

theorem step_server {s : PutPath Page} {a : ServerStep Page} {t : Server Page}
    {r : Option (Reply Page)} (h : s.server.step hash exclusivePolicy a = some (t, r)) :
    (putPathSystem hash exclusivePolicy cid s₀).step s (.server a) = some { s with server := t } := by
  show (s.server.step hash exclusivePolicy a).map _ = _
  rw [h]
  rfl

end Build

/-- The client of the roomy daemon, before it connects. -/
def roomyInit : PutPath ℕ where
  put := { queue := { keypageMmPool := fun _ => ⟨0, 0⟩ } }
  server := Server.roomyServer

/-- Two batches of puts of key 1, of bytes 0 and of bytes 1; item `i` of the
two runs first. -/
def twoBatches (i : ℕ) : List (PutStep ℕ) :=
  (List.range 64).map (fun n => .sendPage ⟨n / 32, 1⟩) ++ .post i ::
    (List.replicate 32 .transmit ++ .pollSendCq :: .clearBit :: .post 0 ::
      (List.replicate 32 .transmit ++ [.pollSendCq, .clearBit]))

def roomyRun (i : ℕ) : List (PutPathStep ℕ) :=
  Server.roomyStartUp.map .server ++ ((twoBatches i).map .client ++
    List.replicate 64 (.process (.ofList 4)))

theorem startUp_trace :
    (putPathSystem Daemon.keyHash true 0 Server.roomyServer).Meets
      (Undisturbed Daemon.keyHash true 0) roomyInit (Server.roomyStartUp.map .server) ∧
    (putPathSystem Daemon.keyHash true 0 Server.roomyServer).exec roomyInit
      (Server.roomyStartUp.map .server) = some { roomyInit with server := Server.roomyStarted } := by
  have hempty : ∀ s : Server ℕ, s.kv.table = Server.roomyServer.kv.table →
      ∀ key, s.kv.table.view (Daemon.keyHash 0) key = none := by
    intro s hs key
    rw [hs]
    exact congrFun (Daemon.LinearProbingApprox.view_new _) key
  have hpost : Server.roomyConnected.step Daemon.keyHash true (.prePostRecvs 0 0) =
      some (Server.roomyStarted, none) := by
    rw [Server.roomyStarted]
    simp only [Server.step]
  simp only [Server.roomyStartUp, List.map_cons, List.map_nil]
  refine System.trace_cons (m := { roomyInit with server := Server.roomyServer.recvMr 0 })
    (undisturbed_server (hempty _ rfl) (by decide) (by rintro _ _ _ _ ⟨⟩)) (step_server rfl) ?_
  refine System.trace_cons (m := { roomyInit with server := Server.roomyConnected })
    (undisturbed_server (hempty _ rfl) (by decide) (by rintro _ _ _ _ ⟨⟩)) (step_server rfl) ?_
  refine System.trace_cons (m := { roomyInit with server := Server.roomyStarted })
    (undisturbed_server (hempty _ rfl) (by decide) (by rintro _ _ _ _ ⟨⟩))
    (step_server hpost) ?_
  exact ⟨trivial, rfl⟩

/-- The puts of the two batches. -/
def twoBatchPuts : List (Slot ℕ) := (List.range 64).map fun n => ⟨n / 32, 1⟩

/-- What a run of the two batches leaves in the driver. -/
structure TwoBatchesRan (i : ℕ) (order : List ℕ) (put : PutRun ℕ) : Prop where
  run : (putSystem ℕ).exec roomyInit.put (twoBatches i) = some put
  accepted : put.accepted = twoBatchPuts
  ran : put.ran = order
  work : put.queue.work = []
  sends : put.queue.sends = []
  wire : put.queue.wire.length = 64 ∧ ∀ m ∈ put.queue.wire, m.1.key = 1

theorem twoBatchesRan_of_obs (i : ℕ) (order : List ℕ)
    (h : ((putSystem ℕ).exec roomyInit.put (twoBatches i)).map (fun put =>
      (put.accepted.map (fun b => (b.data, b.key)), put.ran, put.queue.work,
        put.queue.sends.length, put.queue.wire.map fun m => m.1.key)) =
      some (twoBatchPuts.map (fun b => (b.data, b.key)), order, [], 0, List.replicate 64 1)) :
    ∃ put, TwoBatchesRan i order put := by
  obtain ⟨put, hrun, hobs⟩ := Option.map_eq_some_iff.mp h
  simp only [Prod.mk.injEq] at hobs
  obtain ⟨hacc, hran, hwork, hsends, hwire⟩ := hobs
  have hinj : Function.Injective fun b : Slot ℕ => (b.data, b.key) := by
    rintro ⟨d, k⟩ ⟨d', k'⟩ heq
    cases heq
    rfl
  refine ⟨put, hrun, List.map_injective_iff.mpr hinj hacc, hran, hwork,
    List.length_eq_zero_iff.mp hsends, ?_, fun m hm => ?_⟩
  · have hlen := congrArg List.length hwire
    rwa [List.length_map, List.length_replicate] at hlen
  · have hmem : m.1.key ∈ put.queue.wire.map fun m => m.1.key := List.mem_map_of_mem hm
    rw [hwire] at hmem
    exact List.eq_of_mem_replicate hmem

/-- The whole run: connection, puts and items, processing. -/
theorem roomyRun_trace {i : ℕ} {order : List ℕ} {put : PutRun ℕ} (h : TwoBatchesRan i order put) :
    ∃ s, ((putPathSystem Daemon.keyHash true 0 Server.roomyServer).Meets
        (Undisturbed Daemon.keyHash true 0) roomyInit (roomyRun i) ∧
      (putPathSystem Daemon.keyHash true 0 Server.roomyServer).exec roomyInit (roomyRun i) =
        some s) ∧ s.Delivered ∧ s.put.accepted = twoBatchPuts ∧ s.put.ran = order := by
  have hone : Usable 1 ∧ longkeyToCid 1 = 0 := by decide
  obtain ⟨hstart, hstarted⟩ := startUp_trace
  have hown : ∀ a ∈ twoBatches i, a ≠ .receive ∧ ∀ imm, a ≠ .reply imm := by
    intro a ha
    simp only [twoBatches, List.mem_append, List.mem_cons, List.mem_map, List.mem_replicate] at ha
    constructor
    · rintro rfl
      simp at ha
    · rintro imm rfl
      simp at ha
  have hkeys : ∀ page, .sendPage page ∈ twoBatches i → Usable page.key ∧ longkeyToCid page.key = 0 := by
    intro page hp
    simp only [twoBatches, List.mem_append, List.mem_cons, List.mem_map, List.mem_replicate] at hp
    rcases hp with ⟨n, -, heq⟩ | hp
    · cases heq
      exact hone
    · simp at hp
  obtain ⟨hclient, hsent⟩ := client_trace Daemon.keyHash true Server.roomyServer
    Server.roomyStarted hown hkeys h.run
  have hready := Server.roomyStarted_ready Daemon.keyHash 1
  unfold roomyRun
  generalize Server.roomyStarted = started at hstarted hclient hsent hready
  obtain ⟨s, hprocess, hacc, hran, hwork, hsends, hwire⟩ := process_trace Daemon.keyHash
    true Server.roomyServer hone.1 hone.2 64 (s := ⟨put, started⟩) h.wire.1 h.wire.2 hready
  have hrest := System.meets_append hclient hsent hprocess.1
  have hexec := System.exec_append_some.mpr ⟨_, hsent, hprocess.2⟩
  refine ⟨s, ⟨System.meets_append hstart hstarted hrest,
    System.exec_append_some.mpr ⟨_, hstarted, hexec⟩⟩,
    ⟨?_, ?_, ?_, hwire⟩, hacc.trans h.accepted, hran.trans h.ran⟩
  · rw [hacc.trans h.accepted]
    decide
  · exact hwork.trans h.work
  · exact hsends.trans h.sends

end PutPath

/-- The items run in the order in which they were scheduled, and the second
batch wins. -/
theorem last_put_wins_iff_inOrder :
    ∃ s, (putPathSystem Daemon.keyHash true 0 Server.roomyServer).exec PutPath.roomyInit
        (PutPath.roomyRun 0) = some s ∧ s.Delivered ∧
      ∀ key, longkeyToCid key = 0 →
        s.server.content Daemon.keyHash key = PutPath.lastPut PutPath.twoBatchPuts key := by
  obtain ⟨put, hput⟩ := PutPath.twoBatchesRan_of_obs 0 [0, 1] (by decide +kernel)
  obtain ⟨s, ⟨hok, hrun⟩, hdone, hacc, hran⟩ := PutPath.roomyRun_trace hput
  refine ⟨s, hrun, hdone, ?_⟩
  rw [← hacc]
  refine (last_put_wins_iff Daemon.keyHash true 4096 4194304 1 1 8 (fun _ => ⟨0, 0⟩) (by decide)
    ⟨⟨_, rfl⟩, rfl⟩ hok hrun hdone).mpr fun key _ => ?_
  rw [hacc, hran]
  rfl

/-- The item of the second batch runs first, and the bytes of the first win. -/
theorem last_put_loses :
    (putPathSystem Daemon.keyHash true 0 Server.roomyServer).Meets
      (PutPath.Undisturbed Daemon.keyHash true 0) PutPath.roomyInit (PutPath.roomyRun 1) ∧
    ∃ s, (putPathSystem Daemon.keyHash true 0 Server.roomyServer).exec PutPath.roomyInit
        (PutPath.roomyRun 1) = some s ∧ s.Delivered ∧
      s.server.content Daemon.keyHash 1 = some 0 ∧ PutPath.lastPut s.put.accepted 1 = some 1 := by
  obtain ⟨put, hput⟩ := PutPath.twoBatchesRan_of_obs 1 [1, 0] (by decide +kernel)
  obtain ⟨s, ⟨hok, hrun⟩, hdone, hacc, hran⟩ := PutPath.roomyRun_trace hput
  obtain ⟨done, hinv⟩ := PutPath.Undisturbed.exec Server.roomyServer (by decide)
    (Server.new_inv _ _ _ _ _ _) (Server.new_singlePlace _ _ _ _ _ _)
    (fun key => congrFun (Daemon.LinearProbingApprox.view_new _) key) ⟨⟨_, rfl⟩, rfl⟩ hok hrun
  refine ⟨hok, s, hrun, hdone, ?_, ?_⟩
  · rw [hinv.content_eq hdone (by decide), hacc, hran]
    decide +kernel
  · rw [hacc]
    decide +kernel

end CleancacheRdma.Driver
