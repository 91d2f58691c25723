import Mathlib
import CleancacheRdma.Daemon.Ownership

/-!
# What a get sends

The memory behind a stored page is written by the message that brought it and
by nobody else, since a page is in one place. So a key that is stored holds the
bytes of the last put of it, unless that put was dropped: `process_put` gives
the receive back when `Allocate` fails and leaves an older version in the table.
-/

namespace CleancacheRdma.Daemon

open Lib (System)

/-! ## The last put -/

/-- A put message carries its page to its key. -/
def ServerStep.record {Page : Type} (m : Key → Option Page) : ServerStep Page → Key → Option Page
  | .send _ _ (.slot b) _ _ => Function.update m b.key (some b.data)
  | _ => m

/-- The page of the last put message of each key. -/
def lastPut {Page : Type} (past : List (ServerStep Page)) : Key → Option Page :=
  past.foldl ServerStep.record fun _ => none

theorem lastPut_snoc {Page : Type} (past : List (ServerStep Page)) (a : ServerStep Page) :
    lastPut (past ++ [a]) = a.record (lastPut past) := by
  simp [lastPut]

namespace Server

variable {Page : Type} {hash : HashFuncs} {exclusivePolicy : Bool} {s s' : Server Page}
  {past : List (ServerStep Page)}

/-- The page that is stored under a key. -/
def content (hash : HashFuncs) (s : Server Page) (key : Key) : Option Page :=
  (s.kv.table.view (hash 0) key).map fun p => (s.mem p).data

/-- A step that leaves every page of a client stored. -/
def Keeps (hash : HashFuncs) (exclusivePolicy : Bool) (cid : ℕ) (s : Server Page)
    (a : ServerStep Page) : Prop :=
  ∀ s' r, s.step hash exclusivePolicy a = some (s', r) → ∀ key, longkeyToCid key = cid →
    s.kv.table.view (hash 0) key ≠ none → s'.kv.table.view (hash 0) key ≠ none

/-- What is stored are the last puts. -/
def Current (hash : HashFuncs) (past : List (ServerStep Page)) (s : Server Page) : Prop :=
  ∀ key p, s.kv.table.view (hash 0) key = some p → lastPut past key = some (s.mem p).data

/-- A put that does not find a free page is for a key that is not stored. -/
def DropsAbsent (hash : HashFuncs) (s : Server Page) : ServerStep Page → Prop
  | .send cid _ (.slot b) _ d =>
      (s.kv.allocate cid none d.rand).isNone → s.kv.table.view (hash 0) b.key = none
  | _ => True

instance : (a : ServerStep Page) → Decidable (s.DropsAbsent hash a)
  | .send cid _ (.slot b) _ d =>
      inferInstanceAs (Decidable ((s.kv.allocate cid none d.rand).isNone = true →
        s.kv.table.view (hash 0) b.key = none))
  | .send _ _ (.mmInfo _) _ _ => isTrue trivial
  | .send _ _ .empty _ _ => isTrue trivial
  | .prePostRecvs _ _ => isTrue trivial
  | .recvMr _ => isTrue trivial
  | .writeImm _ _ _ _ _ _ => isTrue trivial
  | .evict _ _ => isTrue trivial
  | .allocateFromPeer _ => isTrue trivial

/-! ## The steps -/

theorem prePostRecv_frame (cid qid : ℕ) : (s.prePostRecv cid qid).mem = s.mem ∧
    (s.prePostRecv cid qid).kv.table = s.kv.table := by
  unfold prePostRecv
  split
  · split
    next value kv halloc =>
      obtain ⟨⟨a, pool⟩, -, heq⟩ := Option.map_eq_some_iff.mp halloc
      cases heq
      exact ⟨rfl, rfl⟩
    · exact ⟨rfl, rfl⟩
  · exact ⟨rfl, rfl⟩

theorem prePostRecvs_frame (cid qid : ℕ) : (s.prePostRecvs cid qid).mem = s.mem ∧
    (s.prePostRecvs cid qid).kv.table = s.kv.table := by
  have hloop : ∀ n, ((fun s => Server.prePostRecv s cid qid)^[n] s).mem = s.mem ∧
      ((fun s => Server.prePostRecv s cid qid)^[n] s).kv.table = s.kv.table := by
    intro n
    induction n with
    | zero => exact ⟨rfl, rfl⟩
    | succ n ih =>
        rw [Function.iterate_succ_apply']
        exact ⟨(prePostRecv_frame cid qid).1.trans ih.1, (prePostRecv_frame cid qid).2.trans ih.2⟩
  unfold prePostRecvs
  exact hloop maxQpsRecvs

/-- The page that `key` maps to after a step: the one it mapped to before, with
the same bytes, or the one that a put of `key` brought. In the first case a put
of `key` was dropped. -/
def PageOrigin (hash : HashFuncs) (s s' : Server Page) (a : ServerStep Page) (key : Key)
    (p : Value) : Prop :=
  (s.kv.table.view (hash 0) key = some p ∧ (s'.mem p).data = (s.mem p).data ∧
    ∀ cid qid b imm d, a = .send cid qid (.slot b) imm d → b.key = key →
      s.kv.allocate cid none d.rand = none) ∨
  ∃ cid qid b imm d, a = .send cid qid (.slot b) imm d ∧ b.key = key ∧
    (s'.mem p).data = b.data ∧ (s.kv.allocate cid none d.rand).isSome

/-- A step that stores nothing and brings no page. -/
theorem PageOrigin.of_mono {a : ServerStep Page} (hmem : s'.mem = s.mem)
    (ha : ∀ cid qid b imm d, a ≠ .send cid qid (.slot b) imm d) {key : Key} {p : Value}
    (hp : s.kv.table.view (hash 0) key = some p) : PageOrigin hash s s' a key p :=
  Or.inl ⟨hp, by rw [hmem], fun _ _ _ _ _ he => absurd he (ha _ _ _ _ _)⟩

/-- The page that came in lies under no stored key, so only its own key is
affected. -/
theorem PageOrigin.of_processPut (hinv : s.Inv hash) {b : Slot Page}
    {recvAddr : Value} (hnull : recvAddr ≠ NONE)
    (hfree : ∀ key, s.kv.table.view (hash 0) key ≠ some recvAddr) (hkey : Usable b.key)
    {t : Server Page} (hkv : t.kv = s.kv) (hmem : t.mem = Function.update s.mem recvAddr b)
    {cid qid mid : ℕ} {d : Draw}
    {r : Option (Reply Page)} (hr : t.processPut hash cid qid mid recvAddr d = .ok (s', r))
    {imm : BitVec 32} {key : Key} {p : Value} (hp : s'.kv.table.view (hash 0) key = some p) :
    PageOrigin hash s s' (.send cid qid (.slot b) imm d) key p := by
  have hold : s.kv.table.view (hash 0) key = some p → (t.mem p).data = (s.mem p).data := by
    intro hp
    rw [hmem, Function.update_of_ne]
    rintro rfl
    exact hfree key hp
  rcases processPut_ok hr with ⟨halloc, rfl⟩ | ⟨value, kv, kv', halloc, hins, rfl⟩
  · rw [postRecv_kv, hkv] at hp
    rw [hkv] at halloc
    refine Or.inl ⟨hp, hold hp, ?_⟩
    rintro cid' qid' b' imm' d' ⟨⟩ -
    exact halloc
  · rw [hkv] at halloc
    have hsome : (s.kv.allocate cid none d.rand).isSome := by
      rw [halloc]
      rfl
    obtain ⟨⟨a, pool⟩, -, heq⟩ := Option.map_eq_some_iff.mp halloc
    cases heq
    rw [hmem, Function.update_self] at hins
    change kv'.table.view (hash 0) key = some p at hp
    have hview := KV.insert_insertView hins hinv.kv.table hkey hnull
    rcases hview.cases_some hp with ⟨rfl, rfl⟩ | ⟨hne, hp⟩
    · refine Or.inr ⟨cid, qid, b, imm, d, rfl, rfl, ?_, hsome⟩
      show (t.mem p).data = b.data
      rw [hmem, Function.update_self]
    · refine Or.inl ⟨hp, hold hp, ?_⟩
      rintro cid' qid' b' imm' d' ⟨⟩ he
      exact absurd he.symm hne

theorem view_removeFree (hinv : s.Inv hash) {key : Key} (hkey : Usable key) (cid rand : ℕ)
    {k : Key} {p : Value}
    (hp : (s.kv.removeFree hash key cid rand).table.view (hash 0) k = some p) :
    s.kv.table.view (hash 0) k = some p := by
  rw [KV.removeFree_table, KV.remove_view hinv.kv.table hkey] at hp
  exact KV.update_none_some hp

theorem view_processGet (hinv : s.Inv hash) {cid qid : ℕ}
    (hkey : Usable (s.metaRegion cid (readKeyOffset qid))) (mid : ℕ) (d : Draw) {k : Key}
    {p : Value}
    (hp : (s.processGet hash exclusivePolicy cid qid mid d).1.kv.table.view (hash 0) k = some p) :
    s.kv.table.view (hash 0) k = some p := by
  cases exclusivePolicy with
  | true =>
      rw [processGet_exclusive] at hp
      exact view_removeFree hinv hkey cid d.rand hp
  | false =>
      obtain ⟨hflag, hview, -⟩ := hinv.kv.table.getWithFlag hkey true d.now
      rw [processGet_inclusive] at hp
      dsimp only at hp
      split at hp
      · obtain ⟨-, hview', -⟩ := hflag.getWithFlag hkey false d.nowEnd
        rw [← hview, ← hview']
        exact hp
      · rw [← hview]
        exact hp

theorem step_pageOrigin (hinv : s.Inv hash) (hone : s.SinglePlace)
    {a : ServerStep Page} (hwf : s.WellFormed a)
    {r : Option (Reply Page)} (hstep : s.step hash exclusivePolicy a = some (s', r)) {key : Key}
    {p : Value} (hp : s'.kv.table.view (hash 0) key = some p) : PageOrigin hash s s' a key p := by
  cases a with
  | prePostRecvs cid qid =>
      simp only [Server.step, Option.some.injEq, Prod.mk.injEq] at hstep
      rw [← hstep.1] at hp ⊢
      obtain ⟨hmem, htable⟩ := prePostRecvs_frame (s := s) cid qid
      rw [htable] at hp
      exact .of_mono hmem (by rintro _ _ _ _ _ ⟨⟩) hp
  | recvMr cid =>
      simp only [Server.step, Option.some.injEq, Prod.mk.injEq] at hstep
      rw [← hstep.1] at hp ⊢
      exact .of_mono rfl (by rintro _ _ _ _ _ ⟨⟩) hp
  | send cid qid msg imm d =>
      obtain ⟨hcid, hqid, hmsg⟩ := hwf
      obtain ⟨addr, t, hhead, hdeliver, hrecv⟩ := step_send hstep
      obtain ⟨hkv, -, haddr⟩ := deliver_some hdeliver
      have hkv : t.kv = s.kv := hkv
      rcases haddr with ⟨rfl, hmem⟩ | ⟨hnull, hfailed, b, rfl, hmem⟩
      · -- a message without a page
        have ha : ∀ cid' qid' b imm' d', ServerStep.send cid qid msg imm d ≠
            .send cid' qid' (.slot b) imm' d' := by
          rintro _ _ b _ _ ⟨⟩
          simp [deliver] at hdeliver
        unfold Server.processRecv at hrecv
        split at hrecv
        · cases hrecv
          change t.kv.table.view (hash 0) key = some p at hp
          rw [hkv] at hp
          exact .of_mono hmem ha hp
        · rw [if_pos rfl] at hrecv
          cases hrecv
          rw [hkv] at hp
          exact .of_mono hmem ha hp
      · have hfree : ∀ key, s.kv.table.view (hash 0) key ≠ some addr := by
          intro key hview
          have hposted := (hone.of_view hinv hnull hfailed hview).2
          have hpop := posted_popRecv hcid hqid hhead addr
          rw [KV.single, if_pos rfl] at hpop
          omega
        unfold Server.processRecv at hrecv
        rw [if_neg (fun hf => Nat.ne_of_lt hmsg.1 hf.1), if_neg hnull] at hrecv
        exact .of_processPut hinv hnull hfree hmsg.2.1 hkv hmem hrecv hp
  | writeImm cid qid off words imm d =>
      obtain ⟨hcid, hqid, hreq⟩ := hwf
      obtain ⟨addr, hhead, himm⟩ := step_writeImm hstep
      have hmid : (((s.popRecv cid qid).remoteWrite cid off words).postRecv cid qid NONE).Inv hash :=
        ⟨hinv.kv, hinv.perCliFl⟩
      rcases processImm_cases hash exclusivePolicy ((s.popRecv cid qid).remoteWrite cid off words)
        cid qid imm d with ⟨hkey, mid, heq⟩ | ⟨mid, hkey, heq⟩ | ⟨-, heq⟩
      · cases heq.symm.trans himm
        refine .of_mono ?_ (by rintro _ _ _ _ _ ⟨⟩) (view_processGet hmid (hreq _ hkey).1 mid d hp)
        cases exclusivePolicy with
        | true => rfl
        | false => rfl
      · have hfst := congrArg Prod.fst (heq.symm.trans himm)
        rw [processInvalidatePage_fst] at hfst
        subst hfst
        refine .of_mono ?_ (by rintro _ _ _ _ _ ⟨⟩)
          (view_removeFree hmid (hreq _ hkey).1 cid d.rand hp)
        rfl
      · cases heq.symm.trans himm
        exact .of_mono rfl (by rintro _ _ _ _ _ ⟨⟩) hp
  | evict draws rand =>
      obtain ⟨kv, hev, rfl, -⟩ := step_evict hstep
      obtain ⟨k, hview⟩ := KV.evict_view hev hinv.kv.table
      change kv.table.view (hash 0) key = some p at hp
      rw [hview] at hp
      refine .of_mono ?_ (by rintro _ _ _ _ _ ⟨⟩) (KV.update_none_some hp)
      rfl
  | allocateFromPeer fl =>
      obtain ⟨a, pool, halloc, rfl, -⟩ := step_allocateFromPeer hstep
      refine .of_mono ?_ (by rintro _ _ _ _ _ ⟨⟩) hp
      rfl

theorem Current.step (h : s.Current hash past) (hinv : s.Inv hash) (hone : s.SinglePlace)
    {a : ServerStep Page} (hwf : s.WellFormed a) (hdrop : s.DropsAbsent hash a)
    {r : Option (Reply Page)} (hstep : s.step hash exclusivePolicy a = some (s', r)) :
    s'.Current hash (past ++ [a]) := by
  intro key p hp
  rw [lastPut_snoc]
  rcases step_pageOrigin hinv hone hwf hstep hp with
    ⟨hview, hdata, hdropped⟩ | ⟨cid, qid, b, imm, d, rfl, rfl, hdata, -⟩
  · rw [hdata, ← h key p hview]
    unfold ServerStep.record
    split
    next cid qid b imm d =>
      have hne : key ≠ b.key := by
        rintro rfl
        have hnone := hdropped cid qid b imm d rfl rfl
        rw [hdrop (by rw [hnone]; rfl)] at hview
        cases hview
      rw [Function.update_of_ne hne]
    · rfl
  · rw [hdata]
    simp only [ServerStep.record, Function.update_self]

/-! ## The replies -/

/-- A get is answered with the page its key maps to, or with none. -/
theorem processGet_answer (hinv : s.Inv hash) {cid qid : ℕ}
    (hkey : Usable (s.metaRegion cid (readKeyOffset qid))) (mid : ℕ) (d : Draw) :
    (s.kv.table.view (hash 0) (s.metaRegion cid (readKeyOffset qid)) = none ∧
      (s.processGet hash exclusivePolicy cid qid mid d).2.payload = .empty) ∨
    ∃ p, s.kv.table.view (hash 0) (s.metaRegion cid (readKeyOffset qid)) = some p ∧
      (s.processGet hash exclusivePolicy cid qid mid d).2.payload = .page (s.mem p).data := by
  have hfound : (if exclusivePolicy then s.kv.remove hash (s.metaRegion cid (readKeyOffset qid)) cid
      else s.kv.getWithFlag hash (s.metaRegion cid (readKeyOffset qid)) true d.now).2 =
      (s.kv.table.view (hash 0) (s.metaRegion cid (readKeyOffset qid))).getD NONE := by
    cases exclusivePolicy with
    | true => exact KV.remove_value hinv.kv.table hkey cid
    | false => exact (hinv.kv.table.getWithFlag hkey true d.now).2.2
  unfold Server.processGet Server.readKey
  dsimp only
  generalize (if exclusivePolicy then _ else _ : KV × Value) = found at hfound
  rw [hfound]
  cases hview : s.kv.table.view (hash 0) (s.metaRegion cid (readKeyOffset qid)) with
  | none =>
      left
      refine ⟨rfl, ?_⟩
      rw [Option.getD_none, if_neg (not_not.mpr rfl)]
  | some p =>
      right
      refine ⟨p, rfl, ?_⟩
      rw [Option.getD_some, if_pos (hinv.kv.table.view_ne_none hview)]

/-- A get sends the memory of the page its key maps to. -/
theorem processGet_payload (hinv : s.Inv hash) {cid qid : ℕ}
    (hkey : Usable (s.metaRegion cid (readKeyOffset qid))) {mid : ℕ} {d : Draw} {data : Page}
    (hpage : (s.processGet hash exclusivePolicy cid qid mid d).2.payload = .page data) :
    ∃ p, s.kv.table.view (hash 0) (s.metaRegion cid (readKeyOffset qid)) = some p ∧
      data = (s.mem p).data := by
  rcases processGet_answer hinv hkey mid d with ⟨-, hempty⟩ | ⟨p, hview, hfull⟩
  · rw [hempty] at hpage
    cases hpage
  · rw [hfull] at hpage
    cases hpage
    exact ⟨p, hview, rfl⟩

/-- Every page that a request is answered with is the last put of the
requested key. -/
def SendsLastPut (hash : HashFuncs) (exclusivePolicy : Bool) (past : List (ServerStep Page))
    (s : Server Page) : Prop :=
  ∀ cid qid off words imm d s' r data, s.WellFormed (.writeImm cid qid off words imm d) →
    s.step hash exclusivePolicy (.writeImm cid qid off words imm d) = some (s', some r) →
    r.payload = .page data →
    ∃ key, (s.remoteWrite cid off words).requestKey cid qid imm = some key ∧
      lastPut past key = some data

theorem Current.sendsLastPut (h : s.Current hash past) (hinv : s.Inv hash) :
    s.SendsLastPut hash exclusivePolicy past := by
  intro cid qid off words imm d s' r data hwf hstep hpage
  obtain ⟨-, -, hreq⟩ := hwf
  obtain ⟨addr, hhead, himm⟩ := step_writeImm hstep
  rcases processImm_cases hash exclusivePolicy ((s.popRecv cid qid).remoteWrite cid off words)
    cid qid imm d with ⟨hkey, mid, heq⟩ | ⟨mid, hkey, heq⟩ | ⟨-, heq⟩
  · cases heq.symm.trans himm
    have hmid : (((s.popRecv cid qid).remoteWrite cid off words).postRecv cid qid NONE).Inv hash :=
      ⟨hinv.kv, hinv.perCliFl⟩
    obtain ⟨p, hview, rfl⟩ := processGet_payload hmid (hreq _ hkey).1 hpage
    exact ⟨_, hkey, h _ p hview⟩
  · have hsnd := congrArg Prod.snd (heq.symm.trans himm)
    -- an invalidation is answered without a page
    unfold processInvalidatePage at hsnd
    dsimp only at hsnd
    split at hsnd
    · cases hsnd
      cases hpage
    · cases hsnd
  · cases heq.symm.trans himm

end Server

/-- In a run whose dropped puts are all for keys not stored, a get is answered
with the last put of its key. -/
theorem get_sends_last_put {Page : Type} (hash : HashFuncs) (exclusivePolicy : Bool)
    (startAddr : Value) (memPoolSize numClients numHash numBits : ℕ) (mem : Value → Slot Page)
    {as : List (ServerStep Page)} {s : Server Page}
    (hwf : (serverSystem hash exclusivePolicy
      (.new startAddr memPoolSize numClients numHash numBits mem)).Meets Server.WellFormed
      (.new startAddr memPoolSize numClients numHash numBits mem) as)
    (hdrop : (serverSystem hash exclusivePolicy
      (.new startAddr memPoolSize numClients numHash numBits mem)).Meets
      (Server.DropsAbsent hash) (.new startAddr memPoolSize numClients numHash numBits mem) as)
    (hrun : (serverSystem hash exclusivePolicy
      (.new startAddr memPoolSize numClients numHash numBits mem)).exec
      (.new startAddr memPoolSize numClients numHash numBits mem) as = some s) :
    s.SendsLastPut hash exclusivePolicy as := by
  have hall : s.Inv hash ∧ s.SinglePlace ∧ s.Current hash as := by
    refine System.exec_history
      (P := fun s a => s.WellFormed a ∧ s.DropsAbsent hash a)
      (I := fun past s => s.Inv hash ∧ s.SinglePlace ∧ s.Current hash past)
      ?_ ?_ as s (System.meets_and (Q := Server.DropsAbsent hash) hwf hdrop) hrun
    · rintro past s a s' ⟨hinv, hone, hcur⟩ ⟨hwf, hdrop⟩ hstep
      obtain ⟨r, hs⟩ := serverSystem_step hstep
      have hfollows := hinv.step hwf hs
      exact ⟨hfollows.inv, hone.of_follows hfollows, hcur.step hinv hone hwf hdrop hs⟩
    · refine ⟨Server.new_inv _ _ _ _ _ _, Server.new_singlePlace _ _ _ _ _ _, fun key p hp => ?_⟩
      change (LinearProbingApprox.new _).view (hash 0) key = some p at hp
      rw [LinearProbingApprox.view_new] at hp
      cases hp
  exact hall.2.2.sendsLastPut hall.1

/-- A get of key 1 on queue 2. -/
def getOne : ServerStep ℕ := .writeImm 0 2 (readKeyOffset 2) [1, 0x1000] (immOf .read) {}

/-- The page that a step after a run is answered with. -/
def answer (as : List (ServerStep ℕ)) (a : ServerStep ℕ) : Option (Payload ℕ) :=
  ((serverSystem keyHash true smallServer).exec started as).bind fun s =>
    (s.step keyHash true a).bind fun r => r.2.map Reply.payload

theorem answer_some {as : List (ServerStep ℕ)} {a : ServerStep ℕ} {payload : Payload ℕ}
    (h : answer as a = some payload) :
    ∃ s s' r, (serverSystem keyHash true smallServer).exec smallServer (startUp ++ as) = some s ∧
      s.step keyHash true a = some (s', some r) ∧ r.payload = payload := by
  obtain ⟨s, hrun, hs⟩ := Option.bind_eq_some_iff.mp h
  obtain ⟨⟨s', r⟩, hstep, hr⟩ := Option.bind_eq_some_iff.mp hs
  obtain ⟨reply, rfl, hpayload⟩ := Option.map_eq_some_iff.mp hr
  exact ⟨s, s', reply, System.exec_append_some.mpr ⟨started, (startUp_trace true).2, hrun⟩,
    hstep, hpayload⟩

/-- Both puts of `putPutGet` find a page. -/
theorem get_sends_last_put_updated :
    ∃ s s' r, (serverSystem keyHash true smallServer).exec smallServer
        (startUp ++ putPutGet.take 2) = some s ∧
      s.step keyHash true getOne = some (s', some r) ∧ r.payload = .page 8 ∧
      s.SendsLastPut keyHash true (startUp ++ putPutGet.take 2) := by
  have hanswer : answer (putPutGet.take 2) getOne = some (.page 8) := by decide +kernel
  obtain ⟨s, s', r, hrun, hstep, hpayload⟩ := answer_some hanswer
  obtain ⟨hwf, hstart⟩ := startUp_trace true
  have hdrop : (serverSystem keyHash true smallServer).Meets (Server.DropsAbsent keyHash)
      smallServer startUp :=
    System.meets_of_mem _ _ fun a ha s => by
      fin_cases ha <;> exact trivial
  exact ⟨s, s', r, hrun, hstep, hpayload, get_sends_last_put keyHash true 4096 1048576 16 1 8 _
    (System.meets_append hwf hstart (by decide +kernel))
    (System.meets_append hdrop hstart (by decide +kernel)) hrun⟩

/-- The lists that the second put may take a page from are empty. -/
def droppedUpdate : List (ServerStep ℕ) :=
  [.send 0 0 (.slot ⟨7, 1⟩) (immOf .write) { rand := 6, inserts := [{}, {}] },
   .send 0 0 (.slot ⟨8, 1⟩) (immOf .write) { rand := 0, inserts := [{}, {}] }]

/-- After the second put was dropped a get is still answered with the first. -/
theorem get_sends_stale_page :
    (serverSystem keyHash true smallServer).Meets Server.WellFormed smallServer
      (startUp ++ droppedUpdate) ∧
    ∃ s, (serverSystem keyHash true smallServer).exec smallServer
        (startUp ++ droppedUpdate) = some s ∧
      ¬ s.SendsLastPut keyHash true (startUp ++ droppedUpdate) := by
  obtain ⟨hwf, hstart⟩ := startUp_trace true
  refine ⟨System.meets_append hwf hstart (by decide +kernel), ?_⟩
  have hanswer : answer droppedUpdate getOne = some (.page 7) := by decide +kernel
  obtain ⟨s, s', r, hrun, hstep, hpayload⟩ := answer_some hanswer
  refine ⟨s, hrun, fun hsends => ?_⟩
  have hget : s.WellFormed getOne := by
    have hdec : ((serverSystem keyHash true smallServer).exec started droppedUpdate).map
        (fun s => decide (s.WellFormed getOne)) = some true := by decide +kernel
    obtain ⟨t, ht, hwf⟩ := Option.map_eq_some_iff.mp hdec
    have hexec := System.exec_append_some.mpr ⟨started, hstart, ht⟩
    cases hexec.symm.trans hrun
    exact of_decide_eq_true hwf
  obtain ⟨key, -, hlast⟩ := hsends _ _ _ _ _ _ s' r 7 hget hstep hpayload
  simp only [lastPut, startUp, droppedUpdate, List.cons_append, List.nil_append, List.foldl_cons,
    List.foldl_nil, ServerStep.record, Function.update_apply] at hlast
  split at hlast
  · cases hlast
  · cases hlast

end CleancacheRdma.Daemon
