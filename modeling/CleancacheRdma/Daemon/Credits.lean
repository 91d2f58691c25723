import Mathlib
import CleancacheRdma.Daemon.Circulation
import CleancacheRdma.Daemon.HashTable.Reserved

/-!
# Receive credits

A message takes a receive; whether a new one is posted in its place is up to the
handler. Most of them begin with it or do it whatever `Allocate` says. The
exceptions are the messages a handler has no case for: another type in an
immediate, and data without a buffer outside of the connection setup.
-/

namespace CleancacheRdma.Daemon

open Lib (System)
open LinearProbingApprox (lockSize)

/-! ## Every address is that of a page

`P` is kept by everything the daemon does with an address, whatever keys the
clients send: pages move between lists, buckets and receives. -/

section Only

variable {P : Value → Prop}

namespace LinearProbingApprox

variable {t : LinearProbingApprox} {hash : Key → ℕ} {key : Key} {value : Value}

def Only (P : Value → Prop) (t : LinearProbingApprox) : Prop :=
  ∀ slot, (t.buckets slot).value ≠ NONE → P (t.buckets slot).value

theorem Only.put (h : t.Only P) {slot : ℕ} {b : LPABkt} (hb : b.value ≠ NONE → P b.value) :
    (t.put slot b).Only P := by
  intro i hi
  rw [put_buckets] at hi ⊢
  by_cases hs : i = slot
  · rw [hs, Function.update_self] at hi ⊢
    exact hb hi
  · rw [Function.update_of_ne hs] at hi ⊢
    exact h i hi

theorem Only.bury (h : t.Only P) (slot : ℕ) : (t.bury slot).Only P := h.put (h slot)

theorem Only.delete (h : t.Only P) (key : Key) :
    (t.delete hash key).1.Only P ∧
      ((t.delete hash key).2 ≠ NONE → P (t.delete hash key).2) := by
  rcases @delete_scanned t hash key with ⟨i, -, hd⟩ | ⟨-, hd⟩
  · rw [hd]
    exact ⟨h.bury _, h _⟩
  · rw [hd]
    exact ⟨h, fun hne => absurd rfl hne⟩

theorem Only.lookup (h : t.Only P) {found : ℕ → LinearProbingApprox × Value}
    (hfound : ∀ slot, (found slot).1.Only P ∧ ((found slot).2 ≠ NONE → P (found slot).2))
    (key : Key) : (t.lookup found hash key).1.Only P ∧
      ((t.lookup found hash key).2 ≠ NONE → P (t.lookup found hash key).2) := by
  rcases @lookup_scanned t hash found key with ⟨i, -, hr⟩ | ⟨-, hr⟩
  · rw [hr]
    exact hfound _
  · rw [hr]
    exact ⟨h, fun hne => absurd rfl hne⟩

theorem Only.getWithFlag (h : t.Only P) (key : Key) (busy : Bool) (now : BitVec 32) :
    (t.getWithFlag hash key busy now).1.Only P := by
  refine (h.lookup (fun slot => ?_) key).1
  unfold flagBucket
  cases busy with
  | true => exact ⟨h.put (h slot), h slot⟩
  | false => exact ⟨h.put (h slot), fun hne => absurd rfl hne⟩

/-- What `Insert` hands back is the new pair or one that was stored. -/
theorem Only.insert (h : t.Only P) (hvalue : P value) {evKey : Key} {now : BitVec 32}
    {prevTryLock : Bool} {r : Inserted}
    (hr : t.insert hash key value evKey now prevTryLock = .ok r) :
    r.table.Only P ∧ (r.evValue ≠ NONE → P r.evValue) := by
  rcases t.insert_any hash key value evKey now prevTryLock with
    ⟨i, -, -, heq⟩ | ⟨t₁, hclear, heq⟩
  · cases hr.symm.trans heq
    exact ⟨h.bury _, h _⟩
  · have h₁ : t₁.Only P := by
      cases hclear with
      | missed _ => exact h
      | buried _ _ => exact h.bury _
    have hdecides := t₁.insertFresh_decides hash key value evKey now prevTryLock
    rw [← heq, hr] at hdecides
    generalize he : (Except.ok r : Except Stop Inserted) = e at hdecides
    cases hdecides with
    | duplicated _ _ _ _ => cases he
    | vacant _ _ _ _ =>
        cases he
        exact ⟨h₁.put fun _ => hvalue, fun hne => absurd rfl hne⟩
    | victim _ hfull hvictim =>
        rcases evictVictim_cases _ (hfull _ hvictim.lt) with ⟨-, hev⟩ | ⟨-, hev⟩
        · cases he.trans hev
          exact ⟨h₁, fun _ => hvalue⟩
        · cases he.trans hev
          exact ⟨h₁.put fun _ => hvalue, h₁ _⟩
    | dropped _ _ =>
        cases he
        exact ⟨h₁, fun hne => absurd rfl hne⟩

end LinearProbingApprox

namespace PerCPUPool

variable {p p' : PerCPUPool} {a : Value}

def Only (P : Value → Prop) (p : PerCPUPool) : Prop := ∀ fl, ∀ a ∈ (p.freelist fl).addrs, P a

theorem mem_putFreeAddr {f : FreeList} {x : Value} (h : x ∈ (f.putFreeAddr a).addrs) :
    x = a ∨ x ∈ f.addrs := by
  unfold FreeList.putFreeAddr at h
  split at h
  · exact List.mem_cons.mp h
  · exact Or.inr h

/-- One list is another one. -/
theorem Only.update (h : p.Only P) {fl : ℕ} {f : FreeList} (hf : ∀ x ∈ f.addrs, P x)
    (k : ℕ) : ∀ x ∈ (Function.update p.freelist fl f k).addrs, P x := by
  by_cases hk : k = fl
  · rw [hk, Function.update_self]
    exact hf
  · rw [Function.update_of_ne hk]
    exact h k

theorem Only.give (h : p.Only P) (ha : P a) (fl : ℕ) : (p.give fl a).Only P := by
  refine h.update fun x hx => ?_
  rcases mem_putFreeAddr hx with rfl | hx
  · exact ha
  · exact h fl x hx

theorem Only.take (h : p.Only P) {fl : ℕ} {f : FreeList}
    (hget : (p.freelist fl).getFreeAddr = some (a, f)) : P a ∧ (p.take fl f).Only P := by
  have hmem := (FreeList.getFreeAddr_some hget).1
  refine ⟨h fl a (hmem ▸ List.mem_cons_self), h.update fun x hx => h fl x ?_⟩
  rw [hmem]
  exact List.mem_cons_of_mem a hx

theorem Only.allocate (h : p.Only P) {cid : ℕ} {qid : Option ℕ} {rand : ℕ}
    (ha : p.allocate cid qid rand = some (a, p')) : P a ∧ p'.Only P := by
  obtain ⟨i, -, f, hget, rfl⟩ := allocateLoop_tried ha
  exact h.take hget

theorem Only.allocateFromPeer (h : p.Only P) {fl : ℕ}
    (ha : p.allocateFromPeer fl = some (a, p')) : p'.Only P := by
  have hloop : ∀ n peerFl next, p.borrowLoop fl next n peerFl = some (a, p') → p'.Only P := by
    intro n
    induction n with
    | zero =>
        intro peerFl next ha
        cases ha
    | succ n ih =>
        intro peerFl next ha
        unfold borrowLoop at ha
        split at ha
        · split at ha
          next a' f hget =>
            cases ha
            obtain ⟨hpage, hrest⟩ := h.take hget
            have hlent : ∀ k, ∀ x ∈ (Function.update p.freelist peerFl f k).addrs, P x := hrest
            refine Only.update (p := { p with freelist := Function.update p.freelist peerFl f })
              hlent fun x hx => ?_
            rcases mem_putFreeAddr hx with rfl | hx
            · exact hpage
            · exact hlent fl x hx
          · exact ih _ _ ha
        · exact ih _ _ ha
  unfold PerCPUPool.allocateFromPeer at ha
  dsimp only at ha
  split at ha
  · cases ha
  · exact hloop _ _ _ ha

end PerCPUPool

namespace KV

variable {hash : HashFuncs} {kv kv' : KV} {key : Key} {value : Value} {cid : ℕ}

structure Only (P : Value → Prop) (kv : KV) : Prop where
  table : kv.table.Only P
  pool : kv.pool.Only P

theorem Only.free (h : kv.Only P) (hvalue : P value) (cid rand : ℕ) :
    (kv.free value cid rand).Only P := ⟨h.table, h.pool.give hvalue _⟩

theorem Only.allocate (h : kv.Only P) {qid : Option ℕ} {rand : ℕ}
    (ha : kv.allocate cid qid rand = some (value, kv')) : P value ∧ kv'.Only P := by
  obtain ⟨⟨a, p⟩, halloc, heq⟩ := Option.map_eq_some_iff.mp ha
  cases heq
  obtain ⟨hpage, hpool⟩ := h.pool.allocate halloc
  exact ⟨hpage, h.table, hpool⟩

theorem Only.insertRetry (hvalue : P value) (draws : List InsertDraw) :
    ∀ (kv : KV) (r : KV × ℤ), kv.Only P →
      insertRetry hash key value cid kv draws = .ok r → r.1.Only P := by
  induction draws with
  | nil =>
      intro kv r _ hr
      cases hr
  | cons d ds ih =>
      intro kv r h hr
      cases hins : kv.table.insert (hash 0) key value INVALID d.now d.prevTryLock with
      | error e =>
          rw [KV.insertRetry, hins] at hr
          cases hr
      | ok ins =>
          obtain ⟨htable, hev⟩ := h.table.insert hvalue hins
          have hkv : ({ kv with table := ins.table } : KV).Only P := ⟨htable, h.pool⟩
          rw [KV.insertRetry, hins] at hr
          dsimp only at hr
          split at hr
          next hcase =>
            have hfreed := hkv.free (hev hcase.2) (longkeyToCid ins.evKey) d.rand
            split at hr
            · cases hr
              exact ⟨hfreed.table, hfreed.pool⟩
            · cases hr
              exact hfreed
          · split at hr
            next hcase =>
              split at hr
              · cases hr
              · exact ih _ r (hkv.free (hev hcase) cid d.rand) hr
            · cases hr
              exact hkv

theorem Only.insert (h : kv.Only P) (hvalue : P value) {draws : List InsertDraw}
    (hr : kv.insert hash key value cid draws = .ok kv') : kv'.Only P := by
  obtain ⟨r, hretry, rfl⟩ := insert_ok hr
  have hkv := Only.insertRetry hvalue draws kv r h hretry
  split
  · exact ⟨hkv.table, hkv.pool⟩
  · exact hkv

theorem Only.removeFree (h : kv.Only P) (key : Key) (cid rand : ℕ) :
    (kv.removeFree hash key cid rand).Only P := by
  obtain ⟨htable, hvalue⟩ := @LinearProbingApprox.Only.delete _ _ (hash 0) h.table key
  have hkv : (kv.remove hash key cid).1.Only P ∧
      ((kv.remove hash key cid).2 ≠ NONE → P (kv.remove hash key cid).2) := by
    unfold KV.remove
    dsimp only
    split
    · exact ⟨⟨htable, h.pool⟩, hvalue⟩
    · exact ⟨⟨htable, h.pool⟩, hvalue⟩
  unfold KV.removeFree
  split
  next hne => exact hkv.1.free (hkv.2 hne) cid rand
  · exact hkv.1

theorem Only.getWithFlag (h : kv.Only P) (key : Key) (busy : Bool) (now : BitVec 32) :
    (kv.getWithFlag hash key busy now).1.Only P := ⟨h.table.getWithFlag key busy now, h.pool⟩

theorem Only.evict (h : kv.Only P) {draws : List LinearProbingApprox.EvictDraw} {rand : ℕ}
    (hr : kv.evict hash draws rand = .ok kv') : kv'.Only P := by
  rw [KV.evict] at hr
  cases he : kv.table.evict INVALID draws with
  | error e =>
      rw [he] at hr
      cases hr
  | ok v =>
      obtain ⟨table, k, value⟩ := v
      obtain ⟨slot, -, rfl, -, rfl, hne⟩ := LinearProbingApprox.evict_ok he
      rw [he] at hr
      cases hr
      have hkv : ({ kv with table := kv.table.bury slot } : KV).Only P :=
        ⟨h.table.bury slot, h.pool⟩
      have hfreed := hkv.free (h.table slot hne) (longkeyToCid k) rand
      exact ⟨hfreed.table, hfreed.pool⟩

end KV

end Only

/-! ## What a completion owes -/

variable {Page : Type}

/-- The queue whose receive a message takes. -/
def ServerStep.queue : ServerStep Page → Option (ℕ × ℕ)
  | .send cid qid _ _ _ | .writeImm cid qid _ _ _ _ => some (cid, qid)
  | .prePostRecvs _ _ | .recvMr _ | .evict _ _ | .allocateFromPeer _ => none

namespace Server

variable (s : Server Page)

/-- The receive is used for a put: it has a buffer, and this is no filter request. -/
def TakesPut : ServerStep Page → Prop
  | .send cid qid _ imm _ => ¬ (qid = numDataQps ∧ imm = FILTER_UPDATE_BEGIN) ∧
      (s.recvs (cid, qid)).head? ≠ some NONE
  | _ => False

/-- The handler has a case for the message: an immediate is that of a get or an
invalidation, and what is sent without a buffer is a filter request. -/
def HasCase : ServerStep Page → Prop
  | .send cid qid _ imm _ => (qid = numDataQps ∧ imm = FILTER_UPDATE_BEGIN) ∨
      (s.recvs (cid, qid)).head? ≠ some NONE
  | .writeImm _ _ _ _ imm _ => MsgType.ofCode (bitUnmask (ntohl imm)).msg = some .read ∨
      MsgType.ofCode (bitUnmask (ntohl imm)).msg = some .invPage
  | _ => True

instance (a : ServerStep Page) : Decidable (s.HasCase a) :=
  match a with
  | .send _ _ _ _ _ => inferInstanceAs (Decidable (_ ∨ _))
  | .writeImm _ _ _ _ _ _ => inferInstanceAs (Decidable (_ ∨ _))
  | .prePostRecvs _ _ | .recvMr _ | .evict _ _ | .allocateFromPeer _ => isTrue trivial

/-- One receive is posted behind those left on the queue, no other queue is
touched, and in the place of a put's receive it is one that carries a page. -/
def Replaced (P : Value → Prop) (a : ServerStep Page) (s' : Server Page) : Prop :=
  ∀ q, a.queue = some q → ∃ addr,
    s'.recvs = Function.update s.recvs q ((s.recvs q).tail ++ [addr]) ∧ (s.TakesPut a → P addr)

variable {P : Value → Prop} {hash : HashFuncs} {exclusivePolicy : Bool} {s} {s' : Server Page}

/-- Where a page is expected there is one. -/
structure Only (P : Value → Prop) (s : Server Page) : Prop where
  kv : s.kv.Only P
  recvs : ∀ q, ∀ a ∈ s.recvs q, a ≠ NONE → a ≠ FAILED → P a

theorem Only.postRecv (h : s.Only P) {addr : Value} (haddr : addr ≠ NONE → addr ≠ FAILED → P addr)
    (cid qid : ℕ) : (s.postRecv cid qid addr).Only P := by
  refine ⟨h.kv, fun q a ha => ?_⟩
  unfold Server.postRecv at ha
  dsimp only at ha
  by_cases hq : q = (cid, qid)
  · rw [hq, Function.update_self] at ha
    rcases List.mem_append.mp ha with hold | hnew
    · exact h.recvs _ a hold
    · rw [List.mem_singleton.mp hnew]
      exact haddr
  · rw [Function.update_of_ne hq] at ha
    exact h.recvs q a ha

theorem Only.popRecv (h : s.Only P) (cid qid : ℕ) : (s.popRecv cid qid).Only P := by
  refine ⟨h.kv, fun q a ha => ?_⟩
  unfold Server.popRecv at ha
  dsimp only at ha
  by_cases hq : q = (cid, qid)
  · rw [hq, Function.update_self] at ha
    exact h.recvs _ a (List.mem_of_mem_tail ha)
  · rw [Function.update_of_ne hq] at ha
    exact h.recvs q a ha

theorem Only.with_kv (h : s.Only P) {kv : KV} (hkv : kv.Only P) :
    ({ s with kv } : Server Page).Only P := ⟨hkv, h.recvs⟩

theorem Only.prePostRecv (h : s.Only P) (cid qid : ℕ) : (s.prePostRecv cid qid).Only P := by
  unfold Server.prePostRecv
  split
  · split
    next value kv halloc =>
      obtain ⟨hpage, hkv⟩ := h.kv.allocate halloc
      exact (h.with_kv hkv).postRecv (fun _ _ => hpage) cid qid
    · exact h.postRecv (fun _ hne => absurd rfl hne) cid qid
  · exact h.postRecv (fun hne => absurd rfl hne) cid qid

theorem Only.iterate (cid qid n : ℕ) :
    ∀ {s : Server Page}, s.Only P → ((fun s => Server.prePostRecv s cid qid)^[n] s).Only P := by
  induction n with
  | zero =>
      intro s h
      exact h
  | succ n ih =>
      intro s h
      exact ih (h.prePostRecv cid qid)

/-- A put: what is posted is a page, and what was received has been one. -/
theorem Only.processPut (h : s.Only P) {cid qid mid : ℕ} {recvAddr : Value} (hrecv : P recvAddr)
    {d : Draw} {r : Option (Reply Page)}
    (hr : s.processPut hash cid qid mid recvAddr d = .ok (s', r)) :
    s'.Only P ∧ ∃ addr, P addr ∧ s'.recvs = (s.postRecv cid qid addr).recvs := by
  rcases processPut_ok hr with ⟨-, rfl⟩ | ⟨value, kv, kv', halloc, hins, rfl⟩
  · exact ⟨h.postRecv (fun _ _ => hrecv) cid qid, recvAddr, hrecv, rfl⟩
  · obtain ⟨hpage, hkv⟩ := h.kv.allocate halloc
    exact ⟨(h.postRecv (fun _ _ => hpage) cid qid).with_kv (hkv.insert hrecv hins),
      value, hpage, rfl⟩

theorem Only.processGet (h : s.Only P) (cid qid mid : ℕ) (d : Draw) :
    (s.processGet hash exclusivePolicy cid qid mid d).1.Only P := by
  cases exclusivePolicy with
  | true =>
      rw [processGet_exclusive]
      exact h.with_kv (h.kv.removeFree _ cid d.rand)
  | false =>
      have hget := @processGet_inclusive _ hash s cid qid mid d
      dsimp only at hget
      rw [hget]
      refine h.with_kv ?_
      split
      · exact (h.kv.getWithFlag _ true d.now).getWithFlag _ false d.nowEnd
      · exact h.kv.getWithFlag _ true d.now

/-- A message behind the receive it took. -/
theorem deliver_only (h : s.Only P) {cid : ℕ} {addr : Value} {msg : Message Page}
    (hd : s.deliver cid addr msg = some s') (haddr : addr ≠ NONE → addr ≠ FAILED → P addr) :
    s'.Only P ∧ (addr ≠ NONE → P addr) := by
  obtain ⟨hkv, hrecvs, haddr'⟩ := deliver_some hd
  refine ⟨⟨by rw [hkv]; exact h.kv, by rw [hrecvs]; exact h.recvs⟩, fun hne => ?_⟩
  rcases haddr' with ⟨hnone, -⟩ | ⟨hne', hfailed, -⟩
  · exact absurd hnone hne
  · exact haddr hne' hfailed

/-! ## One completion -/

/-- The receives of the queue, one taken and one posted. -/
theorem recvs_replaced {t : Server Page} {cid qid : ℕ}
    (ht : t.recvs = (s.popRecv cid qid).recvs) (addr : Value) :
    (t.postRecv cid qid addr).recvs =
      Function.update s.recvs (cid, qid) ((s.recvs (cid, qid)).tail ++ [addr]) := by
  unfold postRecv
  dsimp only
  rw [ht]
  unfold popRecv
  dsimp only
  rw [Function.update_self, Function.update_idem]

/-- With nothing posted the queue is shorter. -/
theorem not_replaced {cid qid : ℕ} {addr : Value} (hs : s'.recvs = (s.popRecv cid qid).recvs) :
    s'.recvs ≠ Function.update s.recvs (cid, qid) ((s.recvs (cid, qid)).tail ++ [addr]) := by
  intro heq
  have hq := congrFun (hs.symm.trans heq) (cid, qid)
  unfold popRecv at hq
  dsimp only at hq
  rw [Function.update_self, Function.update_self] at hq
  have hlen := congrArg List.length hq
  rw [List.length_append, List.length_singleton] at hlen
  omega

theorem send_replaced_iff (h : s.Only P) {cid qid : ℕ} {msg : Message Page} {imm : BitVec 32}
    {d : Draw} {r : Option (Reply Page)}
    (hstep : s.step hash exclusivePolicy (.send cid qid msg imm d) = some (s', r)) :
    s'.Only P ∧ (s.Replaced P (.send cid qid msg imm d) s' ↔ s.HasCase (.send cid qid msg imm d)) := by
  obtain ⟨addr, t, hhead, hdeliver, hrecv⟩ := step_send hstep
  have hmem : addr ∈ s.recvs (cid, qid) := List.mem_of_head? hhead
  obtain ⟨ht, hpage⟩ := deliver_only (h.popRecv cid qid) hdeliver (h.recvs _ addr hmem)
  have hrecvs : t.recvs = (s.popRecv cid qid).recvs := (deliver_some hdeliver).2.1
  unfold processRecv at hrecv
  by_cases hfilter : qid = numDataQps ∧ imm = FILTER_UPDATE_BEGIN
  · rw [if_pos hfilter] at hrecv
    cases hrecv
    refine ⟨?_, fun _ => Or.inl hfilter, fun _ q hq => ?_⟩
    · apply Only.postRecv _ (fun hne => absurd rfl hne)
      exact ht.with_kv ⟨ht.kv.table, ht.kv.pool⟩
    · cases hq
      exact ⟨NONE, recvs_replaced hrecvs NONE, fun hput => absurd hfilter hput.1⟩
  · rw [if_neg hfilter] at hrecv
    by_cases hnone : addr = NONE
    · -- a receive without a buffer, after the connection
      rw [if_pos hnone] at hrecv
      cases hrecv
      refine ⟨ht, fun hrep => ?_, fun hcase => ?_⟩
      · obtain ⟨a, ha, -⟩ := hrep (cid, qid) rfl
        exact absurd ha (not_replaced hrecvs)
      · rw [hnone] at hhead
        exact absurd hhead (hcase.resolve_left hfilter)
    · rw [if_neg hnone] at hrecv
      obtain ⟨honly, a, ha, heq⟩ := ht.processPut (hpage hnone) hrecv
      refine ⟨honly, fun _ => Or.inr ?_, fun _ q hq => ?_⟩
      · rw [hhead]
        exact fun hsome => hnone (Option.some.inj hsome)
      · cases hq
        exact ⟨a, heq.trans (recvs_replaced hrecvs a), fun _ => ha⟩

theorem writeImm_replaced_iff (h : s.Only P) {cid qid off : ℕ} {words : List (BitVec 64)}
    {imm : BitVec 32} {d : Draw} {r : Option (Reply Page)}
    (hstep : s.step hash exclusivePolicy (.writeImm cid qid off words imm d) = some (s', r)) :
    s'.Only P ∧ (s.Replaced P (.writeImm cid qid off words imm d) s' ↔
      s.HasCase (.writeImm cid qid off words imm d)) := by
  obtain ⟨addr, -, himm⟩ := step_writeImm hstep
  obtain ⟨t, honly, hrecvs, himm⟩ : ∃ t : Server Page, t.Only P ∧
      t.recvs = (s.popRecv cid qid).recvs ∧
      t.processImm hash exclusivePolicy cid qid imm d = (s', r) :=
    ⟨(s.popRecv cid qid).remoteWrite cid off words,
      ⟨(h.popRecv cid qid).kv, (h.popRecv cid qid).recvs⟩, rfl, himm⟩
  have hpost : (t.postRecv cid qid NONE).Only P :=
    honly.postRecv (fun hne => absurd rfl hne) cid qid
  have hrep : ∀ {u : Server Page}, u.recvs = (t.postRecv cid qid NONE).recvs →
      s.Replaced P (.writeImm cid qid off words imm d) u := by
    intro u hu q hq
    cases hq
    exact ⟨NONE, hu.trans (recvs_replaced hrecvs NONE), fun hput => hput.elim⟩
  have hskip : s' = t → ¬ s.HasCase (.writeImm cid qid off words imm d) →
      s'.Only P ∧ (s.Replaced P (.writeImm cid qid off words imm d) s' ↔
        s.HasCase (.writeImm cid qid off words imm d)) := by
    rintro rfl hcase
    refine ⟨honly, fun hrep => ?_, fun hc => absurd hc hcase⟩
    obtain ⟨a, ha, -⟩ := hrep (cid, qid) rfl
    exact absurd ha (not_replaced hrecvs)
  unfold processImm at himm
  dsimp only at himm
  cases htype : MsgType.ofCode (bitUnmask (ntohl imm)).msg with
  | none =>
      rw [htype] at himm
      cases himm
      refine hskip rfl fun hcase => ?_
      rcases hcase with hc | hc
      · cases htype.symm.trans hc
      · cases htype.symm.trans hc
  | some m =>
      rw [htype] at himm
      cases m with
      | read =>
          cases himm
          exact ⟨hpost.processGet cid qid _ d, fun _ => Or.inl htype, fun _ => hrep rfl⟩
      | invPage =>
          cases himm
          exact ⟨hpost.with_kv (hpost.kv.removeFree _ cid d.rand), fun _ => Or.inr htype,
            fun _ => hrep rfl⟩
      | _ =>
          cases himm
          refine hskip rfl fun hcase => ?_
          rcases hcase with hc | hc
          · cases htype.symm.trans hc
          · cases htype.symm.trans hc

theorem step_replaced_iff (h : s.Only P) {a : ServerStep Page} {r : Option (Reply Page)}
    (hstep : s.step hash exclusivePolicy a = some (s', r)) :
    s'.Only P ∧ (s.Replaced P a s' ↔ s.HasCase a) := by
  cases a with
  | prePostRecvs cid qid =>
      have hs : s.prePostRecvs cid qid = s' := (Prod.mk.inj (Option.some.inj hstep)).1
      rw [← hs]
      exact ⟨Only.iterate cid qid maxQpsRecvs h, fun _ => trivial, fun _ q hq => by cases hq⟩
  | recvMr cid =>
      cases hstep
      exact ⟨h.postRecv (fun hne => absurd rfl hne) cid 0, fun _ => trivial,
        fun _ q hq => by cases hq⟩
  | send cid qid msg imm d => exact send_replaced_iff h hstep
  | writeImm cid qid off words imm d => exact writeImm_replaced_iff h hstep
  | evict draws rand =>
      obtain ⟨kv, hev, rfl, rfl⟩ := step_evict hstep
      exact ⟨h.with_kv (h.kv.evict hev), fun _ => trivial, fun _ q hq => by cases hq⟩
  | allocateFromPeer fl =>
      obtain ⟨a, pool, halloc, rfl, rfl⟩ := step_allocateFromPeer hstep
      exact ⟨h.with_kv ⟨h.kv.table, h.kv.pool.allocateFromPeer halloc⟩, fun _ => trivial,
        fun _ q hq => by cases hq⟩

/-- The buffer of a receive that carries a page. -/
def PageBuffer (startAddr : Value) (memPoolSize : ℕ) (a : Value) : Prop :=
  InPool startAddr memPoolSize a ∧ a ≠ NONE

theorem new_only {startAddr : Value} (hstart : startAddr ≠ NONE)
    (memPoolSize numClients numHash numBits : ℕ) (mem : Value → Slot Page) :
    (Server.new startAddr memPoolSize numClients numHash numBits mem).Only
      (PageBuffer startAddr memPoolSize) where
  kv := by
    refine ⟨fun slot hne => absurd rfl hne, fun fl a ha => ?_⟩
    by_cases hfl : fl < numClients * numDataQps
    · have hpages : a ∈ (PerCPUPool.new startAddr memPoolSize numClients numDataQps).pages :=
        Finset.mem_biUnion.mpr ⟨fl, Finset.mem_range.mpr hfl, List.mem_toFinset.mpr ha⟩
      obtain ⟨j, rfl, hj⟩ := PerCPUPool.new_pages_slot _ _ _ _ a hpages
      refine ⟨⟨j, rfl, hj⟩, fun hnone => hstart ?_⟩
      exact Nat.eq_zero_of_add_eq_zero_right hnone
    · have hnil : (PerCPUPool.new startAddr memPoolSize numClients numDataQps).freelist fl = {} :=
        if_neg hfl
      have ha' : a ∈ ((PerCPUPool.new startAddr memPoolSize numClients numDataQps).freelist fl).addrs :=
        ha
      rw [hnil] at ha'
      exact absurd ha' List.not_mem_nil
  recvs _ _ ha := absurd ha List.not_mem_nil

end Server

open Server

section Run

variable {hash : HashFuncs} {exclusivePolicy : Bool} {startAddr : Value}
  {memPoolSize numClients numHash numBits : ℕ} {mem : Value → Slot Page}
  {setup acts : List (ServerStep Page)} {s₀ s : Server Page}

/-- Behind any beginning of a run, which contains the connection: every receive
that a completion takes is replaced on its queue, and by a page if it was used
for a put, exactly if the handlers have a case for every message. -/
theorem receive_credits_iff (hstart : startAddr ≠ NONE)
    (hsetup : (serverSystem hash exclusivePolicy
      (.new startAddr memPoolSize numClients numHash numBits mem)).exec
      (.new startAddr memPoolSize numClients numHash numBits mem) setup = some s₀)
    (hrun : (serverSystem hash exclusivePolicy
      (.new startAddr memPoolSize numClients numHash numBits mem)).exec s₀ acts = some s) :
    (serverSystem hash exclusivePolicy
        (.new startAddr memPoolSize numClients numHash numBits mem)).Meets
      (fun m a => ∀ m' r, m.step hash exclusivePolicy a = some (m', r) →
        m.Replaced (PageBuffer startAddr memPoolSize) a m') s₀ acts ↔
    (serverSystem hash exclusivePolicy
        (.new startAddr memPoolSize numClients numHash numBits mem)).Meets
      (fun m a => m.HasCase a) s₀ acts := by
  have hkeeps : ∀ (m : Server Page) a m', m.Only (PageBuffer startAddr memPoolSize) →
      (serverSystem hash exclusivePolicy
        (.new startAddr memPoolSize numClients numHash numBits mem)).step m a = some m' →
      m'.Only (PageBuffer startAddr memPoolSize) := by
    intro m a m' h hstep
    obtain ⟨r, hr⟩ := serverSystem_step hstep
    exact (step_replaced_iff h hr).1
  have honly : s₀.Only (PageBuffer startAddr memPoolSize) :=
    System.exec_invariant (P := fun _ _ => True) (fun m a m' h _ hstep => hkeeps m a m' h hstep)
      (new_only hstart memPoolSize numClients numHash numBits mem)
      (System.meets_of_mem _ _ fun _ _ _ => trivial) hsetup
  refine System.meets_iff (fun m a m' h _ hstep => hkeeps m a m' h hstep)
    (fun m a m' h hstep => ?_) honly hrun
  obtain ⟨r, hr⟩ := serverSystem_step hstep
  constructor
  · intro hrep
    exact (step_replaced_iff h hr).2.mp (hrep m' r hr)
  · intro hcase m'' r' hr'
    cases hr.symm.trans hr'
    exact (step_replaced_iff h hr).2.mpr hcase

end Run

/-- The started daemon takes a put and answers a get. -/
theorem receive_credits_iff_started :
    (serverSystem keyHash true smallServer).Meets
      (fun m a => ∀ m' r, m.step keyHash true a = some (m', r) →
        m.Replaced (PageBuffer 4096 1048576) a m') started
      [.send 0 0 (.slot ⟨7, 5⟩) (immOf .write) { inserts := [{}, {}] },
        .writeImm 0 2 (readKeyOffset 2) [5, 77] (immOf .read) {}] := by
  obtain ⟨-, hsetup⟩ := startUp_trace true
  have hrun : ((serverSystem keyHash true smallServer).exec started
      [.send 0 0 (.slot ⟨7, 5⟩) (immOf .write) { inserts := [{}, {}] },
        .writeImm 0 2 (readKeyOffset 2) [5, 77] (immOf .read) {}]).isSome = true := by
    decide +kernel
  obtain ⟨s, hs⟩ := Option.isSome_iff_exists.mp hrun
  exact (receive_credits_iff (by decide) hsetup hs).mpr (by decide +kernel)

/-- An immediate of type `MSG_WRITE` to a get queue takes one of its receives
for good. -/
theorem receive_lost :
    ∃ s, (serverSystem keyHash true smallServer).exec smallServer startUp = some started ∧
      (serverSystem keyHash true smallServer).exec started [.writeImm 0 2 0 [] (immOf .write) {}] =
        some s ∧
      s.recvs (0, 2) = (started.recvs (0, 2)).tail ∧
      ¬ (serverSystem keyHash true smallServer).Meets
        (fun m a => ∀ m' r, m.step keyHash true a = some (m', r) →
          m.Replaced (PageBuffer 4096 1048576) a m') started
        [.writeImm 0 2 0 [] (immOf .write) {}] := by
  obtain ⟨-, hsetup⟩ := startUp_trace true
  have hstep : started.step keyHash true (.writeImm 0 2 0 [] (immOf .write) {}) =
      some ((started.popRecv 0 2).remoteWrite 0 0 [], none) := by rfl
  have hrun : (serverSystem keyHash true smallServer).step started
      (.writeImm 0 2 0 [] (immOf .write) {}) = some ((started.popRecv 0 2).remoteWrite 0 0 []) :=
    congrArg (Option.map Prod.fst) hstep
  have htail : ((started.popRecv 0 2).remoteWrite 0 0 []).recvs (0, 2) =
      (started.recvs (0, 2)).tail := by
    show Function.update started.recvs (0, 2) (started.recvs (0, 2)).tail (0, 2) = _
    rw [Function.update_self]
  refine ⟨_, hsetup, System.exec_cons_some.mpr ⟨_, hrun, rfl⟩, htail, fun hmeets => ?_⟩
  obtain ⟨addr, haddr, -⟩ := hmeets.1 _ _ hstep (0, 2) rfl
  exact not_replaced rfl haddr

end CleancacheRdma.Daemon
