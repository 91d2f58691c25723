import CleancacheRdma.Daemon.Accounting
import CleancacheRdma.Daemon.Circulation

/-!
# Accounting per client

A page is allocated on the queue of a client and freed to the client that its
key names. `home` says for every address from whose lists it was last taken, or
on whose lists it is; only borrowing changes it. So what a client has in use is
what was allocated from its lists and not yet freed.
-/

namespace CleancacheRdma.Daemon

open Lib (System)
open LinearProbingApprox (EvictDraw)

theorem FreeList.mem_putFreeAddr {a x : Value} {f : FreeList} (h : x ∈ (f.putFreeAddr a).addrs) :
    x = a ∨ x ∈ f.addrs := by
  rw [FreeList.putFreeAddr] at h
  split at h
  · exact List.mem_cons.mp h
  · exact Or.inr h

namespace PerCPUPool

variable {p : PerCPUPool}

theorem Owns.unique {c c' fl : ℕ} (h : p.Owns c fl) (h' : p.Owns c' fl) : c = c' := by
  obtain ⟨hlo, hhi⟩ := h
  obtain ⟨hlo', hhi'⟩ := h'
  rw [← Nat.succ_mul] at hhi hhi'
  have hlt := Nat.lt_of_mul_lt_mul_right (Nat.lt_of_le_of_lt hlo hhi')
  have hgt := Nat.lt_of_mul_lt_mul_right (Nat.lt_of_le_of_lt hlo' hhi)
  omega

theorem WF.owns_div (h : p.WF) (fl : ℕ) : p.Owns (fl / p.perCliFl) fl := by
  have hdiv := Nat.div_add_mod' fl p.perCliFl
  have hmod := Nat.mod_lt fl h.perCliFl_pos
  constructor
  · exact Nat.div_mul_le_self fl _
  · omega

/-- The lists of a client. -/
def lists (p : PerCPUPool) (cli : ℕ) : Finset ℕ :=
  Finset.Ico (cli * p.perCliFl) (cli * p.perCliFl + p.perCliFl)

theorem mem_lists {cli fl : ℕ} : fl ∈ p.lists cli ↔ p.Owns cli fl := Finset.mem_Ico

theorem WF.lists_lt (h : p.WF) {cli : ℕ} (hcli : cli < p.numClients) :
    ∀ fl ∈ p.lists cli, fl < p.totalFl := fun _ hfl => (mem_lists.mp hfl).lt_totalFl h hcli

/-- Every list is one of a single client. -/
theorem Owns.mem_lists_iff {cli cli' fl : ℕ} (h : p.Owns cli fl) :
    fl ∈ p.lists cli' ↔ cli = cli' :=
  ⟨fun hmem => h.unique (mem_lists.mp hmem), fun he => he ▸ mem_lists.mpr h⟩

/-- The client on whose lists an address is. -/
def lister (p : PerCPUPool) (a : Value) : Option ℕ :=
  ((List.range p.totalFl).find? fun fl => a ∈ (p.freelist fl).addrs).map (· / p.perCliFl)

theorem count_eq_zero {a : Value} :
    p.count a = 0 ↔ ∀ fl < p.totalFl, a ∉ (p.freelist fl).addrs := by
  unfold count
  rw [Finset.sum_eq_zero_iff]
  simp only [Finset.mem_range, List.count_eq_zero]

theorem count_ne_zero {a : Value} {fl : ℕ} (hfl : fl < p.totalFl)
    (ha : a ∈ (p.freelist fl).addrs) : p.count a ≠ 0 := fun h => count_eq_zero.mp h fl hfl ha

theorem one_list {a : Value} (hcount : p.count a ≤ 1) {i j : ℕ} (hi : i < p.totalFl)
    (hj : j < p.totalFl) (hai : a ∈ (p.freelist i).addrs) (haj : a ∈ (p.freelist j).addrs) :
    i = j := by
  by_contra hne
  have htwo := Finset.add_le_sum (f := fun i => (p.freelist i).addrs.count a)
    (fun _ _ => Nat.zero_le _) (Finset.mem_range.mpr hi) (Finset.mem_range.mpr hj) hne
  have hposi := List.count_pos_iff.mpr hai
  have hposj := List.count_pos_iff.mpr haj
  change _ ≤ p.count a at htwo
  omega

theorem WF.lister_cases (h : p.WF) (a : Value) :
    (p.count a = 0 ∧ p.lister a = none) ∨
      ∃ cli fl, p.Owns cli fl ∧ fl < p.totalFl ∧ a ∈ (p.freelist fl).addrs ∧
        p.lister a = some cli := by
  unfold lister
  cases hfind : (List.range p.totalFl).find? fun fl => a ∈ (p.freelist fl).addrs with
  | none =>
      refine Or.inl ⟨count_eq_zero.mpr fun fl hfl ha => ?_, rfl⟩
      exact List.find?_eq_none.mp hfind fl (List.mem_range.mpr hfl) (decide_eq_true ha)
  | some fl =>
      have hmem := List.find?_some hfind
      have hrange := List.mem_of_find?_eq_some hfind
      exact Or.inr ⟨_, fl, h.owns_div fl, List.mem_range.mp hrange, of_decide_eq_true hmem, rfl⟩

theorem clientSum_eq (counter : ℕ → BitVec 64) (cli : ℕ) :
    p.clientSum counter cli = ∑ fl ∈ p.lists cli, counter fl := by
  have hfold : ∀ n, (List.range n).foldl (fun sum j => sum + counter (cli * p.perCliFl + j)) 0 =
      ∑ j ∈ Finset.range n, counter (cli * p.perCliFl + j) := by
    intro n
    induction n with
    | zero => rfl
    | succ n ih =>
        rw [List.range_succ, List.foldl_append, ih, Finset.sum_range_succ]
        rfl
  rw [clientSum, hfold, lists, Finset.sum_Ico_eq_sum_range, Nat.add_sub_cancel_left]

theorem sum_ofNat (S : Finset ℕ) (f : ℕ → ℕ) :
    ∑ fl ∈ S, BitVec.ofNat 64 (f fl) = BitVec.ofNat 64 (∑ fl ∈ S, f fl) := by
  induction S using Finset.induction_on with
  | empty => rfl
  | insert i S hi ih => rw [Finset.sum_insert hi, Finset.sum_insert hi, ih, BitVec.ofNat_add]

/-- What a client uses and what its lists hold make up what it was given. -/
theorem Books.client (h : p.Books) {cli : ℕ} (hlt : ∀ fl ∈ p.lists cli, fl < p.totalFl) :
    p.getClientUsed cli +
        BitVec.ofNat 64 (SLOT_SIZE * ∑ fl ∈ p.lists cli, (p.freelist fl).addrs.length) =
      BitVec.ofNat 64 (∑ fl ∈ p.lists cli, (p.allocs fl).toNat) := by
  rw [getClientUsed, clientSum_eq, Finset.mul_sum, ← sum_ofNat, ← sum_ofNat,
    ← Finset.sum_add_distrib]
  refine Finset.sum_congr rfl fun fl hfl => ?_
  have hbooks := h fl (hlt fl hfl)
  unfold getFree getUsed at hbooks
  rw [← hbooks, add_sub_cancel, BitVec.ofNat_toNat, BitVec.setWidth_eq]

theorem getClientAlloc_eq (cli : ℕ) :
    p.getClientAlloc cli = BitVec.ofNat 64 (∑ fl ∈ p.lists cli, (p.allocs fl).toNat) := by
  rw [getClientAlloc, clientSum_eq, ← sum_ofNat]
  refine Finset.sum_congr rfl fun fl _ => ?_
  rw [BitVec.ofNat_toNat, BitVec.setWidth_eq]

end PerCPUPool

namespace KV

variable {hash : HashFuncs} {kv kv' : KV} {home : Value → ℕ}

/-- Addresses on the lists of a client and pages stored under its keys are at
home there. -/
structure Homed (hash : HashFuncs) (home : Value → ℕ) (kv : KV) : Prop where
  listed : ∀ c fl a, kv.pool.Owns c fl → a ∈ (kv.pool.freelist fl).addrs → home a = c
  stored : ∀ key a, kv.table.view (hash 0) key = some a → home a = longkeyToCid key
  books : kv.pool.Books

/-! ## One operation -/

theorem Homed.take (h : kv.Homed hash home) {c fl : ℕ} (howns : kv.pool.Owns c fl) {a : Value}
    {f : FreeList} (hget : (kv.pool.freelist fl).getFreeAddr = some (a, f)) :
    Homed hash home { kv with pool := kv.pool.take fl f } ∧ home a = c := by
  have haddrs := (FreeList.getFreeAddr_some hget).1
  refine ⟨⟨fun c' i x hc' hx => ?_, h.stored, h.books.take hget⟩, ?_⟩
  · by_cases hi : i = fl
    · subst hi
      simp only [PerCPUPool.take, Function.update_self] at hx
      refine h.listed c' i x hc' ?_
      rw [haddrs]
      exact List.mem_cons_of_mem a hx
    · simp only [PerCPUPool.take, Function.update_of_ne hi] at hx
      exact h.listed c' i x hc' hx
  · refine h.listed c fl a howns ?_
    rw [haddrs]
    exact List.mem_cons_self

theorem Homed.give (h : kv.Homed hash home) (hroom : kv.pool.Room) {c fl : ℕ}
    (howns : kv.pool.Owns c fl) (hfl : fl < kv.pool.totalFl) {a : Value} (ha : home a = c) :
    Homed hash home { kv with pool := kv.pool.give fl a } := by
  refine ⟨fun c' i x hc' hx => ?_, h.stored, h.books.give (hroom fl hfl) a⟩
  by_cases hi : i = fl
  · subst hi
    simp only [PerCPUPool.give, Function.update_self] at hx
    rcases FreeList.mem_putFreeAddr hx with rfl | hx
    · exact ha.trans (howns.unique hc')
    · exact h.listed c' i x hc' hx
  · simp only [PerCPUPool.give, Function.update_of_ne hi] at hx
    exact h.listed c' i x hc' hx

/-- The pool is left alone, or a page is given to lists of its home. -/
def GivesHome (home : Value → ℕ) (kv kv' : KV) : Prop :=
  kv'.pool = kv.pool ∨ ∃ a fl, kv.pool.Owns (home a) fl ∧ fl < kv.pool.totalFl ∧
    kv'.pool = kv.pool.give fl a

theorem GivesHome.free (h : kv.pool.WF) {a : Value} {cid : ℕ} (ha : home a = cid)
    (hcid : cid < kv.pool.numClients) (rand : ℕ)
    (hpool : kv'.pool = (kv.free a cid rand).pool) : GivesHome home kv kv' := by
  have howns := PerCPUPool.owns_mod h cid rand
  exact Or.inr ⟨a, _, ha ▸ howns, howns.lt_totalFl h hcid, hpool⟩

/-- What an operation does to the homes follows from what it does to the pool
and to the map. -/
theorem Homed.of_gives (h : kv.Homed hash home) (hroom : kv.pool.Room)
    (hgives : GivesHome home kv kv')
    (hview : ∀ key a, kv'.table.view (hash 0) key = some a → home a = longkeyToCid key) :
    kv'.Homed hash home ∧ kv'.pool.allocs = kv.pool.allocs := by
  rcases hgives with heq | ⟨a, fl, howns, hfl, heq⟩
  · refine ⟨⟨fun c i x hc hx => ?_, hview, ?_⟩, by rw [heq]⟩
    · rw [heq] at hc hx
      exact h.listed c i x hc hx
    · rw [heq]
      exact h.books
  · have hgive := h.give hroom howns hfl rfl
    refine ⟨⟨fun c i x hc hx => ?_, hview, ?_⟩, by rw [heq]; rfl⟩
    · rw [heq] at hc hx
      exact hgive.listed c i x hc hx
    · rw [heq]
      exact hgive.books

theorem Homed.bucket (h : kv.Homed hash home) (hinv : Inv hash kv) {slot : ℕ}
    (hs : slot < kv.table.capacity) (hu : Usable (kv.table.buckets slot).key) :
    home (kv.table.buckets slot).value = longkeyToCid (kv.table.buckets slot).key :=
  h.stored _ _ (hinv.table.view_of_bucket hs hu)

theorem Homed.insert (h : kv.Homed hash home) (hinv : Inv hash kv) (hroom : kv.pool.Room)
    {key : Key} (hkey : Usable key) {value : Value} (hvalue : value ≠ NONE)
    (hcid : longkeyToCid key < kv.pool.numClients) (hhome : home value = longkeyToCid key)
    {draws : List InsertDraw}
    (hr : kv.insert hash key value (longkeyToCid key) draws = .ok kv') :
    kv'.Homed hash home ∧ kv'.pool.allocs = kv.pool.allocs := by
  have hview := insert_insertView hr hinv.table hkey hvalue
  obtain ⟨r, hretry, rfl⟩ := insert_ok hr
  refine h.of_gives hroom ?_ fun k a ha => ?_
  · have hpool : (if r.2 = 0 then r.1.cbfInsert hash (longkeyToCid key) key else r.1).pool =
        r.1.pool := by
      split
      · rfl
      · rfl
    unfold GivesHome
    rw [hpool]
    change GivesHome home kv r.1
    rcases insertRetry_ok hinv.table hkey hvalue hretry with
      ⟨-, d, hatt⟩ | ⟨slot, hs, rfl, rand, d, hatt⟩
    · cases hatt with
      | added _ _ _ => exact Or.inl rfl
      | @replaced i hi hfull _ =>
          have hlt : kv.table.window (hash 0) key i < kv.table.capacity :=
            LinearProbingApprox.window_lt (by omega) key i
          exact .free hinv.pool (h.bucket hinv hlt (hfull i hi)) (hinv.owners _ hlt (hfull i hi))
            d.rand rfl
      | refused _ => exact .free hinv.pool hhome hcid d.rand rfl
      | dropped _ _ => exact Or.inl rfl
    · obtain ⟨i, -, -, -, rfl⟩ := hatt.of_supersede hinv.table hs hkey
      exact .free hinv.pool (h.bucket hinv hs hkey) hcid rand rfl
  · rcases hview.cases_some ha with ⟨rfl, rfl⟩ | ⟨-, hold⟩
    · exact hhome
    · exact h.stored k a hold

theorem Homed.removeFree (h : kv.Homed hash home) (hinv : Inv hash kv) {stock : Finset Value}
    (hstock : kv.Stocked stock) {key : Key} (hkey : Usable key)
    (hcid : longkeyToCid key < kv.pool.numClients) (rand : ℕ) :
    (kv.removeFree hash key (longkeyToCid key) rand).Homed hash home ∧
      (kv.removeFree hash key (longkeyToCid key) rand).pool.allocs = kv.pool.allocs := by
  have hview : ∀ k a, (kv.removeFree hash key (longkeyToCid key) rand).table.view (hash 0) k =
      some a → home a = longkeyToCid k := by
    intro k a ha
    rw [removeFree_table, remove_view hinv.table hkey] at ha
    exact h.stored k a (update_none_some ha)
  rcases remove_cases hinv.table hkey (longkeyToCid key) with ⟨slot, hs, rfl, -, hr⟩ | ⟨-, hr⟩
  · have hroom := (hstock.of_stores hinv (P := fun _ => True) ⟨slot, hs, hkey, rfl, trivial⟩).2
    refine h.of_gives hroom ?_ hview
    refine .free hinv.pool (h.bucket hinv hs hkey) hcid rand ?_
    rw [KV.removeFree, hr, if_pos (hinv.table.nonNull slot hs hkey)]
    rfl
  · have heq : kv.removeFree hash key (longkeyToCid key) rand = kv := by
      rw [KV.removeFree, hr, if_neg (not_not.mpr rfl)]
    rw [heq]
    exact ⟨h, rfl⟩

theorem Homed.evict (h : kv.Homed hash home) (hinv : Inv hash kv) {stock : Finset Value}
    (hstock : kv.Stocked stock) {draws : List EvictDraw} {rand : ℕ}
    (hr : kv.evict hash draws rand = .ok kv') :
    kv'.Homed hash home ∧ kv'.pool.allocs = kv.pool.allocs := by
  obtain ⟨k, hview⟩ := evict_view hr hinv.table
  obtain ⟨slot, ⟨hs, hu, -⟩, rfl⟩ := evict_ok hr
  have hroom := (hstock.of_stores hinv (P := fun _ => True) ⟨slot, hs, hu, rfl, trivial⟩).2
  refine h.of_gives hroom
    (.free hinv.pool (h.bucket hinv hs hu) (hinv.owners slot hs hu) rand rfl) fun k' a ha => ?_
  rw [hview] at ha
  exact h.stored k' a (update_none_some ha)

theorem Homed.allocate (h : kv.Homed hash home) (hinv : Inv hash kv) {cid : ℕ} {qid : Option ℕ}
    (hqid : ∀ q, qid = some q → q < kv.pool.perCliFl) {rand : ℕ} {a : Value}
    (ha : kv.allocate cid qid rand = some (a, kv')) :
    kv'.Homed hash home ∧ kv'.pool.allocs = kv.pool.allocs ∧ home a = cid := by
  obtain ⟨⟨a', pool⟩, hpool, heq⟩ := Option.map_eq_some_iff.mp ha
  cases heq
  obtain ⟨fl, f, howns, hget, rfl⟩ := PerCPUPool.allocate_some hinv.pool hqid hpool
  obtain ⟨htake, hhome⟩ := h.take howns hget
  exact ⟨htake, rfl, hhome⟩

/-- Lookups store timestamps and flags. -/
theorem Homed.getWithFlag (h : kv.Homed hash home) (hinv : Inv hash kv) {key : Key}
    (hkey : Usable key) (busy : Bool) (now : BitVec 32) :
    (kv.getWithFlag hash key busy now).1.Homed hash home := by
  refine ⟨h.listed, fun k a ha => h.stored k a ?_, h.books⟩
  rwa [← (hinv.table.getWithFlag hkey busy now).2.1]

end KV

namespace Server

variable {Page : Type} {hash : HashFuncs} {exclusivePolicy : Bool} {s s' s'' : Server Page}
variable {home : Value → ℕ} {stock : Finset Value}

/-- A page in a receive is at home with the client that the queue belongs to. -/
structure Homed (hash : HashFuncs) (home : Value → ℕ) (s : Server Page) : Prop where
  kv : s.kv.Homed hash home
  posted : ∀ cid, ∀ qid < numQps, ∀ a ∈ s.recvs (cid, qid), a ≠ NONE → a ≠ FAILED → home a = cid

/-- `s'` has the homes of `s`, and no memory has changed hands. -/
structure Carries (hash : HashFuncs) (home : Value → ℕ) (s s' : Server Page) : Prop where
  homed : s'.Homed hash home
  allocs : s'.kv.pool.allocs = s.kv.pool.allocs

theorem Homed.carries (h : s.Homed hash home) : Carries hash home s s := ⟨h, rfl⟩

theorem Carries.trans (h : Carries hash home s s') (h' : Carries hash home s' s'') :
    Carries hash home s s'' := ⟨h'.homed, h'.allocs.trans h.allocs⟩

theorem Homed.of_kv (h : s.Homed hash home) {kv : KV}
    (hkv : kv.Homed hash home ∧ kv.pool.allocs = s.kv.pool.allocs) :
    Carries hash home s { s with kv } := ⟨⟨hkv.1, h.posted⟩, hkv.2⟩

theorem Homed.of_eq (h : s.Homed hash home) (hkv : s'.kv = s.kv) (hrecvs : s'.recvs = s.recvs) :
    Carries hash home s s' := by
  refine ⟨⟨?_, fun cid qid hq a ha => h.posted cid qid hq a ?_⟩, by rw [hkv]⟩
  · rw [hkv]
    exact h.kv
  · rwa [← hrecvs]

/-! ## Receives -/

theorem Homed.postRecv (h : s.Homed hash home) {cid : ℕ} (qid : ℕ) {addr : Value}
    (haddr : addr ≠ NONE → addr ≠ FAILED → home addr = cid) :
    Carries hash home s (s.postRecv cid qid addr) := by
  refine ⟨⟨h.kv, fun c q hlt a ha hnull hfailed => ?_⟩, rfl⟩
  by_cases hq : (c, q) = (cid, qid)
  · cases hq
    simp only [Server.postRecv, Function.update_self, List.mem_append, List.mem_singleton] at ha
    rcases ha with ha | rfl
    · exact h.posted cid qid hlt a ha hnull hfailed
    · exact haddr hnull hfailed
  · simp only [Server.postRecv, Function.update_of_ne hq] at ha
    exact h.posted c q hlt a ha hnull hfailed

theorem Homed.postNone (h : s.Homed hash home) (cid qid : ℕ) :
    Carries hash home s (s.postRecv cid qid NONE) :=
  h.postRecv qid fun hne _ => absurd rfl hne

theorem Homed.popRecv (h : s.Homed hash home) (cid qid : ℕ) :
    Carries hash home s (s.popRecv cid qid) := by
  refine ⟨⟨h.kv, fun c q hlt a ha => h.posted c q hlt a ?_⟩, rfl⟩
  by_cases hq : (c, q) = (cid, qid)
  · cases hq
    simp only [Server.popRecv, Function.update_self] at ha
    exact List.mem_of_mem_tail ha
  · simpa only [Server.popRecv, Function.update_of_ne hq] using ha

theorem Homed.prePostRecv (h : s.Homed hash home) (hinv : s.Inv hash) (cid qid : ℕ) :
    Carries hash home s (s.prePostRecv cid qid) := by
  unfold Server.prePostRecv
  split
  next hdata =>
    split
    next value kv halloc =>
      have hlt : ∀ q, some qid = some q → q < s.kv.pool.perCliFl := by
        rintro q ⟨⟩
        rw [hinv.perCliFl]
        exact hdata
      obtain ⟨hkv, hallocs, hhome⟩ := h.kv.allocate hinv.kv hlt halloc
      have htaken := h.of_kv ⟨hkv, hallocs⟩
      exact htaken.trans (htaken.homed.postRecv qid fun _ _ => hhome)
    next => exact h.postRecv qid fun _ hne => absurd rfl hne
  next => exact h.postNone cid qid

theorem Homed.iterate_prePostRecv (h : s.Homed hash home) (hinv : s.Inv hash) {cid qid : ℕ}
    (hcid : cid < s.kv.pool.numClients) (hqid : qid < numQps) (n : ℕ) :
    Follows hash s ((fun s => Server.prePostRecv s cid qid)^[n] s) (fun _ => 0) ∧
      Carries hash home s ((fun s => Server.prePostRecv s cid qid)^[n] s) := by
  induction n with
  | zero => exact ⟨Follows.refl hinv, h.carries⟩
  | succ n ih =>
      rw [Function.iterate_succ_apply']
      obtain ⟨hf, hc⟩ := ih
      have hcid' : cid < ((fun s => Server.prePostRecv s cid qid)^[n] s).kv.pool.numClients := by
        rw [hf.numClients]
        exact hcid
      exact ⟨hf.trans (hf.inv.prePostRecv hcid' hqid),
        hc.trans (hc.homed.prePostRecv hf.inv cid qid)⟩

/-! ## The handlers -/

/-- The received page is stored or freed under a key of its home. -/
theorem Homed.processPut (h : s.Homed hash home) (hstock : s.Stocked hash stock)
    {cid qid mid : ℕ} (hcid : cid < s.kv.pool.numClients) {recvAddr : Value}
    (hpage : recvAddr ∈ stock) (hfresh : s.places recvAddr = 0) (hhome : home recvAddr = cid)
    (hkey : Usable (s.mem recvAddr).key) (howner : longkeyToCid (s.mem recvAddr).key = cid)
    {d : Draw} {r : Option (Reply Page)}
    (hr : s.processPut hash cid qid mid recvAddr d = .ok (s', r)) :
    Carries hash home s s' := by
  rcases processPut_ok hr with ⟨-, rfl⟩ | ⟨value, kv, kv', halloc, hins, rfl⟩
  · exact h.postRecv qid fun _ _ => hhome
  · subst howner
    have hnone : ∀ q, (none : Option ℕ) = some q → q < s.kv.pool.perCliFl := by rintro q ⟨⟩
    obtain ⟨hinv, -, -, hcli, -, hplaces⟩ := hstock.inv.kv.allocate hcid hnone halloc
    obtain ⟨hkv, -⟩ := hstock.kv.allocate hstock.inv.kv hcid hnone halloc
    obtain ⟨hhomed, hallocs, hvalue⟩ := h.kv.allocate hstock.inv.kv hnone halloc
    have hfree : kv.pool.count recvAddr = 0 := by
      have := hplaces recvAddr
      unfold Server.places at hfresh
      unfold KV.places at *
      omega
    have hcid' : longkeyToCid (s.mem recvAddr).key < kv.pool.numClients := by
      rw [hcli]
      exact hcid
    obtain ⟨hafter, hsame⟩ := hhomed.insert hinv (hkv.room hpage hfree) hkey
      (hstock.ne hpage).1 hcid' hhome hins
    have hposted : Carries hash home s (s.postRecv (longkeyToCid (s.mem recvAddr).key) qid value) :=
      h.postRecv qid fun _ _ => hvalue
    exact ⟨⟨hafter, hposted.homed.posted⟩, hsame.trans hallocs⟩

theorem Homed.processRecv (h : s.Homed hash home) (hstock : s.Stocked hash stock) {cid qid : ℕ}
    (hcid : cid < s.kv.pool.numClients) {wrId : Value}
    (hslot : wrId ≠ NONE → wrId ∈ stock ∧ s.places wrId = 0 ∧ home wrId = cid ∧
      Usable (s.mem wrId).key ∧ longkeyToCid (s.mem wrId).key = cid)
    {imm : BitVec 32} {d : Draw} {r : Option (Reply Page)}
    (hr : s.processRecv hash cid qid wrId imm d = .ok (s', r)) : Carries hash home s s' := by
  unfold Server.processRecv at hr
  split at hr
  · cases hr
    -- the filter's request touches neither pool nor table
    have hcbf : Carries hash home s { s with kv := { s.kv with
        cbfs := Function.update s.kv.cbfs cid (s.kv.cbfs cid).toOrdinaryBF } } :=
      h.of_kv ⟨⟨h.kv.listed, h.kv.stored, h.kv.books⟩, rfl⟩
    exact hcbf.trans (hcbf.homed.postNone cid qid)
  · split at hr
    next =>
      cases hr
      exact h.carries
    next hne =>
      obtain ⟨hpage, hfresh, hhome, hkey, howner⟩ := hslot hne
      exact h.processPut hstock hcid hpage hfresh hhome hkey howner hr

theorem Homed.removeFree (h : s.Homed hash home) (hstock : s.Stocked hash stock) {cid : ℕ}
    (hcid : cid < s.kv.pool.numClients) {key : Key} (hkey : Usable key)
    (howner : longkeyToCid key = cid) (rand : ℕ) :
    Carries hash home s { s with kv := s.kv.removeFree hash key cid rand } := by
  subst howner
  exact h.of_kv (h.kv.removeFree hstock.inv.kv hstock.kv hkey hcid rand)

theorem Homed.processGet (h : s.Homed hash home) (hstock : s.Stocked hash stock) {cid qid : ℕ}
    (hcid : cid < s.kv.pool.numClients) (hkey : Usable (s.metaRegion cid (readKeyOffset qid)))
    (howner : longkeyToCid (s.metaRegion cid (readKeyOffset qid)) = cid) (mid : ℕ) (d : Draw) :
    Carries hash home s (s.processGet hash exclusivePolicy cid qid mid d).1 := by
  cases exclusivePolicy with
  | true =>
      rw [processGet_exclusive]
      exact h.removeFree hstock hcid hkey howner d.rand
  | false =>
      have hflag := hstock.inv.kv.getWithFlag (s.metaRegion cid (readKeyOffset qid)) true d.now
      have hflagged := h.kv.getWithFlag hstock.inv.kv hkey true d.now
      rw [processGet_inclusive]
      split
      · exact h.of_kv ⟨hflagged.getWithFlag hflag.inv hkey false d.nowEnd, rfl⟩
      · exact h.of_kv ⟨hflagged, rfl⟩

theorem Homed.processImm (h : s.Homed hash home) (hstock : s.Stocked hash stock) {cid qid : ℕ}
    (hcid : cid < s.kv.pool.numClients) (hqid : qid < numQps) {imm : BitVec 32}
    (hreq : ∀ key ∈ s.requestKey cid qid imm, Usable key ∧ longkeyToCid key = cid) {d : Draw}
    {r : Option (Reply Page)} (hr : s.processImm hash exclusivePolicy cid qid imm d = (s', r)) :
    Carries hash home s s' := by
  have hpost := h.postNone cid qid
  have hposted := hstock.of_retains (hstock.inv.postRecv_none hcid hqid (Or.inl rfl))
    (retains_postRecv_same hcid hqid NONE)
  rcases processImm_cases hash exclusivePolicy s cid qid imm d with
    ⟨hkey, mid, heq⟩ | ⟨mid, hkey, heq⟩ | ⟨-, heq⟩
  · obtain ⟨husable, howner⟩ := hreq _ hkey
    cases heq.symm.trans hr
    exact hpost.trans (hpost.homed.processGet hposted hcid husable howner mid d)
  · obtain ⟨husable, howner⟩ := hreq _ hkey
    have hfst := congrArg Prod.fst (heq.symm.trans hr)
    rw [processInvalidatePage_fst] at hfst
    subst hfst
    exact hpost.trans (hpost.homed.removeFree hposted hcid husable howner d.rand)
  · cases heq.symm.trans hr
    exact h.carries

/-! ## One step -/

/-- Only borrowing moves memory and homes. -/
theorem Homed.step (h : s.Homed hash home) (hstock : s.Stocked hash stock) {a : ServerStep Page}
    (hwf : s.WellFormed a) (hown : ∀ fl, a ≠ .allocateFromPeer fl) {r : Option (Reply Page)}
    (hstep : s.step hash exclusivePolicy a = some (s', r)) : Carries hash home s s' := by
  cases a with
  | prePostRecvs cid qid =>
      simp only [Server.step, Option.some.injEq, Prod.mk.injEq] at hstep
      rw [← hstep.1]
      exact (h.iterate_prePostRecv hstock.inv hwf.1 hwf.2 maxQpsRecvs).2
  | recvMr cid =>
      simp only [Server.step, Option.some.injEq, Prod.mk.injEq] at hstep
      rw [← hstep.1]
      exact h.postNone cid 0
  | send cid qid msg imm d =>
      obtain ⟨hcid, hqid, hmsg⟩ := hwf
      obtain ⟨addr, t, hhead, hdeliver, hrecv⟩ := step_send hstep
      obtain ⟨hkv, hrecvs, haddr⟩ := deliver_some hdeliver
      obtain ⟨hpopped, hpage⟩ := hstock.popRecv hcid hqid hhead
      have hmid : Carries hash home s t :=
        (h.popRecv cid qid).trans ((h.popRecv cid qid).homed.of_eq hkv hrecvs)
      have hstocked : t.Stocked hash stock :=
        hpopped.of_retains (.of_eq hpopped.inv hkv hrecvs) (.of_eq hkv hrecvs)
      have hplaces : t.places addr = (s.popRecv cid qid).places addr := by
        unfold Server.places Server.posted
        rw [hkv, hrecvs]
      have hslot : addr ≠ NONE → addr ∈ stock ∧ t.places addr = 0 ∧ home addr = cid ∧
          Usable (t.mem addr).key ∧ longkeyToCid (t.mem addr).key = cid := by
        intro hne
        rcases haddr with ⟨hnull, -⟩ | ⟨-, hfailed, b, rfl, hmem⟩
        · exact absurd hnull hne
        · obtain ⟨hin, hzero⟩ := hpage hne hfailed
          have hhome := h.posted cid qid hqid addr (List.mem_of_mem_head? hhead) hne hfailed
          rw [hmem, Function.update_self, hplaces]
          exact ⟨hin, hzero, hhome, hmsg.2⟩
      have hcid' : cid < t.kv.pool.numClients := by
        rw [hkv]
        exact hcid
      exact hmid.trans (hmid.homed.processRecv hstocked hcid' hslot hrecv)
  | writeImm cid qid off words imm d =>
      obtain ⟨hcid, hqid, hreq⟩ := hwf
      obtain ⟨addr, hhead, himm⟩ := step_writeImm hstep
      obtain ⟨hpopped, -⟩ := hstock.popRecv hcid hqid hhead
      have hmid : Carries hash home s ((s.popRecv cid qid).remoteWrite cid off words) :=
        (h.popRecv cid qid).trans ((h.popRecv cid qid).homed.of_eq rfl rfl)
      have hsame : Follows hash (s.popRecv cid qid)
          ((s.popRecv cid qid).remoteWrite cid off words) fun _ => 0 := .of_eq hpopped.inv rfl rfl
      have hstocked := hpopped.of_retains hsame (.of_eq rfl rfl)
      exact hmid.trans (hmid.homed.processImm hstocked hcid hqid hreq himm)
  | evict draws rand =>
      obtain ⟨kv, hev, rfl, -⟩ := step_evict hstep
      exact h.of_kv (h.kv.evict hstock.inv.kv hstock.kv hev)
  | allocateFromPeer fl => exact absurd rfl (hown fl)

/-- The page that a client borrows is at home there from now on, the other
pages stay where they are. -/
theorem Homed.borrow (h : s.Homed hash home) (hstock : s.Stocked hash stock) {cli fl : ℕ}
    (hcli : cli < s.kv.pool.numClients) (howns : s.kv.pool.Owns cli fl) {peer peerFl : ℕ}
    (hpeer : peer < s.kv.pool.numClients) (hne : peer ≠ cli) (hlends : s.kv.pool.Owns peer peerFl)
    {a : Value} {f : FreeList} (hget : (s.kv.pool.freelist peerFl).getFreeAddr = some (a, f)) :
    Homed hash (Function.update home a cli)
      { s with kv := { s.kv with pool := s.kv.pool.borrow fl peerFl a f } } := by
  have hpool := hstock.inv.kv.pool
  have hfl := howns.lt_totalFl hpool hcli
  have hpeerFl := hlends.lt_totalFl hpool hpeer
  have hother : fl ≠ peerFl := by
    rintro rfl
    exact hne (hlends.unique howns)
  obtain ⟨ha, hroom⟩ := hstock.kv.lent_room hpeerFl hget
  obtain ⟨htaken, hhome⟩ := h.kv.take hlends hget
  have htake := PerCPUPool.count_take hpeerFl hget a
  rw [if_pos rfl] at htake
  -- the page was on the peer's list, so it is nowhere else
  have honce := hstock.once a (hstock.ne ha).1 (hstock.ne ha).2
  have hplaces : s.places a = s.kv.places a + s.posted a := rfl
  have hpages : s.kv.pool.count a ≤ s.kv.places a := Nat.le_add_right _ _
  have hgone : (s.kv.pool.take peerFl f).count a = 0 := by omega
  have hlisted : ∀ c i x, s.kv.pool.Owns c i →
      x ∈ ((s.kv.pool.take peerFl f).freelist i).addrs → Function.update home a cli x = c := by
    intro c i x hc hx
    have hxa : x ≠ a := by
      rintro rfl
      obtain rfl : c = peer := (htaken.listed c i x hc hx).symm.trans hhome
      have hpos := List.count_pos_iff.mpr hx
      have hle := Finset.single_le_sum
        (f := fun i => ((s.kv.pool.take peerFl f).freelist i).addrs.count x)
        (fun _ _ => Nat.zero_le _) (Finset.mem_range.mpr (hc.lt_totalFl hpool hpeer))
      change _ ≤ (s.kv.pool.take peerFl f).count x at hle
      omega
    rw [Function.update_of_ne hxa]
    exact htaken.listed c i x hc hx
  refine ⟨⟨fun c i x hc hx => ?_, fun key x hx => ?_, ?_⟩, fun c q hq x hx hnull hfailed => ?_⟩
  · change x ∈ (((s.kv.pool.take peerFl f).give fl a).freelist i).addrs at hx
    by_cases hi : i = fl
    · subst hi
      simp only [PerCPUPool.give, Function.update_self] at hx
      rcases FreeList.mem_putFreeAddr hx with rfl | hx
      · rw [Function.update_self]
        exact howns.unique hc
      · exact hlisted c i x hc hx
    · simp only [PerCPUPool.give, Function.update_of_ne hi] at hx
      exact hlisted c i x hc hx
  · have hxa : x ≠ a := by
      rintro rfl
      obtain ⟨slot, hs, hu, -, hval⟩ := hstock.inv.kv.table.view_eq_some_iff.mp hx
      have hstored : s.kv.Stores (fun _ => True) x := ⟨slot, hs, hu, hval, trivial⟩
      have htwice := hstored.one_le_places hstock.inv.kv
      omega
    rw [Function.update_of_ne hxa]
    exact h.kv.stored key x hx
  · have hcur : (s.kv.pool.freelist fl).addrs.length < (s.kv.pool.freelist fl).maxChunks := by
      have htakeRoom := hroom fl hfl
      simpa only [PerCPUPool.take, Function.update_of_ne hother] using htakeRoom
    exact h.kv.books.borrow hother hget hcur
  · have hxa : x ≠ a := by
      rintro rfl
      obtain rfl : c = peer := (h.posted c q hq x hx hnull hfailed).symm.trans hhome
      have hpos := posted_pos.mpr ⟨c, hpeer, q, hq, hx⟩
      omega
    rw [Function.update_of_ne hxa]
    exact h.posted c q hq x hx hnull hfailed

/-! ## The accounts -/

/-- What the accounts of the clients rest on. -/
structure Charged (hash : HashFuncs) (stock : Finset Value) (home : Value → ℕ)
    (s : Server Page) : Prop where
  stocked : s.Stocked hash stock
  homed : s.Homed hash home
  -- a client has the memory of the pages at home with it
  shares : ∀ cli < s.kv.pool.numClients, ∑ fl ∈ s.kv.pool.lists cli, (s.kv.pool.allocs fl).toNat =
    SLOT_SIZE * (stock.filter fun a => home a = cli).card
  fits : s.kv.pool.allocated < 2 ^ 64

/-- A page is charged to the client on whose lists it was last. -/
def chargedTo (home : Value → ℕ) (s : Server Page) : Value → ℕ :=
  fun a => (s.kv.pool.lister a).getD (home a)

theorem Homed.chargedTo_eq {home' : Value → ℕ} (h : s.Homed hash home') (hpool : s.kv.pool.WF)
    (hsame : ∀ a, s.kv.pool.count a = 0 → home' a = home a) : chargedTo home s = home' := by
  ext a
  unfold chargedTo
  rcases hpool.lister_cases a with ⟨hcount, hlister⟩ | ⟨cli, fl, howns, -, ha, hlister⟩
  · rw [hlister]
    exact (hsame a hcount).symm
  · rw [hlister]
    exact (h.kv.listed cli fl a howns ha).symm

theorem card_home_update {a : Value} (ha : a ∈ stock) (home : Value → ℕ) (cli c : ℕ) :
    (stock.filter fun x => Function.update home a cli x = c).card +
        (if home a = c then 1 else 0) =
      (stock.filter fun x => home x = c).card + if cli = c then 1 else 0 := by
  rw [Finset.card_filter, Finset.card_filter]
  exact Lib.sum_update ha (fun c' => if c' = c then 1 else 0) home cli

/-- A borrowed page takes its memory along. -/
theorem Charged.allocateFromPeer (h : s.Charged hash stock home) {fl : ℕ}
    (hfl : fl < s.kv.pool.totalFl) {a : Value} {pool : PerCPUPool}
    (halloc : s.kv.pool.allocateFromPeer fl = some (a, pool)) :
    ∃ home', (∀ cli < s.kv.pool.numClients, ∑ fl ∈ s.kv.pool.lists cli, (pool.allocs fl).toNat =
        SLOT_SIZE * (stock.filter fun a => home' a = cli).card) ∧
      Homed hash home' { s with kv := { s.kv with pool } } ∧ pool.allocated < 2 ^ 64 ∧
      ∀ p, s.kv.pool.count p = 0 ∨ pool.count p = 0 → home' p = home p := by
  have hpool := h.stocked.inv.kv.pool
  obtain ⟨peer, peerFl, f, hpeer, hne, hlends, hget, hthold, rfl⟩ :=
    PerCPUPool.allocateFromPeer_lends hpool hfl halloc
  have howns := hpool.owns_div fl
  have hcli : fl / s.kv.pool.perCliFl < s.kv.pool.numClients := by
    rw [hpool.totalFl_eq, Nat.mul_comm] at hfl
    exact Nat.div_lt_of_lt_mul hfl
  have hpeerFl := hlends.lt_totalFl hpool hpeer
  have hother : fl ≠ peerFl := by
    rintro rfl
    exact hne (hlends.unique howns)
  have hlend := PerCPUPool.slot_le_of_thold hthold
  obtain ⟨ha, hroom⟩ := h.stocked.kv.lent_room hpeerFl hget
  have hhome : home a = peer := (h.homed.kv.take hlends hget).2
  refine ⟨Function.update home a (fl / s.kv.pool.perCliFl), fun c hc => ?_,
    h.homed.borrow h.stocked hcli howns hpeer hne hlends hget, ?_, fun p hp => ?_⟩
  · have hsum := Finset.sum_congr (rfl : s.kv.pool.lists c = s.kv.pool.lists c) fun i _ =>
      PerCPUPool.borrow_allocs hother hfl hpeerFl hlend h.fits a f i
    rw [Finset.sum_add_distrib, Finset.sum_add_distrib, Finset.sum_ite_eq', Finset.sum_ite_eq',
      h.shares c hc] at hsum
    simp only [howns.mem_lists_iff, hlends.mem_lists_iff] at hsum
    have hcard := card_home_update ha home (fl / s.kv.pool.perCliFl) c
    rw [hhome] at hcard
    have hmul := congrArg (SLOT_SIZE * ·) hcard
    simp only [Nat.mul_add, mul_ite, Nat.mul_one, Nat.mul_zero] at hmul
    omega
  · rw [PerCPUPool.allocated_borrow hother hfl hpeerFl hlend h.fits]
    exact h.fits
  · -- a page that changes its home is on a list before and after
    have hcount := PerCPUPool.count_borrow hfl hpeerFl hget hroom p
    have hzero : s.kv.pool.count p = 0 := by omega
    have hpa : p ≠ a := by
      rintro rfl
      have htake := PerCPUPool.count_take hpeerFl hget p
      rw [if_pos rfl] at htake
      omega
    exact Function.update_of_ne hpa _ _

/-- The homes of all pages change only for a page that is borrowed. -/
theorem Charged.step (h : s.Charged hash stock home) {a : ServerStep Page} (hwf : s.WellFormed a)
    {r : Option (Reply Page)} (hstep : s.step hash exclusivePolicy a = some (s', r)) :
    ∃ home', s'.Charged hash stock home' ∧
      ∀ p, s.kv.pool.count p = 0 ∨ s'.kv.pool.count p = 0 → home' p = home p := by
  have hnext := h.stocked.step hwf hstep
  have hcli : s'.kv.pool.numClients = s.kv.pool.numClients :=
    (h.stocked.inv.step hwf hstep).numClients
  have hper : s'.kv.pool.perCliFl = s.kv.pool.perCliFl :=
    hnext.inv.perCliFl.trans h.stocked.inv.perCliFl.symm
  have hlists : s'.kv.pool.lists = s.kv.pool.lists := by
    ext cli
    unfold PerCPUPool.lists
    rw [hper]
  by_cases hborrow : ∃ fl, a = .allocateFromPeer fl
  · obtain ⟨fl, rfl⟩ := hborrow
    obtain ⟨a, pool, halloc, rfl, -⟩ := step_allocateFromPeer hstep
    obtain ⟨home', hshares, hhomed, hfits, hsame⟩ := h.allocateFromPeer hwf halloc
    refine ⟨home', ⟨hnext, hhomed, fun cli hlt => ?_, hfits⟩, hsame⟩
    rw [hlists]
    exact hshares cli (hcli ▸ hlt)
  · have hcarries := h.homed.step h.stocked hwf (fun fl he => hborrow ⟨fl, he⟩) hstep
    have htotal := h.stocked.inv.totalFl hnext.inv hcli
    refine ⟨home, ⟨hnext, hcarries.homed, fun cli hlt => ?_, ?_⟩, fun _ _ => rfl⟩
    · rw [hlists, hcarries.allocs]
      exact h.shares cli (hcli ▸ hlt)
    · have hfits := h.fits
      unfold PerCPUPool.allocated at hfits ⊢
      rwa [hcarries.allocs, htotal]

/-- The pages on the lists of a client are those at home there that are on a
list. -/
theorem Homed.card_listed (h : s.Homed hash home) (hstock : s.Stocked hash stock) {cli : ℕ}
    (hcli : cli < s.kv.pool.numClients) :
    ∑ fl ∈ s.kv.pool.lists cli, (s.kv.pool.freelist fl).addrs.length =
      (stock.filter fun a => home a = cli ∧ s.kv.pool.count a ≠ 0).card := by
  have hlt := hstock.inv.kv.pool.lists_lt hcli
  have hcount : ∀ a, s.kv.pool.count a ≤ 1 := fun a =>
    (Nat.le_add_right _ _).trans (hstock.kv.once a)
  have hnodup : ∀ fl ∈ s.kv.pool.lists cli, (s.kv.pool.freelist fl).addrs.Nodup := fun fl hfl =>
    List.nodup_iff_count_le_one.mpr fun a =>
      (Lib.count_le_occurrences (Finset.mem_range.mpr (hlt fl hfl))
        (fun fl => (s.kv.pool.freelist fl).addrs) a).trans (hcount a)
  have hdisjoint : (s.kv.pool.lists cli : Set ℕ).PairwiseDisjoint
      fun fl => (s.kv.pool.freelist fl).addrs.toFinset := by
    intro i hi j hj hne
    refine Finset.disjoint_left.mpr fun a hai haj => hne ?_
    exact PerCPUPool.one_list (hcount a) (hlt i hi) (hlt j hj) (List.mem_toFinset.mp hai)
      (List.mem_toFinset.mp haj)
  calc ∑ fl ∈ s.kv.pool.lists cli, (s.kv.pool.freelist fl).addrs.length
      = ∑ fl ∈ s.kv.pool.lists cli, (s.kv.pool.freelist fl).addrs.toFinset.card :=
        Finset.sum_congr rfl fun fl hfl => (List.toFinset_card_of_nodup (hnodup fl hfl)).symm
    _ = ((s.kv.pool.lists cli).biUnion fun fl => (s.kv.pool.freelist fl).addrs.toFinset).card :=
        (Finset.card_biUnion hdisjoint).symm
    _ = _ := by
        congr 1
        ext a
        simp only [Finset.mem_biUnion, List.mem_toFinset, Finset.mem_filter]
        constructor
        · rintro ⟨fl, hfl, ha⟩
          have hne := PerCPUPool.count_ne_zero (hlt fl hfl) ha
          have hstock : a ∈ stock := by
            by_contra hnot
            have hzero := hstock.kv.pages a hnot
            exact hne (Nat.add_eq_zero_iff.mp hzero).1
          exact ⟨hstock, h.kv.listed cli fl a (PerCPUPool.mem_lists.mp hfl) ha, hne⟩
        · rintro ⟨-, hhome, hne⟩
          rcases hstock.inv.kv.pool.lister_cases a with ⟨hzero, -⟩ | ⟨c, fl, howns, -, ha, -⟩
          · exact absurd hzero hne
          · have hc := h.kv.listed c fl a howns ha
            exact ⟨fl, howns.mem_lists_iff.mpr (hc.symm.trans hhome), ha⟩

/-- The pages that were allocated from the lists of a client and not freed
since. -/
def inUse (s : Server Page) (stock : Finset Value) (home : Value → ℕ) (cli : ℕ) : Finset Value :=
  stock.filter fun a => home a = cli ∧ s.kv.pool.count a = 0

/-- What the counters of the clients say, and where the next step gives pages
back. -/
structure ClientBooks (hash : HashFuncs) (exclusivePolicy : Bool) (stock : Finset Value)
    (home : Value → ℕ) (s : Server Page) : Prop where
  used : ∀ cli < s.kv.pool.numClients, (s.kv.pool.getClientUsed cli).toNat =
    SLOT_SIZE * (s.inUse stock home cli).card
  used_le : ∀ cli < s.kv.pool.numClients,
    s.kv.pool.getClientUsed cli ≤ s.kv.pool.getClientAlloc cli
  free : ∀ cli < s.kv.pool.numClients, (s.kv.pool.getClientFree cli).toNat +
    (s.kv.pool.getClientUsed cli).toNat = (s.kv.pool.getClientAlloc cli).toNat
  returned : ∀ a s' r, s.WellFormed a → s.step hash exclusivePolicy a = some (s', r) →
    ∀ p, s.kv.pool.count p = 0 → ∀ fl < s'.kv.pool.totalFl, p ∈ (s'.kv.pool.freelist fl).addrs →
      s'.kv.pool.Owns (home p) fl

theorem Charged.share_lt (h : s.Charged hash stock home) {cli : ℕ}
    (hcli : cli < s.kv.pool.numClients) :
    ∑ fl ∈ s.kv.pool.lists cli, (s.kv.pool.allocs fl).toNat < 2 ^ 64 := by
  have hlt := h.stocked.inv.kv.pool.lists_lt hcli
  refine Nat.lt_of_le_of_lt ?_ h.fits
  exact Finset.sum_le_sum_of_subset fun fl hfl => Finset.mem_range.mpr (hlt fl hfl)

/-- Used, free and allocated memory of a client, without wrap-around. -/
theorem Charged.counters (h : s.Charged hash stock home) {cli : ℕ}
    (hcli : cli < s.kv.pool.numClients) :
    (s.kv.pool.getClientUsed cli).toNat = SLOT_SIZE * (s.inUse stock home cli).card ∧
      (s.kv.pool.getClientUsed cli).toNat ≤ (s.kv.pool.getClientAlloc cli).toNat := by
  have hlt := h.share_lt hcli
  have hshare := h.shares cli hcli
  have hbooks := h.homed.kv.books.client (h.stocked.inv.kv.pool.lists_lt hcli)
  have hsplit : (s.inUse stock home cli).card +
      (stock.filter fun a => home a = cli ∧ s.kv.pool.count a ≠ 0).card =
      (stock.filter fun a => home a = cli).card := by
    rw [inUse, ← Finset.filter_filter, ← Finset.filter_filter]
    exact Finset.card_filter_add_card_filter_not _
  rw [h.homed.card_listed h.stocked hcli] at hbooks
  rw [PerCPUPool.getClientAlloc_eq, BitVec.toNat_ofNat, Nat.mod_eq_of_lt hlt]
  have hused : s.kv.pool.getClientUsed cli =
      BitVec.ofNat 64 (SLOT_SIZE * (s.inUse stock home cli).card) := by
    rw [hshare, ← hsplit, Nat.mul_add, BitVec.ofNat_add] at hbooks
    exact add_right_cancel hbooks
  have hle : SLOT_SIZE * (s.inUse stock home cli).card ≤
      SLOT_SIZE * (stock.filter fun a => home a = cli).card :=
    Nat.mul_le_mul_left _ (by omega)
  have hexact : (s.kv.pool.getClientUsed cli).toNat =
      SLOT_SIZE * (s.inUse stock home cli).card := by
    rw [hused, BitVec.toNat_ofNat]
    exact Nat.mod_eq_of_lt (by omega)
  exact ⟨hexact, by omega⟩

theorem Charged.books (h : s.Charged hash stock home) (exclusivePolicy : Bool) :
    s.ClientBooks hash exclusivePolicy stock home where
  used _ hcli := (h.counters hcli).1
  used_le _ hcli := (h.counters hcli).2
  free cli hcli := by
    have hle := (h.counters hcli).2
    rw [PerCPUPool.getClientFree, BitVec.toNat_sub_of_le hle]
    exact Nat.sub_add_cancel hle
  returned a s' r hwf hstep p hp fl hfl hmem := by
    obtain ⟨home', h', hsame⟩ := h.step hwf hstep
    have howns := h'.stocked.inv.kv.pool.owns_div fl
    rw [← hsame p (Or.inl hp), h'.homed.kv.listed _ fl p howns hmem]
    exact howns

end Server

/-! ## Every run -/

section Run

variable {Page : Type} (hash : HashFuncs) (exclusivePolicy : Bool)

/-- The clients that the pages are charged to after a run. -/
def chargedAfter (s : Server Page) (as : List (ServerStep Page)) : Value → ℕ :=
  (serverSystem hash exclusivePolicy s).track Server.chargedTo
    (Server.chargedTo (fun _ => 0) s) s as

variable {startAddr : Value} {mb numClients numHash numBits : ℕ} {mem : Value → Slot Page}

theorem new_charged (hstart : startAddr ≠ NONE) (hend : startAddr + memPoolSize mb ≤ 2 ^ 64) :
    (Server.new startAddr (memPoolSize mb) numClients numHash numBits mem).Charged hash
      (PerCPUPool.new startAddr (memPoolSize mb) numClients numDataQps).pages
      (Server.chargedTo (fun _ => 0)
        (.new startAddr (memPoolSize mb) numClients numHash numBits mem)) := by
  set s : Server Page := .new startAddr (memPoolSize mb) numClients numHash numBits mem with hs
  set stock := (PerCPUPool.new startAddr (memPoolSize mb) numClients numDataQps).pages with hpages
  have hstocked : s.Stocked hash stock := new_stocked hash hstart hend
  have hsize : memPoolSize mb < 2 ^ 64 := by
    have hpos : 0 < startAddr := Nat.pos_of_ne_zero hstart
    exact Nat.lt_of_lt_of_le (Nat.lt_add_of_pos_left hpos) hend
  have hhomed : s.Homed hash (Server.chargedTo (fun _ => 0) s) := by
    refine ⟨⟨fun c fl a hc ha => ?_, fun key a hview => ?_, ?_⟩, fun c q _ a ha => ?_⟩
    · -- a page is on one list, and that is where it is found
      have hfl : fl < s.kv.pool.totalFl := by
        by_contra hnot
        have hempty : s.kv.pool.freelist fl = {} := if_neg hnot
        rw [hempty] at ha
        cases ha
      unfold Server.chargedTo
      rcases hstocked.inv.kv.pool.lister_cases a with ⟨hzero, -⟩ | ⟨c', fl', howns, hfl', ha', heq⟩
      · exact absurd hzero (PerCPUPool.count_ne_zero hfl ha)
      · have hcount : s.kv.pool.count a ≤ 1 := (Nat.le_add_right _ _).trans (hstocked.kv.once a)
        obtain rfl := PerCPUPool.one_list hcount hfl hfl' ha ha'
        rw [heq]
        exact howns.unique hc
    · have hnone : s.kv.table.view (hash 0) key = none :=
        congrFun (LinearProbingApprox.view_new _) key
      rw [hnone] at hview
      cases hview
    · exact PerCPUPool.new_books startAddr (memPoolSize mb) numClients
    · cases ha
  refine ⟨hstocked, hhomed, fun cli hcli => ?_, ?_⟩
  · have hone : ∀ fl ∈ s.kv.pool.lists cli, (s.kv.pool.allocs fl).toNat =
        SLOT_SIZE * (s.kv.pool.freelist fl).addrs.length := by
      intro fl hfl
      have hlt := hstocked.inv.kv.pool.lists_lt hcli fl hfl
      have hallocs := PerCPUPool.new_allocs startAddr (memPoolSize mb) numClients hsize hlt
      have hlength := PerCPUPool.new_length startAddr (memPoolSize mb) numClients hlt
      change (s.kv.pool.allocs fl).toNat = _ at hallocs
      change (s.kv.pool.freelist fl).addrs.length = _ at hlength
      rw [hallocs, hlength, Nat.mul_comm]
    rw [Finset.sum_congr rfl hone, ← Finset.mul_sum, hhomed.card_listed hstocked hcli]
    congr 2
    ext a
    simp only [Finset.mem_filter]
    constructor
    · rintro ⟨ha, hhome, -⟩
      exact ⟨ha, hhome⟩
    · rintro ⟨ha, hhome⟩
      exact ⟨ha, hhome, Nat.ne_of_gt (PerCPUPool.mem_pages.mp ha)⟩
  · have hallocated : s.kv.pool.allocated = _ :=
      PerCPUPool.new_allocated startAddr (memPoolSize mb) numClients hsize
    have hle := PerCPUPool.initChunks_size_le (memPoolSize mb) (numClients * numDataQps)
    exact Nat.lt_of_le_of_lt (Nat.le_of_eq hallocated) (Nat.lt_of_le_of_lt hle hsize)

variable {as : List (ServerStep Page)} {s : Server Page}

/-- In every run, a client is charged for the pages that were allocated from its
lists and not freed since, never more than it was given, and a page is freed to
the client it was allocated from. -/
theorem client_books_exact (hstart : startAddr ≠ NONE) (hend : startAddr + memPoolSize mb ≤ 2 ^ 64)
    (hwf : (serverSystem hash exclusivePolicy
      (.new startAddr (memPoolSize mb) numClients numHash numBits mem)).Meets Server.WellFormed
      (.new startAddr (memPoolSize mb) numClients numHash numBits mem) as)
    (hrun : (serverSystem hash exclusivePolicy
      (.new startAddr (memPoolSize mb) numClients numHash numBits mem)).exec
      (.new startAddr (memPoolSize mb) numClients numHash numBits mem) as = some s) :
    s.ClientBooks hash exclusivePolicy
      (PerCPUPool.new startAddr (memPoolSize mb) numClients numDataQps).pages
      (chargedAfter hash exclusivePolicy
        (.new startAddr (memPoolSize mb) numClients numHash numBits mem) as) := by
  have hcharged := System.exec_tracked (P := Server.WellFormed) (g := Server.chargedTo)
    (I := Server.Charged hash
      (PerCPUPool.new startAddr (memPoolSize mb) numClients numDataQps).pages)
    ?_ (new_charged hash hstart hend) hwf hrun
  · exact hcharged.books exclusivePolicy
  · intro home t a t' h hw hstep
    obtain ⟨r, hs⟩ := serverSystem_step hstep
    obtain ⟨home', h', hsame⟩ := h.step hw hs
    rw [h'.homed.chargedTo_eq h'.stocked.inv.kv.pool fun p hp => hsame p (Or.inr hp)]
    exact h'

end Run

/-- Eight pages of client 0 were allocated, two of them freed. -/
theorem client_books_exact_putPutGet :
    ∃ s, (serverSystem keyHash true smallServer).exec smallServer (startUp ++ putPutGet) = some s ∧
      (s.kv.pool.getClientUsed 0).toNat = SLOT_SIZE * 6 ∧
      s.ClientBooks keyHash true smallServer.kv.pool.pages
        (chargedAfter keyHash true smallServer (startUp ++ putPutGet)) := by
  obtain ⟨hwf, hstart⟩ := startUp_trace true
  have hused : ((serverSystem keyHash true smallServer).exec started putPutGet).map
      (fun s => (s.kv.pool.getClientUsed 0).toNat) = some (SLOT_SIZE * 6) := by
    decide +kernel
  obtain ⟨s, hrun, hs⟩ := Option.map_eq_some_iff.mp hused
  have hexec := System.exec_append_some.mpr ⟨started, hstart, hrun⟩
  have hend : 4096 + memPoolSize 1 ≤ 2 ^ 64 := by decide
  have hmeets : (serverSystem keyHash true smallServer).Meets Server.WellFormed smallServer
      (startUp ++ putPutGet) := System.meets_append hwf hstart (by decide +kernel)
  have hbooks := client_books_exact keyHash true (by decide) hend hmeets hexec
  exact ⟨s, hexec, hs, hbooks⟩

end CleancacheRdma.Daemon
