import Mathlib
import CleancacheRdma.Daemon.Pages
import CleancacheRdma.Lib.System

/-!
# Inclusive gets against removal

`process_get` in its three steps: the lookup that sets the busy flag, the write
of the page to the client, the lookup that clears the flag. Between the first
and the third every other call of the store may run. Evictions leave a busy
bucket alone; `Delete`, which `Remove` and the update path of `Insert` go
through, does not look at the flag, and the first of several gets of a key to
end clears it for all of them.
-/

namespace CleancacheRdma.Daemon

open Lib (System)
open LinearProbingApprox (EvictDraw)

/-! ## State and steps -/

/-- A get of poller `id` between its first and its third step; `mark` is how
many pages had been freed at the first. -/
structure Flight where
  id : ℕ
  key : Key
  page : Value
  written : Bool
  mark : ℕ

/-- The store, the pages allocated or removed and not yet inserted or freed,
and the gets in flight, one per poller. -/
structure GetState where
  kv : KV
  hands : List Value := []
  gets : List Flight := []

inductive GetStep where
  | allocate (cid : ℕ) (qid : Option ℕ) (rand : ℕ)
  | insert (key : Key) (value : Value) (cid : ℕ) (draws : List KV.InsertDraw)
  | remove (key : Key) (cid : ℕ)
  | free (value : Value) (cid rand : ℕ)
  | evict (draws : List EvictDraw) (rand : ℕ)
  | getBegin (id : ℕ) (key : Key) (now : BitVec 32)
  | getWrite (id : ℕ)
  | getEnd (id : ℕ) (now : BitVec 32)

namespace GetState

/-- A page is inserted or freed by whoever holds it. -/
def step (hash : HashFuncs) (s : GetState) : GetStep → Option GetState
  | .allocate cid qid rand =>
      (s.kv.allocate cid qid rand).map fun r => { s with kv := r.2, hands := r.1 :: s.hands }
  | .insert key value cid draws =>
      if value ∈ s.hands then
        (s.kv.insert hash key value cid draws).toOption.map fun kv =>
          { s with kv, hands := s.hands.erase value }
      else none
  | .remove key cid =>
      let r := s.kv.remove hash key cid
      some { s with kv := r.1, hands := if r.2 ≠ NONE then r.2 :: s.hands else s.hands }
  | .free value cid rand =>
      if value ∈ s.hands then
        some { s with kv := s.kv.free value cid rand, hands := s.hands.erase value }
      else none
  | .evict draws rand =>
      (s.kv.evict hash draws rand).toOption.map fun kv => { s with kv }
  | .getBegin id key now =>
      if s.gets.any fun g => g.id = id then none
      else
        let r := s.kv.getWithFlag hash key true now
        some { s with
          kv := r.1
          gets := if r.2 ≠ NONE then ⟨id, key, r.2, false, s.kv.pool.freed.length⟩ :: s.gets
            else s.gets }
  | .getWrite id =>
      some { s with
        gets := s.gets.map fun g => if g.id = id then { g with written := true } else g }
  | .getEnd id now =>
      match s.gets.find? fun g => g.id = id with
      | some g =>
          if g.written then
            some { s with
              kv := (s.kv.getWithFlag hash g.key false now).1
              gets := s.gets.filter fun g => g.id ≠ id }
          else none
      | none => none

/-- Keys are not reserved and carry an existing client. -/
def WellFormed (s : GetState) : GetStep → Prop
  | .allocate cid qid _ => cid < s.kv.pool.numClients ∧ ∀ q ∈ qid, q < s.kv.pool.perCliFl
  | .insert key value cid _ =>
      Usable key ∧ value ≠ NONE ∧ longkeyToCid key = cid ∧ cid < s.kv.pool.numClients
  | .remove key cid => Usable key ∧ longkeyToCid key = cid
  | .free _ cid _ => cid < s.kv.pool.numClients
  | .evict _ _ => True
  | .getBegin _ key _ => Usable key
  | .getWrite _ => True
  | .getEnd _ _ => True

instance (s : GetState) : (a : GetStep) → Decidable (s.WellFormed a)
  | .allocate _ qid _ =>
      have := Option.decidableForallMem (p := fun q => q < s.kv.pool.perCliFl) qid
      inferInstanceAs (Decidable (_ ∧ _))
  | .insert _ _ _ _ => inferInstanceAs (Decidable (_ ∧ _ ∧ _ ∧ _))
  | .remove _ _ => inferInstanceAs (Decidable (_ ∧ _))
  | .free _ _ _ => inferInstanceAs (Decidable (_ < _))
  | .evict _ _ => isTrue trivial
  | .getBegin _ _ _ => inferInstanceAs (Decidable (_ ∧ _))
  | .getWrite _ => isTrue trivial
  | .getEnd _ _ => isTrue trivial

/-- A key is put or removed while no get of it is in flight, and the flag of a
key is cleared by the last of its gets. -/
def Unshared (s : GetState) : GetStep → Prop
  | .insert key _ _ _ => ∀ g ∈ s.gets, g.key ≠ key
  | .remove key _ => ∀ g ∈ s.gets, g.key ≠ key
  | .getEnd id _ => ∀ g ∈ s.gets, g.id = id → ∀ g' ∈ s.gets, g'.key = g.key → g'.id = id
  | _ => True

instance (s : GetState) : (a : GetStep) → Decidable (s.Unshared a)
  | .insert key _ _ _ => inferInstanceAs (Decidable (∀ g ∈ s.gets, g.key ≠ key))
  | .remove key _ => inferInstanceAs (Decidable (∀ g ∈ s.gets, g.key ≠ key))
  | .getEnd id _ => inferInstanceAs (Decidable
      (∀ g ∈ s.gets, g.id = id → ∀ g' ∈ s.gets, g'.key = g.key → g'.id = id))
  | .allocate _ _ _ => isTrue trivial
  | .free _ _ _ => isTrue trivial
  | .evict _ _ => isTrue trivial
  | .getBegin _ _ _ => isTrue trivial
  | .getWrite _ => isTrue trivial

/-- The page was not freed since the get began. -/
def Unfreed (kv : KV) (g : Flight) : Prop :=
  g.mark ≤ kv.pool.freed.length ∧
    g.page ∉ kv.pool.freed.take (kv.pool.freed.length - g.mark)

instance (kv : KV) (g : Flight) : Decidable (Unfreed kv g) := inferInstanceAs (Decidable (_ ∧ _))

/-- No get in flight sends a page that was freed. -/
def Safe (s : GetState) : Prop := ∀ g ∈ s.gets, Unfreed s.kv g

instance (s : GetState) : Decidable s.Safe :=
  inferInstanceAs (Decidable (∀ g ∈ s.gets, Unfreed s.kv g))

end GetState

/-- The store from its constructor on, with no get in flight. -/
def getSystem (hash : HashFuncs) (kv₀ : KV) : System GetState GetStep where
  init s := s = { kv := kv₀ }
  step := GetState.step hash

namespace GetState

variable {hash : HashFuncs} {kv kv' : KV} {s s' : GetState}

/-! ## The page of a get stays where it is -/

/-- The bucket of a get in flight is busy and holds its page. -/
def Pinned (kv : KV) (g : Flight) : Prop :=
  ∃ slot < kv.table.capacity, Usable (kv.table.buckets slot).key ∧
    (kv.table.buckets slot).key = g.key ∧ (kv.table.buckets slot).value = g.page ∧
    (kv.table.buckets slot).busy = true

/-- A page is in one bucket. -/
theorem slot_of_page (h : kv.Inv hash) {p : Value} (hone : kv.places p ≤ 1) {slot slot' : ℕ}
    (hs : slot < kv.table.capacity) (hu : Usable (kv.table.buckets slot).key)
    (hv : (kv.table.buckets slot).value = p) (hs' : slot' < kv.table.capacity)
    (hu' : Usable (kv.table.buckets slot').key) (hv' : (kv.table.buckets slot').value = p) :
    slot = slot' := by
  by_contra hne
  -- the page is still counted at the second bucket after the first is buried
  have hbury := LinearProbingApprox.sum_bury hs hu fun _ v => KV.single v p
  have hsame : (kv.table.bury slot).buckets slot' = kv.table.buckets slot' := by
    simp [LinearProbingApprox.bury, Function.update_of_ne (Ne.symm hne)]
  have hu'' : Usable ((kv.table.bury slot).buckets slot').key := by
    rw [hsame]
    exact hu'
  have hview := (h.table.bury slot).view_of_bucket hs' hu''
  rw [hsame] at hview
  have hle := (h.table.bury slot).le_sum hview fun _ v => KV.single v p
  rw [hv'] at hle
  rw [hv] at hbury
  simp only [KV.single, if_true] at hle hbury
  unfold KV.places KV.single at hone
  omega

theorem Unfreed.of_eq {g : Flight} (h : Unfreed kv g)
    (heq : kv'.pool.freed = kv.pool.freed) : Unfreed kv' g := by
  unfold Unfreed
  rw [heq]
  exact h

/-- What an operation frees is none of the pages in flight. -/
theorem Unfreed.of_frees {g : Flight} (h : Unfreed kv g) {P : Value → Prop}
    (hfrees : kv.Frees kv' P) (hne : ∀ p, P p → p ≠ g.page) : Unfreed kv' g := by
  rcases hfrees with heq | ⟨p, hp, heq⟩
  · exact h.of_eq heq
  · obtain ⟨hmark, hmem⟩ := h
    unfold Unfreed
    rw [heq, List.length_cons]
    refine ⟨Nat.le_succ_of_le hmark, ?_⟩
    rw [Nat.succ_sub hmark, List.take_succ_cons, List.mem_cons]
    rintro (he | hmem')
    · exact hne p hp he.symm
    · exact hmem hmem'

theorem Pinned.usable {g : Flight} (h : Pinned kv g) : Usable g.key := by
  obtain ⟨slot, -, hu, hk, -⟩ := h
  exact hk ▸ hu

theorem Pinned.of_table {g : Flight} (h : Pinned kv g) (htable : kv'.table = kv.table) :
    Pinned kv' g := by
  unfold Pinned
  rw [htable]
  exact h

/-- A write to a bucket that is not the get's, or that leaves its pair and its
flag alone. -/
theorem Pinned.put {g : Flight} (h : Pinned kv g) {slot : ℕ} {b : LPABkt}
    (htable : kv'.table = kv.table.put slot b)
    (hkeep : (kv.table.buckets slot).key = g.key → (kv.table.buckets slot).busy = true →
      b.key = (kv.table.buckets slot).key ∧ b.value = (kv.table.buckets slot).value ∧
        b.busy = true) : Pinned kv' g := by
  obtain ⟨slot', hs, hu, hk, hv, hb⟩ := h
  unfold Pinned
  rw [htable]
  refine ⟨slot', hs, ?_⟩
  by_cases he : slot' = slot
  · subst he
    obtain ⟨hkey, hvalue, hbusy⟩ := hkeep hk hb
    simp only [LinearProbingApprox.put_buckets, Function.update_self]
    rw [hkey, hvalue]
    exact ⟨hu, hk, hv, hbusy⟩
  · simp only [LinearProbingApprox.put_buckets, Function.update_of_ne he]
    exact ⟨hu, hk, hv, hb⟩

theorem Pinned.bury {g : Flight} (h : Pinned kv g) {slot : ℕ}
    (htable : kv'.table = kv.table.bury slot)
    (hother : (kv.table.buckets slot).key ≠ g.key ∨ (kv.table.buckets slot).busy = false) :
    Pinned kv' g := by
  refine h.put htable fun hk hb => ?_
  rcases hother with hne | hclear
  · exact absurd hk hne
  · rw [hclear] at hb
    cases hb

theorem Pinned.setBucket {g : Flight} (h : Pinned kv g) {slot : ℕ} {key : Key} {value : Value}
    {now : BitVec 32} (htable : kv'.table = kv.table.setBucket slot key value now)
    (hother : ¬ Usable (kv.table.buckets slot).key ∨ (kv.table.buckets slot).busy = false) :
    Pinned kv' g := by
  refine h.put htable fun hk hb => ?_
  rcases hother with hvac | hclear
  · exact absurd (hk ▸ h.usable) hvac
  · rw [hclear] at hb
    cases hb

theorem Pinned.attempt {g : Flight} (h : Pinned kv g) {key : Key} {value : Value}
    {d : KV.InsertDraw} {r : KV × ℤ} (hatt : KV.Attempt hash kv key value d r) :
    Pinned r.1 g := by
  cases hatt with
  | added _ _ hvac => exact h.setBucket rfl (Or.inl hvac)
  | replaced _ _ hbusy => exact h.setBucket rfl (Or.inr hbusy)
  | refused _ => exact h.of_table rfl
  | dropped _ _ => exact h

theorem Pinned.insert {g : Flight} (h : Pinned kv g) (hinv : kv.Inv hash) {key : Key}
    (hkey : Usable key) {value : Value} (hvalue : value ≠ NONE) {cid : ℕ}
    {draws : List KV.InsertDraw} (hr : kv.insert hash key value cid draws = .ok kv')
    (hne : g.key ≠ key) : Pinned kv' g := by
  obtain ⟨r, hretry, rfl⟩ := KV.insert_ok hr
  have hlast : Pinned r.1 g := by
    rcases KV.insertRetry_ok hinv.table hkey hvalue hretry with
      ⟨-, d, hatt⟩ | ⟨slot, -, rfl, rand, d, hatt⟩
    · exact h.attempt hatt
    · have hsup : Pinned (kv.supersede slot cid rand) g := h.bury rfl (Or.inl (Ne.symm hne))
      exact hsup.attempt hatt
  split
  · exact hlast.of_table rfl
  · exact hlast

theorem Pinned.remove {g : Flight} (h : Pinned kv g) (hinv : kv.Inv hash) {key : Key}
    (hkey : Usable key) (cid : ℕ) (hne : g.key ≠ key) : Pinned (kv.remove hash key cid).1 g := by
  rcases KV.remove_cases hinv.table hkey cid with ⟨slot, -, rfl, -, hr⟩ | ⟨-, hr⟩
  · rw [hr]
    exact h.bury rfl (Or.inl (Ne.symm hne))
  · rw [hr]
    exact h

theorem Pinned.evict {g : Flight} (h : Pinned kv g) {draws : List EvictDraw} {rand : ℕ}
    (hr : kv.evict hash draws rand = .ok kv') : Pinned kv' g := by
  obtain ⟨slot, ⟨-, -, hbusy⟩, rfl⟩ := KV.evict_ok hr
  exact h.bury rfl (Or.inr hbusy)

/-- Setting a flag takes no pin away, clearing it those of its key. -/
theorem Pinned.getWithFlag {g : Flight} (h : Pinned kv g) {key : Key} {busy : Bool}
    (hflag : busy = true ∨ g.key ≠ key) (hkey : Usable key) (hinv : kv.Inv hash)
    (now : BitVec 32) : Pinned (kv.getWithFlag hash key busy now).1 g := by
  rcases (LinearProbingApprox.lookup_scanned (kv.table.flagBucket busy now) key).cases
    hinv.table hkey with ⟨slot, -, hk, -, hr⟩ | ⟨-, hr⟩
  · rw [KV.getWithFlag, LinearProbingApprox.getWithFlag, hr]
    cases busy with
    | true => exact h.put rfl fun _ _ => ⟨rfl, rfl, rfl⟩
    | false =>
        refine h.put rfl fun hg _ => ?_
        rcases hflag with hf | hne
        · cases hf
        · exact absurd (hg.symm.trans hk) hne
  · rw [KV.getWithFlag, LinearProbingApprox.getWithFlag, hr]
    exact h.of_table rfl

/-- A lookup that finds its key pins it. -/
theorem pinned_getWithFlag (hinv : kv.Inv hash) {key : Key} (hkey : Usable key)
    (now : BitVec 32) (hfound : (kv.getWithFlag hash key true now).2 ≠ NONE) (id : ℕ) (n : ℕ) :
    Pinned (kv.getWithFlag hash key true now).1
      ⟨id, key, (kv.getWithFlag hash key true now).2, false, n⟩ := by
  rcases (LinearProbingApprox.lookup_scanned (kv.table.flagBucket true now) key).cases
    hinv.table hkey with ⟨slot, hs, hk, -, hr⟩ | ⟨-, hr⟩
  · rw [KV.getWithFlag, LinearProbingApprox.getWithFlag, hr]
    refine ⟨slot, hs, ?_⟩
    simp only [LinearProbingApprox.flagBucket, if_true, LinearProbingApprox.put_buckets,
      Function.update_self]
    exact ⟨hk ▸ hkey, hk, trivial, trivial⟩
  · rw [KV.getWithFlag, LinearProbingApprox.getWithFlag, hr] at hfound
    exact absurd rfl hfound

/-! ## The steps -/

/-- Every page is in the store or in one pair of hands, every get in flight has
its bucket pinned and its page kept. -/
structure Inv (hash : HashFuncs) (s : GetState) : Prop where
  kv : s.kv.Inv hash
  one : ∀ p, s.kv.places p + s.hands.count p ≤ 1
  pinned : ∀ g ∈ s.gets, Pinned s.kv g
  safe : s.Safe

theorem Inv.places_le (h : s.Inv hash) (p : Value) : s.kv.places p ≤ 1 :=
  Nat.le_trans (Nat.le_add_right _ _) (h.one p)

/-- A page in hands is not stored, so no get sends it. -/
theorem Inv.not_in_hands (h : s.Inv hash) {g : Flight} (hg : g ∈ s.gets) :
    g.page ∉ s.hands := by
  intro hmem
  obtain ⟨slot, hs, hu, hk, hv, hb⟩ := h.pinned g hg
  have hstored : s.kv.Stores (fun _ => True) g.page := ⟨slot, hs, hu, hv, trivial⟩
  have hone := h.one g.page
  have htable := hstored.one_le_places h.kv
  have hhands := List.one_le_count_iff.mpr hmem
  omega

/-- A page that a get sends is stored in its bucket alone, which is busy. -/
theorem Inv.stores_ne (h : s.Inv hash) {g : Flight} (hg : g ∈ s.gets) {P : LPABkt → Prop}
    (hP : ∀ b, P b → b.key = g.key → b.busy = false) {p : Value} (hp : s.kv.Stores P p) :
    p ≠ g.page := by
  rintro rfl
  obtain ⟨slot, hs, hu, hk, hv, hb⟩ := h.pinned g hg
  obtain ⟨slot', hs', hu', hv', hother⟩ := hp
  obtain rfl := slot_of_page h.kv (h.places_le g.page) hs hu hv hs' hu' hv'
  have hclear := hP _ hother hk
  rw [hb] at hclear
  cases hclear

theorem count_erase_le {l : List Value} {a : Value} (h : a ∈ l) (p : Value) :
    (l.erase a).count p + KV.single a p = l.count p := by
  unfold KV.single
  by_cases hap : a = p
  · subst hap
    have hpos := List.one_le_count_iff.mpr h
    rw [List.count_erase_self, if_pos rfl]
    omega
  · rw [List.count_erase_of_ne (Ne.symm hap), if_neg hap]
    rfl

theorem count_cons_single (a : Value) (l : List Value) (p : Value) :
    (a :: l).count p = l.count p + KV.single a p := by
  unfold KV.single
  rw [List.count_cons]
  simp only [beq_iff_eq]

/-- The store moves on without a page from the hands; each get now in flight is
safe. -/
theorem Inv.setKV (h : s.Inv hash) {kv : KV} (hfollows : s.kv.Follows hash kv fun _ => 0)
    {gets : List Flight} (hgets : ∀ g ∈ gets, Pinned kv g ∧ Unfreed kv g) :
    Inv hash { s with kv, gets } where
  kv := hfollows.inv
  one p := Nat.le_trans (Nat.add_le_add_right (hfollows.places p) _) (h.one p)
  pinned g hg := (hgets g hg).1
  safe g hg := (hgets g hg).2

/-- A page goes from the hands into the store, which frees none that is sent. -/
theorem Inv.handOver (h : s.Inv hash) {value : Value} (hmem : value ∈ s.hands) {kv : KV}
    (hfollows : s.kv.Follows hash kv (KV.single value)) {P : Value → Prop}
    (hfrees : s.kv.Frees kv P) (hpinned : ∀ g ∈ s.gets, Pinned kv g)
    (hother : ∀ g ∈ s.gets, ∀ p, P p → p ≠ g.page) :
    Inv hash { s with kv, hands := s.hands.erase value } := by
  refine ⟨hfollows.inv, fun p => ?_, hpinned, fun g hg => ?_⟩
  · have hone := h.one p
    have hp := hfollows.places p
    have hcount := count_erase_le hmem p
    show kv.places p + (s.hands.erase value).count p ≤ 1
    omega
  · exact (h.safe g hg).of_frees hfrees (hother g hg)

/-- A page in hands is none that is sent. -/
theorem Inv.ne_page (h : s.Inv hash) {value : Value} (hmem : value ∈ s.hands) {g : Flight}
    (hg : g ∈ s.gets) : value ≠ g.page := by
  rintro rfl
  exact h.not_in_hands hg hmem

theorem Inv.remove (h : s.Inv hash) {key : Key} (hkey : Usable key) (cid : ℕ)
    (hun : ∀ g ∈ s.gets, g.key ≠ key) :
    Inv hash { s with
      kv := (s.kv.remove hash key cid).1
      hands := if (s.kv.remove hash key cid).2 ≠ NONE then
        (s.kv.remove hash key cid).2 :: s.hands else s.hands } := by
  obtain ⟨hinv, hpool, hplaces⟩ := h.kv.remove hkey cid
  refine ⟨hinv, fun p => ?_, fun g hg => (h.pinned g hg).remove h.kv hkey cid (hun g hg),
    fun g hg => (h.safe g hg).of_eq (by rw [hpool])⟩
  have hone := h.one p
  have hp := hplaces p
  dsimp only
  split
  next hne =>
    rw [if_pos hne] at hp
    rw [count_cons_single]
    omega
  · exact Nat.le_trans (Nat.add_le_add_right (Nat.le_trans (Nat.le_add_right _ _) hp) _) hone

/-- A get that finds its key pins it; it has its page from before any later free. -/
theorem Inv.getBegin (h : s.Inv hash) {key : Key} (hkey : Usable key) (id : ℕ) (now : BitVec 32) :
    Inv hash { s with
      kv := (s.kv.getWithFlag hash key true now).1
      gets := if (s.kv.getWithFlag hash key true now).2 ≠ NONE then
        ⟨id, key, (s.kv.getWithFlag hash key true now).2, false, s.kv.pool.freed.length⟩ :: s.gets
        else s.gets } := by
  have hkept : ∀ g ∈ s.gets, Pinned (s.kv.getWithFlag hash key true now).1 g ∧
      Unfreed (s.kv.getWithFlag hash key true now).1 g := fun g hg =>
    ⟨(h.pinned g hg).getWithFlag (Or.inl rfl) hkey h.kv now, h.safe g hg⟩
  refine h.setKV (h.kv.getWithFlag key true now) ?_
  split
  next hfound =>
    intro g hg
    rcases List.mem_cons.mp hg with rfl | hg
    · refine ⟨pinned_getWithFlag h.kv hkey now hfound id _, Nat.le_refl _, ?_⟩
      show _ ∉ List.take (s.kv.pool.freed.length - s.kv.pool.freed.length) _
      rw [Nat.sub_self, List.take_zero]
      exact List.not_mem_nil
    · exact hkept g hg
  · exact hkept

theorem Inv.getEnd (h : s.Inv hash) {g : Flight} (hg : g ∈ s.gets) (now : BitVec 32)
    (hun : ∀ g' ∈ s.gets, g'.key = g.key → g'.id = g.id) :
    Inv hash { s with
      kv := (s.kv.getWithFlag hash g.key false now).1
      gets := s.gets.filter fun g' => g'.id ≠ g.id } := by
  refine h.setKV (h.kv.getWithFlag g.key false now) fun g' hg' => ?_
  obtain ⟨hmem, hne⟩ := List.mem_filter.mp hg'
  refine ⟨(h.pinned g' hmem).getWithFlag (Or.inr ?_) (h.pinned g hg).usable h.kv now,
    h.safe g' hmem⟩
  intro hkey
  exact absurd (hun g' hmem hkey) (by simpa using hne)

theorem Inv.step (h : s.Inv hash) {a : GetStep} (hwf : s.WellFormed a) (hun : s.Unshared a)
    (hstep : s.step hash a = some s') : s'.Inv hash := by
  cases a with
  | allocate cid qid rand =>
      obtain ⟨⟨value, kv⟩, halloc, rfl⟩ := Option.map_eq_some_iff.mp hstep
      have hqid : ∀ q, qid = some q → q < s.kv.pool.perCliFl := hwf.2
      obtain ⟨hinv, htable, -, -, -, hplaces⟩ := h.kv.allocate hwf.1 hqid halloc
      have hfreed := h.kv.allocate_freed hqid halloc
      refine ⟨hinv, fun p => ?_, fun g hg => (h.pinned g hg).of_table htable,
        fun g hg => (h.safe g hg).of_eq hfreed⟩
      have hone := h.one p
      have hp := hplaces p
      show kv.places p + (value :: s.hands).count p ≤ 1
      rw [count_cons_single]
      omega
  | insert key value cid draws =>
      obtain ⟨hkey, hvalue, rfl, hcid⟩ := hwf
      simp only [GetState.step] at hstep
      split at hstep
      next hmem =>
        obtain ⟨kv, hins, rfl⟩ := Option.map_eq_some_iff.mp hstep
        have hins := toOption_some hins
        refine h.handOver hmem (h.kv.insert hkey hvalue hcid hins)
          (h.kv.insert_frees hkey hvalue hins)
          (fun g hg => (h.pinned g hg).insert h.kv hkey hvalue hins (hun g hg))
          fun g hg p hp => ?_
        rcases hp with rfl | hstored
        · exact h.ne_page hmem hg
        · refine h.stores_ne hg (fun b hb hk => hb.resolve_left fun hkey => ?_) hstored
          exact hun g hg (hk.symm.trans hkey)
      · cases hstep
  | remove key cid =>
      cases hstep
      exact h.remove hwf.1 cid hun
  | free value cid rand =>
      simp only [GetState.step] at hstep
      split at hstep
      next hmem =>
        cases hstep
        refine h.handOver hmem (h.kv.free value hwf rand) (P := fun p => p = value)
          (Or.inr ⟨value, rfl, rfl⟩) (fun g hg => (h.pinned g hg).of_table rfl) ?_
        rintro g hg p rfl
        exact h.ne_page hmem hg
      · cases hstep
  | evict draws rand =>
      obtain ⟨kv, hev, rfl⟩ := Option.map_eq_some_iff.mp hstep
      have hev := toOption_some hev
      refine h.setKV (h.kv.evict hev) fun g hg => ⟨(h.pinned g hg).evict hev, ?_⟩
      exact (h.safe g hg).of_frees (KV.evict_frees hev) fun p hp =>
        h.stores_ne hg (fun _ hidle _ => hidle) hp
  | getBegin id key now =>
      simp only [GetState.step] at hstep
      split at hstep
      · cases hstep
      · cases hstep
        exact h.getBegin hwf id now
  | getWrite id =>
      cases hstep
      refine h.setKV (.refl h.kv) fun g hg => ?_
      -- the write changes neither the page nor the mark
      obtain ⟨g', hg', rfl⟩ := List.mem_map.mp hg
      split
      · exact ⟨h.pinned g' hg', h.safe g' hg'⟩
      · exact ⟨h.pinned g' hg', h.safe g' hg'⟩
  | getEnd id now =>
      simp only [GetState.step] at hstep
      split at hstep
      next g hfind =>
        split at hstep
        · cases hstep
          have hg := List.mem_of_find?_eq_some hfind
          have hid : g.id = id := by simpa using List.find?_some hfind
          subst hid
          exact h.getEnd hg now (hun g hg rfl)
        · cases hstep
      · cases hstep

end GetState

/-! ## Runs -/

/-- In a run that meets `Unshared` no page is freed between the first and the
third step of a get that sends it. -/
theorem sent_page_not_freed (hash : HashFuncs) (startAddr : Value)
    (memPoolSize numClients numHash numBits : ℕ) {as : List GetStep} {s : GetState}
    (hwf : (getSystem hash (.new startAddr memPoolSize numClients numHash numBits)).Meets
      GetState.WellFormed { kv := .new startAddr memPoolSize numClients numHash numBits } as)
    (hun : (getSystem hash (.new startAddr memPoolSize numClients numHash numBits)).Meets
      GetState.Unshared { kv := .new startAddr memPoolSize numClients numHash numBits } as)
    (hrun : (getSystem hash (.new startAddr memPoolSize numClients numHash numBits)).exec
      { kv := .new startAddr memPoolSize numClients numHash numBits } as = some s) : s.Safe := by
  have hinit : GetState.Inv hash
      { kv := .new startAddr memPoolSize numClients numHash numBits } :=
    ⟨KV.new_inv _ _ _ _ _, fun p => KV.new_places_le_one startAddr memPoolSize numClients
      numHash numBits p, nofun, nofun⟩
  have hinv : s.Inv hash :=
    System.exec_invariant (P := fun s a => s.WellFormed a ∧ s.Unshared a)
      (fun s a s' h hok hstep => h.step hok.1 hok.2 hstep) hinit
      (System.meets_and (Q := GetState.Unshared) hwf hun) hrun
  exact hinv.safe

/-- Sixteen clients share one mebibyte, one page for each list. -/
def getStore : KV := .new 4096 1048576 16 1 8

def getHash : HashFuncs := fun _ key => key.toNat

/-- Two gets of different keys; one ends and its key is invalidated while the
other is in flight. -/
def unsharedRun : List GetStep :=
  [.allocate 0 none 0, .insert 1 4096 0 [{}, {}], .getBegin 0 1 5,
   .allocate 0 none 1, .insert 2 8200 0 [{}, {}], .getBegin 1 2 6,
   .getWrite 0, .getEnd 0 7, .remove 1 0, .free 4096 0 0]

theorem sent_page_not_freed_unshared :
    ∃ s, (getSystem getHash getStore).exec { kv := getStore } unsharedRun = some s ∧
      s.kv.pool.freed = [4096] ∧ s.gets.length = 1 ∧ s.Safe := by
  have hfreed : ((getSystem getHash getStore).exec { kv := getStore } unsharedRun).map
      (fun s => (s.kv.pool.freed, s.gets.length)) = some ([4096], 1) := by decide +kernel
  obtain ⟨s, hrun, hs⟩ := Option.map_eq_some_iff.mp hfreed
  obtain ⟨hfreed, hgets⟩ := Prod.mk.inj hs
  exact ⟨s, hrun, hfreed, hgets, sent_page_not_freed getHash 4096 1048576 16 1 8
    (by decide +kernel) (by decide +kernel) hrun⟩

/-- A put replaces the page while a get of it is in flight. -/
def updatedRun : List GetStep :=
  [.allocate 0 none 0, .insert 1 4096 0 [{}, {}], .getBegin 0 1 5,
   .allocate 0 none 1, .insert 1 8200 0 [{}, {}]]

/-- `Insert` freed the page that the get is about to send. -/
theorem sent_page_freed :
    (getSystem getHash getStore).Meets GetState.WellFormed { kv := getStore } updatedRun ∧
    ∃ s, (getSystem getHash getStore).exec { kv := getStore } updatedRun = some s ∧
      ¬ s.Safe := by
  refine ⟨by decide +kernel, ?_⟩
  have hsafe : ((getSystem getHash getStore).exec { kv := getStore } updatedRun).map
      (fun s => decide s.Safe) = some false := by decide +kernel
  obtain ⟨s, hrun, hs⟩ := Option.map_eq_some_iff.mp hsafe
  exact ⟨s, hrun, of_decide_eq_false hs⟩

end CleancacheRdma.Daemon
