import Mathlib
import CleancacheRdma.Driver.Hashtable
import CleancacheRdma.Lib.System

/-!
# The client's hash table between threads

An insertion holds the lock of its bucket twice: to remove the older node of its
key, and to link the new one. Between the two another insertion of the same key
can do the same, and then the key has two nodes; a removal takes one of them.
Everything else about the table is as for a map.
-/

namespace CleancacheRdma.Driver

open Daemon (Key HashFuncs)
open Lib (System)

namespace Hashtable

variable (ht : Hashtable) (hash : HashFuncs)

/-- The table has at most one node of the key, and that in its own chain. -/
structure OneNode (key : Key) : Prop where
  elsewhere : ∀ bkt, bkt ≠ ht.getBktId hash key → ∀ n ∈ ht.hlistheads bkt, n.key ≠ key
  chain : (ht.chain hash key).countP (fun n => n.key == key) ≤ 1

/-- No node of the key is in its chain. -/
def Absent (key : Key) : Prop := ∀ n ∈ ht.chain hash key, n.key ≠ key

instance (key : Key) : Decidable (ht.Absent hash key) :=
  inferInstanceAs (Decidable (∀ n ∈ ht.chain hash key, n.key ≠ key))

variable {ht hash} {key : Key} {value : BitVec 64}

theorem absent_iff : ht.Absent hash key ↔
    (ht.chain hash key).countP (fun n => n.key == key) = 0 := by
  unfold Absent
  rw [List.countP_eq_zero]
  simp only [beq_iff_eq, ne_eq]

/-! ## What a section does to the chains -/

theorem remove_heads (bkt : ℕ) : (ht.remove hash key).1.hlistheads bkt =
    if bkt = ht.getBktId hash key then
      (ht.chain hash key).eraseP fun cur => cur.key == key
    else ht.hlistheads bkt := by
  unfold remove
  dsimp only
  by_cases h : bkt = ht.getBktId hash key
  · rw [if_pos h, h, Function.update_self]
  · rw [if_neg h, Function.update_of_ne h]

theorem addHead_heads (bkt : ℕ) : (ht.addHead hash key value).hlistheads bkt =
    if bkt = ht.getBktId hash key then ⟨key, value⟩ :: ht.chain hash key
    else ht.hlistheads bkt := by
  unfold addHead
  dsimp only
  by_cases h : bkt = ht.getBktId hash key
  · rw [if_pos h, h, Function.update_self]
  · rw [if_neg h, Function.update_of_ne h]

/-- A removal takes nodes only. -/
theorem remove_sublist (bkt : ℕ) :
    ((ht.remove hash key).1.hlistheads bkt).Sublist (ht.hlistheads bkt) := by
  rw [remove_heads]
  split
  next h =>
    rw [h]
    exact List.eraseP_sublist
  · exact List.Sublist.refl _

theorem mem_addHead {bkt : ℕ} {n : HtNode} (h : n ∈ (ht.addHead hash key value).hlistheads bkt) :
    (bkt = ht.getBktId hash key ∧ n = ⟨key, value⟩) ∨ n ∈ ht.hlistheads bkt := by
  rw [addHead_heads] at h
  split at h
  next hb =>
    rcases List.mem_cons.mp h with hnew | hold
    · exact Or.inl ⟨hb, hnew⟩
    · exact Or.inr (hb ▸ hold)
  · exact Or.inr h

theorem count_eraseP {α : Type*} {p : α → Bool} (l : List α) :
    (l.eraseP p).countP p = l.countP p - 1 := by
  induction l with
  | nil => rfl
  | cons a l ih =>
      by_cases ha : p a = true
      · rw [List.eraseP_cons_of_pos ha, List.countP_cons_of_pos ha, Nat.add_sub_cancel]
      · rw [List.eraseP_cons_of_neg ha, List.countP_cons_of_neg ha, List.countP_cons_of_neg ha, ih]

/-- A removal takes the only node of its key. -/
theorem remove_absent (h : (ht.chain hash key).countP (fun n => n.key == key) ≤ 1) :
    (ht.remove hash key).1.Absent hash key := by
  refine absent_iff.mpr ?_
  show ((ht.remove hash key).1.hlistheads (ht.getBktId hash key)).countP _ = 0
  rw [remove_heads, if_pos rfl, count_eraseP]
  exact Nat.sub_eq_zero_of_le h

theorem count_addHead (k : Key) :
    ((ht.addHead hash key value).chain hash k).countP (fun n => n.key == k) =
      (ht.chain hash k).countP (fun n => n.key == k) + if k = key then 1 else 0 := by
  show ((ht.addHead hash key value).hlistheads (ht.getBktId hash k)).countP _ = _
  rw [addHead_heads]
  by_cases hk : k = key
  · subst hk
    rw [if_pos rfl, if_pos rfl]
    exact List.countP_cons_of_pos (p := fun n : HtNode => n.key == k) (beq_self_eq_true k)
  · rw [if_neg hk, Nat.add_zero]
    split
    next hb =>
      have hskip : ¬ (key == k) = true := fun h => hk (beq_iff_eq.mp h).symm
      refine (List.countP_cons_of_neg (p := fun n : HtNode => n.key == k) hskip).trans ?_
      unfold chain
      rw [hb]
    · rfl

theorem get_of_absent (h : ht.Absent hash key) : ht.get hash key = -1 := by
  have hnone : (ht.chain hash key).find? (fun cur => cur.key == key) = none :=
    List.find?_eq_none.mpr fun n hn hkey => h n hn (beq_iff_eq.mp hkey)
  unfold get
  rw [hnone]

/-- A value that is found is that of a node. -/
theorem get_cases : ht.get hash key = -1 ∨ ⟨key, ht.get hash key⟩ ∈ ht.chain hash key := by
  unfold get
  cases hfind : (ht.chain hash key).find? fun cur => cur.key == key with
  | none => exact Or.inl rfl
  | some n =>
      obtain ⟨k, v⟩ := n
      have hbeq : (k == key) = true :=
        List.find?_some (p := fun cur : HtNode => cur.key == key) hfind
      have hkey : k = key := beq_iff_eq.mp hbeq
      subst hkey
      exact Or.inr (List.mem_of_find?_eq_some hfind)

end Hashtable

/-! ## Interleavings -/

/-- The table and, for every thread, the node of the insertion it is in. -/
structure HashtableRun (T : Type*) where
  table : Hashtable
  pending : T → Option HtNode := fun _ => none

/-- The critical sections; those of an insertion are `insert` and `link`. -/
inductive HtSection where
  | insert (item : HtNode)
  | link
  | get (key : Key)
  | remove (key : Key)
deriving DecidableEq

namespace HashtableRun

variable {T : Type*} [DecidableEq T] (hash : HashFuncs) (s : HashtableRun T)

def step : T × HtSection → Option (HashtableRun T)
  | (t, .insert item) =>
      if s.pending t = none then
        some { table := (s.table.remove hash item.key).1
               pending := Function.update s.pending t (some item) }
      else none
  | (t, .link) =>
      (s.pending t).map fun item =>
        { table := s.table.addHead hash item.key item.value
          pending := Function.update s.pending t none }
  | (t, .get _) => if s.pending t = none then some s else none
  | (t, .remove key) =>
      if s.pending t = none then some { s with table := (s.table.remove hash key).1 } else none

/-- Some thread is in an insertion of the key. -/
def Inserting (s : HashtableRun T) (key : Key) : Prop :=
  ∃ t item, s.pending t = some item ∧ item.key = key

/-- A node is linked only into a chain without a node of its key. -/
def LinksAbsent : T × HtSection → Prop
  | (t, .link) => ∀ item ∈ s.pending t, s.table.Absent hash item.key
  | _ => True

instance (a : T × HtSection) : Decidable (s.LinksAbsent hash a) :=
  match a with
  | (t, .link) => inferInstanceAs (Decidable (∀ item ∈ s.pending t, s.table.Absent hash item.key))
  | (_, .insert _) | (_, .get _) | (_, .remove _) => isTrue trivial

end HashtableRun

/-- Threads on an empty table. -/
def hashtableSystem (T : Type*) [DecidableEq T] (hash : HashFuncs) (numBuckets : ℕ) :
    System (HashtableRun T) (T × HtSection) where
  init s := s = { table := ⟨numBuckets, fun _ => []⟩ }
  step := HashtableRun.step hash

/-- What a map promises, in every state of a run from `s₀`. -/
structure BehavesAsMap {T : Type*} [DecidableEq T] (hash : HashFuncs) (numBuckets : ℕ)
    (s₀ : HashtableRun T) (acts : List (T × HtSection)) : Prop where
  oneNode : (hashtableSystem T hash numBuckets).Always (fun s => ∀ key, s.table.OneNode hash key)
    s₀ acts
  -- a removal that meets no insertion of its key and that none has followed
  removed : ∀ pre t key post s, pre ++ (t, .remove key) :: post <+: acts →
    (∀ m, (hashtableSystem T hash numBuckets).exec s₀ pre = some m → ¬ m.Inserting key) →
    (∀ t' item, (t', .insert item) ∈ post → item.key ≠ key) →
    (hashtableSystem T hash numBuckets).exec s₀ (pre ++ (t, .remove key) :: post) = some s →
    s.table.get hash key = -1
  inserted : ∀ pre s key, pre <+: acts →
    (hashtableSystem T hash numBuckets).exec s₀ pre = some s →
    s.table.get hash key = -1 ∨ ∃ t, (t, .insert ⟨key, s.table.get hash key⟩) ∈ pre

namespace HashtableRun

variable {T : Type*} [DecidableEq T] {hash : HashFuncs} {numBuckets : ℕ} {s s' : HashtableRun T}
  {key : Key} {past : List (T × HtSection)}

/-- What a section does: the removal of an insertion, its link, a lookup, a
removal. -/
inductive Stepped (hash : HashFuncs) (s : HashtableRun T) :
    T × HtSection → HashtableRun T → Prop where
  | insert {t : T} {item : HtNode} : s.pending t = none → Stepped hash s (t, .insert item)
      { table := (s.table.remove hash item.key).1
        pending := Function.update s.pending t (some item) }
  | link {t : T} {item : HtNode} : s.pending t = some item → Stepped hash s (t, .link)
      { table := s.table.addHead hash item.key item.value
        pending := Function.update s.pending t none }
  | get {t : T} {key : Key} : Stepped hash s (t, .get key) s
  | remove {t : T} {key : Key} : Stepped hash s (t, .remove key)
      { s with table := (s.table.remove hash key).1 }

theorem step_stepped {a : T × HtSection} (h : s.step hash a = some s') : Stepped hash s a s' := by
  obtain ⟨t, act⟩ := a
  cases act with
  | insert item =>
      by_cases hidle : s.pending t = none
      · cases (if_pos hidle).symm.trans h
        exact .insert hidle
      · cases (if_neg hidle).symm.trans h
  | link =>
      obtain ⟨item, hitem, rfl⟩ := Option.map_eq_some_iff.mp h
      exact .link hitem
  | get key =>
      by_cases hidle : s.pending t = none
      · cases (if_pos hidle).symm.trans h
        exact .get
      · cases (if_neg hidle).symm.trans h
  | remove key =>
      by_cases hidle : s.pending t = none
      · cases (if_pos hidle).symm.trans h
        exact .remove
      · cases (if_neg hidle).symm.trans h

theorem pending_update {t t' : T} {item : Option HtNode} {n : HtNode}
    (h : Function.update s.pending t item t' = some n) :
    (t' = t ∧ item = some n) ∨ s.pending t' = some n := by
  by_cases ht : t' = t
  · rw [ht, Function.update_self] at h
    exact Or.inl ⟨ht, h⟩
  · rw [Function.update_of_ne ht] at h
    exact Or.inr h

/-! ## Where nodes come from -/

/-- Every node is in the chain of its key, and it and those to come have been
handed to an insertion. -/
structure Sourced (hash : HashFuncs) (past : List (T × HtSection)) (s : HashtableRun T) : Prop where
  placed : ∀ bkt, ∀ n ∈ s.table.hlistheads bkt, bkt = s.table.getBktId hash n.key
  nodes : ∀ bkt, ∀ n ∈ s.table.hlistheads bkt, ∃ t, (t, .insert n) ∈ past
  pending : ∀ t item, s.pending t = some item → ∃ t, (t, .insert item) ∈ past

theorem Sourced.step (h : s.Sourced hash past) {a : T × HtSection} (ha : Stepped hash s a s') :
    s'.Sourced hash (past ++ [a]) := by
  have hold : ∀ {n : HtNode}, (∃ t, (t, HtSection.insert n) ∈ past) →
      ∃ t, (t, HtSection.insert n) ∈ past ++ [a] := by
    rintro n ⟨t, ht⟩
    exact ⟨t, List.mem_append_left _ ht⟩
  cases ha with
  | @insert t item hidle =>
      refine ⟨fun bkt n hn => h.placed bkt n ?_, fun bkt n hn => hold (h.nodes bkt n ?_),
        fun t' n hn => ?_⟩
      · exact (Hashtable.remove_sublist bkt).subset hn
      · exact (Hashtable.remove_sublist bkt).subset hn
      · rcases pending_update hn with ⟨-, hnew⟩ | hbefore
        · cases hnew
          exact ⟨t, List.mem_append_right _ (List.mem_singleton_self _)⟩
        · exact hold (h.pending t' n hbefore)
  | @link t item hitem =>
      refine ⟨fun bkt n hn => ?_, fun bkt n hn => ?_, fun t' n hn => ?_⟩
      · rcases Hashtable.mem_addHead hn with ⟨hb, rfl⟩ | hbefore
        · exact hb
        · exact h.placed bkt n hbefore
      · rcases Hashtable.mem_addHead hn with ⟨-, rfl⟩ | hbefore
        · exact hold (h.pending t item hitem)
        · exact hold (h.nodes bkt n hbefore)
      · rcases pending_update hn with ⟨-, hnew⟩ | hbefore
        · cases hnew
        · exact hold (h.pending t' n hbefore)
  | get => exact ⟨h.placed, fun bkt n hn => hold (h.nodes bkt n hn),
      fun t n hn => hold (h.pending t n hn)⟩
  | remove =>
      refine ⟨fun bkt n hn => h.placed bkt n ?_, fun bkt n hn => hold (h.nodes bkt n ?_),
        fun t n hn => hold (h.pending t n hn)⟩
      · exact (Hashtable.remove_sublist bkt).subset hn
      · exact (Hashtable.remove_sublist bkt).subset hn

theorem sourced_run {acts : List (T × HtSection)}
    (hrun : (hashtableSystem T hash numBuckets).exec { table := ⟨numBuckets, fun _ => []⟩ } acts =
      some s) : s.Sourced hash acts := by
  refine System.exec_history (P := fun _ _ => True) (I := Sourced hash) ?_ ?_ acts s
    (System.meets_of_mem _ _ fun _ _ _ => trivial) hrun
  · rintro past s a s' h - hstep
    exact h.step (step_stepped hstep)
  · exact ⟨fun _ _ hn => absurd hn List.not_mem_nil, fun _ _ hn => absurd hn List.not_mem_nil,
      fun _ _ hn => by cases hn⟩

/-! ## One node -/

/-- No chain has two nodes of its key. -/
def Single (hash : HashFuncs) (s : HashtableRun T) : Prop :=
  ∀ key, (s.table.chain hash key).countP (fun n => n.key == key) ≤ 1

theorem Single.step (h : s.Single hash) {a : T × HtSection} (ha : Stepped hash s a s')
    (hlinks : s.LinksAbsent hash a) : s'.Single hash := by
  intro k
  cases ha with
  | insert _ => exact (Hashtable.remove_sublist _).countP_le.trans (h k)
  | @link t item hitem =>
      have habsent := Hashtable.absent_iff.mp (hlinks item hitem)
      show ((s.table.addHead hash item.key item.value).chain hash k).countP _ ≤ 1
      rw [Hashtable.count_addHead]
      by_cases hk : k = item.key
      · rw [if_pos hk, hk, habsent]
      · rw [if_neg hk]
        exact h k
  | get => exact h k
  | remove => exact (Hashtable.remove_sublist _).countP_le.trans (h k)

theorem single_run {acts : List (T × HtSection)}
    (hlinks : (hashtableSystem T hash numBuckets).Meets (LinksAbsent hash)
      { table := ⟨numBuckets, fun _ => []⟩ } acts)
    (hrun : (hashtableSystem T hash numBuckets).exec { table := ⟨numBuckets, fun _ => []⟩ } acts =
      some s) : s.Single hash := by
  refine System.exec_invariant (I := Single hash) ?_ (fun _ => Nat.zero_le _) hlinks hrun
  intro s a s' h hl hstep
  exact h.step (step_stepped hstep) hl

/-! ## After a removal -/

/-- The key is in no node and none is on its way. -/
def Gone (hash : HashFuncs) (key : Key) (s : HashtableRun T) : Prop :=
  s.table.Absent hash key ∧ ¬ s.Inserting key

theorem Gone.step (h : s.Gone hash key) {a : T × HtSection} (ha : Stepped hash s a s')
    (hother : ∀ t item, a = (t, .insert item) → item.key ≠ key) : s'.Gone hash key := by
  obtain ⟨habsent, hidle⟩ := h
  cases ha with
  | @insert t item _ =>
      refine ⟨fun n hn => habsent n ((Hashtable.remove_sublist _).subset hn), ?_⟩
      rintro ⟨t', n, hn, hk⟩
      rcases pending_update hn with ⟨-, hnew⟩ | hbefore
      · cases hnew
        exact hother t item rfl hk
      · exact hidle ⟨t', n, hbefore, hk⟩
  | @link t item hitem =>
      have hne : item.key ≠ key := fun hk => hidle ⟨t, item, hitem, hk⟩
      refine ⟨fun n hn => ?_, ?_⟩
      · rcases Hashtable.mem_addHead hn with ⟨-, rfl⟩ | hbefore
        · exact hne
        · exact habsent n hbefore
      · rintro ⟨t', n, hn, hk⟩
        rcases pending_update hn with ⟨-, hnew⟩ | hbefore
        · cases hnew
        · exact hidle ⟨t', n, hbefore, hk⟩
  | get => exact ⟨habsent, hidle⟩
  | remove => exact ⟨fun n hn => habsent n ((Hashtable.remove_sublist _).subset hn), hidle⟩

theorem Gone.run {acts : List (T × HtSection)} (h : s.Gone hash key)
    (hother : ∀ t item, (t, .insert item) ∈ acts → item.key ≠ key)
    (hrun : (hashtableSystem T hash numBuckets).exec s acts = some s') : s'.Gone hash key := by
  refine System.exec_invariant (I := Gone hash key)
    (P := fun _ a => ∀ t item, a = (t, .insert item) → item.key ≠ key) ?_ h
    (System.meets_of_mem _ _ fun a ha _ t item hitem => hother t item (by rw [← hitem]; exact ha)) hrun
  intro s a s' h ho hstep
  exact h.step (step_stepped hstep) ho

end HashtableRun

open HashtableRun

section Map

variable {T : Type*} [DecidableEq T] {hash : HashFuncs} {numBuckets : ℕ}
  {acts : List (T × HtSection)}

theorem behavesAsMap_of_linksAbsent
    (hlinks : (hashtableSystem T hash numBuckets).Meets (LinksAbsent hash)
      { table := ⟨numBuckets, fun _ => []⟩ } acts) :
    BehavesAsMap hash numBuckets { table := ⟨numBuckets, fun _ => []⟩ } acts where
  oneNode := by
    rintro pre ⟨post, rfl⟩ m hm key
    refine ⟨fun bkt hbkt n hn hkey => hbkt ?_, single_run hlinks.prefix hm key⟩
    rw [← hkey]
    exact (sourced_run hm).placed bkt n hn
  removed := by
    rintro pre t key post m ⟨rest, rfl⟩ hidle hother hm
    obtain ⟨m₀, hm₀, hrest⟩ := System.exec_append_some.mp hm
    obtain ⟨m₁, hremove, hpost⟩ := System.exec_cons_some.mp hrest
    have hbefore := hlinks.prefix
    have hsingle := single_run hbefore.prefix hm₀
    have hgone : m₁.Gone hash key := by
      have hidle₀ := hidle m₀ hm₀
      have hstepped : Stepped hash m₀ (t, .remove key) m₁ := step_stepped hremove
      cases hstepped with
      | remove => exact ⟨Hashtable.remove_absent (hsingle key), hidle₀⟩
    exact Hashtable.get_of_absent (hgone.run hother hpost).1
  inserted := by
    intro pre m key _ hm
    rcases @Hashtable.get_cases m.table hash key with hnone | hnode
    · exact Or.inl hnone
    · exact Or.inr ((sourced_run hm).nodes _ _ hnode)

/-- For any number of buckets, any threads and any interleaving: the table
behaves as a map, in every state of the run, exactly if no insertion links its
node beside another one of its key. -/
theorem behavesAsMap_iff :
    BehavesAsMap hash numBuckets { table := ⟨numBuckets, fun _ => []⟩ } acts ↔
      (hashtableSystem T hash numBuckets).Meets (LinksAbsent hash)
        { table := ⟨numBuckets, fun _ => []⟩ } acts := by
  refine ⟨fun hmap => System.meets_of_prefix fun pre a m hpre hm => ?_, behavesAsMap_of_linksAbsent⟩
  obtain ⟨t, act⟩ := a
  cases act with
  | link =>
      intro item hitem
      have hstep : m.step hash (t, .link) = some
          { table := m.table.addHead hash item.key item.value
            pending := Function.update m.pending t none } := by
        have hpending : m.pending t = some item := hitem
        show (m.pending t).map _ = _
        rw [hpending]
        rfl
      have hone := hmap.oneNode _ hpre _ (System.exec_snoc_some.mpr ⟨m, hm, hstep⟩) item.key
      have hcount := hone.chain
      rw [Hashtable.count_addHead, if_pos rfl] at hcount
      exact Hashtable.absent_iff.mpr (Nat.le_zero.mp (Nat.le_of_succ_le_succ hcount))
  | insert item => trivial
  | get key => trivial
  | remove key => trivial

end Map

/-- Two insertions of one key, one after the other. -/
example : (hashtableSystem Bool (fun _ => BitVec.toNat) 4).Meets (LinksAbsent fun _ => BitVec.toNat)
    { table := ⟨4, fun _ => []⟩ }
    [(false, .insert ⟨5, 7⟩), (true, .insert ⟨9, 8⟩), (false, .link), (true, .link),
      (true, .insert ⟨5, 0⟩), (true, .link), (false, .remove 5)] := by decide +kernel

/-- Two threads add the same key at once, one of them removes it. -/
def atOnceSections : List (Bool × HtSection) :=
  [(false, .insert ⟨5, 0⟩), (true, .insert ⟨5, 0⟩), (true, .link), (false, .link),
    (false, .remove 5)]

/-- No insertion is left and none follows the removal, but the key is found. -/
theorem removed_key_found :
    ∃ s, (hashtableSystem Bool (fun _ => BitVec.toNat) 4).exec { table := ⟨4, fun _ => []⟩ }
        atOnceSections = some s ∧
      (∀ t, s.pending t = none) ∧ s.table.get (fun _ => BitVec.toNat) 5 = 0 ∧
      ¬ BehavesAsMap (fun _ => BitVec.toNat) 4 { table := ⟨4, fun _ => []⟩ } atOnceSections := by
  have hmap : ((hashtableSystem Bool (fun _ => BitVec.toNat) 4).exec
      { table := ⟨4, fun _ => []⟩ } atOnceSections).map (fun s =>
        decide ((∀ t, s.pending t = none) ∧ s.table.get (fun _ => BitVec.toNat) 5 = 0)) =
      some true := by decide +kernel
  obtain ⟨s, hrun, hs⟩ := Option.map_eq_some_iff.mp hmap
  obtain ⟨hidle, hget⟩ := of_decide_eq_true hs
  refine ⟨s, hrun, hidle, hget, fun hbehaves => ?_⟩
  have hgone := hbehaves.removed (atOnceSections.take 4) false 5 [] s (List.prefix_refl _)
    ?_ (fun _ _ hmem => absurd hmem List.not_mem_nil) hrun
  · rw [hget] at hgone
    revert hgone
    decide
  · rintro m hm ⟨t, item, hitem, -⟩
    have hnone : ((hashtableSystem Bool (fun _ => BitVec.toNat) 4).exec
        { table := ⟨4, fun _ => []⟩ } (atOnceSections.take 4)).map (fun s =>
          decide (∀ t, s.pending t = none)) = some true := by decide +kernel
    rw [hm] at hnone
    rw [of_decide_eq_true (Option.some.inj hnone) t] at hitem
    cases hitem

end CleancacheRdma.Driver
