import Mathlib
import CleancacheRdma.Daemon.CountingBloomFilter
import CleancacheRdma.Lib.System

/-!
# The counting filter as a multiset

Runs of `Insert` and `Remove` in which only keys that are still in the multiset
are removed. As long as no true count exceeds a byte, the bytes are the tally of
the multiset: how many of its occurrences and their hashes meet each index.
-/

namespace CleancacheRdma.Daemon

open Lib (System MeetsNonzero tally)

namespace CountingBloomFilter

variable (f : CountingBloomFilter) (hash : HashFuncs)

/-! ## The indices of `Remove` -/

/-- What `Remove` uses as index at its pass `i`: what the lookup has left, or
the hash computed again. -/
def removeIdx (o : Key) (i : ℕ) : ℕ :=
  ((f.mightContainIdx hash o fun _ => none).2 i).getD (f.computeHash hash o i)

/-- No pass of the second loop of `Remove` finds a zero byte. -/
def RemovesCounted (o : Key) : Prop :=
  MeetsNonzero (· - 1) ((List.range f.numHash).map (f.removeIdx hash o)) f.cbfByteBitarr

variable {f hash}

theorem removeIdx_eq (o : Key) (i : ℕ) : f.removeIdx hash o i = f.computeHash hash o i := by
  unfold removeIdx
  cases hr : (f.mightContainIdx hash o fun _ => none).2 i with
  | none => rfl
  | some idx =>
      exact (mightContainLoop_spec f.numHash 0 (fun _ => none) fun j idx hj => by cases hj).2 i idx hr

theorem removesCounted_iff {o : Key} : f.RemovesCounted hash o ↔
    ∀ i, (f.indices hash o).count i ≤ (f.cbfByteBitarr i).toNat := by
  unfold RemovesCounted
  rw [List.map_congr_left fun i _ => removeIdx_eq o i]
  exact Lib.meetsNonzero_iff drop_toNat

/-- What is in the array before the lookup has no effect on its answer. -/
theorem mightContainLoop_fst {o : Key} (n : ℕ) : ∀ (i : ℕ) (idxRes idxRes' : ℕ → Option ℕ),
    (f.mightContainLoop hash o n i idxRes).1 = (f.mightContainLoop hash o n i idxRes').1 := by
  induction n with
  | zero =>
      intro i idxRes idxRes'
      rfl
  | succ n ih =>
      intro i idxRes idxRes'
      unfold mightContainLoop
      by_cases hzero : f.cbfByteBitarr (f.computeHash hash o i) = 0
      · rw [if_pos hzero, if_pos hzero]
      · rw [if_neg hzero, if_neg hzero]
        exact ih _ _ _

theorem overloads_agree (o : Key) (idxRes : ℕ → Option ℕ) :
    (f.mightContainIdx hash o idxRes).1 = f.mightContain hash o :=
  (mightContainLoop_fst _ _ _ _).trans (mightContainIdx_eq o)

/-- A key whose hashes are counted is found. -/
theorem mightContain_of_counted {o : Key} (h : f.RemovesCounted hash o) :
    f.mightContain hash o = true := by
  refine mightContain_iff.mpr fun i hi hzero => ?_
  have hle := removesCounted_iff.mp h i
  rw [hzero] at hle
  exact absurd (List.count_pos_iff.mpr hi) (Nat.not_lt.mpr hle)

end CountingBloomFilter

/-! ## Runs -/

/-- The filter and the multiset of the keys inserted and not removed since. -/
structure FilterRun where
  filter : CountingBloomFilter
  inserted : Multiset Key := 0

inductive FilterCall where
  | insert (o : Key)
  | remove (o : Key)
deriving DecidableEq

namespace FilterRun

variable (hash : HashFuncs) (s : FilterRun)

def step : FilterCall → FilterRun
  | .insert o => { filter := s.filter.insert hash o, inserted := o ::ₘ s.inserted }
  | .remove o => { filter := (s.filter.remove hash o).1, inserted := s.inserted.erase o }

/-- The true count of an index: the pairs of an occurrence of a key and one of
its hashes that hit it. -/
def trueCount (inserted : Multiset Key) (i : ℕ) : ℕ := tally (s.filter.indices hash) inserted i

/-- A key is removed only if it is in the multiset, and no true count becomes
greater than a byte. -/
def Allowed : FilterCall → Prop
  | .insert o => ∀ i, s.trueCount hash (o ::ₘ s.inserted) i ≤ 255
  | .remove o => o ∈ s.inserted

/-- The filter is an exact counter of the multiset. -/
structure Exact : Prop where
  bytes : ∀ i, (s.filter.cbfByteBitarr i).toNat = s.trueCount hash s.inserted i
  overloads : ∀ o idxRes, (s.filter.mightContainIdx hash o idxRes).1 = s.filter.mightContain hash o
  present : ∀ o ∈ s.inserted, s.filter.mightContain hash o = true
  removes : ∀ o ∈ s.inserted,
    (s.filter.remove hash o).2 = true ∧ s.filter.RemovesCounted hash o
  restores : ∀ o, (∀ i, s.trueCount hash (o ::ₘ s.inserted) i ≤ 255) →
    ((s.filter.insert hash o).remove hash o).1.cbfByteBitarr = s.filter.cbfByteBitarr

end FilterRun

/-- The runs of a filter from its constructor on. -/
def filterSystem (hash : HashFuncs) (numHash numBits : ℕ) : System FilterRun FilterCall where
  init s := s = { filter := .new numHash numBits }
  step s c := some (s.step hash c)

namespace FilterRun

open CountingBloomFilter

variable {hash : HashFuncs} {s : FilterRun}

/-- The bytes are the true counts. -/
def Tallied (hash : HashFuncs) (s : FilterRun) : Prop :=
  ∀ i, (s.filter.cbfByteBitarr i).toNat = s.trueCount hash s.inserted i

theorem Tallied.counted (h : s.Tallied hash) {o : Key} (ho : o ∈ s.inserted) :
    s.filter.RemovesCounted hash o := by
  refine removesCounted_iff.mpr fun i => ?_
  rw [h i]
  exact Lib.count_le_tally ho i

/-- Where the true count fits a byte, the byte has room for the hashes. -/
theorem Tallied.fits (h : s.Tallied hash) {o : Key}
    (hroom : ∀ i, s.trueCount hash (o ::ₘ s.inserted) i ≤ 255) : s.filter.Fits hash o := by
  intro i _
  have hi := hroom i
  unfold trueCount at hi
  rw [Lib.tally_cons] at hi
  rw [h i, Nat.add_comm]
  exact hi

theorem Tallied.insert (h : s.Tallied hash) {o : Key}
    (hroom : ∀ i, s.trueCount hash (o ::ₘ s.inserted) i ≤ 255) :
    (s.step hash (.insert o)).Tallied hash := by
  intro i
  show ((s.filter.insert hash o).cbfByteBitarr i).toNat = tally _ (o ::ₘ s.inserted) i
  rw [insert_toNat (h.fits hroom), h i, Lib.tally_cons, Nat.add_comm]
  rfl

theorem Tallied.remove (h : s.Tallied hash) {o : Key} (ho : o ∈ s.inserted) :
    (s.step hash (.remove o)).Tallied hash := by
  intro i
  have hcounted := removesCounted_iff.mp (h.counted ho)
  have hsame : ∀ k, (s.filter.remove hash o).1.indices hash k = s.filter.indices hash k :=
    indices_congr (remove_numHash o) (remove_numBits o)
  have htally := @Lib.tally_erase _ _ _ (s.filter.indices hash) _ _ _ ho i
  show ((s.filter.remove hash o).1.cbfByteBitarr i).toNat =
    tally ((s.filter.remove hash o).1.indices hash) (s.inserted.erase o) i
  rw [remove_toNat hcounted, h i, Lib.tally_congr hsame]
  unfold trueCount
  rw [htally]
  exact Nat.add_sub_cancel_left _ _

theorem Tallied.step (h : s.Tallied hash) {c : FilterCall} (hc : s.Allowed hash c) :
    (s.step hash c).Tallied hash := by
  cases c with
  | insert o => exact h.insert hc
  | remove o => exact h.remove hc

/-- A key inserted and removed again leaves no trace. -/
theorem Tallied.restores (h : s.Tallied hash) {o : Key}
    (hroom : ∀ i, s.trueCount hash (o ::ₘ s.inserted) i ≤ 255) :
    ((s.filter.insert hash o).remove hash o).1.cbfByteBitarr = s.filter.cbfByteBitarr := by
  funext i
  apply BitVec.eq_of_toNat_eq
  have hback := (h.insert hroom).remove (Multiset.mem_cons_self o s.inserted) i
  have hsame : ((s.step hash (.insert o)).step hash (.remove o)).inserted = s.inserted :=
    Multiset.erase_cons_head o s.inserted
  rw [hsame] at hback
  refine hback.trans (Eq.trans ?_ (h i).symm)
  refine Lib.tally_congr (fun k => indices_congr ?_ ?_ k) s.inserted i
  · exact remove_numHash o
  · exact remove_numBits o

theorem Tallied.exact (h : s.Tallied hash) : s.Exact hash where
  bytes := h
  overloads := overloads_agree
  present _ ho := mightContain_of_counted (h.counted ho)
  removes o ho := by
    refine ⟨?_, h.counted ho⟩
    rw [remove_eq, if_pos (mightContain_of_counted (h.counted ho))]
  restores _ hroom := h.restores hroom

theorem tallied_new (hash : HashFuncs) (numHash numBits : ℕ) :
    Tallied hash { filter := .new numHash numBits } := fun _ => rfl

/-- Calls that keep the true counts within a byte leave an exact counter,
whatever the hash functions and the size of the filter. -/
theorem exact_of_run {numHash numBits : ℕ} {calls : List FilterCall}
    (hallowed : (filterSystem hash numHash numBits).Meets (Allowed hash)
      { filter := .new numHash numBits } calls)
    (hrun : (filterSystem hash numHash numBits).exec { filter := .new numHash numBits } calls =
      some s) : s.Exact hash := by
  have htallied : s.Tallied hash := by
    refine System.exec_invariant (I := Tallied hash) ?_ (tallied_new hash numHash numBits)
      hallowed hrun
    rintro s c s' h hc hstep
    cases hstep
    exact h.step hc
  exact htallied.exact

/-- A key counts at most once for each hash. -/
theorem count_indices_le (f : CountingBloomFilter) (o : Key) (i : ℕ) :
    (f.indices hash o).count i ≤ f.numHash := by
  refine List.count_le_length.trans (Nat.le_of_eq ?_)
  unfold indices
  rw [List.length_map, List.length_range]

/-- Two keys with one index, which each of them hits twice. -/
theorem exact_of_run_coincident :
    ∃ s, (filterSystem (fun _ => BitVec.toNat) 2 8).exec { filter := .new 2 8 }
        [.insert 1, .insert 9, .remove 1] = some s ∧
      s.filter.cbfByteBitarr 1 = 2 ∧ s.Exact fun _ => BitVec.toNat := by
  refine ⟨_, rfl, by decide +kernel,
    @exact_of_run _ _ 2 8 [.insert 1, .insert 9, .remove 1] ⟨?_, ?_⟩ rfl⟩
  · intro i
    have hone := @count_indices_le (fun _ => BitVec.toNat) (.new 2 8) 1 i
    have htwo : (CountingBloomFilter.new 2 8).numHash = 2 := rfl
    show tally ((CountingBloomFilter.new 2 8).indices fun _ => BitVec.toNat) (1 ::ₘ 0) i ≤ 255
    rw [Lib.tally_cons, Lib.tally_zero]
    omega
  · rintro s hs
    cases hs
    refine ⟨fun i => ?_, ?_⟩
    · have hone := @count_indices_le (fun _ => BitVec.toNat) (.new 2 8) 1 i
      have hnine := @count_indices_le (fun _ => BitVec.toNat) (.new 2 8) 9 i
      have htwo : (CountingBloomFilter.new 2 8).numHash = 2 := rfl
      show tally ((CountingBloomFilter.new 2 8).indices fun _ => BitVec.toNat) (9 ::ₘ 1 ::ₘ 0) i ≤ 255
      rw [Lib.tally_cons, Lib.tally_cons, Lib.tally_zero]
      omega
    · rintro s hs
      cases hs
      refine ⟨?_, fun _ _ => trivial⟩
      show (1 : Key) ∈ (9 ::ₘ 1 ::ₘ 0 : Multiset Key)
      decide

end FilterRun

end CleancacheRdma.Daemon
