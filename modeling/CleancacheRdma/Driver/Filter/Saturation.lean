import Mathlib
import CleancacheRdma.Driver.Filter.Cbf
import CleancacheRdma.Lib.System

/-!
# The client's counting filter at its limit

`cbf_add` stops counting at 255, `cbf_remove` always counts down. The first
addition that meets a full byte makes the byte fall behind the keys it stands
for, and nothing ever makes up for it: removing the keys one by one leaves a key
whose byte is zero.
-/

namespace CleancacheRdma.Driver

open Daemon (Key HashFuncs)
open Lib (System MeetsNonzero tally)

/-- The filter and the multiset of the keys added and not removed since. -/
structure CbfRun where
  filter : Cbf
  added : Multiset Key := 0

inductive CbfCall where
  | add (key : Key)
  | remove (key : Key)
deriving DecidableEq

namespace CbfRun

variable (hash : HashFuncs) (s : CbfRun)

def step : CbfCall → CbfRun
  | .add key => { filter := s.filter.add hash key, added := key ::ₘ s.added }
  | .remove key => { filter := (s.filter.remove hash key).1, added := s.added.erase key }

/-- `cbf_remove` is called for keys in the multiset only. -/
def RemovesPresent (s : CbfRun) : CbfCall → Prop
  | .add _ => True
  | .remove key => key ∈ s.added

instance (c : CbfCall) : Decidable (s.RemovesPresent c) :=
  match c with
  | .add _ => isTrue trivial
  | .remove _ => inferInstanceAs (Decidable (_ ∈ _))

/-- `cbf_add` meets no full byte. -/
def AddFits : CbfCall → Prop
  | .add key => s.filter.Fits hash key
  | .remove _ => True

instance (c : CbfCall) : Decidable (s.AddFits hash c) :=
  match c with
  | .add _ => inferInstanceAs (Decidable (Cbf.Fits _ _ _))
  | .remove _ => isTrue trivial

/-- Every key in the multiset is found, and its removal finds no zero counter. -/
def Keeps : Prop :=
  ∀ key ∈ s.added, s.filter.mightContain hash key = true ∧
    MeetsNonzero (· - 1) (s.filter.indices hash key) s.filter.byteBitmap

end CbfRun

def cbfSystem (hash : HashFuncs) (numHash numBits : ℕ) : System CbfRun CbfCall where
  init s := s = { filter := .init numHash numBits }
  step s c := some (s.step hash c)

namespace CbfRun

open Cbf

variable {hash : HashFuncs} {numHash numBits : ℕ} {s s' : CbfRun} {key : Key} {i : ℕ}

/-- The occurrences of keys and their hashes that meet byte `i`. -/
def trueCount (hash : HashFuncs) (s : CbfRun) (i : ℕ) : ℕ := tally (s.filter.indices hash) s.added i

theorem trueCount_add (i : ℕ) : (s.step hash (.add key)).trueCount hash i =
    (s.filter.indices hash key).count i + s.trueCount hash i := Lib.tally_cons _ _ _

theorem trueCount_remove (hkey : key ∈ s.added) (i : ℕ) :
    s.trueCount hash i =
      (s.filter.indices hash key).count i + (s.step hash (.remove key)).trueCount hash i := by
  have hsame : ∀ k, (s.filter.remove hash key).1.indices hash k = s.filter.indices hash k :=
    indices_congr (remove_numHash key) (remove_numBits key)
  have hback : (s.step hash (.remove key)).trueCount hash i =
      tally (s.filter.indices hash) (s.added.erase key) i := Lib.tally_congr hsame _ i
  rw [hback]
  exact Lib.tally_erase hkey i

/-! ## Additions that fit -/

/-- The bytes count the multiset. -/
def Tallied (hash : HashFuncs) (s : CbfRun) : Prop :=
  ∀ i, (s.filter.byteBitmap i).toNat = s.trueCount hash i

theorem Tallied.count_le (h : s.Tallied hash) (hkey : key ∈ s.added) (i : ℕ) :
    (s.filter.indices hash key).count i ≤ (s.filter.byteBitmap i).toNat := by
  rw [h i]
  exact Lib.count_le_tally hkey i

theorem Tallied.keeps (h : s.Tallied hash) : s.Keeps hash := by
  intro key hkey
  refine ⟨mightContain_iff.mpr fun i hi hzero => ?_,
    (Lib.meetsNonzero_iff drop_toNat).mpr (h.count_le hkey)⟩
  have hle := h.count_le hkey i
  rw [hzero] at hle
  exact absurd (List.count_pos_iff.mpr hi) (Nat.not_lt.mpr hle)

theorem Tallied.step (h : s.Tallied hash) {c : CbfCall} (hpresent : s.RemovesPresent c)
    (hfits : s.AddFits hash c) : (s.step hash c).Tallied hash := by
  intro i
  cases c with
  | add key =>
      rw [trueCount_add, ← h i, Nat.add_comm]
      exact add_toNat hfits i
  | remove key =>
      have hcount := @trueCount_remove hash s key hpresent i
      have hbyte := remove_toNat (h.keeps key hpresent).1 (h.count_le hpresent) i
      rw [h i, hcount] at hbyte
      exact hbyte.trans (Nat.add_sub_cancel_left _ _)

/-- What holds throughout a run whose additions all fit. -/
theorem always_keeps {calls : List CbfCall}
    (hpresent : (cbfSystem hash numHash numBits).Meets RemovesPresent
      { filter := .init numHash numBits } calls)
    (hfits : (cbfSystem hash numHash numBits).Meets (AddFits hash)
      { filter := .init numHash numBits } calls) :
    (cbfSystem hash numHash numBits).Always (Keeps hash) { filter := .init numHash numBits }
      calls := by
  rintro pre ⟨post, rfl⟩ s hrun
  refine Tallied.keeps (System.exec_invariant (I := Tallied hash) ?_ (fun i => rfl)
    (System.meets_and hpresent.prefix hfits.prefix) hrun)
  rintro s c s' h ⟨hp, hf⟩ hstep
  cases hstep
  exact h.step hp hf

/-! ## An addition that does not fit -/

/-- An addition counts at most once for each hash. -/
theorem add_toNat_le (i : ℕ) : ((s.filter.add hash key).byteBitmap i).toNat ≤
    (s.filter.byteBitmap i).toNat + (s.filter.indices hash key).count i := by
  rw [add_eq]
  dsimp only
  rw [Lib.touchAll_apply]
  exact Lib.iterate_le saturate_toNat_le _ _

/-- No byte is ahead of its keys. -/
def Behind (hash : HashFuncs) (s : CbfRun) : Prop :=
  ∀ i, (s.filter.byteBitmap i).toNat ≤ s.trueCount hash i

/-- What a call does to the distance of a byte and its true count. -/
theorem step_distance (hkeeps : s.Keeps hash) {c : CbfCall} (hpresent : s.RemovesPresent c)
    (i : ℕ) : ((s.step hash c).filter.byteBitmap i).toNat + s.trueCount hash i ≤
      (s.filter.byteBitmap i).toNat + (s.step hash c).trueCount hash i := by
  cases c with
  | add key =>
      have hle := @add_toNat_le hash s key i
      rw [trueCount_add]
      show ((s.filter.add hash key).byteBitmap i).toNat + _ ≤ _
      omega
  | remove key =>
      obtain ⟨hfound, hnonzero⟩ := hkeeps key hpresent
      have hcounted := (Lib.meetsNonzero_iff drop_toNat).mp hnonzero
      have hbyte := remove_toNat hfound hcounted i
      have hle := hcounted i
      rw [@trueCount_remove hash s key hpresent i]
      show ((s.filter.remove hash key).1.byteBitmap i).toNat + _ ≤ _
      omega

theorem Behind.step (h : s.Behind hash) (hkeeps : s.Keeps hash) {c : CbfCall}
    (hpresent : s.RemovesPresent c) : (s.step hash c).Behind hash := by
  intro i
  have hdistance := step_distance hkeeps hpresent i
  have hi := h i
  omega

/-- An addition that meets a full byte leaves it behind its keys. -/
theorem Behind.lost (h : s.Behind hash) (hfull : ¬ s.filter.Fits hash key) :
    ∃ i, ((s.step hash (.add key)).filter.byteBitmap i).toNat <
      (s.step hash (.add key)).trueCount hash i := by
  obtain ⟨i, hi⟩ := not_forall.mp hfull
  obtain ⟨-, hover⟩ := Classical.not_imp.mp hi
  refine ⟨i, ?_⟩
  have hi := h i
  have hbyte := ((s.step hash (.add key)).filter.byteBitmap i).isLt
  rw [trueCount_add]
  omega

theorem Behind.run {s t : CbfRun} {calls : List CbfCall} (h : s.Behind hash)
    (hmeets : (cbfSystem hash numHash numBits).Meets
      (fun s c => s.Keeps hash ∧ s.RemovesPresent c) s calls)
    (hrun : (cbfSystem hash numHash numBits).exec s calls = some t) : t.Behind hash := by
  refine System.exec_invariant (I := Behind hash) ?_ h hmeets hrun
  rintro s c s' h ⟨hkeeps, hpresent⟩ hstep
  cases hstep
  exact h.step hkeeps hpresent

/-- The byte never catches up. -/
theorem lost_run {s t : CbfRun} {calls : List CbfCall}
    (h : (s.filter.byteBitmap i).toNat < s.trueCount hash i)
    (hmeets : (cbfSystem hash numHash numBits).Meets
      (fun s c => s.Keeps hash ∧ s.RemovesPresent c) s calls)
    (hrun : (cbfSystem hash numHash numBits).exec s calls = some t) :
    (t.filter.byteBitmap i).toNat < t.trueCount hash i := by
  refine System.exec_invariant
    (I := fun s => (s.filter.byteBitmap i).toNat < s.trueCount hash i) ?_ h hmeets hrun
  rintro s c s' h ⟨hkeeps, hpresent⟩ hstep
  cases hstep
  have hdistance := step_distance hkeeps hpresent i
  omega

/-- A byte that is behind its keys fails one of them, if they are removed one by one. -/
theorem drained (n : ℕ) : ∀ s : CbfRun, s.added.card = n →
    (s.filter.byteBitmap i).toNat < s.trueCount hash i →
    ¬ ∀ keys : List Key,
      (cbfSystem hash numHash numBits).Meets RemovesPresent s (keys.map .remove) →
      (cbfSystem hash numHash numBits).Always (Keeps hash) s (keys.map .remove) := by
  induction n with
  | zero =>
      intro s hcard hlt _
      unfold trueCount at hlt
      rw [Multiset.card_eq_zero.mp hcard] at hlt
      exact absurd hlt (Nat.not_lt_zero _)
  | succ n ih =>
      intro s hcard hlt hall
      obtain ⟨key, hkey⟩ :=
        Multiset.card_pos_iff_exists_mem.mp (Nat.lt_of_lt_of_eq (Nat.succ_pos n) hcard.symm)
      have hkeeps : s.Keeps hash := hall [] trivial [] List.nil_prefix s rfl
      have hdistance := step_distance (c := .remove key) hkeeps hkey i
      refine ih (s.step hash (.remove key)) ?_ (by omega) fun keys hmeets pre hpre t ht => ?_
      · exact (Multiset.card_erase_of_mem hkey).trans (by rw [hcard]; rfl)
      · have hmeets' : (cbfSystem hash numHash numBits).Meets RemovesPresent s
            ((key :: keys).map .remove) := by
          refine ⟨hkey, fun s' hs' => ?_⟩
          cases hs'
          exact hmeets
        exact hall (key :: keys) hmeets' (.remove key :: pre)
          (List.cons_prefix_cons.mpr ⟨rfl, hpre⟩) t (System.exec_cons_some.mpr ⟨_, rfl, ht⟩)

/-- A run in which no addition meets a full byte keeps every key in the multiset,
whatever removals follow it; in any other run some removals lose one. -/
theorem keeps_iff_addFits {calls : List CbfCall}
    (hpresent : (cbfSystem hash numHash numBits).Meets RemovesPresent
      { filter := .init numHash numBits } calls)
    (hrun : (cbfSystem hash numHash numBits).exec { filter := .init numHash numBits } calls =
      some s) :
    (∀ keys : List Key,
      (cbfSystem hash numHash numBits).Meets RemovesPresent { filter := .init numHash numBits }
        (calls ++ keys.map .remove) →
      (cbfSystem hash numHash numBits).Always (Keeps hash) { filter := .init numHash numBits }
        (calls ++ keys.map .remove)) ↔
    (cbfSystem hash numHash numBits).Meets (AddFits hash) { filter := .init numHash numBits }
      calls := by
  constructor
  · intro hall
    have hkeeps : (cbfSystem hash numHash numBits).Meets
        (fun s c => s.Keeps hash ∧ s.RemovesPresent c) { filter := .init numHash numBits } calls := by
      refine System.meets_and (System.meets_of_prefix fun pre c t hpre ht => ?_) hpresent
      have hnone := hall []
      rw [List.map_nil, List.append_nil] at hnone
      exact hnone hpresent pre ((List.prefix_append pre [c]).trans hpre) t ht
    apply System.meets_of_prefix
    rintro pre c t ⟨post, rfl⟩ ht
    cases c with
    | remove key => trivial
    | add key =>
        by_contra hfull
        rw [List.append_assoc] at hkeeps hrun
        have hbehind : t.Behind hash := Behind.run (fun i => Nat.le_refl _) hkeeps.prefix ht
        obtain ⟨i, hlost⟩ := hbehind.lost hfull
        obtain ⟨t', ht', hpost⟩ := System.exec_append_some.mp hrun
        cases ht.symm.trans ht'
        obtain ⟨t', ht', hpost⟩ := System.exec_cons_some.mp hpost
        cases ht'
        have hend := lost_run hlost ((hkeeps.append ht).2 _ rfl) hpost
        rw [← List.append_assoc] at hrun
        refine @drained hash numHash numBits i _ s rfl hend fun keys hmeets pre' hpre u hu => ?_
        exact hall keys (System.meets_append hpresent hrun hmeets) _
          ((List.prefix_append_right_inj _).mpr hpre) u (System.exec_append_some.mpr ⟨s, hrun, hu⟩)
  · intro hfits keys hpresent'
    refine always_keeps hpresent' (System.meets_append hfits hrun ?_)
    apply System.meets_of_mem
    rintro c hc t
    obtain ⟨key, -, rfl⟩ := List.mem_map.mp hc
    trivial

/-- Two keys with one byte, one of them removed again. -/
theorem keeps_iff_addFits_sharing :
    (cbfSystem (fun _ => BitVec.toNat) 1 1).Always (Keeps fun _ => BitVec.toNat)
      { filter := .init 1 1 } [.add 1, .add 9, .remove 9, .remove 1] :=
  (@keeps_iff_addFits (fun _ => BitVec.toNat) 1 1 _ [.add 1, .add 9, .remove 9]
    (by decide +kernel) rfl).mpr (by decide +kernel) [1] (by decide +kernel)

/-- One key put more than 255 times, and taken out all but once. -/
def manyCalls (adds removals : ℕ) : List CbfCall :=
  List.replicate adds (.add 1) ++ List.replicate removals (.remove 1)

/-- `n` times that key, with the byte at `v`. -/
def single (numHash : ℕ) (v : BitVec 8) (n : ℕ) : CbfRun where
  filter := { numHash, numBits := 1, byteBitmap := fun j => if j = 1 then v else 0 }
  added := Multiset.replicate n 1

theorem single_indices (v : BitVec 8) (n : ℕ) :
    (single numHash v n).filter.indices (fun _ => BitVec.toNat) 1 = List.replicate numHash 1 := by
  show (List.range numHash).map (fun _ => 1) = _
  rw [List.map_const', List.length_range]

theorem single_touchAll (f : BitVec 8 → BitVec 8) (v : BitVec 8) (n : ℕ) :
    Lib.touchAll f (List.replicate numHash 1) (single numHash v n).filter.byteBitmap =
      fun j => if j = 1 then f^[numHash] v else 0 := by
  funext j
  rw [Lib.touchAll_apply]
  show f^[_] (if j = 1 then v else 0) = _
  by_cases hj : j = 1
  · rw [hj, if_pos rfl, if_pos rfl, List.count_replicate_self]
  · rw [if_neg hj, if_neg hj, List.count_replicate, if_neg fun h => hj (beq_iff_eq.mp h).symm]
    rfl

theorem single_add (v : BitVec 8) (n : ℕ) :
    (single numHash v n).step (fun _ => BitVec.toNat) (.add 1) =
      single numHash (saturate^[numHash] v) (n + 1) := by
  unfold step
  dsimp only
  rw [add_eq, single_indices, single_touchAll]
  unfold single
  rw [Multiset.replicate_succ]

theorem single_remove {v : BitVec 8} (hv : v ≠ 0) (n : ℕ) :
    (single numHash v (n + 1)).step (fun _ => BitVec.toNat) (.remove 1) =
      single numHash ((· - 1)^[numHash] v) n := by
  have hfound : (single numHash v (n + 1)).filter.mightContain (fun _ => BitVec.toNat) 1 = true := by
    rw [mightContain_iff, single_indices]
    intro i hi
    rw [List.eq_of_mem_replicate hi]
    exact hv
  unfold step
  dsimp only
  rw [remove_eq, if_pos hfound, single_indices, single_touchAll]
  unfold single
  rw [Multiset.replicate_succ, Multiset.erase_cons_head]

theorem single_zero (numHash : ℕ) : single numHash 0 0 = { filter := .init numHash 1 } := by
  have hzero : (fun j : ℕ => if j = 1 then (0 : BitVec 8) else 0) = fun _ => 0 := by
    funext j
    exact ite_self 0
  unfold single Cbf.init
  rw [hzero, Multiset.replicate_zero]

/-- `adds` additions and `removals` removals through the bytes `up` and `down`. -/
theorem single_trace {adds removals : ℕ} {up down : ℕ → BitVec 8} (hzero : up 0 = 0)
    (hup : ∀ i < adds, saturate^[numHash] (up i) = up (i + 1)) (htop : up adds = down 0)
    (hdown : ∀ i < removals, down i ≠ 0 ∧ (· - 1)^[numHash] (down i) = down (i + 1))
    (hle : removals ≤ adds) :
    (cbfSystem (fun _ => BitVec.toNat) numHash 1).Meets RemovesPresent
        { filter := .init numHash 1 } (manyCalls adds removals) ∧
      (cbfSystem (fun _ => BitVec.toNat) numHash 1).exec { filter := .init numHash 1 }
        (manyCalls adds removals) = some (single numHash (down removals) (adds - removals)) := by
  have hadds := System.trace_replicate (S := cbfSystem (fun _ => BitVec.toNat) numHash 1)
    (P := RemovesPresent) (a := .add 1) adds (fun i => single numHash (up i) i) fun i hi => by
      refine ⟨trivial, congrArg some ?_⟩
      rw [single_add, hup i hi]
  have hremovals := System.trace_replicate (S := cbfSystem (fun _ => BitVec.toNat) numHash 1)
    (P := RemovesPresent) (a := .remove 1) removals
    (fun i => single numHash (down i) (adds - i)) fun i hi => by
      obtain ⟨hne, hnext⟩ := hdown i hi
      have hleft : adds - i = adds - (i + 1) + 1 := by omega
      rw [hleft]
      refine ⟨?_, congrArg some ?_⟩
      · exact Multiset.mem_replicate.mpr ⟨Nat.succ_ne_zero _, rfl⟩
      · rw [single_remove hne, hnext]
  rw [hzero, single_zero, htop] at hadds
  exact System.trace_append hadds hremovals

/-- With one hash the counter is at zero while the key is still in the multiset.
With two that coincide it is at one, and the last removal takes it to 255. -/
theorem keeps_fails :
    (∃ s, (cbfSystem (fun _ => BitVec.toNat) 1 1).exec { filter := .init 1 1 }
        (manyCalls 256 255) = some s ∧
      (cbfSystem (fun _ => BitVec.toNat) 1 1).Meets RemovesPresent { filter := .init 1 1 }
        (manyCalls 256 255) ∧
      1 ∈ s.added ∧ s.filter.mightContain (fun _ => BitVec.toNat) 1 = false) ∧
    ∃ s, (cbfSystem (fun _ => BitVec.toNat) 2 1).exec { filter := .init 2 1 }
        (manyCalls 128 127) = some s ∧
      (cbfSystem (fun _ => BitVec.toNat) 2 1).Meets RemovesPresent { filter := .init 2 1 }
        (manyCalls 128 127) ∧
      1 ∈ s.added ∧ ¬ MeetsNonzero (· - 1) (s.filter.indices (fun _ => BitVec.toNat) 1)
        s.filter.byteBitmap ∧
      (s.filter.remove (fun _ => BitVec.toNat) 1).1.byteBitmap 1 = 255 := by
  constructor
  · obtain ⟨hmeets, hrun⟩ := @single_trace 1 256 255 (fun i => BitVec.ofNat 8 (min i 255))
      (fun i => BitVec.ofNat 8 (255 - i)) rfl (by decide +kernel) rfl (by decide +kernel) (by decide)
    exact ⟨_, hrun, hmeets, by decide +kernel, by decide +kernel⟩
  · obtain ⟨hmeets, hrun⟩ := @single_trace 2 128 127 (fun i => BitVec.ofNat 8 (min (2 * i) 255))
      (fun i => BitVec.ofNat 8 (255 - 2 * i)) rfl (by decide +kernel) rfl (by decide +kernel)
      (by decide)
    exact ⟨_, hrun, hmeets, by decide +kernel, by decide +kernel, by decide +kernel⟩

end CbfRun

end CleancacheRdma.Driver
