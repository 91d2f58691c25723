import Mathlib
import CleancacheRdma.Driver.Metadata
import CleancacheRdma.Lib.System

/-!
# Counting metadata through the page handlers

`COUNTING_BF`: the handlers add a key with each accepted put and remove one
whenever the filter claims to contain it. The bytes count the keys that were
added and not removed since, as long as no byte is full and no key is removed
that was not added.
-/

namespace CleancacheRdma.Driver

open Daemon (Key HashFuncs)
open Lib (System)

/-- The metadata of one client with its history: the keys added and not removed
again, and those whose last put was accepted and that no get and no invalidation
has reached since. -/
structure CountingRun where
  metadata : Metadata
  added : Multiset Key := 0
  held : Key → Bool := fun _ => false

inductive HandlerCall where
  | putPage (key : Key) (admitted dirtied : Bool) (ret : ℤ)
  | getPage (key : Key) (ret : ℤ)
  | invalidatePage (key : Key) (ret : ℤ)

namespace CountingRun

variable (hash : HashFuncs) (exclusivePolicy : Bool) (s : CountingRun)

/-- A get or an invalidation that the metadata lets pass. -/
def reach (metadata : Metadata) (key : Key) (removes : Bool) : CountingRun :=
  if s.metadata.contain hash key then
    { metadata
      added := if removes then s.added.erase key else s.added
      held := Function.update s.held key false }
  else { s with metadata }

def step : HandlerCall → CountingRun
  | .putPage key admitted dirtied ret =>
      let r := handlePutPage hash exclusivePolicy s.metadata key admitted dirtied ret
      { metadata := r.1
        added := if r.2 = 0 then key ::ₘ s.added else s.added
        held := Function.update s.held key (r.2 = 0) }
  | .getPage key ret =>
      s.reach hash (handleTwosidedGetPage hash exclusivePolicy s.metadata key ret).1 key
        (exclusivePolicy || ret ≠ 0)
  | .invalidatePage key ret =>
      s.reach hash (handleTwosidedInvalidatePage hash s.metadata key ret).1 key true

/-- No hash of the key meets a full byte. -/
def HasRoom (key : Key) : Prop :=
  match s.metadata with
  | .countingBf cbf => cbf.Fits hash key
  | _ => True

instance (key : Key) : Decidable (s.HasRoom hash key) :=
  match s with
  | ⟨.countingBf cbf, _, _⟩ => inferInstanceAs (Decidable (cbf.Fits hash key))
  | ⟨.filterOff, _, _⟩ | ⟨.coopBf _, _, _⟩ | ⟨.ordinaryBf _, _, _⟩ | ⟨.hashTable _, _, _⟩ =>
      isTrue trivial

/-- The call counts right: a put finds room in its bytes, and a key that is
removed has been added more often than removed. -/
def Counts : HandlerCall → Prop
  | .putPage key admitted dirtied ret =>
      (handlePutPage hash exclusivePolicy s.metadata key admitted dirtied ret).2 = 0 →
        s.HasRoom hash key
  | .getPage key ret =>
      s.metadata.contain hash key = true → (exclusivePolicy || ret ≠ 0) = true → key ∈ s.added
  | .invalidatePage key _ => s.metadata.contain hash key = true → key ∈ s.added

instance (a : HandlerCall) : Decidable (s.Counts hash exclusivePolicy a) :=
  match a with
  | .putPage _ _ _ _ => inferInstanceAs (Decidable (_ → _))
  | .getPage _ _ => inferInstanceAs (Decidable (_ → _ → _))
  | .invalidatePage _ _ => inferInstanceAs (Decidable (_ → _))

end CountingRun

namespace CountingRun

variable {hash : HashFuncs} {exclusivePolicy : Bool} {s : CountingRun} {f : Cbf}

/-- How often the keys meet byte `i`. -/
def tally (hash : HashFuncs) (f : Cbf) (added : Multiset Key) (i : ℕ) : ℕ :=
  (added.map fun key => (f.indices hash key).count i).sum

theorem tally_cons (key : Key) (added : Multiset Key) (i : ℕ) :
    tally hash f (key ::ₘ added) i = (f.indices hash key).count i + tally hash f added i :=
  Lib.tally_cons key added i

theorem tally_erase {key : Key} {added : Multiset Key} (h : key ∈ added) (i : ℕ) :
    tally hash f added i = (f.indices hash key).count i + tally hash f (added.erase key) i :=
  Lib.tally_erase h i

theorem tally_congr {g : Cbf} (hnumHash : g.numHash = f.numHash) (hnumBits : g.numBits = f.numBits)
    (added : Multiset Key) (i : ℕ) : tally hash g added i = tally hash f added i :=
  Lib.tally_congr (Cbf.indices_congr hnumHash hnumBits) added i

/-- The bytes of the filter are the tallies of what was added, and that covers
all that is held. -/
structure Inv (hash : HashFuncs) (s : CountingRun) (f : Cbf) : Prop where
  metadata : s.metadata = .countingBf f
  bytes : ∀ i, (f.byteBitmap i).toNat = tally hash f s.added i
  held : ∀ key, s.held key = true → key ∈ s.added

theorem Inv.count_le (h : s.Inv hash f) {key : Key} (hkey : key ∈ s.added) (i : ℕ) :
    (f.indices hash key).count i ≤ (f.byteBitmap i).toNat := by
  rw [h.bytes]
  exact Lib.count_le_tally hkey i

theorem Inv.contain_iff (h : s.Inv hash f) (key : Key) :
    s.metadata.contain hash key = f.mightContain hash key := by
  rw [h.metadata]
  rfl

theorem Inv.contain (h : s.Inv hash f) {key : Key} (hkey : key ∈ s.added) :
    s.metadata.contain hash key = true := by
  rw [h.contain_iff]
  refine Cbf.mightContain_iff.mpr fun i hi hzero => ?_
  have hle := h.count_le hkey i
  rw [hzero] at hle
  exact absurd (List.count_pos_iff.mpr hi) (Nat.not_lt.mpr hle)

/-- An accepted put counts its key. -/
theorem Inv.add (h : s.Inv hash f) {key : Key} (hfits : f.Fits hash key) :
    Inv hash
      { metadata := .countingBf (f.add hash key)
        added := key ::ₘ s.added
        held := Function.update s.held key true } (f.add hash key) where
  metadata := rfl
  bytes i := by
    rw [Cbf.add_toNat hfits, h.bytes, tally_congr (Cbf.add_numHash key) (Cbf.add_numBits key),
      tally_cons, Nat.add_comm]
  held k hk := by
    by_cases hkey : k = key
    · subst hkey
      exact Multiset.mem_cons_self k s.added
    · dsimp only at hk
      rw [Function.update_of_ne hkey] at hk
      exact Multiset.mem_cons_of_mem (h.held k hk)

/-- A removal takes back what one put of the key has counted. -/
theorem Inv.remove (h : s.Inv hash f) {key : Key} (hkey : key ∈ s.added) :
    Inv hash
      { metadata := .countingBf (f.remove hash key).1
        added := s.added.erase key
        held := Function.update s.held key false } (f.remove hash key).1 where
  metadata := rfl
  bytes i := by
    have hfound : f.mightContain hash key = true := by
      rw [← h.contain_iff]
      exact h.contain hkey
    rw [Cbf.remove_toNat hfound (h.count_le hkey), h.bytes,
      tally_congr (Cbf.remove_numHash key) (Cbf.remove_numBits key), tally_erase hkey]
    exact Nat.add_sub_cancel_left _ _
  held k hk := by
    by_cases hne : k = key
    · subst hne
      dsimp only at hk
      rw [Function.update_self] at hk
      cases hk
    · dsimp only at hk
      rw [Function.update_of_ne hne] at hk
      exact (Multiset.mem_erase_of_ne hne).mpr (h.held k hk)

/-- A key is no longer held. -/
theorem Inv.release (h : s.Inv hash f) (key : Key) :
    Inv hash { s with held := Function.update s.held key false } f where
  metadata := h.metadata
  bytes := h.bytes
  held k hk := by
    by_cases hne : k = key
    · subst hne
      dsimp only at hk
      rw [Function.update_self] at hk
      cases hk
    · dsimp only at hk
      rw [Function.update_of_ne hne] at hk
      exact h.held k hk

/-- A get or an invalidation: the metadata change if it gets past the lookup and
removes its key. -/
theorem Inv.reach (h : s.Inv hash f) {metadata : Metadata} {key : Key} {removes : Bool}
    (hmetadata : metadata = if s.metadata.contain hash key = true ∧ removes = true
      then (s.metadata.remove hash key).1 else s.metadata)
    (hkey : s.metadata.contain hash key = true → removes = true → key ∈ s.added) :
    ∃ f', (s.reach hash metadata key removes).Inv hash f' := by
  unfold CountingRun.reach
  cases hcontain : s.metadata.contain hash key with
  | false =>
      rw [hcontain, if_neg fun hno => absurd hno.1 (by decide)] at hmetadata
      rw [if_neg (by decide), hmetadata]
      exact ⟨f, h⟩
  | true =>
      rw [if_pos rfl]
      cases removes with
      | false =>
          rw [if_neg fun hno => absurd hno.2 (by decide)] at hmetadata
          rw [hmetadata]
          exact ⟨f, h.release key⟩
      | true =>
          rw [if_pos ⟨hcontain, rfl⟩, h.metadata] at hmetadata
          rw [hmetadata]
          exact ⟨_, h.remove (hkey hcontain rfl)⟩

theorem Inv.step (h : s.Inv hash f) {a : HandlerCall} (ha : s.Counts hash exclusivePolicy a) :
    ∃ f', (s.step hash exclusivePolicy a).Inv hash f' := by
  have hon : s.metadata.isOn = true := by
    rw [h.metadata]
    rfl
  cases a with
  | putPage key admitted dirtied ret =>
      unfold CountingRun.step
      dsimp only
      rw [handlePutPage_fst hon]
      by_cases hret : (handlePutPage hash exclusivePolicy s.metadata key admitted dirtied ret).2 = 0
      · have hroom : s.HasRoom hash key := ha hret
        unfold CountingRun.HasRoom at hroom
        rw [h.metadata] at hroom
        rw [if_pos hret, if_pos hret, decide_eq_true hret, h.metadata]
        exact ⟨_, h.add hroom⟩
      · rw [if_neg hret, if_neg hret, decide_eq_false hret]
        exact ⟨f, h.release key⟩
  | getPage key ret => exact h.reach (handleTwosidedGetPage_fst hon) ha
  | invalidatePage key ret =>
      refine h.reach ?_ fun hcontain _ => ha hcontain
      rw [handleTwosidedInvalidatePage_fst hon]
      simp only [and_true]

theorem Inv.init (hash : HashFuncs) (numHash numBits : ℕ) :
    Inv hash { metadata := .countingBf (.init numHash numBits) } (.init numHash numBits) where
  metadata := rfl
  bytes _ := rfl
  held _ hk := by cases hk

end CountingRun

end CleancacheRdma.Driver
