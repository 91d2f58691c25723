import CleancacheRdma.Daemon.Basic
import CleancacheRdma.Lib.Counters

/-!
# The client's counting filter

Translated from `filter/counting_bloom_filter.{h,c}` of the driver. Unlike the
daemon's, it takes the indices modulo the size of the bitmap in bytes, which is
that of `num_bits` words, and a full byte stays as it is.
-/

namespace CleancacheRdma.Driver

open Daemon (Key HashFuncs)

/-- `cbf_t`. -/
structure Cbf where
  numHash : ℕ
  numBits : ℕ
  byteBitmap : ℕ → BitVec 8

namespace Cbf

/-- `cbf_init`. -/
def init (numHash numBits : ℕ) : Cbf := ⟨numHash, numBits, fun _ => 0⟩

variable (f : Cbf) (hash : HashFuncs)

/-- `num_bits * sizeof(unsigned long)`. -/
def bitmapSize : ℕ := f.numBits * 8

/-- `compute_hash`: a `size_t` remainder returned as `unsigned int`. -/
def computeHash (key : Key) (i : ℕ) : ℕ := hash i key % f.bitmapSize % 2 ^ 32

/-- `cbf_add`. -/
def add (key : Key) : Cbf :=
  { f with
    byteBitmap := (List.range f.numHash).foldl
      (fun b i =>
        let index := f.computeHash hash key i
        if b index < 255 then Function.update b index (b index + 1) else b)
      f.byteBitmap }

/-- `__cbf_might_contain`. -/
def mightContain (key : Key) : Bool :=
  (List.range f.numHash).all fun i => f.byteBitmap (f.computeHash hash key i) ≠ 0

/-- `cbf_remove`. Its test `byte_bitmap[index] >= 0` always holds. -/
def remove (key : Key) : Cbf × Bool :=
  if f.mightContain hash key then
    ({ f with
       byteBitmap := (List.range f.numHash).foldl
         (fun b i =>
           let index := f.computeHash hash key i
           Function.update b index (b index - 1))
         f.byteBitmap }, true)
  else (f, false)

/-- The indices of a key, in the order of its hashes. -/
def indices (key : Key) : List ℕ := (List.range f.numHash).map (f.computeHash hash key)

/-! ## Effect on one byte -/

/-- `byte++` up to 255. -/
def saturate (b : BitVec 8) : BitVec 8 := if b < 255 then b + 1 else b

variable {f hash}

theorem mightContain_iff {key : Key} :
    f.mightContain hash key = true ↔ ∀ i ∈ f.indices hash key, f.byteBitmap i ≠ 0 := by
  simp [mightContain, indices]

theorem add_eq (key : Key) : f.add hash key =
    { f with byteBitmap := Lib.touchAll saturate (f.indices hash key) f.byteBitmap } := by
  have hstep : ∀ (b : ℕ → BitVec 8) (index : ℕ),
      (if b index < 255 then Function.update b index (b index + 1) else b) =
        Function.update b index (saturate (b index)) := by
    intro b index
    unfold saturate
    split
    · rfl
    · rw [Function.update_eq_self]
  simp only [add, hstep]
  rw [Lib.touchAll, indices, List.foldl_map]

theorem remove_eq (key : Key) : f.remove hash key =
    if f.mightContain hash key then
      ({ f with byteBitmap := Lib.touchAll (· - 1) (f.indices hash key) f.byteBitmap }, true)
    else (f, false) := by
  rw [remove, Lib.touchAll, indices, List.foldl_map]

@[simp] theorem add_numHash (key : Key) : (f.add hash key).numHash = f.numHash := rfl
@[simp] theorem add_numBits (key : Key) : (f.add hash key).numBits = f.numBits := rfl

@[simp] theorem remove_numHash (key : Key) : (f.remove hash key).1.numHash = f.numHash := by
  unfold remove
  split
  · rfl
  · rfl

@[simp] theorem remove_numBits (key : Key) : (f.remove hash key).1.numBits = f.numBits := by
  unfold remove
  split
  · rfl
  · rfl

theorem indices_congr {g : Cbf} (hnumHash : g.numHash = f.numHash) (hnumBits : g.numBits = f.numBits)
    (key : Key) : g.indices hash key = f.indices hash key := by
  rw [indices, indices, hnumHash]
  apply List.map_congr_left
  intro i _
  rw [computeHash, computeHash, bitmapSize, bitmapSize, hnumBits]

/-- No hash of the key meets a full byte. -/
def Fits (f : Cbf) (hash : HashFuncs) (key : Key) : Prop :=
  ∀ i ∈ f.indices hash key, (f.byteBitmap i).toNat + (f.indices hash key).count i ≤ 255

instance (f : Cbf) (hash : HashFuncs) (key : Key) : Decidable (f.Fits hash key) :=
  inferInstanceAs (Decidable (∀ i ∈ f.indices hash key, _ ≤ _))

theorem saturate_toNat (b : BitVec 8) (h : b.toNat < 255) : (saturate b).toNat = b.toNat + 1 := by
  have hlt : b < 255 := h
  have hone : (1 : BitVec 8).toNat = 1 := rfl
  rw [saturate, if_pos hlt, BitVec.toNat_add, hone]
  omega

theorem saturate_toNat_le (b : BitVec 8) : (saturate b).toNat ≤ b.toNat + 1 := by
  by_cases h : b.toNat < 255
  · exact Nat.le_of_eq (saturate_toNat b h)
  · have hlt : ¬ b < 255 := h
    rw [saturate, if_neg hlt]
    exact Nat.le_succ _

theorem drop_toNat (b : BitVec 8) (h : 0 < b.toNat) : (b - 1).toNat = b.toNat - 1 := by
  have hone : (1 : BitVec 8).toNat = 1 := rfl
  have hlt := b.isLt
  rw [BitVec.toNat_sub, hone]
  omega

theorem add_toNat {key : Key} (h : f.Fits hash key) (i : ℕ) :
    ((f.add hash key).byteBitmap i).toNat =
      (f.byteBitmap i).toNat + (f.indices hash key).count i := by
  rw [add_eq]
  dsimp only
  rw [Lib.touchAll_apply]
  by_cases hi : i ∈ f.indices hash key
  · exact Lib.iterate_up saturate_toNat _ _ (h i hi)
  · rw [List.count_eq_zero_of_not_mem hi]
    rfl

/-- The removal of a key whose hashes were all counted. -/
theorem remove_toNat {key : Key} (hfound : f.mightContain hash key = true)
    (h : ∀ i, (f.indices hash key).count i ≤ (f.byteBitmap i).toNat) (i : ℕ) :
    ((f.remove hash key).1.byteBitmap i).toNat =
      (f.byteBitmap i).toNat - (f.indices hash key).count i := by
  rw [remove_eq, if_pos hfound]
  dsimp only
  rw [Lib.touchAll_apply]
  exact Lib.iterate_down drop_toNat _ _ (h i)

end Cbf

end CleancacheRdma.Driver
