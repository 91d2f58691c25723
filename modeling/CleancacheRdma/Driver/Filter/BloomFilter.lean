import CleancacheRdma.Daemon.Basic
import CleancacheRdma.Lib.Bitmap

/-!
# The client's Bloom filter

Translated from `filter/bloom_filter.{h,c}` of the driver. While a refresh is
going on (`merging`), keys are added to the temporary bitmap, and a lookup tries
that one first.
-/

namespace CleancacheRdma.Driver

open Daemon (Key HashFuncs)
open Lib (Bitmap)

/-- `bf_t`. -/
structure BloomFilter where
  numHash : ℕ
  numBits : ℕ
  bitmap : Bitmap 64
  tmpBitmap : Bitmap 64
  merging : ℕ

namespace BloomFilter

/-- `bf_init`. -/
def init (numHash numBits : ℕ) : BloomFilter := ⟨numHash, numBits, Bitmap.zero, Bitmap.zero, 0⟩

variable (f : BloomFilter) (hash : HashFuncs)

def computeHash (key : Key) (i : ℕ) : ℕ := hash i key % f.numBits

/-- The word of a hash and the bit in it. -/
def calcBitidx (keyHash : ℕ) : ℕ × BitVec 64 := (keyHash / 64, 1#64 <<< (keyHash % 64))

def checkMerging : Bool := 0 < f.merging

/-- `BITS_TO_LONGS(num_bits)`. -/
def numLongs : ℕ := (f.numBits + 63) / 64

/-- The loops of `bf_add`. -/
def setBits (key : Key) (bitmap : Bitmap 64) : Bitmap 64 :=
  (List.range f.numHash).foldl
    (fun b i =>
      let r := calcBitidx (f.computeHash hash key i)
      Function.update b r.1 (b r.1 ||| r.2))
    bitmap

def add (key : Key) : BloomFilter :=
  if f.checkMerging then { f with tmpBitmap := f.setBits hash key f.tmpBitmap }
  else { f with bitmap := f.setBits hash key f.bitmap }

/-- The loops of `bf_might_contain`. -/
def testBits (key : Key) (bitmap : Bitmap 64) : Bool :=
  (List.range f.numHash).all fun i =>
    let r := calcBitidx (f.computeHash hash key i)
    bitmap r.1 &&& r.2 ≠ 0#64

def mightContain (key : Key) : Bool :=
  if f.checkMerging && f.testBits hash key f.tmpBitmap then true else f.testBits hash key f.bitmap

/-- One pass of the loop of `bf_blocking`. -/
def zeroWord (i : ℕ) : BloomFilter := { f with tmpBitmap := f.tmpBitmap.copyWord Bitmap.zero i }

def setMerging (merging : ℕ) : BloomFilter := { f with merging := merging }

/-- One pass of the loop of `bf_merge`. -/
def mergeWord (i : ℕ) : BloomFilter := { f with bitmap := f.bitmap.orWord f.tmpBitmap i }

/-- The remote write of one word. -/
def writeWord (snapshot : Bitmap 64) (i : ℕ) : BloomFilter :=
  { f with bitmap := f.bitmap.copyWord snapshot i }

def blocking : BloomFilter := ((List.range f.numLongs).foldl zeroWord f).setMerging 1

def merge : BloomFilter := (List.range f.numLongs).foldl mergeWord f

def unblocking : BloomFilter := (f.setMerging 0).merge

/-- The remote write of all words. -/
def writeBitmap (snapshot : Bitmap 64) : BloomFilter :=
  (List.range f.numLongs).foldl (fun f => f.writeWord snapshot) f

/-- The remote write of the words a daemon sends. -/
def receive (words : List (BitVec 64)) : BloomFilter :=
  (List.range words.length).foldl (fun f => f.writeWord fun i => words.getD i 0) f

/-! ## The bits of a key -/

/-- The bits of a key, in the order of its hashes. -/
def indices (key : Key) : List ℕ := (List.range f.numHash).map (f.computeHash hash key)

/-- All bits of the key are set in `bitmap`. -/
def Holds (bitmap : Bitmap 64) (key : Key) : Prop := ∀ i ∈ f.indices hash key, bitmap.Test i

variable {f hash}

theorem setBits_eq (key : Key) (bitmap : Bitmap 64) :
    f.setBits hash key bitmap = (f.indices hash key).foldl Bitmap.set bitmap := by
  rw [indices, List.foldl_map]
  rfl

theorem testBits_iff {key : Key} {bitmap : Bitmap 64} :
    f.testBits hash key bitmap = true ↔ f.Holds hash bitmap key := by
  simp only [testBits, calcBitidx, List.all_eq_true, decide_eq_true_eq, Holds, indices,
    List.mem_map, forall_exists_index, and_imp, forall_apply_eq_imp_iff₂,
    Bitmap.and_ne_zero_iff (by decide : 0 < 64)]

theorem mightContain_iff {key : Key} :
    f.mightContain hash key = true ↔
      0 < f.merging ∧ f.Holds hash f.tmpBitmap key ∨ f.Holds hash f.bitmap key := by
  rw [mightContain, ← testBits_iff, ← testBits_iff, checkMerging]
  split
  next h => simp_all
  next h => simp_all

theorem test_setBits {key : Key} {bitmap : Bitmap 64} {i : ℕ} :
    (f.setBits hash key bitmap).Test i ↔ bitmap.Test i ∨ i ∈ f.indices hash key := by
  rw [setBits_eq, Bitmap.test_foldl_set (by decide)]

theorem holds_setBits (key : Key) (bitmap : Bitmap 64) :
    f.Holds hash (f.setBits hash key bitmap) key :=
  fun _ hi => test_setBits.mpr (Or.inr hi)

theorem sub_setBits (key : Key) (bitmap : Bitmap 64) : bitmap.Sub (f.setBits hash key bitmap) :=
  fun _ hi => test_setBits.mpr (Or.inl hi)

theorem Holds.mono {b c : Bitmap 64} {key : Key} (h : f.Holds hash b key) (hsub : b.Sub c) :
    f.Holds hash c key :=
  fun i hi => hsub i (h i hi)

/-- The bits of a key depend on the two parameters of the filter only. -/
theorem indices_congr {g : BloomFilter} (hhash : g.numHash = f.numHash)
    (hbits : g.numBits = f.numBits) (key : Key) : g.indices hash key = f.indices hash key := by
  rw [indices, indices, hhash]
  apply List.map_congr_left
  intro i _
  rw [computeHash, computeHash, hbits]

/-! ## `bf_add` -/

@[simp] theorem add_numHash (key : Key) : (f.add hash key).numHash = f.numHash := by
  unfold add
  split <;> rfl

@[simp] theorem add_numBits (key : Key) : (f.add hash key).numBits = f.numBits := by
  unfold add
  split <;> rfl

@[simp] theorem add_merging (key : Key) : (f.add hash key).merging = f.merging := by
  unfold add
  split <;> rfl

theorem indices_add (k key : Key) : (f.add hash k).indices hash key = f.indices hash key :=
  indices_congr (add_numHash k) (add_numBits k) key

/-- The bitmap that `bf_add` writes. -/
def current (f : BloomFilter) : Bitmap 64 := if f.checkMerging then f.tmpBitmap else f.bitmap

theorem current_add (key : Key) : (f.add hash key).current = f.setBits hash key f.current := by
  by_cases h : f.checkMerging = true
  · have hcurrent : f.current = f.tmpBitmap := if_pos h
    rw [add, if_pos h, hcurrent]
    exact if_pos h
  · have hcurrent : f.current = f.bitmap := if_neg h
    rw [add, if_neg h, hcurrent]
    exact if_neg h

theorem holds_current_add (key : Key) : f.Holds hash (f.add hash key).current key := by
  rw [current_add]
  exact holds_setBits key f.current

/-- The bit is set where a lookup may find it. -/
def Seen (f : BloomFilter) (i : ℕ) : Prop := f.bitmap.Test i ∨ 0 < f.merging ∧ f.tmpBitmap.Test i

theorem seen_of_current {i : ℕ} (h : f.current.Test i) : f.Seen i := by
  unfold current at h
  split at h
  next hmerging => exact Or.inr ⟨of_decide_eq_true hmerging, h⟩
  · exact Or.inl h

theorem bitmap_sub_add (key : Key) : f.bitmap.Sub (f.add hash key).bitmap := by
  unfold add
  split
  · exact Bitmap.Sub.refl _
  · exact sub_setBits key f.bitmap

theorem tmpBitmap_sub_add (key : Key) : f.tmpBitmap.Sub (f.add hash key).tmpBitmap := by
  unfold add
  split
  · exact sub_setBits key f.tmpBitmap
  · exact Bitmap.Sub.refl _

theorem Seen.add {i : ℕ} (h : f.Seen i) (key : Key) : (f.add hash key).Seen i := by
  refine h.imp (bitmap_sub_add key i) fun ⟨hpos, htmp⟩ => ⟨?_, tmpBitmap_sub_add key i htmp⟩
  rw [add_merging]
  exact hpos

theorem test_tmpBitmap_add {key : Key} {j : ℕ} (h : (f.add hash key).tmpBitmap.Test j) :
    f.tmpBitmap.Test j ∨ f.checkMerging = true ∧ j ∈ f.indices hash key := by
  unfold add at h
  split at h
  next hmerging => exact (test_setBits.mp h).imp_right fun hj => ⟨hmerging, hj⟩
  · exact Or.inl h

theorem mightContain_of_current {key : Key} (h : f.Holds hash f.current key) :
    f.mightContain hash key = true := by
  apply mightContain_iff.mpr
  unfold current at h
  split at h
  next hmerging => exact Or.inl ⟨of_decide_eq_true hmerging, h⟩
  · exact Or.inr h

theorem index_lt (hbits : 0 < f.numBits) {key : Key} {i : ℕ} (hi : i ∈ f.indices hash key) :
    i < f.numBits := by
  obtain ⟨j, -, rfl⟩ := List.mem_map.mp hi
  exact Nat.mod_lt _ hbits

theorem word_lt {i : ℕ} (hi : i < f.numBits) : i / 64 < f.numLongs := by
  unfold numLongs
  omega

/-! ## The loops over the words -/

theorem foldl_zeroWord (n : ℕ) : (List.range n).foldl zeroWord f =
    { f with
      tmpBitmap := (List.range n).foldl (fun b i => b.copyWord Bitmap.zero i) f.tmpBitmap } := by
  induction n with
  | zero => rfl
  | succ n ih =>
      rw [List.range_succ, List.foldl_append, List.foldl_append, ih]
      rfl

theorem foldl_mergeWord (n : ℕ) : (List.range n).foldl mergeWord f =
    { f with bitmap := (List.range n).foldl (fun b i => b.orWord f.tmpBitmap i) f.bitmap } := by
  induction n with
  | zero => rfl
  | succ n ih =>
      rw [List.range_succ, List.foldl_append, List.foldl_append, ih]
      rfl

theorem numLongs_foldl_zeroWord (n : ℕ) :
    ((List.range n).foldl zeroWord f).numLongs = f.numLongs := by
  rw [foldl_zeroWord]
  rfl

theorem numLongs_foldl_mergeWord (n : ℕ) :
    ((List.range n).foldl mergeWord f).numLongs = f.numLongs := by
  rw [foldl_mergeWord]
  rfl

theorem unblocking_eq : f.unblocking =
    { f with
      bitmap := (List.range f.numLongs).foldl (fun b i => b.orWord f.tmpBitmap i) f.bitmap
      merging := 0 } :=
  foldl_mergeWord f.numLongs

theorem test_unblocking {i : ℕ} (hi : i < f.numBits) :
    f.unblocking.bitmap.Test i ↔ f.bitmap.Test i ∨ f.tmpBitmap.Test i := by
  rw [unblocking_eq, Bitmap.test_foldl_orWord]
  simp only [word_lt hi, true_and]

theorem blocking_eq : f.blocking =
    { f with
      tmpBitmap := (List.range f.numLongs).foldl (fun b i => b.copyWord Bitmap.zero i) f.tmpBitmap
      merging := 1 } := by
  rw [blocking, foldl_zeroWord]
  rfl

theorem foldl_writeWord (snapshot : Bitmap 64) (n : ℕ) :
    (List.range n).foldl (fun f => f.writeWord snapshot) f =
      { f with bitmap := (List.range n).foldl (fun b i => b.copyWord snapshot i) f.bitmap } := by
  induction n with
  | zero => rfl
  | succ n ih =>
      rw [List.range_succ, List.foldl_append, List.foldl_append, ih]
      rfl

theorem receive_eq (words : List (BitVec 64)) : f.receive words =
    { f with
      bitmap := (List.range words.length).foldl
        (fun b i => b.copyWord (fun i => words.getD i 0) i) f.bitmap } :=
  foldl_writeWord _ _

theorem test_receive {words : List (BitVec 64)} {i : ℕ} (hi : i / 64 < words.length) :
    (f.receive words).bitmap.Test i ↔ Bitmap.Test (fun i => words.getD i 0) i := by
  rw [receive_eq, Bitmap.test_foldl_copyWord, if_pos hi]

end BloomFilter

end CleancacheRdma.Driver
