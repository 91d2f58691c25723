import CleancacheRdma.Daemon.Basic
import CleancacheRdma.Lib.Counters

/-!
# `CountingBloomFilter`, the per-client filter

Translated from `counting_bloom_filter.hpp`: one byte per index, `num_hash_`
indices per key, which need not be distinct. `Insert` lets a full byte restart
at one, `Remove` looks the key up first and leaves the bytes alone if one of
them is zero.
-/

namespace CleancacheRdma.Daemon

structure CountingBloomFilter where
  numHash : ℕ
  numBits : ℕ
  cbfByteBitarr : ℕ → BitVec 8
  bfLongBitarr : ℕ → BitVec 64

namespace CountingBloomFilter

/-- The constructor. -/
def new (numHash numBits : ℕ) : CountingBloomFilter :=
  ⟨numHash, numBits, fun _ => 0, fun _ => 0⟩

variable (f : CountingBloomFilter) (hash : HashFuncs)

def computeHash (key : Key) (salt : ℕ) : ℕ := hash salt key % f.numBits

/-- The indices of a key, in the order of its hashes. -/
def indices (key : Key) : List ℕ := (List.range f.numHash).map (f.computeHash hash key)

/-- `byte++`, restarting at one after 255. -/
def bump (b : BitVec 8) : BitVec 8 := if b < 255 then b + 1 else 1

def insert (o : Key) : CountingBloomFilter :=
  { f with
    cbfByteBitarr := (List.range f.numHash).foldl
      (fun c i => Function.update c (f.computeHash hash o i) (bump (c (f.computeHash hash o i))))
      f.cbfByteBitarr }

/-- The loop of both overloads of `MightContain`, from hash `i` on. The
indices computed are left in `idxRes`, where `-1` is `none`. -/
def mightContainLoop (o : Key) : ℕ → ℕ → (ℕ → Option ℕ) → Bool × (ℕ → Option ℕ)
  | 0, _, idxRes => (true, idxRes)
  | n + 1, i, idxRes =>
      let idx := f.computeHash hash o i
      let idxRes := Function.update idxRes i (some idx)
      if f.cbfByteBitarr idx = 0 then (false, idxRes)
      else mightContainLoop o n (i + 1) idxRes

def mightContainIdx (o : Key) (idxRes : ℕ → Option ℕ) : Bool × (ℕ → Option ℕ) :=
  f.mightContainLoop hash o f.numHash 0 idxRes

def mightContain (o : Key) : Bool :=
  (List.range f.numHash).all fun i => f.cbfByteBitarr (f.computeHash hash o i) ≠ 0

def remove (o : Key) : CountingBloomFilter × Bool :=
  let r := f.mightContainIdx hash o fun _ => none
  if r.1 then
    let idx i := (r.2 i).getD (f.computeHash hash o i)
    ({ f with
       cbfByteBitarr := (List.range f.numHash).foldl
         (fun c i => Function.update c (idx i) (c (idx i) - 1)) f.cbfByteBitarr }, true)
  else (f, false)

/-- `BITS_TO_LONGS(num_bits)`. -/
def numLongs : ℕ := (f.numBits + 63) / 64

/-- One bit for each byte that is not zero. -/
def toOrdinaryBF : CountingBloomFilter :=
  { f with
    bfLongBitarr := (List.range f.numBits).foldl
      (fun bf i =>
        if 0 < f.cbfByteBitarr i then
          Function.update bf (i / 64) (bf (i / 64) ||| 1#64 <<< (i % 64))
        else bf)
      fun j => if j < f.numLongs then 0 else f.bfLongBitarr j }

/-! ## Effect on one byte -/

variable {f hash}

theorem insert_byte (o : Key) (i : ℕ) :
    (f.insert hash o).cbfByteBitarr i = bump^[(f.indices hash o).count i] (f.cbfByteBitarr i) := by
  rw [indices, ← Lib.touchAll_apply, Lib.touchAll, List.foldl_map]
  rfl

theorem iterate_insert_byte (o : Key) (i n : ℕ) :
    (((fun f => insert f hash o)^[n] f).cbfByteBitarr i) =
      bump^[n * (f.indices hash o).count i] (f.cbfByteBitarr i) := by
  induction n generalizing f with
  | zero => rw [Nat.zero_mul]; rfl
  | succ n ih =>
      have hsame : (f.insert hash o).indices hash o = f.indices hash o := rfl
      rw [Function.iterate_succ_apply, ih, hsame, insert_byte, ← Function.iterate_add_apply,
        Nat.succ_mul]

theorem indices_congr {g : CountingBloomFilter} (hnumHash : g.numHash = f.numHash)
    (hnumBits : g.numBits = f.numBits) (o : Key) : g.indices hash o = f.indices hash o := by
  rw [indices, indices, hnumHash]
  refine List.map_congr_left fun j _ => ?_
  rw [computeHash, computeHash, hnumBits]

theorem iterate_insert_indices (o k : Key) (n : ℕ) :
    ((fun f => insert f hash o)^[n] f).indices hash k = f.indices hash k := by
  induction n generalizing f with
  | zero => rfl
  | succ n ih =>
      rw [Function.iterate_succ_apply, ih]
      rfl

theorem mightContain_iff {o : Key} :
    f.mightContain hash o = true ↔ ∀ i ∈ f.indices hash o, f.cbfByteBitarr i ≠ 0 := by
  simp [mightContain, indices]

/-- The loop answers for the hashes it still has to look at and leaves what it
computed, which is what is computed again. -/
theorem mightContainLoop_spec {o : Key} (n : ℕ) : ∀ (i : ℕ) (idxRes : ℕ → Option ℕ),
    (∀ j idx, idxRes j = some idx → idx = f.computeHash hash o j) →
    ((f.mightContainLoop hash o n i idxRes).1 = true ↔
      ∀ j < n, f.cbfByteBitarr (f.computeHash hash o (i + j)) ≠ 0) ∧
    ∀ j idx, (f.mightContainLoop hash o n i idxRes).2 j = some idx →
      idx = f.computeHash hash o j := by
  induction n with
  | zero =>
      intro i idxRes hres
      exact ⟨by simp [mightContainLoop], hres⟩
  | succ n ih =>
      intro i idxRes hres
      have hres' : ∀ j idx, Function.update idxRes i (some (f.computeHash hash o i)) j = some idx →
          idx = f.computeHash hash o j := by
        intro j idx hj
        by_cases hji : j = i
        · subst hji
          rw [Function.update_self] at hj
          exact (Option.some.inj hj).symm
        · rw [Function.update_of_ne hji] at hj
          exact hres j idx hj
      rw [mightContainLoop]
      by_cases hzero : f.cbfByteBitarr (f.computeHash hash o i) = 0
      · rw [if_pos hzero]
        refine ⟨⟨fun h => by simp at h, fun h => absurd hzero (h 0 (Nat.succ_pos n))⟩, hres'⟩
      · rw [if_neg hzero]
        obtain ⟨hfound, hidx⟩ := ih (i + 1) _ hres'
        refine ⟨hfound.trans ⟨fun h j hj => ?_, fun h j hj => ?_⟩, hidx⟩
        · cases j with
          | zero => exact hzero
          | succ j =>
              rw [show i + (j + 1) = i + 1 + j by omega]
              exact h j (Nat.lt_of_succ_lt_succ hj)
        · rw [show i + 1 + j = i + (j + 1) by omega]
          exact h (j + 1) (Nat.succ_lt_succ hj)

/-- The two overloads agree. -/
theorem mightContainIdx_eq (o : Key) :
    (f.mightContainIdx hash o fun _ => none).1 = f.mightContain hash o := by
  rw [Bool.eq_iff_iff, mightContainIdx,
    (mightContainLoop_spec f.numHash 0 (fun _ => none) (by simp)).1]
  simp [mightContain]

theorem remove_eq (o : Key) : f.remove hash o =
    if f.mightContain hash o then
      ({ f with cbfByteBitarr := Lib.touchAll (· - 1) (f.indices hash o) f.cbfByteBitarr }, true)
    else (f, false) := by
  have hidx : ∀ i, ((f.mightContainIdx hash o fun _ => none).2 i).getD (f.computeHash hash o i) =
      f.computeHash hash o i := by
    intro i
    cases hr : (f.mightContainIdx hash o fun _ => none).2 i with
    | none => rfl
    | some idx =>
        exact (mightContainLoop_spec f.numHash 0 (fun _ => none) (by simp)).2 i idx hr
  simp only [remove, mightContainIdx_eq, hidx]
  rw [Lib.touchAll, indices, List.foldl_map]

theorem remove_byte {o : Key} (h : f.mightContain hash o = true) (i : ℕ) :
    (f.remove hash o).1.cbfByteBitarr i =
      (· - 1)^[(f.indices hash o).count i] (f.cbfByteBitarr i) := by
  rw [remove_eq, if_pos h]
  exact Lib.touchAll_apply (· - 1) (f.indices hash o) f.cbfByteBitarr i

@[simp] theorem insert_numHash (o : Key) : (f.insert hash o).numHash = f.numHash := rfl
@[simp] theorem insert_numBits (o : Key) : (f.insert hash o).numBits = f.numBits := rfl

@[simp] theorem remove_numHash (o : Key) : (f.remove hash o).1.numHash = f.numHash := by
  rw [remove_eq]
  split <;> rfl

@[simp] theorem remove_numBits (o : Key) : (f.remove hash o).1.numBits = f.numBits := by
  rw [remove_eq]
  split <;> rfl

/-! ## Counting without wrap-around -/

theorem bump_toNat (b : BitVec 8) (h : b.toNat < 255) : (bump b).toNat = b.toNat + 1 := by
  rw [bump, if_pos (by simpa [BitVec.lt_def] using h), BitVec.toNat_add]
  simp
  omega

theorem drop_toNat (b : BitVec 8) (h : 0 < b.toNat) : (b - 1).toNat = b.toNat - 1 := by
  rw [BitVec.toNat_sub]
  have := b.isLt
  simp
  omega

/-- No hash of the key meets a full byte. -/
def Fits (f : CountingBloomFilter) (hash : HashFuncs) (o : Key) : Prop :=
  ∀ i ∈ f.indices hash o, (f.cbfByteBitarr i).toNat + (f.indices hash o).count i ≤ 255

instance (o : Key) : Decidable (f.Fits hash o) := by
  unfold Fits
  infer_instance

theorem insert_toNat {o : Key} (h : f.Fits hash o) (i : ℕ) :
    ((f.insert hash o).cbfByteBitarr i).toNat =
      (f.cbfByteBitarr i).toNat + (f.indices hash o).count i := by
  rw [insert_byte]
  by_cases hi : i ∈ f.indices hash o
  · exact Lib.iterate_up bump_toNat _ _ (h i hi)
  · rw [List.count_eq_zero_of_not_mem hi]
    rfl

/-- `Remove` of a key whose hashes were all counted. -/
theorem remove_toNat {o : Key}
    (h : ∀ i, (f.indices hash o).count i ≤ (f.cbfByteBitarr i).toNat) (i : ℕ) :
    ((f.remove hash o).1.cbfByteBitarr i).toNat =
      (f.cbfByteBitarr i).toNat - (f.indices hash o).count i := by
  have hfound : f.mightContain hash o = true := by
    refine mightContain_iff.mpr fun j hj hzero => ?_
    have hpos := List.count_pos_iff.mpr hj
    have hle := h j
    rw [hzero] at hle
    simp at hle
    omega
  rw [remove_byte hfound]
  exact Lib.iterate_down drop_toNat _ _ (h i)

end CountingBloomFilter

end CleancacheRdma.Daemon
