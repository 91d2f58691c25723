import Mathlib
import CleancacheRdma.Daemon.Snapshot
import CleancacheRdma.Driver.Filter.BloomFilter

/-!
# What the client sees of a shipped filter

The lookups with the widths of their C types: `compute_hash` and `calc_bitidx`
of the driver, `computeHash` and `BFMightContain` of the daemon, and the sizes
that each side computes for the bitmap. Then one filter update: the words sent,
and what the client finds in its bitmap after them.
-/

namespace CleancacheRdma.Daemon.CountingBloomFilter

open Lib (Bitmap)

variable (f : CountingBloomFilter) (hash : HashFuncs)

/-- `BFMightContain`. -/
def bfMightContain (o : Key) : Bool :=
  (List.range f.numHash).all fun i =>
    let idx := f.computeHash hash o i
    let checkBit := 1#64 <<< (idx % 64)
    f.bfLongBitarr (idx / 64) &&& checkBit ≠ 0#64

variable {f hash}

theorem bfMightContain_iff {o : Key} : f.bfMightContain hash o = true ↔
    ∀ i ∈ f.indices hash o, Bitmap.Test f.bfLongBitarr i := by
  simp only [bfMightContain, List.all_eq_true, decide_eq_true_eq, indices, List.mem_map,
    forall_exists_index, and_imp, forall_apply_eq_imp_iff₂,
    Bitmap.and_ne_zero_iff (by decide : 0 < 64)]

theorem index_lt (hbits : 0 < f.numBits) {o : Key} {i : ℕ} (hi : i ∈ f.indices hash o) :
    i < f.numBits := by
  obtain ⟨j, -, rfl⟩ := List.mem_map.mp hi
  exact Nat.mod_lt _ hbits

theorem byte_pos_iff {b : BitVec 8} : 0 < b ↔ b ≠ 0 := by
  show 0 < b.toNat ↔ b ≠ 0
  rw [Nat.pos_iff_ne_zero]
  exact not_congr (BitVec.toNat_inj (y := 0))

/-- Right after the conversion both lookups of the daemon agree. -/
theorem bfMightContain_toOrdinaryBF (hbits : 0 < f.numBits) (o : Key) :
    f.toOrdinaryBF.bfMightContain hash o = f.mightContain hash o := by
  have hindices : f.toOrdinaryBF.indices hash o = f.indices hash o := indices_congr rfl rfl o
  rw [Bool.eq_iff_iff, bfMightContain_iff, mightContain_iff, hindices]
  refine forall₂_congr fun i hi => ?_
  rw [test_toOrdinaryBF (index_lt hbits hi)]
  exact byte_pos_iff

/-- Also behind the last bit, up to the end of the last word. -/
theorem test_toOrdinaryBF_iff {i : ℕ} (hi : i / 64 < f.numLongs) :
    Bitmap.Test f.toOrdinaryBF.bfLongBitarr i ↔ i < f.numBits ∧ 0 < f.cbfByteBitarr i := by
  have hzero : ¬ Bitmap.Test (fun j => if j < f.numLongs then 0 else f.bfLongBitarr j) i := by
    intro htest
    simp [Bitmap.Test, hi] at htest
  exact test_foldl_bytes.trans (or_iff_right hzero)

/-- `GetNumLongs() * sizeof(unsigned long)` as the `uint32_t` of an `ibv_sge`. -/
def sgeLength (numBits : BitVec 32) : BitVec 32 :=
  let numLongs : BitVec 64 := (numBits.setWidth 64 + 8 * 8 - 1) / (8 * 8)
  (numLongs * 8).setWidth 32

theorem numLongs64_toNat (numBits : BitVec 32) :
    ((numBits.setWidth 64 + 64 - 1) / 64 : BitVec 64).toNat = (numBits.toNat + 63) / 64 := by
  have hlt := numBits.isLt
  have hsum : (numBits.setWidth 64 + 64 - 1 : BitVec 64).toNat = numBits.toNat + 63 := by
    bv_omega
  rw [BitVec.toNat_udiv, hsum]
  rfl

theorem sgeLength_toNat (numBits : BitVec 32) :
    (sgeLength numBits).toNat = (numBits.toNat + 63) / 64 * 8 := by
  have hlt := numBits.isLt
  have hlongs := numLongs64_toNat numBits
  show (((numBits.setWidth 64 + 64 - 1) / 64 * 8 : BitVec 64).setWidth 32).toNat = _
  have height : (8 : BitVec 64).toNat = 8 := rfl
  rw [BitVec.toNat_setWidth, BitVec.toNat_mul, hlongs, height]
  omega

end CleancacheRdma.Daemon.CountingBloomFilter

namespace CleancacheRdma.Driver

open Daemon (Key HashFuncs Server Reply Draw CountingBloomFilter numDataQps FILTER_UPDATE_BEGIN
  FILTER_UPDATE_END NONE)
open Lib (Bitmap)

/-! ## The driver's lookup in 32 bits -/

/-- `compute_hash`: a `size_t` remainder, returned as `uint32_t`. -/
def computeHash32 (h : BitVec 64) (numBits : BitVec 32) : BitVec 32 :=
  (h % numBits.setWidth 64).setWidth 32

/-- `calc_bitidx`. -/
def calcBitidx32 (keyHash : BitVec 32) : BitVec 32 × BitVec 64 :=
  (keyHash / 64, 1#64 <<< (keyHash % 64))

/-- `BITS_TO_LONGS(num_bits) * sizeof(unsigned long)` of `bf_init` and of the
allocation of `filter_mm_pool`. -/
def bitmapSize (numBits : BitVec 32) : BitVec 64 := (numBits.setWidth 64 + 64 - 1) / 64 * 8

/-- The functions of both sides return `size_t`. -/
abbrev hashFuncs (hash : ℕ → Key → BitVec 64) : HashFuncs := fun i key => (hash i key).toNat

theorem computeHash32_toNat {h : BitVec 64} {n : ℕ} (hpos : 0 < n) (hn : n < 2 ^ 32) :
    (computeHash32 h (BitVec.ofNat 32 n)).toNat = h.toNat % n := by
  have hval : ((BitVec.ofNat 32 n).setWidth 64).toNat = n := by
    rw [BitVec.toNat_setWidth, BitVec.toNat_ofNat]
    omega
  have hlt : h.toNat % n < n := Nat.mod_lt _ hpos
  rw [computeHash32, BitVec.toNat_setWidth, BitVec.toNat_umod, hval]
  exact Nat.mod_eq_of_lt (hlt.trans hn)

theorem bitmapSize_toNat (numBits : BitVec 32) :
    (bitmapSize numBits).toNat = (numBits.toNat + 63) / 64 * 8 := by
  have hlt := numBits.isLt
  have height : (8 : BitVec 64).toNat = 8 := rfl
  rw [bitmapSize, BitVec.toNat_mul, CountingBloomFilter.numLongs64_toNat, height]
  omega

namespace BloomFilter

variable {hash : ℕ → Key → BitVec 64} {f : BloomFilter}

/-- `bf_might_contain` on one bitmap, `i` being a `uint8_t` below `num_hash`. -/
def testBits32 (hash : ℕ → Key → BitVec 64) (f : BloomFilter) (key : Key) (bitmap : Bitmap 64) :
    Bool :=
  (List.range f.numHash).all fun i =>
    let r := calcBitidx32 (computeHash32 (hash i key) (BitVec.ofNat 32 f.numBits))
    bitmap r.1.toNat &&& r.2 ≠ 0#64

/-- Nothing is cut off on the way. -/
theorem testBits32_eq (hpos : 0 < f.numBits) (hbits : f.numBits < 2 ^ 32) (key : Key)
    (bitmap : Bitmap 64) :
    testBits32 hash f key bitmap = f.testBits (hashFuncs hash) key bitmap := by
  have hidx : ∀ i, (calcBitidx32 (computeHash32 (hash i key) (BitVec.ofNat 32 f.numBits))).1.toNat =
      (calcBitidx (f.computeHash (hashFuncs hash) key i)).1 := by
    intro i
    show (computeHash32 (hash i key) (BitVec.ofNat 32 f.numBits) / 64).toNat = _
    rw [BitVec.toNat_udiv, computeHash32_toNat hpos hbits]
    rfl
  have hbit : ∀ i, (calcBitidx32 (computeHash32 (hash i key) (BitVec.ofNat 32 f.numBits))).2 =
      (calcBitidx (f.computeHash (hashFuncs hash) key i)).2 := by
    intro i
    show 1#64 <<< (computeHash32 (hash i key) (BitVec.ofNat 32 f.numBits) % 64).toNat = _
    rw [BitVec.toNat_umod, computeHash32_toNat hpos hbits]
    rfl
  unfold testBits32 testBits
  dsimp only
  simp only [hidx, hbit]

end BloomFilter

/-! ## One filter update -/

/-- What a client with filter `c` has after it has received `words` for the
daemon's filter `f`. -/
structure Shipped (hash : ℕ → Key → BitVec 64) (f : CountingBloomFilter) (c : BloomFilter)
    (words : List (BitVec 64)) : Prop where
  lookup : ∀ key, (c.receive words).mightContain (hashFuncs hash) key =
    f.mightContain (hashFuncs hash) key
  lookup32 : ∀ key, c.testBits32 hash key (c.receive words).bitmap =
    f.mightContain (hashFuncs hash) key
  bfLookup : ∀ key, (c.receive words).mightContain (hashFuncs hash) key =
    f.toOrdinaryBF.bfMightContain (hashFuncs hash) key
  -- the words are those reserved, on both sides
  reserved : 8 * words.length = (bitmapSize (BitVec.ofNat 32 c.numBits)).toNat
  sent : 8 * words.length = (CountingBloomFilter.sgeLength (BitVec.ofNat 32 f.numBits)).toNat
  -- in them there are the bits of this snapshot only
  fresh : ∀ i, i / 64 < words.length →
    ((c.receive words).bitmap.Test i ↔ i < c.numBits ∧ 0 < f.cbfByteBitarr i)
  frame : ∀ j, words.length ≤ j → (c.receive words).bitmap j = c.bitmap j

namespace BloomFilter

variable {f : BloomFilter}

theorem receive_frame {words : List (BitVec 64)} {j : ℕ} (hj : words.length ≤ j) :
    (f.receive words).bitmap j = f.bitmap j := by
  have hloop : ∀ n ≤ j, ∀ b : Bitmap 64, ((List.range n).foldl
      (fun b i => b.copyWord (fun i => words.getD i 0) i) b) j = b j := by
    intro n
    induction n with
    | zero => exact fun _ _ => rfl
    | succ n ih =>
        intro hn b
        rw [List.range_succ, List.foldl_append, List.foldl_cons, List.foldl_nil, Bitmap.copyWord,
          Function.update_of_ne (by omega), ih (by omega)]
  rw [receive_eq]
  exact hloop _ hj _

theorem receive_merging (words : List (BitVec 64)) : (f.receive words).merging = f.merging := by
  rw [receive_eq]

theorem receive_indices (hash : HashFuncs) (words : List (BitVec 64)) (key : Key) :
    (f.receive words).indices hash key = f.indices hash key := by
  rw [receive_eq]
  rfl

end BloomFilter

section Receive

variable {hash : ℕ → Key → BitVec 64} {f : CountingBloomFilter} {c : BloomFilter}

/-- The words that `send_bf` ships. -/
def sentWords (f : CountingBloomFilter) : List (BitVec 64) :=
  (List.range f.numLongs).map f.toOrdinaryBF.bfLongBitarr

theorem sentWords_length : (sentWords f).length = f.numLongs := by
  rw [sentWords, List.length_map, List.length_range]

/-- A word of the client's bitmap is that of the snapshot, whatever it was. -/
theorem test_receive_sentWords {i : ℕ} (hi : i / 64 < f.numLongs) :
    (c.receive (sentWords f)).bitmap.Test i ↔ i < f.numBits ∧ 0 < f.cbfByteBitarr i := by
  rw [BloomFilter.test_receive (sentWords_length.symm ▸ hi),
    ← CountingBloomFilter.test_toOrdinaryBF_iff hi]
  simp [Bitmap.Test, sentWords, List.getD_eq_getElem?_getD, hi]

theorem receive_mightContain_iff (hidle : c.merging = 0) {funcs : HashFuncs}
    {words : List (BitVec 64)} {key : Key} : (c.receive words).mightContain funcs key = true ↔
      ∀ i ∈ c.indices funcs key, (c.receive words).bitmap.Test i := by
  rw [BloomFilter.mightContain_iff, BloomFilter.receive_merging, hidle]
  simp only [lt_irrefl, false_and, false_or, BloomFilter.Holds, BloomFilter.receive_indices]

/-- The words of a snapshot, received by a client whose filter has the same
shape and is not merging. -/
theorem Shipped.of_sentWords (hnumHash : c.numHash = f.numHash) (hnumBits : c.numBits = f.numBits)
    (hpos : 0 < f.numBits) (hbits : f.numBits < 2 ^ 32) (hidle : c.merging = 0) :
    Shipped hash f c (sentWords f) := by
  have hindices : ∀ key, c.indices (hashFuncs hash) key = f.indices (hashFuncs hash) key := by
    intro key
    rw [BloomFilter.indices, CountingBloomFilter.indices, hnumHash]
    apply List.map_congr_left
    intro i _
    rw [BloomFilter.computeHash, CountingBloomFilter.computeHash, hnumBits]
  have hholds : ∀ key, (∀ i ∈ c.indices (hashFuncs hash) key,
      (c.receive (sentWords f)).bitmap.Test i) ↔ f.mightContain (hashFuncs hash) key = true := by
    intro key
    rw [hindices, CountingBloomFilter.mightContain_iff]
    refine forall₂_congr fun i hi => ?_
    have hlt := CountingBloomFilter.index_lt hpos hi
    rw [test_receive_sentWords (CountingBloomFilter.word_lt hlt), and_iff_right hlt]
    exact CountingBloomFilter.byte_pos_iff
  have hlookup : ∀ key, (c.receive (sentWords f)).mightContain (hashFuncs hash) key =
      f.mightContain (hashFuncs hash) key := by
    intro key
    rw [Bool.eq_iff_iff, receive_mightContain_iff hidle]
    exact hholds key
  have hval : (BitVec.ofNat 32 f.numBits).toNat = f.numBits := by
    rw [BitVec.toNat_ofNat, Nat.mod_eq_of_lt hbits]
  constructor
  · exact hlookup
  · intro key
    rw [BloomFilter.testBits32_eq (hnumBits ▸ hpos) (hnumBits ▸ hbits), Bool.eq_iff_iff,
      BloomFilter.testBits_iff]
    exact hholds key
  · intro key
    rw [hlookup, CountingBloomFilter.bfMightContain_toOrdinaryBF hpos]
  · rw [sentWords_length, hnumBits, bitmapSize_toNat, hval, CountingBloomFilter.numLongs]
    omega
  · rw [sentWords_length, CountingBloomFilter.sgeLength_toNat, hval, CountingBloomFilter.numLongs]
    omega
  · intro i hi
    rw [sentWords_length] at hi
    rw [test_receive_sentWords hi, hnumBits]
  · intro j hj
    exact BloomFilter.receive_frame hj

end Receive

/-- The daemon keeps the snapshot beside the counters. -/
theorem step_filterUpdate_cbfs {Page : Type} {hash : HashFuncs} {exclusivePolicy : Bool}
    {s s' : Server Page} {cid : ℕ} {d : Draw} {r : Option (Reply Page)}
    (hstep : s.step hash exclusivePolicy
      (.send cid numDataQps .empty FILTER_UPDATE_BEGIN d) = some (s', r)) :
    s'.kv.cbfs cid = (s.kv.cbfs cid).toOrdinaryBF := by
  obtain ⟨addr, t, -, hdeliver, hrecv⟩ := Server.step_send hstep
  unfold Server.processRecv at hrecv
  rw [if_pos ⟨rfl, rfl⟩] at hrecv
  obtain ⟨hs, -⟩ := Prod.mk.inj (Except.ok.inj hrecv)
  rw [← hs, (Server.deliver_some hdeliver).1]
  exact Function.update_self _ _ _

/-- A filter update: the daemon converts its counters, the words go over the
connection, and a client that is not merging sees what the daemon sees. -/
theorem filterUpdate_shipped {Page : Type} {hash : ℕ → Key → BitVec 64} {exclusivePolicy : Bool}
    {s s' : Server Page} {cid : ℕ} {d : Draw} {r : Option (Reply Page)} {c : BloomFilter}
    (hnumHash : c.numHash = (s.kv.cbfs cid).numHash)
    (hnumBits : c.numBits = (s.kv.cbfs cid).numBits) (hpos : 0 < c.numBits)
    (hbits : c.numBits < 2 ^ 32) (hidle : c.merging = 0)
    (hstep : s.step (hashFuncs hash) exclusivePolicy
      (.send cid numDataQps .empty FILTER_UPDATE_BEGIN d) = some (s', r)) :
    s'.kv.cbfs cid = (s.kv.cbfs cid).toOrdinaryBF ∧
      ∃ words, r = some ⟨FILTER_UPDATE_END, .bitmap words, s.clientMR cid⟩ ∧
        Shipped hash (s.kv.cbfs cid) c words := by
  refine ⟨step_filterUpdate_cbfs hstep, _, Server.step_filterUpdate hstep, ?_⟩
  exact Shipped.of_sentWords hnumHash hnumBits (hnumBits ▸ hpos) (hnumBits ▸ hbits) hidle

/-- One key counted, seventy bits, an old bitmap of ones. -/
def shippingServer : Server ℕ :=
  { Server.new 4096 (2 ^ 20) 1 2 70 fun _ => ⟨0, 0⟩ with
    recvs := fun _ => [NONE]
    kv := { Daemon.KV.new 4096 (2 ^ 20) 1 2 70 with
      cbfs := fun _ => (CountingBloomFilter.new 2 70).insert (fun i key => i + key.toNat) 68 } }

theorem filterUpdate_shipped_server :
    ∃ s' r words, shippingServer.step (hashFuncs fun i key => BitVec.ofNat 64 i + key) true
        (.send 0 numDataQps .empty FILTER_UPDATE_BEGIN {}) = some (s', r) ∧
      r = some ⟨FILTER_UPDATE_END, .bitmap words, 0⟩ ∧
      Shipped (fun i key => BitVec.ofNat 64 i + key) (shippingServer.kv.cbfs 0)
        ⟨2, 70, fun _ => BitVec.allOnes 64, Bitmap.zero, 0⟩ words := by
  obtain ⟨⟨s', r⟩, hstep⟩ := Server.step_filterUpdate_some (s := shippingServer)
    (hashFuncs fun i key => BitVec.ofNat 64 i + key) true {} rfl
  obtain ⟨-, words, hr, hshipped⟩ := filterUpdate_shipped
    (c := ⟨2, 70, fun _ => BitVec.allOnes 64, Bitmap.zero, 0⟩) rfl rfl (by decide) (by decide) rfl
    hstep
  exact ⟨s', r, words, hstep, hr, hshipped⟩

end CleancacheRdma.Driver
