import Mathlib
import CleancacheRdma.Driver.Backend

/-!
# Keys and the pages they are made of

`make_longkey` and the three functions that take a key apart, in the driver's
`backend.h` and in the daemon's `Ihash.hpp`. The mask of `longkey_to_offset`
takes in bit 28, the lowest bit of the inode.
-/

namespace CleancacheRdma.Driver

open Daemon (Key)
open Lib

namespace Backend

/-! ## The driver's copies -/

def longkeyToCid (longkey : Key) : BitVec 32 := (longkey >>> 60).setWidth 32

def longkeyToInode (longkey : Key) : BitVec 32 :=
  (longkey >>> (32 - 4) &&& (1#64 <<< 32 - 1)).setWidth 32

def longkeyToOffset (longkey : Key) : BitVec 32 :=
  (longkey &&& (1#64 <<< (28 + 1) - 1)).setWidth 32

/-- The three fields of a key, as the driver reads them. -/
def page (longkey : Key) : FilePage where
  cid := (longkeyToCid longkey).toNat
  ino := (longkeyToInode longkey).setWidth 64
  index := (longkeyToOffset longkey).setWidth 64

/-- The three fields of a key, as the daemon reads them. -/
def daemonPage (longkey : Key) : FilePage where
  cid := Daemon.longkeyToCid longkey
  ino := (Daemon.longkeyToInode longkey).setWidth 64
  index := (Daemon.longkeyToOffset longkey).setWidth 64

/-- The key the daemon's `make_longkey` makes, whose `index` is a `uint32_t`. -/
def daemonKey (p : FilePage) : Key :=
  Daemon.makeLongkey (BitVec.ofNat 64 p.cid) p.ino (p.index.setWidth 32)

/-! ## What a key is taken apart into -/

theorem longkeyToCid_toNat (key : Key) : (longkeyToCid key).toNat = key.toNat / 2 ^ 60 := by
  rw [longkeyToCid, BitVec.toNat_setWidth, BitVec.toNat_ushiftRight, Nat.shiftRight_eq_div_pow]
  exact Nat.mod_eq_of_lt (by omega)

theorem longkeyToInode_toNat (key : Key) :
    (longkeyToInode key).toNat = key.toNat / 2 ^ 28 % 2 ^ 32 := by
  rw [longkeyToInode, BitVec.toNat_setWidth, BitFields.toNat_field (k := 32) (by decide)]
  exact Nat.mod_mod _ _

theorem longkeyToOffset_toNat (key : Key) : (longkeyToOffset key).toNat = key.toNat % 2 ^ 29 := by
  rw [longkeyToOffset, BitVec.toNat_setWidth, ← BitVec.ushiftRight_zero key,
    BitFields.toNat_field (k := 29) (by decide), BitVec.ushiftRight_zero, pow_zero, Nat.div_one]
  exact Nat.mod_eq_of_lt (by omega)

theorem daemonPage_eq (key : Key) : daemonPage key = page key := by
  have hcid : Daemon.longkeyToCid key = (longkeyToCid key).toNat := by
    rw [longkeyToCid_toNat, Daemon.longkeyToCid, BitVec.toNat_ushiftRight,
      Nat.shiftRight_eq_div_pow]
  rw [daemonPage, hcid]
  rfl

theorem daemonKey_eq {p : FilePage} (hindex : p.index.toNat < 2 ^ 32) : daemonKey p = p.key := by
  have hwidth : (p.index.setWidth 32).setWidth 64 = p.index := by
    apply BitVec.eq_of_toNat_eq
    rw [BitVec.toNat_setWidth, BitVec.toNat_setWidth, Nat.mod_eq_of_lt hindex,
      Nat.mod_eq_of_lt p.index.isLt]
  rw [daemonKey, Daemon.makeLongkey, hwidth]
  rfl

/-- Bit 28 is read into two fields, which agree on it. -/
theorem key_page (key : Key) : (page key).key = key := by
  have hcid : BitVec.ofNat 64 (longkeyToCid key).toNat = key >>> 60 := by
    apply BitVec.eq_of_toNat_eq
    rw [longkeyToCid_toNat, BitVec.toNat_ofNat, BitVec.toNat_ushiftRight,
      Nat.shiftRight_eq_div_pow]
    exact Nat.mod_eq_of_lt (by omega)
  have hino : ∀ i, (1#64 <<< 32 - 1).getLsbD i = decide (i < 32) :=
    BitFields.getLsbD_mask (by decide)
  have hoffset : ∀ i, (1#64 <<< (28 + 1) - 1).getLsbD i = decide (i < 29) :=
    BitFields.getLsbD_mask (by decide)
  rw [FilePage.key, page, hcid, makeLongkey, longkeyToInode, longkeyToOffset]
  apply BitVec.eq_of_getLsbD_eq
  intro i hi
  simp only [BitVec.getLsbD_or, BitVec.getLsbD_shiftLeft, BitVec.getLsbD_setWidth,
    BitVec.getLsbD_and, BitVec.getLsbD_ushiftRight, hino, hoffset]
  -- the offset below bit 28, the inode up to bit 59, the client id from bit 60 on
  by_cases hlow : i < 28
  · simp [hlow, show i < 29 by omega, show i < 32 by omega, show i < 60 by omega, hi]
  · by_cases hmid : i < 60
    · have hplace : 28 + (i - 28) = i := by omega
      simp [hlow, hmid, hplace, hi, show i - 28 < 32 by omega, show i - 28 < 64 by omega]
      exact fun _ hbit _ => hbit
    · have hplace : 60 + (i - 60) = i := by omega
      simp [hlow, hmid, hplace, hi, show ¬ i - 28 < 32 by omega]
      exact fun _ hbit _ => hbit

theorem page_index_lt (key : Key) : (page key).index.toNat < 2 ^ 32 := by
  have hlt := (longkeyToOffset key).isLt
  rw [page, BitVec.toNat_setWidth]
  exact lt_of_le_of_lt (Nat.mod_le _ _) hlt

/-! ## Pages that come back -/

/-- The offset read back is the index, with the lowest bit of the inode above it. -/
theorem page_key_iff {p : FilePage} (h : p.Fits) : page p.key = p ↔ Even p.ino.toNat := by
  have hkey := h.key_toNat
  obtain ⟨hcid, hino, hindex⟩ := h
  have hoffset := longkeyToOffset_toNat p.key
  have hsame : p.key.toNat % 2 ^ 29 = p.index.toNat ↔ Even p.ino.toNat := by
    rw [hkey, Nat.even_iff]
    omega
  rw [← hsame, ← hoffset]
  constructor
  · intro hpage
    have hindex' := congrArg (fun q : FilePage => q.index.toNat) hpage
    simp only [page, BitVec.toNat_setWidth] at hindex'
    omega
  · intro hread
    have h1 : (longkeyToCid p.key).toNat = p.cid := by
      rw [longkeyToCid_toNat, hkey]
      omega
    have h2 : (longkeyToInode p.key).setWidth 64 = p.ino := by
      apply BitVec.eq_of_toNat_eq
      rw [BitVec.toNat_setWidth, longkeyToInode_toNat, hkey]
      omega
    have h3 : (longkeyToOffset p.key).setWidth 64 = p.index := by
      apply BitVec.eq_of_toNat_eq
      rw [BitVec.toNat_setWidth, hread, Nat.mod_eq_of_lt p.index.isLt]
    rw [page, h1, h2, h3]

/-- In the documented layout, a page comes back from its key at both sides
exactly if its inode is even; the copies agree, and a key is the one of its
three fields. -/
theorem longkey_roundTrip_iff (p : FilePage) (key : Key) :
    (p.Fits → daemonKey p = p.key ∧
      (page p.key = p ∧ daemonPage (daemonKey p) = p ↔ Even p.ino.toNat)) ∧
    daemonPage key = page key ∧ (page key).key = key ∧ daemonKey (daemonPage key) = key := by
  refine ⟨?_, daemonPage_eq key, key_page key, ?_⟩
  · intro hp
    have hmade : daemonKey p = p.key := daemonKey_eq (hp.index.trans (by decide))
    refine ⟨hmade, ?_⟩
    rw [hmade, daemonPage_eq, and_self]
    exact page_key_iff hp
  · rw [daemonPage_eq, daemonKey_eq (page_index_lt key), key_page]

theorem longkey_roundTrip_iff_even : page (FilePage.key ⟨5, 2, 7⟩) = ⟨5, 2, 7⟩ := by
  have hfits : FilePage.Fits ⟨5, 2, 7⟩ := by constructor <;> decide
  exact (((longkey_roundTrip_iff ⟨5, 2, 7⟩ 0).1 hfits).2.mpr (by decide)).1

/-- The first page of inode 3 is read back as page `2 ^ 28`. -/
theorem odd_inode_lost : FilePage.Fits ⟨0, 3, 0⟩ ∧
    page (FilePage.key ⟨0, 3, 0⟩) = ⟨0, 3, 2 ^ 28⟩ ∧ page (FilePage.key ⟨0, 3, 0⟩) ≠ ⟨0, 3, 0⟩ ∧
    daemonPage (daemonKey ⟨0, 3, 0⟩) ≠ ⟨0, 3, 0⟩ := by
  refine ⟨?_, by decide, by decide, by decide⟩
  constructor <;> decide

end Backend

end CleancacheRdma.Driver
