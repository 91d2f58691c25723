import Mathlib.Data.BitVec
import Mathlib.Data.Nat.Bitwise

/-!
# Words packed from fields

A field shifted to its place is a multiple of a power of two; an or with a
smaller field below it is then a sum, which the field operations take apart
again.
-/

namespace CleancacheRdma.Lib.BitFields

/-! ## Packing -/

theorem or_eq_add {a b n : ℕ} (ha : 2 ^ n ∣ a) (hb : b < 2 ^ n) : a ||| b = a + b := by
  obtain ⟨c, rfl⟩ := ha
  exact (Nat.two_pow_add_eq_or_of_lt hb c).symm

variable {w : ℕ}

theorem toNat_shiftLeft_of_lt {x : BitVec w} {n : ℕ} (h : x.toNat * 2 ^ n < 2 ^ w) :
    (x <<< n).toNat = x.toNat * 2 ^ n := by
  rw [BitVec.toNat_shiftLeft, Nat.shiftLeft_eq, Nat.mod_eq_of_lt h]

theorem toNat_or_of_dvd {x y : BitVec w} {n : ℕ} (hx : 2 ^ n ∣ x.toNat) (hy : y.toNat < 2 ^ n) :
    (x ||| y).toNat = x.toNat + y.toNat := by
  rw [BitVec.toNat_or]
  exact or_eq_add hx hy

/-! ## Reading a field -/

theorem toNat_field {x mask : BitVec w} {n k : ℕ} (hmask : mask.toNat = 2 ^ k - 1) :
    ((x >>> n) &&& mask).toNat = x.toNat / 2 ^ n % 2 ^ k := by
  rw [BitVec.toNat_and, BitVec.toNat_ushiftRight, Nat.shiftRight_eq_div_pow, hmask]
  exact Nat.and_two_pow_sub_one_eq_mod _ k

theorem getLsbD_mask {mask : BitVec w} {k : ℕ} (hmask : mask.toNat = 2 ^ k - 1) (i : ℕ) :
    mask.getLsbD i = decide (i < k) := by
  rw [BitVec.getLsbD, hmask, Nat.testBit_two_pow_sub_one]

end CleancacheRdma.Lib.BitFields
