import Mathlib
import CleancacheRdma.Daemon.Rdma
import CleancacheRdma.Lib.BitFields

/-!
# The immediate word

`bit_unmask` reads back what `bit_mask` packed, also through `htonl`, as long as
the fields fit.
-/

namespace CleancacheRdma.Daemon

open Lib

/-- The bytes turned around twice. -/
theorem ntohl_htonl (x : BitVec 32) : ntohl (htonl x) = x := by
  apply BitVec.eq_of_getLsbD_eq
  intro i hi
  simp only [ntohl, htonl, BitVec.getLsbD_append, BitVec.getLsbD_extractLsb']
  interval_cases i <;> simp

/-- The fields fit the word. -/
structure ImmFields.Fits (f : ImmFields) : Prop where
  mid : f.mid < 2 ^ 12
  msg : f.msg < 2 ^ 4
  tx : f.tx < 2 ^ 4
  etc : f.etc < 2 ^ 4
  crc : f.crc < 2 ^ 8

theorem bitMask_toNat {f : ImmFields} (h : f.Fits) :
    (bitMask f.mid f.msg f.tx f.etc f.crc).toNat =
      f.mid * 2 ^ 20 + f.msg * 2 ^ 16 + f.tx * 2 ^ 12 + f.etc * 2 ^ 8 + f.crc := by
  obtain ⟨hmid, hmsg, htx, hetc, hcrc⟩ := h
  have hshift : ∀ (x n : ℕ), x * 2 ^ n < 2 ^ 32 →
      (BitVec.ofNat 32 x <<< n).toNat = x * 2 ^ n := by
    intro x n hlt
    have hx : x < 2 ^ 32 := Nat.lt_of_le_of_lt (Nat.le_mul_of_pos_right x (Nat.two_pow_pos n)) hlt
    have hval : (BitVec.ofNat 32 x).toNat = x := by rw [BitVec.toNat_ofNat, Nat.mod_eq_of_lt hx]
    rw [BitFields.toNat_shiftLeft_of_lt (hval.symm ▸ hlt), hval]
  have hor : ∀ {x y : BitVec 32} {a b : ℕ} (n : ℕ), x.toNat = a → y.toNat = b → 2 ^ n ∣ a →
      b < 2 ^ n → (x ||| y).toNat = a + b := by
    rintro x y a b n rfl rfl ha hb
    exact BitFields.toNat_or_of_dvd ha hb
  have h1 := hor 20 (hshift f.mid 20 (by omega)) (hshift f.msg 16 (by omega)) ⟨f.mid, by ring⟩
    (by omega)
  have h2 := hor 16 h1 (hshift f.tx 12 (by omega)) ⟨f.mid * 16 + f.msg, by ring⟩ (by omega)
  have h3 := hor 12 h2 (hshift f.etc 8 (by omega)) ⟨f.mid * 256 + f.msg * 16 + f.tx, by ring⟩
    (by omega)
  have hlast : (BitVec.ofNat 32 f.crc).toNat = f.crc := by
    rw [BitVec.toNat_ofNat, Nat.mod_eq_of_lt (by omega)]
  exact hor 8 h3 hlast ⟨f.mid * 4096 + f.msg * 256 + f.tx * 16 + f.etc, by ring⟩ (by omega)

theorem bitUnmask_bitMask {f : ImmFields} (h : f.Fits) :
    bitUnmask (bitMask f.mid f.msg f.tx f.etc f.crc) = f := by
  have hval := bitMask_toNat h
  obtain ⟨hmid, hmsg, htx, hetc, hcrc⟩ := h
  obtain ⟨mid, msg, tx, etc, crc⟩ := f
  dsimp only at *
  have hfield : ∀ (n k : ℕ) {mask : BitVec 32}, mask.toNat = 2 ^ k - 1 →
      ((bitMask mid msg tx etc crc >>> n) &&& mask).toNat =
        (mid * 2 ^ 20 + msg * 2 ^ 16 + tx * 2 ^ 12 + etc * 2 ^ 8 + crc) / 2 ^ n % 2 ^ k := by
    intro n k mask hmask
    rw [BitFields.toNat_field hmask, hval]
  have hcrc' : ((bitMask mid msg tx etc crc >>> 0) &&& 0xff).toNat = _ := hfield 0 8 rfl
  rw [BitVec.ushiftRight_zero] at hcrc'
  rw [bitUnmask, hfield 20 12 rfl, hfield 16 4 rfl, hfield 12 4 rfl, hfield 8 4 rfl, hcrc']
  congr 1
  · omega
  · omega
  · omega
  · omega
  · omega

/-- What a handler decodes is what the sender encoded. -/
theorem bitUnmask_wire {f : ImmFields} (h : f.Fits) :
    bitUnmask (ntohl (htonl (bitMask f.mid f.msg f.tx f.etc f.crc))) = f := by
  rw [ntohl_htonl, bitUnmask_bitMask h]

end CleancacheRdma.Daemon
