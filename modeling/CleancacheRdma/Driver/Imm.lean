import Mathlib
import CleancacheRdma.Daemon.Imm

/-!
# The immediate word on both sides

The driver's copies of `bit_mask` and `bit_unmask`, with the shifts and masks
of `enum imm_bit_type` in `rdma.h`, beside the daemon's. A word encoded at
either side is decoded at either side, and every word is the code of its own
fields.
-/

namespace CleancacheRdma.Driver

open Daemon (ImmFields htonl ntohl ntohl_htonl)
open Lib

namespace Rdma

/-! ## `imm_bit_type` -/

def IMM_MID_BIT : ℕ := 12
def IMM_MSG_BIT : ℕ := 4
def IMM_TX_BIT : ℕ := 4
def IMM_ETC_BIT : ℕ := 4
def IMM_CRC_BIT : ℕ := 8

def IMM_MID_SHIFT : ℕ := 32 - IMM_MID_BIT
def IMM_MSG_SHIFT : ℕ := IMM_MID_SHIFT - IMM_MSG_BIT
def IMM_TX_SHIFT : ℕ := IMM_MSG_SHIFT - IMM_TX_BIT
def IMM_ETC_SHIFT : ℕ := IMM_TX_SHIFT - IMM_ETC_BIT

def IMM_MID_MASK : BitVec 32 := 1#32 <<< IMM_MID_BIT - 1
def IMM_MSG_MASK : BitVec 32 := 1#32 <<< IMM_MSG_BIT - 1
def IMM_TX_MASK : BitVec 32 := 1#32 <<< IMM_TX_BIT - 1
def IMM_ETC_MASK : BitVec 32 := 1#32 <<< IMM_ETC_BIT - 1
def IMM_CRC_MASK : BitVec 32 := 1#32 <<< IMM_CRC_BIT - 1

/-! ## The driver's copies -/

def bitMask (mid msg tx etc crc : ℕ) : BitVec 32 :=
  (BitVec.ofNat 32 mid <<< IMM_MID_SHIFT) ||| (BitVec.ofNat 32 msg <<< IMM_MSG_SHIFT) |||
    (BitVec.ofNat 32 tx <<< IMM_TX_SHIFT) ||| (BitVec.ofNat 32 etc <<< IMM_ETC_SHIFT) |||
    BitVec.ofNat 32 crc

def bitUnmask (target : BitVec 32) : ImmFields where
  mid := ((target >>> IMM_MID_SHIFT) &&& IMM_MID_MASK).toNat
  msg := ((target >>> IMM_MSG_SHIFT) &&& IMM_MSG_MASK).toNat
  tx := ((target >>> IMM_TX_SHIFT) &&& IMM_TX_MASK).toNat
  etc := ((target >>> IMM_ETC_SHIFT) &&& IMM_ETC_MASK).toNat
  crc := (target &&& IMM_CRC_MASK).toNat

/-- Whose copies of the two functions are called. -/
inductive Side where
  | driver
  | daemon
deriving DecidableEq

def Side.bitMask : Side → ImmFields → BitVec 32
  | .driver, f => Rdma.bitMask f.mid f.msg f.tx f.etc f.crc
  | .daemon, f => Daemon.bitMask f.mid f.msg f.tx f.etc f.crc

def Side.bitUnmask : Side → BitVec 32 → ImmFields
  | .driver, target => Rdma.bitUnmask target
  | .daemon, target => Daemon.bitUnmask target

/-! ## The copies agree -/

theorem Side.bitMask_eq (side : Side) (f : ImmFields) :
    side.bitMask f = Daemon.bitMask f.mid f.msg f.tx f.etc f.crc := by
  cases side with
  | driver => rfl
  | daemon => rfl

theorem Side.bitUnmask_eq (side : Side) (target : BitVec 32) :
    side.bitUnmask target = Daemon.bitUnmask target := by
  cases side with
  | driver => rfl
  | daemon => rfl

/-! ## A word is the code of its fields -/

theorem bitUnmask_toNat (target : BitVec 32) : Daemon.bitUnmask target =
    { mid := target.toNat / 2 ^ 20 % 2 ^ 12
      msg := target.toNat / 2 ^ 16 % 2 ^ 4
      tx := target.toNat / 2 ^ 12 % 2 ^ 4
      etc := target.toNat / 2 ^ 8 % 2 ^ 4
      crc := target.toNat % 2 ^ 8 } := by
  have hcrc : ((target >>> 0) &&& 0xff).toNat = target.toNat / 2 ^ 0 % 2 ^ 8 :=
    BitFields.toNat_field (by decide)
  rw [BitVec.ushiftRight_zero, pow_zero, Nat.div_one] at hcrc
  rw [Daemon.bitUnmask, BitFields.toNat_field (k := 12) (by decide),
    BitFields.toNat_field (k := 4) (by decide), BitFields.toNat_field (k := 4) (by decide),
    BitFields.toNat_field (k := 4) (by decide), hcrc]

theorem bitUnmask_fits (target : BitVec 32) : (Daemon.bitUnmask target).Fits := by
  rw [bitUnmask_toNat]
  constructor <;> exact Nat.mod_lt _ (by decide)

theorem bitMask_bitUnmask (target : BitVec 32) :
    Side.daemon.bitMask (Daemon.bitUnmask target) = target := by
  apply BitVec.eq_of_toNat_eq
  rw [Side.bitMask, Daemon.bitMask_toNat (bitUnmask_fits target), bitUnmask_toNat]
  dsimp only
  omega

/-! ## The wire -/

/-- What one side encodes the other decodes, and the encoding is a bijection
of the fields that fit and the words. -/
theorem imm_words_bijective (enc dec : Side) :
    (∀ f : ImmFields, f.Fits → dec.bitUnmask (ntohl (htonl (enc.bitMask f))) = f) ∧
    (∀ target : BitVec 32,
      (dec.bitUnmask target).Fits ∧ enc.bitMask (dec.bitUnmask target) = target) ∧
    Set.BijOn enc.bitMask {f | f.Fits} Set.univ := by
  have hdecode : ∀ f : ImmFields, f.Fits → dec.bitUnmask (enc.bitMask f) = f := by
    intro f hf
    rw [Side.bitUnmask_eq, Side.bitMask_eq, Daemon.bitUnmask_bitMask hf]
  have hencode : ∀ target, enc.bitMask (dec.bitUnmask target) = target := by
    intro target
    rw [Side.bitUnmask_eq, Side.bitMask_eq]
    exact bitMask_bitUnmask target
  have hfits : ∀ target, (dec.bitUnmask target).Fits := by
    intro target
    rw [Side.bitUnmask_eq]
    exact bitUnmask_fits target
  refine ⟨?_, fun target => ⟨hfits target, hencode target⟩, ?_⟩
  · intro f hf
    rw [ntohl_htonl, hdecode f hf]
  · refine ⟨fun _ _ => Set.mem_univ _, ?_, ?_⟩
    · intro f hf g hg heq
      rw [← hdecode f hf, ← hdecode g hg, heq]
    · intro target _
      exact ⟨dec.bitUnmask target, hfits target, hencode target⟩

/-- All fields at their largest. -/
theorem imm_words_bijective_max :
    Side.daemon.bitUnmask (ntohl (htonl (Side.driver.bitMask ⟨4095, 15, 15, 15, 255⟩))) =
      ⟨4095, 15, 15, 15, 255⟩ := by
  apply (imm_words_bijective .driver .daemon).1
  constructor <;> decide

end Rdma

end CleancacheRdma.Driver
