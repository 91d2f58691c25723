import Mathlib
import CleancacheRdma.Lib.BitFields
import CleancacheRdma.Daemon.Basic

/-!
# Keys and routing of pages

Translated from `backend.h` of the driver. The client id is the one the daemon
gave at registration, so the ids in use are those below its `num_clients`.
-/

namespace CleancacheRdma.Driver

open Daemon (Key longkeyToCid)
open Lib

/-- longkey: 64bit = 4(cid) + 32(ino) + 28(page offset). -/
def makeLongkey (cliId inode index : BitVec 64) : Key :=
  inode <<< (32 - 4) ||| index ||| cliId <<< 60

/-- `GOLDEN_RATIO_64` of `linux/hash.h`. -/
def GOLDEN_RATIO_64 : BitVec 64 := 0x61C8864680B583EB#64

def MAX_NUM_SVRS : ℕ := 8

def getBackendId (numSvrs : ℕ) (ino index : BitVec 64) : ℕ :=
  if numSvrs = 1 then 0 else ((ino <<< 32 ||| index) * GOLDEN_RATIO_64).toNat % numSvrs

/-- What `DECLARE_BACKEND_VAR` makes a key of. -/
structure FilePage where
  cid : ℕ
  ino : BitVec 64
  index : BitVec 64
deriving DecidableEq

namespace FilePage

def key (p : FilePage) : Key := makeLongkey (BitVec.ofNat 64 p.cid) p.ino p.index

def backend (numSvrs : ℕ) (p : FilePage) : ℕ := getBackendId numSvrs p.ino p.index

/-- The page fits the documented layout. -/
structure Fits (p : FilePage) : Prop where
  cid : p.cid < 2 ^ 4
  ino : p.ino.toNat < 2 ^ 32
  index : p.index.toNat < 2 ^ 28

theorem Fits.key_toNat {p : FilePage} (h : p.Fits) :
    p.key.toNat = p.cid * 2 ^ 60 + (p.ino.toNat * 2 ^ 28 + p.index.toNat) := by
  obtain ⟨hcid, hino, hindex⟩ := h
  have hid : (BitVec.ofNat 64 p.cid).toNat = p.cid := by
    rw [BitVec.toNat_ofNat]
    exact Nat.mod_eq_of_lt (by omega)
  have hinoShift : (p.ino <<< 28).toNat = p.ino.toNat * 2 ^ 28 :=
    BitFields.toNat_shiftLeft_of_lt (by omega)
  have hidShift : (BitVec.ofNat 64 p.cid <<< 60).toNat = p.cid * 2 ^ 60 := by
    rw [BitFields.toNat_shiftLeft_of_lt (by omega), hid]
  have hlow : (p.ino <<< 28 ||| p.index).toNat = p.ino.toNat * 2 ^ 28 + p.index.toNat := by
    rw [BitFields.toNat_or_of_dvd (hinoShift ▸ Nat.dvd_mul_left _ _) hindex, hinoShift]
  show (p.ino <<< 28 ||| p.index ||| BitVec.ofNat 64 p.cid <<< 60).toNat = _
  rw [BitVec.or_comm, BitFields.toNat_or_of_dvd (n := 60) (hidShift ▸ Nat.dvd_mul_left _ _)
    (by omega), hidShift, hlow]

theorem Fits.longkeyToCid_key {p : FilePage} (h : p.Fits) : longkeyToCid p.key = p.cid := by
  have hino := h.ino
  have hindex := h.index
  rw [longkeyToCid, BitVec.toNat_ushiftRight, Nat.shiftRight_eq_div_pow, h.key_toNat]
  omega

theorem Fits.key_inj {p q : FilePage} (hp : p.Fits) (hq : q.Fits) (h : p.key = q.key) : p = q := by
  have heq := congrArg BitVec.toNat h
  rw [hp.key_toNat, hq.key_toNat] at heq
  obtain ⟨cid, ino, index⟩ := p
  obtain ⟨cid', ino', index'⟩ := q
  obtain ⟨hcid, hino, hindex⟩ := hp
  obtain ⟨hcid', hino', hindex'⟩ := hq
  dsimp only at *
  have h1 : cid = cid' := by omega
  have h2 : ino = ino' := BitVec.eq_of_toNat_eq (by omega)
  have h3 : index = index' := BitVec.eq_of_toNat_eq (by omega)
  rw [h1, h2, h3]

end FilePage

/-! ## Which pages may be in use -/

/-- No two of the pages share a key at a daemon, and keys name the client. -/
structure KeysDistinct (numSvrs : ℕ) (InUse : FilePage → Prop) : Prop where
  separate : ∀ p q, InUse p → InUse q → p ≠ q → p.backend numSvrs = q.backend numSvrs →
    p.key ≠ q.key
  clients : ∀ p q, InUse p → InUse q → p.cid ≠ q.cid → p.key ≠ q.key
  names : ∀ p, InUse p → longkeyToCid p.key = p.cid

/-- The pages of a deployment: clients the daemon has room for, inodes from
`firstIno` on and of `inoBits` bits, page indices of `indexBits` bits. -/
structure Deployed (numClients firstIno inoBits indexBits : ℕ) (p : FilePage) : Prop where
  cid : p.cid < numClients
  first : firstIno ≤ p.ino.toNat
  ino : p.ino.toNat < 2 ^ inoBits
  index : p.index.toNat < 2 ^ indexBits

/-- Two pages of inodes 2 and 3 with one key, the second beyond the 28 bits of
an index, that `numSvrs` daemons do not keep apart. -/
def clash : ℕ → FilePage × FilePage
  | 5 => (⟨0, 3, 2 ^ 28⟩, ⟨0, 2, 2 ^ 28⟩)
  | 7 => (⟨0, 2, 2 ^ 28⟩, ⟨0, 3, 0⟩)
  | _ => (⟨0, 3, 2 ^ 28⟩, ⟨0, 3, 0⟩)

theorem clash_spec {n : ℕ} (hpos : 0 < n) (hmax : n ≤ MAX_NUM_SVRS) :
    (clash n).1 ≠ (clash n).2 ∧ (clash n).1.backend n = (clash n).2.backend n ∧
      (clash n).1.key = (clash n).2.key := by
  have hall : ∀ n ∈ Finset.Icc 1 8, (clash n).1 ≠ (clash n).2 ∧
      (clash n).1.backend n = (clash n).2.backend n ∧ (clash n).1.key = (clash n).2.key := by
    decide +kernel
  exact hall n (Finset.mem_Icc.mpr ⟨hpos, hmax⟩)

theorem KeysDistinct.of_fits {numSvrs : ℕ} {InUse : FilePage → Prop}
    (h : ∀ p, InUse p → p.Fits) : KeysDistinct numSvrs InUse where
  separate p q hp hq hne _ hkey := hne ((h p hp).key_inj (h q hq) hkey)
  clients p q hp hq hne hkey := hne (congrArg FilePage.cid ((h p hp).key_inj (h q hq) hkey))
  names p hp := (h p hp).longkeyToCid_key

section Widths

variable {numSvrs numClients firstIno inoBits indexBits : ℕ}

theorem Deployed.fits {p : FilePage} (h : Deployed numClients firstIno inoBits indexBits p)
    (hclients : numClients ≤ 2 ^ 4) (hino : inoBits ≤ 32) (hindex : indexBits ≤ 28) : p.Fits where
  cid := h.cid.trans_le hclients
  ino := h.ino.trans_le (Nat.pow_le_pow_right (by decide) hino)
  index := h.index.trans_le (Nat.pow_le_pow_right (by decide) hindex)

/-- Client 16 gets the keys of client 0. -/
theorem KeysDistinct.clients_le (h : KeysDistinct numSvrs
    (Deployed numClients firstIno inoBits indexBits)) (hfirst : firstIno ≤ 2) (hino : 2 ≤ inoBits) :
    numClients ≤ 2 ^ 4 := by
  by_contra hmany
  have hroom : 2 ^ 2 ≤ 2 ^ inoBits := Nat.pow_le_pow_right (by decide) hino
  have hnames := h.names ⟨16, 2, 0⟩
    { cid := not_le.mp hmany
      first := hfirst
      ino := lt_of_lt_of_le (by decide) hroom
      index := Nat.two_pow_pos indexBits }
  exact absurd hnames (by decide)

/-- Bit 32 of an inode lands in the client's bits. -/
theorem KeysDistinct.inoBits_le (h : KeysDistinct numSvrs
    (Deployed numClients firstIno inoBits indexBits)) (hclients : 0 < numClients)
    (hfirst : firstIno ≤ 2) : inoBits ≤ 32 := by
  by_contra hwide
  have hroom : 2 ^ 33 ≤ 2 ^ inoBits := Nat.pow_le_pow_right (by decide) (by omega)
  have hnames := h.names ⟨0, 2 ^ 32, 0⟩
    { cid := hclients
      first := hfirst.trans (by decide)
      ino := lt_of_lt_of_le (by decide) hroom
      index := Nat.two_pow_pos indexBits }
  exact absurd hnames (by decide)

theorem clash_deployed (n : ℕ) (hclients : 0 < numClients) (hfirst : firstIno ≤ 2)
    (hino : 2 ≤ inoBits) (hindex : 28 < indexBits) :
    Deployed numClients firstIno inoBits indexBits (clash n).1 ∧
      Deployed numClients firstIno inoBits indexBits (clash n).2 := by
  have hinoRoom : 2 ^ 2 ≤ 2 ^ inoBits := Nat.pow_le_pow_right (by decide) hino
  have hindexRoom : 2 ^ 29 ≤ 2 ^ indexBits := Nat.pow_le_pow_right (by decide) hindex
  have hdeployed : ∀ ino index : BitVec 64, 2 ≤ ino.toNat → ino.toNat < 2 ^ 2 →
      index.toNat < 2 ^ 29 → Deployed numClients firstIno inoBits indexBits ⟨0, ino, index⟩ :=
    fun ino index hlow hhigh hidx =>
      ⟨hclients, hfirst.trans hlow, hhigh.trans_le hinoRoom, hidx.trans_le hindexRoom⟩
  unfold clash
  split
  · exact ⟨hdeployed _ _ (by decide) (by decide) (by decide),
      hdeployed _ _ (by decide) (by decide) (by decide)⟩
  · exact ⟨hdeployed _ _ (by decide) (by decide) (by decide),
      hdeployed _ _ (by decide) (by decide) (by decide)⟩
  · exact ⟨hdeployed _ _ (by decide) (by decide) (by decide),
      hdeployed _ _ (by decide) (by decide) (by decide)⟩

/-- Bit 28 of an index lands in the inode's bits. -/
theorem KeysDistinct.indexBits_le (h : KeysDistinct numSvrs
    (Deployed numClients firstIno inoBits indexBits)) (hsvrs : 0 < numSvrs)
    (hmax : numSvrs ≤ MAX_NUM_SVRS) (hclients : 0 < numClients) (hfirst : firstIno ≤ 2)
    (hino : 2 ≤ inoBits) : indexBits ≤ 28 := by
  by_contra hwide
  obtain ⟨hne, hbackend, hkey⟩ := clash_spec hsvrs hmax
  obtain ⟨h1, h2⟩ := clash_deployed numSvrs hclients hfirst hino (not_le.mp hwide)
  exact h.separate _ _ h1 h2 hne hbackend hkey

/-- Pages keep their keys apart exactly in the documented field widths. -/
theorem longkeys_distinct_iff (hsvrs : 0 < numSvrs) (hmax : numSvrs ≤ MAX_NUM_SVRS)
    (hclients : 0 < numClients) (hfirst : firstIno ≤ 2) (hino : 2 ≤ inoBits) :
    KeysDistinct numSvrs (Deployed numClients firstIno inoBits indexBits) ↔
      numClients ≤ 2 ^ 4 ∧ inoBits ≤ 32 ∧ indexBits ≤ 28 := by
  constructor
  · intro h
    exact ⟨h.clients_le hfirst hino, h.inoBits_le hclients hfirst,
      h.indexBits_le hsvrs hmax hclients hfirst hino⟩
  · rintro ⟨hcid, hinoBits, hindexBits⟩
    apply KeysDistinct.of_fits
    intro p hp
    exact hp.fits hcid hinoBits hindexBits

end Widths

theorem longkeys_distinct_iff_layout :
    KeysDistinct 8 (Deployed 16 2 32 28) ∧ ¬ KeysDistinct 8 (Deployed 16 2 32 29) := by
  constructor
  · apply (longkeys_distinct_iff (by decide) (by decide) (by decide) (by decide) (by decide)).mpr
    decide
  · intro h
    exact absurd ((longkeys_distinct_iff (by decide) (by decide) (by decide) (by decide)
      (by decide)).mp h) (by decide)

/-- One client of one daemon, and any inode and index of 64 bits. -/
theorem longkeys_clash : ¬ KeysDistinct 1 (Deployed 1 2 64 64) := by
  intro h
  have hin : Deployed 1 2 64 64 ⟨0, 3, 2 ^ 28⟩ := by constructor <;> decide
  have hlow : Deployed 1 2 64 64 ⟨0, 3, 0⟩ := by constructor <;> decide
  exact h.separate _ _ hin hlow (by decide) rfl (by decide)

end CleancacheRdma.Driver
