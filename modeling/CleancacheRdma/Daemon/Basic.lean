import Mathlib.Data.BitVec

/-!
# Keys, values and the reserved patterns of the daemon

`util/pair.h` and the key layout of `Ihash.hpp`.
-/

namespace CleancacheRdma.Daemon

/-- `size_t` keys. -/
abbrev Key := BitVec 64

/-- `void *` values: addresses, `0` being the null pointer. -/
abbrev Value := ℕ

def INVALID : Key := 0xffffffffffffffff#64
def TOMBSTONE : Key := 0xfffffffffffffffc#64
def INVALID32 : BitVec 32 := 0xffffffff#32
def NONE : Value := 0

/-! ## `rdma_config` -/

def numGetQps : ℕ := 6
def numDataQps : ℕ := 2 + numGetQps
def numMsgs : ℕ := 512

/-- `(void *) -1`, the failure value of the allocator. -/
def FAILED : Value := 2 ^ 64 - 1

/-- A key a client may use: neither of the two patterns that mark buckets. -/
def Usable (key : Key) : Prop := key ≠ INVALID ∧ key ≠ TOMBSTONE

instance (key : Key) : Decidable (Usable key) := inferInstanceAs (Decidable (_ ∧ _))

/-- `hash_funcs[i](&key, sizeof(key), f_seed)`. -/
abbrev HashFuncs := ℕ → Key → ℕ

/-- longkey: 64bit = 4(cid) + 32(ino) + 28(page offset). -/
def makeLongkey (cliId inode : BitVec 64) (index : BitVec 32) : Key :=
  inode <<< (32 - 4) ||| index.setWidth 64 ||| cliId <<< 60

/-- `longkey_to_cid`: the top four bits. -/
def longkeyToCid (longkey : Key) : ℕ := (longkey >>> 60).toNat

def longkeyToInode (longkey : Key) : BitVec 32 :=
  (longkey >>> (32 - 4) &&& (1#64 <<< 32 - 1)).setWidth 32

/-- The mask is one bit wider than the offset. -/
def longkeyToOffset (longkey : Key) : BitVec 32 :=
  (longkey &&& (1#64 <<< (28 + 1) - 1)).setWidth 32

/-- Why a call of the daemon does not return: an exception, or loops that
retry longer than the random draws listed for them. -/
inductive Stop where
  | runtimeError (what : String)
  | retrying
deriving DecidableEq

theorem toOption_some {ε α : Type} {x : Except ε α} {a : α} (h : x.toOption = some a) :
    x = .ok a := by
  cases x with
  | error e => cases h
  | ok b => exact congrArg Except.ok (Option.some.inj h)

end CleancacheRdma.Daemon
