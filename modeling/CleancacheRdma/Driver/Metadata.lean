import CleancacheRdma.Driver.Hashtable
import CleancacheRdma.Driver.Filter.BloomFilter
import CleancacheRdma.Driver.Filter.Cbf

/-!
# The metadata of a backend and the page handlers

Translated from `metadata.h` and `backend.c` of the driver. What the handlers
call beyond the metadata gives its result as an argument: whether the access
filter admitted the put, whether the page is marked as dirtied, and what the
functions of `rdma.c` returned.
-/

namespace CleancacheRdma.Driver

open Daemon (Key HashFuncs)

/-- `metadata_t` with its type. For `FILTER_OFF` there is none. -/
inductive Metadata where
  | filterOff
  | coopBf (bf : BloomFilter)
  | ordinaryBf (bf : BloomFilter)
  | countingBf (cbf : Cbf)
  | hashTable (ht : Hashtable)

namespace Metadata

variable (hash : HashFuncs)

/-- The test of `metadata_type` in the handlers. -/
def isOn : Metadata → Bool
  | filterOff => false
  | coopBf _ | ordinaryBf _ | countingBf _ | hashTable _ => true

/-- `metadata_add`. -/
def add (key : Key) : Metadata → Metadata
  | filterOff => filterOff
  | coopBf bf => coopBf (bf.add hash key)
  | ordinaryBf bf => ordinaryBf (bf.add hash key)
  | countingBf cbf => countingBf (cbf.add hash key)
  | hashTable ht => hashTable (ht.insert hash key 0)

/-- `metadata_contain`. -/
def contain (key : Key) : Metadata → Bool
  | filterOff => false
  | coopBf bf | ordinaryBf bf => bf.mightContain hash key
  | countingBf cbf => cbf.mightContain hash key
  | hashTable ht => ht.get hash key ≠ -1

/-- `metadata_remove`. The plain filters have no removal. -/
def remove (key : Key) : Metadata → Metadata × Bool
  | filterOff => (filterOff, false)
  | coopBf bf => (coopBf bf, true)
  | ordinaryBf bf => (ordinaryBf bf, true)
  | countingBf cbf => ((cbf.remove hash key).map countingBf id)
  | hashTable ht =>
      let r := ht.remove hash key
      (hashTable r.1, r.2 ≠ -1)

end Metadata

section Handlers

variable (hash : HashFuncs) (exclusivePolicy : Bool) (m : Metadata) (key : Key)

/-- `__handle_twosided_put_page`, `ret` being the result of `dcc_rdma_send_page`. -/
def handleTwosidedPutPage (dirtied : Bool) (ret : ℤ) : Metadata × ℤ :=
  let isKnown := if m.isOn then m.contain hash key else true
  if !exclusivePolicy && isKnown && !dirtied then (m, -3)
  else (if m.isOn && ret = 0 then m.add hash key else m, ret)

/-- `dcc_handle_put_page`. -/
def handlePutPage (admitted dirtied : Bool) (ret : ℤ) : Metadata × ℤ :=
  if !admitted then (m, -5) else handleTwosidedPutPage hash exclusivePolicy m key dirtied ret

/-- `__handle_twosided_get_page`, `ret` being the result of `dcc_rdma_write_msg`. -/
def handleTwosidedGetPage (ret : ℤ) : Metadata × ℤ :=
  if m.isOn && !m.contain hash key then (m, -1)
  else
    let removes := if exclusivePolicy then m.isOn else ret ≠ 0 && m.isOn
    (if removes then (m.remove hash key).1 else m, ret)

/-- `__handle_twosided_invalidate_page`, `ret` being the result of
`dcc_rdma_write_msg2`. -/
def handleTwosidedInvalidatePage (ret : ℤ) : Metadata × ℤ :=
  if m.isOn && !m.contain hash key then (m, -1)
  else (if m.isOn then (m.remove hash key).1 else m, ret)

variable {hash exclusivePolicy m key}

/-- A key is added by the puts that return 0. -/
theorem handlePutPage_fst {admitted dirtied : Bool} {ret : ℤ} (hon : m.isOn = true) :
    (handlePutPage hash exclusivePolicy m key admitted dirtied ret).1 =
      if (handlePutPage hash exclusivePolicy m key admitted dirtied ret).2 = 0 then m.add hash key
      else m := by
  cases admitted with
  | false => rfl
  | true =>
      unfold handlePutPage handleTwosidedPutPage
      by_cases hskip : (!exclusivePolicy && m.contain hash key && !dirtied) = true
      · simp [hon, hskip]
      · simp [hon, hskip]

/-- A get that reaches the daemon removes its key, but for a hit under the
inclusive policy. -/
theorem handleTwosidedGetPage_fst {ret : ℤ} (hon : m.isOn = true) :
    (handleTwosidedGetPage hash exclusivePolicy m key ret).1 =
      if m.contain hash key = true ∧ (exclusivePolicy || ret ≠ 0) = true then (m.remove hash key).1
      else m := by
  unfold handleTwosidedGetPage
  dsimp only
  rw [hon]
  cases hcontain : m.contain hash key with
  | false => simp
  | true =>
      cases exclusivePolicy with
      | false => simp
      | true => simp

theorem handleTwosidedInvalidatePage_fst {ret : ℤ} (hon : m.isOn = true) :
    (handleTwosidedInvalidatePage hash m key ret).1 =
      if m.contain hash key = true then (m.remove hash key).1 else m := by
  unfold handleTwosidedInvalidatePage
  rw [hon]
  cases m.contain hash key with
  | false => simp
  | true => simp

end Handlers

end CleancacheRdma.Driver
