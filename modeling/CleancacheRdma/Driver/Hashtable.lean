import CleancacheRdma.Daemon.Basic

/-!
# The client's hash table

Translated from `hashtable.c` of the driver: chained buckets, one critical
section for a lookup, one for a removal, and an insertion that removes first and
then adds a node at the head of its chain. A missing key reads as -1.
-/

namespace CleancacheRdma.Driver

open Daemon (Key HashFuncs)

/-- `ht_node_t`. -/
structure HtNode where
  key : Key
  value : BitVec 64
deriving DecidableEq

/-- `hashtable_t`. -/
structure Hashtable where
  numBuckets : ℕ
  hlistheads : ℕ → List HtNode

namespace Hashtable

/-- `hashtable_init`. -/
def init (numEntries : ℕ) : Hashtable := ⟨numEntries * 75 / 100, fun _ => []⟩

variable (ht : Hashtable) (hash : HashFuncs)

/-- `get_bkt_id`. -/
def getBktId (key : Key) : ℕ := hash 0 key % ht.numBuckets % 2 ^ 32

/-- The chain of a key. -/
def chain (key : Key) : List HtNode := ht.hlistheads (ht.getBktId hash key)

/-- `hashtable_get`. -/
def get (key : Key) : BitVec 64 :=
  match (ht.chain hash key).find? fun cur => cur.key == key with
  | some cur => cur.value
  | none => -1

/-- `hashtable_remove`. -/
def remove (key : Key) : Hashtable × BitVec 64 :=
  let bktId := ht.getBktId hash key
  ({ ht with
     hlistheads := Function.update ht.hlistheads bktId
       ((ht.chain hash key).eraseP fun cur => cur.key == key) }, ht.get hash key)

/-- The second critical section of `hashtable_insert`. -/
def addHead (key : Key) (value : BitVec 64) : Hashtable :=
  { ht with
    hlistheads := Function.update ht.hlistheads (ht.getBktId hash key)
      (⟨key, value⟩ :: ht.chain hash key) }

/-- `hashtable_insert`. -/
def insert (key : Key) (value : BitVec 64) : Hashtable :=
  (ht.remove hash key).1.addHead hash key value

end Hashtable

end CleancacheRdma.Driver
