import Mathlib
import CleancacheRdma.Daemon.Circulation

/-!
# The load of the table

The constructor of `KV` makes the table a tenth larger than the pool, so that it
never has to grow. A page is in one place at most, so no more buckets are valid than
the pool has pages.
-/

namespace CleancacheRdma.Daemon

open Lib (System)

namespace LinearProbingApprox

variable {t : LinearProbingApprox} {hash : Key → ℕ}

/-- What the loop of `Utilization` counts. -/
def numValid (t : LinearProbingApprox) : ℕ :=
  Nat.count (fun slot => t.isValidBucket slot) t.capacity

/-- Every valid bucket has one of the pages, and none has that of another. -/
structure OwnPages (t : LinearProbingApprox) (pages : Finset Value) : Prop where
  mem : ∀ slot < t.capacity, t.isValidBucket slot → (t.buckets slot).value ∈ pages
  inj : ∀ slot < t.capacity, ∀ slot' < t.capacity, t.isValidBucket slot → t.isValidBucket slot' →
    (t.buckets slot).value = (t.buckets slot').value → slot = slot'

theorem OwnPages.numValid_le {pages : Finset Value} (h : t.OwnPages pages) :
    t.numValid ≤ pages.card := by
  rw [numValid, Nat.count_eq_card_filter_range]
  refine Finset.card_le_card_of_injOn (fun slot => (t.buckets slot).value) ?_ ?_
  · intro slot hslot
    obtain ⟨hlt, hvalid⟩ := Finset.mem_filter.mp hslot
    exact h.mem slot (Finset.mem_range.mp hlt) hvalid
  · intro slot hslot slot' hslot' heq
    obtain ⟨hlt, hvalid⟩ := Finset.mem_filter.mp hslot
    obtain ⟨hlt', hvalid'⟩ := Finset.mem_filter.mp hslot'
    exact h.inj slot (Finset.mem_range.mp hlt) slot' (Finset.mem_range.mp hlt') hvalid hvalid' heq

theorem TableInv.eq_of_sum_le_one (h : t.TableInv hash) {f : Key → Value → ℕ} {k k' : Key}
    {v v' : Value} (hle : t.sum f ≤ 1) (hk : t.view hash k = some v)
    (hk' : t.view hash k' = some v') (hf : 0 < f k v) (hf' : 0 < f k' v') : k = k' :=
  Lib.Probing.eq_of_total_le_one (L := t.layout hash) hle
    (h.probing.view_eq_some_iff.mp hk) (h.probing.view_eq_some_iff.mp hk') hf hf'

end LinearProbingApprox

namespace KV

variable {hash : HashFuncs} {kv : KV} {stock : Finset Value}

/-- No two keys have one page. -/
theorem Stocked.view_inj (h : kv.Stocked stock) (hinv : kv.Inv hash) {k k' : Key} {p : Value}
    (hk : kv.table.view (hash 0) k = some p) (hk' : kv.table.view (hash 0) k' = some p) :
    k = k' := by
  have hle : kv.table.sum (fun _ v => single v p) ≤ 1 :=
    (Nat.le_add_left _ _).trans (h.once p)
  have hone : 0 < single p p := by
    rw [single, if_pos rfl]
    exact Nat.one_pos
  exact hinv.table.eq_of_sum_le_one hle hk hk' hone hone

theorem Stocked.mem_of_view (h : kv.Stocked stock) (hinv : kv.Inv hash) {k : Key} {p : Value}
    (hk : kv.table.view (hash 0) k = some p) : p ∈ stock := by
  by_contra hout
  have hle := hinv.table.le_sum hk fun _ v => single v p
  have hnone := h.pages p hout
  rw [places] at hnone
  rw [single, if_pos rfl] at hle
  omega

theorem Stocked.ownPages (h : kv.Stocked stock) (hinv : kv.Inv hash) :
    kv.table.OwnPages stock where
  mem slot hslot hvalid :=
    h.mem_of_view hinv
      (hinv.table.view_of_bucket hslot (LinearProbingApprox.isValidBucket_iff.mp hvalid))
  inj slot hslot slot' hslot' hvalid hvalid' heq := by
    have husable := LinearProbingApprox.isValidBucket_iff.mp hvalid
    have hview := hinv.table.view_of_bucket hslot husable
    have hview' := hinv.table.view_of_bucket hslot'
      (LinearProbingApprox.isValidBucket_iff.mp hvalid')
    rw [← heq] at hview'
    exact hinv.table.slot_unique hslot hslot' husable (h.view_inj hinv hview hview')

end KV

/-- The table has eleven buckets for every ten pages of the pool. -/
theorem pages_le_tableCapacity (mb : ℕ) :
    11 * (memPoolSize mb / SLOT_SIZE) ≤ 10 * KV.tableCapacity (memPoolSize mb) := by
  have hcap : ∀ size, size = mb * 1048576 → 11 * (size / 4104) ≤ 10 * KV.tableCapacity size := by
    intro size hsize
    rw [KV.tableCapacity]
    split
    · omega
    · omega
  exact hcap _ (memPoolSize_eq mb)

/-! ## Every run -/

variable {Page : Type} (hash : HashFuncs) (exclusivePolicy : Bool) {startAddr : Value}
  {mb numClients numHash numBits : ℕ} {mem : Value → Slot Page} {as : List (ServerStep Page)}
  {s : Server Page}

/-- However a daemon runs, every valid bucket has a page of the pool of its own. So the
table holds no more pairs than the pool has pages, and ten elevenths of it at most are in
use. -/
theorem load_bounded (hstart : startAddr ≠ NONE) (hend : startAddr + memPoolSize mb ≤ 2 ^ 64)
    (hwf : (serverSystem hash exclusivePolicy
      (.new startAddr (memPoolSize mb) numClients numHash numBits mem)).Meets Server.WellFormed
      (.new startAddr (memPoolSize mb) numClients numHash numBits mem) as)
    (hrun : (serverSystem hash exclusivePolicy
      (.new startAddr (memPoolSize mb) numClients numHash numBits mem)).exec
      (.new startAddr (memPoolSize mb) numClients numHash numBits mem) as = some s) :
    s.kv.table.OwnPages (PerCPUPool.new startAddr (memPoolSize mb) numClients numDataQps).pages ∧
      s.kv.table.numValid ≤ memPoolSize mb / SLOT_SIZE ∧
      11 * s.kv.table.numValid ≤ 10 * s.kv.table.capacity := by
  have hrun : s.Stocked hash
      (PerCPUPool.new startAddr (memPoolSize mb) numClients numDataQps).pages ∧
      s.kv.table.capacity = KV.tableCapacity (memPoolSize mb) := by
    refine System.exec_invariant (P := Server.WellFormed) (I := fun t => t.Stocked hash
      (PerCPUPool.new startAddr (memPoolSize mb) numClients numDataQps).pages ∧
        t.kv.table.capacity = KV.tableCapacity (memPoolSize mb)) ?_
      ⟨new_stocked hash hstart hend, rfl⟩ hwf hrun
    rintro t a t' ⟨h, hcap⟩ hw hstep
    obtain ⟨r, hs⟩ := serverSystem_step hstep
    exact ⟨h.step hw hs, (h.step_retains hw hs).capacity.trans hcap⟩
  obtain ⟨hstocked, hcap⟩ := hrun
  have hown := hstocked.kv.ownPages hstocked.inv.kv
  have hvalid := hown.numValid_le
  have hpages := PerCPUPool.new_pages_card startAddr (memPoolSize mb) numClients numDataQps
  have hpool : s.kv.table.numValid ≤ memPoolSize mb / SLOT_SIZE := by omega
  have hroom := pages_le_tableCapacity mb
  refine ⟨hown, hpool, ?_⟩
  rw [hcap]
  omega

theorem load_bounded_putPut :
    ∃ s, (serverSystem keyHash true smallServer).exec smallServer (startUp ++ putPut) = some s ∧
      s.kv.table.OwnPages (PerCPUPool.new 4096 (memPoolSize 1) 16 numDataQps).pages ∧
      s.kv.table.numValid ≤ memPoolSize 1 / SLOT_SIZE ∧
      11 * s.kv.table.numValid ≤ 10 * s.kv.table.capacity := by
  obtain ⟨hwf, hstart⟩ := startUp_trace true
  have hsome : ((serverSystem keyHash true smallServer).exec started putPut).isSome := by
    decide +kernel
  obtain ⟨s, hrun⟩ := Option.isSome_iff_exists.mp hsome
  have hexec := System.exec_append_some.mpr ⟨started, hstart, hrun⟩
  have hend : 4096 + memPoolSize 1 ≤ 2 ^ 64 := by decide
  exact ⟨s, hexec, load_bounded keyHash true (by decide) hend
    (System.meets_append hwf hstart (by decide +kernel)) hexec⟩

end CleancacheRdma.Daemon
