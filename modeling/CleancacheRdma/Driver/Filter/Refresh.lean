import CleancacheRdma.Driver.Filter.BloomFilter
import CleancacheRdma.Lib.System

/-!
# One refresh of the client's filter, word by word

`bf_blocking`, the remote write of a snapshot and `bf_unblocking` taken apart
into the accesses another thread can come between. `bf_add` and
`bf_might_contain` are atomic.
-/

namespace CleancacheRdma.Driver

open Daemon (Key HashFuncs)
open Lib (Bitmap System)

/-- Where the refresh stands. -/
inductive RoundPc where
  | idle
  | zeroing (i : ℕ)
  | receiving (written : List ℕ)
  | merging (i : ℕ)
deriving DecidableEq

/-- The value of `merging` at that point. -/
def RoundPc.flag : RoundPc → ℕ
  | receiving _ => 1
  | _ => 0

/-- What a round fixes when it sets `merging`, and the keys added since. -/
structure Round where
  old : Bitmap 64
  snapshot : Bitmap 64
  added : List Key

/-- The filter, the round, and what the last round is remembered for. -/
structure Refresh where
  filter : BloomFilter
  pc : RoundPc
  round : Option Round

inductive RefreshStep where
  | start
  | zeroWord
  | setMerging (snapshot : Bitmap 64)
  | writeWord (i : ℕ)
  | clearMerging
  | mergeWord
  | finish
  | add (key : Key)

namespace Refresh

def init (numHash numBits : ℕ) : Refresh := ⟨.init numHash numBits, .idle, none⟩

variable (hash : HashFuncs)

def step (s : Refresh) : RefreshStep → Option Refresh
  | .start =>
      match s.pc with
      | .idle => some { s with pc := .zeroing 0, round := none }
      | _ => none
  | .zeroWord =>
      match s.pc with
      | .zeroing i =>
          if i < s.filter.numLongs then
            some { s with filter := s.filter.zeroWord i, pc := .zeroing (i + 1) }
          else none
      | _ => none
  | .setMerging snapshot =>
      match s.pc with
      | .zeroing i =>
          if i < s.filter.numLongs then none
          else some
            { filter := s.filter.setMerging 1
              pc := .receiving []
              round := some ⟨s.filter.bitmap, snapshot, []⟩ }
      | _ => none
  | .writeWord i =>
      match s.pc, s.round with
      | .receiving written, some r =>
          if i < s.filter.numLongs then
            some { s with
              filter := s.filter.writeWord r.snapshot i
              pc := .receiving (i :: written) }
          else none
      | _, _ => none
  | .clearMerging =>
      match s.pc with
      | .receiving written =>
          if ∀ i < s.filter.numLongs, i ∈ written then
            some { s with filter := s.filter.setMerging 0, pc := .merging 0 }
          else none
      | _ => none
  | .mergeWord =>
      match s.pc with
      | .merging i =>
          if i < s.filter.numLongs then
            some { s with filter := s.filter.mergeWord i, pc := .merging (i + 1) }
          else none
      | _ => none
  | .finish =>
      match s.pc with
      | .merging i => if i < s.filter.numLongs then none else some { s with pc := .idle }
      | _ => none
  | .add key =>
      some { s with
        filter := s.filter.add hash key
        round := s.round.map fun r => { r with added := key :: r.added } }

def system (numHash numBits : ℕ) : System Refresh RefreshStep where
  init s := s = init numHash numBits
  step := step hash

/-- The steps as a relation, one case for each. -/
inductive Moves (s : Refresh) : RefreshStep → Refresh → Prop
  | start (hpc : s.pc = .idle) : Moves s .start { s with pc := .zeroing 0, round := none }
  | zeroWord (i : ℕ) (hpc : s.pc = .zeroing i) (hi : i < s.filter.numLongs) :
      Moves s .zeroWord { s with filter := s.filter.zeroWord i, pc := .zeroing (i + 1) }
  | setMerging (i : ℕ) (snapshot : Bitmap 64) (hpc : s.pc = .zeroing i)
      (hi : ¬ i < s.filter.numLongs) :
      Moves s (.setMerging snapshot)
        { filter := s.filter.setMerging 1
          pc := .receiving []
          round := some ⟨s.filter.bitmap, snapshot, []⟩ }
  | writeWord (i : ℕ) (written : List ℕ) (r : Round) (hpc : s.pc = .receiving written)
      (hround : s.round = some r) (hi : i < s.filter.numLongs) :
      Moves s (.writeWord i)
        { s with
          filter := s.filter.writeWord r.snapshot i
          pc := .receiving (i :: written) }
  | clearMerging (written : List ℕ) (hpc : s.pc = .receiving written)
      (hall : ∀ i < s.filter.numLongs, i ∈ written) :
      Moves s .clearMerging { s with filter := s.filter.setMerging 0, pc := .merging 0 }
  | mergeWord (i : ℕ) (hpc : s.pc = .merging i) (hi : i < s.filter.numLongs) :
      Moves s .mergeWord { s with filter := s.filter.mergeWord i, pc := .merging (i + 1) }
  | finish (i : ℕ) (hpc : s.pc = .merging i) (hi : ¬ i < s.filter.numLongs) :
      Moves s .finish { s with pc := .idle }
  | add (key : Key) :
      Moves s (.add key)
        { s with
          filter := s.filter.add hash key
          round := s.round.map fun r => { r with added := key :: r.added } }

/-- Every key added since `merging` was set, and every key that both the old
bitmap and the snapshot have, is reported until the next round starts. -/
def NeverMisses (s : Refresh) : Prop :=
  ∀ r ∈ s.round, (∀ key ∈ r.added, s.filter.mightContain hash key = true) ∧
    ∀ key, s.filter.Holds hash r.old key → s.filter.Holds hash r.snapshot key →
      s.filter.mightContain hash key = true

/-- When `merging` is cleared the bits gathered meanwhile are in the bitmap
already. -/
def ClearsCovered (s : Refresh) : RefreshStep → Prop
  | .clearMerging =>
      ∀ i < s.filter.numBits, s.filter.tmpBitmap.Test i → s.filter.bitmap.Test i
  | _ => True

instance (s : Refresh) : ∀ a, Decidable (s.ClearsCovered a)
  | .clearMerging => inferInstanceAs (Decidable (∀ i < _, _))
  | .start | .zeroWord | .setMerging _ | .writeWord _ | .mergeWord | .finish | .add _ =>
      isTrue trivial

variable {hash}

theorem step_cases {s s' : Refresh} {a : RefreshStep} (h : s.step hash a = some s') :
    s.Moves hash a s' := by
  cases a with
  | start =>
      simp only [step] at h
      split at h
      next hpc => cases h; exact .start hpc
      · cases h
  | zeroWord =>
      simp only [step] at h
      split at h
      next i hpc =>
        split at h
        next hi => cases h; exact .zeroWord i hpc hi
        · cases h
      · cases h
  | setMerging snapshot =>
      simp only [step] at h
      split at h
      next i hpc =>
        split at h
        · cases h
        next hi => cases h; exact .setMerging i snapshot hpc hi
      · cases h
  | writeWord i =>
      simp only [step] at h
      split at h
      next written r hpc hround =>
        split at h
        next hi => cases h; exact .writeWord i written r hpc hround hi
        · cases h
      · cases h
  | clearMerging =>
      simp only [step] at h
      split at h
      next written hpc =>
        split at h
        next hall => cases h; exact .clearMerging written hpc hall
        · cases h
      · cases h
  | mergeWord =>
      simp only [step] at h
      split at h
      next i hpc =>
        split at h
        next hi => cases h; exact .mergeWord i hpc hi
        · cases h
      · cases h
  | finish =>
      simp only [step] at h
      split at h
      next i hpc =>
        split at h
        · cases h
        next hi => cases h; exact .finish i hpc hi
      · cases h
  | add key =>
      cases h
      exact .add key

/-! ## The functions the steps are taken from -/

theorem zeroWords (s : Refresh) {numHash numBits : ℕ} :
    (system hash numHash numBits).exec { s with pc := .zeroing 0 }
        (List.replicate s.filter.numLongs .zeroWord) =
      some { s with
        filter := (List.range s.filter.numLongs).foldl .zeroWord s.filter
        pc := .zeroing s.filter.numLongs } := by
  refine System.exec_replicate
    (f := fun n => { s with filter := (List.range n).foldl .zeroWord s.filter, pc := .zeroing n })
    s.filter.numLongs fun i hi => ?_
  simp only [system, step, BloomFilter.numLongs_foldl_zeroWord, if_pos hi, List.range_succ,
    List.foldl_append]
  rfl

theorem mergeWords (s : Refresh) {numHash numBits : ℕ} :
    (system hash numHash numBits).exec { s with pc := .merging 0 }
        (List.replicate s.filter.numLongs .mergeWord) =
      some { s with
        filter := (List.range s.filter.numLongs).foldl .mergeWord s.filter
        pc := .merging s.filter.numLongs } := by
  refine System.exec_replicate
    (f := fun n => { s with filter := (List.range n).foldl .mergeWord s.filter, pc := .merging n })
    s.filter.numLongs fun i hi => ?_
  simp only [system, step, BloomFilter.numLongs_foldl_mergeWord, if_pos hi, List.range_succ,
    List.foldl_append]
  rfl

/-- With nothing in between, the steps up to setting `merging` are
`bf_blocking`. -/
theorem blocking_run {s : Refresh} (hpc : s.pc = .idle) {numHash numBits : ℕ}
    (snapshot : Bitmap 64) :
    (system hash numHash numBits).exec s
        (.start :: (List.replicate s.filter.numLongs .zeroWord ++ [.setMerging snapshot])) =
      some
        { filter := s.filter.blocking
          pc := .receiving []
          round := some ⟨s.filter.bitmap, snapshot, []⟩ } := by
  have hstart : (system hash numHash numBits).step s .start =
      some { s with pc := .zeroing 0, round := none } := by
    simp only [system, step, hpc]
  refine System.exec_cons_some.mpr ⟨_, hstart, System.exec_snoc_some.mpr
    ⟨_, zeroWords { s with round := none }, ?_⟩⟩
  simp only [system, step, BloomFilter.numLongs_foldl_zeroWord, lt_irrefl, if_false]
  rw [BloomFilter.blocking, BloomFilter.foldl_zeroWord]

/-- The steps from clearing `merging` on are `bf_unblocking`. -/
theorem unblocking_run {s : Refresh} {written : List ℕ} (hpc : s.pc = .receiving written)
    (hall : ∀ i < s.filter.numLongs, i ∈ written) {numHash numBits : ℕ} :
    (system hash numHash numBits).exec s
        (.clearMerging :: (List.replicate s.filter.numLongs .mergeWord ++ [.finish])) =
      some { s with filter := s.filter.unblocking, pc := .idle } := by
  have hclear : (system hash numHash numBits).step s .clearMerging =
      some { s with filter := s.filter.setMerging 0, pc := .merging 0 } := by
    simp only [system, step, hpc]
    rw [if_pos hall]
  refine System.exec_cons_some.mpr ⟨_, hclear, System.exec_snoc_some.mpr
    ⟨_, mergeWords { s with filter := s.filter.setMerging 0 }, ?_⟩⟩
  simp only [system, step, BloomFilter.numLongs_foldl_mergeWord, lt_irrefl, if_false]
  rfl

/-! ## The phases of a round -/

/-- What the phase says about `merging` and the temporary bitmap. -/
structure Shape (hash : HashFuncs) (s : Refresh) : Prop where
  bits : 0 < s.filter.numBits
  merging : s.filter.merging = s.pc.flag
  inRange : ∀ j, s.filter.tmpBitmap.Test j → j < s.filter.numBits
  zeroed : ∀ i, s.pc = .zeroing i → s.round = none ∧ ∀ j, s.filter.tmpBitmap.Test j → i ≤ j / 64
  gathered : ∀ written, s.pc = .receiving written → ∃ r, s.round = some r ∧ ∀ j,
    s.filter.tmpBitmap.Test j → ∃ key ∈ r.added, j ∈ s.filter.indices hash key

theorem Shape.init {numHash numBits : ℕ} (hbits : 0 < numBits) :
    Shape hash (init numHash numBits) where
  bits := hbits
  merging := rfl
  inRange j hj := absurd hj (Bitmap.not_test_zero j)
  zeroed _ hpc := nomatch hpc
  gathered _ hpc := nomatch hpc

theorem Shape.checkMerging {s : Refresh} (h : s.Shape hash) {written : List ℕ}
    (hpc : s.pc = .receiving written) : s.filter.checkMerging = true := by
  rw [BloomFilter.checkMerging, h.merging, hpc]
  rfl

theorem Shape.add {s : Refresh} (h : s.Shape hash) (key : Key) :
    Shape hash { s with
      filter := s.filter.add hash key
      round := s.round.map fun r => { r with added := key :: r.added } } where
  bits := by rw [BloomFilter.add_numBits]; exact h.bits
  merging := by rw [BloomFilter.add_merging]; exact h.merging
  inRange j hj := by
    rw [BloomFilter.add_numBits]
    rcases BloomFilter.test_tmpBitmap_add hj with hj | ⟨-, hj⟩
    · exact h.inRange j hj
    · exact BloomFilter.index_lt h.bits hj
  zeroed i hpc := by
    obtain ⟨hround, hzero⟩ := h.zeroed i hpc
    refine ⟨by rw [hround]; rfl, fun j hj => ?_⟩
    rcases BloomFilter.test_tmpBitmap_add hj with hj | ⟨hmerging, -⟩
    · exact hzero j hj
    · rw [BloomFilter.checkMerging, h.merging, hpc] at hmerging
      cases hmerging
  gathered written hpc := by
    obtain ⟨r, hr, hkeys⟩ := h.gathered written hpc
    refine ⟨{ r with added := key :: r.added }, by rw [hr]; rfl, fun j hj => ?_⟩
    simp only [BloomFilter.indices_add]
    rcases BloomFilter.test_tmpBitmap_add hj with hj | ⟨-, hj⟩
    · obtain ⟨k, hk, hkj⟩ := hkeys j hj
      exact ⟨k, List.mem_cons_of_mem key hk, hkj⟩
    · exact ⟨key, List.mem_cons_self, hj⟩

theorem Shape.step {s s' : Refresh} {a : RefreshStep} (h : s.Shape hash)
    (hstep : s.step hash a = some s') : s'.Shape hash := by
  cases step_cases hstep with
  | start hpc =>
      refine ⟨h.bits, ?_, h.inRange, ?_, nofun⟩
      · rw [h.merging, hpc]
        rfl
      · rintro i ⟨⟩
        exact ⟨rfl, fun j _ => Nat.zero_le _⟩
  | zeroWord i hpc hi =>
      obtain ⟨hround, hzero⟩ := h.zeroed i hpc
      have hclear : ∀ j, (s.filter.zeroWord i).tmpBitmap.Test j →
          s.filter.tmpBitmap.Test j ∧ j / 64 ≠ i := by
        intro j hj
        replace hj := Bitmap.test_copyWord.mp hj
        split at hj
        · exact absurd hj (Bitmap.not_test_zero j)
        next hword => exact ⟨hj, hword⟩
      refine ⟨h.bits, ?_, fun j hj => h.inRange j (hclear j hj).1, ?_, nofun⟩
      · show s.filter.merging = 0
        rw [h.merging, hpc]
        rfl
      · rintro i' ⟨⟩
        refine ⟨hround, fun j hj => ?_⟩
        have hle := hzero j (hclear j hj).1
        have hne := (hclear j hj).2
        omega
  | setMerging i snapshot hpc hi =>
      refine ⟨h.bits, rfl, h.inRange, nofun, fun written _ => ⟨_, rfl, fun j hj => ?_⟩⟩
      have hword := BloomFilter.word_lt (h.inRange j hj)
      exact absurd (((h.zeroed i hpc).2 j hj).trans_lt hword) hi
  | writeWord i written r hpc hround hi =>
      refine ⟨h.bits, ?_, h.inRange, nofun, ?_⟩
      · show s.filter.merging = 1
        rw [h.merging, hpc]
        rfl
      · intro _ _
        exact h.gathered written hpc
  | clearMerging written hpc hall => exact ⟨h.bits, rfl, h.inRange, nofun, nofun⟩
  | mergeWord i hpc hi =>
      refine ⟨h.bits, ?_, h.inRange, nofun, nofun⟩
      show s.filter.merging = 0
      rw [h.merging, hpc]
      rfl
  | finish i hpc hi =>
      refine ⟨h.bits, ?_, h.inRange, nofun, nofun⟩
      rw [h.merging, hpc]
      rfl
  | add key => exact h.add key

/-! ## What a round must not forget -/

/-- Old bits that the snapshot has too stay, and the keys added since are where
a lookup looks. -/
structure Kept (hash : HashFuncs) (s : Refresh) : Prop where
  both : ∀ r ∈ s.round, ∀ j, r.old.Test j → r.snapshot.Test j → s.filter.bitmap.Test j
  added : ∀ r ∈ s.round, ∀ key ∈ r.added, s.filter.Holds hash s.filter.current key

theorem Kept.neverMisses {s : Refresh} (h : s.Kept hash) : s.NeverMisses hash := by
  intro r hr
  constructor
  · intro key hkey
    exact BloomFilter.mightContain_of_current (h.added r hr key hkey)
  · intro key hold hsnapshot
    apply BloomFilter.mightContain_iff.mpr
    exact Or.inr fun j hj => h.both r hr j (hold j hj) (hsnapshot j hj)

theorem Kept.init (numHash numBits : ℕ) : Kept hash (init numHash numBits) := ⟨nofun, nofun⟩

/-- Bits are only added. -/
structure Grows (f g : BloomFilter) : Prop where
  numHash : g.numHash = f.numHash
  numBits : g.numBits = f.numBits
  merging : g.merging = f.merging
  bitmap : f.bitmap.Sub g.bitmap
  tmpBitmap : f.tmpBitmap.Sub g.tmpBitmap

theorem Grows.holds {f g : BloomFilter} (h : Grows f g) {key : Key}
    (hkey : f.Holds hash f.current key) : g.Holds hash g.current key := by
  intro j hj
  rw [BloomFilter.indices_congr h.numHash h.numBits] at hj
  have hold := hkey j hj
  unfold BloomFilter.current BloomFilter.checkMerging at hold ⊢
  rw [h.merging]
  split
  next hpos =>
    rw [if_pos hpos] at hold
    exact h.tmpBitmap j hold
  next hpos =>
    rw [if_neg hpos] at hold
    exact h.bitmap j hold

theorem Grows.add (f : BloomFilter) (key : Key) : Grows f (f.add hash key) where
  numHash := BloomFilter.add_numHash key
  numBits := BloomFilter.add_numBits key
  merging := BloomFilter.add_merging key
  bitmap := BloomFilter.bitmap_sub_add key
  tmpBitmap := BloomFilter.tmpBitmap_sub_add key

theorem Kept.grow {s : Refresh} (h : s.Kept hash) {g : BloomFilter} (hg : Grows s.filter g)
    (pc : RoundPc) : Kept hash { s with filter := g, pc := pc } where
  both r hr j hold hsnapshot := hg.bitmap j (h.both r hr j hold hsnapshot)
  added r hr key hkey := hg.holds (h.added r hr key hkey)

theorem Kept.add {s : Refresh} (h : s.Kept hash) (key : Key) :
    Kept hash { s with
      filter := s.filter.add hash key
      round := s.round.map fun r => { r with added := key :: r.added } } := by
  have hgrows : Grows s.filter (s.filter.add hash key) := Grows.add s.filter key
  have hgrow := h.grow hgrows s.pc
  constructor
  · rintro r' hr' j hold hsnapshot
    obtain ⟨r, hr, rfl⟩ := Option.map_eq_some_iff.mp hr'
    exact hgrow.both r hr j hold hsnapshot
  · rintro r' hr' k hk
    obtain ⟨r, hr, rfl⟩ := Option.map_eq_some_iff.mp hr'
    rcases List.mem_cons.mp hk with rfl | hk
    · intro j hj
      rw [BloomFilter.indices_add] at hj
      exact BloomFilter.holds_current_add k j hj
    · exact hgrow.added r hr k hk

theorem Kept.step {s s' : Refresh} {a : RefreshStep} (h : s.Kept hash) (hshape : s.Shape hash)
    (hok : s.ClearsCovered a) (hstep : s.step hash a = some s') : s'.Kept hash := by
  cases step_cases hstep with
  | start hpc => exact ⟨nofun, nofun⟩
  | zeroWord i hpc hi =>
      have hround := (hshape.zeroed i hpc).1
      exact ⟨fun r hr => by simp [hround] at hr, fun r hr => by simp [hround] at hr⟩
  | setMerging i snapshot hpc hi =>
      constructor
      · rintro r ⟨⟩ j hold -
        exact hold
      · rintro r ⟨⟩ key hkey
        cases hkey
  | writeWord i written r hpc hround hi =>
      -- Keys go to the temporary bitmap now, the write does not touch them.
      have hone : s.filter.checkMerging = true := hshape.checkMerging hpc
      have hcurrent : (s.filter.writeWord r.snapshot i).current = s.filter.current :=
        (if_pos hone).trans (if_pos hone).symm
      constructor
      · rintro r' hr' j hold hsnapshot
        cases hround.symm.trans hr'
        apply Bitmap.test_copyWord.mpr
        split
        · exact hsnapshot
        · exact h.both r hround j hold hsnapshot
      · intro r' hr' key hkey
        rw [hcurrent]
        exact h.added r' hr' key hkey
  | clearMerging written hpc hall =>
      have hcurrent : s.filter.current = s.filter.tmpBitmap := if_pos (hshape.checkMerging hpc)
      constructor
      · exact h.both
      · intro r hr key hkey
        have hadded := h.added r hr key hkey
        rw [hcurrent] at hadded
        exact hadded.mono fun i hi => hok i (hshape.inRange i hi) hi
  | mergeWord i hpc hi =>
      have hgrows : Grows s.filter (s.filter.mergeWord i) :=
        ⟨rfl, rfl, rfl, Bitmap.sub_orWord _ _ i, Bitmap.Sub.refl _⟩
      exact h.grow hgrows (.merging (i + 1))
  | finish i hpc hi => exact ⟨h.both, h.added⟩
  | add key => exact h.add key

/-! ## Exactly the runs that never miss -/

/-- A bit gathered in the temporary bitmap and missing in the bitmap belongs to
a key that is missed as soon as `merging` is cleared. -/
theorem Shape.covered {s s' : Refresh} (h : s.Shape hash)
    (hstep : s.step hash .clearMerging = some s') (hnever : s'.NeverMisses hash) :
    s.filter.tmpBitmap.Sub s.filter.bitmap := by
  intro j hj
  cases step_cases hstep with
  | clearMerging written hpc hall =>
      obtain ⟨r, hr, hkeys⟩ := h.gathered written hpc
      obtain ⟨key, hkey, hkeyj⟩ := hkeys j hj
      have hfound := BloomFilter.mightContain_iff.mp ((hnever r hr).1 key hkey)
      rcases hfound with ⟨hpos, -⟩ | hfound
      · cases hpos
      · exact hfound j hkeyj

/-- Lookups never miss in a run exactly if, whenever it clears `merging`, the
bitmap has the bits of the temporary one already. -/
theorem lookups_never_miss_iff {numHash numBits : ℕ} (hbits : 0 < numBits)
    {as : List RefreshStep} {s : Refresh}
    (hrun : (system hash numHash numBits).exec (init numHash numBits) as = some s) :
    (∀ pre s', pre <+: as →
      (system hash numHash numBits).exec (init numHash numBits) pre = some s' →
      s'.NeverMisses hash) ↔
    (system hash numHash numBits).Meets ClearsCovered (init numHash numBits) as := by
  have hshape : ∀ {pre : List RefreshStep} {s' : Refresh},
      (system hash numHash numBits).exec (init numHash numBits) pre = some s' → s'.Shape hash :=
    fun hpre => System.exec_invariant (P := fun _ _ => True)
      (fun s a s' h _ hs => h.step hs) (Shape.init hbits)
      (System.meets_of_mem _ _ fun _ _ _ => trivial) hpre
  constructor
  · intro hnever
    apply System.meets_of_prefix
    rintro pre a s₁ ⟨rest, rfl⟩ hexec
    obtain ⟨s₂, hsnoc, -⟩ := System.exec_append_some.mp hrun
    obtain ⟨m, hm, hstep⟩ := System.exec_snoc_some.mp hsnoc
    cases hexec.symm.trans hm
    cases a with
    | clearMerging =>
        intro i _ hi
        exact (hshape hm).covered hstep (hnever _ s₂ (List.prefix_append _ rest) hsnoc) i hi
    | start | zeroWord | setMerging | writeWord | mergeWord | finish | add => trivial
  · rintro hmeets pre s' ⟨rest, rfl⟩ hpre
    have hinv : s'.Shape hash ∧ s'.Kept hash := System.exec_invariant (P := ClearsCovered)
      (I := fun s => s.Shape hash ∧ s.Kept hash)
      (fun s a s' h hok hs => ⟨h.1.step hs, h.2.step h.1 hok hs⟩)
      ⟨Shape.init hbits, Kept.init numHash numBits⟩ hmeets.prefix hpre
    exact hinv.2.neverMisses

/-- A round of a filter of one word during which two keys are added, both in the
snapshot. -/
def coveredRound : List RefreshStep :=
  [.add 5, .start, .zeroWord, .setMerging (fun _ => 0x60), .add 5, .add 6, .writeWord 0,
   .clearMerging, .mergeWord, .finish, .add 7]

theorem lookups_never_miss_iff_coveredRound :
    ∃ s, (system (fun _ key => key.toNat) 1 64).exec (init 1 64) coveredRound = some s ∧
      (∀ r ∈ s.round, r.added = [7, 6, 5]) ∧
      ∀ pre s', pre <+: coveredRound →
        (system (fun _ key => key.toNat) 1 64).exec (init 1 64) pre = some s' →
        s'.NeverMisses fun _ key => key.toNat := by
  have hrun : ((system (fun _ key => key.toNat) 1 64).exec (init 1 64) coveredRound).map
      (fun s => s.round.map Round.added) = some (some [7, 6, 5]) := by decide
  obtain ⟨s, hs, hadded⟩ := Option.map_eq_some_iff.mp hrun
  obtain ⟨r, hr, hkeys⟩ := Option.map_eq_some_iff.mp hadded
  refine ⟨s, hs, fun r' hr' => by cases hr.symm.trans hr'; exact hkeys, ?_⟩
  exact (lookups_never_miss_iff (by decide) hs).mpr (by decide +kernel)

/-- A key added during a round that the snapshot does not have. -/
def lateAdd : List RefreshStep :=
  [.start, .zeroWord, .setMerging Bitmap.zero, .add 5, .writeWord 0, .clearMerging]

/-- The key is missed between the clearing of `merging` and the merge. -/
theorem lookup_misses :
    ∃ s, (system (fun _ key => key.toNat) 1 64).exec (init 1 64) lateAdd = some s ∧
      (∀ r ∈ s.round, 5 ∈ r.added) ∧ s.filter.mightContain (fun _ key => key.toNat) 5 = false ∧
      ¬ s.NeverMisses fun _ key => key.toNat := by
  have hrun : ((system (fun _ key => key.toNat) 1 64).exec (init 1 64) lateAdd).map
      (fun s => (s.round.map Round.added, s.filter.mightContain (fun _ key => key.toNat) 5)) =
        some (some [5], false) := by decide
  obtain ⟨s, hs, hread⟩ := Option.map_eq_some_iff.mp hrun
  obtain ⟨hadded, hmiss⟩ := Prod.mk.inj hread
  obtain ⟨r, hr, hkeys⟩ := Option.map_eq_some_iff.mp hadded
  have hmem : 5 ∈ r.added := by rw [hkeys]; exact List.mem_singleton_self 5
  refine ⟨s, hs, fun r' hr' => by cases hr.symm.trans hr'; exact hmem, hmiss, fun hnever => ?_⟩
  rw [(hnever r hr).1 5 hmem] at hmiss
  cases hmiss

end Refresh

end CleancacheRdma.Driver
