import CleancacheRdma.Daemon.KV
import CleancacheRdma.Daemon.HashTable.Reserved

/-!
# The retry loop of `Insert` on any key

`Insert` goes back to `RETRY` as long as the duplicate check finds a page. The
check marks what it found as deleted, so it finds the key again only if there
is another copy, or if the key is the mark itself.
-/

namespace CleancacheRdma.Daemon

namespace LinearProbingApprox

variable {t t₁ : LinearProbingApprox} {hash : Key → ℕ} {key : Key} {i j : ℕ}

/-! ## Copies a scan can reach -/

/-- The `i`-th bucket of the window has the key, and no never-used bucket stops
a scan in front of it. -/
structure Visible (t : LinearProbingApprox) (hash : Key → ℕ) (key : Key) (i : ℕ) : Prop where
  lt : i < min lockSize t.capacity
  key_eq : (t.buckets (t.window hash key i)).key = key
  clear : ∀ j < i, (t.buckets (t.window hash key j)).key ≠ INVALID

theorem Hit.visible (h : t.Hit hash key i) : t.Visible hash key i :=
  ⟨h.1, h.2.1, fun j hj => (h.2.2 j hj).2⟩

/-- A scan hits the first visible copy. -/
theorem Visible.hit (h : t.Visible hash key i) : ∃ j, t.Hit hash key j := by
  rcases @delete_scanned t hash key with ⟨j, hhit, -⟩ | ⟨⟨n, hpass, hend⟩, -⟩
  · exact ⟨j, hhit⟩
  · have hle : n ≤ i := by
      by_contra hlt
      exact (hpass i (Nat.lt_of_not_le hlt)).1 h.key_eq
    rcases hend with hreach | ⟨hne, hinv⟩
    · exact absurd h.lt (Nat.not_lt_of_le (Nat.le_trans hreach hle))
    · rcases Nat.lt_or_eq_of_le hle with hlt | rfl
      · exact absurd hinv (h.clear n hlt)
      · exact absurd h.key_eq hne

/-- Marking one copy deleted leaves the others visible. -/
theorem Visible.bury (h : t.Visible hash key j) (hi : i < min lockSize t.capacity) (hne : j ≠ i) :
    (t.bury (t.window hash key i)).Visible hash key j where
  lt := h.lt
  key_eq := by
    have hslot : t.window hash key j ≠ t.window hash key i := fun heq =>
      hne (window_inj h.lt hi heq)
    show ((t.bury _).buckets (t.window hash key j)).key = key
    rw [bury_of_ne hslot]
    exact h.key_eq
  clear l hl := by
    show ((t.bury _).buckets (t.window hash key l)).key ≠ INVALID
    by_cases hslot : t.window hash key l = t.window hash key i
    · rw [hslot, bury_self]
      decide
    · rw [bury_of_ne hslot]
      exact h.clear l hl

/-- What is visible behind a copy marked deleted was visible before, and is
another copy. -/
theorem Visible.of_bury (hkey : Usable key)
    (h : (t.bury (t.window hash key i)).Visible hash key j)
    (hi : (t.buckets (t.window hash key i)).key = key) : t.Visible hash key j ∧ j ≠ i := by
  have hk : ((t.bury (t.window hash key i)).buckets (t.window hash key j)).key = key := h.key_eq
  have hslot : t.window hash key j ≠ t.window hash key i := by
    intro heq
    rw [heq, bury_self] at hk
    exact hkey.2 hk.symm
  rw [bury_of_ne hslot] at hk
  refine ⟨⟨h.lt, hk, fun l hl => ?_⟩, ?_⟩
  · by_cases heq : t.window hash key l = t.window hash key i
    · rw [heq, hi]
      exact hkey.1
    · have hl' : ((t.bury (t.window hash key i)).buckets (t.window hash key l)).key ≠ INVALID :=
        h.clear l hl
      rwa [bury_of_ne heq] at hl'
  · rintro rfl
    exact hslot rfl

/-! ## The state a put needs -/

/-- For the key `INVALID`: not a full window whose victim is busy. For the key
`TOMBSTONE`: no deleted bucket is visible. For the others: at most one copy is. -/
def Accepts (t : LinearProbingApprox) (hash : Key → ℕ) (key : Key) (prevTryLock : Bool) : Prop :=
  if key = INVALID then
    lockSize ≤ t.capacity → t.Filled hash key lockSize → ∀ i, t.Victim hash key prevTryLock i →
      (t.buckets (t.window hash key i)).busy = false
  else if key = TOMBSTONE then ∀ i, ¬ t.Visible hash key i
  else ∀ i j, t.Visible hash key i → t.Visible hash key j → i = j

end LinearProbingApprox

namespace KV

open LinearProbingApprox

variable {hash : HashFuncs} {kv : KV} {key : Key} {value : Value} {cid : ℕ}

/-! ## One pass -/

/-- A pass that finds a page frees it and goes back to `RETRY`. -/
theorem insertRetry_hit {i : ℕ} (hhit : kv.table.Hit (hash 0) key i)
    (hfound : (kv.table.buckets (kv.table.window (hash 0) key i)).value ≠ NONE) (d : InsertDraw)
    (ds : List InsertDraw) :
    insertRetry hash key value cid kv (d :: ds) =
      insertRetry hash key value cid
        (kv.supersede (kv.table.window (hash 0) key i) cid d.rand) ds := by
  rcases kv.table.insert_any (hash 0) key value INVALID d.now d.prevTryLock with
    ⟨i', hhit', -, heq⟩ | ⟨t₁, hclear, -⟩
  · obtain rfl := hhit.unique hhit'
    rw [insertRetry, heq]
    simp [hfound, supersede]
  · cases hclear with
    | missed hmiss => exact absurd hhit hmiss.not_hit
    | buried hhit' hnone =>
        rw [hhit.unique hhit'] at hfound
        exact absurd hnone hfound

/-- Otherwise the pass is that of the rest of the table's `Insert`. -/
theorem insert_of_cleared {t₁ : LinearProbingApprox} (hclear : kv.table.Cleared (hash 0) key t₁)
    (evKey : Key) (now : BitVec 32) (prevTryLock : Bool) :
    kv.table.insert (hash 0) key value evKey now prevTryLock =
      t₁.insertFresh (hash 0) key value evKey now prevTryLock := by
  rcases kv.table.insert_any (hash 0) key value evKey now prevTryLock with
    ⟨i, hhit, hfound, -⟩ | ⟨t₂, hclear₂, heq⟩
  · cases hclear with
    | missed hmiss => exact absurd hhit hmiss.not_hit
    | buried hhit' hnone =>
        rw [hhit.unique hhit'] at hfound
        exact absurd hnone hfound
  · rw [heq]
    cases hclear with
    | missed hmiss =>
        cases hclear₂ with
        | missed _ => rfl
        | buried hhit _ => exact absurd hhit hmiss.not_hit
    | buried hhit _ =>
        cases hclear₂ with
        | missed hmiss => exact absurd hhit hmiss.not_hit
        | buried hhit' _ => rw [hhit.unique hhit']

/-- The pages freed since `kv`: at most one. -/
def FreedOne (kv kv' : KV) : Prop :=
  kv'.pool.freed = kv.pool.freed ∨ ∃ a, kv'.pool.freed = a :: kv.pool.freed

/-- A pass that hands nothing back. -/
theorem insertRetry_kept {d : InsertDraw} {ds : List InsertDraw} {r : Inserted}
    (hins : kv.table.insert (hash 0) key value INVALID d.now d.prevTryLock = .ok r)
    (hnone : r.evValue = NONE) :
    insertRetry hash key value cid kv (d :: ds) = .ok ({ kv with table := r.table }, r.ret) := by
  rw [insertRetry, hins]
  simp [hnone]

/-- A pass that hands back a pair frees its page. -/
theorem insertRetry_freed {d : InsertDraw} {ds : List InsertDraw} {r : Inserted}
    (hins : kv.table.insert (hash 0) key value INVALID d.now d.prevTryLock = .ok r)
    (hkey : r.evKey ≠ INVALID) (hvalue : r.evValue ≠ NONE) :
    ∃ r', insertRetry hash key value cid kv (d :: ds) = .ok r' ∧ FreedOne kv r'.1 := by
  rw [insertRetry, hins]
  simp only [ne_eq, hkey, hvalue, not_false_eq_true, and_self, if_true]
  by_cases hret : r.ret = 0
  · rw [if_pos hret]
    exact ⟨_, rfl, Or.inr ⟨r.evValue, rfl⟩⟩
  · rw [if_neg hret]
    exact ⟨_, rfl, Or.inr ⟨r.evValue, rfl⟩⟩

/-- The last pass: no bucket that takes the pair is marked with the key, and
the key `INVALID` meets no busy victim. -/
theorem insertRetry_last {t₁ : LinearProbingApprox} (hclear : kv.table.Cleared (hash 0) key t₁)
    (hsound : t₁.Sound) (hvalue : value ≠ NONE) (cid : ℕ) (d : InsertDraw)
    (ds : List InsertDraw)
    (hdup : ¬ Usable key → ∀ i < min lockSize t₁.capacity, t₁.Filled (hash 0) key i →
      (t₁.buckets (t₁.window (hash 0) key i)).key ≠ key)
    (hspare : key = INVALID → lockSize ≤ t₁.capacity → t₁.Filled (hash 0) key lockSize →
      ∀ i, t₁.Victim (hash 0) key d.prevTryLock i →
        (t₁.buckets (t₁.window (hash 0) key i)).busy = false) :
    ∃ r, insertRetry hash key value cid kv (d :: ds) = .ok r ∧ FreedOne kv r.1 ∧
      (¬ t₁.Filled (hash 0) key lockSize → r.1.pool.freed = kv.pool.freed) := by
  have hdecides := t₁.insertFresh_decides (hash 0) key value INVALID d.now d.prevTryLock
  rw [← insert_of_cleared hclear] at hdecides
  generalize hins : kv.table.insert (hash 0) key value INVALID d.now d.prevTryLock = e at hdecides
  cases hdecides with
  | duplicated hi hfill hnot hkey =>
      rw [hkey] at hnot
      exact absurd hkey (hdup hnot _ hi hfill)
  | vacant _ _ _ _ => exact ⟨_, insertRetry_kept hins rfl, Or.inl rfl, fun _ => rfl⟩
  | @victim i hcap hfull hvictim =>
      have hu := hfull i hvictim.lt
      rcases evictVictim_cases _ hu with ⟨hbusy, hev⟩ | ⟨-, hev⟩
      · have hkey : key ≠ INVALID := by
          intro hkey
          rw [hspare hkey hcap hfull i hvictim] at hbusy
          cases hbusy
        obtain ⟨r, hr, hfreed⟩ := insertRetry_freed (hins.trans hev) hkey hvalue
        exact ⟨r, hr, hfreed, fun hnot => absurd hfull hnot⟩
      · obtain ⟨r, hr, hfreed⟩ := insertRetry_freed (hins.trans hev) hu.1 (hsound _ hu)
        exact ⟨r, hr, hfreed, fun hnot => absurd hfull hnot⟩
  | dropped _ _ => exact ⟨_, insertRetry_kept hins rfl, Or.inl rfl, fun _ => rfl⟩

/-! ## The reserved patterns -/

/-- A deleted bucket that is found by the key `TOMBSTONE` stays as it was. -/
theorem bury_tombstone {i : ℕ} (hhit : kv.table.Hit (hash 0) TOMBSTONE i) :
    kv.table.bury (kv.table.window (hash 0) TOMBSTONE i) = kv.table := by
  have hsame : ∀ b : LPABkt, b.key = TOMBSTONE → { b with key := TOMBSTONE } = b := by
    rintro ⟨_, _, _, _⟩ rfl
    rfl
  rw [LinearProbingApprox.bury, LinearProbingApprox.put, hsame _ hhit.2.1, Function.update_eq_self]

/-- The page of a deleted bucket is freed in every pass, and no pass is the last. -/
theorem insertRetry_tombstone {i : ℕ} : ∀ (draws : List InsertDraw) (kv : KV),
    kv.table.Hit (hash 0) TOMBSTONE i →
    (kv.table.buckets (kv.table.window (hash 0) TOMBSTONE i)).value ≠ NONE →
    insertRetry hash TOMBSTONE value cid kv draws = .error .retrying
  | [], _, _, _ => rfl
  | d :: ds, kv, hhit, hfound => by
      rw [insertRetry_hit hhit hfound]
      have htable : (kv.supersede (kv.table.window (hash 0) TOMBSTONE i) cid d.rand).table =
          kv.table := bury_tombstone hhit
      exact insertRetry_tombstone ds _ (by rw [htable]; exact hhit) (by rw [htable]; exact hfound)

/-- With the key `TOMBSTONE` a visible deleted bucket is never passed. -/
theorem insertRetry_visible {i : ℕ} (h : kv.table.Visible (hash 0) TOMBSTONE i)
    (draws : List InsertDraw) (r : KV × ℤ) :
    insertRetry hash TOMBSTONE value cid kv draws ≠ .ok r := by
  obtain ⟨j, hhit⟩ := h.hit
  by_cases hfound : (kv.table.buckets (kv.table.window (hash 0) TOMBSTONE j)).value = NONE
  · cases draws with
    | nil =>
        intro he
        cases he
    | cons d ds =>
        have hclear := bury_tombstone hhit ▸ LinearProbingApprox.Cleared.buried hhit hfound
        have hfilled : kv.table.Filled (hash 0) TOMBSTONE j := fun l hl =>
          ⟨(hhit.2.2 l hl).2, (hhit.2.2 l hl).1⟩
        have hnot : ¬ Usable (kv.table.buckets (kv.table.window (hash 0) TOMBSTONE j)).key :=
          fun hu => hu.2 hhit.2.1
        have hreach := hhit.1
        have hdecides := kv.table.insertFresh_decides (hash 0) TOMBSTONE value INVALID
          d.now d.prevTryLock
        rw [← insert_of_cleared hclear] at hdecides
        generalize hins : kv.table.insert (hash 0) TOMBSTONE value INVALID d.now d.prevTryLock = e
          at hdecides
        cases hdecides with
        | duplicated _ _ _ _ =>
            rw [insertRetry, hins]
            intro he
            cases he
        | @vacant l hl hfill hvac hne =>
            -- the bucket found is the first vacant one
            rcases Nat.lt_trichotomy l j with hlt | rfl | hgt
            · exact absurd (hfilled l hlt) hvac
            · exact absurd hhit.2.1 hne
            · exact absurd (hfill j hgt) hnot
        | victim _ hfull _ => exact absurd (hfull j (by omega)) hnot
        | dropped _ hfull => exact absurd (hfull j (by omega)) hnot
  · rw [insertRetry_tombstone draws kv hhit hfound]
    intro he
    cases he

/-- Without one a single pass is enough. -/
theorem insertRetry_hidden (h : kv.table.AnyKeys (hash 0)) (hvalue : value ≠ NONE)
    (d : InsertDraw) (ds : List InsertDraw)
    (hnone : ∀ i, ¬ kv.table.Visible (hash 0) TOMBSTONE i) :
    ∃ r, insertRetry hash TOMBSTONE value cid kv (d :: ds) = .ok r ∧ FreedOne kv r.1 := by
  rcases kv.table.insert_any (hash 0) TOMBSTONE value INVALID d.now d.prevTryLock with
    ⟨i, hhit, -⟩ | ⟨t₁, hclear, -⟩
  · exact absurd hhit.visible (hnone i)
  · cases hclear with
    | buried hhit _ => exact absurd hhit.visible (hnone _)
    | missed hmiss =>
        obtain ⟨r, hr, hfreed, -⟩ := insertRetry_last (.missed hmiss) h.sound hvalue cid d ds
          (fun _ j hj hfill hkey => hnone j ⟨hj, hkey, fun l hl => (hfill l hl).1⟩)
          fun heq => absurd heq (by decide)
        exact ⟨r, hr, hfreed⟩

/-- Behind the duplicate check of the key `INVALID` the first vacant bucket of
the window is not marked with it. -/
theorem cleared_invalid {t t₁ : LinearProbingApprox} {hash : Key → ℕ}
    (hclear : t.Cleared hash INVALID t₁) {j : ℕ} (hj : j < min lockSize t₁.capacity)
    (hfill : t₁.Filled hash INVALID j) :
    (t₁.buckets (t₁.window hash INVALID j)).key ≠ INVALID := by
  cases hclear with
  | missed hmiss =>
      intro hkey
      obtain ⟨l, hhit⟩ := (⟨hj, hkey, fun l hl => (hfill l hl).1⟩ : t.Visible hash INVALID j).hit
      exact hmiss.not_hit hhit
  | @buried i hhit _ =>
      show ((t.bury (t.window hash INVALID i)).buckets (t.window hash INVALID j)).key ≠ INVALID
      rcases Nat.lt_trichotomy j i with hlt | rfl | hgt
      · have hne : t.window hash INVALID j ≠ t.window hash INVALID i := fun heq =>
          Nat.ne_of_lt hlt (window_inj hj hhit.1 heq)
        rw [bury_of_ne hne]
        exact (hhit.2.2 j hlt).2
      · rw [bury_self]
        decide
      · have hu : Usable ((t.bury (t.window hash INVALID i)).buckets
          (t.window hash INVALID i)).key := hfill i hgt
        rw [bury_self] at hu
        exact absurd rfl hu.2

/-- A bucket marked deleted keeps its window from being full. -/
theorem not_filled_bury {t : LinearProbingApprox} {hash : Key → ℕ} {i : ℕ}
    (hhit : t.Hit hash key i) : ¬ (t.bury (t.window hash key i)).Filled hash key lockSize := by
  intro hfull
  have hu : Usable ((t.bury (t.window hash key i)).buckets (t.window hash key i)).key :=
    hfull i (Nat.lt_of_lt_of_le hhit.1 (Nat.min_le_left _ _))
  rw [bury_self] at hu
  exact hu.2 rfl

/-- Nor does the next duplicate check fill it. -/
theorem not_filled_cleared {t t₁ : LinearProbingApprox} {hash : Key → ℕ}
    (hclear : t.Cleared hash key t₁) (hnot : ¬ t.Filled hash key lockSize) :
    ¬ t₁.Filled hash key lockSize := by
  cases hclear with
  | missed _ => exact hnot
  | buried hhit _ => exact not_filled_bury hhit

/-- A pass that frees the page it found, and one that frees none. -/
theorem insertRetry_two {t₁ : LinearProbingApprox} {i : ℕ} (h : kv.table.AnyKeys (hash 0))
    (hhit : kv.table.Hit (hash 0) key i)
    (hfound : (kv.table.buckets (kv.table.window (hash 0) key i)).value ≠ NONE)
    (hclear : (kv.table.bury (kv.table.window (hash 0) key i)).Cleared (hash 0) key t₁)
    (hvalue : value ≠ NONE) (d d' : InsertDraw)
    (hdup : ¬ Usable key → ∀ i < min lockSize t₁.capacity, t₁.Filled (hash 0) key i →
      (t₁.buckets (t₁.window (hash 0) key i)).key ≠ key) :
    ∃ r, insertRetry hash key value cid kv [d, d'] = .ok r ∧ FreedOne kv r.1 := by
  have hnot := not_filled_cleared hclear (not_filled_bury hhit)
  have hclear' : (kv.supersede (kv.table.window (hash 0) key i) cid d.rand).table.Cleared (hash 0)
      key t₁ := hclear
  obtain ⟨r, hr, -, hfreed⟩ := insertRetry_last hclear' (hclear.anyKeys (h.bury _)).sound hvalue
    cid d' [] hdup fun _ _ hfull => absurd hfull hnot
  exact ⟨r, (insertRetry_hit hhit hfound d [d']).trans hr, Or.inr ⟨_, hfreed hnot⟩⟩

/-- With the key `INVALID` two passes are enough unless the window is full and
its victim is busy. -/
theorem insertRetry_invalid (h : kv.table.AnyKeys (hash 0)) (hvalue : value ≠ NONE)
    (d d' : InsertDraw) (haccepts : kv.table.Accepts (hash 0) INVALID d.prevTryLock) :
    ∃ r, insertRetry hash INVALID value cid kv [d, d'] = .ok r ∧ FreedOne kv r.1 := by
  rw [Accepts, if_pos rfl] at haccepts
  rcases kv.table.insert_any (hash 0) INVALID value INVALID d.now d.prevTryLock with
    ⟨i, hhit, hfound, -⟩ | ⟨t₁, hclear, -⟩
  · rcases (kv.table.bury (kv.table.window (hash 0) INVALID i)).insert_any (hash 0) INVALID
      value INVALID d'.now d'.prevTryLock with ⟨i', hhit', hfound', -⟩ | ⟨t₁, hclear, -⟩
    · exact absurd (h.unmarked_bury hhit _ hhit'.2.1) hfound'
    · exact insertRetry_two h hhit hfound hclear hvalue d d' fun _ j hj hfill =>
        cleared_invalid hclear hj hfill
  · have hspare : lockSize ≤ t₁.capacity → t₁.Filled (hash 0) INVALID lockSize →
        ∀ i, t₁.Victim (hash 0) INVALID d.prevTryLock i →
          (t₁.buckets (t₁.window (hash 0) INVALID i)).busy = false := by
      intro hcap hfull
      cases hclear with
      | missed _ => exact haccepts hcap hfull
      | buried hhit _ => exact absurd hfull (not_filled_bury hhit)
    obtain ⟨r, hr, hfreed, -⟩ := insertRetry_last hclear (hclear.anyKeys h).sound hvalue cid d [d']
      (fun _ j hj hfill => cleared_invalid hclear hj hfill) fun _ => hspare
    exact ⟨r, hr, hfreed⟩

/-- A full window whose victim is busy: the pair handed back looks like a page
that was found. -/
theorem insertRetry_refused (h : kv.table.Filled (hash 0) INVALID lockSize)
    (hcap : lockSize ≤ kv.table.capacity) {i : ℕ} {d : InsertDraw} (hvalue : value ≠ NONE)
    (hvictim : kv.table.Victim (hash 0) INVALID d.prevTryLock i)
    (hbusy : (kv.table.buckets (kv.table.window (hash 0) INVALID i)).busy = true)
    (ds : List InsertDraw) (r : KV × ℤ) :
    insertRetry hash INVALID value cid kv (d :: ds) ≠ .ok r := by
  have hfull : ∀ j < min lockSize kv.table.capacity,
      Usable (kv.table.buckets (kv.table.window (hash 0) INVALID j)).key :=
    fun j hj => h j (Nat.lt_of_lt_of_le hj (Nat.min_le_left _ _))
  have hnone : ∀ j, ¬ kv.table.Hit (hash 0) INVALID j :=
    fun j hhit => (hfull j hhit.1).1 hhit.2.1
  rcases kv.table.insert_any (hash 0) INVALID value INVALID d.now d.prevTryLock with
    ⟨j, hhit, -⟩ | ⟨t₁, hclear, hins⟩
  · exact absurd hhit (hnone j)
  · cases hclear with
    | buried hhit _ => exact absurd hhit (hnone _)
    | missed _ =>
        have hdecides := kv.table.insertFresh_decides (hash 0) INVALID value INVALID d.now
          d.prevTryLock
        rw [← hins] at hdecides
        generalize hins : kv.table.insert (hash 0) INVALID value INVALID d.now d.prevTryLock = e
          at hdecides
        cases hdecides with
        | duplicated hj _ hnot _ => exact absurd (hfull _ hj) hnot
        | vacant hj _ hnot _ => exact absurd (hfull _ hj) hnot
        | victim _ _ hvictim' =>
            rw [hvictim'.unique hvictim] at hins
            rw [insertRetry, hins, evictVictim, if_pos hbusy]
            simp [refuse, hvalue]
        | dropped hlt _ => exact absurd hcap (Nat.not_le_of_gt hlt)

/-! ## Usable keys -/

/-- A usable key is found with a page. -/
theorem hit_found (h : kv.table.AnyKeys (hash 0)) (hkey : Usable key) {i : ℕ}
    (hhit : kv.table.Hit (hash 0) key i) :
    (kv.table.buckets (kv.table.window (hash 0) key i)).value ≠ NONE := by
  refine h.sound _ ?_
  rw [hhit.2.1]
  exact hkey

/-- With at most one visible copy two passes are enough. -/
theorem insertRetry_usable (h : kv.table.AnyKeys (hash 0)) (hkey : Usable key)
    (hvalue : value ≠ NONE) (d d' : InsertDraw)
    (hone : ∀ i j, kv.table.Visible (hash 0) key i → kv.table.Visible (hash 0) key j → i = j) :
    ∃ r, insertRetry hash key value cid kv [d, d'] = .ok r ∧ FreedOne kv r.1 := by
  rcases kv.table.insert_any (hash 0) key value INVALID d.now d.prevTryLock with
    ⟨i, hhit, hfound, -⟩ | ⟨t₁, hclear, -⟩
  · rcases (kv.table.bury (kv.table.window (hash 0) key i)).insert_any (hash 0) key value INVALID
      d'.now d'.prevTryLock with ⟨j, hhit', -, -⟩ | ⟨t₁, hclear, -⟩
    · obtain ⟨hvisible, hne⟩ := hhit'.visible.of_bury hkey hhit.2.1
      exact absurd (hone j i hvisible hhit.visible) hne
    · exact insertRetry_two h hhit hfound hclear hvalue d d' fun hnot => absurd hkey hnot
  · obtain ⟨r, hr, hfreed, -⟩ := insertRetry_last hclear (hclear.anyKeys h).sound hvalue cid d [d']
      (fun hnot => absurd hkey hnot) fun hinv => absurd hinv hkey.1
    exact ⟨r, hr, hfreed⟩

/-- With two visible copies they are not. -/
theorem insertRetry_copies (h : kv.table.AnyKeys (hash 0)) (hkey : Usable key) {i j : ℕ}
    (hi : kv.table.Visible (hash 0) key i) (hj : kv.table.Visible (hash 0) key j) (hne : i ≠ j)
    (d d' : InsertDraw) (r : KV × ℤ) :
    insertRetry hash key value cid kv [d, d'] ≠ .ok r := by
  obtain ⟨l, hhit⟩ := hi.hit
  obtain ⟨m, hm, hml⟩ : ∃ m, kv.table.Visible (hash 0) key m ∧ m ≠ l := by
    by_cases hl : i = l
    · exact ⟨j, hj, fun heq => hne (hl.trans heq.symm)⟩
    · exact ⟨i, hi, hl⟩
  obtain ⟨n, hhit'⟩ := (hm.bury hhit.1 hml).hit
  have hbury : (kv.supersede (kv.table.window (hash 0) key l) cid d.rand).table.AnyKeys (hash 0) :=
    h.bury _
  rw [insertRetry_hit hhit (hit_found h hkey hhit), insertRetry_hit hhit' (hit_found hbury hkey hhit')]
  exact nofun

/-! ## The call -/

/-- Two buckets of different keys hold the page. -/
def StoredTwice (t : LinearProbingApprox) (page : Value) : Prop :=
  ∃ s s', t.isValidBucket s ∧ t.isValidBucket s' ∧ (t.buckets s).key ≠ (t.buckets s').key ∧
    (t.buckets s).value = page ∧ (t.buckets s').value = page

/-- `Insert` runs its loop at most twice, throws nothing, and frees no page
twice that was not stored twice. -/
def Settles (hash : HashFuncs) (kv : KV) (key : Key) (value : Value) (cid : ℕ)
    (d d' : InsertDraw) : Prop :=
  ∃ kv' pages, kv.insert hash key value cid [d, d'] = .ok kv' ∧
    kv'.pool.freed = pages ++ kv.pool.freed ∧
    ∀ page, 1 < pages.count page → StoredTwice kv.table page

theorem settles_of_retry {d d' : InsertDraw} {r : KV × ℤ}
    (hr : insertRetry hash key value cid kv [d, d'] = .ok r) (hfreed : FreedOne kv r.1) :
    Settles hash kv key value cid d d' := by
  have hpool : ∀ r : KV × ℤ, (if r.2 = 0 then r.1.cbfInsert hash cid key else r.1).pool =
      r.1.pool := by
    intro r
    split <;> rfl
  have hins : kv.insert hash key value cid [d, d'] =
      .ok (if r.2 = 0 then r.1.cbfInsert hash cid key else r.1) := by
    rw [insert, hr]
    rfl
  rcases hfreed with hnone | ⟨a, ha⟩
  · refine ⟨_, [], hins, by rw [hpool]; exact hnone, fun page hpage => ?_⟩
    simp at hpage
  · refine ⟨_, [a], hins, by rw [hpool]; exact ha, fun page hpage => ?_⟩
    exact absurd hpage (Nat.not_lt_of_le List.count_le_length)

theorem Settles.retry {d d' : InsertDraw} (h : Settles hash kv key value cid d d') :
    ∃ r, insertRetry hash key value cid kv [d, d'] = .ok r := by
  obtain ⟨kv', -, hins, -, -⟩ := h
  obtain ⟨r, hr, -⟩ := insert_ok hins
  exact ⟨r, hr⟩

/-- In every table that calls with any keys lead to, `Insert` of any key
settles exactly when the table accepts it. -/
theorem insert_settles_iff {capacity : ℕ} {calls : List TableCall}
    (hcalls : ∀ c ∈ calls, c.NonNull)
    (hrun : (tableSystem (hash 0) capacity).exec (.new capacity) calls = some kv.table)
    (hvalue : value ≠ NONE) (cid : ℕ) (d d' : InsertDraw) :
    Settles hash kv key value cid d d' ↔ kv.table.Accepts (hash 0) key d.prevTryLock := by
  have h := tableSystem_anyKeys hcalls hrun
  by_cases hinv : key = INVALID
  · subst hinv
    constructor
    · intro hsettles
      obtain ⟨r, hr⟩ := hsettles.retry
      rw [Accepts, if_pos rfl]
      intro hcap hfull i hvictim
      rw [← Bool.not_eq_true]
      intro hbusy
      exact insertRetry_refused hfull hcap hvalue hvictim hbusy [d'] r hr
    · intro haccepts
      obtain ⟨r, hr, hfreed⟩ := insertRetry_invalid h hvalue d d' haccepts
      exact settles_of_retry hr hfreed
  by_cases htomb : key = TOMBSTONE
  · subst htomb
    rw [Accepts, if_neg hinv, if_pos rfl]
    constructor
    · intro hsettles i hvisible
      obtain ⟨r, hr⟩ := hsettles.retry
      exact insertRetry_visible hvisible _ r hr
    · intro hnone
      obtain ⟨r, hr, hfreed⟩ := insertRetry_hidden h hvalue d [d'] hnone
      exact settles_of_retry hr hfreed
  · rw [Accepts, if_neg hinv, if_neg htomb]
    constructor
    · intro hsettles i j hi hj
      obtain ⟨r, hr⟩ := hsettles.retry
      by_contra hne
      exact insertRetry_copies h ⟨hinv, htomb⟩ hi hj hne d d' r hr
    · intro hone
      obtain ⟨r, hr, hfreed⟩ := insertRetry_usable h ⟨hinv, htomb⟩ hvalue d d' hone
      exact settles_of_retry hr hfreed

/-- A key whose home is bucket 12, that of `TOMBSTONE`, is stored and deleted. -/
def deletedCalls : List TableCall := [.insert 12 100 INVALID 5 true, .delete 12]

theorem deleted_run : ∃ kv : KV,
    (tableSystem BitVec.toNat 16).exec (.new 16) deletedCalls = some kv.table ∧
      kv.table.Hit BitVec.toNat TOMBSTONE 0 ∧
      (kv.table.buckets (kv.table.window BitVec.toNat TOMBSTONE 0)).value ≠ NONE := by
  have hmap : ((tableSystem BitVec.toNat 16).exec (.new 16) deletedCalls).map (fun t =>
      decide (0 < min lockSize t.capacity ∧
        (t.buckets (t.window BitVec.toNat TOMBSTONE 0)).key = TOMBSTONE ∧
        (t.buckets (t.window BitVec.toNat TOMBSTONE 0)).value ≠ NONE)) = some true := by
    decide +kernel
  obtain ⟨t, hrun, ht⟩ := Option.map_eq_some_iff.mp hmap
  obtain ⟨hlt, hkey, hvalue⟩ := of_decide_eq_true ht
  refine ⟨⟨t, .new 4096 (2 ^ 16) 1 1, fun _ => .new 1 8⟩, hrun, ⟨hlt, hkey, ?_⟩, hvalue⟩
  intro j hj
  exact absurd hj (Nat.not_lt_zero j)

theorem insert_settles_iff_deleted : ∃ kv : KV,
    (tableSystem BitVec.toNat 16).exec (.new 16) deletedCalls = some kv.table ∧
      (Settles (fun _ => BitVec.toNat) kv TOMBSTONE 300 0 {} {} ↔
        kv.table.Accepts BitVec.toNat TOMBSTONE true) := by
  obtain ⟨kv, hrun, -, -⟩ := deleted_run
  have hcalls : ∀ c ∈ deletedCalls, c.NonNull := by decide
  have hvalue : (300 : Value) ≠ NONE := by decide
  exact ⟨kv, hrun, @insert_settles_iff (fun _ => BitVec.toNat) kv TOMBSTONE 300 16 deletedCalls
    hcalls hrun hvalue 0 {} {}⟩

/-- The key `TOMBSTONE` finds the page of the deleted key in every pass. -/
theorem insert_tombstone_loops : ∃ kv : KV,
    (tableSystem BitVec.toNat 16).exec (.new 16) deletedCalls = some kv.table ∧
      (∀ cid draws, kv.insert (fun _ => BitVec.toNat) TOMBSTONE 300 cid draws =
        .error .retrying) ∧
      ∀ cid d d', ¬ Settles (fun _ => BitVec.toNat) kv TOMBSTONE 300 cid d d' := by
  obtain ⟨kv, hrun, hhit, hfound⟩ := deleted_run
  have hloops : ∀ cid draws, kv.insert (fun _ => BitVec.toNat) TOMBSTONE 300 cid draws =
      .error .retrying := by
    intro cid draws
    rw [insert, insertRetry_tombstone draws kv hhit hfound]
    rfl
  refine ⟨kv, hrun, hloops, ?_⟩
  rintro cid d d' ⟨kv', -, hins, -, -⟩
  rw [hloops] at hins
  cases hins

end KV

end CleancacheRdma.Daemon
