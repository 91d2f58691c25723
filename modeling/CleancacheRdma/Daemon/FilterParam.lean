import Mathlib
import CleancacheRdma.Lib.Loop

/-!
# The size of a filter

`generate_prime` of `counting_bloom_filter.hpp`, which `calc_filter_param`
calls for the number of bits of a client's filter. It tries the numbers from
`low` on by trial division and stops at `high`, prime or not.
-/

namespace CleancacheRdma.Daemon

open Lib (Ctl)
open Lib.Loop

/-! ## `generate_prime` -/

/-- One pass of the trial division; `isPrime` is the flag before the loop. -/
def trialPass (low : ℕ) (isPrime : Bool) (i : ℕ) : Ctl Bool ℕ :=
  if i ≤ low / 2 then
    if low % i = 0 then .out false else .next (i + 1)
  else
    .out isPrime

/-- The flag `is_prime` behind the trial division. -/
def isPrime (low : ℕ) : Bool :=
  -- 0 and 1 are not prime numbers
  let isPrime := !(low = 0 || low = 1)
  result (trialPass low isPrime) (fun _ => isPrime) (low + 1) 2

/-- One pass of the search. -/
def generatePass (high low : ℕ) : Ctl ℕ ℕ :=
  if low < high then
    if isPrime low then .out low else .next (low + 1)
  else
    .out low

def generatePrime (low high : ℕ) : ℕ :=
  result (generatePass high) (fun low => low) (high + 1) low

/-- What `calc_filter_param` makes of the number of bits its formula gives, an
`unsigned int`. -/
def filterNumBits (numBits : ℕ) : ℕ :=
  generatePrime numBits ((numBits + 50) % 2 ^ 32)

/-! ## Trial division -/

/-- Half of a number is enough to look for its divisors. -/
theorem prime_iff_half {n : ℕ} :
    n.Prime ↔ 2 ≤ n ∧ ∀ m, 2 ≤ m → m ≤ n / 2 → ¬ m ∣ n := by
  rw [Nat.prime_def_lt']
  constructor
  · rintro ⟨htwo, hall⟩
    exact ⟨htwo, fun m hm hle => hall m hm (by omega)⟩
  · rintro ⟨htwo, hall⟩
    refine ⟨htwo, fun m hm hlt hdvd => hall m hm ?_ hdvd⟩
    obtain ⟨k, rfl⟩ := hdvd
    have hk : 2 ≤ k := by
      by_contra hsmall
      interval_cases k <;> omega
    rw [Nat.le_div_iff_mul_le Nat.two_pos]
    exact Nat.mul_le_mul_left m hk

/-- The divisors tried so far do not divide. -/
structure Untried (low i : ℕ) : Prop where
  two_le : 2 ≤ i
  tried : ∀ m, 2 ≤ m → m < i → ¬ m ∣ low

theorem trialPass_owes {low i : ℕ} (h : Untried low i) :
    Owes (Untried low) (fun i => low / 2 + 1 - i) (fun b => b = true ↔ low.Prime) i
      (trialPass low (!(low = 0 || low = 1)) i) := by
  rw [trialPass]
  by_cases hle : i ≤ low / 2
  · rw [if_pos hle]
    by_cases hdvd : low % i = 0
    · rw [if_pos hdvd]
      constructor
      · intro hfalse
        cases hfalse
      · intro hprime
        exact absurd (Nat.dvd_of_mod_eq_zero hdvd) ((prime_iff_half.mp hprime).2 i h.two_le hle)
    · rw [if_neg hdvd]
      refine ⟨⟨Nat.le_succ_of_le h.two_le, fun m hm hlt => ?_⟩,
        Nat.sub_lt_sub_left (Nat.lt_succ_of_le hle) (Nat.lt_succ_self i)⟩
      rcases Nat.lt_succ_iff_lt_or_eq.mp hlt with hbefore | rfl
      · exact h.tried m hm hbefore
      · exact fun hm' => hdvd (Nat.mod_eq_zero_of_dvd hm')
  · rw [if_neg hle]
    have hflag : (!(decide (low = 0) || decide (low = 1))) = true ↔ 2 ≤ low := by
      simp
      omega
    rw [Owes, hflag, prime_iff_half]
    constructor
    · intro htwo
      exact ⟨htwo, fun m hm hhalf => h.tried m hm (by omega)⟩
    · exact And.left

theorem isPrime_iff (low : ℕ) : isPrime low = true ↔ low.Prime := by
  have hstart : Untried low 2 := ⟨Nat.le_refl 2, fun m hm hlt => absurd hlt (Nat.not_lt.mpr hm)⟩
  exact result_total (Q := fun b => b = true ↔ low.Prime) (fun _ h => trialPass_owes h) hstart
    (by omega)

/-! ## The search -/

/-- What the search from `low` has found out when it is at `r`. -/
structure Searched (low high r : ℕ) : Prop where
  low_le : low ≤ r
  le_high : r ≤ high
  skipped : ∀ p, p.Prime → low ≤ p → r ≤ p

theorem generatePass_owes {low high r : ℕ} (h : Searched low high r) :
    Owes (Searched low high) (fun r => high - r)
      (fun r => Searched low high r ∧ (r.Prime ∨ r = high)) r (generatePass high r) := by
  rw [generatePass]
  by_cases hlt : r < high
  · rw [if_pos hlt]
    by_cases hprime : isPrime r = true
    · rw [if_pos hprime]
      exact ⟨h, Or.inl ((isPrime_iff r).mp hprime)⟩
    · rw [if_neg hprime]
      refine ⟨⟨Nat.le_succ_of_le h.low_le, hlt, fun p hp hle => ?_⟩,
        Nat.sub_lt_sub_left hlt (Nat.lt_succ_self r)⟩
      apply Nat.lt_of_le_of_ne (h.skipped p hp hle)
      rintro rfl
      exact hprime ((isPrime_iff r).mpr hp)
  · rw [if_neg hlt]
    exact ⟨h, Or.inr (Nat.le_antisymm h.le_high (Nat.not_lt.mp hlt))⟩

theorem generatePrime_searched {low high : ℕ} (hle : low ≤ high) :
    Searched low high (generatePrime low high) ∧
      ((generatePrime low high).Prime ∨ generatePrime low high = high) := by
  have hstart : Searched low high low := ⟨Nat.le_refl low, hle, fun _ _ h => h⟩
  exact result_total (Q := fun r => Searched low high r ∧ (r.Prime ∨ r = high))
    (fun _ h => generatePass_owes h) hstart (by omega)

/-- The first prime from `low` on, where there is one below `high`. -/
theorem generatePrime_isLeast {low high : ℕ} (h : {p | p.Prime ∧ low ≤ p ∧ p < high}.Nonempty) :
    IsLeast {p | p.Prime ∧ low ≤ p ∧ p < high} (generatePrime low high) := by
  obtain ⟨p, hp, hlow, hhigh⟩ := h
  obtain ⟨hr, hend⟩ := generatePrime_searched (Nat.le_of_lt (Nat.lt_of_le_of_lt hlow hhigh))
  have hlt : generatePrime low high < high := Nat.lt_of_le_of_lt (hr.skipped p hp hlow) hhigh
  refine ⟨⟨hend.resolve_right (Nat.ne_of_lt hlt), hr.low_le, hlt⟩, ?_⟩
  rintro q ⟨hq, hqlow, -⟩
  exact hr.skipped q hq hqlow

theorem filterNumBits_eq {low : ℕ} (h : low + 50 < 2 ^ 32) :
    filterNumBits low = generatePrime low (low + 50) := by
  rw [filterNumBits, Nat.mod_eq_of_lt h]

theorem filterNumBits_prime {low : ℕ} (h : low + 50 < 2 ^ 32) :
    (filterNumBits low).Prime ↔ ∃ p, p.Prime ∧ low ≤ p ∧ p ≤ low + 50 := by
  rw [filterNumBits_eq h]
  obtain ⟨hr, hend⟩ := generatePrime_searched (Nat.le_add_right low 50)
  constructor
  · intro hprime
    exact ⟨_, hprime, hr.low_le, hr.le_high⟩
  · rintro ⟨p, hp, hlow, hhigh⟩
    rcases hend with hprime | hstop
    · exact hprime
    · -- the search has passed every prime but `high` itself
      have hle := hr.skipped p hp hlow
      have heq : p = generatePrime low (low + 50) := by omega
      exact heq ▸ hp

/-- The size chosen is prime exactly if one of the 51 numbers from `low` on is;
and a search finds the least prime of its interval, if there is one. -/
theorem filter_size_prime_iff (low : ℕ) :
    (low + 50 < 2 ^ 32 →
      ((filterNumBits low).Prime ↔ ∃ p, p.Prime ∧ low ≤ p ∧ p ≤ low + 50)) ∧
    ∀ high, low < high → {p | p.Prime ∧ low ≤ p ∧ p < high}.Nonempty →
      IsLeast {p | p.Prime ∧ low ≤ p ∧ p < high} (generatePrime low high) := by
  constructor
  · exact filterNumBits_prime
  · intro high _ h
    exact generatePrime_isLeast h

/-- 3,144 elements: the formula gives 19,604 bits. -/
theorem filter_size_prime_iff_19604 : (filterNumBits 19604).Prime := by
  apply ((filter_size_prime_iff 19604).1 (by decide)).mpr
  exact ⟨19609, by norm_num, by decide, by decide⟩

/-- 3,145 elements: the formula gives 19,610 bits, one past a prime, and the
next one is 19,661. -/
theorem filter_size_composite : filterNumBits 19610 = 19660 ∧ ¬ (filterNumBits 19610).Prime := by
  have hsize : filterNumBits 19610 = 19660 := by decide +kernel
  refine ⟨hsize, ?_⟩
  rw [hsize]
  norm_num

end CleancacheRdma.Daemon
