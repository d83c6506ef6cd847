import Mathlib.Algebra.Order.Ring.Abs
import Mathlib.Data.Nat.Prime.Basic
import Pone.CLong

/-!
# `Int#is-prime`

Trial division by the odd numbers below the half.  A composite odd number is at least three times its
least factor, so the half cuts off no factor that is needed.
-/

namespace Pone
namespace Primality

/-! ## The method -/

/-- So many rounds of the loop, from `i` on; `none` where C leaves it undefined, and where the loop
takes more rounds. -/
def loop (num : Int) : Nat → Int → Option Bool
  | 0, _ => none
  | rounds + 1, i =>
      (CLong.div num 2).bind fun half =>
        if i < half then
          (CLong.mod num i).bind fun rest =>
            if rest = 0 then some false else (CLong.add i 2).bind (loop num rounds)
        else some true

/-- `meth_int_is_prime` -/
def methIntIsPrime (rounds : Nat) (num : Int) : Option Bool :=
  if num ≤ 1 then some false
  else if num = 2 then some true
  else
    (CLong.mod num 2).bind fun rest =>
      if rest = 0 then some false else loop num rounds 3

/-! ## The loop -/

theorem div_two {n : Nat} (long : CLong.Fits n) : CLong.div n 2 = some ((n / 2 : Nat) : Int) := by
  rw [CLong.div_eq_some_iff long]
  exact ⟨by decide, fun lowest => absurd lowest.2 (by decide), Int.ofNat_tdiv n 2⟩

theorem mod_nat {n d : Nat} (long : CLong.Fits n) (positive : 0 < d) :
    CLong.mod n d = some ((n % d : Nat) : Int) := by
  rw [CLong.mod_eq_some_iff long]
  exact ⟨by omega, fun lowest => absurd lowest.2 (by omega), Int.ofNat_tmod n d⟩

/-- A divisor that the loop finds when it starts at `d`. -/
def Found (n d : Nat) : Prop := ∃ e, d ≤ e ∧ Odd e ∧ e < n / 2 ∧ e ∣ n

/-- The divisor `d` aside, the next one that can be found is `d + 2`. -/
theorem found_next {n d : Nat} (odd : Odd d) (foreign : ¬ d ∣ n) : Found n d ↔ Found n (d + 2) := by
  constructor
  · rintro ⟨e, behind, oddE, small, divides⟩
    refine ⟨e, ?_, oddE, small, divides⟩
    have other : e ≠ d := fun same => foreign (same ▸ divides)
    have parity : e ≠ d + 1 := fun same => by
      rw [same] at oddE
      exact Nat.not_even_iff_odd.mpr oddE odd.add_one
    omega
  · rintro ⟨e, behind, rest⟩
    exact ⟨e, by omega, rest⟩

/-- With rounds enough to get to the end, the loop answers whether there is no divisor to be found. -/
theorem loop_eq {n : Nat} (long : CLong.Fits n) {rounds d : Nat} (positive : 0 < d) (odd : Odd d)
    (enough : n / 2 ≤ d + 2 * rounds) :
    ∃ answer, loop n (rounds + 1) d = some answer ∧ (answer = true ↔ ¬ Found n d) := by
  induction rounds generalizing d with
  | zero =>
      refine ⟨true, ?_, iff_of_true rfl ?_⟩
      · rw [loop, div_two long, Option.bind_some, if_neg (by omega)]
      · rintro ⟨e, behind, -, small, -⟩
        omega
  | succ rounds ih =>
      rw [loop, div_two long, Option.bind_some]
      by_cases inside : d < n / 2
      · rw [if_pos (by omega), mod_nat long positive, Option.bind_some]
        by_cases divides : d ∣ n
        · rw [if_pos (by rw [Nat.mod_eq_zero_of_dvd divides]; rfl)]
          exact ⟨false, rfl, iff_of_false Bool.false_ne_true
            fun none_found => none_found ⟨d, Nat.le_refl d, odd, inside, divides⟩⟩
        · have rest : ¬ ((n % d : Nat) : Int) = 0 := fun zero =>
            divides (Nat.dvd_of_mod_eq_zero (Int.ofNat_eq_zero.mp zero))
          have step : CLong.add d 2 = some ((d + 2 : Nat) : Int) := by
            rw [CLong.fits_iff] at long
            exact CLong.checked_of_fits (by rw [CLong.fits_iff]; omega)
          rw [if_neg rest, step, Option.bind_some, found_next odd divides]
          exact ih (by omega) (odd.add_even even_two) (by omega)
      · refine ⟨true, if_neg (by omega), iff_of_true rfl ?_⟩
        rintro ⟨e, behind, -, small, -⟩
        omega

/-- The least factor of a composite odd number is below the half. -/
theorem prime_iff_not_found {n : Nat} (odd : Odd n) (large : 2 < n) :
    n.Prime ↔ ¬ Found n 3 := by
  constructor
  · rintro prime ⟨e, behind, -, small, divides⟩
    rcases (Nat.dvd_prime prime).mp divides with one | whole <;> omega
  · intro none_found
    by_contra composite
    have least : 3 ≤ n.minFac := by
      have two_le : 2 ≤ n.minFac := (Nat.minFac_prime (by omega)).two_le
      have other : n.minFac ≠ 2 := fun two =>
        Nat.not_even_iff_odd.mpr odd (even_iff_two_dvd.mpr ((Nat.minFac_eq_two_iff n).mp two))
      omega
    have square : n.minFac * n.minFac ≤ n := by
      rw [← sq]
      exact Nat.minFac_sq_le_self (by omega) composite
    have three_times : 3 * n.minFac ≤ n := Nat.le_trans (Nat.mul_le_mul_right _ least) square
    exact none_found ⟨n.minFac, least, odd.of_dvd_nat n.minFac_dvd, by omega, n.minFac_dvd⟩

/-- The answer comes after finitely many rounds, without an overflow, and is `True` for the prime
numbers. -/
theorem isPrime_iff (num : Int) (long : CLong.Fits num) :
    ∃ rounds answer, methIntIsPrime rounds num = some answer ∧
      (answer = true ↔ ∃ p : ℕ, p.Prime ∧ (p : Int) = num) := by
  by_cases small : num ≤ 1
  · refine ⟨0, false, if_pos small, iff_of_false Bool.false_ne_true ?_⟩
    rintro ⟨p, prime, rfl⟩
    have two_le := prime.two_le
    omega
  · obtain ⟨n, rfl⟩ : ∃ n : ℕ, (n : Int) = num := ⟨num.toNat, by omega⟩
    have same : (∃ p : ℕ, p.Prime ∧ (p : Int) = n) ↔ n.Prime := by
      simp only [Int.natCast_inj, exists_eq_right]
    rw [same]
    by_cases two : n = 2
    · subst two
      exact ⟨0, true, rfl, iff_of_true rfl Nat.prime_two⟩
    · have body : ∀ rounds, methIntIsPrime rounds n =
          if ((n % 2 : Nat) : Int) = 0 then some false else loop n rounds 3 := by
        intro rounds
        rw [methIntIsPrime, if_neg small, if_neg (by omega)]
        exact congrArg (Option.bind · _) (mod_nat (d := 2) long (by decide))
      by_cases even : n % 2 = 0
      · refine ⟨0, false, by rw [body, even]; rfl, iff_of_false Bool.false_ne_true fun prime => ?_⟩
        exact two ((Nat.prime_dvd_prime_iff_eq Nat.prime_two prime).mp
          (Nat.dvd_of_mod_eq_zero even)).symm
      · have odd : Odd n := Nat.odd_iff.mpr (by omega)
        have enough : n / 2 ≤ 3 + 2 * n := by omega
        obtain ⟨answer, ran, none_found⟩ := loop_eq long (d := 3) (by decide) (by decide) enough
        refine ⟨n + 1, answer, ?_, none_found.trans (prime_iff_not_found odd (by omega)).symm⟩
        rw [body, if_neg (by omega)]
        exact ran

theorem isPrime_iff_nine :
    ∃ rounds answer, methIntIsPrime rounds 9 = some answer ∧
      (answer = true ↔ ∃ p : ℕ, p.Prime ∧ (p : Int) = 9) :=
  isPrime_iff 9 (by decide)

-- the loop for 9 has one round
example : methIntIsPrime 1 9 = some false := by decide

end Primality
end Pone
