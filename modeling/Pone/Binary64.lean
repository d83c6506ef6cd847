import Mathlib.Algebra.Order.Floor.Ring
import Mathlib.Data.Int.Log
import Mathlib.Data.Rat.Floor
import Mathlib.Tactic.Linarith
import Mathlib.Tactic.NormNum
import Mathlib.Tactic.Positivity

/-!
# Binary floating-point numbers of 64 bits

The finite numbers that are not negative, as exact rationals, and the rounding of a rational to the
nearest of them, in ties to the one with an even significand.
-/

namespace Binary64

/-- The nearest integer, in a tie the even one. -/
def roundEven (q : ℚ) : ℤ :=
  if q - ⌊q⌋ < 1 / 2 ∨ q - ⌊q⌋ = 1 / 2 ∧ ⌊q⌋ % 2 = 0 then ⌊q⌋ else ⌊q⌋ + 1

theorem roundEven_intCast (n : ℤ) : roundEven n = n := by
  simp [roundEven]

theorem floor_le_roundEven (q : ℚ) : ⌊q⌋ ≤ roundEven q := by
  unfold roundEven
  split <;> omega

theorem roundEven_le_floor_add_one (q : ℚ) : roundEven q ≤ ⌊q⌋ + 1 := by
  unfold roundEven
  split <;> omega

theorem roundEven_nonneg {q : ℚ} (nonneg : 0 ≤ q) : 0 ≤ roundEven q :=
  Int.le_trans (Int.floor_nonneg.mpr nonneg) (floor_le_roundEven q)

/-- The rounded number is the number itself only where this is an integer. -/
theorem roundEven_eq_iff {q : ℚ} : (roundEven q : ℚ) = q ↔ ∃ n : ℤ, q = n := by
  constructor
  · intro same
    exact ⟨roundEven q, same.symm⟩
  · rintro ⟨n, rfl⟩
    rw [roundEven_intCast]

theorem abs_roundEven_sub_le (q : ℚ) : |(roundEven q : ℚ) - q| ≤ 1 / 2 := by
  have low := Int.floor_le q
  have high := Int.lt_floor_add_one q
  rw [abs_le]
  unfold roundEven
  split
  · next down =>
      have half : q - ⌊q⌋ ≤ 1 / 2 := down.elim le_of_lt fun tie => tie.1.le
      constructor <;> linarith
  · next up =>
      rw [not_or, not_lt] at up
      push_cast
      constructor <;> linarith [up.1]

theorem roundEven_of_near {q : ℚ} {n : ℤ} (near : |q - n| < 1 / 2) : roundEven q = n := by
  rw [abs_lt] at near
  by_cases below : (n : ℚ) ≤ q
  · have floor : ⌊q⌋ = n := Int.floor_eq_iff.mpr ⟨below, by linarith⟩
    rw [roundEven, floor, if_pos (.inl near.2)]
  · rw [not_le] at below
    have floor : ⌊q⌋ = n - 1 := by
      rw [Int.floor_eq_iff]
      push_cast
      exact ⟨by linarith, by linarith⟩
    have up : ¬ (q - ⌊q⌋ < 1 / 2 ∨ q - ⌊q⌋ = 1 / 2 ∧ ⌊q⌋ % 2 = 0) := by
      rw [floor]
      push_cast
      rintro (less | tie)
      · linarith
      · linarith [tie.1]
    rw [roundEven, if_neg up, floor, sub_add_cancel]

/-- The value of a finite number: a significand of 53 bits times a power of two. -/
def Representable (q : ℚ) : Prop :=
  ∃ (m : ℕ) (e : ℤ), m < 2 ^ 53 ∧ -1074 ≤ e ∧ e ≤ 971 ∧ q = m * 2 ^ e

theorem Representable.nonneg {q : ℚ} (rep : Representable q) : 0 ≤ q := by
  obtain ⟨m, e, -, -, -, rfl⟩ := rep
  exact mul_nonneg (Nat.cast_nonneg m) (zpow_nonneg two_pos.le e)

/-- The exponent of the last place at a number. -/
def lastPlace (q : ℚ) : ℤ := max (Int.log 2 q - 52) (-1074)

/-- The number rounded to its last place. -/
def roundTo (q : ℚ) : ℚ := roundEven (q / 2 ^ lastPlace q) * 2 ^ lastPlace q

theorem zpow_pos_two (e : ℤ) : (0 : ℚ) < 2 ^ e := zpow_pos two_pos e

/-- A representable number has no digits behind its last place. -/
theorem Representable.dvd {q : ℚ} (rep : Representable q) :
    ∃ n : ℤ, q / 2 ^ lastPlace q = n := by
  obtain ⟨m, e, small, low, -, rfl⟩ := rep
  by_cases zero : m = 0
  · exact ⟨0, by simp [zero]⟩
  have positive : (0 : ℚ) < m * 2 ^ e := by
    have : (0 : ℚ) < m := by exact_mod_cast Nat.pos_of_ne_zero zero
    exact mul_pos this (zpow_pos_two e)
  have within : lastPlace (m * 2 ^ e) ≤ e := by
    refine max_le ?_ low
    have lower : (2 : ℚ) ^ Int.log 2 ((m : ℚ) * 2 ^ e) ≤ m * 2 ^ e := by
      exact_mod_cast Int.zpow_log_le_self (b := 2) one_lt_two positive
    have upper : (m : ℚ) * 2 ^ e < 2 ^ (53 + e) := by
      rw [zpow_add₀ two_ne_zero]
      have : (m : ℚ) < 2 ^ (53 : ℤ) := by exact_mod_cast small
      exact mul_lt_mul_of_pos_right this (zpow_pos_two e)
    have exponents := (zpow_lt_zpow_iff_right₀ (one_lt_two : (1 : ℚ) < 2)).mp
      (lower.trans_lt upper)
    omega
  refine ⟨m * 2 ^ (e - lastPlace (m * 2 ^ e)).toNat, ?_⟩
  have split : (e - lastPlace ((m : ℚ) * 2 ^ e)).toNat = e - lastPlace ((m : ℚ) * 2 ^ e) :=
    Int.toNat_of_nonneg (by omega)
  push_cast
  rw [← zpow_natCast (2 : ℚ), split, zpow_sub₀ two_ne_zero, mul_div_assoc]

theorem roundTo_of_representable {q : ℚ} (rep : Representable q) : roundTo q = q := by
  obtain ⟨n, whole⟩ := rep.dvd
  rw [roundTo, whole, roundEven_intCast, ← whole]
  exact div_mul_cancel₀ q (zpow_pos_two _).ne'

theorem Representable.lt_overflow {q : ℚ} (rep : Representable q) : q < 2 ^ 1024 := by
  obtain ⟨m, e, small, -, high, rfl⟩ := rep
  have significand : (m : ℚ) < 2 ^ (53 : ℤ) := by exact_mod_cast small
  calc (m : ℚ) * 2 ^ e < 2 ^ (53 : ℤ) * 2 ^ e :=
        mul_lt_mul_of_pos_right significand (zpow_pos_two e)
    _ = 2 ^ (53 + e) := (zpow_add₀ two_ne_zero _ _).symm
    _ ≤ 2 ^ (1024 : ℤ) := zpow_le_zpow_right₀ one_le_two (by omega)
    _ = 2 ^ 1024 := zpow_natCast 2 1024

/-- What lies below the next power of two has at most 53 bits before its last place. -/
theorem scaled_lt (q : ℚ) : q / 2 ^ lastPlace q < 2 ^ (53 : ℤ) := by
  rw [div_lt_iff₀ (zpow_pos_two _), ← zpow_add₀ two_ne_zero]
  have upper : q < 2 ^ (Int.log 2 q + 1) := by
    exact_mod_cast Int.lt_zpow_succ_log_self (b := 2) one_lt_two q
  refine upper.trans_le (zpow_le_zpow_right₀ one_le_two ?_)
  have := le_max_left (Int.log 2 q - 52) (-1074)
  unfold lastPlace
  omega

theorem roundEven_scaled_le (q : ℚ) : roundEven (q / 2 ^ lastPlace q) ≤ 2 ^ 53 := by
  have floor_lt : ⌊q / 2 ^ lastPlace q⌋ < 2 ^ 53 := by
    apply Int.floor_lt.mpr
    exact_mod_cast scaled_lt q
  have := roundEven_le_floor_add_one (q / 2 ^ lastPlace q)
  omega

/-- A normal number fills all 53 bits. -/
theorem le_roundEven_scaled {q : ℚ} (positive : 0 < q) (normal : -1074 < lastPlace q) :
    2 ^ 52 ≤ roundEven (q / 2 ^ lastPlace q) := by
  have place : lastPlace q = Int.log 2 q - 52 := by
    unfold lastPlace at normal ⊢
    omega
  have above : (2 : ℚ) ^ (52 : ℤ) ≤ q / 2 ^ lastPlace q := by
    rw [le_div_iff₀ (zpow_pos_two _), ← zpow_add₀ two_ne_zero, place]
    have lower : (2 : ℚ) ^ Int.log 2 q ≤ q := by
      exact_mod_cast Int.zpow_log_le_self (b := 2) one_lt_two positive
    rwa [show (52 : ℤ) + (Int.log 2 q - 52) = Int.log 2 q by omega]
  have le_floor : 2 ^ 52 ≤ ⌊q / 2 ^ lastPlace q⌋ := by
    apply Int.le_floor.mpr
    exact_mod_cast above
  exact le_floor.trans (floor_le_roundEven _)

/-- A number that does not overflow is rounded to a representable one. -/
theorem representable_roundTo {q : ℚ} (nonneg : 0 ≤ q) (fits : roundTo q < 2 ^ 1024) :
    Representable (roundTo q) := by
  have rounded_nonneg : 0 ≤ roundEven (q / 2 ^ lastPlace q) :=
    roundEven_nonneg (div_nonneg nonneg (zpow_pos_two _).le)
  obtain ⟨m, same⟩ := Int.eq_ofNat_of_zero_le rounded_nonneg
  have at_most : m ≤ 2 ^ 53 := by
    have := roundEven_scaled_le q
    rw [same] at this
    exact_mod_cast this
  have value : roundTo q = m * 2 ^ lastPlace q := by
    rw [roundTo, same]
    norm_cast
  have low : -1074 ≤ lastPlace q := le_max_right _ _
  rw [value] at fits ⊢
  -- a significand of `k` bits stays below the overflow only at a small exponent
  have high {k : ℕ} (bits : 2 ^ k ≤ m) : (k : ℤ) + lastPlace q < 1024 := by
    have bits' : (2 : ℚ) ^ (k : ℤ) ≤ m := by
      rw [zpow_natCast]
      exact_mod_cast bits
    have bound : (2 : ℚ) ^ ((k : ℤ) + lastPlace q) < 2 ^ (1024 : ℤ) := by
      rw [zpow_add₀ two_ne_zero]
      refine (mul_le_mul_of_nonneg_right bits' (zpow_pos_two _).le).trans_lt ?_
      exact_mod_cast fits
    exact (zpow_lt_zpow_iff_right₀ (one_lt_two : (1 : ℚ) < 2)).mp bound
  by_cases full : m = 2 ^ 53
  · have exponent := high full.ge
    refine ⟨2 ^ 52, lastPlace q + 1, by norm_num, by omega, by omega, ?_⟩
    rw [full, zpow_add₀ two_ne_zero]
    push_cast
    ring
  · refine ⟨m, lastPlace q, by omega, low, ?_, rfl⟩
    rcases nonneg.eq_or_lt with rfl | positive
    · rw [lastPlace, Int.log_of_right_le_zero 2 le_rfl]
      norm_num
    · by_contra beyond
      have bits := le_roundEven_scaled positive (by omega)
      rw [same] at bits
      have exponent := high (k := 52) (by exact_mod_cast bits)
      omega

/-- A number that is near to a representable one has no higher last place. -/
theorem lastPlace_le_of_near {q v : ℚ} (rep : Representable q) (positive : 0 < q)
    (near : |v - q| < q / 2 ^ 54) : lastPlace v ≤ lastPlace q := by
  by_contra! higher
  obtain ⟨n, whole⟩ := rep.dvd
  rw [abs_lt] at near
  have normal : lastPlace v = Int.log 2 v - 52 := by
    have := le_max_right (Int.log 2 q - 52) (-1074)
    unfold lastPlace at higher ⊢
    omega
  have v_positive : 0 < v := by
    have : q / 2 ^ 54 < q := div_lt_self positive (by norm_num)
    linarith [near.1]
  have reached : (2 : ℚ) ^ (53 + lastPlace q) ≤ v := by
    have lower : (2 : ℚ) ^ Int.log 2 v ≤ v := by
      exact_mod_cast Int.zpow_log_le_self (b := 2) one_lt_two v_positive
    exact (zpow_le_zpow_right₀ one_le_two (by omega)).trans lower
  rw [zpow_add₀ two_ne_zero] at reached
  have unit := zpow_pos_two (lastPlace q)
  have value : q = n * 2 ^ lastPlace q := (div_eq_iff unit.ne').mp whole
  have bits : n < 2 ^ 53 := by
    have := scaled_lt q
    rw [whole] at this
    exact_mod_cast this
  have gap : q + 2 ^ lastPlace q ≤ 2 ^ (53 : ℤ) * 2 ^ lastPlace q := by
    have : ((n : ℚ) + 1) ≤ 2 ^ (53 : ℤ) := by exact_mod_cast bits
    calc q + 2 ^ lastPlace q = (n + 1) * 2 ^ lastPlace q := by rw [add_mul, ← value, one_mul]
      _ ≤ 2 ^ (53 : ℤ) * 2 ^ lastPlace q := mul_le_mul_of_nonneg_right this unit.le
  norm_num at gap reached near
  linarith [near.2]

/-- A rational that is nearer to a representable number than half a unit in its last bit. -/
theorem roundTo_of_near {q v : ℚ} (rep : Representable q) (positive : 0 < q)
    (near : |v - q| < q / 2 ^ 54) : roundTo v = q := by
  obtain ⟨n, whole⟩ := rep.dvd
  have place := lastPlace_le_of_near rep positive near
  have unit := zpow_pos_two (lastPlace v)
  obtain ⟨k, lower⟩ := Int.eq_ofNat_of_zero_le (sub_nonneg.mpr place)
  -- in the last place of `v`, `q` is an integer too
  obtain ⟨N, scaled⟩ : ∃ N : ℤ, q / 2 ^ lastPlace v = N := by
    refine ⟨n * 2 ^ k, ?_⟩
    push_cast
    rw [← whole, ← zpow_natCast (2 : ℚ) k, ← lower, zpow_sub₀ two_ne_zero]
    field_simp
  have N_positive : (0 : ℚ) < N := scaled ▸ div_pos positive unit
  have near' : |v / 2 ^ lastPlace v - N| < N / 2 ^ 54 := by
    rw [← scaled, ← sub_div, abs_div, abs_of_pos unit, div_right_comm]
    exact div_lt_div_of_pos_right near unit
  have within := scaled_lt v
  have at_most : N ≤ 2 ^ 53 := by
    rw [abs_lt] at near'
    by_contra! beyond
    have : ((2 : ℚ) ^ 53 + 1) ≤ N := by exact_mod_cast beyond
    norm_num at within near' this
    linarith [near'.1]
  have half : |v / 2 ^ lastPlace v - N| < 1 / 2 := by
    refine near'.trans_le ?_
    have : (N : ℚ) ≤ 2 ^ 53 := by exact_mod_cast at_most
    rw [div_le_iff₀ (by norm_num)]
    norm_num at this ⊢
    linarith
  rw [roundTo, roundEven_of_near half, ← scaled]
  exact div_mul_cancel₀ q unit.ne'

/-- A finite number that is not negative. -/
structure Double where
  value : ℚ
  representable : Representable value

/-- The number nearest to a rational that is not negative; `none` on an overflow. -/
def nearest (q : ℚ) (nonneg : 0 ≤ q) : Option Double :=
  if fits : roundTo q < 2 ^ 1024 then some ⟨roundTo q, representable_roundTo nonneg fits⟩ else none

theorem nearest_of_roundTo {q : ℚ} {n : Double} (rounded : roundTo q = n.value) (nonneg : 0 ≤ q) :
    nearest q nonneg = some n := by
  have fits : roundTo q < 2 ^ 1024 := by
    rw [rounded]
    exact n.representable.lt_overflow
  rw [nearest, dif_pos fits]
  simp only [rounded]

/-- The nearest number to a representable one is the number itself. -/
theorem nearest_of_representable {q : ℚ} (rep : Representable q) (nonneg : 0 ≤ q) :
    nearest q nonneg = some ⟨q, rep⟩ :=
  nearest_of_roundTo (n := ⟨q, rep⟩) (roundTo_of_representable rep) nonneg

end Binary64
