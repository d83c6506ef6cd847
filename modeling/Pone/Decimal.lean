import Mathlib.Data.List.TakeWhile
import Mathlib.Data.Nat.Log
import Mathlib.Tactic.IntervalCases
import Pone.Binary64

/-!
# Decimal notation

The rational that digits with a point and an exponent denote, and a rational written with a fixed
number of decimals.
-/

namespace Decimal

def isDigit (b : UInt8) : Bool := 48 ≤ b && b ≤ 57

/-- The number that digits write, behind one that is written already. -/
def numberFrom (n : ℕ) (digits : List UInt8) : ℕ := digits.foldl (fun n b => n * 10 + (b.toNat - 48)) n

def number (digits : List UInt8) : ℕ := numberFrom 0 digits

theorem numberFrom_eq (n : ℕ) (digits : List UInt8) :
    numberFrom n digits = n * 10 ^ digits.length + number digits := by
  induction digits generalizing n with
  | nil => simp [numberFrom, number]
  | cons b rest ih =>
      have first := ih (n * 10 + (b.toNat - 48))
      have second := ih (0 * 10 + (b.toNat - 48))
      unfold number numberFrom at first second ⊢
      rw [List.foldl_cons, List.foldl_cons, first, second, List.length_cons, pow_succ]
      ring

theorem number_append (front back : List UInt8) :
    number (front ++ back) = number front * 10 ^ back.length + number back := by
  rw [← numberFrom_eq, number, numberFrom, List.foldl_append]
  rfl

/-- The exponent behind the digits: a letter, a sign or none, and digits. -/
def exponent : List UInt8 → ℤ
  | [] => 0
  | b :: rest =>
      if b = 101 ∨ b = 69 then
        match rest with
        | 45 :: digits => -number (digits.takeWhile isDigit)
        | 43 :: digits => number (digits.takeWhile isDigit)
        | digits => number (digits.takeWhile isDigit)
      else 0

/-- The digits behind a point, if there is one, and the rest. -/
def fractionRest : List UInt8 → List UInt8 × List UInt8
  | 46 :: rest => (rest.takeWhile isDigit, rest.dropWhile isDigit)
  | rest => ([], rest)

/-- What a text without a sign denotes, as far as it is decimal notation. -/
def value (text : List UInt8) : ℚ :=
  let whole := text.takeWhile isDigit
  let (fraction, rest) := fractionRest (text.dropWhile isDigit)
  (number whole + number fraction / 10 ^ fraction.length) * 10 ^ exponent rest

theorem value_nonneg (text : List UInt8) : 0 ≤ value text := by
  refine mul_nonneg (add_nonneg (Nat.cast_nonneg _) (div_nonneg (Nat.cast_nonneg _) ?_))
    (zpow_nonneg (by norm_num) _)
  positivity

/-- The last `k` decimal digits. -/
def padded : ℕ → ℕ → List UInt8
  | 0, _ => []
  | k + 1, n => padded k (n / 10) ++ [(48 + n % 10).toUInt8]

/-- A number in decimal notation, without a zero in front. -/
def natText (n : ℕ) : List UInt8 := padded (Nat.log 10 n + 1) n

/-- A rational with a fixed number of decimals, rounded as for `%f`. -/
def fixed (places : ℕ) (q : ℚ) : List UInt8 :=
  let n := (Binary64.roundEven (|q| * 10 ^ places)).toNat
  (if q < 0 then [45] else []) ++ natText (n / 10 ^ places) ++ [46] ++ padded places n

theorem digit_byte (n : ℕ) :
    (48 + n % 10).toUInt8.toNat - 48 = n % 10 ∧ isDigit (48 + n % 10).toUInt8 = true := by
  have below : n % 10 < 10 := Nat.mod_lt n (by norm_num)
  interval_cases n % 10 <;> decide

@[simp]
theorem length_padded (k n : ℕ) : (padded k n).length = k := by
  induction k generalizing n with
  | zero => rfl
  | succ k ih => simp [padded, ih]

theorem number_padded (k n : ℕ) : number (padded k n) = n % 10 ^ k := by
  induction k generalizing n with
  | zero => simp [padded, number, numberFrom, Nat.mod_one]
  | succ k ih =>
      have last : number [(48 + n % 10).toUInt8] = n % 10 := by
        simpa [number, numberFrom] using (digit_byte n).1
      rw [padded, number_append, ih, last, List.length_singleton, pow_one, pow_succ,
        Nat.mul_comm (10 ^ k) 10, Nat.mod_mul]
      ring

theorem padded_digits (k n : ℕ) : ∀ b ∈ padded k n, isDigit b = true := by
  induction k generalizing n with
  | zero => simp [padded]
  | succ k ih =>
      intro b among
      rcases List.mem_append.mp among with front | last
      · exact ih _ b front
      · rw [List.mem_singleton.mp last]
        exact (digit_byte n).2

theorem natText_digits (n : ℕ) : ∀ b ∈ natText n, isDigit b = true := padded_digits _ n

theorem number_natText (n : ℕ) : number (natText n) = n := by
  rw [natText, number_padded]
  exact Nat.mod_eq_of_lt (Nat.lt_pow_succ_log_self (by norm_num) n)

theorem head_padded (k n : ℕ) :
    (padded (k + 1) n).head? = some (48 + n / 10 ^ k % 10).toUInt8 := by
  induction k generalizing n with
  | zero => simp [padded]
  | succ k ih => rw [padded, List.head?_append, ih, Option.some_or, Nat.div_div_eq_div_mul, pow_succ']

/-- Only the number 0 is written with a zero in front. -/
theorem head_natText {n : ℕ} (positive : n ≠ 0) : (natText n).head? ≠ some 48 := by
  rw [natText, head_padded]
  intro zero
  have reached : 10 ^ Nat.log 10 n ≤ n := Nat.pow_log_le_self 10 positive
  have below : n < 10 ^ (Nat.log 10 n + 1) := Nat.lt_pow_succ_log_self (by norm_num) n
  rw [pow_succ] at below
  have leading : 1 ≤ n / 10 ^ Nat.log 10 n := (Nat.one_le_div_iff (by positivity)).mpr reached
  have digit : n / 10 ^ Nat.log 10 n < 10 := Nat.div_lt_of_lt_mul below
  rw [Nat.mod_eq_of_lt digit, Option.some.injEq] at zero
  have value : (48 + n / 10 ^ Nat.log 10 n) % 256 = 48 := congrArg UInt8.toNat zero
  omega

theorem length_natText_le_iff {k n : ℕ} (positive : 0 < k) : (natText n).length ≤ k ↔ n < 10 ^ k := by
  rw [natText, length_padded, Nat.add_one_le_iff]
  by_cases zero : n = 0
  · subst zero
    simp [positive]
  · exact Nat.log_lt_iff_lt_pow (by norm_num) zero

/-- Digits end where the rest begins. -/
theorem span_digits {digits rest : List UInt8} (all : ∀ b ∈ digits, isDigit b = true)
    (stops : ∀ b ∈ rest.head?, isDigit b = false) :
    (digits ++ rest).takeWhile isDigit = digits ∧ (digits ++ rest).dropWhile isDigit = rest := by
  rw [List.takeWhile_append_of_pos all, List.dropWhile_append_of_pos all]
  cases rest with
  | nil => simp
  | cons b rest =>
      have stop : isDigit b = false := stops b rfl
      simp [stop]

/-- Digits, a point, digits and the rest of the text. -/
theorem value_point {whole fraction rest : List UInt8} (is_whole : ∀ b ∈ whole, isDigit b = true)
    (is_fraction : ∀ b ∈ fraction, isDigit b = true)
    (stops : ∀ b ∈ rest.head?, isDigit b = false) :
    value (whole ++ 46 :: (fraction ++ rest)) =
      (number whole + number fraction / 10 ^ fraction.length) * 10 ^ exponent rest := by
  have point : ∀ b ∈ (46 :: (fraction ++ rest)).head?, isDigit b = false := by
    intro b found
    cases found
    decide
  obtain ⟨front, behind⟩ := span_digits is_whole point
  obtain ⟨front', behind'⟩ := span_digits is_fraction stops
  simp only [value, front, behind, fractionRest, front', behind']

/-- Digits without a point and the rest of the text. -/
theorem value_whole {whole rest : List UInt8} (is_whole : ∀ b ∈ whole, isDigit b = true)
    (stops : ∀ b ∈ rest.head?, isDigit b = false) (no_point : rest.head? ≠ some 46) :
    value (whole ++ rest) = number whole * 10 ^ exponent rest := by
  obtain ⟨front, behind⟩ := span_digits is_whole stops
  have no_fraction : fractionRest rest = ([], rest) := by
    unfold fractionRest
    split
    · exact absurd rfl no_point
    · rfl
  simp [value, front, behind, no_fraction, number, numberFrom]

theorem exponent_eq (negative : Bool) {digits : List UInt8} (nonempty : digits ≠ [])
    (all : ∀ b ∈ digits, isDigit b = true) :
    exponent (101 :: ((if negative then [45] else []) ++ digits)) =
      if negative then -(number digits : ℤ) else number digits := by
  have whole : digits.takeWhile isDigit = digits := List.takeWhile_eq_self_iff.mpr all
  cases negative with
  | true => simp [exponent, whole]
  | false =>
      cases digits with
      | nil => exact absurd rfl nonempty
      | cons b rest =>
          have digit := all b List.mem_cons_self
          simp only [exponent, Bool.false_eq_true, if_false, List.nil_append, true_or, if_true]
          split
          · next same =>
              cases same
              exact absurd digit (by decide)
          · next same =>
              cases same
              exact absurd digit (by decide)
          · rw [whole]

/-- What is printed denotes the rounded number. -/
theorem value_fixed {places : ℕ} {q : ℚ} (nonneg : 0 ≤ q) :
    value (fixed places q) = Binary64.roundEven (q * 10 ^ places) / 10 ^ places := by
  obtain ⟨n, same⟩ := Int.eq_ofNat_of_zero_le
    (Binary64.roundEven_nonneg (mul_nonneg nonneg (by positivity : (0 : ℚ) ≤ 10 ^ places)))
  have text : fixed places q = natText (n / 10 ^ places) ++ 46 :: (padded places n ++ []) := by
    simp [fixed, abs_of_nonneg nonneg, same, not_lt.mpr nonneg]
  rw [text, value_point (natText_digits _) (padded_digits _ _) (by simp), number_natText,
    number_padded, length_padded, same]
  have split : (n : ℚ) = (n / 10 ^ places : ℕ) * 10 ^ places + (n % 10 ^ places : ℕ) := by
    exact_mod_cast (Nat.div_add_mod' n (10 ^ places)).symm
  have positive : (10 : ℚ) ^ places ≠ 0 := by positivity
  simp only [exponent, zpow_zero, mul_one, Int.cast_natCast]
  rw [eq_div_iff positive, add_mul, div_mul_cancel₀ _ positive]
  exact split.symm

/-- What is printed denotes the number exactly when it has no more decimals than are printed. -/
theorem value_fixed_eq_iff {places : ℕ} {q : ℚ} (nonneg : 0 ≤ q) :
    value (fixed places q) = q ↔ ∃ n : ℤ, q * 10 ^ places = n := by
  have positive : (10 : ℚ) ^ places ≠ 0 := by positivity
  rw [value_fixed nonneg, div_eq_iff positive, Binary64.roundEven_eq_iff]

end Decimal
