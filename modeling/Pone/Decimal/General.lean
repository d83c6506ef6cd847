import Mathlib.Data.List.DropRight
import Pone.Decimal

/-!
# The decimal notation of `%g`

A number to so many significant digits, with an exponent where it is far from 1, without zeros at its
end.  Seventeen digits determine a number of 64 bits.
-/

open Binary64

namespace Decimal

/-- Decimal notation in its parts; an exponent is a sign and digits. -/
structure Notation where
  whole : List UInt8
  fraction : List UInt8
  exponent : Option (Bool × List UInt8)

namespace Notation

variable (n : Notation)

def pointText : List UInt8 := if n.fraction = [] then [] else 46 :: n.fraction

def exponentText : List UInt8 :=
  match n.exponent with
  | none => []
  | some (negative, digits) => 101 :: (if negative then 45 else 43) :: digits

def text : List UInt8 := n.whole ++ n.pointText ++ n.exponentText

def scale : ℤ :=
  match n.exponent with
  | none => 0
  | some (negative, digits) => if negative then -number digits else number digits

def value : ℚ := (number n.whole + number n.fraction / 10 ^ n.fraction.length) * 10 ^ n.scale

theorem value_nonneg : 0 ≤ n.value := by
  refine mul_nonneg (add_nonneg (Nat.cast_nonneg _) (div_nonneg (Nat.cast_nonneg _) ?_))
    (zpow_nonneg (by norm_num) _)
  positivity

/-- Digits stand in every part, and the number does not begin with a zero that another digit
follows. -/
structure WellFormed : Prop where
  whole_digits : ∀ b ∈ n.whole, isDigit b = true
  whole_nonempty : n.whole ≠ []
  no_leading_zero : n.whole.head? = some 48 → n.whole = [48]
  fraction_digits : ∀ b ∈ n.fraction, isDigit b = true
  exponent_digits : ∀ e ∈ n.exponent, e.2 ≠ [] ∧ ∀ b ∈ e.2, isDigit b = true

end Notation

/-- The digits without the zeros at their end. -/
def trim (digits : List UInt8) : List UInt8 := digits.rdropWhile (· = 48)

theorem trim_eq (digits : List UInt8) :
    ∃ k, digits = trim digits ++ List.replicate k 48 := by
  have zeros : digits.rtakeWhile (· = 48) =
      List.replicate (digits.rtakeWhile (· = 48)).length 48 :=
    List.eq_replicate_of_mem fun b among => by simpa using List.mem_rtakeWhile_imp among
  exact ⟨_, zeros ▸ (List.rdropWhile_append_rtakeWhile ..).symm⟩

theorem number_zeros (k : ℕ) : number (List.replicate k 48) = 0 := by
  induction k with
  | zero => rfl
  | succ k ih => simpa [number, numberFrom, List.replicate_succ] using ih

theorem fraction_trim (digits : List UInt8) :
    (number (trim digits) : ℚ) / 10 ^ (trim digits).length =
      number digits / 10 ^ digits.length := by
  obtain ⟨k, split⟩ := trim_eq digits
  have nonzero : (10 : ℚ) ^ k ≠ 0 := by positivity
  rw [congrArg number split, congrArg List.length split, number_append, number_zeros, List.length_append,
    List.length_replicate, pow_add]
  push_cast
  rw [add_zero, mul_div_mul_right _ _ nonzero]

theorem mem_of_mem_trim {digits : List UInt8} {b : UInt8} (among : b ∈ trim digits) : b ∈ digits :=
  (List.rdropWhile_prefix _ _).subset among

/-- The digits of an exponent, at least two. -/
def exponentDigits (n : ℕ) : List UInt8 := if n < 10 then 48 :: natText n else natText n

theorem number_exponentDigits (n : ℕ) : number (exponentDigits n) = n := by
  unfold exponentDigits
  split
  · rw [← List.singleton_append, number_append, number_natText]
    simp [number, numberFrom]
  · exact number_natText n

theorem exponentDigits_digits (n : ℕ) : ∀ b ∈ exponentDigits n, isDigit b = true := by
  unfold exponentDigits
  split
  · exact List.forall_mem_cons.mpr ⟨by decide, natText_digits n⟩
  · exact natText_digits n

theorem exponentDigits_ne_nil (n : ℕ) : exponentDigits n ≠ [] := by
  unfold exponentDigits
  split
  · exact List.cons_ne_nil _ _
  · exact List.ne_nil_of_length_eq_add_one (length_padded ..)

/-! ## Significant digits -/

/-- A number to `p + 1` significant digits: the digits, and the power of ten of the first one. -/
def significant (p : ℕ) (q : ℚ) : ℕ × ℤ :=
  let e := Int.log 10 q
  let n := (roundEven (q / 10 ^ (e - p))).toNat
  if n = 10 ^ (p + 1) then (10 ^ p, e + 1) else (n, e)

/-- `%g` with the precision `p + 1` -/
def general (p : ℕ) (q : ℚ) : Notation :=
  let (n, x) := significant p q
  let digits := padded (p + 1) n
  if x < -4 ∨ p < x then
    { whole := digits.take 1
      fraction := trim (digits.drop 1)
      exponent := some (x < 0, exponentDigits x.natAbs) }
  else if x < 0 then
    { whole := [48]
      fraction := trim (List.replicate (-x - 1).toNat 48 ++ digits)
      exponent := none }
  else
    { whole := digits.take (x.toNat + 1)
      fraction := trim (digits.drop (x.toNat + 1))
      exponent := none }

theorem zpow_pos_ten (e : ℤ) : (0 : ℚ) < 10 ^ e := zpow_pos (by norm_num) e

/-- As many digits as are asked for, with the first one not zero, and the number that they denote. -/
theorem significant_spec {p n : ℕ} {x : ℤ} {q : ℚ} (positive : 0 < q)
    (found : significant p q = (n, x)) :
    10 ^ p ≤ n ∧ n < 10 ^ (p + 1) ∧
      (n : ℚ) * 10 ^ (x - p) = roundEven (q / 10 ^ (Int.log 10 q - p)) * 10 ^ (Int.log 10 q - p) := by
  have unit := zpow_pos_ten (Int.log 10 q - p)
  have lower : ((10 ^ p : ℤ) : ℚ) ≤ q / 10 ^ (Int.log 10 q - p) := by
    rw [le_div_iff₀ unit]
    push_cast
    rw [← zpow_natCast, ← zpow_add₀ (by norm_num), add_sub_cancel]
    exact_mod_cast Int.zpow_log_le_self (b := 10) (by norm_num) positive
  have upper : q / 10 ^ (Int.log 10 q - p) < ((10 ^ (p + 1) : ℤ) : ℚ) := by
    rw [div_lt_iff₀ unit]
    push_cast
    rw [← zpow_natCast, ← zpow_add₀ (by norm_num)]
    have above : q < 10 ^ (Int.log 10 q + 1) := by
      exact_mod_cast Int.lt_zpow_succ_log_self (b := 10) (by norm_num) q
    refine above.trans_eq (congrArg _ ?_)
    push_cast
    ring
  have at_least := (Int.le_floor.mpr lower).trans (floor_le_roundEven _)
  have at_most := roundEven_le_floor_add_one (q / 10 ^ (Int.log 10 q - p))
  have floor_lt := Int.floor_lt.mpr upper
  obtain ⟨m, rounded⟩ := Int.eq_ofNat_of_zero_le
    (le_trans (by positivity : (0 : ℤ) ≤ 10 ^ p) at_least)
  rw [rounded] at at_least at_most
  have low : 10 ^ p ≤ m := by exact_mod_cast at_least
  have high : m ≤ 10 ^ (p + 1) := by
    have : (m : ℤ) ≤ 10 ^ (p + 1) := by omega
    exact_mod_cast this
  simp only [significant, rounded, Int.toNat_natCast] at found ⊢
  split at found
  · next carry =>
      cases found
      refine ⟨le_rfl, Nat.pow_lt_pow_succ (by norm_num), ?_⟩
      rw [carry]
      push_cast
      rw [pow_succ, mul_assoc, ← zpow_one_add₀ (by norm_num)]
      ring_nf
  · next fits =>
      cases found
      exact ⟨low, by omega, rfl⟩

/-- Rounding to the significant digits changes a number by less than half a unit in the last one. -/
theorem abs_significant_sub_le {p n : ℕ} {x : ℤ} {q : ℚ} (positive : 0 < q)
    (found : significant p q = (n, x)) : |(n : ℚ) * 10 ^ (x - p) - q| ≤ q / (2 * 10 ^ p) := by
  obtain ⟨-, -, value⟩ := significant_spec positive found
  have unit := zpow_pos_ten (Int.log 10 q - p)
  have whole : q = q / 10 ^ (Int.log 10 q - p) * 10 ^ (Int.log 10 q - p) :=
    (div_mul_cancel₀ q unit.ne').symm
  have small : (10 : ℚ) ^ (Int.log 10 q - p) ≤ q / 10 ^ p := by
    rw [zpow_sub₀ (by norm_num), zpow_natCast]
    have lower : (10 : ℚ) ^ Int.log 10 q ≤ q := by
      exact_mod_cast Int.zpow_log_le_self (b := 10) (by norm_num) positive
    exact div_le_div_of_nonneg_right lower (by positivity)
  calc |(n : ℚ) * 10 ^ (x - p) - q|
      = |roundEven (q / 10 ^ (Int.log 10 q - p)) - q / 10 ^ (Int.log 10 q - p)| *
          10 ^ (Int.log 10 q - p) := by
        have split : (roundEven (q / 10 ^ (Int.log 10 q - p)) : ℚ) * 10 ^ (Int.log 10 q - p) - q =
            (roundEven (q / 10 ^ (Int.log 10 q - p)) - q / 10 ^ (Int.log 10 q - p)) *
              10 ^ (Int.log 10 q - p) := by
          rw [sub_mul, ← whole]
        rw [value, split, abs_mul, abs_of_pos unit]
    _ ≤ 1 / 2 * (q / 10 ^ p) :=
        mul_le_mul (abs_roundEven_sub_le _) small unit.le (by norm_num)
    _ = q / (2 * 10 ^ p) := by
        rw [div_mul_div_comm, one_mul]

theorem digit_zero : isDigit 48 = true := rfl

/-- What `%g` prints is a number in decimal notation. -/
theorem general_wellFormed (p : ℕ) {q : ℚ} (positive : 0 < q) : (general p q).WellFormed := by
  rcases found : significant p q with ⟨n, x⟩
  obtain ⟨low, high, -⟩ := significant_spec positive found
  have all : ∀ b ∈ padded (p + 1) n, isDigit b = true := padded_digits _ _
  have fractionDigits (k : ℕ) : ∀ b ∈ trim ((padded (p + 1) n).drop k), isDigit b = true :=
    fun b among => all b (List.mem_of_mem_drop (mem_of_mem_trim among))
  have wholeDigits (k : ℕ) : ∀ b ∈ (padded (p + 1) n).take k, isDigit b = true :=
    fun b among => all b (List.mem_of_mem_take among)
  have nonempty (k : ℕ) : (padded (p + 1) n).take (k + 1) ≠ [] := by
    apply List.ne_nil_of_length_pos
    rw [List.length_take, length_padded]
    omega
  have first (k : ℕ) : ((padded (p + 1) n).take (k + 1)).head? ≠ some 48 := by
    rw [List.head?_take, if_neg (Nat.succ_ne_zero k), head_padded]
    intro zero
    have leading : 1 ≤ n / 10 ^ p := (Nat.one_le_div_iff (by positivity)).mpr low
    have digit : n / 10 ^ p < 10 := Nat.div_lt_of_lt_mul (by rwa [← pow_succ])
    rw [Nat.mod_eq_of_lt digit, Option.some.injEq] at zero
    have value : (48 + n / 10 ^ p) % 256 = 48 := congrArg UInt8.toNat zero
    omega
  simp only [general, found]
  split
  · exact {
      whole_digits := wholeDigits 1
      whole_nonempty := nonempty 0
      no_leading_zero := fun zero => absurd zero (first 0)
      fraction_digits := fractionDigits 1
      exponent_digits := by
        rintro e ⟨⟩
        exact ⟨exponentDigits_ne_nil _, exponentDigits_digits _⟩ }
  split
  · exact {
      whole_digits := by simp [digit_zero]
      whole_nonempty := List.cons_ne_nil _ _
      no_leading_zero := fun _ => rfl
      fraction_digits := by
        intro b among
        rcases List.mem_append.mp (mem_of_mem_trim among) with zero | digit
        · rw [List.eq_of_mem_replicate zero]
          exact digit_zero
        · exact all b digit
      exponent_digits := nofun }
  · exact {
      whole_digits := wholeDigits _
      whole_nonempty := nonempty _
      no_leading_zero := fun zero => absurd zero (first _)
      fraction_digits := fractionDigits _
      exponent_digits := nofun }

/-- What `%g` prints denotes the number to the significant digits. -/
theorem value_general {p n : ℕ} {x : ℤ} {q : ℚ} (positive : 0 < q)
    (found : significant p q = (n, x)) : (general p q).value = n * 10 ^ (x - p) := by
  obtain ⟨-, high, -⟩ := significant_spec positive found
  have digits : number (padded (p + 1) n) = n := by
    rw [number_padded, Nat.mod_eq_of_lt high]
  -- the digits with a point behind the first `k` of them
  have point {k : ℕ} (inside : k ≤ p + 1) :
      (number ((padded (p + 1) n).take k) : ℚ) + number (trim ((padded (p + 1) n).drop k)) /
        10 ^ (trim ((padded (p + 1) n).drop k)).length = n / 10 ^ (p + 1 - k) := by
    have split := number_append ((padded (p + 1) n).take k) ((padded (p + 1) n).drop k)
    rw [List.take_append_drop, digits, List.length_drop, length_padded] at split
    have nonzero : (10 : ℚ) ^ (p + 1 - k) ≠ 0 := by positivity
    rw [fraction_trim, List.length_drop, length_padded, eq_div_iff nonzero, add_mul,
      div_mul_cancel₀ _ nonzero]
    exact_mod_cast split.symm
  simp only [general, found]
  split
  · have exponent : (if x < 0 then -(x.natAbs : ℤ) else x.natAbs) = x := by
      split <;> omega
    simp only [Notation.value, Notation.scale, number_exponentDigits, decide_eq_true_eq, exponent]
    rw [point (by omega), Nat.add_sub_cancel, zpow_sub₀ (by norm_num), zpow_natCast]
    ring
  next near =>
  rw [not_or, not_lt, not_lt] at near
  split
  · next small =>
      obtain ⟨k, shift⟩ : ∃ k : ℕ, x = -(k + 1) := ⟨(-x - 1).toNat, by omega⟩
      have zeros : (-x - 1).toNat = k := by omega
      have nonzero : (10 : ℚ) ^ k ≠ 0 := by positivity
      simp only [Notation.value, Notation.scale, zpow_zero, mul_one, fraction_trim, zeros,
        number_append, number_zeros, digits, List.length_append, List.length_replicate,
        length_padded]
      have none : number [48] = 0 := rfl
      have scale : x - p = -((k + (p + 1) : ℕ) : ℤ) := by
        push_cast
        omega
      rw [none, scale, zpow_neg, zpow_natCast]
      push_cast
      ring
  · next large =>
      obtain ⟨k, rfl⟩ := Int.eq_ofNat_of_zero_le (not_lt.mp large)
      have scale : (k : ℤ) - p = -((p + 1 - (k + 1) : ℕ) : ℤ) := by omega
      simp only [Notation.value, Notation.scale, zpow_zero, mul_one, Int.toNat_natCast]
      rw [point (by omega), scale, zpow_neg, zpow_natCast, div_eq_mul_inv]

/-- Seventeen digits determine a number of 64 bits. -/
theorem roundTo_general {q : ℚ} (rep : Representable q) (positive : 0 < q) :
    roundTo (general 16 q).value = q := by
  rcases found : significant 16 q with ⟨n, x⟩
  refine roundTo_of_near rep positive ?_
  rw [value_general positive found]
  refine (abs_significant_sub_le positive found).trans_lt ?_
  exact div_lt_div_of_pos_left positive (by norm_num) (by norm_num)

/-! ## The length of what is printed -/

theorem log_bounds {q : ℚ} (rep : Representable q) (positive : 0 < q) :
    -1075 ≤ Int.log 10 q ∧ Int.log 10 q < 1024 := by
  constructor
  · obtain ⟨m, e, -, low, -, rfl⟩ := rep
    have significand : (1 : ℚ) ≤ m := by
      have : 0 < m := by
        apply Nat.pos_of_ne_zero
        rintro rfl
        simp at positive
      exact_mod_cast this
    have above : (m : ℚ) * 2 ^ e < 10 ^ (Int.log 10 ((m : ℚ) * 2 ^ e) + 1) := by
      exact_mod_cast Int.lt_zpow_succ_log_self (b := 10) (by norm_num) ((m : ℚ) * 2 ^ e)
    have below : (10 : ℚ) ^ (-1074 : ℤ) ≤ m * 2 ^ e :=
      calc (10 : ℚ) ^ (-1074 : ℤ) ≤ 2 ^ (-1074 : ℤ) := by
            rw [zpow_neg, zpow_neg]
            exact inv_anti₀ (zpow_pos_two _) (zpow_le_zpow_left₀ (by norm_num) two_pos.le (by norm_num))
        _ ≤ 2 ^ e := zpow_le_zpow_right₀ one_le_two low
        _ ≤ m * 2 ^ e := le_mul_of_one_le_left (zpow_pos_two e).le significand
    have := (zpow_lt_zpow_iff_right₀ (by norm_num : (1 : ℚ) < 10)).mp (below.trans_lt above)
    omega
  · have lower : (10 : ℚ) ^ Int.log 10 q ≤ q := by
      exact_mod_cast Int.zpow_log_le_self (b := 10) (by norm_num) positive
    have upper : q < 10 ^ (1024 : ℤ) :=
      calc q < 2 ^ 1024 := rep.lt_overflow
        _ ≤ 10 ^ 1024 := pow_le_pow_left₀ two_pos.le (by norm_num) 1024
        _ = 10 ^ (1024 : ℤ) := (zpow_natCast 10 1024).symm
    exact (zpow_lt_zpow_iff_right₀ (by norm_num : (1 : ℚ) < 10)).mp (lower.trans_lt upper)

theorem length_trim_le (digits : List UInt8) : (trim digits).length ≤ digits.length :=
  (List.rdropWhile_prefix _ _).length_le

theorem length_exponentDigits_le {n : ℕ} (small : n < 10 ^ 4) : (exponentDigits n).length ≤ 5 := by
  have digits : (natText n).length ≤ 4 := (length_natText_le_iff (by norm_num)).mpr small
  unfold exponentDigits
  split
  · rw [List.length_cons]
    omega
  · omega

/-- What `%.17g` prints has a bounded length. -/
theorem length_general_le {q : ℚ} (rep : Representable q) (positive : 0 < q) :
    (general 16 q).text.length ≤ 48 := by
  rcases found : significant 16 q with ⟨n, x⟩
  have bounds := log_bounds rep positive
  have power : x = Int.log 10 q ∨ x = Int.log 10 q + 1 := by
    simp only [significant] at found
    split at found
    · cases found
      exact .inr rfl
    · cases found
      exact .inl rfl
  have exponent := length_exponentDigits_le (n := x.natAbs) (by omega)
  have pointed (digits : List UInt8) :
      (if trim digits = [] then [] else 46 :: trim digits).length ≤ digits.length + 1 := by
    split
    · exact Nat.zero_le _
    · exact Nat.succ_le_succ (length_trim_le digits)
  simp only [general, found]
  split
  · have fraction := pointed ((padded (16 + 1) n).drop 1)
    simp only [Notation.text, Notation.pointText, Notation.exponentText, List.length_append,
      List.length_cons, List.length_take, List.length_drop, length_padded] at fraction ⊢
    omega
  next near =>
  rw [not_or, not_lt, not_lt] at near
  split
  · have fraction := pointed (List.replicate (-x - 1).toNat 48 ++ padded (16 + 1) n)
    simp only [Notation.text, Notation.pointText, Notation.exponentText, List.length_append,
      List.length_cons, List.length_nil, List.length_replicate, length_padded] at fraction ⊢
    omega
  · have fraction := pointed ((padded (16 + 1) n).drop (x.toNat + 1))
    simp only [Notation.text, Notation.pointText, Notation.exponentText, List.length_append,
      List.length_nil, List.length_take, List.length_drop, length_padded] at fraction ⊢
    omega

end Decimal
