import Mathlib.Data.Int.DivMod
import Mathlib.Tactic.Linarith

/-!
# The arithmetic of `long`

The operators of C on a signed integer type of 64 bits, on exact integers.  What C leaves undefined
is `none`: a result that is out of range, a division by zero, a quotient that is out of range (for
the remainder too), and a shift by a count outside of the width.  The bits of a negative operand of
a shift are those of its two's complement.  `size_t` has the width of `long`.
-/

namespace CLong

/-- `LONG_MIN` -/
def minimum : Int := -2 ^ 63

/-- `LONG_MAX` -/
def maximum : Int := 2 ^ 63 - 1

/-- The integer is a value of the type. -/
def Fits (i : Int) : Prop := minimum ≤ i ∧ i ≤ maximum

instance : DecidablePred Fits := fun _ => inferInstanceAs (Decidable (_ ∧ _))

/-- The conversion to `size_t`. -/
def sizeT (i : Int) : Nat := (i % 2 ^ 64).toNat

theorem sizeT_lt (i : Int) : sizeT i < 2 ^ 64 := by
  unfold sizeT
  omega

/-- The exact result of an operator, unless it overflows. -/
def checked (i : Int) : Option Int := if Fits i then some i else none

def add (a b : Int) : Option Int := checked (a + b)

def sub (a b : Int) : Option Int := checked (a - b)

def mul (a b : Int) : Option Int := checked (a * b)

def neg (a : Int) : Option Int := checked (-a)

def div (a b : Int) : Option Int := if b = 0 then none else checked (a.tdiv b)

def mod (a b : Int) : Option Int :=
  if b = 0 then none else if Fits (a.tdiv b) then some (a.tmod b) else none

def shiftLeft (a count : Int) : Option Int :=
  if 0 ≤ count ∧ count < 64 then checked (a * 2 ^ count.toNat) else none

def shiftRight (a count : Int) : Option Int :=
  if 0 ≤ count ∧ count < 64 then some (a / 2 ^ count.toNat) else none

/-- `++` -/
def incr (a : Int) : Option Int := add a 1

theorem fits_iff {i : Int} : Fits i ↔ -9223372036854775808 ≤ i ∧ i ≤ 9223372036854775807 :=
  Iff.rfl

theorem checked_of_fits {i : Int} (fits : Fits i) : checked i = some i := if_pos fits

theorem checked_of_not_fits {i : Int} (overflows : ¬ Fits i) : checked i = none := if_neg overflows

theorem checked_eq_some_iff {i j : Int} : checked i = some j ↔ Fits i ∧ i = j := by
  unfold checked
  split
  · next fits => simp [fits]
  · next overflows => simp [overflows]

theorem fits_neg_iff {a : Int} (fits : Fits a) : Fits (-a) ↔ a ≠ minimum := by
  rw [fits_iff] at fits ⊢
  unfold minimum
  omega

/-- The quotient of `LONG_MIN` by -1 is the only one that is out of range. -/
theorem fits_tdiv_iff {a b : Int} (fits : Fits a) (nonzero : b ≠ 0) :
    Fits (a.tdiv b) ↔ ¬ (a = minimum ∧ b = -1) := by
  have smaller : (a.tdiv b).natAbs ≤ a.natAbs := Int.natAbs_tdiv_le_natAbs a b
  rw [fits_iff] at fits
  unfold minimum
  constructor
  · rintro within ⟨rfl, rfl⟩
    revert within
    decide
  · intro other
    rw [fits_iff]
    by_cases lowest : a = -9223372036854775808
    · subst lowest
      have unit : b ≠ -1 := fun unit => other ⟨rfl, unit⟩
      rcases Int.lt_trichotomy b 0 with negative | zero | positive
      · -- the divisor is at most -2, so that the quotient is at most half of the dividend
        have half : (Int.tdiv (-9223372036854775808) b).natAbs ≤ 9223372036854775808 / 2 := by
          rw [Int.natAbs_tdiv]
          exact Nat.div_le_div_left (by omega) (by omega)
        omega
      · exact (nonzero zero).elim
      · have nonpositive : Int.tdiv (-9223372036854775808) b ≤ 0 := by
          rw [Int.neg_tdiv]
          exact Int.neg_nonpos_of_nonneg (Int.tdiv_nonneg (by omega) (Int.le_of_lt positive))
        omega
    · omega

theorem div_eq_some_iff {a b c : Int} (fits : Fits a) :
    div a b = some c ↔ b ≠ 0 ∧ ¬ (a = minimum ∧ b = -1) ∧ a.tdiv b = c := by
  unfold div
  split
  · next zero => simp [zero]
  · next nonzero => rw [checked_eq_some_iff, fits_tdiv_iff fits nonzero, and_iff_right nonzero]

theorem mod_eq_some_iff {a b c : Int} (fits : Fits a) :
    mod a b = some c ↔ b ≠ 0 ∧ ¬ (a = minimum ∧ b = -1) ∧ a.tmod b = c := by
  unfold mod
  split
  · next zero => simp [zero]
  · next nonzero =>
      rw [if_congr (fits_tdiv_iff fits nonzero) rfl rfl, and_iff_right nonzero]
      split
      · next other => rw [Option.some.injEq, and_iff_right other]
      · next overflows => simp [overflows]

theorem shiftLeft_eq_some_iff {a count c : Int} :
    shiftLeft a count = some c ↔
      (0 ≤ count ∧ count < 64) ∧ Fits (a * 2 ^ count.toNat) ∧ a * 2 ^ count.toNat = c := by
  unfold shiftLeft
  split
  · next inside => rw [checked_eq_some_iff, and_iff_right inside]
  · next outside => simp [outside]

theorem shiftRight_eq_some_iff {a count c : Int} :
    shiftRight a count = some c ↔ (0 ≤ count ∧ count < 64) ∧ a / 2 ^ count.toNat = c := by
  unfold shiftRight
  split
  · next inside => rw [Option.some.injEq, and_iff_right inside]
  · next outside => simp [outside]

theorem incr_eq_some_iff {a b : Int} (fits : Fits a) : incr a = some b ↔ a < maximum ∧ a + 1 = b := by
  rw [incr, add, checked_eq_some_iff]
  refine and_congr_left fun _ => ?_
  rw [fits_iff] at fits ⊢
  unfold maximum
  omega

end CLong
