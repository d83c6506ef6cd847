import Mathlib.Data.List.TakeWhile
import Pone.Greg.Text
import Pone.Syntax.Entry

/-!
# Integer literals

`PVIP_node_new_intf` hands the digits without the underscores to `strtoll` and takes what it returns.
`strtoll` stops at the first character that is no digit of the base, gives 0 for a base that it does
not have, and sets `errno` on an overflow but never clears it.
-/

namespace Pone
namespace Syntax

open Greg

/-! ## `PVIP_node_new_intf` with `errno` -/

def erange : Int := 34

def einval : Int := 22

def llongMax : Nat := 9223372036854775807

/-- The numbers of an `int`. -/
def intRange : Nat := 4294967296

/-- `strtoll` on digits: what it returns, and `errno` after it. -/
def strtollErrno (digits : List UInt8) (base errno : Int) : Nat × Int :=
  if base = 0 ∨ 2 ≤ base ∧ base ≤ 36 then
    if strtoll digits base ≤ llongMax then (strtoll digits base, errno) else (llongMax, erange)
  else (0, einval)

/-- The characters that are handed to `strtoll`. -/
def withoutUnderscores (str : List UInt8) : List UInt8 := str.filter (· ≠ 95)

/-- `PVIP_node_new_intf`, where earlier calls have left `errno`; it aborts on what it takes for an
overflow. -/
def newIntf (errno base : Int) (str : List UInt8) : Option Nat :=
  let (n, errno) := strtollErrno (withoutUnderscores str) base errno
  if n = llongMax ∧ errno = erange then none else some n

/-- The actions of the grammar are those of a program where no call has left `ERANGE`. -/
theorem intf_eq_newIntf {errno base : Int} (str : List UInt8) (clear : errno ≠ erange) :
    Tree.intf base str = (newIntf errno base str).map fun n : Nat => .int .int n := by
  have same : Tree.intf base str = if strtoll (withoutUnderscores str) base < 2 ^ 63 then
      some (.int .int (strtoll (withoutUnderscores str) base)) else none := rfl
  rw [same, newIntf, strtollErrno]
  by_cases supported : base = 0 ∨ 2 ≤ base ∧ base ≤ 36
  · by_cases fits : strtoll (withoutUnderscores str) base ≤ llongMax
    · have small : strtoll (withoutUnderscores str) base < 2 ^ 63 := by
        simp only [llongMax] at fits
        omega
      rw [if_pos small, if_pos supported, if_pos fits]
      simp [clear]
    · have large : ¬ strtoll (withoutUnderscores str) base < 2 ^ 63 := by
        simp only [llongMax] at fits
        omega
      rw [if_neg large, if_pos supported, if_neg fits]
      simp
  · have zero : strtoll (withoutUnderscores str) base = 0 := by
      rw [not_or] at supported
      rw [strtoll, if_neg supported.1, if_neg supported.2]
    simp [supported, zero, llongMax]

/-! ## What a literal denotes -/

/-- The number that digits write in a base, after `value`, where all of them are digits of the base. -/
def numeralFrom (base : Nat) : Nat → List UInt8 → Option Nat
  | value, [] => some value
  | value, b :: rest =>
      match digitValue b with
      | some digit =>
          if digit < base then numeralFrom base (value * base + digit) rest else none
      | none => none

def numeral (base : Nat) (digits : List UInt8) : Option Nat := numeralFrom base 0 digits

/-- The literals that are an opening, digits of a class and a closing. -/
inductive Form where
  | decNumber
  | binary
  | decimal
  | hexadecimal
  | octal
  | ten
  | integerInt
  deriving DecidableEq

namespace Form

def opening : Form → String
  | .decNumber | .integerInt => ""
  | .binary => "0b"
  | .decimal => "0d"
  | .hexadecimal => "0x"
  | .octal => "0o"
  | .ten => ":10<"

def digits : Form → String
  | .decNumber => "0-9_"
  | .binary => "01_"
  | .decimal | .ten | .integerInt => "0-9"
  | .hexadecimal => "0-9a-fA-F_"
  | .octal => "0-7"

def closing : Form → String
  | .ten => ">"
  | _ => ""

def base : Form → Nat
  | .binary => 2
  | .octal => 8
  | .decNumber | .decimal | .ten | .integerInt => 10
  | .hexadecimal => 16

end Form

/-- A non-empty text of a character class. -/
structure Spell (cls : String) where
  chars : List UInt8
  nonempty : chars ≠ []
  inClass : ∀ b ∈ chars, charClass cls b = true

/-- The integer literals. -/
inductive Literal where
  | fixed (form : Form) (digits : Spell form.digits)
  /-- `:base<digits>`. -/
  | based (base : Spell "0-9") (digits : Spell "0-9a-fA-F")

namespace Literal

def text : Literal → List UInt8
  | .fixed form digits => bytes form.opening ++ digits.chars ++ bytes form.closing
  | .based base digits => bytes ":" ++ base.chars ++ bytes "<" ++ digits.chars ++ bytes ">"

/-- The base that is written. -/
def base : Literal → Nat
  | .fixed form _ => form.base
  | .based base _ => (numeral 10 base.chars).getD 0

def digits : Literal → List UInt8
  | .fixed _ digits => withoutUnderscores digits.chars
  | .based _ digits => digits.chars

/-- The value of the digits in the base, where it fits into an `int64_t`. -/
def denotes (literal : Literal) : Option Nat :=
  (numeral literal.base literal.digits).filter (· ≤ llongMax)

/-- What the actions read, where `errno` was left at `errnoBase` before the base is read, and at
`errno` before the digits. -/
def read (errnoBase errno : Int) : Literal → Option Nat
  | .fixed form digits => newIntf errno form.base digits.chars
  | .based base digits => do
      let i ← newIntf errnoBase 10 base.chars
      newIntf errno ((i : Int).bmod intRange) digits.chars

end Literal

/-- The base that `strtoll` works in; base 0 is found by the first digit. -/
def workingBase (base : Int) (digits : List UInt8) : Option Nat :=
  if base = 0 then some (if digits.head? = some 48 then 8 else 10)
  else if 2 ≤ base ∧ base ≤ 36 then some base.toNat
  else none

/-- The digits before the first character that is no digit of the base. -/
def known (base : Nat) (digits : List UInt8) : List UInt8 :=
  digits.takeWhile fun b => (digitValue b).any (· < base)

/-- What `PVIP_node_new_intf` takes for an overflow. -/
def Overflows (errno : Int) (n : Nat) : Prop := llongMax < n ∨ n = llongMax ∧ errno = erange

instance (errno : Int) (n : Nat) : Decidable (Overflows errno n) :=
  inferInstanceAs (Decidable (_ ∨ _))

namespace Literal

/-- The base that reaches `strtoll`, as an `int`. -/
def passedBase : Literal → Int
  | .fixed form _ => form.base
  | literal@(.based _ _) => (literal.base : Int).bmod intRange

/-- The base itself is read. -/
def BaseRead (errnoBase : Int) : Literal → Prop
  | .fixed _ _ => True
  | literal@(.based _ _) => ¬ Overflows errnoBase literal.base

instance (errnoBase : Int) : (literal : Literal) → Decidable (literal.BaseRead errnoBase)
  | .fixed _ _ => inferInstanceAs (Decidable True)
  | .based _ _ => inferInstanceAs (Decidable (¬ _))

/-- A literal that denotes a number is written in the base that `strtoll` works in, or denotes a digit
of that base, and `LLONG_MAX` only where no call has left `ERANGE`; one that denotes none has too many
digits before the first that `strtoll` does not know. -/
def Faithful (errnoBase errno : Int) (literal : Literal) : Prop :=
  match literal.denotes with
  | some n => literal.BaseRead errnoBase ∧
      (workingBase literal.passedBase literal.digits = some literal.base ∨
        n < (workingBase literal.passedBase literal.digits).getD 1) ∧
      ¬ (n = llongMax ∧ errno = erange)
  | none => literal.BaseRead errnoBase → ∃ base n,
      workingBase literal.passedBase literal.digits = some base ∧
        numeral base (known base literal.digits) = some n ∧ Overflows errno n

end Literal

/-! ## When a literal is read as what it denotes -/

theorem le_numeralFrom {base value n : Nat} {digits : List UInt8}
    (written : numeralFrom base value digits = some n) (positive : 0 < base) : value ≤ n := by
  induction digits generalizing value with
  | nil => exact Nat.le_of_eq (Option.some.inj written)
  | cons b rest ih =>
      rw [numeralFrom] at written
      split at written
      · split at written
        · have more := ih written
          have grows := Nat.le_mul_of_pos_right value positive
          omega
        · cases written
      · cases written

/-- Digits of the base are read to their end. -/
theorem readDigits_of_numeralFrom {base value n : Nat} {digits : List UInt8}
    (written : numeralFrom base value digits = some n) : readDigits base digits value = n := by
  induction digits generalizing value with
  | nil => exact Option.some.inj written
  | cons b rest ih =>
      rw [numeralFrom] at written
      rw [readDigits]
      cases isDigit : digitValue b with
      | none =>
          rw [isDigit] at written
          cases written
      | some digit =>
          rw [isDigit] at written
          by_cases below : digit < base
          · simpa [below] using ih (by simpa [below] using written)
          · simp [below] at written

/-- A numeral that denotes a digit of a smaller base is read as that digit. -/
theorem readDigits_of_digit {base small value n : Nat} {digits : List UInt8}
    (written : numeralFrom base value digits = some n) (smaller : small < base)
    (digit : n < small) : readDigits small digits value = n := by
  induction digits generalizing value with
  | nil => exact Option.some.inj written
  | cons b rest ih =>
      rw [numeralFrom] at written
      rw [readDigits]
      cases isDigit : digitValue b with
      | none =>
          rw [isDigit] at written
          cases written
      | some d =>
          rw [isDigit] at written
          by_cases below : d < base
          · have written : numeralFrom base (value * base + d) rest = some n := by
              simpa [below] using written
            have reached := le_numeralFrom written (by omega)
            have zero : value = 0 := by
              by_contra positive
              have grows := Nat.le_mul_of_pos_left base (Nat.pos_of_ne_zero positive)
              omega
            subst zero
            rw [Nat.zero_mul, Nat.zero_add] at written reached
            have inside : d < small := by omega
            simpa [inside] using ih written
          · simp [below] at written

/-- A numeral that is read in a smaller base as what it denotes denotes a digit of that base. -/
theorem digit_of_readDigits {base small value read n : Nat} {digits : List UInt8}
    (written : numeralFrom base value digits = some n) (smaller : small < base)
    (positive : 0 < small) (before : read ≤ value) (same : readDigits small digits read = n) :
    digits = [] ∧ read = value ∨ n < small := by
  induction digits generalizing value read with
  | nil => exact .inl ⟨rfl, same.trans (Option.some.inj written).symm⟩
  | cons b rest ih =>
      rw [numeralFrom] at written
      rw [readDigits] at same
      split at written
      · next d isDigit =>
          split at written
          · have reached := le_numeralFrom written (by omega)
            have grows := Nat.le_mul_of_pos_right value (show 0 < base by omega)
            rw [isDigit] at same
            by_cases inside : d < small
            · simp only [inside, if_true] at same
              have still : read * small + d ≤ value * base + d :=
                Nat.add_le_add_right (Nat.mul_le_mul before (Nat.le_of_lt smaller)) d
              rcases ih written still same with ⟨rfl, equal⟩ | digit
              · -- the digits before this one were zeros
                have zero : value = 0 := by
                  by_contra some_before
                  have := Nat.mul_lt_mul_of_pos_left smaller (Nat.pos_of_ne_zero some_before)
                  have := Nat.mul_le_mul_right small before
                  omega
                subst zero
                have last : 0 * base + d = n := Option.some.inj written
                exact .inr (by omega)
              · exact .inr digit
            · simp only [inside, if_false] at same
              omega
          · cases written
      · cases written

/-- Read in a smaller base, a numeral gives what it denotes exactly where that is a digit of it. -/
theorem readDigits_eq_iff {base small n : Nat} {digits : List UInt8}
    (written : numeral base digits = some n) (smaller : small < base) (positive : 0 < small) :
    readDigits small digits 0 = n ↔ n < small := by
  refine ⟨fun same => ?_, readDigits_of_digit written smaller⟩
  rcases digit_of_readDigits written smaller positive (Nat.le_refl 0) same with ⟨rfl, -⟩ | digit
  · have zero : 0 = n := Option.some.inj written
    omega
  · exact digit

theorem numeralFrom_known (base value : Nat) (digits : List UInt8) :
    numeralFrom base value (known base digits) = some (readDigits base digits value) := by
  induction digits generalizing value with
  | nil => rfl
  | cons b rest ih =>
      rw [known, List.takeWhile_cons, readDigits]
      cases isDigit : digitValue b with
      | none => rfl
      | some d =>
          by_cases below : d < base
          · simp only [Option.any_some, below, decide_true, if_true, numeralFrom, isDigit]
            exact ih _
          · simp only [Option.any_some, below, decide_false, if_false]
            rfl

theorem newIntf_eq_some_iff {errno base : Int} {str : List UInt8} {n : Nat} :
    newIntf errno base str = some n ↔
      workingBase base (withoutUnderscores str) = none ∧ n = 0 ∨
        ∃ e, workingBase base (withoutUnderscores str) = some e ∧
          readDigits e (withoutUnderscores str) 0 = n ∧ ¬ Overflows errno n := by
  have clamped (m : Nat) : (let (k, errno') := if m ≤ llongMax then (m, errno) else (llongMax, erange)
      if k = llongMax ∧ errno' = erange then none else some k) = some n ↔
        m = n ∧ ¬ Overflows errno n := by
    by_cases fits : m ≤ llongMax
    · simp only [if_pos fits]
      by_cases stale : m = llongMax ∧ errno = erange
      · rw [if_pos stale]
        refine ⟨(nomatch ·), ?_⟩
        rintro ⟨rfl, fine⟩
        exact (fine (.inr stale)).elim
      · rw [if_neg stale, Option.some.injEq]
        refine ⟨?_, fun read => read.1⟩
        rintro rfl
        exact ⟨rfl, fun overflows => overflows.elim (fun more => Nat.not_lt_of_le fits more) stale⟩
    · simp only [if_neg fits, and_self, if_true]
      refine ⟨(nomatch ·), ?_⟩
      rintro ⟨rfl, fine⟩
      exact (fine (.inl (Nat.lt_of_not_le fits))).elim
  have in_base (e : Nat) : (some e = none ∧ n = 0 ∨ ∃ e', some e = some e' ∧
      readDigits e' (withoutUnderscores str) 0 = n ∧ ¬ Overflows errno n) ↔
        readDigits e (withoutUnderscores str) 0 = n ∧ ¬ Overflows errno n := by
    simp
  rw [newIntf, strtollErrno]
  by_cases zero : base = 0
  · rw [if_pos (.inl zero), strtoll, if_pos zero, workingBase, if_pos zero, in_base]
    exact clamped _
  · by_cases supported : 2 ≤ base ∧ base ≤ 36
    · rw [if_pos (.inr supported), strtoll, if_neg zero, if_pos supported, workingBase,
        if_neg zero, if_pos supported, in_base]
      exact clamped _
    · rw [if_neg (not_or.mpr ⟨zero, supported⟩), workingBase, if_neg zero, if_neg supported]
      simp [llongMax, eq_comm]

theorem forall_byte {p : UInt8 → Prop} (all : ∀ n : Fin 256, p (.ofFin n)) (b : UInt8) : p b :=
  all b.toFin

theorem decimal_digit (b : UInt8) : charClass "0-9" b = true →
    b ≠ 95 ∧ (digitValue b).any (· < 10) = true := by
  revert b
  refine forall_byte ?_
  decide +kernel

theorem hexadecimal_digit (b : UInt8) : charClass "0-9a-fA-F" b = true →
    b ≠ 95 ∧ (digitValue b).any (· < 16) = true := by
  revert b
  refine forall_byte ?_
  decide +kernel

theorem withoutUnderscores_eq {digits : List UInt8} (none_inside : ∀ b ∈ digits, b ≠ 95) :
    withoutUnderscores digits = digits :=
  List.filter_eq_self.mpr fun b member => decide_eq_true (none_inside b member)

/-- Digits of the base write a number. -/
theorem numeral_of_digits {base : Nat} {digits : List UInt8}
    (all : ∀ b ∈ digits, (digitValue b).any (· < base) = true) :
    numeral base digits = some (readDigits base digits 0) := by
  have whole : known base digits = digits := List.takeWhile_eq_self_iff.mpr all
  have written := numeralFrom_known base 0 digits
  rwa [whole] at written

namespace Literal

theorem base_based (base : Spell "0-9") (digits : Spell "0-9a-fA-F") :
    (Literal.based base digits).base = readDigits 10 base.chars 0 := by
  have written := numeral_of_digits fun b member => (decimal_digit b (base.inClass b member)).2
  simp [Literal.base, written]

/-- A literal is read by one call on its digits, if its base is. -/
theorem read_eq_some_iff {errnoBase errno : Int} {literal : Literal} {n : Nat} :
    literal.read errnoBase errno = some n ↔
      literal.BaseRead errnoBase ∧
        (workingBase literal.passedBase literal.digits = none ∧ n = 0 ∨
          ∃ e, workingBase literal.passedBase literal.digits = some e ∧
            readDigits e literal.digits 0 = n ∧ ¬ Overflows errno n) := by
  cases literal with
  | fixed form digits => exact newIntf_eq_some_iff.trans (true_and _).symm.to_iff
  | based base digits =>
      have plain : withoutUnderscores base.chars = base.chars :=
        withoutUnderscores_eq fun b member => (decimal_digit b (base.inClass b member)).1
      have plain' : withoutUnderscores digits.chars = digits.chars :=
        withoutUnderscores_eq fun b member => (hexadecimal_digit b (digits.inClass b member)).1
      have first (i : Nat) : newIntf errnoBase 10 base.chars = some i ↔
          i = (Literal.based base digits).base ∧ (Literal.based base digits).BaseRead errnoBase := by
        have whole : workingBase 10 base.chars = some 10 := rfl
        have value := base_based base digits
        rw [newIntf_eq_some_iff, plain, whole]
        constructor
        · rintro (⟨missing, -⟩ | ⟨e, same, rfl, fine⟩)
          · cases missing
          · cases same
            rw [← value] at fine
            exact ⟨value.symm, fine⟩
        · rintro ⟨rfl, baseRead⟩
          exact .inr ⟨10, rfl, value.symm, baseRead⟩
      rw [read, Option.bind_eq_bind, Option.bind_eq_some_iff]
      constructor
      · rintro ⟨i, base_read, digits_read⟩
        obtain ⟨rfl, baseRead⟩ := (first i).mp base_read
        rw [newIntf_eq_some_iff, plain'] at digits_read
        exact ⟨baseRead, digits_read⟩
      · rintro ⟨baseRead, digits_read⟩
        refine ⟨_, (first _).mpr ⟨rfl, baseRead⟩, ?_⟩
        rw [newIntf_eq_some_iff, plain']
        exact digits_read

private theorem bmod_small {n : Nat} (small : n ≤ 36) : (n : Int).bmod intRange = n := by
  refine Int.bmod_eq_of_le_mul_two ?_ ?_ <;> simp only [intRange] <;> omega

theorem passedBase_based (base : Spell "0-9") (digits : Spell "0-9a-fA-F") :
    (Literal.based base digits).passedBase =
      ((Literal.based base digits).base : Int).bmod intRange := rfl

private theorem workingBase_small {base : Int} {digits : List UInt8} {e : Nat}
    (working : workingBase base digits = some e) : 0 < e ∧ e ≤ 36 := by
  rw [workingBase] at working
  split at working
  · split at working <;> cases working <;> decide
  · split at working
    · cases working
      omega
    · cases working

private theorem workingBase_of_small {base : Nat} {digits : List UInt8} {e : Nat}
    (positive : 0 < base) (working : workingBase base digits = some e) : e = base := by
  rw [workingBase, if_neg (by omega)] at working
  split at working <;> cases working
  rfl

/-- Where `strtoll` works in a base other than the written one, that one is larger. -/
theorem base_of_workingBase {literal : Literal} {e n : Nat}
    (written : numeral literal.base literal.digits = some n)
    (working : workingBase literal.passedBase literal.digits = some e) :
    e = literal.base ∨ 0 < e ∧ e < literal.base := by
  cases literal with
  | fixed form digits =>
      have positive : 0 < form.base := by cases form <;> decide
      exact .inl (workingBase_of_small positive working)
  | based base digits =>
      obtain ⟨positive, small⟩ := workingBase_small working
      by_cases large : 36 < (Literal.based base digits).base
      · exact .inr ⟨positive, Nat.lt_of_le_of_lt small large⟩
      · have same : (Literal.based base digits).passedBase = (Literal.based base digits).base :=
          (passedBase_based base digits).trans (bmod_small (Nat.le_of_not_lt large))
        have nonzero : 0 < (Literal.based base digits).base := by
          refine Nat.pos_of_ne_zero fun zero => ?_
          obtain ⟨b, rest, chars⟩ := List.exists_cons_of_ne_nil digits.nonempty
          rw [zero, Literal.digits, chars, numeral, numeralFrom] at written
          split at written
          · simp at written
          · cases written
        rw [same] at working
        exact .inl (workingBase_of_small nonzero working)

/-- What is read where the literal denotes a number. -/
theorem read_iff_of_denotes {errnoBase errno : Int} {literal : Literal} {n : Nat}
    (denotes : literal.denotes = some n) :
    literal.read errnoBase errno = some n ↔ literal.BaseRead errnoBase ∧
      (workingBase literal.passedBase literal.digits = some literal.base ∨
        n < (workingBase literal.passedBase literal.digits).getD 1) ∧
      ¬ (n = llongMax ∧ errno = erange) := by
  obtain ⟨written, fits⟩ := Option.filter_eq_some_iff.mp denotes
  have fits : n ≤ llongMax := of_decide_eq_true fits
  have overflows : Overflows errno n ↔ n = llongMax ∧ errno = erange :=
    or_iff_right (Nat.not_lt_of_le fits)
  rw [read_eq_some_iff]
  refine and_congr_right fun _ => ?_
  cases working : workingBase literal.passedBase literal.digits with
  | none =>
      have large : ¬ llongMax = 0 := by decide
      rw [Option.getD_none, Nat.lt_one_iff]
      constructor
      · rintro (⟨-, rfl⟩ | ⟨e, missing, -⟩)
        · exact ⟨.inr rfl, fun stale => large stale.1.symm⟩
        · cases missing
      · rintro ⟨missing | rfl, -⟩
        · cases missing
        · exact .inl ⟨rfl, rfl⟩
  | some e =>
      have reads : readDigits e literal.digits 0 = n ↔ e = literal.base ∨ n < e := by
        rcases base_of_workingBase written working with rfl | ⟨positive, smaller⟩
        · exact iff_of_true (readDigits_of_numeralFrom written) (.inl rfl)
        · rw [readDigits_eq_iff written smaller positive]
          exact (or_iff_right (Nat.ne_of_lt smaller)).symm
      simp [reads, overflows]

theorem valued_iff (errnoBase errno : Int) (literal : Literal) :
    literal.read errnoBase errno = literal.denotes ↔ literal.Faithful errnoBase errno := by
  cases denotes : literal.denotes with
  | some n => exact (read_iff_of_denotes denotes).trans (by rw [Faithful, denotes])
  | none =>
      have known_eq (e n : Nat) : numeral e (known e literal.digits) = some n ↔
          readDigits e literal.digits 0 = n := by
        rw [numeral, numeralFrom_known, Option.some.injEq]
      rw [Faithful, denotes, Option.eq_none_iff_forall_ne_some]
      constructor
      · intro unread baseRead
        cases working : workingBase literal.passedBase literal.digits with
        | none => exact (unread 0 (read_eq_some_iff.mpr ⟨baseRead, .inl ⟨working, rfl⟩⟩)).elim
        | some e =>
            refine ⟨e, _, rfl, (known_eq e _).mpr rfl, ?_⟩
            by_contra fine
            exact unread _ (read_eq_some_iff.mpr ⟨baseRead, .inr ⟨e, working, rfl, fine⟩⟩)
      · intro overflows n reads
        obtain ⟨baseRead, read⟩ := read_eq_some_iff.mp reads
        obtain ⟨e, m, working, written, overflow⟩ := overflows baseRead
        rcases read with ⟨missing, -⟩ | ⟨e', working', rfl, fine⟩
        · rw [working] at missing
          cases missing
        · obtain rfl := Option.some.inj (working.symm.trans working')
          exact fine ((known_eq e m).mp written ▸ overflow)

/-- A foreign digit cuts the literal off, an unsupported base gives 0, and an old `ERANGE` rejects the
largest literal. -/
theorem not_valued_foreign_unsupported_stale :
    let foreign : Literal :=
      .based ⟨[56], by decide, by decide +kernel⟩ ⟨[49, 57], by decide, by decide +kernel⟩
    let unsupported : Literal :=
      .based ⟨[51, 55], by decide, by decide +kernel⟩
        ⟨[49, 48], by decide, by decide +kernel⟩
    let largest : Literal :=
      .fixed .decNumber ⟨bytes "9223372036854775807", by decide +kernel, by decide +kernel⟩
    foreign.read 0 0 ≠ foreign.denotes ∧ unsupported.read 0 0 ≠ unsupported.denotes ∧
      largest.read 0 erange ≠ largest.denotes := by
  decide +kernel

end Literal

/-! ## The literals that the grammar reads -/

section Matches

variable {w : List UInt8} {c c' : Cursor Act} {seen seen' : Nat}

/-- A match reads the literal: it matches its text, and its actions give what is read. -/
structure Matches (w : List UInt8) (c c' : Cursor Act) (literal : Literal) : Prop where
  text : yyText w c.pos c'.pos = literal.text
  actions : ∃ added, c'.thunks = added ++ c.thunks ∧ ∀ m : Vm,
    (yyDone w added m).map Machine.ss = (literal.read 0 0).map fun n : Nat => some (.int .int n)

/-- Marked digits. -/
theorem marked_digits {cls : String}
    (run : ReadsWord w (marked [.plus (Syntax.cls cls)]) c seen true c' seen') :
    c' = { c with pos := c'.pos, first := c.pos, last := c'.pos } ∧ c.pos ≤ c'.pos ∧
      ∃ spell : Spell cls, spell.chars = yyText w c.pos c'.pos := by
  cases run with
  | sequence opened run =>
  cases opened
  cases run with
  | sequence read closed =>
  cases closed
  obtain ⟨spanned, further, inside⟩ := read.plus_word
  have moved := spanned.moved
  refine ⟨?_, Nat.le_of_lt further, ⟨yyText w c.pos _, ?_, spanned.all⟩, rfl⟩
  · rw [moved]
  · intro empty
    have count := length_yyText (p := c.pos) inside
    rw [empty, List.length_nil] at count
    exact absurd further (by simp only at count ⊢; omega)

/-- `$$` after the action of a rule with one variable. -/
private theorem ss_of_give (operand : Operand) (first last : Nat) (m : Vm) :
    (yyDone w [.yyPop 1, .action (give operand) first last, .yyPush 1] m).map Machine.ss =
      operand (yyText w first last) { m with val := m.val + 1 } := by
  simp only [yyDone, List.reverse_cons, List.reverse_nil, List.nil_append, List.cons_append,
    List.foldlM_cons, List.foldlM_nil, Thunk.run, give, Option.bind_eq_bind, Option.bind_some]
  cases operand (yyText w first last) { m with val := m.val + 1 } <;> rfl

/-- `$$` after the action of a rule that has kept `$$` of another in its variable. -/
private theorem ss_of_give_named (kept operand : Operand) (first last first' last' : Nat) (m : Vm) :
    (yyDone w [.yyPop 1, .action (give operand) first' last', .yySet 0,
      .action (give kept) first last, .yyPush 1] m).map Machine.ss =
      (kept (yyText w first last) { m with val := m.val + 1 }).bind fun v =>
        operand (yyText w first' last')
          (Machine.setVar { m with val := m.val + 1, ss := v } 0 v) := by
  simp only [yyDone, List.reverse_cons, List.reverse_nil, List.nil_append, List.cons_append,
    List.foldlM_cons, List.foldlM_nil, Thunk.run, give, Option.bind_eq_bind, Option.bind_some]
  cases kept (yyText w first last) { m with val := m.val + 1 } with
  | none => rfl
  | some v =>
      simp only [Option.bind_some]
      cases operand (yyText w first' last')
        (Machine.setVar { m with val := m.val + 1, ss := v } 0 v) <;> rfl

theorem intf_operand (base : Int) (str : List UInt8) (vm : Vm) :
    intf base str vm = (newIntf 0 base str).map fun n : Nat => some (.int .int n) := by
  have clear : (0 : Int) ≠ erange := by decide
  rw [intf, intf_eq_newIntf str clear, Option.map_map]
  rfl

theorem intfBase_operand {vm : Vm} {k : Nat} {iv : Int} (str : List UInt8)
    (kept : vm.var k = some (.int .int iv)) :
    intfBase k str vm =
      (newIntf 0 (iv.bmod intRange) str).map fun n : Nat => some (.int .int n) := by
  rw [← intf_operand (iv.bmod intRange) str vm, intfBase, kept]
  rfl

/-- An opening, marked digits and an action. -/
private theorem matches_form (form : Form) {e d : Cursor Act}
    (run : ReadsWord w (seq [lit form.opening, marked [.plus (cls form.digits)],
      gives (intf form.base)]) e seen true d seen') (here : e.pos = c.pos)
    (entered : e.thunks = .yyPush 1 :: c.thunks) (unclosed : form.closing = "") :
    ∃ literal, Matches w c (d.leave 1) literal := by
  cases run with
  | @sequence _ _ _ _ c₁ _ _ _ _ opened run =>
  cases run with
  | @sequence _ _ _ _ c₂ _ _ _ _ read last =>
  cases last
  obtain ⟨openMoved, before, openText⟩ := opened.string_word
  obtain ⟨moved, forward, digits, text⟩ := marked_digits read
  rw [here] at before openText
  refine ⟨.fixed form digits, ?_,
    [.yyPop 1, .action (give (intf form.base)) c₁.pos c₂.pos, .yyPush 1], ?_,
    fun m => ?_⟩
  · rw [Literal.text, unclosed, text, ← openText]
    exact (yyText_append before forward).trans (List.append_nil _).symm
  · rw [moved, openMoved, entered]
    rfl
  · rw [ss_of_give, intf_operand, ← text]
    rfl

/-- The form with a closing. -/
private theorem matches_ten {e d : Cursor Act}
    (run : ReadsWord w (seq [lit ":10<", marked [.plus (cls "0-9")], lit ">", gives (intf 10)])
      e seen true d seen') (here : e.pos = c.pos) (entered : e.thunks = .yyPush 1 :: c.thunks) :
    ∃ literal, Matches w c (d.leave 1) literal := by
  cases run with
  | @sequence _ _ _ _ c₁ _ _ _ _ opened run =>
  cases run with
  | @sequence _ _ _ _ c₂ _ _ _ _ read run =>
  cases run with
  | @sequence _ _ _ _ c₃ _ _ _ _ closed last =>
  cases last
  obtain ⟨openMoved, before, openText⟩ := opened.string_word
  obtain ⟨moved, forward, digits, text⟩ := marked_digits read
  obtain ⟨closeMoved, behind, closeText⟩ := closed.string_word
  rw [here] at before openText
  refine ⟨.fixed .ten digits, ?_,
    [.yyPop 1, .action (give (intf 10)) c₁.pos c₂.pos, .yyPush 1], ?_,
    fun m => ?_⟩
  · have whole := yyText_append (w := w) (Nat.le_trans before forward) behind
    rw [closeText, yyText_append before forward, openText, ← text] at whole
    exact whole
  · rw [closeMoved, moved, openMoved, entered]
    rfl
  · rw [ss_of_give, intf_operand, ← text]
    rfl

private theorem actions_of_based {base : Spell "0-9"} {digits : Spell "0-9a-fA-F"}
    {first last first' last' : Nat} (baseText : yyText w first last = base.chars)
    (text : yyText w first' last' = digits.chars) (m : Vm) :
    (yyDone w [.yyPop 1, .action (give (intfBase 0)) first' last', .yySet 0,
      .action (give (intf 10)) first last, .yyPush 1] m).map Machine.ss =
      ((Literal.based base digits).read 0 0).map fun n : Nat => some (.int .int n) := by
  have read : (Literal.based base digits).read 0 0 = (newIntf 0 10 base.chars).bind fun i =>
      newIntf 0 ((i : Int).bmod intRange) digits.chars := rfl
  rw [ss_of_give_named, intf_operand, baseText, text, read]
  cases newIntf 0 10 base.chars with
  | none => rfl
  | some i =>
      rw [Option.map_some, Option.bind_some, Option.bind_some]
      rw [intfBase_operand digits.chars (Machine.var_setVar_self _ _ (some (Tree.int .int (i : Int))))]

/-- The form with a base. -/
private theorem matches_based {e d : Cursor Act}
    (run : ReadsWord w (seq [lit ":", .named 0 .integerInt, lit "<",
      marked [.plus (cls "0-9a-fA-F")], lit ">", gives (intfBase 0)]) e seen true d seen')
    (here : e.pos = c.pos) (entered : e.thunks = .yyPush 1 :: c.thunks) :
    ∃ literal, Matches w c (d.leave 1) literal := by
  cases run with
  | @sequence _ _ _ _ c₁ _ _ _ _ opened run =>
  cases run with
  | sequence base run =>
  cases run with
  | @sequence _ _ _ _ c₃ _ _ _ _ middle run =>
  cases run with
  | @sequence _ _ _ _ c₄ _ _ _ _ read run =>
  cases run with
  | @sequence _ _ _ _ c₅ _ _ _ _ closed last =>
  cases last
  cases base with
  | named base =>
  cases base with
  | name base =>
  cases base with
  | @sequence _ _ _ _ c₂ _ _ _ _ baseRead last =>
  cases last
  obtain ⟨openMoved, before, openText⟩ := opened.string_word
  obtain ⟨baseMoved, baseForward, base, baseText⟩ := marked_digits baseRead
  obtain ⟨middleMoved, between, middleText⟩ := middle.string_word
  obtain ⟨moved, forward, digits, text⟩ := marked_digits read
  obtain ⟨closeMoved, behind, closeText⟩ := closed.string_word
  rw [here] at before openText
  refine ⟨.based base digits, ?_,
    [.yyPop 1, .action (give (intfBase 0)) c₃.pos c₄.pos, .yySet 0,
      .action (give (intf 10)) c₁.pos c₂.pos, .yyPush 1], ?_,
    actions_of_based baseText.symm text.symm⟩
  · have whole : yyText w c.pos c₅.pos = yyText w c.pos c₁.pos ++ yyText w c₁.pos c₂.pos ++
        yyText w c₂.pos c₃.pos ++ yyText w c₃.pos c₄.pos ++ yyText w c₄.pos c₅.pos := by
      rw [← yyText_append before baseForward, ← yyText_append (Nat.le_trans before baseForward) between,
        ← yyText_append (Nat.le_trans (Nat.le_trans before baseForward) between) forward,
        ← yyText_append _ behind]
      exact Nat.le_trans (Nat.le_trans (Nat.le_trans before baseForward) between) forward
    rw [openText, closeText] at whole
    exact whole.trans (by rw [Literal.text, baseText, text, ← middleText]; rfl)
  · rw [closeMoved, moved, middleMoved, baseMoved, openMoved, entered]
    rfl

/-- A match of `integer` reads a literal. -/
theorem integer_matches (run : ReadsWord w (.name .integer) c seen true c' seen') :
    ∃ literal, Matches w c c' literal := by
  cases run with
  | name body =>
  cases body with
  | alternate passed => exact matches_form .binary passed rfl rfl rfl
  | alternate_next _ next =>
  cases next with
  | alternate passed => exact matches_form .decimal passed rfl rfl rfl
  | alternate_next _ next =>
  cases next with
  | alternate passed => exact matches_form .hexadecimal passed rfl rfl rfl
  | alternate_next _ next =>
  cases next with
  | alternate passed => exact matches_form .octal passed rfl rfl rfl
  | alternate_next _ next =>
  cases next with
  | alternate passed => exact matches_ten passed rfl rfl
  | alternate_next _ passed => exact matches_based passed rfl rfl

/-- Marked digits alone, in a rule without variables. -/
private theorem matches_plain (form : Form) {e d : Cursor Act}
    (run : ReadsWord w (seq [marked [.plus (cls form.digits)], gives (intf form.base)]) e seen true
      d seen') (here : e.pos = c.pos) (entered : e.thunks = c.thunks)
    (unopened : form.opening = "") (unclosed : form.closing = "") :
    ∃ literal, Matches w c d literal := by
  cases run with
  | @sequence _ _ _ _ c₁ _ _ _ _ read last =>
  cases last
  obtain ⟨moved, forward, digits, text⟩ := marked_digits read
  refine ⟨.fixed form digits, ?_, [.action (give (intf form.base)) c.pos c₁.pos], ?_,
    fun m => ?_⟩
  · rw [Literal.text, unopened, unclosed, text, here]
    exact (List.append_nil _).symm
  · rw [moved, here, entered]
    rfl
  · have node := intf_operand form.base digits.chars m
    rw [here] at text
    simp only [yyDone, List.reverse_singleton, List.foldlM_cons, List.foldlM_nil, Thunk.run, give,
      ← text, node, Literal.read]
    cases newIntf 0 form.base digits.chars <;> rfl

theorem integerInt_matches (run : ReadsWord w (.name .integerInt) c seen true c' seen') :
    ∃ literal, Matches w c c' literal := by
  cases run with
  | name body => exact matches_plain .integerInt body rfl rfl rfl rfl

private theorem point_foreign (b : UInt8) :
    charClass "." b = true → charClass "0-9_" b = false := by
  revert b
  refine forall_byte ?_
  decide +kernel

/-- A match of `dec_number` whose text is digits and underscores reads a literal. -/
theorem decNumber_matches (run : ReadsWord w (.name .decNumber) c seen true c' seen')
    (digits : ∀ b ∈ yyText w c.pos c'.pos, charClass "0-9_" b = true) :
    ∃ literal, Matches w c c' literal := by
  cases run with
  | name body =>
  have foreign {x : UInt8} (outside : charClass "0-9_" x = false) :
      x ∉ yyText w c.pos _ := fun member => by
    rw [digits x member] at outside
    cases outside
  cases body with
  | alternate passed =>
      -- the `e` of an exponent
      cases passed with
      | sequence read last =>
      cases last
      cases read with
      | sequence opened run =>
      cases opened
      cases run with
      | sequence read closed =>
      cases closed
      cases read with
      | sequence whole run =>
      cases run with
      | sequence fraction run =>
      cases run with
      | sequence exponent run =>
      have before := Nat.le_trans (whole.forward rfl) (fraction.forward rfl)
      exact (foreign (by decide) (exponent.mem_of_char (x := 101) before (run.forward rfl))).elim
  | alternate_next _ next =>
  cases next with
  | alternate passed =>
      cases passed with
      | sequence read last =>
      cases last
      cases read with
      | sequence opened run =>
      cases opened
      cases run with
      | sequence read closed =>
      cases closed
      cases read with
      | sequence point run =>
      obtain ⟨b, here, inClass, rfl⟩ := point.cclass_passes
      exact (foreign (point_foreign b inClass) (mem_yyText here (Nat.le_refl _) (run.forward rfl))).elim
  | alternate_next _ next =>
  cases next with
  | alternate passed =>
      cases passed with
      | sequence read last =>
      cases last
      cases read with
      | sequence opened run =>
      cases opened
      cases run with
      | sequence read closed =>
      cases closed
      cases read with
      | sequence whole run =>
      cases run with
      | sequence point run =>
      exact (foreign (by decide) (point.mem_of_char (x := 46) (whole.forward rfl) (run.forward rfl))).elim
  | alternate_next _ passed => exact matches_plain .decNumber passed rfl rfl rfl rfl

end Matches

end Syntax
end Pone
