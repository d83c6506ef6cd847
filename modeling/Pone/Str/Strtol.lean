import Pone.CLong
import Pone.Syntax.Tree

/-!
# `strtol`

What `strtol` of the C locale reads in memory, and the value of the numeric prefix of a text.  A scan
that has met a byte that ends the number looks no further; one that comes to the end of the memory
has none.
-/

namespace Pone
namespace Str

open Syntax (digitValue readDigits)

def erange : Int := 34

def einval : Int := 22

/-- `isspace` -/
def isSpace (b : UInt8) : Bool := b = 32 || 9 ≤ b && b ≤ 13

def isDigit (base : Nat) (b : UInt8) : Bool := (digitValue b).any (· < base)

/-- The bases that `strtol` knows. -/
def Supported (base : Int) : Prop := base = 0 ∨ 2 ≤ base ∧ base ≤ 36

instance : DecidablePred Supported := fun _ => inferInstanceAs (Decidable (_ ∨ _))

/-! ## The numeric prefix of a text -/

def signOf (text : List UInt8) : Int := if text.head? = some 45 then -1 else 1

def afterSign (text : List UInt8) : List UInt8 :=
  if text.head? = some 45 ∨ text.head? = some 43 then text.tail else text

/-- `0x` in front of a digit, in a base that has it -/
def HexMark (base : Int) (text : List UInt8) : Prop :=
  (base = 0 ∨ base = 16) ∧ text[0]? = some 48 ∧ (text[1]? = some 120 ∨ text[1]? = some 88) ∧
    (text[2]?).any (isDigit 16) = true

instance (base : Int) (text : List UInt8) : Decidable (HexMark base text) :=
  inferInstanceAs (Decidable (_ ∧ _))

/-- The base of the digits; base 0 takes it from how they start. -/
def radix (base : Int) (text : List UInt8) : Nat :=
  if HexMark base text then 16
  else if base = 0 then if text.head? = some 48 then 8 else 10
  else base.toNat

def afterMark (base : Int) (text : List UInt8) : List UInt8 :=
  if HexMark base text then text.drop 2 else text

/-- The value of the longest numeric prefix: spaces, a sign, a mark and digits; 0 without digits. -/
def prefixValue (base : Int) (text : List UInt8) : Int :=
  let body := text.dropWhile isSpace
  let number := afterSign body
  signOf body * readDigits (radix base number) (afterMark base number) 0

/-! ## The scan -/

def spacesMem : List UInt8 → Option (List UInt8)
  | [] => none
  | b :: rest => if isSpace b then spacesMem rest else some (b :: rest)

def signMem : List UInt8 → Option (Int × List UInt8)
  | [] => none
  | b :: rest =>
      some (if b = 45 then (-1, rest) else if b = 43 then (1, rest) else (1, b :: rest))

/-- The base of the digits and where they start.  Behind a zero and an `x` one more byte is read. -/
def markMem (base : Int) (memory : List UInt8) : Option (Nat × List UInt8) := do
  let b ← memory[0]?
  if b = 48 ∧ (base = 0 ∨ base = 16) then
    let x ← memory[1]?
    if x = 120 ∨ x = 88 then
      let d ← memory[2]?
      return if isDigit 16 d then (16, memory.drop 2) else (if base = 0 then 8 else 16, memory)
    else return (if base = 0 then 8 else 16, memory)
  else return (if base = 0 then if b = 48 then 8 else 10 else base.toNat, memory)

def digitsMem (base : Nat) : List UInt8 → Nat → Option Nat
  | [], _ => none
  | b :: rest, n =>
      match digitValue b with
      | some digit => if digit < base then digitsMem base rest (n * base + digit) else some n
      | none => some n

/-- The number that stands in memory, however large. -/
def scan (base : Int) (memory : List UInt8) : Option Int := do
  let body ← spacesMem memory
  let (sign, number) ← signMem body
  let (radix, digits) ← markMem base number
  let n ← digitsMem radix digits 0
  return sign * n

/-- `strtol` and the `errno` behind it; `none` where it reads outside of the memory. -/
def strtol (memory : List UInt8) (base errno : Int) : Option (Int × Int) :=
  if Supported base then do
    let v ← scan base memory
    return if CLong.maximum < v then (CLong.maximum, erange)
      else if v < CLong.minimum then (CLong.minimum, erange)
      else (v, errno)
  else some (0, einval)

/-! ## What is behind the number is not read -/

theorem spacesMem_append {memory body : List UInt8} (done : spacesMem memory = some body)
    (rest : List UInt8) : spacesMem (memory ++ rest) = some (body ++ rest) := by
  induction memory with
  | nil => cases done
  | cons b memory ih =>
      rw [List.cons_append, spacesMem]
      rw [spacesMem] at done
      split at done
      · next space =>
          rw [if_pos space]
          exact ih done
      · next other =>
          rw [if_neg other, ← Option.some.inj done]
          rfl

theorem signMem_append {memory number : List UInt8} {sign : Int}
    (done : signMem memory = some (sign, number)) (rest : List UInt8) :
    signMem (memory ++ rest) = some (sign, number ++ rest) := by
  cases memory with
  | nil => cases done
  | cons b memory =>
      rw [List.cons_append, signMem]
      rw [signMem] at done
      split at done
      · next minus =>
          cases done
          rw [if_pos minus]
      · next other =>
          rw [if_neg other]
          split at done
          · next plus =>
              cases done
              rw [if_pos plus]
          · next other =>
              cases done
              rw [if_neg other]
              rfl

theorem markMem_append {base : Int} {memory digits : List UInt8} {radix : Nat}
    (done : markMem base memory = some (radix, digits)) (rest : List UInt8) :
    markMem base (memory ++ rest) = some (radix, digits ++ rest) := by
  have kept {i : Nat} {b : UInt8} (found : memory[i]? = some b) :
      (memory ++ rest)[i]? = some b := by
    rw [List.getElem?_append_left (List.getElem?_eq_some_iff.mp found).1, found]
  simp only [markMem, Option.bind_eq_bind, Option.bind_eq_some_iff] at done ⊢
  obtain ⟨b, first, done⟩ := done
  refine ⟨b, kept first, ?_⟩
  split at done
  · next zero =>
      obtain ⟨x, second, done⟩ := Option.bind_eq_some_iff.mp done
      rw [if_pos zero]
      refine Option.bind_eq_some_iff.mpr ⟨x, kept second, ?_⟩
      split at done
      · next mark =>
          obtain ⟨d, third, done⟩ := Option.bind_eq_some_iff.mp done
          rw [if_pos mark]
          refine Option.bind_eq_some_iff.mpr ⟨d, kept third, ?_⟩
          have long : 2 ≤ memory.length :=
            Nat.le_of_lt (List.getElem?_eq_some_iff.mp third).1
          split at done
          · next digit =>
              cases done
              rw [if_pos digit, List.drop_append_of_le_length long]
              rfl
          · next other =>
              cases done
              rw [if_neg other]
              rfl
      · next other =>
          cases done
          rw [if_neg other]
          rfl
  · next other =>
      cases done
      rw [if_neg other]
      rfl

theorem digitsMem_append {base n m : Nat} {memory : List UInt8}
    (done : digitsMem base memory n = some m) (rest : List UInt8) :
    digitsMem base (memory ++ rest) n = some m := by
  induction memory generalizing n with
  | nil => cases done
  | cons b memory ih =>
      rw [List.cons_append, digitsMem]
      rw [digitsMem] at done
      cases isDigit : digitValue b with
      | none =>
          rw [isDigit] at done
          exact done
      | some digit =>
          rw [isDigit] at done
          simp only at done ⊢
          split at done
          · next below =>
              rw [if_pos below]
              exact ih done
          · next above =>
              rw [if_neg above]
              exact done

theorem scan_append {base v : Int} {memory : List UInt8} (done : scan base memory = some v)
    (rest : List UInt8) : scan base (memory ++ rest) = some v := by
  simp only [scan, Option.bind_eq_bind, Option.bind_eq_some_iff, Prod.exists] at done
  obtain ⟨body, skipped, sign, number, signed, radix, digits, marked, n, read, value⟩ := done
  simp only [scan, spacesMem_append skipped, signMem_append signed, markMem_append marked,
    digitsMem_append read, Option.bind_eq_bind, Option.bind_some]
  exact value

/-! ## A byte that is not a part of any number ends the scan -/

theorem spacesMem_nul (text rest : List UInt8) :
    spacesMem (text ++ 0 :: rest) = some (text.dropWhile isSpace ++ 0 :: rest) := by
  induction text with
  | nil => rfl
  | cons b text ih =>
      rw [List.cons_append, spacesMem, List.dropWhile_cons]
      split
      · exact ih
      · rfl

theorem signMem_nul (text rest : List UInt8) :
    signMem (text ++ 0 :: rest) = some (signOf text, afterSign text ++ 0 :: rest) := by
  cases text with
  | nil => rfl
  | cons b text =>
      rw [List.cons_append, signMem, signOf, afterSign, List.head?_cons]
      by_cases minus : b = 45
      · simp [minus]
      · by_cases plus : b = 43
        · simp [plus]
        · simp [minus, plus]

/-- Behind a zero without a mark -/
theorem radix_zero {base : Int} {text : List UInt8} (hex : base = 0 ∨ base = 16)
    (other : ¬ HexMark base (48 :: text)) :
    radix base (48 :: text) = if base = 0 then 8 else 16 := by
  rw [radix, if_neg other]
  rcases hex with rfl | rfl <;> rfl

theorem not_hexMark {base : Int} {b : UInt8} (text : List UInt8)
    (other : ¬ (b = 48 ∧ (base = 0 ∨ base = 16))) : ¬ HexMark base (b :: text) := by
  rintro ⟨hex, zero, -⟩
  exact other ⟨by simpa using zero, hex⟩

theorem markMem_nul (base : Int) (text rest : List UInt8) :
    markMem base (text ++ 0 :: rest) =
      some (radix base text, afterMark base text ++ 0 :: rest) := by
  cases text with
  | nil => by_cases zero : base = 0 <;> simp [markMem, radix, afterMark, HexMark, zero]
  | cons b text =>
      by_cases first : b = 48 ∧ (base = 0 ∨ base = 16)
      · obtain ⟨rfl, hex⟩ := first
        by_cases marked : HexMark base (48 :: text)
        · obtain ⟨-, -, mark, digit⟩ := id marked
          match text with
          | [] => simp at mark
          | [x] => simp at digit
          | x :: d :: text =>
              simp only [List.getElem?_cons_succ, List.getElem?_cons_zero, Option.some.injEq,
                Option.any_some] at mark digit
              simp [markMem, radix, afterMark, marked, hex, mark, digit]
        · have radix_eq := radix_zero hex marked
          match text with
          | [] => simp [markMem, afterMark, marked, hex, radix_eq]
          | [x] =>
              have no_digit : isDigit 16 0 = false := rfl
              simp [markMem, afterMark, marked, hex, radix_eq, no_digit]
          | x :: d :: text =>
              have no_digit : x = 120 ∨ x = 88 → isDigit 16 d = false := by
                simpa [HexMark, hex] using marked
              by_cases mark : x = 120 ∨ x = 88
              · simp [markMem, afterMark, marked, hex, radix_eq, no_digit mark]
              · simp [markMem, afterMark, marked, hex, radix_eq, mark]
      · have other := not_hexMark text first
        simp [markMem, radix, afterMark, first, other]

theorem digitsMem_nul (base n : Nat) (text rest : List UInt8) :
    digitsMem base (text ++ 0 :: rest) n = some (readDigits base text n) := by
  induction text generalizing n with
  | nil => rfl
  | cons b text ih =>
      rw [List.cons_append, digitsMem, readDigits]
      cases digitValue b with
      | none => rfl
      | some digit =>
          simp only
          split
          · exact ih _
          · rfl

theorem scan_nul (base : Int) (text rest : List UInt8) :
    scan base (text ++ 0 :: rest) = some (prefixValue base text) := by
  simp only [scan, spacesMem_nul, signMem_nul, markMem_nul, digitsMem_nul, Option.bind_eq_bind,
    Option.bind_some]
  rfl

/-- A scan that ends inside of the text has found its numeric prefix. -/
theorem eq_prefixValue_of_scan {base v : Int} {text : List UInt8} (done : scan base text = some v) :
    v = prefixValue base text :=
  Option.some.inj ((scan_append done [0]).symm.trans (scan_nul base text []))

end Str
end Pone
