import Pone.Json.Text
import Pone.Str.Subscript

/-!
# `json.stringify`

`stringify` of `json.c` appends to a buffer of its own.  It writes the number of a character in
decimal digits behind a `\u`, which a reader of JSON takes for hexadecimal ones.
-/

open Binary64 (Double nearest roundTo)

namespace Pone
namespace Json

open JsonText (Reads ReadsString Ascii codes)
open Str (ascii)

/-! ## Values -/

/-- A `double`. -/
inductive Num where
  | finite (negative : Bool) (magnitude : Double)
  | infinite (negative : Bool)
  | nan (negative : Bool)

/-- The values by `pone_type`; a string with `PONE_FLAGS_STR_UTF8`, and a map with the entries as
`PONE_MAP_FOREACH` comes to them and the `len` of its body. -/
inductive Value where
  | nil
  | int (i : Int) (fits : CLong.Fits i)
  | num (n : Num)
  | string (bytes : List UInt8) (utf8 : Bool)
  | array (elems : List Value)
  | bool (b : Bool)
  | map (entries : List (Value × Value)) (len : Nat)
  | code
  | obj
  | lex
  | opaqueObj

/-- The text that `snprintf` makes of a `double` in `pone_str_from_num`: `"%.f"` of a number that is
an integer below 2^53, and `"%.17g"` of any other. -/
def numText : Num → List UInt8
  | .finite negative n =>
      (if negative then [45] else []) ++
        if n.value < 2 ^ 53 ∧ n.value.den = 1 then Decimal.natText n.value.num.natAbs
        else (Decimal.general 16 n.value).text
  | .infinite negative => (if negative then [45] else []) ++ ascii "inf"
  | .nan negative => (if negative then [45] else []) ++ ascii "nan"

/-- The bytes that `pone_str_from_num` copies from its buffer. -/
def fromNumBytes (n : Num) : List UInt8 :=
  let (buf, size) := Str.snprintf 256 (numText n)
  buf.take size

/-- Onigmo for UTF-8: `ONIGENC_MBC_TO_CODE` gives the code point of the character at the beginning,
and `ONIGENC_MBC_ENC_LEN` its length. -/
structure Onigmo extends Str.Onigmo where
  mbcToCode : List UInt8 → Nat
  encLen_char : ∀ c, ∀ b ∈ (String.utf8EncodeChar c).head?,
    encLen b = (String.utf8EncodeChar c).length
  mbcToCode_char : ∀ c rest, mbcToCode (String.utf8EncodeChar c ++ rest) = c.toNat

/-- Why there is no text: an exception, or a read behind the end of a string. -/
inductive Stop where
  | throws (message : String)
  | wild

/-- A number with zeros in front, to at least `k` digits. -/
def atLeast (k n : Nat) : List UInt8 :=
  if n < 10 ^ k then Decimal.padded k n else Decimal.natText n

/-- `"%04d"` -/
def formatted (i : Int) : List UInt8 :=
  if i < 0 then 45 :: atLeast 3 i.natAbs else atLeast 4 i.natAbs

/-- The characters that `stringify` copies. -/
def Plain (code : Nat) : Prop :=
  (97 ≤ code ∧ code ≤ 122) ∨ (65 ≤ code ∧ code ≤ 90) ∨ (48 ≤ code ∧ code ≤ 57)

instance (code : Nat) : Decidable (Plain code) := inferInstanceAs (Decidable (_ ∨ _))

variable (onig : Onigmo)

/-- The loop over a string, for as many characters as it may have at most. -/
def stringifyChars : Nat → List UInt8 → List UInt8 → Except Stop (List UInt8)
  | _, buffer, [] => .ok buffer
  | 0, _, _ :: _ => .error .wild
  | n + 1, buffer, b :: rest =>
      let code := onig.mbcToCode (b :: rest)
      let buffer :=
        if Plain code then buffer ++ [b]
        else buffer ++ (ascii "\\u" ++ formatted (Str.toInt32 code))
      -- behind the end, the loop does not find it any more
      if onig.encLen b ≤ (b :: rest).length then
        stringifyChars n buffer ((b :: rest).drop (onig.encLen b))
      else .error .wild

mutual

/-- `stringify` -/
def stringify (buffer : List UInt8) : Value → Except Stop (List UInt8)
  | .nil => .ok (buffer ++ ascii "null")
  | .int i _ => .ok (buffer ++ Str.fromIntBytes i)
  | .num n => .ok (buffer ++ fromNumBytes n)
  | .string bytes utf8 =>
      if utf8 then do
        let buffer ← stringifyChars onig bytes.length (buffer ++ ascii "\"") bytes
        return buffer ++ ascii "\""
      else .error (.throws "You can't make json by bytes")
  | .array [] => .ok (buffer ++ ascii "[" ++ ascii "]")
  | .array (first :: rest) => do
      let buffer ← stringify (buffer ++ ascii "[") first
      let buffer ← stringifyRest buffer rest
      return buffer ++ ascii "]"
  | .bool b => .ok (buffer ++ if b then ascii "true" else ascii "false")
  | .map entries len => do
      let buffer ← stringifyEntries (buffer ++ ascii "\x7b") entries
      -- remove trailing comma
      let buffer := if len > 0 then buffer.dropLast else buffer
      return buffer ++ ascii "\x7d"
  | .code => .error (.throws "You can't serialize code object")
  | .obj => .error (.throws "You can't serialize object")
  | .lex => .error (.throws "You can't serialize lex object")
  | .opaqueObj => .error (.throws "You can't serialize opaque object")

/-- The elements of an array behind the first one. -/
def stringifyRest (buffer : List UInt8) : List Value → Except Stop (List UInt8)
  | [] => .ok buffer
  | v :: rest => do
      let buffer ← stringify (buffer ++ ascii ",") v
      stringifyRest buffer rest

/-- The entries of a map, with a comma behind each. -/
def stringifyEntries (buffer : List UInt8) : List (Value × Value) → Except Stop (List UInt8)
  | [] => .ok buffer
  | (k, v) :: rest => do
      let buffer ← stringify buffer k
      let buffer ← stringify (buffer ++ ascii ":") v
      stringifyEntries (buffer ++ ascii ",") rest

end

/-- `json.stringify` -/
def methStringify (v : Value) : Except Stop (List UInt8) := stringify onig [] v

variable {onig}

/-! ## Strings -/

def utf8Bytes (chars : List Char) : List UInt8 := chars.flatMap String.utf8EncodeChar

/-- What the loop appends for a character. -/
def escape (c : Char) : List UInt8 :=
  if Plain c.toNat then [c.toNat.toUInt8] else 92 :: 117 :: atLeast 4 c.toNat

/-- The text of a string. -/
def quoted (chars : List Char) : List UInt8 := 34 :: (chars.flatMap escape ++ [34])

theorem toNat_lt (c : Char) : c.toNat < 0x110000 := by
  rcases c.valid with low | high
  · have : c.toNat < 0xD800 := low
    omega
  · exact high.2

theorem formatted_toNat (c : Char) : formatted (Str.toInt32 c.toNat) = atLeast 4 c.toNat := by
  have small := toNat_lt c
  have same : Str.toInt32 c.toNat = c.toNat := by
    rw [Str.toInt32, Int.bmod_eq_of_le] <;> omega
  rw [same, formatted, if_neg (by omega), Int.natAbs_natCast]

theorem utf8EncodeChar_plain {c : Char} (plain : Plain c.toNat) :
    String.utf8EncodeChar c = [c.toNat.toUInt8] := by
  have low : c.val.toNat ≤ 0x7f := by
    change c.toNat ≤ 0x7f
    unfold Plain at plain
    omega
  rw [String.utf8EncodeChar, if_pos low]
  rfl

theorem stringifyChars_utf8 {n : Nat} {chars : List Char} (buffer : List UInt8)
    (enough : (utf8Bytes chars).length ≤ n) :
    stringifyChars onig n buffer (utf8Bytes chars) = .ok (buffer ++ chars.flatMap escape) := by
  induction chars generalizing n buffer with
  | nil => simp [utf8Bytes, stringifyChars]
  | cons c chars ih =>
      have split : utf8Bytes (c :: chars) = String.utf8EncodeChar c ++ utf8Bytes chars := rfl
      have code := onig.mbcToCode_char c (utf8Bytes chars)
      have length := onig.encLen_char c
      have copied (plain : Plain c.toNat) := utf8EncodeChar_plain plain
      rw [split] at enough ⊢
      cases bytes : String.utf8EncodeChar c with
      | nil => exact absurd bytes String.utf8EncodeChar_ne_nil
      | cons b tail =>
          rw [bytes] at code length copied enough
          have size : onig.encLen b = (b :: tail).length := length b rfl
          rw [List.cons_append] at code ⊢
          obtain ⟨n, rfl⟩ : ∃ m, n = m + 1 := ⟨n - 1, by
            rw [List.length_append, List.length_cons] at enough
            omega⟩
          have later := ih (n := n) (buffer ++ escape c) (by
            rw [List.length_append, List.length_cons] at enough
            omega)
          have appended : (if Plain c.toNat then buffer ++ [b]
              else buffer ++ (ascii "\\u" ++ formatted (Str.toInt32 c.toNat))) =
              buffer ++ escape c := by
            unfold escape
            split
            · next plain => rw [(List.cons.inj (copied plain)).1]
            · rw [formatted_toNat]
              rfl
          have inside : onig.encLen b ≤ (b :: (tail ++ utf8Bytes chars)).length := by
            rw [size, ← List.cons_append, List.length_append]
            exact Nat.le_add_right _ _
          rw [stringifyChars]
          simp only [code, appended, if_pos inside]
          rw [size, ← List.cons_append, List.drop_left, later, List.flatMap_cons, List.append_assoc]

/-! ## What a reader makes of a string -/

/-- The code points that a reader of JSON takes what stands for a character for. -/
def reread (c : Char) : List Nat :=
  if Plain c.toNat then [c.toNat]
  else JsonText.hexOf ((atLeast 4 c.toNat).take 4) :: codes ((atLeast 4 c.toNat).drop 4)

theorem atLeast_digits (k n : Nat) : ∀ b ∈ atLeast k n, Decimal.isDigit b = true := by
  unfold atLeast
  split
  · exact Decimal.padded_digits k n
  · exact Decimal.natText_digits n

theorem length_atLeast {k n : Nat} (positive : 0 < k) :
    k ≤ (atLeast k n).length ∧ (n < 10 ^ k ↔ (atLeast k n).length = k) := by
  unfold atLeast
  have length := Decimal.length_natText_le_iff (n := n) positive
  split
  · next small => simp [small]
  · next large =>
      have long := length.not.mpr large
      exact ⟨by omega, iff_of_false large (by omega)⟩

theorem exists_atLeast_four (n : Nat) :
    ∃ d₁ d₂ d₃ d₄ more, atLeast 4 n = d₁ :: d₂ :: d₃ :: d₄ :: more := by
  have length := (length_atLeast (n := n) (k := 4) (by decide)).1
  match atLeast 4 n, length with
  | d₁ :: d₂ :: d₃ :: d₄ :: more, _ => exact ⟨d₁, d₂, d₃, d₄, more, rfl⟩

theorem code_range {b : UInt8} (digit : Decimal.isDigit b = true) : 48 ≤ b.toNat ∧ b.toNat ≤ 57 := by
  simpa [Decimal.isDigit, UInt8.le_iff_toNat_le] using digit

theorem stringBody_digits {ds : List UInt8} (all : ∀ b ∈ ds, Decimal.isDigit b = true)
    (rest : List Nat) : JsonText.stringBody (codes ds ++ rest) =
      (JsonText.stringBody rest).map fun r => (codes ds ++ r.1, r.2) := by
  induction ds with
  | nil =>
      rw [JsonText.codes_nil, List.nil_append]
      cases JsonText.stringBody rest <;> rfl
  | cons b ds ih =>
      have range := code_range (all b List.mem_cons_self)
      rw [JsonText.codes_cons, List.cons_append,
        JsonText.stringBody_plain (by omega) (by omega) (by omega),
        ih fun b' among => all b' (List.mem_cons_of_mem b among), Option.map_map]
      rfl

theorem stringBody_escape (c : Char) (rest : List Nat) :
    JsonText.stringBody (codes (escape c) ++ rest) =
      (JsonText.stringBody rest).map fun r => (reread c ++ r.1, r.2) := by
  unfold escape reread
  split
  · next plain =>
      unfold Plain at plain
      have code : c.toNat.toUInt8.toNat = c.toNat := by
        rw [Nat.toUInt8, UInt8.toNat_ofNat', Nat.mod_eq_of_lt (by omega)]
      rw [JsonText.codes_cons, code, List.cons_append, JsonText.codes_nil, List.nil_append,
        JsonText.stringBody_plain (by omega) (by omega) (by omega)]
      rfl
  · have all := atLeast_digits 4 c.toNat
    obtain ⟨d₁, d₂, d₃, d₄, more, digits⟩ := exists_atLeast_four c.toNat
    rw [digits] at all ⊢
    have digits_unit : ∀ b ∈ [d₁, d₂, d₃, d₄], Decimal.isDigit b = true := fun b among =>
      all b (List.mem_append_left more among)
    have digits_more : ∀ b ∈ more, Decimal.isDigit b = true := fun b among =>
      all b (List.mem_append_right [d₁, d₂, d₃, d₄] among)
    have unit := JsonText.hexNumber_codes digits_unit
    have others := stringBody_digits digits_more rest
    simp only [JsonText.codes_cons, JsonText.codes_nil] at unit
    have backslash : UInt8.toNat 92 = 92 := rfl
    have letter : UInt8.toNat 117 = 117 := rfl
    simp only [JsonText.codes_cons, List.cons_append, backslash, letter, JsonText.stringBody_unit,
      unit, others, Option.bind_eq_bind, Option.bind_some]
    cases JsonText.stringBody rest <;> rfl

theorem stringBody_quoted (chars : List Char) (rest : List Nat) :
    JsonText.stringBody (codes (chars.flatMap escape ++ [34]) ++ rest) =
      some (chars.flatMap reread, rest) := by
  induction chars with
  | nil => exact JsonText.stringBody_quote rest
  | cons c chars ih =>
      rw [List.flatMap_cons, List.append_assoc, JsonText.codes_append, List.append_assoc,
        stringBody_escape, ih]
      rfl

/-- The weight of code points, by which a longer string is heavier, and of strings of one length the
one with the greater code points. -/
def pointsWeight (points : List Nat) : Nat := (points.map (· + 0x110000)).sum

theorem pointsWeight_nil : pointsWeight [] = 0 := rfl

theorem pointsWeight_cons (point : Nat) (points : List Nat) :
    pointsWeight (point :: points) = point + 0x110000 + pointsWeight points := by
  rw [pointsWeight, List.map_cons, List.sum_cons, pointsWeight]

theorem hexOf_padded {n : Nat} (small : n < 10000) :
    JsonText.hexOf (Decimal.padded 4 n) =
      n / 1000 * 4096 + n / 100 % 10 * 256 + n / 10 % 10 * 16 + n % 10 := by
  simp only [Decimal.padded, List.nil_append, List.cons_append, JsonText.hexOf, List.foldl_cons,
    List.foldl_nil, (Decimal.digit_byte _).1]
  omega

/-- The characters that a reader of JSON gets back. -/
def Survives (c : Char) : Prop := Plain c.toNat ∨ c.toNat ≤ 9

instance (c : Char) : Decidable (Survives c) := inferInstanceAs (Decidable (_ ∨ _))

theorem reread_of_survives {c : Char} (survives : Survives c) : reread c = [c.toNat] := by
  unfold reread
  split
  · rfl
  · next other =>
      have small := survives.resolve_left other
      have padded : atLeast 4 c.toNat = Decimal.padded 4 c.toNat := if_pos (by omega)
      have length := Decimal.length_padded 4 c.toNat
      rw [padded, List.take_of_length_le length.le, List.drop_of_length_le length.le,
        hexOf_padded (by omega), JsonText.codes_nil]
      congr 1
      omega

theorem pointsWeight_lt_of_not_survives {c : Char} (changed : ¬ Survives c) :
    pointsWeight [c.toNat] < pointsWeight (reread c) := by
  rw [Survives, not_or] at changed
  have below := toNat_lt c
  rw [reread, if_neg changed.1]
  by_cases small : c.toNat < 10000
  · have padded : atLeast 4 c.toNat = Decimal.padded 4 c.toNat := if_pos small
    have length := Decimal.length_padded 4 c.toNat
    rw [padded, List.take_of_length_le length.le, List.drop_of_length_le length.le,
      hexOf_padded small, JsonText.codes_nil, pointsWeight_cons, pointsWeight_cons]
    omega
  · have length := length_atLeast (n := c.toNat) (k := 4) (by decide)
    have long : (atLeast 4 c.toNat).length ≠ 4 := fun same => small (length.2.mpr same)
    have rest : (atLeast 4 c.toNat).drop 4 ≠ [] := by
      apply List.ne_nil_of_length_pos
      rw [List.length_drop]
      omega
    obtain ⟨b, more, digits⟩ := List.exists_cons_of_ne_nil rest
    rw [digits, JsonText.codes_cons, pointsWeight_cons, pointsWeight_cons, pointsWeight_cons,
      pointsWeight_nil]
    omega

theorem reread_low (c : Char) : ∀ u ∈ reread c, u < 0xD800 := by
  intro u among
  unfold reread at among
  split at among
  · next plain =>
      rw [List.mem_singleton.mp among]
      unfold Plain at plain
      omega
  · have all := atLeast_digits 4 c.toNat
    rcases List.mem_cons.mp among with rfl | digit
    · obtain ⟨d₁, d₂, d₃, d₄, more, digits⟩ := exists_atLeast_four c.toNat
      rw [digits] at all ⊢
      have r₁ := code_range (all d₁ (by simp))
      have r₂ := code_range (all d₂ (by simp))
      have r₃ := code_range (all d₃ (by simp))
      have r₄ := code_range (all d₄ (by simp))
      simp only [List.take_succ_cons, List.take_zero, JsonText.hexOf, List.foldl_cons, List.foldl_nil]
      omega
    · obtain ⟨b, among', rfl⟩ := List.mem_map.mp digit
      have range := code_range (all b (List.mem_of_mem_drop among'))
      omega

theorem readsString_quoted (chars : List Char) :
    ReadsString (quoted chars) (chars.flatMap reread) where
  quote := rfl
  read := by
    intro rest
    refine ⟨chars.flatMap reread, stringBody_quoted chars rest, JsonText.joinPairs_of_low ?_⟩
    intro u among
    obtain ⟨c, -, among⟩ := List.mem_flatMap.mp among
    exact reread_low c u among

theorem ascii_digits {ds : List UInt8} (all : ∀ b ∈ ds, Decimal.isDigit b = true) : Ascii ds := by
  intro b among
  have range := code_range (all b among)
  omega

theorem ascii_escape (c : Char) : Ascii (escape c) := by
  unfold escape
  split
  · next plain =>
      intro b among
      unfold Plain at plain
      rw [List.mem_singleton.mp among, Nat.toUInt8, UInt8.toNat_ofNat']
      omega
  · intro b among
    rcases List.mem_cons.mp among with rfl | among
    · decide
    rcases List.mem_cons.mp among with rfl | among
    · decide
    · exact ascii_digits (atLeast_digits 4 c.toNat) b among

theorem ascii_quoted (chars : List Char) : Ascii (quoted chars) := by
  intro b among
  rcases List.mem_cons.mp among with rfl | among
  · decide
  rcases List.mem_append.mp among with inner | quote
  · obtain ⟨c, -, among⟩ := List.mem_flatMap.mp inner
    exact ascii_escape c b among
  · rw [List.mem_singleton.mp quote]
    decide

theorem pointsWeight_append (front back : List Nat) :
    pointsWeight (front ++ back) = pointsWeight front + pointsWeight back := by
  simp [pointsWeight]

theorem points_of_survives {chars : List Char} (all : ∀ c ∈ chars, Survives c) :
    chars.flatMap reread = chars.map Char.toNat := by
  induction chars with
  | nil => rfl
  | cons c chars ih =>
      rw [List.flatMap_cons, reread_of_survives (all c List.mem_cons_self),
        ih fun c' among => all c' (List.mem_cons_of_mem c among)]
      rfl

theorem pointsWeight_le_reread (c : Char) : pointsWeight [c.toNat] ≤ pointsWeight (reread c) := by
  by_cases survives : Survives c
  · rw [reread_of_survives survives]
  · exact (pointsWeight_lt_of_not_survives survives).le

/-- A string that a reader does not get back is heavier for him. -/
theorem pointsWeight_spec (chars : List Char) :
    pointsWeight (chars.map Char.toNat) ≤ pointsWeight (chars.flatMap reread) ∧
      (¬ (∀ c ∈ chars, Survives c) →
        pointsWeight (chars.map Char.toNat) < pointsWeight (chars.flatMap reread)) := by
  induction chars with
  | nil => exact ⟨le_rfl, fun changed => (changed nofun).elim⟩
  | cons c chars ih =>
      have split : pointsWeight ((c :: chars).map Char.toNat) =
          pointsWeight [c.toNat] + pointsWeight (chars.map Char.toNat) := by
        rw [List.map_cons, ← List.singleton_append, pointsWeight_append]
      rw [split, List.flatMap_cons, pointsWeight_append, List.forall_mem_cons, not_and_or]
      have first := pointsWeight_le_reread c
      refine ⟨Nat.add_le_add first ih.1, ?_⟩
      rintro (changed | changed)
      · exact Nat.add_lt_add_of_lt_of_le (pointsWeight_lt_of_not_survives changed) ih.1
      · exact Nat.add_lt_add_of_le_of_lt first (ih.2 changed)

/-! ## Numbers -/

theorem fromNumBytes_of_short {n : Num} (short : (numText n).length ≤ 255) :
    fromNumBytes n = numText n := by
  rw [fromNumBytes, Str.snprintf]
  simp only
  rw [List.take_of_length_le short, List.take_left]

/-- An integer that is not negative, as decimal notation. -/
def wholeNotation (n : Nat) : Decimal.Notation :=
  { whole := Decimal.natText n, fraction := [], exponent := none }

theorem text_wholeNotation (n : Nat) : (wholeNotation n).text = Decimal.natText n := by
  simp [wholeNotation, Decimal.Notation.text, Decimal.Notation.pointText,
    Decimal.Notation.exponentText]

theorem value_wholeNotation (n : Nat) : (wholeNotation n).value = n := by
  have none : Decimal.number [] = 0 := rfl
  simp [wholeNotation, Decimal.Notation.value, Decimal.Notation.scale, Decimal.number_natText, none]

theorem wholeNotation_wellFormed (n : Nat) : (wholeNotation n).WellFormed where
  whole_digits := Decimal.natText_digits n
  whole_nonempty := List.ne_nil_of_length_eq_add_one (Decimal.length_padded ..)
  no_leading_zero := by
    intro zero
    by_cases none : n = 0
    · subst none
      rfl
    · exact absurd zero (Decimal.head_natText none)
  fraction_digits := nofun
  exponent_digits := nofun

/-- What `pone_str_from_num` makes of a finite number is decimal notation, and the number is the
nearest one to what this denotes. -/
theorem exists_numText (negative : Bool) (n : Double) : ∃ shown : Decimal.Notation,
    fromNumBytes (.finite negative n) = (if negative then [45] else []) ++ shown.text ∧
      shown.WellFormed ∧ nearest shown.value shown.value_nonneg = some n := by
  have sign : (if negative then [45] else [] : List UInt8).length ≤ 1 := by
    cases negative <;> decide
  by_cases whole : n.value < 2 ^ 53 ∧ n.value.den = 1
  · have integer : n.value = n.value.num.natAbs := by
      have nonneg : 0 ≤ n.value.num := Rat.num_nonneg.mpr n.representable.nonneg
      have same : (n.value.num : ℚ) = n.value := Rat.coe_int_num_of_den_eq_one whole.2
      rw [← Int.cast_natCast (R := ℚ), Int.natAbs_of_nonneg nonneg, same]
    have length : (Decimal.natText n.value.num.natAbs).length ≤ 16 := by
      rw [Decimal.length_natText_le_iff (by decide)]
      have small := whole.1
      rw [integer] at small
      have : n.value.num.natAbs < 2 ^ 53 := by exact_mod_cast small
      omega
    have text : numText (.finite negative n) = (if negative then [45] else []) ++
        Decimal.natText n.value.num.natAbs := by rw [numText, if_pos whole]
    refine ⟨wholeNotation n.value.num.natAbs, ?_, wholeNotation_wellFormed _, ?_⟩
    · rw [text_wholeNotation, ← text]
      refine fromNumBytes_of_short ?_
      rw [text, List.length_append]
      omega
    · refine Binary64.nearest_of_roundTo ?_ _
      rw [value_wholeNotation, ← integer]
      exact Binary64.roundTo_of_representable n.representable
  · have positive : 0 < n.value := by
      refine n.representable.nonneg.lt_of_ne fun zero => whole ?_
      rw [← zero]
      norm_num
    have text : numText (.finite negative n) = (if negative then [45] else []) ++
        (Decimal.general 16 n.value).text := by rw [numText, if_neg whole]
    refine ⟨Decimal.general 16 n.value, ?_, Decimal.general_wellFormed 16 positive, ?_⟩
    · rw [← text]
      refine fromNumBytes_of_short ?_
      have length := Decimal.length_general_le n.representable positive
      rw [text, List.length_append]
      omega
    · exact Binary64.nearest_of_roundTo (Decimal.roundTo_general n.representable positive) _

end Json
end Pone
