import Pone.Decimal.General

/-!
# JSON texts

The values of JSON, and its grammar as a parser.  A text is UTF-8; the parser works on its code
points.
-/

namespace JsonText

/-- A number by its sign and its magnitude, a string by its code points. -/
inductive Json where
  | null
  | bool (b : Bool)
  | number (negative : Bool) (magnitude : ℚ)
  | string (points : List ℕ)
  | array (elems : List Json)
  | object (members : List (List ℕ × Json))

/-- What reads a piece of a text and gives the rest. -/
abbrev Parser (α : Type) := List ℕ → Option (α × List ℕ)

def isSpace (c : ℕ) : Bool := c = 32 || c = 9 || c = 10 || c = 13

def skip (text : List ℕ) : List ℕ := text.dropWhile isSpace

/-! ## Numbers -/

def isDigit (c : ℕ) : Bool := 48 ≤ c && c ≤ 57

/-- The digits at the beginning, as bytes. -/
def digits (text : List ℕ) : List UInt8 × List ℕ :=
  ((text.takeWhile isDigit).map Nat.toUInt8, text.dropWhile isDigit)

def someDigits : Parser (List UInt8) := fun text =>
  if (digits text).1 = [] then none else some (digits text)

/-- A zero, or digits that do not begin with one. -/
def whole : Parser (List UInt8) := fun text =>
  if text.head? = some 48 then some ([48], text.tail) else someDigits text

/-- A point and digits, or nothing. -/
def fraction : Parser (List UInt8) := fun text =>
  if text.head? = some 46 then someDigits text.tail else some ([], text)

/-- An `e`, a sign or none, and digits, or nothing. -/
def exponent : Parser (Option (Bool × List UInt8)) := fun text =>
  if text.head? = some 101 ∨ text.head? = some 69 then do
    let negative := text.tail.head? = some 45
    let signed := negative ∨ text.tail.head? = some 43
    let (digits, text) ← someDigits (if signed then text.tail.tail else text.tail)
    return (some (negative, digits), text)
  else return (none, text)

def number : Parser Json := fun text => do
  let negative := text.head? = some 45
  let (whole, text) ← whole (if negative then text.tail else text)
  let (fraction, text) ← fraction text
  let (exponent, text) ← exponent text
  return (.number negative { whole, fraction, exponent : Decimal.Notation }.value, text)

/-! ## Strings -/

def hexDigit (c : ℕ) : Option ℕ :=
  if isDigit c then some (c - 48)
  else if 97 ≤ c ∧ c ≤ 102 then some (c - 87)
  else if 65 ≤ c ∧ c ≤ 70 then some (c - 55)
  else none

/-- The number that hexadecimal digits write. -/
def hexNumber (text : List ℕ) : Option ℕ :=
  (text.mapM hexDigit).map fun ds => ds.foldl (fun n d => n * 16 + d) 0

/-- The escapes of one character behind the backslash. -/
def escaped : ℕ → Option ℕ
  | 34 => some 34
  | 92 => some 92
  | 47 => some 47
  | 98 => some 8
  | 102 => some 12
  | 110 => some 10
  | 114 => some 13
  | 116 => some 9
  | _ => none

/-- The characters up to the closing quotation mark; a `\u` gives one unit of UTF-16. -/
def stringBody : Parser (List ℕ)
  | [] => none
  | c :: rest =>
      if c = 34 then some ([], rest)
      else if c = 92 then
        match rest with
        | 117 :: d₁ :: d₂ :: d₃ :: d₄ :: rest => do
            let unit ← hexNumber [d₁, d₂, d₃, d₄]
            let (points, rest) ← stringBody rest
            return (unit :: points, rest)
        | e :: rest => do
            let point ← escaped e
            let (points, rest) ← stringBody rest
            return (point :: points, rest)
        | [] => none
      else if c < 32 then none
      else do
        let (points, rest) ← stringBody rest
        return (c :: points, rest)

theorem stringBody_quote (rest : List ℕ) : stringBody (34 :: rest) = some ([], rest) := by
  simp only [stringBody.eq_def (34 :: rest), if_true]

theorem stringBody_unit (d₁ d₂ d₃ d₄ : ℕ) (rest : List ℕ) :
    stringBody (92 :: 117 :: d₁ :: d₂ :: d₃ :: d₄ :: rest) = (do
      let unit ← hexNumber [d₁, d₂, d₃, d₄]
      let (points, rest) ← stringBody rest
      return (unit :: points, rest)) := by
  simp only [stringBody, Nat.reduceEqDiff, ↓reduceIte]

theorem stringBody_plain {c : ℕ} (not_quote : c ≠ 34) (not_backslash : c ≠ 92) (visible : ¬ c < 32)
    (rest : List ℕ) : stringBody (c :: rest) = (stringBody rest).map fun r => (c :: r.1, r.2) := by
  simp only [stringBody.eq_def (c :: rest), if_neg not_quote, if_neg not_backslash, if_neg visible]
  cases stringBody rest <;> rfl

/-- Two units that are a surrogate pair are one code point. -/
def joinPairs : List ℕ → List ℕ
  | [] => []
  | [unit] => [unit]
  | high :: low :: rest =>
      if (0xD800 ≤ high ∧ high < 0xDC00) ∧ 0xDC00 ≤ low ∧ low < 0xE000 then
        (0x10000 + (high - 0xD800) * 0x400 + (low - 0xDC00)) :: joinPairs rest
      else high :: joinPairs (low :: rest)

/-! ## Arrays, objects and values -/

/-- One item or more, with commas between them, and the closing bracket. -/
def items {α : Type} (item : Parser α) (close : ℕ) : ℕ → Parser (List α)
  | 0, _ => none
  | n + 1, text => do
      let (x, text) ← item text
      if (skip text).head? = some 44 then
        let (xs, text) ← items item close n (skip (skip text).tail)
        return (x :: xs, text)
      else if (skip text).head? = some close then return ([x], (skip text).tail)
      else none

/-- What stands behind an opening bracket. -/
def bracketed {α : Type} (item : Parser α) (close : ℕ) : Parser (List α) := fun text =>
  if (skip text).head? = some close then some ([], (skip text).tail)
  else items item close text.length (skip text)

def member (value : Parser Json) : Parser (List ℕ × Json) := fun text =>
  if text.head? = some 34 then do
    let (key, text) ← stringBody text.tail
    if (skip text).head? = some 58 then
      let (j, text) ← value (skip (skip text).tail)
      return ((joinPairs key, j), text)
    else none
  else none

def literal (word : List ℕ) (j : Json) : Parser Json := fun text =>
  if word <+: text then some (j, text.drop word.length) else none

/-- A value in which fewer brackets are open at a time than the first argument says. -/
def value : ℕ → Parser Json
  | 0, _ => none
  | _ + 1, [] => none
  | depth + 1, c :: rest =>
      if c = 34 then do
        let (points, rest) ← stringBody rest
        return (.string (joinPairs points), rest)
      else if c = 91 then do
        let (elems, rest) ← bracketed (value depth) 93 rest
        return (.array elems, rest)
      else if c = 123 then do
        let (members, rest) ← bracketed (member (value depth)) 125 rest
        return (.object members, rest)
      else if c = 110 then literal [110, 117, 108, 108] .null (c :: rest)
      else if c = 116 then literal [116, 114, 117, 101] (.bool true) (c :: rest)
      else if c = 102 then literal [102, 97, 108, 115, 101] (.bool false) (c :: rest)
      else number (c :: rest)

/-- A text has no more open brackets than characters. -/
def parse (text : List ℕ) : Option Json := do
  let (j, rest) ← value text.length (skip text)
  if skip rest = [] then return j else none

/-- The value that a text in UTF-8 denotes; `none` for one that is not well-formed. -/
def decode (text : List UInt8) : Option Json := do
  let chars ← text.toByteArray.utf8Decode?
  parse (chars.toList.map Char.toNat)

/-! ## What the parser goes through -/

/-- A text and what is left of it behind a piece without a NUL. -/
def Passed (text rest : List ℕ) : Prop := ∃ front, text = front ++ rest ∧ 0 ∉ front

theorem Passed.refl (text : List ℕ) : Passed text text := ⟨[], rfl, List.not_mem_nil⟩

theorem Passed.trans {text middle rest : List ℕ} (one : Passed text middle)
    (other : Passed middle rest) : Passed text rest := by
  obtain ⟨front, rfl, visible⟩ := one
  obtain ⟨front', rfl, visible'⟩ := other
  exact ⟨front ++ front', (List.append_assoc ..).symm, by simp [visible, visible']⟩

theorem passed_cons {c : ℕ} (visible : c ≠ 0) (rest : List ℕ) : Passed (c :: rest) rest :=
  ⟨[c], rfl, by simpa using visible.symm⟩

theorem passed_tail {text : List ℕ} {c : ℕ} (first : text.head? = some c) (visible : c ≠ 0) :
    Passed text text.tail := by
  cases text with
  | nil => cases first
  | cons b rest =>
      cases first
      exact passed_cons visible rest

theorem passed_dropWhile {p : ℕ → Bool} (visible : p 0 = false) (text : List ℕ) :
    Passed text (text.dropWhile p) := by
  refine ⟨text.takeWhile p, List.takeWhile_append_dropWhile.symm, fun nul => ?_⟩
  exact Bool.false_ne_true (visible.symm.trans (List.mem_takeWhile_imp nul))

theorem passed_skip (text : List ℕ) : Passed text (skip text) := passed_dropWhile rfl text

/-- Whatever it reads, it goes through a piece without a NUL. -/
def Parser.Visible {α : Type} (p : Parser α) : Prop :=
  ∀ text x rest, p text = some (x, rest) → Passed text rest

theorem visible_someDigits : someDigits.Visible := by
  intro text x rest read
  rw [someDigits, Option.ite_none_left_eq_some] at read
  cases read.2
  exact passed_dropWhile rfl text

theorem visible_whole : whole.Visible := by
  intro text x rest read
  unfold whole at read
  split at read
  · next zero =>
      cases read
      exact passed_tail zero (by decide)
  · exact visible_someDigits text x rest read

theorem visible_fraction : fraction.Visible := by
  intro text x rest read
  unfold fraction at read
  split at read
  · next point => exact (passed_tail point (by decide)).trans (visible_someDigits _ x rest read)
  · cases read
    exact .refl text

theorem visible_exponent : exponent.Visible := by
  intro text x rest read
  unfold exponent at read
  split at read
  · next mark =>
      have marked : Passed text text.tail :=
        mark.elim (passed_tail · (by decide)) (passed_tail · (by decide))
      have signed : Passed text.tail
          (if text.tail.head? = some 45 ∨ text.tail.head? = some 43 then text.tail.tail
            else text.tail) := by
        split
        · next sign => exact sign.elim (passed_tail · (by decide)) (passed_tail · (by decide))
        · exact .refl _
      simp only [Option.bind_eq_bind, Option.bind_eq_some_iff, Prod.exists] at read
      obtain ⟨ds, rest', digits, same⟩ := read
      cases same
      exact (marked.trans signed).trans (visible_someDigits _ _ _ digits)
  · cases read
    exact .refl text

theorem visible_number : number.Visible := by
  intro text x rest read
  have signed : Passed text (if text.head? = some 45 then text.tail else text) := by
    split
    · next sign => exact passed_tail sign (by decide)
    · exact .refl text
  simp only [number, Option.bind_eq_bind, Option.bind_eq_some_iff, Prod.exists] at read
  obtain ⟨ds, rest₁, one, ds', rest₂, two, e, rest₃, three, same⟩ := read
  cases same
  exact ((signed.trans (visible_whole _ _ _ one)).trans (visible_fraction _ _ _ two)).trans
    (visible_exponent _ _ _ three)

theorem nul_notMem_of_hexNumber {text : List ℕ} {n : ℕ} (read : hexNumber text = some n) :
    0 ∉ text := by
  obtain ⟨ds, digits, -⟩ := Option.map_eq_some_iff.mp read
  clear read
  induction text generalizing ds with
  | nil => exact List.not_mem_nil
  | cons c text ih =>
      simp only [List.mapM_cons, Option.bind_eq_bind, Option.bind_eq_some_iff] at digits
      obtain ⟨d, digit, rest, digits, -⟩ := digits
      rw [List.mem_cons, not_or]
      refine ⟨?_, ih rest digits⟩
      rintro rfl
      cases digit

theorem visible_stringBody : Parser.Visible stringBody := by
  intro text
  induction text using stringBody.induct with
  | case1 => exact fun x rest read => nomatch read
  | case2 rest =>
      intro x rest' read
      rw [stringBody_quote] at read
      cases read
      exact passed_cons (by decide) rest
  | case3 d₁ d₂ d₃ d₄ rest _ ih =>
      intro x rest' read
      simp only [stringBody, Nat.reduceEqDiff, ↓reduceIte, Option.bind_eq_bind,
        Option.bind_eq_some_iff, Prod.exists] at read
      obtain ⟨unit, digits, points, middle, later, same⟩ := read
      cases same
      have visible := nul_notMem_of_hexNumber digits
      have front : Passed (92 :: 117 :: d₁ :: d₂ :: d₃ :: d₄ :: rest) rest :=
        ⟨92 :: 117 :: [d₁, d₂, d₃, d₄], rfl, by simpa using visible⟩
      exact front.trans (ih _ _ later)
  | case4 e rest short _ ih =>
      intro x rest' read
      simp only [stringBody, Nat.reduceEqDiff, ↓reduceIte, Option.bind_eq_bind,
        Option.bind_eq_some_iff, Prod.exists] at read
      obtain ⟨point, decoded, points, middle, later, same⟩ := read
      cases same
      have visible : e ≠ 0 := by
        rintro rfl
        cases decoded
      exact ((passed_cons (by decide) _).trans (passed_cons visible rest)).trans (ih _ _ later)
  | case5 => exact fun x rest read => nomatch read
  | case6 c rest not_quote not_backslash control =>
      intro x rest' read
      simp only [stringBody.eq_def (c :: rest), if_neg not_quote, if_neg not_backslash,
        if_pos control] at read
      cases read
  | case7 c rest not_quote not_backslash visible ih =>
      intro x rest' read
      rw [stringBody_plain not_quote not_backslash visible, Option.map_eq_some_iff] at read
      obtain ⟨⟨points, middle⟩, later, same⟩ := read
      cases same
      exact (passed_cons (by omega) rest).trans (ih _ _ later)

theorem Parser.Visible.items {α : Type} {item : Parser α} (visible : item.Visible) {close : ℕ}
    (bracket : close ≠ 0) (n : ℕ) : Parser.Visible (items item close n) := by
  induction n with
  | zero => exact fun text x rest read => nomatch read
  | succ n ih =>
      intro text xs rest read
      rw [JsonText.items] at read
      simp only [Option.bind_eq_bind, Option.bind_eq_some_iff, Prod.exists] at read
      obtain ⟨x, middle, first, read⟩ := read
      have gone := (visible _ _ _ first).trans (passed_skip middle)
      split at read
      · next comma =>
          simp only [Option.bind_eq_some_iff, Prod.exists] at read
          obtain ⟨xs, middle', later, same⟩ := read
          cases same
          exact ((gone.trans (passed_tail comma (by decide))).trans (passed_skip _)).trans
            (ih _ _ _ later)
      · split at read
        · next closed =>
            cases read
            exact gone.trans (passed_tail closed bracket)
        · cases read

theorem Parser.Visible.bracketed {α : Type} {item : Parser α} (visible : item.Visible) {close : ℕ}
    (bracket : close ≠ 0) : Parser.Visible (bracketed item close) := by
  intro text xs rest read
  unfold JsonText.bracketed at read
  split at read
  · next closed =>
      cases read
      exact (passed_skip text).trans (passed_tail closed bracket)
  · exact (passed_skip text).trans (visible.items bracket _ _ _ _ read)

theorem Parser.Visible.member {value : Parser Json} (visible : value.Visible) :
    Parser.Visible (member value) := by
  intro text m rest read
  unfold JsonText.member at read
  split at read
  · next quote =>
      simp only [Option.bind_eq_bind, Option.bind_eq_some_iff, Prod.exists] at read
      obtain ⟨key, middle, body, read⟩ := read
      have gone := ((passed_tail quote (by decide)).trans (visible_stringBody _ _ _ body)).trans
        (passed_skip middle)
      split at read
      · next colon =>
          simp only [Option.bind_eq_some_iff, Prod.exists] at read
          obtain ⟨j, middle', later, same⟩ := read
          cases same
          exact ((gone.trans (passed_tail colon (by decide))).trans (passed_skip _)).trans
            (visible _ _ _ later)
      · cases read
  · cases read

theorem visible_literal {word : List ℕ} (visible : 0 ∉ word) (j : Json) : (literal word j).Visible := by
  intro text x rest read
  unfold literal at read
  split at read
  · next starts =>
      cases read
      obtain ⟨rest, rfl⟩ := starts
      rw [List.drop_left]
      exact ⟨word, rfl, visible⟩
  · cases read

theorem visible_value (depth : ℕ) : Parser.Visible (value depth) := by
  induction depth with
  | zero => exact fun text x rest read => nomatch read
  | succ depth ih =>
      intro text x rest read
      cases text with
      | nil => cases read
      | cons c text =>
          rw [value] at read
          split at read
          · next quote =>
              simp only [Option.bind_eq_bind, Option.bind_eq_some_iff, Prod.exists] at read
              obtain ⟨points, middle, body, same⟩ := read
              cases same
              exact (passed_cons (quote ▸ by decide) text).trans (visible_stringBody _ _ _ body)
          split at read
          · next bracket =>
              simp only [Option.bind_eq_bind, Option.bind_eq_some_iff, Prod.exists] at read
              obtain ⟨elems, middle, body, same⟩ := read
              cases same
              exact (passed_cons (bracket ▸ by decide) text).trans
                (ih.bracketed (by decide) _ _ _ body)
          split at read
          · next brace =>
              simp only [Option.bind_eq_bind, Option.bind_eq_some_iff, Prod.exists] at read
              obtain ⟨members, middle, body, same⟩ := read
              cases same
              exact (passed_cons (brace ▸ by decide) text).trans
                (ih.member.bracketed (by decide) _ _ _ body)
          split at read
          · exact visible_literal (by decide) _ _ _ _ read
          split at read
          · exact visible_literal (by decide) _ _ _ _ read
          split at read
          · exact visible_literal (by decide) _ _ _ _ read
          · exact visible_number _ _ _ read

/-- A text with a NUL is not well-formed. -/
theorem nul_notMem_of_parse {text : List ℕ} {j : Json} (read : parse text = some j) : 0 ∉ text := by
  simp only [parse, Option.bind_eq_bind, Option.bind_eq_some_iff, Prod.exists] at read
  obtain ⟨j', rest, one, read⟩ := read
  rw [Option.ite_none_right_eq_some] at read
  obtain ⟨front, split, visible⟩ :=
    ((passed_skip text).trans (visible_value _ _ _ _ one)).trans (passed_skip rest)
  rwa [split, read.1, List.append_nil]

/-! ## Texts that it reads -/

def codes (bytes : List UInt8) : List ℕ := bytes.map UInt8.toNat

@[simp]
theorem codes_nil : codes [] = [] := rfl

@[simp]
theorem codes_cons (b : UInt8) (bytes : List UInt8) : codes (b :: bytes) = b.toNat :: codes bytes := rfl

@[simp]
theorem codes_append (front back : List UInt8) : codes (front ++ back) = codes front ++ codes back :=
  List.map_append

/-- A text of ASCII characters. -/
def Ascii (bytes : List UInt8) : Prop := ∀ b ∈ bytes, b.toNat < 128

instance (bytes : List UInt8) : Decidable (Ascii bytes) :=
  inferInstanceAs (Decidable (∀ b ∈ bytes, b.toNat < 128))

theorem toNat_charOfNat (b : UInt8) : (Char.ofNat b.toNat).toNat = b.toNat := by
  have valid : b.toNat.isValidChar := .inl (Nat.lt_trans b.toNat_lt (by decide))
  rw [Char.ofNat, dif_pos valid]
  rfl

/-- A text of ASCII characters is decoded byte by byte. -/
theorem decode_codes {bytes : List UInt8} (ascii : Ascii bytes) :
    decode bytes = parse (codes bytes) := by
  have encoded : (bytes.map fun b => Char.ofNat b.toNat).flatMap String.utf8EncodeChar = bytes := by
    rw [List.flatMap_map]
    conv => rhs; rw [← List.flatMap_singleton' bytes]
    refine List.flatMap_congr fun b among => ?_
    have value : (Char.ofNat b.toNat).val.toNat = b.toNat := toNat_charOfNat b
    have low := ascii b among
    rw [String.utf8EncodeChar, value, if_pos (by omega), UInt8.ofNat_toNat]
  have points : (bytes.map fun b => Char.ofNat b.toNat).map Char.toNat = codes bytes := by
    rw [List.map_map]
    exact List.map_congr_left fun b _ => toNat_charOfNat b
  have text : bytes.toByteArray = (bytes.map fun b => Char.ofNat b.toNat).utf8Encode := by
    rw [List.utf8Encode, encoded]
  simp only [decode, text, List.utf8Decode?_utf8Encode, Option.bind_eq_bind, Option.bind_some,
    points]

theorem isDigit_code (b : UInt8) : isDigit b.toNat = Decimal.isDigit b := by
  simp only [isDigit, Decimal.isDigit, UInt8.le_iff_toNat_le]
  rfl

/-- The rest does not go on with another digit. -/
def NoDigit (rest : List ℕ) : Prop := ∀ c ∈ rest.head?, isDigit c = false

theorem digits_codes {ds : List UInt8} (all : ∀ b ∈ ds, Decimal.isDigit b = true) {rest : List ℕ}
    (stops : NoDigit rest) : digits (codes ds ++ rest) = (ds, rest) := by
  have digit : ∀ c ∈ codes ds, isDigit c = true := by
    intro c among
    obtain ⟨b, among', rfl⟩ := List.mem_map.mp among
    rw [isDigit_code, all b among']
  have back : (codes ds).map Nat.toUInt8 = ds := by
    simp [codes, Function.comp_def]
  rw [digits, List.takeWhile_append_of_pos digit, List.dropWhile_append_of_pos digit]
  cases rest with
  | nil => simp [back]
  | cons c rest =>
      have stop := stops c rfl
      simp [stop, back]

theorem someDigits_codes {ds : List UInt8} (nonempty : ds ≠ [])
    (all : ∀ b ∈ ds, Decimal.isDigit b = true) {rest : List ℕ} (stops : NoDigit rest) :
    someDigits (codes ds ++ rest) = some (ds, rest) := by
  rw [someDigits, digits_codes all stops, if_neg nonempty]

/-- The rest does not go on with another character of a number. -/
def NoNumber (rest : List ℕ) : Prop :=
  ∀ c ∈ rest.head?, isDigit c = false ∧ c ≠ 46 ∧ c ≠ 101 ∧ c ≠ 69

theorem NoNumber.noDigit {rest : List ℕ} (ends : NoNumber rest) : NoDigit rest :=
  fun c first => (ends c first).1

section Numbers

variable {n : Decimal.Notation} (wellFormed : n.WellFormed)

include wellFormed

theorem whole_codes {rest : List ℕ} (stops : NoDigit rest) :
    whole (codes n.whole ++ rest) = some (n.whole, rest) := by
  unfold whole
  split
  · next zero =>
      cases first : n.whole with
      | nil => exact absurd first wellFormed.whole_nonempty
      | cons b ds =>
          rw [first] at zero
          have byte : b = 48 := UInt8.toNat_inj.mp (Option.some.inj zero)
          have alone := wellFormed.no_leading_zero (by rw [first, byte]; rfl)
          rw [first] at alone
          cases alone
          rfl
  · exact someDigits_codes wellFormed.whole_nonempty wellFormed.whole_digits stops

theorem fraction_codes {rest : List ℕ} (stops : NoDigit rest) (no_point : rest.head? ≠ some 46) :
    fraction (codes n.pointText ++ rest) = some (n.fraction, rest) := by
  unfold Decimal.Notation.pointText
  split
  · next none =>
      rw [none, codes_nil, List.nil_append, fraction, if_neg no_point]
  · next digits =>
      have read := someDigits_codes digits wellFormed.fraction_digits stops
      simpa [fraction] using read

theorem exponent_codes {rest : List ℕ} (ends : NoNumber rest) :
    exponent (codes n.exponentText ++ rest) = some (n.exponent, rest) := by
  have digits := wellFormed.exponent_digits
  unfold Decimal.Notation.exponentText
  rcases found : n.exponent with _ | ⟨negative, ds⟩
  · have no_mark : ¬ (rest.head? = some 101 ∨ rest.head? = some 69) := by
      rintro (mark | mark)
      · exact (ends _ mark).2.2.1 rfl
      · exact (ends _ mark).2.2.2 rfl
    exact if_neg no_mark
  · obtain ⟨nonempty, all⟩ := digits (negative, ds) found
    have read := someDigits_codes nonempty all ends.noDigit
    cases negative with
    | false => simp [exponent, read]
    | true => simp [exponent, read]

/-- The parser reads a number in decimal notation. -/
theorem number_codes (negative : Bool) {rest : List ℕ} (ends : NoNumber rest) :
    number (codes ((if negative then [45] else []) ++ n.text) ++ rest) =
      some (.number negative n.value, rest) := by
  have behind_fraction : NoDigit (codes n.exponentText ++ rest) ∧
      (codes n.exponentText ++ rest).head? ≠ some 46 := by
    unfold Decimal.Notation.exponentText
    split
    · exact ⟨ends.noDigit, fun point => (ends _ point).2.1 rfl⟩
    · exact ⟨fun c first => Option.some.inj first ▸ rfl, by simp⟩
  have behind_whole : NoDigit (codes n.pointText ++ (codes n.exponentText ++ rest)) := by
    unfold Decimal.Notation.pointText
    split
    · exact behind_fraction.1
    · exact fun c first => Option.some.inj first ▸ rfl
  have parts := whole_codes wellFormed behind_whole
  have fraction := fraction_codes wellFormed behind_fraction.1 behind_fraction.2
  have exponent := exponent_codes wellFormed ends
  have sign : (codes n.whole ++ (codes n.pointText ++ (codes n.exponentText ++ rest))).head? ≠
      some 45 := by
    cases first : n.whole with
    | nil => exact absurd first wellFormed.whole_nonempty
    | cons b ds =>
        have digit := wellFormed.whole_digits b (by simp [first])
        intro minus
        rw [← isDigit_code, Option.some.inj minus] at digit
        cases digit
  cases negative with
  | false =>
      simp only [number, Decimal.Notation.text, Bool.false_eq_true, if_false, List.nil_append,
        codes_append, List.append_assoc, sign, decide_false, parts, fraction, exponent,
        Option.bind_eq_bind, Option.bind_some]
      rfl
  | true =>
      have minus : UInt8.toNat 45 = 45 := rfl
      simp only [number, Decimal.Notation.text, if_true, codes_append, codes_cons, minus,
        List.append_assoc, List.cons_append, List.nil_append, List.head?_cons, List.tail_cons,
        decide_true, parts, fraction, exponent, Option.bind_eq_bind, Option.bind_some]
      rfl

end Numbers

/-- The value of four decimal digits behind a `\u`, which are read as hexadecimal ones. -/
def hexOf (ds : List UInt8) : ℕ := ds.foldl (fun n d => n * 16 + (d.toNat - 48)) 0

theorem hexNumber_codes {ds : List UInt8} (all : ∀ b ∈ ds, Decimal.isDigit b = true) :
    hexNumber (codes ds) = some (hexOf ds) := by
  have digits : (codes ds).mapM hexDigit = some (ds.map fun b => b.toNat - 48) := by
    induction ds with
    | nil => rfl
    | cons b ds ih =>
        have digit : hexDigit b.toNat = some (b.toNat - 48) := by
          rw [hexDigit, isDigit_code, all b List.mem_cons_self, if_pos rfl]
        rw [codes_cons, List.mapM_cons, digit, ih fun b' among => all b' (List.mem_cons_of_mem b among)]
        rfl
  rw [hexNumber, digits, Option.map_some, List.foldl_map, hexOf]

theorem joinPairs_of_low {units : List ℕ} (low : ∀ u ∈ units, u < 0xD800) :
    joinPairs units = units := by
  induction units using joinPairs.induct with
  | case1 => rfl
  | case2 => rfl
  | case3 high _ rest pair =>
      have := low high List.mem_cons_self
      omega
  | case4 high next rest pair ih =>
      rw [joinPairs, if_neg pair, ih fun u among => low u (List.mem_cons_of_mem high among)]

/-- What stands behind a value: the end of the text, a comma or a closing bracket. -/
def Delimited (rest : List ℕ) : Prop := ∀ c ∈ rest.head?, c = 44 ∨ c = 93 ∨ c = 125

theorem Delimited.noNumber {rest : List ℕ} (delimited : Delimited rest) : NoNumber rest := by
  intro c first
  rcases delimited c first with rfl | rfl | rfl <;> decide

/-- The parser reads the text, whatever stands behind it, and neither skips its first character nor
takes it for a closing bracket. -/
structure Reads {α : Type} (item : Parser α) (text : List UInt8) (x : α) : Prop where
  begins : ∃ b ∈ text.head?, isSpace b.toNat = false ∧ b ≠ 93 ∧ b ≠ 125
  read : ∀ rest, Delimited rest → item (codes text ++ rest) = some (x, rest)

section Items

variable {α : Type} {item : Parser α}

theorem skip_of_head {c : ℕ} (visible : isSpace c = false) (rest : List ℕ) :
    skip (c :: rest) = c :: rest :=
  List.dropWhile_cons_of_neg (Bool.not_eq_true _ ▸ visible)

theorem Reads.skip {text : List UInt8} {x : α} (reads : Reads item text x) (rest : List ℕ) :
    JsonText.skip (codes text ++ rest) = codes text ++ rest := by
  obtain ⟨b, first, visible, -⟩ := reads.begins
  obtain ⟨bytes, rfl⟩ := List.head?_eq_some_iff.mp first
  exact skip_of_head visible _

theorem intercalate_cons (text : List UInt8) (texts : List (List UInt8)) :
    List.intercalate [44] (text :: texts) = text ++ texts.flatMap (44 :: ·) := by
  induction texts generalizing text with
  | nil => simp
  | cons text' texts ih =>
      have split : List.intercalate [44] (text :: text' :: texts) =
          text ++ 44 :: List.intercalate [44] (text' :: texts) := by
        simp [List.intercalate]
      rw [split, ih, List.flatMap_cons, List.cons_append]

theorem items_codes {texts : List (List UInt8)} {xs : List α} (reads : List.Forall₂ (Reads item) texts xs)
    (some_text : texts ≠ []) {close : UInt8} (bracket : close = 93 ∨ close = 125) {n : ℕ}
    (enough : xs.length ≤ n) (rest : List ℕ) :
    items item close.toNat n (codes (List.intercalate [44] texts ++ [close]) ++ rest) =
      some (xs, rest) := by
  have visible : isSpace close.toNat = false := by rcases bracket with rfl | rfl <;> rfl
  have no_comma : close.toNat ≠ 44 := by rcases bracket with rfl | rfl <;> decide
  have delimits : close.toNat = 44 ∨ close.toNat = 93 ∨ close.toNat = 125 :=
    .inr (bracket.imp (congrArg UInt8.toNat) (congrArg UInt8.toNat))
  induction reads generalizing n with
  | nil => exact absurd rfl some_text
  | @cons text x texts xs first others ih =>
      obtain ⟨n, rfl⟩ : ∃ m, n = m + 1 :=
        ⟨n - 1, by have : xs.length + 1 ≤ n := enough; omega⟩
      cases texts with
      | nil =>
          cases others
          have closed := first.read (close.toNat :: rest) fun c found => Option.some.inj found ▸ delimits
          simp [items, closed, skip_of_head visible, no_comma]
      | cons text' texts =>
          have comma := first.read
            (44 :: (codes (List.intercalate [44] (text' :: texts) ++ [close]) ++ rest))
            fun c found => .inl (Option.some.inj found).symm
          have space : isSpace 44 = false := rfl
          have later := ih (List.cons_ne_nil _ _) (Nat.le_of_succ_le_succ enough)
          have skipped : skip (codes (List.intercalate [44] (text' :: texts) ++ [close]) ++ rest) =
              codes (List.intercalate [44] (text' :: texts) ++ [close]) ++ rest := by
            cases others with
            | cons second _ =>
                have front := intercalate_cons text' texts
                rw [front, List.append_assoc, codes_append, List.append_assoc]
                exact second.skip _
          have split : codes (List.intercalate [44] (text :: text' :: texts) ++ [close]) ++ rest =
              codes text ++ 44 :: (codes (List.intercalate [44] (text' :: texts) ++ [close]) ++ rest) := by
            simp [List.intercalate]
          rw [split, items]
          simp only [comma, Option.bind_eq_bind, Option.bind_some, skip_of_head space, List.head?_cons,
            if_true, List.tail_cons, skipped, later]
          rfl

theorem length_le_intercalate (texts : List (List UInt8)) :
    texts.length ≤ (List.intercalate [44] texts).length + 1 := by
  induction texts with
  | nil => exact Nat.zero_le _
  | cons text texts ih =>
      cases texts with
      | nil => simp
      | cons text' texts =>
          have split : List.intercalate [44] (text :: text' :: texts) =
              text ++ 44 :: List.intercalate [44] (text' :: texts) := by
            simp [List.intercalate]
          simp only [split, List.length_append, List.length_cons] at ih ⊢
          omega

/-- The parser reads the items of an array or an object, with a comma behind each but the last. -/
theorem bracketed_codes {texts : List (List UInt8)} {xs : List α}
    (reads : List.Forall₂ (Reads item) texts xs) {close : UInt8} (bracket : close = 93 ∨ close = 125)
    (rest : List ℕ) :
    bracketed item close.toNat (codes (List.intercalate [44] texts ++ [close]) ++ rest) =
      some (xs, rest) := by
  have visible : isSpace close.toNat = false := by rcases bracket with rfl | rfl <;> rfl
  unfold bracketed
  cases reads with
  | nil => simp [skip_of_head visible]
  | @cons text x texts xs first others =>
      have front := intercalate_cons text texts
      have skipped : skip (codes (List.intercalate [44] (text :: texts) ++ [close]) ++ rest) =
          codes (List.intercalate [44] (text :: texts) ++ [close]) ++ rest := by
        rw [front, List.append_assoc, codes_append, List.append_assoc]
        exact first.skip _
      have open_still : (codes (List.intercalate [44] (text :: texts) ++ [close]) ++ rest).head? ≠
          some close.toNat := by
        obtain ⟨b, starts, -, not_bracket, not_brace⟩ := first.begins
        obtain ⟨bytes, rfl⟩ := List.head?_eq_some_iff.mp starts
        rw [front]
        intro same
        have byte : b = close := UInt8.toNat_inj.mp (Option.some.inj same)
        exact bracket.elim (fun h => not_bracket (byte.trans h)) fun h => not_brace (byte.trans h)
      have number : (x :: xs).length ≤
          (codes (List.intercalate [44] (text :: texts) ++ [close]) ++ rest).length := by
        have count := length_le_intercalate (text :: texts)
        have same : (text :: texts).length = (x :: xs).length :=
          (List.Forall₂.cons first others).length_eq
        rw [List.length_append, codes, List.length_map, List.length_append, List.length_singleton]
        omega
      rw [skipped, if_neg open_still]
      exact items_codes (.cons first others) (List.cons_ne_nil _ _) bracket number rest

end Items

/-! ## Values that it reads -/

/-- The text of a string, as the value and as a key. -/
structure ReadsString (text : List UInt8) (points : List ℕ) : Prop where
  quote : text.head? = some 34
  read : ∀ rest, ∃ units, stringBody (codes text.tail ++ rest) = some (units, rest) ∧
    joinPairs units = points

theorem ReadsString.reads {text : List UInt8} {points : List ℕ} (reads : ReadsString text points)
    (depth : ℕ) : Reads (value (depth + 1)) text (.string points) where
  begins := ⟨34, reads.quote, rfl, by decide, by decide⟩
  read := by
    intro rest _
    obtain ⟨body, rfl⟩ := List.head?_eq_some_iff.mp reads.quote
    obtain ⟨units, read, rfl⟩ := reads.read rest
    have quote : UInt8.toNat 34 = 34 := rfl
    rw [List.tail_cons] at read
    simp only [codes_cons, quote, List.cons_append, value, if_true, read, Option.bind_eq_bind,
      Option.bind_some]
    rfl

theorem ReadsString.member {text text' : List UInt8} {points : List ℕ} {j : Json} {depth : ℕ}
    (reads : ReadsString text points) (other : Reads (value depth) text' j) :
    Reads (member (value depth)) (text ++ 58 :: text') (points, j) where
  begins := ⟨34, by rw [List.head?_append, reads.quote]; rfl, rfl, by decide, by decide⟩
  read := by
    intro rest delimited
    obtain ⟨body, rfl⟩ := List.head?_eq_some_iff.mp reads.quote
    obtain ⟨units, read, rfl⟩ := reads.read (58 :: (codes text' ++ rest))
    have quote : UInt8.toNat 34 = 34 := rfl
    have colon : UInt8.toNat 58 = 58 := rfl
    have space : isSpace 58 = false := rfl
    rw [List.tail_cons] at read
    simp only [codes_cons, codes_append, quote, colon, List.cons_append, List.append_assoc,
      JsonText.member, List.head?_cons, List.tail_cons, if_true, read, Option.bind_eq_bind,
      Option.bind_some, skip_of_head space, other.skip, other.read rest delimited]
    rfl

theorem reads_array {texts : List (List UInt8)} {elems : List Json} {depth : ℕ}
    (reads : List.Forall₂ (Reads (value depth)) texts elems) :
    Reads (value (depth + 1)) (91 :: List.intercalate [44] texts ++ [93]) (.array elems) where
  begins := ⟨91, rfl, rfl, by decide, by decide⟩
  read := by
    intro rest _
    have read := bracketed_codes reads (.inl rfl) rest
    have bracket : UInt8.toNat 91 = 91 := rfl
    have bracket' : UInt8.toNat 93 = 93 := rfl
    rw [bracket'] at read
    simp only [codes_cons, bracket, List.cons_append, value, Nat.reduceEqDiff, if_false, if_true, read,
      Option.bind_eq_bind, Option.bind_some]
    rfl

theorem reads_object {texts : List (List UInt8)} {members : List (List ℕ × Json)} {depth : ℕ}
    (reads : List.Forall₂ (Reads (member (value depth))) texts members) :
    Reads (value (depth + 1)) (123 :: List.intercalate [44] texts ++ [125]) (.object members) where
  begins := ⟨123, rfl, rfl, by decide, by decide⟩
  read := by
    intro rest _
    have read := bracketed_codes reads (.inr rfl) rest
    have brace : UInt8.toNat 123 = 123 := rfl
    have brace' : UInt8.toNat 125 = 125 := rfl
    rw [brace'] at read
    simp only [codes_cons, brace, List.cons_append, value, Nat.reduceEqDiff, if_false, if_true, read,
      Option.bind_eq_bind, Option.bind_some]
    rfl

theorem reads_number {n : Decimal.Notation} (wellFormed : n.WellFormed) (negative : Bool) (depth : ℕ) :
    Reads (value (depth + 1)) ((if negative then [45] else []) ++ n.text)
      (.number negative n.value) := by
  obtain ⟨b, text, split, starts⟩ : ∃ b text, (if negative then [45] else []) ++ n.text = b :: text ∧
      (b = 45 ∨ Decimal.isDigit b = true) := by
    cases negative with
    | true => exact ⟨45, n.text, rfl, .inl rfl⟩
    | false =>
        cases first : n.whole with
        | nil => exact absurd first wellFormed.whole_nonempty
        | cons b ds =>
            exact ⟨b, ds ++ n.pointText ++ n.exponentText, by simp [Decimal.Notation.text, first],
              .inr (wellFormed.whole_digits b (by simp [first]))⟩
  have range : 45 ≤ b.toNat ∧ b.toNat ≤ 57 := by
    rcases starts with rfl | digit
    · decide
    · rw [← isDigit_code, isDigit, Bool.and_eq_true, decide_eq_true_eq, decide_eq_true_eq] at digit
      omega
  constructor
  · rw [split]
    refine ⟨b, rfl, ?_, ?_, ?_⟩
    · simp only [isSpace, Bool.or_eq_false_iff, decide_eq_false_iff_not]
      omega
    · rintro rfl
      exact absurd range.2 (by decide)
    · rintro rfl
      exact absurd range.2 (by decide)
  · intro rest delimited
    have read := number_codes wellFormed negative delimited.noNumber
    rw [split, codes_cons, List.cons_append] at read ⊢
    rw [value, if_neg (by omega), if_neg (by omega), if_neg (by omega), if_neg (by omega),
      if_neg (by omega), if_neg (by omega), read]

theorem literal_codes (word : List UInt8) (j : Json) (rest : List ℕ) :
    literal (codes word) j (codes word ++ rest) = some (j, rest) := by
  rw [literal, if_pos (List.prefix_append ..), List.drop_left]

theorem reads_null (depth : ℕ) : Reads (value (depth + 1)) [110, 117, 108, 108] .null where
  begins := ⟨110, rfl, rfl, by decide, by decide⟩
  read := fun rest _ => literal_codes [110, 117, 108, 108] .null rest

theorem reads_true (depth : ℕ) : Reads (value (depth + 1)) [116, 114, 117, 101] (.bool true) where
  begins := ⟨116, rfl, rfl, by decide, by decide⟩
  read := fun rest _ => literal_codes [116, 114, 117, 101] (.bool true) rest

theorem reads_false (depth : ℕ) :
    Reads (value (depth + 1)) [102, 97, 108, 115, 101] (.bool false) where
  begins := ⟨102, rfl, rfl, by decide, by decide⟩
  read := fun rest _ => literal_codes [102, 97, 108, 115, 101] (.bool false) rest

/-- The parser reads a text of one value alone. -/
theorem Reads.decode {text : List UInt8} {j : Json} (reads : Reads (value text.length) text j)
    (ascii : Ascii text) : decode text = some j := by
  have skipped := reads.skip []
  have read := reads.read [] nofun
  have length : (codes text).length = text.length := List.length_map ..
  rw [List.append_nil] at skipped read
  simp only [decode_codes ascii, parse, skipped, length, read, Option.bind_eq_bind, Option.bind_some]
  rfl

theorem decode_eq_none {text : List UInt8} (ascii : Ascii text) (nul : 0 ∈ text) :
    JsonText.decode text = none := by
  rw [decode_codes ascii, Option.eq_none_iff_forall_ne_some]
  intro j read
  exact nul_notMem_of_parse read (List.mem_map.mpr ⟨0, nul, rfl⟩)

end JsonText
