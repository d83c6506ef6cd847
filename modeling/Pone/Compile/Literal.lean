import Mathlib.Data.Nat.Digits.Defs
import Pone.CLexer

/-!
# Literals in the generated C

The escape loops of `_pone_compile` for `PVIP_NODE_STRING`, `PVIP_NODE_BYTES` and
`PVIP_NODE_REGEXP`.  The generated file is compiled with `clang -std=c99`, which replaces trigraphs;
the loops leave them alone, and the loops of the bytes and the regular expressions leave a double
quote alone too.
-/

namespace Pone
namespace Compile

open CLexer

/-- The nodes that hold a byte string. -/
inductive LiteralNode where
  | string
  | bytes
  | regexp
  deriving DecidableEq

/-- The text of ASCII characters. -/
def text (chars : List Char) : List UInt8 := chars.map byte

/-- One round of an escape loop; `quoted` is what the loop prints for a double quote. -/
def escapeWith (quoted : List Char) (b : UInt8) : List UInt8 :=
  if b = byte '\x07' then text ['\\', 'a']
  else if b = byte '\x08' then text ['\\', 'b']
  else if b = byte '\t' then text ['\\', 't']
  else if b = byte '\n' then text ['\\', 'n']
  else if b = byte '\x0b' then text ['\\', 'v']
  else if b = byte '\x0c' then text ['\\', 'f']
  else if b = byte '\r' then text ['\\', 'r']
  else if b = byte '\\' then text ['\\', '\\']
  else if b = byte '"' then text quoted
  else [b]

/-- The escape loop of a node. -/
def escape : LiteralNode → UInt8 → List UInt8
  | .string => escapeWith ['\\', '"']
  | .bytes => escapeWith ['"']
  | .regexp => escapeWith ['"']

/-- What `PRINTF("%ld", len)` prints. -/
def printLength (length : Nat) : List UInt8 := text (Nat.toDigits 10 length)

/-- The literal and the length, as `_pone_compile` prints them between `pone_str_new_const(world, `,
`pone_bytes_new_const(world, ` or `pone_regex_new(world, ` and the closing parenthesis. -/
def literalArguments (node : LiteralNode) (s : List UInt8) : List UInt8 :=
  text ['"'] ++ s.flatMap (escape node) ++ text ['"', ',', ' '] ++ printLength s.length

/-- The C compiler reads the arguments as one string literal that stands for `s`, followed by the
length of `s`. -/
def Survives (node : LiteralNode) (s : List UInt8) : Prop :=
  stringLiteral (replaceTrigraphs (literalArguments node s)) =
    some (s, text [',', ' '] ++ printLength s.length)

instance (node : LiteralNode) (s : List UInt8) : Decidable (Survives node s) :=
  inferInstanceAs (Decidable (_ = _))

/-! ## One byte -/

private theorem escaped {b source x : UInt8} (same : b = source)
    (simple : simpleEscape x = some source ∧ source ≠ byte '?' ∧ trigraph source = none) :
    ∃ y, [byte '\\', x] = [byte '\\', y] ∧ simpleEscape y = some b ∧ b ≠ byte '?' ∧
      trigraph b = none := by
  rw [same]
  exact ⟨x, rfl, simple⟩

private theorem escapeWith_cases (quoted : List Char) (b : UInt8) :
    (escapeWith quoted b = [b] ∧ b ≠ byte '\\' ∧ b ≠ byte '\n' ∧ b ≠ byte '"') ∨
      (b = byte '"' ∧ escapeWith quoted b = text quoted) ∨
      ∃ x, escapeWith quoted b = [byte '\\', x] ∧ simpleEscape x = some b ∧ b ≠ byte '?' ∧
        trigraph b = none := by
  unfold escapeWith
  split
  · rename_i same
    exact .inr (.inr (escaped same (by decide)))
  split
  · rename_i same
    exact .inr (.inr (escaped same (by decide)))
  split
  · rename_i same
    exact .inr (.inr (escaped same (by decide)))
  split
  · rename_i same
    exact .inr (.inr (escaped same (by decide)))
  split
  · rename_i same
    exact .inr (.inr (escaped same (by decide)))
  split
  · rename_i same
    exact .inr (.inr (escaped same (by decide)))
  split
  · rename_i same
    exact .inr (.inr (escaped same (by decide)))
  split
  · rename_i same
    exact .inr (.inr (escaped same (by decide)))
  split
  · rename_i same
    exact .inr (.inl ⟨same, rfl⟩)
  · rename_i no_newline _ _ _ no_backslash no_quote
    exact .inl ⟨rfl, no_backslash, no_newline, no_quote⟩

/-- A byte is printed as it is, or as a simple escape sequence that stands for it. -/
theorem escape_cases (node : LiteralNode) (b : UInt8) :
    (escape node b = [b] ∧ b ≠ byte '\\' ∧ b ≠ byte '\n' ∧ (b = byte '"' → node ≠ .string)) ∨
      ∃ x, escape node b = [byte '\\', x] ∧ simpleEscape x = some b ∧ b ≠ byte '?' ∧
        trigraph b = none := by
  have other (unquoted : escape node = escapeWith ['"']) (kind : node ≠ .string) :
      (escape node b = [b] ∧ b ≠ byte '\\' ∧ b ≠ byte '\n' ∧ (b = byte '"' → node ≠ .string)) ∨
        ∃ x, escape node b = [byte '\\', x] ∧ simpleEscape x = some b ∧ b ≠ byte '?' ∧
          trigraph b = none := by
    rw [unquoted]
    rcases escapeWith_cases ['"'] b with ⟨raw, no_backslash, no_newline, -⟩ | ⟨rfl, quote⟩ | pair
    · exact .inl ⟨raw, no_backslash, no_newline, fun _ => kind⟩
    · exact .inl ⟨quote, by decide, by decide, fun _ => kind⟩
    · exact .inr pair
  cases node with
  | string =>
      rcases escapeWith_cases ['\\', '"'] b with ⟨raw, no_backslash, no_newline, no_quote⟩ |
        ⟨rfl, quote⟩ | pair
      · exact .inl ⟨raw, no_backslash, no_newline, fun same => absurd same no_quote⟩
      · exact .inr ⟨byte '"', quote, by decide, by decide, by decide⟩
      · exact .inr pair
  | bytes => exact other rfl nofun
  | regexp => exact other rfl nofun

theorem escape_question (node : LiteralNode) : escape node (byte '?') = [byte '?'] := by
  cases node <;> rfl

/-- A byte that completes a trigraph is printed as it is. -/
theorem escape_trigraph (node : LiteralNode) {b : UInt8} (special : trigraph b ≠ none) :
    escape node b = [b] := by
  rcases escape_cases node b with ⟨raw, -⟩ | ⟨x, -, -, -, plain⟩
  · exact raw
  · exact absurd plain special

theorem escape_free (node : LiteralNode) {b : UInt8} (different : b ≠ byte '?') :
    byte '?' ∉ escape node b := by
  rcases escape_cases node b with ⟨raw, -⟩ | ⟨x, pair, simple, -, -⟩
  · rw [raw]
    simpa using different.symm
  · rw [pair]
    have other : x ≠ byte '?' := by
      rintro rfl
      have same : byte '?' = b := Option.some.inj simple
      exact different same.symm
    simp only [List.mem_cons, List.not_mem_nil, or_false, not_or]
    exact ⟨by decide, other.symm⟩

/-! ## The text that the C compiler sees -/

/-- The body of the literal after phase 1: a trigraph of `s` is one character. -/
def translated (node : LiteralNode) : List UInt8 → List UInt8
  | a :: b :: c :: rest =>
      if a = byte '?' ∧ b = byte '?' then
        match trigraph c with
        | some d => d :: translated node rest
        | none => escape node a ++ translated node (b :: c :: rest)
      else
        escape node a ++ translated node (b :: c :: rest)
  | a :: rest => escape node a ++ translated node rest
  | [] => []

/-- The characters that are printed begin with a question mark and the end of a trigraph only if the
bytes of `s` do. -/
theorem flatMap_question {node : LiteralNode} {s closing : List UInt8} {c : UInt8}
    {more : List UInt8}
    (shape : s.flatMap (escape node) ++ byte '"' :: closing = byte '?' :: c :: more)
    (special : trigraph c ≠ none) : ∃ rest, s = byte '?' :: c :: rest := by
  cases s with
  | nil =>
      have quote : byte '"' = byte '?' := (List.cons.inj shape).1
      exact absurd quote (by decide)
  | cons a s =>
      rw [List.flatMap_cons] at shape
      rcases escape_cases node a with ⟨raw, -⟩ | ⟨x, pair, -⟩
      · rw [raw, List.singleton_append, List.cons_append, List.cons.injEq] at shape
        obtain ⟨rfl, shape⟩ := shape
        cases s with
        | nil =>
            obtain ⟨rfl, -⟩ := List.cons.inj shape
            exact absurd (by decide) special
        | cons b s =>
            rw [List.flatMap_cons] at shape
            rcases escape_cases node b with ⟨raw, -⟩ | ⟨x, pair, -⟩
            · rw [raw, List.singleton_append, List.cons_append, List.cons.injEq] at shape
              exact ⟨s, by rw [shape.1]⟩
            · rw [pair] at shape
              obtain ⟨rfl, -⟩ := List.cons.inj shape
              exact absurd (by decide) special
      · rw [pair] at shape
        have backslash : byte '\\' = byte '?' := (List.cons.inj shape).1
        exact absurd backslash (by decide)

/-- A byte that begins no trigraph is printed as without its context. -/
theorem replaceTrigraphs_escape {node : LiteralNode} {a : UInt8} {s closing : List UInt8}
    (free : a = byte '?' → ∀ c rest, s = byte '?' :: c :: rest → trigraph c = none) :
    replaceTrigraphs ((a :: s).flatMap (escape node) ++ byte '"' :: closing) =
      escape node a ++ replaceTrigraphs (s.flatMap (escape node) ++ byte '"' :: closing) := by
  rw [List.flatMap_cons, List.append_assoc]
  by_cases question : a = byte '?'
  · subst question
    rw [escape_question]
    refine replaceTrigraphs_question fun c more shape => ?_
    by_contra special
    obtain ⟨rest, same⟩ := flatMap_question shape special
    exact special (free rfl c rest same)
  · exact replaceTrigraphs_append (escape_free node question) _

theorem replaceTrigraphs_flatMap (node : LiteralNode) (s closing : List UInt8) :
    replaceTrigraphs (s.flatMap (escape node) ++ byte '"' :: closing) =
      translated node s ++ byte '"' :: replaceTrigraphs closing := by
  induction s using translated.induct with
  | case1 a b c rest both d special ih =>
      obtain ⟨rfl, rfl⟩ := both
      have raw : escape node c = [c] := escape_trigraph node (by rw [special]; nofun)
      simp only [translated, special, and_self, if_true, List.flatMap_cons, escape_question, raw,
        List.cons_append, List.nil_append, replaceTrigraphs]
      rw [ih]
  | case2 a b c rest both plain ih =>
      obtain ⟨rfl, rfl⟩ := both
      rw [replaceTrigraphs_escape, ih]
      · simp [translated, plain]
      · rintro - _ _ ⟨⟩
        exact plain
  | case3 a b c rest apart ih =>
      rw [replaceTrigraphs_escape, ih, translated, if_neg apart, List.append_assoc]
      rintro rfl _ _ ⟨⟩
      exact absurd ⟨rfl, rfl⟩ apart
  | case4 a rest short ih =>
      rw [replaceTrigraphs_escape, ih, translated, List.append_assoc]
      · exact short
      · rintro - _ _ rfl
        exact absurd rfl (short _ _ _)
  | case5 =>
      have different : byte '"' ≠ byte '?' := by decide
      exact replaceTrigraphs_cons different closing

/-- Without a trigraph the C compiler sees what is printed. -/
theorem translated_plain (node : LiteralNode) {s : List UInt8} (free : ¬ HasTrigraph s) :
    translated node s = s.flatMap (escape node) := by
  induction s using translated.induct with
  | case1 a b c rest both d special ih =>
      refine absurd (hasTrigraph_cons.mpr (.inl ⟨both.1, c, rest, ?_, ?_⟩)) free
      · rw [both.2]
      · rw [special]
        nofun
  | case2 a b c rest both plain ih =>
      rw [List.flatMap_cons, ← ih fun inside => free (hasTrigraph_cons.mpr (.inr inside))]
      simp [translated, both, plain]
  | case3 a b c rest apart ih =>
      rw [List.flatMap_cons, ← ih fun inside => free (hasTrigraph_cons.mpr (.inr inside)),
        translated, if_neg apart]
  | case4 a rest short ih =>
      rw [List.flatMap_cons, ← ih fun inside => free (hasTrigraph_cons.mpr (.inr inside)),
        translated]
      exact short
  | case5 => rfl

/-! ## What the literal stands for -/

/-- What is printed for a byte stands for that byte. -/
theorem scan_escape {node : LiteralNode} {b : UInt8} (inert : b = byte '"' → node = .string)
    (rest : List UInt8) :
    scan .plain (escape node b ++ rest) =
      (scan .plain rest).map fun (bytes, left) => (b :: bytes, left) := by
  rcases escape_cases node b with ⟨raw, no_backslash, no_newline, quote⟩ | ⟨x, pair, simple, -⟩
  · have no_quote : b ≠ byte '"' := fun same => quote same (inert same)
    rw [raw, List.singleton_append, scan]
    simp [scanStep, plainStep, no_quote, no_newline, no_backslash]
  · rw [pair]
    have opens : scanStep .plain (byte '\\') = some ([], some .escape) := rfl
    have closes : scanStep .escape x = some ([b], some .plain) := by simp only [scanStep, simple]
    rw [List.cons_append, List.singleton_append, scan_next opens, scan_next closes]
    cases scan .plain rest <;> rfl

theorem scan_body {node : LiteralNode} {s : List UInt8}
    (inert : byte '"' ∈ s → node = .string) (closing : List UInt8) :
    scan .plain (s.flatMap (escape node) ++ byte '"' :: closing) = some (s, closing) := by
  induction s with
  | nil => rfl
  | cons b s ih =>
      rw [List.flatMap_cons, List.append_assoc, scan_escape, ih]
      · rfl
      · exact fun member => inert (List.mem_cons_of_mem _ member)
      · exact fun same => inert (by rw [same]; exact List.mem_cons_self)

/-- What is printed for a byte gives at most one byte and what the state owes. -/
theorem scan_escape_owed {node : LiteralNode} {state : Scan} {b : UInt8}
    {rest bytes left : List UInt8}
    (read : scan state (escape node b ++ rest) = some (bytes, left)) :
    rest.length ≤ left.length ∨ ∃ front next more, front.length + next.owed ≤ state.owed + 1 ∧
      scan next rest = some (more, left) ∧ bytes = front ++ more := by
  rcases escape_cases node b with ⟨raw, -⟩ | ⟨x, pair, simple, -⟩
  · rw [raw] at read
    exact scan_one read
  · rw [pair] at read
    exact scan_pair (by rw [simple]; nofun) read

/-- A literal that ends where it was meant to end stands for at most as many bytes as `s` has, and
for fewer if `s` has a trigraph. -/
theorem translated_bound {node : LiteralNode} {s closing bytes : List UInt8} {state : Scan}
    (read : scan state (translated node s ++ byte '"' :: closing) = some (bytes, closing)) :
    bytes.length ≤ s.length + state.owed ∧
      (HasTrigraph s → bytes.length < s.length + state.owed) := by
  -- the literal does not end before its last character
  have inside {rest : List UInt8} (early : (rest ++ byte '"' :: closing).length ≤ closing.length) :
      False := by
    simp only [List.length_append, List.length_cons] at early
    omega
  have escaped {a : UInt8} {rest : List UInt8} {state : Scan} {bytes : List UInt8}
      (ih : ∀ {state : Scan} {bytes : List UInt8},
        scan state (translated node rest ++ byte '"' :: closing) = some (bytes, closing) →
          bytes.length ≤ rest.length + state.owed ∧
            (HasTrigraph rest → bytes.length < rest.length + state.owed))
      (later : HasTrigraph (a :: rest) → HasTrigraph rest)
      (read : scan state (escape node a ++ translated node rest ++ byte '"' :: closing) =
        some (bytes, closing)) :
      bytes.length ≤ (a :: rest).length + state.owed ∧
        (HasTrigraph (a :: rest) → bytes.length < (a :: rest).length + state.owed) := by
    rw [List.append_assoc] at read
    rcases scan_escape_owed read with early | ⟨front, next, more, bound, remaining, rfl⟩
    · exact absurd early inside
    · obtain ⟨at_most, fewer⟩ := ih remaining
      rw [List.length_append, List.length_cons]
      refine ⟨by omega, fun has => ?_⟩
      have := fewer (later has)
      omega
  induction s using translated.induct generalizing state bytes with
  | case1 a b c rest both d special ih =>
      simp only [translated, both, and_self, if_true, special, List.cons_append] at read
      rcases scan_one read with early | ⟨front, next, more, bound, remaining, rfl⟩
      · exact absurd early inside
      · obtain ⟨at_most, -⟩ := ih remaining
        simp only [List.length_append, List.length_cons]
        exact ⟨by omega, fun _ => by omega⟩
  | case2 a b c rest both plain ih =>
      refine escaped ih (fun has => ?_) (by simpa [translated, both, plain] using read)
      rcases hasTrigraph_cons.mp has with ⟨-, x, more, shape, special⟩ | later
      · cases shape
        exact absurd plain special
      · exact later
  | case3 a b c rest apart ih =>
      rw [translated, if_neg apart] at read
      refine escaped ih (fun has => ?_) read
      rcases hasTrigraph_cons.mp has with ⟨question, x, more, shape, -⟩ | later
      · cases shape
        exact absurd ⟨question, rfl⟩ apart
      · exact later
  | case4 a rest short ih =>
      rw [translated] at read
      · refine escaped ih (fun has => ?_) read
        rcases hasTrigraph_cons.mp has with ⟨-, x, more, shape, -⟩ | later
        · exact absurd shape (short _ _ _)
        · exact later
      · exact short
  | case5 =>
      refine ⟨?_, fun has => absurd has not_hasTrigraph_nil⟩
      have bound := scan_last read
      rwa [List.length_nil, Nat.zero_add]

theorem byte_digit {c : Char} (digit : c.isDigit) : byte '?' ≠ byte c := by
  intro same
  simp only [Char.isDigit, Bool.and_eq_true, decide_eq_true_eq, ge_iff_le, UInt32.le_iff_toNat_le]
    at digit
  have small : c.toNat ≤ 57 := digit.2
  have equal := congrArg UInt8.toNat same
  simp only [byte, UInt8.toNat_ofNat'] at equal
  have large : ('?' : Char).toNat = 63 := rfl
  omega

theorem printLength_free (length : Nat) : byte '?' ∉ printLength length := by
  intro member
  obtain ⟨c, digit, same⟩ := List.mem_map.mp member
  exact byte_digit (Nat.isDigit_of_mem_toDigits (by decide) (by decide) digit) same.symm

/-- What the C compiler reads behind the opening quote. -/
theorem stringLiteral_arguments (node : LiteralNode) (s : List UInt8) :
    stringLiteral (replaceTrigraphs (literalArguments node s)) =
      scan .plain (translated node s ++ byte '"' :: (text [',', ' '] ++ printLength s.length)) := by
  have opening : byte '"' ≠ byte '?' := by decide
  have free : byte '?' ∉ text [',', ' '] ++ printLength s.length := by
    rw [List.mem_append, not_or]
    exact ⟨by decide, printLength_free _⟩
  have unchanged : replaceTrigraphs (text [',', ' '] ++ printLength s.length) =
      text [',', ' '] ++ printLength s.length := by
    have := replaceTrigraphs_append free []
    simpa [replaceTrigraphs] using this
  have shape : literalArguments node s = byte '"' ::
      (s.flatMap (escape node) ++ byte '"' :: (text [',', ' '] ++ printLength s.length)) := by
    simp [literalArguments, text]
  rw [shape, replaceTrigraphs_cons opening, replaceTrigraphs_flatMap, unchanged, stringLiteral,
    if_pos rfl]

/-- An unescaped double quote ends the literal early. -/
theorem scan_quote {node : LiteralNode} {s closing : List UInt8} (quoted : byte '"' ∈ s)
    (other : node ≠ .string) :
    scan .plain (s.flatMap (escape node) ++ byte '"' :: closing) ≠ some (s, closing) := by
  obtain ⟨front, back, rfl, fresh⟩ := List.eq_append_cons_of_mem quoted
  have raw : escape node (byte '"') = [byte '"'] := by
    cases node with
    | string => exact absurd rfl other
    | bytes | regexp => rfl
  rw [List.flatMap_append, List.flatMap_cons, raw, List.append_assoc, List.append_assoc,
    List.singleton_append, scan_body fun member => absurd member fresh]
  intro same
  simp at same

/-- The literals that survive the trip through C are those of the byte strings without a trigraph
and, for bytes and regular expressions, without a double quote. -/
theorem literal_survives_iff (node : LiteralNode) (s : List UInt8) :
    Survives node s ↔ ¬ HasTrigraph s ∧ (byte '"' ∈ s → node = .string) := by
  rw [Survives, stringLiteral_arguments]
  constructor
  · intro read
    have free : ¬ HasTrigraph s := fun has =>
      Nat.lt_irrefl _ ((translated_bound read).2 has)
    refine ⟨free, fun member => ?_⟩
    rw [translated_plain node free] at read
    by_contra other
    exact scan_quote member other read
  · rintro ⟨free, inert⟩
    rw [translated_plain node free]
    exact scan_body inert _

/-- The string `what??!` is compiled to one that ends in a bar, and the regular expression of a
double quote to text that is no string literal at all. -/
theorem literals_change :
    ¬ (∀ node s, Survives node s) ∧
      stringLiteral (replaceTrigraphs (literalArguments .string (text ['a', '?', '?', '!']))) =
        some (text ['a', '|'], text [',', ' ', '4']) ∧
      stringLiteral (replaceTrigraphs (literalArguments .regexp (text ['"']))) =
        some ([], text ['"', ',', ' ', '1']) := by
  refine ⟨fun survives => ?_, by decide, by decide⟩
  exact absurd (survives .string (text ['?', '?', '!'])) (by decide)

end Compile
end Pone
