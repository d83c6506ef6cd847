import Mathlib.Data.List.Infix

/-!
# String literals of C99

Translation phase 1 replaces trigraphs; a string literal is then read character by character, with
the simple, octal, hexadecimal and universal-character escape sequences.  `scan` gives the bytes that
the literal stands for and the text behind its closing quote, and `none` where the text is no string
literal.  The execution character set is UTF-8, and a byte that is no part of an escape sequence
stands for itself.  A text that is read has no line splices.
-/

namespace CLexer

/-- The byte of an ASCII character. -/
def byte (c : Char) : UInt8 := UInt8.ofNat c.toNat

/-- What `??` and a third character stand for. -/
def trigraph (b : UInt8) : Option UInt8 :=
  if b = byte '=' then some (byte '#')
  else if b = byte '(' then some (byte '[')
  else if b = byte '/' then some (byte '\\')
  else if b = byte ')' then some (byte ']')
  else if b = byte '\'' then some (byte '^')
  else if b = byte '<' then some (byte '{')
  else if b = byte '!' then some (byte '|')
  else if b = byte '>' then some (byte '}')
  else if b = byte '-' then some (byte '~')
  else none

/-- Translation phase 1. -/
def replaceTrigraphs : List UInt8 → List UInt8
  | a :: b :: c :: rest =>
      if a = byte '?' ∧ b = byte '?' then
        match trigraph c with
        | some d => d :: replaceTrigraphs rest
        | none => a :: replaceTrigraphs (b :: c :: rest)
      else
        a :: replaceTrigraphs (b :: c :: rest)
  | short => short

/-- Where a reader is in a string literal. -/
inductive Scan where
  | plain
  /-- After a backslash. -/
  | escape
  /-- In an octal escape sequence, after so many digits. -/
  | octal (digits value : Nat)
  | hex (value : Option Nat)
  /-- In a universal character name, with so many digits to come. -/
  | ucn (digits value : Nat)
  deriving DecidableEq

/-- The simple escape sequences. -/
def simpleEscape (b : UInt8) : Option UInt8 :=
  if b = byte '\'' ∨ b = byte '"' ∨ b = byte '?' ∨ b = byte '\\' then some b
  else if b = byte 'a' then some 7
  else if b = byte 'b' then some 8
  else if b = byte 'f' then some 12
  else if b = byte 'n' then some 10
  else if b = byte 'r' then some 13
  else if b = byte 't' then some 9
  else if b = byte 'v' then some 11
  else none

def octalDigit (b : UInt8) : Option Nat :=
  if byte '0' ≤ b ∧ b ≤ byte '7' then some (b - byte '0').toNat else none

def hexDigit (b : UInt8) : Option Nat :=
  if byte '0' ≤ b ∧ b ≤ byte '9' then some (b - byte '0').toNat
  else if byte 'a' ≤ b ∧ b ≤ byte 'f' then some ((b - byte 'a').toNat + 10)
  else if byte 'A' ≤ b ∧ b ≤ byte 'F' then some ((b - byte 'A').toNat + 10)
  else none

/-- The bytes of a universal character name; the names that the standard excludes have none. -/
def universal (value : Nat) : Option (List UInt8) :=
  if (value < 0xA0 ∧ value ≠ 0x24 ∧ value ≠ 0x40 ∧ value ≠ 0x60) ∨
      (0xD800 ≤ value ∧ value ≤ 0xDFFF) ∨ 0x10FFFF < value then
    none
  else if value < 0x80 then
    some [.ofNat value]
  else if value < 0x800 then
    some [.ofNat (0xC0 + value / 64), .ofNat (0x80 + value % 64)]
  else if value < 0x10000 then
    some [.ofNat (0xE0 + value / 4096), .ofNat (0x80 + value / 64 % 64), .ofNat (0x80 + value % 64)]
  else
    some [.ofNat (0xF0 + value / 262144), .ofNat (0x80 + value / 4096 % 64),
      .ofNat (0x80 + value / 64 % 64), .ofNat (0x80 + value % 64)]

/-- Read a byte outside the escape sequences; the next state is `none` behind the closing quote. -/
def plainStep (b : UInt8) : Option (List UInt8 × Option Scan) :=
  if b = byte '"' then some ([], none)
  else if b = byte '\n' then none
  else if b = byte '\\' then some ([], some .escape)
  else some ([b], some .plain)

/-- A numeric escape sequence ends before a byte that cannot continue it. -/
def endNumber (value : Nat) (b : UInt8) : Option (List UInt8 × Option Scan) :=
  if value < 256 then
    (plainStep b).map fun next => (.ofNat value :: next.1, next.2)
  else
    none

/-- Read one byte. -/
def scanStep : Scan → UInt8 → Option (List UInt8 × Option Scan)
  | .plain, b => plainStep b
  | .escape, b =>
      match simpleEscape b with
      | some c => some ([c], some .plain)
      | none =>
          match octalDigit b with
          | some d => some ([], some (.octal 1 d))
          | none =>
              if b = byte 'x' then some ([], some (.hex none))
              else if b = byte 'u' then some ([], some (.ucn 4 0))
              else if b = byte 'U' then some ([], some (.ucn 8 0))
              else none
  | .octal digits value, b =>
      match octalDigit b with
      | some d =>
          if digits < 3 then some ([], some (.octal (digits + 1) (8 * value + d)))
          else endNumber value b
      | none => endNumber value b
  | .hex value, b =>
      match hexDigit b, value with
      | some d, _ => some ([], some (.hex (some (16 * value.getD 0 + d))))
      | none, some value => endNumber value b
      | none, none => none
  | .ucn digits value, b =>
      match hexDigit b, digits with
      | some d, 1 => (universal (16 * value + d)).map fun bytes => (bytes, some .plain)
      | some d, digits + 2 => some ([], some (.ucn (digits + 1) (16 * value + d)))
      | _, _ => none

/-- Read a string literal from some state on. -/
def scan : Scan → List UInt8 → Option (List UInt8 × List UInt8)
  | _, [] => none
  | state, b :: rest =>
      match scanStep state b with
      | none => none
      | some (bytes, none) => some (bytes, rest)
      | some (bytes, some state) => (scan state rest).map fun (more, left) => (bytes ++ more, left)

/-- The string literal at the head of a text. -/
def stringLiteral : List UInt8 → Option (List UInt8 × List UInt8)
  | [] => none
  | b :: rest => if b = byte '"' then scan .plain rest else none

/-! ## Trigraphs -/

/-- A trigraph stands somewhere in the text. -/
def HasTrigraph (text : List UInt8) : Prop :=
  ∃ c, trigraph c ≠ none ∧ [byte '?', byte '?', c] <:+: text

theorem replaceTrigraphs_cons {b : UInt8} (different : b ≠ byte '?') (rest : List UInt8) :
    replaceTrigraphs (b :: rest) = b :: replaceTrigraphs rest := by
  match rest with
  | [] => rfl
  | [_] => rfl
  | _ :: _ :: _ => rw [replaceTrigraphs, if_neg fun same => different same.1]

theorem replaceTrigraphs_question {rest : List UInt8}
    (free : ∀ c more, rest = byte '?' :: c :: more → trigraph c = none) :
    replaceTrigraphs (byte '?' :: rest) = byte '?' :: replaceTrigraphs rest := by
  match rest with
  | [] => rfl
  | [_] => rfl
  | b :: c :: more =>
      rw [replaceTrigraphs]
      split
      · rename_i both
        rw [free c more (by rw [both.2])]
      · rfl

theorem hasTrigraph_cons {b : UInt8} {rest : List UInt8} :
    HasTrigraph (b :: rest) ↔
      (b = byte '?' ∧ ∃ c more, rest = byte '?' :: c :: more ∧ trigraph c ≠ none) ∨
        HasTrigraph rest := by
  simp only [HasTrigraph, List.infix_cons_iff]
  constructor
  · rintro ⟨c, special, ⟨more, front⟩ | inside⟩
    · simp only [List.cons_append, List.nil_append, List.cons.injEq] at front
      obtain ⟨rfl, rfl⟩ := front
      exact .inl ⟨rfl, c, more, rfl, special⟩
    · exact .inr ⟨c, special, inside⟩
  · rintro (⟨rfl, c, more, rfl, special⟩ | ⟨c, special, inside⟩)
    · exact ⟨c, special, .inl ⟨more, rfl⟩⟩
    · exact ⟨c, special, .inr inside⟩

theorem not_hasTrigraph_nil : ¬ HasTrigraph [] := by
  rintro ⟨c, -, front, back, same⟩
  simp at same

theorem replaceTrigraphs_append {front : List UInt8} (free : byte '?' ∉ front)
    (rest : List UInt8) : replaceTrigraphs (front ++ rest) = front ++ replaceTrigraphs rest := by
  induction front with
  | nil => rfl
  | cons b front ih =>
      obtain ⟨different, free⟩ := List.ne_and_not_mem_of_not_mem_cons free
      rw [List.cons_append, replaceTrigraphs_cons (Ne.symm different), ih free, List.cons_append]

/-! ## How many bytes a literal can stand for -/

/-- The bytes that a state may give beyond one for each character that is still to be read. -/
def Scan.owed : Scan → Nat
  | .plain => 0
  | .escape | .octal _ _ | .hex _ => 1
  | .ucn digits _ => 4 - digits

theorem plainStep_owed {b : UInt8} {bytes : List UInt8} {next : Option Scan}
    (read : plainStep b = some (bytes, next)) :
    bytes.length + (next.map Scan.owed).getD 0 ≤ 1 := by
  unfold plainStep at read
  split at read
  · cases read
    exact Nat.zero_le 1
  · split at read
    · cases read
    · split at read <;> cases read <;> exact Nat.le_refl 1

theorem endNumber_owed {value : Nat} {b : UInt8} {bytes : List UInt8} {next : Option Scan}
    (read : endNumber value b = some (bytes, next)) :
    bytes.length + (next.map Scan.owed).getD 0 ≤ 2 := by
  unfold endNumber at read
  split at read
  · obtain ⟨⟨more, next⟩, plain, same⟩ := Option.map_eq_some_iff.mp read
    cases same
    have bound := plainStep_owed plain
    simp only [List.length_cons]
    omega
  · cases read

theorem universal_length {value : Nat} {bytes : List UInt8} (read : universal value = some bytes) :
    bytes.length ≤ 4 := by
  unfold universal at read
  split at read
  · cases read
  · split at read
    · cases read
      simp
    · split at read
      · cases read
        simp
      · split at read <;> cases read <;> simp

/-- A byte is given for each character that is read, and what a state owes. -/
theorem scanStep_owed {state : Scan} {b : UInt8} {bytes : List UInt8} {next : Option Scan}
    (read : scanStep state b = some (bytes, next)) :
    bytes.length + (next.map Scan.owed).getD 0 ≤ state.owed + 1 := by
  cases state with
  | plain => exact plainStep_owed read
  | escape =>
      simp only [scanStep] at read
      split at read
      · cases read
        exact Nat.le_succ 1
      · split at read
        · cases read
          exact Nat.le_succ 1
        · split at read
          · cases read
            exact Nat.le_succ 1
          · split at read
            · cases read
              exact Nat.zero_le 2
            · split at read <;> cases read
              exact Nat.zero_le 2
  | octal digits value =>
      simp only [scanStep] at read
      split at read
      · split at read
        · cases read
          exact Nat.le_succ 1
        · exact endNumber_owed read
      · exact endNumber_owed read
  | hex value =>
      simp only [scanStep] at read
      split at read
      · cases read
        exact Nat.le_succ 1
      · exact endNumber_owed read
      · cases read
  | ucn digits value =>
      simp only [scanStep] at read
      split at read
      · obtain ⟨out, universal_read, same⟩ := Option.map_eq_some_iff.mp read
        cases same
        have bound := universal_length universal_read
        simp only [Option.map_some, Option.getD_some, Scan.owed]
        omega
      · cases read
        simp only [List.length_nil, Option.map_some, Option.getD_some, Scan.owed]
        omega
      · cases read

/-- A literal ends in front of the text, or goes on with it from another state. -/
theorem scan_cons {state : Scan} {b : UInt8} {rest bytes left : List UInt8}
    (read : scan state (b :: rest) = some (bytes, left)) :
    left = rest ∨ ∃ front next more, scanStep state b = some (front, some next) ∧
      scan next rest = some (more, left) ∧ bytes = front ++ more := by
  rw [scan] at read
  split at read
  · cases read
  · cases read
    exact .inl rfl
  · rename_i front next stepped
    obtain ⟨⟨more, left⟩, scanned, same⟩ := Option.map_eq_some_iff.mp read
    cases same
    exact .inr ⟨front, next, more, stepped, scanned, rfl⟩

theorem scan_next {state next : Scan} {b : UInt8} {front : List UInt8}
    (read : scanStep state b = some (front, some next)) (rest : List UInt8) :
    scan state (b :: rest) =
      (scan next rest).map fun (more, left) => (front ++ more, left) := by
  rw [scan, read]

/-- A backslash ends what was read before it and starts an escape sequence, or ends one. -/
theorem scanStep_backslash {state next : Scan} {front : List UInt8}
    (read : scanStep state (byte '\\') = some (front, some next)) :
    front.length ≤ state.owed ∧ (next = .escape ∨ next = .plain) := by
  have number {value : Nat} (read : endNumber value (byte '\\') = some (front, some next)) :
      front.length ≤ 1 ∧ (next = .escape ∨ next = .plain) := by
    unfold endNumber at read
    split at read
    · cases read
      exact ⟨Nat.le_refl 1, .inl rfl⟩
    · cases read
  cases state with
  | plain =>
      cases read
      exact ⟨Nat.le_refl 0, .inl rfl⟩
  | escape =>
      cases read
      exact ⟨Nat.le_refl 1, .inr rfl⟩
  | octal digits value => exact number read
  | hex value =>
      cases value with
      | none => cases read
      | some value => exact number read
  | ucn digits value => cases read

/-- A simple escape sequence gives one byte, wherever the reader stands. -/
theorem scan_pair {state : Scan} {b : UInt8} {rest bytes left : List UInt8}
    (simple : simpleEscape b ≠ none)
    (read : scan state (byte '\\' :: b :: rest) = some (bytes, left)) :
    rest.length ≤ left.length ∨ ∃ front next more, front.length + next.owed ≤ state.owed + 1 ∧
      scan next rest = some (more, left) ∧ bytes = front ++ more := by
  rcases scan_cons read with rfl | ⟨front, middle, more, first, escaped, rfl⟩
  · exact .inl (Nat.le_succ _)
  obtain ⟨bound, at_middle⟩ := scanStep_backslash first
  rcases scan_cons escaped with rfl | ⟨second, next, last, stepped, remaining, rfl⟩
  · exact .inl (Nat.le_refl _)
  refine .inr ⟨front ++ second, next, last, ?_, remaining, (List.append_assoc ..).symm⟩
  rw [List.length_append]
  rcases at_middle with rfl | rfl
  · obtain ⟨c, simple⟩ := Option.ne_none_iff_exists'.mp simple
    simp only [scanStep, simple, Option.some.injEq, Prod.mk.injEq] at stepped
    obtain ⟨rfl, rfl⟩ := stepped
    rw [List.length_singleton, show Scan.plain.owed = 0 from rfl]
    omega
  · have plain := plainStep_owed stepped
    simp only [Option.map_some, Option.getD_some] at plain
    omega

/-- One character gives at most one byte and what its state owes. -/
theorem scan_one {state : Scan} {b : UInt8} {rest bytes left : List UInt8}
    (read : scan state (b :: rest) = some (bytes, left)) :
    rest.length ≤ left.length ∨ ∃ front next more, front.length + next.owed ≤ state.owed + 1 ∧
      scan next rest = some (more, left) ∧ bytes = front ++ more := by
  rcases scan_cons read with rfl | ⟨front, next, more, stepped, remaining, rfl⟩
  · exact .inl (Nat.le_refl _)
  · exact .inr ⟨front, next, more, scanStep_owed stepped, remaining, rfl⟩

/-- The character that closes a literal gives no byte of its own. -/
theorem scanStep_last {state : Scan} {b : UInt8} {bytes : List UInt8}
    (read : scanStep state b = some (bytes, none)) : bytes.length ≤ state.owed := by
  have plain {bytes : List UInt8} (read : plainStep b = some (bytes, none)) : bytes = [] := by
    unfold plainStep at read
    split at read
    · cases read
      rfl
    · split at read
      · cases read
      · split at read <;> cases read
  have number {value : Nat} (read : endNumber value b = some (bytes, none)) : bytes.length ≤ 1 := by
    unfold endNumber at read
    split at read
    · obtain ⟨⟨more, next⟩, closing, same⟩ := Option.map_eq_some_iff.mp read
      cases same
      rw [plain closing]
      exact Nat.le_refl 1
    · cases read
  cases state with
  | plain =>
      rw [plain read]
      exact Nat.zero_le _
  | escape =>
      simp only [scanStep] at read
      split at read
      · cases read
      · split at read
        · cases read
        · split at read
          · cases read
          · split at read
            · cases read
            · split at read <;> cases read
  | octal digits value =>
      simp only [scanStep] at read
      split at read
      · split at read
        · cases read
        · exact number read
      · exact number read
  | hex value =>
      simp only [scanStep] at read
      split at read
      · cases read
      · exact number read
      · cases read
  | ucn digits value =>
      simp only [scanStep] at read
      split at read
      · obtain ⟨out, -, same⟩ := Option.map_eq_some_iff.mp read
        cases same
      · cases read
      · cases read

theorem scan_length {state : Scan} {source bytes left : List UInt8}
    (read : scan state source = some (bytes, left)) : left.length < source.length := by
  induction source generalizing state bytes with
  | nil => cases read
  | cons b rest ih =>
      rcases scan_cons read with rfl | ⟨front, next, more, -, remaining, -⟩
      · exact Nat.lt_succ_self _
      · exact Nat.lt_succ_of_lt (ih remaining)

/-- A literal that ends with its last character. -/
theorem scan_last {state : Scan} {b : UInt8} {rest bytes : List UInt8}
    (read : scan state (b :: rest) = some (bytes, rest)) : bytes.length ≤ state.owed := by
  rw [scan] at read
  split at read
  · cases read
  · rename_i stepped
    cases read
    exact scanStep_last stepped
  · obtain ⟨⟨more, left⟩, scanned, same⟩ := Option.map_eq_some_iff.mp read
    cases same
    exact absurd (scan_length scanned) (Nat.lt_irrefl _)

end CLexer
