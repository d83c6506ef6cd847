import Pone.Decimal
import Pone.Syntax.Number

/-!
# Literals with a fraction or an exponent

`PVIP_node_new_number` hands the text to `strtod`, and the compiler prints what it gives with `%f`,
which writes six decimals.
-/

namespace Pone
namespace Syntax

open Greg
open Binary64 (Double Representable nearest)

/-! ## The node and its code -/

/-- `node->nv` of `PVIP_node_new_number`, which is what `strtod` makes of a text without a sign;
`none` is its overflow. -/
def newNumber (str : List UInt8) : Option Double := nearest (Decimal.value str) (Decimal.value_nonneg str)

/-- A `double` printed with `%f`. -/
def percentF : Option Double → List UInt8
  | some nv => Decimal.fixed 6 nv.value
  | none => bytes "inf"

/-- The code for a `PVIP_NODE_NUMBER`. -/
def compileNumber (nv : Option Double) : List UInt8 :=
  bytes "pone_num_new(world, " ++ percentF nv ++ bytes ")"

/-! ## The literals -/

/-- The number literals of `dec_number`. -/
inductive NumberLiteral where
  | scientific (whole : Spell "0-9") (fraction : Option (Spell "0-9")) (negative : Bool)
      (exponent : Spell "0-9")
  /-- A point in front. -/
  | point (fraction : Spell "0-9")
  | decimal (whole fraction : Spell "0-9")

namespace NumberLiteral

def signText (negative : Bool) : List UInt8 := if negative then bytes "-" else []

def fractionText : Option (Spell "0-9") → List UInt8
  | some fraction => bytes "." ++ fraction.chars
  | none => []

def text : NumberLiteral → List UInt8
  | .scientific whole fraction negative exponent =>
      whole.chars ++ fractionText fraction ++ bytes "e" ++ signText negative ++ exponent.chars
  | .point fraction => bytes "." ++ fraction.chars
  | .decimal whole fraction => whole.chars ++ bytes "." ++ fraction.chars

/-- The value of the digits behind the point. -/
def fractionValue (digits : List UInt8) : ℚ := Decimal.number digits / 10 ^ digits.length

/-- The exact value. -/
def denotes : NumberLiteral → ℚ
  | .scientific whole fraction negative exponent =>
      (Decimal.number whole.chars + (fraction.map fun f => fractionValue f.chars).getD 0) *
        10 ^ (if negative then -(Decimal.number exponent.chars : ℤ) else Decimal.number exponent.chars)
  | .point fraction => fractionValue fraction.chars
  | .decimal whole fraction => Decimal.number whole.chars + fractionValue fraction.chars

end NumberLiteral

theorem isDigit_of_charClass (b : UInt8) : charClass "0-9" b = true → Decimal.isDigit b = true := by
  revert b
  refine forall_byte ?_
  decide +kernel

theorem Spell.isDigit (spell : Spell "0-9") : ∀ b ∈ spell.chars, Decimal.isDigit b = true :=
  fun b member => isDigit_of_charClass b (spell.inClass b member)

theorem bytes_point : bytes "." = [46] := by decide

theorem bytes_e : bytes "e" = [101] := by decide

theorem signText_eq (negative : Bool) :
    NumberLiteral.signText negative = if negative then [45] else [] := by
  cases negative <;> decide

/-- `strtod` reads the whole text. -/
theorem value_text (literal : NumberLiteral) : Decimal.value literal.text = literal.denotes := by
  cases literal with
  | scientific whole fraction negative exponent =>
      have stops : ∀ b ∈ (101 :: (NumberLiteral.signText negative ++ exponent.chars)).head?,
          Decimal.isDigit b = false := by
        intro b found
        cases found
        decide
      have read := Decimal.exponent_eq negative exponent.nonempty exponent.isDigit
      rw [← signText_eq] at read
      rw [NumberLiteral.denotes, ← read]
      cases fraction with
      | none =>
          have parts : (NumberLiteral.scientific whole none negative exponent).text =
              whole.chars ++ (101 :: (NumberLiteral.signText negative ++ exponent.chars)) := by
            simp [NumberLiteral.text, NumberLiteral.fractionText, bytes_e]
          rw [parts, Decimal.value_whole whole.isDigit stops (by simp), Option.map_none,
            Option.getD_none, add_zero]
      | some fraction =>
          have parts : (NumberLiteral.scientific whole (some fraction) negative exponent).text =
              whole.chars ++ 46 :: (fraction.chars ++
                (101 :: (NumberLiteral.signText negative ++ exponent.chars))) := by
            simp [NumberLiteral.text, NumberLiteral.fractionText, bytes_e, bytes_point]
          rw [parts, Decimal.value_point whole.isDigit fraction.isDigit stops]
          rfl
  | point fraction =>
      have parts : (NumberLiteral.point fraction).text = [] ++ 46 :: (fraction.chars ++ []) := by
        simp [NumberLiteral.text, bytes_point]
      rw [parts, Decimal.value_point (by simp) fraction.isDigit (by simp)]
      simp [NumberLiteral.denotes, NumberLiteral.fractionValue, Decimal.exponent, Decimal.number,
        Decimal.numberFrom]
  | decimal whole fraction =>
      have parts : (NumberLiteral.decimal whole fraction).text =
          whole.chars ++ 46 :: (fraction.chars ++ []) := by
        simp [NumberLiteral.text, bytes_point]
      rw [parts, Decimal.value_point whole.isDigit fraction.isDigit (by simp)]
      simp [NumberLiteral.denotes, NumberLiteral.fractionValue, Decimal.exponent]

/-! ## What is printed -/

/-- A literal with an exact value keeps it in the code exactly when it has at most six decimals. -/
theorem numberLiteral_kept_iff (literal : NumberLiteral) (rep : Representable literal.denotes) :
    ∃ text, compileNumber (newNumber literal.text) =
        bytes "pone_num_new(world, " ++ text ++ bytes ")" ∧
      (Decimal.value text = literal.denotes ↔ ∃ n : ℤ, literal.denotes * 10 ^ 6 = n) := by
  refine ⟨_, rfl, ?_⟩
  have nonneg : 0 ≤ literal.denotes := value_text literal ▸ Decimal.value_nonneg _
  have read : newNumber literal.text = some ⟨literal.denotes, rep⟩ := by
    unfold newNumber
    simp only [value_text]
    exact Binary64.nearest_of_representable rep nonneg
  rw [read]
  exact Decimal.value_fixed_eq_iff nonneg

/-- `1.5` -/
def onePointFive : NumberLiteral :=
  .decimal ⟨[49], by decide, by decide +kernel⟩ ⟨[53], by decide, by decide +kernel⟩

/-- Two to the power of minus seven. -/
def sevenPlaces : NumberLiteral :=
  .decimal ⟨[48], by decide, by decide +kernel⟩
    ⟨[48, 48, 55, 56, 49, 50, 53], by decide, by decide +kernel⟩

theorem denotes_onePointFive : onePointFive.denotes = 3 / 2 := by
  have whole : Decimal.number [49] = 1 := by decide
  have fraction : Decimal.number [53] = 5 := by decide
  norm_num [onePointFive, NumberLiteral.denotes, NumberLiteral.fractionValue, whole, fraction]

theorem denotes_sevenPlaces : sevenPlaces.denotes = 1 / 128 := by
  have whole : Decimal.number [48] = 0 := by decide
  have fraction : Decimal.number [48, 48, 55, 56, 49, 50, 53] = 78125 := by decide
  norm_num [sevenPlaces, NumberLiteral.denotes, NumberLiteral.fractionValue, whole, fraction]

theorem numberLiteral_kept_iff_onePointFive :
    ∃ text, compileNumber (newNumber onePointFive.text) =
        bytes "pone_num_new(world, " ++ text ++ bytes ")" ∧
      Decimal.value text = onePointFive.denotes := by
  have rep : Representable onePointFive.denotes := by
    refine ⟨3, -1, by norm_num, by norm_num, by norm_num, ?_⟩
    norm_num [denotes_onePointFive]
  obtain ⟨text, code, kept⟩ := numberLiteral_kept_iff onePointFive rep
  refine ⟨text, code, kept.mpr ⟨1500000, ?_⟩⟩
  norm_num [denotes_onePointFive]

/-- A literal with seven decimals that is a `double`: six of them are printed. -/
theorem sevenPlaces_changed :
    Representable sevenPlaces.denotes ∧
      compileNumber (newNumber sevenPlaces.text) =
        bytes "pone_num_new(world, " ++ Decimal.fixed 6 sevenPlaces.denotes ++ bytes ")" ∧
      Decimal.value (Decimal.fixed 6 sevenPlaces.denotes) ≠ sevenPlaces.denotes := by
  have rep : Representable sevenPlaces.denotes := by
    refine ⟨1, -7, by norm_num, by norm_num, by norm_num, ?_⟩
    norm_num [denotes_sevenPlaces]
  have nonneg : 0 ≤ sevenPlaces.denotes := by norm_num [denotes_sevenPlaces]
  refine ⟨rep, ?_, fun same => ?_⟩
  · unfold newNumber
    simp only [value_text, Binary64.nearest_of_representable rep nonneg]
    rfl
  · obtain ⟨n, whole⟩ := (Decimal.value_fixed_eq_iff nonneg).mp same
    rw [denotes_sevenPlaces] at whole
    have doubled : (15625 : ℤ) = 2 * n := by
      have : (15625 : ℚ) = 2 * n := by
        rw [← whole]
        norm_num
      exact_mod_cast this
    omega

/-! ## The literals that the grammar reads -/

section Matches

variable {w : List UInt8} {c c' : Cursor Act} {seen seen' : Nat}

/-- A match reads the literal: it matches its text, and its action makes the node of the text. -/
structure ReadsNumber (w : List UInt8) (c c' : Cursor Act) (literal : NumberLiteral) : Prop where
  text : yyText w c.pos c'.pos = literal.text
  actions : ∃ added, c'.thunks = added ++ c.thunks ∧ ∀ m : Vm,
    (yyDone w added m).map Machine.ss = some (some (.number .number literal.text))

private theorem digits_passed (run : ReadsWord w (.plus (cls "0-9")) c seen true c' seen') :
    ∃ spell : Spell "0-9", Run.Passed w c c' spell.chars := by
  obtain ⟨text, passed, nonempty, all⟩ := run.plus_passed
  exact ⟨⟨text, nonempty, all⟩, passed⟩

private theorem optional_passed {node : Expr} (plain : node.Plain)
    (run : ReadsWord w (.query node) c seen true c' seen') :
    ReadsWord w node c seen true c' seen' ∨ c' = c := by
  cases run with
  | query passed => exact .inl passed
  | query_skip failed => exact .inr (failed.restore_plain plain)

/-- A marked text and the action on it. -/
private theorem readsNumber_of_marked {nodes : List Expr}
    (inner : ∀ {d d' : Cursor Act} {s s' : Nat}, ReadsWord w (seq nodes) d s true d' s' →
      ∃ literal : NumberLiteral, Run.Passed w d d' literal.text)
    {e : Cursor Act} (run : ReadsWord w (seq [marked nodes, gives (number .number)]) e seen true c'
      seen') (here : e.pos = c.pos) (entered : e.thunks = c.thunks) :
    ∃ literal, ReadsNumber w c c' literal := by
  cases run with
  | sequence read last =>
  cases last
  cases read with
  | sequence opened run =>
  cases opened
  cases run with
  | @sequence _ _ _ _ d _ _ _ _ read closed =>
  cases closed
  obtain ⟨literal, moved, forward, text⟩ := inner read
  rw [here] at text
  refine ⟨literal, text, [.action (give (number .number)) c.pos d.pos], ?_, fun m => ?_⟩
  · rw [moved, here, ← entered]
    rfl
  · have node : yyText w c.pos d.pos = literal.text := text
    simp only [yyDone, List.reverse_singleton, List.foldlM_cons, List.foldlM_nil, Thunk.run, give,
      number, node, Option.bind_eq_bind, Option.bind_some]
    rfl

private theorem scientific_passed
    (run : ReadsWord w (seq [.plus (cls "0-9"), opt [lit ".", .plus (cls "0-9")], lit "e",
      opt [lit "-"], .plus (cls "0-9")]) c seen true c' seen') :
    ∃ literal : NumberLiteral, Run.Passed w c c' literal.text := by
  cases run with
  | @sequence _ _ _ _ c₁ _ _ _ _ whole run =>
  cases run with
  | @sequence _ _ _ _ c₂ _ _ _ _ fraction run =>
  cases run with
  | @sequence _ _ _ _ c₃ _ _ _ _ letter run =>
  cases run with
  | @sequence _ _ _ _ c₄ _ _ _ _ sign exponent =>
  obtain ⟨whole, whole_passed⟩ := digits_passed whole
  obtain ⟨exponent, exponent_passed⟩ := digits_passed exponent
  have fraction_read : ∃ fraction, Run.Passed w c₁ c₂ (NumberLiteral.fractionText fraction) := by
    rcases optional_passed (by simp [seq, lit, cls, Node.Plain]) fraction with read | rfl
    · cases read with
      | sequence point digits =>
      obtain ⟨digits, digits_passed⟩ := digits_passed digits
      exact ⟨some digits, point.string_word.append digits_passed⟩
    · exact ⟨none, Run.Passed.self⟩
  have sign_read : ∃ negative, Run.Passed w c₃ c₄ (NumberLiteral.signText negative) := by
    rcases optional_passed (by simp [seq, lit, Node.Plain]) sign with read | rfl
    · exact ⟨true, read.string_word⟩
    · exact ⟨false, Run.Passed.self⟩
  obtain ⟨fraction, fraction_passed⟩ := fraction_read
  obtain ⟨negative, sign_passed⟩ := sign_read
  exact ⟨.scientific whole fraction negative exponent,
    (((whole_passed.append fraction_passed).append letter.string_word).append sign_passed).append
      exponent_passed⟩

private theorem point_byte (b : UInt8) : charClass "." b = true → b = 46 := by
  revert b
  refine forall_byte ?_
  decide +kernel

private theorem point_passed (run : ReadsWord w (seq [cls ".", .plus (cls "0-9")]) c seen true c' seen') :
    ∃ literal : NumberLiteral, Run.Passed w c c' literal.text := by
  cases run with
  | sequence point digits =>
  obtain ⟨b, here, in_class, rfl⟩ := point.cclass_passes
  obtain ⟨digits, passed⟩ := digits_passed digits
  rw [point_byte b in_class] at here
  have first : Run.Passed w c c.advance (bytes ".") := by
    refine ⟨rfl, Nat.le_succ _, ?_⟩
    rw [bytes_point]
    exact yyText_succ here
  exact ⟨.point digits, first.append passed⟩

private theorem decimal_passed
    (run : ReadsWord w (seq [.plus (cls "0-9"), lit ".", .plus (cls "0-9")]) c seen true c' seen') :
    ∃ literal : NumberLiteral, Run.Passed w c c' literal.text := by
  cases run with
  | sequence whole run =>
  cases run with
  | sequence point fraction =>
  obtain ⟨whole, whole_passed⟩ := digits_passed whole
  obtain ⟨fraction, fraction_passed⟩ := digits_passed fraction
  exact ⟨.decimal whole fraction,
    (whole_passed.append point.string_word).append fraction_passed⟩

/-- A match of `dec_number` is digits and underscores or reads a number literal. -/
theorem decNumber_readsNumber (run : ReadsWord w (.name .decNumber) c seen true c' seen') :
    (∀ b ∈ yyText w c.pos c'.pos, charClass "0-9_" b = true) ∨
      ∃ literal, ReadsNumber w c c' literal := by
  cases run with
  | name body =>
  cases body with
  | alternate passed => exact .inr (readsNumber_of_marked scientific_passed passed rfl rfl)
  | alternate_next _ next =>
  cases next with
  | alternate passed => exact .inr (readsNumber_of_marked point_passed passed rfl rfl)
  | alternate_next _ next =>
  cases next with
  | alternate passed => exact .inr (readsNumber_of_marked decimal_passed passed rfl rfl)
  | alternate_next _ passed =>
      cases passed with
      | sequence read last =>
      cases last
      obtain ⟨moved, forward, digits, text⟩ := marked_digits read
      have same : digits.chars = yyText w c.pos _ := text
      refine .inl fun b member => digits.inClass b ?_
      rw [same]
      exact member

end Matches

end Syntax
end Pone
