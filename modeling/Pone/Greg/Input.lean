import Mathlib.Data.List.Basic
import Pone.Greg.Simulation

/-!
# The buffer of the parser

`yyrefill` asks `YY_INPUT` for one character when the parser looks at the limit of its buffer, and
asks again at every further look where there was none.  An input that delivers the characters of a
word gives the runs over that word.
-/

namespace Greg

variable {ρ α ι : Type} {rules : ρ → Rule ρ α}

/-- The characters of a word, with the number of positions that were looked at; the position behind
the last character is one of them. -/
def lookWord (w : List UInt8) (pos seen : Nat) : Option UInt8 × Nat :=
  (w[pos]?, max seen (pos + 1))

/-- The buffer up to `G->limit`, and the input. -/
structure Buffer (ι : Type) where
  chars : List UInt8
  input : ι

/-- A look at a position, which is never behind the limit. -/
def Buffer.look (yyInput : ι → Option UInt8 × ι) (pos : Nat) (buffer : Buffer ι) :
    Option UInt8 × Buffer ι :=
  match buffer.chars[pos]? with
  | some b => (some b, buffer)
  | none =>
      match yyInput buffer.input with
      | (some b, input) => (some b, ⟨buffer.chars ++ [b], input⟩)
      | (none, input) => (none, ⟨buffer.chars, input⟩)

/-- The parser is never behind the limit. -/
def withinBuffer (yyInput : ι → Option UInt8 × ι) : Kept (Buffer.look yyInput) where
  holds pos buffer := pos ≤ buffer.chars.length
  keep := by
    intro p q buffer here there
    unfold Buffer.look
    split
    · exact there
    · split
      · simp only [List.length_append]
        omega
      · exact there
  next := by
    intro p buffer b here found
    unfold Buffer.look at found ⊢
    split at found
    · next known =>
        obtain ⟨inside, -⟩ := List.getElem?_eq_some_iff.mp known
        exact inside
    · split at found
      · simp only [List.length_append, List.length_singleton]
        omega
      · cases found

/-- The parser is never behind what it has looked at. -/
def seenWord (w : List UInt8) : Kept (lookWord w) where
  holds pos seen := pos ≤ seen ∧ pos ≤ w.length ∧ seen ≤ w.length + 1
  keep := by
    intro p q s here there
    simp only [lookWord]
    omega
  next := by
    intro p s b here found
    obtain ⟨inside, -⟩ := List.getElem?_eq_some_iff.mp found
    simp only [lookWord]
    omega

/-- An input that delivers the characters of `w`: its states after so many reads, as long as the
number of reads is `fine`. -/
structure Delivery (yyInput : ι → Option UInt8 × ι) (w : List UInt8) where
  state : Nat → ι
  fine : Nat → Prop
  earlier : ∀ {n m}, n ≤ m → fine m → fine n
  reads : ∀ {n}, n ≤ w.length → fine (n + 1) → yyInput (state n) = (w[n]?, state (n + 1))
  again : yyInput (state (w.length + 1)) = (none, state (w.length + 1))

namespace Delivery

variable {yyInput : ι → Option UInt8 × ι} {w : List UInt8} (delivery : Delivery yyInput w)

/-- The buffer after `seen` positions were looked at. -/
def buffer (seen : Nat) : Buffer ι := ⟨w.take seen, delivery.state seen⟩

theorem look_buffer {pos seen : Nat} (reached : pos ≤ seen) (inside : pos ≤ w.length)
    (bounded : seen ≤ w.length + 1) (fine : delivery.fine (max seen (pos + 1))) :
    (delivery.buffer seen).look yyInput pos =
      (w[pos]?, delivery.buffer (max seen (pos + 1))) := by
  have beyond : w.take (w.length + 1) = w := List.take_of_length_le (by omega)
  by_cases known : pos < seen
  · rw [Nat.max_eq_left (by omega)]
    rcases Nat.lt_or_eq_of_le inside with short | rfl
    · simp [Buffer.look, buffer, known, short]
    · obtain rfl : seen = w.length + 1 := by omega
      simp [Buffer.look, buffer, beyond, delivery.again]
  · obtain rfl : pos = seen := by omega
    rw [Nat.max_eq_right (by omega)] at fine ⊢
    have unknown : (w.take pos)[pos]? = none :=
      List.getElem?_eq_none (List.length_take_le pos w)
    have read := delivery.reads inside fine
    simp only [Buffer.look, buffer, unknown]
    cases next : w[pos]? with
    | some b =>
        rw [next] at read
        simp only [read, List.take_add_one, next, Option.toList_some]
    | none =>
        rw [next] at read
        simp only [read, List.take_add_one, next, Option.toList_none, List.append_nil]

/-- Runs over the word are runs over the input. -/
def simulation : Simulation (Buffer.look yyInput) (lookWord w) where
  toKept := seenWord w
  rel buffer seen := buffer = delivery.buffer seen
  good := delivery.fine
  before := fun fine => delivery.earlier (Nat.le_max_left _ _) fine
  step := by
    rintro pos buffer seen rfl ⟨reached, inside, bounded⟩ fine
    rw [delivery.look_buffer reached inside bounded fine]
    exact ⟨rfl, rfl⟩

/-- Runs over the input are runs over the word, where every number of reads is fine. -/
def converse (always : ∀ n, delivery.fine n) :
    Simulation (lookWord w) (Buffer.look yyInput) where
  toKept := withinBuffer yyInput
  rel seen buffer := buffer = delivery.buffer seen ∧ seen ≤ w.length + 1
  good _ := True
  before := fun _ => trivial
  step := by
    rintro pos seen _ ⟨rfl, bounded⟩ within -
    simp only [withinBuffer, buffer, List.length_take, Nat.le_min] at within
    rw [delivery.look_buffer within.1 within.2 bounded (always _)]
    refine ⟨rfl, rfl, ?_⟩
    simp only [lookWord]
    omega

theorem run_of_word {node : Node ρ α} {c : Cursor α} {seen : Nat} {ok : Bool}
    (run : Run (lookWord w) rules node .start 0 ok c seen) (fine : delivery.fine seen) :
    Run (Buffer.look yyInput) rules node .start (delivery.buffer 0) ok c (delivery.buffer seen) := by
  obtain ⟨buffer, run, rfl⟩ := delivery.simulation.run run fine
    ⟨Nat.le_refl _, Nat.zero_le _, Nat.zero_le _⟩ rfl
  exact run

theorem word_of_run {node : Node ρ α} {c : Cursor α} {buffer : Buffer ι} {ok : Bool}
    (run : Run (Buffer.look yyInput) rules node .start (delivery.buffer 0) ok c buffer)
    (always : ∀ n, delivery.fine n) :
    ∃ seen, Run (lookWord w) rules node .start 0 ok c seen ∧ buffer = delivery.buffer seen := by
  obtain ⟨seen, run, same, -⟩ := (delivery.converse always).run run trivial (Nat.zero_le _)
    ⟨rfl, Nat.zero_le _⟩
  exact ⟨seen, run, same⟩

end Delivery

end Greg
