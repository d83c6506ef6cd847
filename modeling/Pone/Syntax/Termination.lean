import Pone.Greg.Termination
import Pone.Syntax.Entry

/-!
# Every parse ends

The rules ranked by what they may enter before they consume a byte.  Only white space, the end of a
statement, `end-of-file` and a whole program may match the empty word.
-/

namespace Pone
namespace Syntax

open Greg

def RuleName.mayBeEmpty : RuleName → Bool
  | .compInit | .eatTerminator | .dash | .endOfFile => true
  | _ => false

def RuleName.rank : RuleName → Nat
  | .compInit => 30
  | .statementlist => 29
  | .statement => 28
  | .normalOrPostfixStmt => 27
  | .normalStmt => 26
  | .expr => 25
  | .looseOrExpr => 24
  | .looseAndExpr => 23
  | .listPrefixExpr => 22
  | .bareArgs | .commaOperatorExpr => 21
  | .looseUnaryExpr => 20
  | .itemAssignmentExpr => 19
  | .conditionalExpr => 18
  | .tightOr => 17
  | .tightAnd => 16
  | .chainingInfixExpr => 15
  | .structuralInfixExpr => 14
  | .namedUnaryExpr => 13
  | .concatenationExpr => 12
  | .replicationExpr => 11
  | .additiveExpr => 10
  | .multiplicativeExpr => 9
  | .symbolicUnary => 8
  | .exponentiationExpr | .params => 7
  | .autoincrementExpr | .param => 6
  | .methodPostfixExpr | .paramTerm => 5
  | .term => 4
  | .pair | .dqStringInner => 3
  | .hashKey | .variable | .dash => 2
  | .attrVars | .whileStmt | .funcall | .klass | .qwList | .lambda | .eatTerminator | .string
  | .regexp | .ws => 1
  | _ => 0

def wellFounded : WellFounded rule where
  empty := RuleName.mayBeEmpty
  rank := RuleName.rank
  closed r := by cases r <;> decide +kernel
  descends r := by cases r <;> decide +kernel
  loops r := by cases r <;> decide +kernel

/-- The bytes that an input has not delivered. -/
def Input.remaining : Input → Nat
  | .string buf pos => buf.length - pos
  | .file rest _ => rest.length

theorem remaining_pvipInput (input : Input) :
    (pvipInput input).2.remaining + (pvipInput input).1.toList.length ≤ input.remaining := by
  cases input with
  | string buf pos =>
      simp only [pvipInput]
      split
      · exact Nat.le_refl _
      · next found =>
          obtain ⟨inside, -⟩ := List.getElem?_eq_some_iff.mp found
          simp only [Input.remaining, Option.toList_some, List.length_singleton]
          omega
  | file rest eof =>
      cases rest with
      | nil => exact Nat.le_refl _
      | cons b rest =>
          simp only [pvipInput]
          split <;> simp [Input.remaining]

theorem look_remaining (pos : Nat) (buffer : Buffer Input) :
    (buffer.look pvipInput pos).2.chars.length + (buffer.look pvipInput pos).2.input.remaining ≤
      buffer.chars.length + buffer.input.remaining := by
  have read := remaining_pvipInput buffer.input
  simp only [Buffer.look]
  split
  · exact Nat.le_refl _
  · split <;> next found =>
      rw [found] at read
      simp at read ⊢
      omega

theorem look_ended {pos last : Nat} {buffer : Buffer Input}
    (here : pos ≤ buffer.chars.length ∧ buffer.chars.length + buffer.input.remaining ≤ last)
    (beyond : last ≤ pos) : (buffer.look pvipInput pos).1 = none := by
  have read := remaining_pvipInput buffer.input
  simp only [Buffer.look]
  split
  · next found =>
      obtain ⟨inside, -⟩ := List.getElem?_eq_some_iff.mp found
      omega
  · split
    · next found =>
        rw [found] at read
        simp only [Option.toList_some, List.length_singleton] at read
        omega
    · rfl

/-- What is in the buffer and what is to come never grows. -/
def inputEnding (last : Nat) : Ending (Buffer.look pvipInput) last where
  holds pos buffer := pos ≤ buffer.chars.length ∧ buffer.chars.length + buffer.input.remaining ≤ last
  keep := fun {p _ buffer} here there =>
    ⟨(withinBuffer pvipInput).keep here.1 there.1, Nat.le_trans (look_remaining p buffer) here.2⟩
  next := fun {p buffer _} here found =>
    ⟨(withinBuffer pvipInput).next here.1 found, Nat.le_trans (look_remaining p buffer) here.2⟩
  ended := look_ended

theorem compInit_ends (input : Input) :
    ∃ fuel result, exec (Buffer.look pvipInput) rule fuel (.name .compInit) .start ⟨[], input⟩ =
      some result := by
  let ending := inputEnding input.remaining
  have now : ending.holds (Cursor.start : Cursor Act).pos ⟨[], input⟩ := ⟨Nat.zero_le _, by simp⟩
  have loops : (Node.name RuleName.compInit : Expr).loopsConsume wellFounded.empty = true := rfl
  obtain ⟨ok, c, buffer, run⟩ := wellFounded.ends ending loops (Nat.zero_le _) now
  obtain ⟨fuel, executed⟩ := run.exists_exec
  exact ⟨fuel, _, executed⟩

/-- Recognition ends on every input.  No rule enters itself before it has consumed a byte, and no body
of a repetition matches without consuming, on whatever input. -/
theorem recognition_ends :
    (∀ input : Input, ∃ fuel result, exec (Buffer.look pvipInput) rule fuel (.name .compInit) .start
      ⟨[], input⟩ = some result) ∧
    ∀ {σ : Type} (look : Nat → σ → Option UInt8 × σ),
      (∀ outer inner : Call RuleName Act σ,
        Relation.TransGen (Call.Makes look rule) outer inner → outer.rule = inner.rule →
          outer.cursor.pos < inner.cursor.pos) ∧
      ∀ (r : RuleName), ∀ body ∈ (rule r).expression.bodies, ∀ (c c' : Cursor Act) (s s' : σ),
        Run look rule body c s true c' s' → c.pos < c'.pos := by
  refine ⟨compInit_ends, fun look => ⟨fun outer inner nested same => ?_, ?_⟩⟩
  · exact reentered_behind wellFounded nested same
  · intro r body member c c' s s' run
    have nonempty := Node.mayBeEmpty_of_mem_bodies (wellFounded.loops r) member
    refine Nat.lt_of_le_of_ne (run.forward rfl) fun stays => ?_
    rw [wellFounded.consumes run rfl stays.symm] at nonempty
    cases nonempty

end Syntax
end Pone
