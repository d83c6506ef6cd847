import Pone.Compile.Resolution

/-!
# When a call gives the savestack back

In every execution of a compiled program, a call or try leaves the savestack as it found it exactly
when nothing inside it left a scope without popping it: no return statement, injected ones included,
no for loop that ran out and no caught exception.
-/

namespace Pone
namespace Compile

section Balance

variable {ν : Type} [DecidableEq ν]

/-- Every call and try that returned, in every execution. -/
theorem returns_balanced (program : Node ν) {cmd : Cmd ν}
    (compiled : compileProgram program = some cmd) (fuel tmpstack : Nat) (choices : List Choice) :
    ∀ ret ∈ (runProgram cmd fuel tmpstack choices).2.returns,
      (ret.after = ret.before ↔ ret.Clean) ∧
        (ret.after.length = ret.before.length ↔ ret.Clean) := by
  intro ret member
  obtain ⟨height, same⟩ :=
    (runProgram_post compiled fuel tmpstack choices).sound.returns ret member
  exact ⟨⟨fun equal => height.mp (congrArg List.length equal), same⟩, height⟩

end Balance

instance (ret : Return) : Decidable ret.Clean := inferInstanceAs (Decidable (_ = _))

/-- `sub f() { my $x = 1; for (…) { last } }; try { f() if … }`. -/
def fallsOff : Node Char :=
  .statements (.func (some (.user 'f')) (.params .done)
    (.block (.statements (.myAssign (.user 'x') .atom)
      (.statements (.forLoop .atom (.block (.statements .last .done))) .done))))
  (.statements (.attempt (.block (.statements
    (.whileLoop .atom (.block (.statements (.funcall (.user 'f') .done)
      (.statements .last .done)))) .done))) .done)

def fallsOffChoices : List Choice :=
  [.holds true, .holds true, .value .other 2, .value .other 1, .holds true]

theorem returns_balanced_fallsOff :
    ∃ cmd, compileProgram fallsOff = some cmd ∧
      (runProgram cmd 30 0 fallsOffChoices).2.returns.length = 3 ∧
      ∀ ret ∈ (runProgram cmd 30 0 fallsOffChoices).2.returns, ret.after = ret.before := by
  refine ⟨_, rfl, by decide, fun ret member => ?_⟩
  refine (returns_balanced fallsOff rfl 30 0 fallsOffChoices ret member).1.mpr ?_
  revert ret
  decide

/-- `sub f() { 1 }; f()`. -/
def implicitReturn : Node Char :=
  .statements (.func (some (.user 'f')) (.params .done) (.block (.statements .atom .done)))
  (.statements (.funcall (.user 'f') .done) .done)

/-- `try { throw }`, where the function `throw` of the runtime throws. -/
def caughtThrow : Node Char :=
  .statements (.attempt (.block (.statements (.forLoop (.op .done) .done) .done))) .done

/-- An injected return leaves the two scopes of the sub on the savestack; a caught exception those of
the try. -/
theorem returns_unbalanced :
    (∃ cmd, compileProgram implicitReturn = some cmd ∧
      ∃ ret ∈ (runProgram cmd 30 0 [.holds true]).2.returns,
        ret.before.length = 0 ∧ ret.after.length = 2) ∧
    ∃ cmd, compileProgram caughtThrow = some cmd ∧
      ∃ ret ∈ (runProgram cmd 30 0 [.throw]).2.returns,
        ret.before.length = 0 ∧ ret.after.length = 2 := by
  refine ⟨⟨_, rfl, ?_⟩, _, rfl, ?_⟩ <;> decide

end Compile
end Pone
