import Pone.Compile.Sound

/-!
# Names resolve at run time as they do in the source

In every execution of a compiled program, every regular write sets the binding of the innermost
enclosing declaration, and `pone_get_lex` reads the same binding.
-/

namespace Pone
namespace Compile

section Resolution

variable {ν : Type}

theorem start_ready (tmpstack : Nat) (choices : List Choice) :
    Ready [0] none (start tmpstack choices : World ν) where
  sound := ⟨Nat.zero_lt_one, nofun, nofun, nofun, nofun⟩
  chain _ := ⟨rfl, rfl⟩
  room := nofun

variable [DecidableEq ν]

/-- The execution of a compiled program from its start. -/
def runProgram (cmd : Cmd ν) (fuel tmpstack : Nat) (choices : List Choice) : Outcome × World ν :=
  exec fuel [0] cmd (start tmpstack choices)

theorem runProgram_post {program : Node ν} {cmd : Cmd ν}
    (compiled : compileProgram program = some cmd) (fuel tmpstack : Nat)
    (choices : List Choice) :
    Post [0] none (start tmpstack choices) (runProgram cmd fuel tmpstack choices) :=
  exec_correct fuel (compileProgram_wellScoped compiled) (start_ready tmpstack choices)

/-- Every regular write of every execution is resolved. -/
theorem writes_resolved (program : Node ν) {cmd : Cmd ν}
    (compiled : compileProgram program = some cmd) (fuel tmpstack : Nat) (choices : List Choice) :
    ∀ write ∈ (runProgram cmd fuel tmpstack choices).2.writes,
      write.Regular → write.Resolved :=
  (runProgram_post compiled fuel tmpstack choices).sound.writes

end Resolution

instance (write : Write) : Decidable write.Regular :=
  decidable_of_iff (write.displaced = false ∧ write.parameter = false ∧ write.clear = true)
    ⟨fun regular => ⟨regular.1, regular.2.1, regular.2.2⟩,
      fun regular => ⟨regular.placed, regular.notParameter, regular.clear⟩⟩

instance (write : Write) : Decidable write.Resolved :=
  decidable_of_iff (write.target.isSome ∧ write.declared = write.target ∧
      write.read = write.target) <| by
    cases target : write.target with
    | none => simp [Write.Resolved, target]
    | some scope => simp [Write.Resolved, target]

/-- `my $x = 1; sub f($n) { my $y = $n; $x += $y }; for (…) { my $x = $_; f($x); $x = 2; last }`. -/
def shadowing : Node Char :=
  .statements (.myAssign (.user 'x') .atom)
  (.statements (.func (some (.user 'f')) (.params (.statements (.param (.user 'n') .nop) .done))
    (.block (.statements (.myAssign (.user 'y') (.var (.user 'n')))
      (.statements (.inplace (.user 'x') (.var (.user 'y'))) .done))))
  (.statements (.forLoop .atom
    (.block (.statements (.myAssign (.user 'x') (.var .topic))
      (.statements (.funcall (.user 'f') (.var (.user 'x')))
        (.statements (.assign (.user 'x') .atom) (.statements .last .done)))))) .done))

/-- One element, whose value is passed to `f`. -/
def oneElement : List Choice :=
  [.value .other 1, .value .other 1, .holds true, .holds true, .value .other 0, .value .other 1]

theorem writes_resolved_shadowing :
    ∃ cmd, compileProgram shadowing = some cmd ∧
      (runProgram cmd 30 0 oneElement).1 = .val .other ∧
      (runProgram cmd 30 0 oneElement).2.writes.length = 8 ∧
      ∀ write ∈ (runProgram cmd 30 0 oneElement).2.writes, write.Resolved := by
  refine ⟨_, rfl, by decide, by decide, fun write member => ?_⟩
  refine writes_resolved shadowing rfl 30 0 oneElement write member ?_
  revert write
  decide

/-- `my $n = 1; sub f($n) { $n = 5 }; f(3)`. -/
def assignedParameter : Node Char :=
  .statements (.myAssign (.user 'n') .atom)
  (.statements (.func (some (.user 'f')) (.params (.statements (.param (.user 'n') .nop) .done))
    (.block (.statements (.assign (.user 'n') .atom) .done)))
  (.statements (.funcall (.user 'f') .atom) .done))

/-- `my $x = 1; for [] { }; $x = 2`. -/
def assignedAfterFor : Node Char :=
  .statements (.myAssign (.user 'x') .atom)
  (.statements (.forLoop .atom (.block .done))
  (.statements (.assign (.user 'x') .atom) .done))

/-- `my $x = 1; { my $f = sub () { $x = 5 }; my $x = 2; $f() }`. -/
def declaredLater : Node Char :=
  .statements (.myAssign (.user 'x') .atom)
  (.statements (.block
    (.statements (.myAssign (.user 'f') (.func none (.params .done)
      (.block (.statements (.assign (.user 'x') .atom) .done))))
    (.statements (.myAssign (.user 'x') .atom)
    (.statements (.funcall (.user 'f') .done) .done)))) .done)

/-- `my $x = 1; my $f = sub () { my $g = sub () { $x = 5 }; $g() }; $f()`. -/
def nestedSubs : Node Char :=
  .statements (.myAssign (.user 'x') .atom)
  (.statements (.myAssign (.user 'f') (.func none (.params .done) (.block
    (.statements (.myAssign (.user 'g') (.func none (.params .done)
      (.block (.statements (.assign (.user 'x') .atom) .done))))
    (.statements (.funcall (.user 'g') .done) .done)))))
  (.statements (.funcall (.user 'f') .done) .done))

/-- A parameter is not registered with the compiler: its assignment sets an outer variable.  After a
for loop that ran out all writes are one scope off.  A sub whose scope declares the name later writes
the outer variable and reads the inner one.  A sub around another one gets the function of the inner
one, which looks for its variables too far out. -/
theorem writes_unresolved :
    (∃ cmd, compileProgram assignedParameter = some cmd ∧
      ∃ write ∈ (runProgram cmd 30 0 [.holds true, .value .other 0]).2.writes,
        write.parameter = true ∧ write.target = some 0 ∧ write.declared = some 1 ∧
          ¬ write.Resolved) ∧
    (∃ cmd, compileProgram assignedAfterFor = some cmd ∧
      ∃ write ∈ (runProgram cmd 30 0 [.value .other 1, .value .other 0, .holds false]).2.writes,
        write.displaced = true ∧ write.target = some 1 ∧ write.declared = some 0 ∧
          ¬ write.Resolved) ∧
    (∃ cmd, compileProgram declaredLater = some cmd ∧
      ∃ write ∈ (runProgram cmd 30 0 [.holds true]).2.writes,
        write.clear = false ∧ write.target = some 0 ∧ write.read = some 1 ∧ ¬ write.Resolved) ∧
    ∃ cmd, compileProgram nestedSubs = some cmd ∧
      ∃ write ∈ (runProgram cmd 30 0 [.holds true]).2.writes,
        write.displaced = true ∧ write.target = none ∧ ¬ write.Resolved := by
  refine ⟨⟨_, rfl, ?_⟩, ⟨_, rfl, ?_⟩, ⟨_, rfl, ?_⟩, _, rfl, ?_⟩ <;> decide

end Compile
end Pone
