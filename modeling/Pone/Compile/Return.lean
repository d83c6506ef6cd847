import Pone.Compile.Node
import Pone.Truth

/-!
# Implicit return

What the functions that are printed for subs and tries return.  The runtime behind expressions,
loops and declarations is a parameter; what is executed here is the C control flow around them.  A
body that comes to its end carries the value of the last expression executed, which C drops: only
the injected returns hand it to the caller.
-/

namespace Pone
namespace Compile

/-- How a statement ends. -/
inductive Flow (V E : Type) where
  /-- Control comes to its end; the value of the last expression there. -/
  | ends (last : V)
  | returned (v : V)
  /-- An exception or an abort. -/
  | left (e : E)
  deriving DecidableEq

/-- The runtime on states `S`, with values `V` and the ways `E` of leaving a function that are no
return. -/
structure Runtime (ν V S E : Type) where
  eval : Node ν → S → Except E V × S
  /-- A loop, a declaration or another statement without a value; a return inside it leaves the
  function with some value. -/
  perform : Node ν → S → Except E (Option V) × S
  /-- `pone_so`. -/
  so : V → Except E Bool
  nil : V
  pushScope : S → S
  popScope : S → S

section Flow

variable {ν V S E : Type} (m : Runtime ν V S E)

/-- The value of an expression; `PVIP_NODE_NOP` is printed as `pone_nil()`. -/
def Runtime.value (e : Node ν) (s : S) : Except E V × S :=
  match e with
  | .nop => (.ok m.nil, s)
  | e => m.eval e s

/-- The condition `pone_so(…)`. -/
def Runtime.test (cond : Node ν) (s : S) : Except E Bool × S :=
  match m.value cond s with
  | (.ok v, s) => (m.so v, s)
  | (.error e, s) => (.error e, s)

/-- An expression as a statement. -/
def Runtime.discard (e : Node ν) (s : S) : Flow V E × S :=
  match m.value e s with
  | (.ok v, s) => (.ends v, s)
  | (.error e, s) => (.left e, s)

/-- The C statements that are printed for a tree. -/
def Runtime.exec : Node ν → S → Flow V E × S
  | .done, s => (.ends m.nil, s)
  | .statements head .done, s => exec head s
  | .statements head rest, s =>
      match exec head s with
      | (.ends _, s) => exec rest s
      | other => other
  | .block body, s =>
      match exec body (m.pushScope s) with
      | (.ends v, s) => (.ends v, m.popScope s)
      | other => other
  | .ifThen cond body rest, s | .elsif cond body rest, s =>
      match m.test cond s with
      | (.ok true, s) => exec body s
      | (.ok false, s) => exec rest s
      | (.error e, s) => (.left e, s)
  | .otherwise body, s => exec body s
  | .ret e, s =>
      match m.value e s with
      | (.ok v, s) => (.returned v, s)
      | (.error e, s) => (.left e, s)
  | .atom, s => m.discard .atom s
  | .nop, s => m.discard .nop s
  | .var x, s => m.discard (.var x) s
  | .my x, s => m.discard (.my x) s
  | .inplace x rhs, s => m.discard (.inplace x rhs) s
  | .op args, s => m.discard (.op args) s
  | .conditional cond yes no, s => m.discard (.conditional cond yes no) s
  | .logicalOp left right, s => m.discard (.logicalOp left right) s
  | .funcall f args, s => m.discard (.funcall f args) s
  | .func name params body, s => m.discard (.func name params body) s
  | .klass x body, s => m.discard (.klass x body) s
  | other, s =>
      match m.perform other s with
      | (.ok none, s) => (.ends m.nil, s)
      | (.ok (some v), s) => (.returned v, s)
      | (.error e, s) => (.left e, s)

/-- The function that is printed for a sub or a try, behind `pone_push_scope` and the parameters. -/
def Runtime.finish (body : Node ν) (s : S) : Except E V × S :=
  match m.exec (injectReturn body) s with
  | (.ends _, s) => (.ok m.nil, m.popScope s)
  | (.returned v, s) => (.ok v, s)
  | (.left e, s) => (.error e, s)

mutual

/-- The bodies that end with an expression that `inject_return` lists, or with an `if` whose
branches end so or are empty.  An `else` stands behind its `if` only. -/
def Ends : Node ν → Prop
  | .done => True
  | .statements head .done => Ends head
  | .statements _ rest => Ends rest
  | .block body => Ends body
  | .ifThen _ body rest => Ends body ∧ EndsBranches rest
  | .otherwise body => Ends body
  | .atom | .nop | .var _ | .my _ | .inplace _ _ | .op _ | .conditional _ _ _ | .logicalOp _ _
  | .funcall _ _ | .func _ _ _ | .klass _ _ => True
  | .elsif _ _ _ | .myAssign _ _ | .myList _ _ | .assign _ _ | .params _ | .param _ _ | .attempt _
  | .forLoop _ _ | .whileLoop _ _ | .ret _ | .next | .last => False

/-- The branches behind the first one. -/
def EndsBranches : Node ν → Prop
  | .done => True
  | .otherwise body => Ends body
  | .elsif _ body rest => Ends body ∧ EndsBranches rest
  | _ => False

end

/-- Some branch of a chain that starts with an `elsif` is taken. -/
def Runtime.takes : Node ν → S → Bool
  | .elsif cond _ rest, s =>
      match m.test cond s with
      | (.ok true, _) => true
      | (.ok false, s) => takes rest s
      | (.error _, _) => false
  | .otherwise _, _ => true
  | _, _ => false

/-- At an `if` at the end of the body, the run takes an `elsif` or an `else` behind an `elsif`. -/
def Runtime.lost : Node ν → S → Bool
  | .statements head .done, s => lost head s
  | .statements head rest, s =>
      match m.exec head s with
      | (.ends _, s) => lost rest s
      | _ => false
  | .block body, s => lost body (m.pushScope s)
  | .ifThen cond body rest, s =>
      match m.test cond s with
      | (.ok true, s) => lost body s
      | (.ok false, s) =>
          match rest with
          | .otherwise final => lost final s
          | rest => m.takes rest s
      | (.error _, _) => false
  | .otherwise body, s => lost body s
  | _, _ => false

/-! ## Trees with injected returns -/

variable {m} {body rest : Node ν} {s s' : S} {v : V}

theorem injectReturn_ne_done (nonempty : body ≠ .done) : injectReturn body ≠ .done := by
  cases body with
  | done => exact absurd rfl nonempty
  | statements head rest => cases rest <;> simp [injectReturn]
  | ifThen cond body rest => cases rest <;> simp [injectReturn]
  | _ => simp [injectReturn]

theorem exec_statements (head : Node ν) (more : rest ≠ .done) :
    m.exec (.statements head rest) s = match m.exec head s with
      | (.ends _, s) => m.exec rest s
      | other => other :=
  Runtime.exec.eq_3 m s head rest more

theorem lost_statements (head : Node ν) (more : rest ≠ .done) :
    m.lost (.statements head rest) s = match m.exec head s with
      | (.ends _, s) => m.lost rest s
      | _ => false :=
  Runtime.lost.eq_2 m s head rest more

theorem injectReturn_statements (head : Node ν) (more : rest ≠ .done) :
    injectReturn (.statements head rest) = .statements head (injectReturn rest) :=
  injectReturn.eq_6 head rest more

theorem exec_injectReturn_ifThen (cond : Node ν) :
    m.exec (injectReturn (.ifThen cond body rest)) s = match m.test cond s with
      | (.ok true, s) => m.exec (injectReturn body) s
      | (.ok false, s) => match rest with
          | .otherwise final => m.exec (injectReturn final) s
          | rest => m.exec rest s
      | (.error e, s) => (.left e, s) := by
  cases rest <;> rfl

theorem ends_statements (head : Node ν) (more : rest ≠ .done) :
    Ends (.statements head rest) ↔ Ends rest := by
  rw [Ends.eq_3 head rest more]

/-- A tree whose last statement hands over the value `v` at its end, if that is not `lost`. -/
def HandsOver (m : Runtime ν V S E) (lost : Bool) (v : V) : Flow V E → Prop
  | .ends _ => lost = true ∨ v = m.nil
  | .returned r => lost = false ∧ r = v
  | .left _ => False

/-- The branches that stay as they are end with a value only where one of them is taken. -/
theorem takes_or_nil (branches : EndsBranches rest) (runs : m.exec rest s = (.ends v, s')) :
    m.takes rest s = true ∨ v = m.nil := by
  induction rest generalizing s with
  | done =>
      cases runs
      exact .inr rfl
  | otherwise final => exact .inl rfl
  | elsif cond body rest _ _ ih =>
      simp only [Runtime.exec] at runs
      simp only [Runtime.takes]
      split at runs
      · exact .inl rfl
      · exact ih branches.2 runs
      · cases runs
  | _ => exact branches.elim

/-- A listed expression becomes the operand of a return statement. -/
theorem discard_handsOver {e : Node ν} (runs : m.discard e s = (.ends v, s')) :
    HandsOver m false v (m.exec (.ret e) s).1 := by
  simp only [Runtime.discard] at runs
  simp only [Runtime.exec]
  split at runs
  case h_1 u left value =>
    cases runs
    exact ⟨rfl, rfl⟩
  case h_2 => cases runs

/-- Where a body comes to its end, the body with its injected returns hands over the last value. -/
theorem exec_injectReturn (ends : Ends body) (runs : m.exec body s = (.ends v, s')) :
    HandsOver m (m.lost body s) v (m.exec (injectReturn body) s).1 := by
  induction body generalizing s s' with
  | done =>
      cases runs
      exact .inr rfl
  | statements head rest ih_head ih_rest =>
      by_cases last : rest = .done
      · subst last
        exact ih_head ends runs
      · rw [exec_statements head last] at runs
        rw [injectReturn_statements head last, lost_statements head last,
          exec_statements head (injectReturn_ne_done last)]
        generalize m.exec head s = first at runs
        obtain ⟨flow, middle⟩ := first
        cases flow with
        | ends u => exact ih_rest ((ends_statements head last).mp ends) runs
        | returned | left => cases runs
  | block body ih =>
      simp only [Runtime.exec] at runs
      split at runs
      case h_1 u inner executed =>
        cases runs
        have inside := ih ends executed
        simp only [injectReturn, Runtime.exec, Runtime.lost]
        split
        case h_1 u left same =>
          rw [same] at inside
          exact inside
        case h_2 => exact inside
      case h_2 other => exact absurd runs (other v s')
  | ifThen cond body rest _ ih_body ih_rest =>
      rw [exec_injectReturn_ifThen]
      simp only [Runtime.exec] at runs
      simp only [Runtime.lost]
      generalize m.test cond s = tested at runs
      obtain ⟨truth, middle⟩ := tested
      match truth with
      | .ok true => exact ih_body ends.1 runs
      | .ok false =>
          cases rest with
          | otherwise final => exact ih_rest ends.2 runs
          | done | elsif =>
              simp only at runs ⊢
              rw [runs]
              exact takes_or_nil ends.2 runs
          | _ => exact ends.2.elim
      | .error e => cases runs
  | otherwise final ih => exact ih ends runs
  | atom | nop | var | my | inplace | op | conditional | logicalOp | funcall | func | klass =>
      exact discard_handsOver runs
  | elsif | myAssign | myList | assign | params | param | attempt | forLoop | whileLoop | ret
  | next | last => exact ends.elim

/-- A run that comes to the end of the body: the caller gets the value of the last expression, or
nil where that is lost. -/
theorem finish_eq (ends : Ends body) (runs : m.exec body s = (.ends v, s')) :
    (m.finish body s).1 = .ok (if m.lost body s then m.nil else v) := by
  have handed := exec_injectReturn ends runs
  simp only [Runtime.finish]
  generalize m.exec (injectReturn body) s = result at handed
  obtain ⟨flow, left⟩ := result
  cases flow with
  | ends u =>
      rcases handed with lost | rfl
      · rw [lost, if_pos rfl]
      · rw [ite_self]
  | returned r =>
      obtain ⟨kept, rfl⟩ := handed
      rw [kept, if_neg Bool.false_ne_true]
  | left e => exact handed.elim

end Flow

/-- Variables only: the state holds their values, and an expression that is no variable aborts. -/
def varsOnly : Runtime Char Truth.Value (Char → Truth.Value) Unit where
  eval e s := match e with
    | .var (.user x) => (.ok (s x), s)
    | _ => (.error (), s)
  perform _ s := (.ok none, s)
  so v := match Truth.so v with
    | some truth => .ok truth
    | none => .error ()
  nil := .nil
  pushScope s := s
  popScope s := s

/-- `{ if $a { $x } else { $y } }`. -/
def ifElse : Node Char :=
  .block (.statements (.ifThen (.var (.user 'a')) (.statements (.var (.user 'x')) .done)
    (.otherwise (.statements (.var (.user 'y')) .done))) .done)

/-- `{ if $a { $x } elsif $b { $y } else { $z } }`. -/
def ifElsif : Node Char :=
  .block (.statements (.ifThen (.var (.user 'a')) (.statements (.var (.user 'x')) .done)
    (.elsif (.var (.user 'b')) (.statements (.var (.user 'y')) .done)
      (.otherwise (.statements (.var (.user 'z')) .done)))) .done)

/-- `$a` is false, all other variables are 1. -/
def firstFalse : Char → Truth.Value := fun x => if x = 'a' then .bool false else .int 1

end Compile
end Pone
