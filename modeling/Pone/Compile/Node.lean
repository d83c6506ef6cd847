import Mathlib.Data.List.Basic

/-!
# The syntax tree that the compiler reads

The nodes of the parser, as far as they differ in what `_pone_compile` does with scopes, names and
the ways of leaving a function.  Operators, literals of containers and method calls are one kind of
node, `op`: their operands are compiled in order and a function of the runtime is called on them.
A list of statements or operands is a sequence that ends with `done`.
-/

namespace Pone
namespace Compile

/-- The name of a binding: one of the program, `$_`, or a temporary `$<LOGICAL_OR…>` of the compiler
for `||`, `//` and `&&`. -/
inductive Name (ν : Type) where
  | user (name : ν)
  | topic
  | logical (id : Nat)
  deriving DecidableEq

inductive Node (ν : Type) where
  /-- A literal, `self`, `$@` and the like. -/
  | atom
  | nop
  /-- The end of a list of nodes. -/
  | done
  | var (x : Name ν)
  /-- `my $x`. -/
  | my (x : Name ν)
  /-- `my $x = …`. -/
  | myAssign (x : Name ν) (rhs : Node ν)
  /-- `my ($x, …) = …`. -/
  | myList (xs : List (Name ν)) (rhs : Node ν)
  | assign (x : Name ν) (rhs : Node ν)
  /-- `$x += …` and the other in-place operators. -/
  | inplace (x : Name ν) (rhs : Node ν)
  | op (args : Node ν)
  | conditional (cond yes no : Node ν)
  | logicalOp (left right : Node ν)
  | funcall (f : Name ν) (args : Node ν)
  /-- A sub, anonymous when it has no name. -/
  | func (name : Option (Name ν)) (params body : Node ν)
  | params (list : Node ν)
  /-- A parameter; the default is `nop` where there is none. -/
  | param (x : Name ν) (default : Node ν)
  | attempt (body : Node ν)
  | klass (x : Name ν) (body : Node ν)
  | block (body : Node ν)
  | statements (head rest : Node ν)
  /-- The remaining children are `elsif` nodes and perhaps an `otherwise`. -/
  | ifThen (cond body rest : Node ν)
  | elsif (cond body rest : Node ν)
  | otherwise (body : Node ν)
  | forLoop (iter body : Node ν)
  | whileLoop (cond body : Node ν)
  | ret (e : Node ν)
  | next
  | last
  deriving DecidableEq

section Returns

variable {ν : Type}

/-- `inject_return`: of an `if` only the body and the next child are looked at, and statements are
left as they are. -/
def injectReturn : Node ν → Node ν
  | .ifThen cond body rest =>
      .ifThen cond (injectReturn body) (match rest with
        | .otherwise final => .otherwise (injectReturn final)
        | other => other)
  | .otherwise body => .otherwise (injectReturn body)
  | .block body => .block (injectReturn body)
  | .statements head .done => .statements (injectReturn head) .done
  | .statements head rest => .statements head (injectReturn rest)
  | .done => .done
  | .elsif cond body rest => .elsif cond body rest
  | .myAssign x rhs => .myAssign x rhs
  | .myList xs rhs => .myList xs rhs
  | .assign x rhs => .assign x rhs
  | .params list => .params list
  | .param x default => .param x default
  | .attempt body => .attempt body
  | .forLoop iter body => .forLoop iter body
  | .whileLoop cond body => .whileLoop cond body
  | .ret e => .ret e
  | .next => .next
  | .last => .last
  | e => .ret e

/-- The tree with the returns that the compiler injects into the body of every sub and try. -/
def withReturns : Node ν → Node ν
  | .myAssign x rhs => .myAssign x (withReturns rhs)
  | .myList xs rhs => .myList xs (withReturns rhs)
  | .assign x rhs => .assign x (withReturns rhs)
  | .inplace x rhs => .inplace x (withReturns rhs)
  | .op args => .op (withReturns args)
  | .conditional cond yes no => .conditional (withReturns cond) (withReturns yes) (withReturns no)
  | .logicalOp left right => .logicalOp (withReturns left) (withReturns right)
  | .funcall f args => .funcall f (withReturns args)
  | .func name params body => .func name (withReturns params) (injectReturn (withReturns body))
  | .params list => .params (withReturns list)
  | .param x default => .param x (withReturns default)
  | .attempt body => .attempt (injectReturn (withReturns body))
  | .klass x body => .klass x (withReturns body)
  | .block body => .block (withReturns body)
  | .statements head rest => .statements (withReturns head) (withReturns rest)
  | .ifThen cond body rest => .ifThen (withReturns cond) (withReturns body) (withReturns rest)
  | .elsif cond body rest => .elsif (withReturns cond) (withReturns body) (withReturns rest)
  | .otherwise body => .otherwise (withReturns body)
  | .forLoop iter body => .forLoop (withReturns iter) (withReturns body)
  | .whileLoop cond body => .whileLoop (withReturns cond) (withReturns body)
  | .ret e => .ret (withReturns e)
  | .atom => .atom
  | .nop => .nop
  | .done => .done
  | .var x => .var x
  | .my x => .my x
  | .next => .next
  | .last => .last

end Returns

end Compile
end Pone
