import Mathlib.Logic.Function.Basic
import Pone.Greg.Engine

/-!
# Running the thunks of a parse

`yyDone` runs the thunks in the order in which they were pushed.  A rule with variables moves the
stack pointer `G->val` over them; the variables are numbered from the top of the stack, and what a
slot holds is what was stored there last, by this rule or another.
-/

namespace Greg

/-- The values of the actions: `G->ss`, the stack of variables, and the data of the parser. -/
structure Machine (V D : Type) where
  ss : V
  vals : Nat → V
  val : Nat
  data : D

/-- An action, on `yytext`; `none` is an abort. -/
abbrev Action (V D : Type) := List UInt8 → Machine V D → Option (Machine V D)

namespace Machine

variable {V D : Type}

/-- The variable `k` of the running rule. -/
def var (m : Machine V D) (k : Nat) : V := m.vals (m.val - 1 - k)

def setVar (m : Machine V D) (k : Nat) (v : V) : Machine V D :=
  { m with vals := Function.update m.vals (m.val - 1 - k) v }

theorem var_setVar_self (m : Machine V D) (k : Nat) (v : V) : (m.setVar k v).var k = v :=
  Function.update_self _ _ _

theorem var_setVar_of_ne (m : Machine V D) {k j : Nat} (different : k ≠ j) (own : k < m.val)
    (own' : j < m.val) (v : V) : (m.setVar j v).var k = m.var k := by
  have apart : m.val - 1 - k ≠ m.val - 1 - j := by omega
  exact Function.update_of_ne apart _ _

end Machine

variable {V D : Type}

/-- `yyText`. -/
def yyText (buf : List UInt8) (first last : Nat) : List UInt8 :=
  (buf.drop first).take (last - first)

/-- One thunk, over the characters that were read. -/
def Thunk.run (buf : List UInt8) (thunk : Thunk (Action V D)) (m : Machine V D) :
    Option (Machine V D) :=
  match thunk with
  | .yyPush count => some { m with val := m.val + count }
  | .yyPop count => some { m with val := m.val - count }
  | .yySet k => some (m.setVar k m.ss)
  | .action act first last => act (yyText buf first last) m

/-- `yyDone`. -/
def yyDone (buf : List UInt8) (thunks : List (Thunk (Action V D))) (m : Machine V D) :
    Option (Machine V D) :=
  thunks.reverse.foldlM (fun m thunk => thunk.run buf m) m

/-- What was pushed first runs first. -/
theorem yyDone_append (buf : List UInt8) (front back : List (Thunk (Action V D)))
    (m : Machine V D) :
    yyDone buf (back ++ front) m = (yyDone buf front m).bind (yyDone buf back) := by
  rw [yyDone, List.reverse_append, List.foldlM_append]
  rfl

end Greg
