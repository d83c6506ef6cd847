/-!
# The functions of subs and tries

`_pone_compile` prints a function for every sub and try and refers to it by name.  Anonymous subs and
tries are numbered together: the function has the number of the counter where it begins, but the
reference to it takes the number that the counter has behind the body.
-/

namespace Pone
namespace Compile

/-- A sub or try. -/
inductive Definition (α : Type) where
  | named (x : α)
  | anonymous (no : Nat)
  | attempt (no : Nat)
  deriving DecidableEq

/-- `anon_sub_no` and `in_class` of the compiler. -/
structure Naming where
  anonSubNo : Nat
  inClass : Bool
  deriving DecidableEq

section Naming

variable {α : Type}

/-- The counter goes up where an anonymous sub begins. -/
def Naming.enter : Option α → Naming → Naming
  | none, st => { st with anonSubNo := st.anonSubNo + 1 }
  | some _, st => st

/-- It goes up where a try begins, too. -/
def Naming.enterTry (st : Naming) : Naming := { st with anonSubNo := st.anonSubNo + 1 }

/-- The sub that is meant where its name is printed. -/
def Naming.sub (st : Naming) : Option α → Definition α
  | none => .anonymous st.anonSubNo
  | some x => .named x

/-- The try that is meant where its name is printed. -/
def Naming.attempt (st : Naming) : Definition α := .attempt st.anonSubNo

def Definition.number : Definition α → Option Nat
  | named _ => none
  | anonymous no | attempt no => some no

def Definition.isSub : Definition α → Bool
  | named _ | anonymous _ => true
  | attempt _ => false

end Naming

/-- The C function of a sub. -/
def subName : Option String → Nat → String
  | none, no => "pone_user_func_anon_" ++ no.repr
  | some x, _ => "pone_user_func_" ++ x

/-- The C function of the body of a try. -/
def tryName (no : Nat) : String := "pone_try_" ++ no.repr

/-- The C function that is printed for a sub or try. -/
def Definition.function : Definition String → String
  | named x => subName (some x) 0
  | anonymous no => subName none no
  | attempt no => tryName no

end Compile
end Pone
