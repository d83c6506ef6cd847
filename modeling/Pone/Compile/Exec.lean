import Mathlib.Logic.Function.Basic
import Pone.Compile.Emit
import Pone.ScopeChain

/-!
# Running the emitted code

The state of a world as far as scopes, calls and exceptions go.  What a program computes does not
matter here: the values that functions of the runtime return, the code values they call, the truth
of conditions and the lengths of iterations come from a list of choices, so that an execution of any
program is one of these.  An execution stops when the fuel or the choices are used up or the C code
aborts; all beginnings of infinite executions are among them.

Each command runs under a display, the instances of the scopes that enclose it in the source, the
innermost first.  The display and the fields from `displaced` on only observe.
-/

namespace Pone
namespace Compile

open ScopeChain

inductive Val where
  /-- A compiled sub that `pone_code_new` made. -/
  | code (id : Nat)
  | other
  deriving DecidableEq

inductive Choice where
  /-- A function of the runtime returns, after some allocations. -/
  | value (v : Val) (allocs : Nat)
  /-- It throws. -/
  | throw
  /-- It calls a compiled sub. -/
  | call (id : Nat)
  /-- A condition is true, there is a next element, an argument was passed. -/
  | holds (truth : Bool)
  deriving DecidableEq

/-- A code value whose function was compiled. -/
structure Code (ν : Type) where
  /-- `NULL` for a method. -/
  lex : Option Nat
  body : Cmd ν
  /-- The scopes around the sub when it was made; of scopes in between that were not entered, the one
  in which it was made. -/
  display : List Nat
  displaced : Bool

/-- A write of a variable by emitted code. -/
structure Write where
  /-- The lex whose binding `pone_assign` sets. -/
  target : Option Nat
  /-- The instance of the scope of the innermost enclosing declaration. -/
  declared : Option Nat
  /-- The lex whose binding `pone_get_lex` reads there; after the write for a declaration. -/
  read : Option Nat
  displaced : Bool
  /-- The innermost enclosing declaration is a parameter. -/
  parameter : Bool
  /-- The declaration was executed, and no scope inside its own holds the name. -/
  clear : Bool
  deriving DecidableEq

/-- The savestack around a call or try that returned, and the exits counted before and after. -/
structure Return where
  before : List Nat
  after : List Nat
  exitsBefore : Nat
  exitsAfter : Nat
  deriving DecidableEq

structure World (ν : Type) where
  /-- `as.lex.parent` and `as.lex.map` of the lex with a number. -/
  parent : Nat → Option Nat
  vars : Nat → Name ν → Option Val
  lexCount : Nat
  lex : Nat
  /-- The height of `tmpstack`. -/
  tmpstack : Nat
  /-- `savestack`, its top first. -/
  savestack : List Nat
  codes : List (Code ν)
  choices : List Choice
  /-- A for loop ran out in the running activation or in one that made a code value it runs, or such a
  code value has got the function of a sub inside of its own, so that `world->lex` is not the scope that
  the source is in. -/
  displaced : Bool
  /-- How often a scope was left without `pone_pop_scope`: return statements, for loops that ran out
  and caught exceptions. -/
  exits : Nat
  writes : List Write
  returns : List Return

inductive Outcome where
  | val (v : Val)
  | next
  | last
  | ret (v : Val)
  | thrown
  | stop
  deriving DecidableEq

section Runtime

variable {ν : Type} [DecidableEq ν]

/-- `pone_push_scope`. -/
def World.pushScope (w : World ν) : World ν :=
  { w with
    parent := Function.update w.parent w.lexCount (some w.lex)
    vars := Function.update w.vars w.lexCount fun _ => none
    lexCount := w.lexCount + 1
    lex := w.lexCount
    tmpstack := w.tmpstack + 1
    savestack := (w.tmpstack + 1) :: w.savestack }

/-- `pone_pop_scope`, which aborts at the outermost scope. -/
def World.popScope (w : World ν) : Option (World ν) :=
  match w.parent w.lex, w.savestack with
  | some above, saved :: rest =>
      some { w with lex := above, tmpstack := saved, savestack := rest }
  | _, _ => none

def World.popScopes (w : World ν) : Nat → Option (World ν)
  | 0 => some w
  | pops + 1 => w.popScope.bind (popScopes · pops)

def World.holds (w : World ν) (x : Name ν) (lex : Nat) : Bool := (w.vars lex x).isSome

/-- The walk of `pone_get_lex` along the parents. -/
def World.findBinding (w : World ν) (x : Name ν) : Option Nat :=
  nearest w.parent (w.holds x) w.lexCount (some w.lex)

def World.bind (w : World ν) (lex : Nat) (x : Name ν) (v : Val) : World ν :=
  { w with vars := Function.update w.vars lex (Function.update (w.vars lex) x (some v)) }

def Decl.level : Decl → Nat
  | .declares => 0
  | .outer level _ => level

def Decl.isParameter : Decl → Bool
  | .declares => false
  | .outer _ parameter => parameter

/-- A declaration is read after its write, any other variable where the statement reads it. -/
def Decl.readIn (reader written : World ν) : Decl → World ν
  | .declares => written
  | .outer _ _ => reader

/-- The declaration that is meant has been executed, and no scope inside its own holds the name. -/
def Decl.clear (display : List Nat) (x : Name ν) (w : World ν) : Decl → Bool
  | .declares => true
  | .outer level _ =>
      (display.take level).all (fun scope => !w.holds x scope) && display[level]?.any (w.holds x)

/-- `pone_assign`, in `w`; `reader` is the world in which the statement reads the variable. -/
def assignAt (display : List Nat) (up : Nat) (decl : Decl) (x : Name ν) (v : Val)
    (reader w : World ν) : Outcome × World ν :=
  let write (target : Option Nat) (written : World ν) : Write :=
    { target := target
      declared := display[decl.level]?
      read := (decl.readIn reader written).findBinding x
      displaced := w.displaced
      parameter := decl.isParameter
      clear := decl.clear display x reader }
  match ancestor w.parent up w.lex with
  | some target =>
      let written := w.bind target x v
      (.val v, { written with writes := write (some target) written :: w.writes })
  | none => (.stop, { w with writes := write none w :: w.writes })

/-- `pone_get_lex`: a name that no scope holds is a global or an error. -/
def getLex (x : Name ν) (w : World ν) : Outcome × World ν :=
  match w.findBinding x with
  | some lex => ((w.vars lex x).elim .stop .val, w)
  | none =>
      match w.choices with
      | .value v _ :: rest => (.val v, { w with choices := rest })
      | .throw :: rest => (.thrown, { w with choices := rest })
      | _ => (.stop, w)

/-- `pone_so` of a value, and the other tests. -/
def poneSo (w : World ν) : Option (Bool × World ν) :=
  match w.choices with
  | .holds truth :: rest => some (truth, { w with choices := rest })
  | _ => none

/-- `pone_code_new` and `pone_code_new_c`. -/
def codeNew (w : World ν) (lex : Option Nat) (between : Nat) (body : Cmd ν) (display : List Nat) :
    World ν :=
  { w with
    codes := w.codes ++ [{
      lex := lex, body := body, display := List.replicate between w.lex ++ display
      displaced := w.displaced || between != 0 }]
    tmpstack := w.tmpstack + 1 }

/-- Go on with the value of a command, and leave with it when it is left otherwise. -/
def andThen (result : Outcome × World ν) (continuation : Val → World ν → Outcome × World ν) :
    Outcome × World ν :=
  match result with
  | (.val v, w) => continuation v w
  | other => other

def Return.of (before after : World ν) : Return :=
  { before := before.savestack, after := after.savestack,
    exitsBefore := before.exits, exitsAfter := after.exits }

variable (run : List Nat → Cmd ν → World ν → Outcome × World ν)

/-- The function that is printed for a sub or a try. -/
def runFunction (display : List Nat) (body : Cmd ν) (w : World ν) : Outcome × World ν :=
  match run (w.lexCount :: display) body w.pushScope with
  | (.val _, w) => w.popScope.elim (.stop, w) fun w => (.val .other, w)
  | (.ret v, w) => (.val v, w)
  | (.thrown, w) => (.thrown, w)
  | (_, w) => (.stop, w)

/-- `pone_code_vcall`: the callers that are pushed and, for a code with a lex, `orig_lex` come on
`tmpstack`; without a lex the function runs in the scope of the caller and nothing restores it. -/
def codeVcall (id : Nat) (w : World ν) : Outcome × World ν :=
  match w.codes[id]? with
  | none => (.stop, w)
  | some code =>
      match code.lex with
      | some lex =>
          andThen (runFunction run code.display code.body
              { w with lex := lex, displaced := code.displaced, tmpstack := w.tmpstack + 5 })
            fun v left => (.val v, { left with
              lex := w.lex
              displaced := w.displaced
              tmpstack := left.tmpstack + 1
              returns := .of w left :: left.returns })
      | none =>
          andThen (runFunction run code.display code.body
              { w with displaced := true, tmpstack := w.tmpstack + 4 })
            fun v left => (.val v, { left with
              displaced := w.displaced || left.lex != w.lex
              tmpstack := left.tmpstack + 1
              returns := .of w left :: left.returns })

/-- A function of the runtime: it calls code values, and then returns or throws. -/
def native (display : List Nat) (w : World ν) : Outcome × World ν :=
  match w.choices with
  | .value v allocs :: rest =>
      (.val v, { w with choices := rest, tmpstack := w.tmpstack + allocs })
  | .throw :: rest => (.thrown, { w with choices := rest })
  | .call id :: rest =>
      andThen (codeVcall run id { w with choices := rest }) fun _ w => run display .native w
  | _ => (.stop, w)

/-- `pone_code_call`; a code value that is not compiled is a function of the runtime. -/
def codeCall (display : List Nat) (code : Val) (w : World ν) : Outcome × World ν :=
  match code with
  | .code id => codeVcall run id w
  | .other => native run display w

/-- `pone_try(world, pone_code_new(world, …))`. -/
def tryCode (display : List Nat) (between : Nat) (body : Cmd ν) (w : World ν) :
    Outcome × World ν :=
  match codeVcall run w.codes.length (codeNew w (some w.lex) between body display) with
  | (.thrown, left) =>
      let caught := { left with lex := w.lex, displaced := w.displaced, exits := left.exits + 1 }
      (.val .other, { caught with returns := .of w caught :: left.returns })
  | (.val v, left) => (.val v, { left with returns := .of w left :: left.returns })
  | other => other

/-- The assignments of `pone_assign_list`, which throws where the lengths differ. -/
def assignAll (display : List Nat) : List (Name ν) → World ν → Outcome × World ν
  | [], w => (.val .other, w)
  | x :: xs, w =>
      match w.choices with
      | .value v _ :: rest =>
          andThen (assignAt display 0 .declares x v w { w with choices := rest }) fun _ w =>
            assignAll display xs w
      | .throw :: rest => (.thrown, { w with choices := rest })
      | _ => (.stop, w)

/-- The body of a for loop, with the next element. -/
def forElement (display inner : List Nat) (body : Cmd ν) (v : Val) (w : World ν) :
    Outcome × World ν :=
  andThen (assignAt inner 0 .declares .topic v w w) fun _ w =>
    match run inner body w with
    | (.val _, w) => w.popScope.elim (.stop, w) fun w => run display (.forRounds body) w
    | (.next, w) => run display (.forRounds body) w
    | (.last, w) => (.val .other, w)
    | other => other

/-- One round of the `while (true)` of a for loop.  The scope of the round in which
`pone_iter_next` finds nothing is never popped. -/
def forRound (display : List Nat) (body : Cmd ν) (w : World ν) : Outcome × World ν :=
  let inner := w.lexCount :: display
  andThen (native run inner w.pushScope) fun v w =>
    match poneSo w with
    | none => (.stop, w)
    | some (true, w) => forElement run display inner body v w
    | some (false, w) => (.val .other, { w with displaced := true, exits := w.exits + 1 })

def whileBody (display : List Nat) (cond body : Cmd ν) (w : World ν) : Outcome × World ν :=
  match run display body w with
  | (.val _, w) => run display (.whileLoop cond body) w
  | (.next, w) => run display (.whileLoop cond body) w
  | (.last, w) => (.val .other, w)
  | other => other

def whileRound (display : List Nat) (cond body : Cmd ν) (w : World ν) : Outcome × World ν :=
  andThen (run display cond w) fun _ w =>
    match poneSo w with
    | none => (.stop, w)
    | some (true, w) => whileBody run display cond body w
    | some (false, w) => (.val .other, w)

/-- One command, whose parts are executed by `run`. -/
def execCmd (display : List Nat) (cmd : Cmd ν) (w : World ν) : Outcome × World ν :=
  match cmd with
  | .atom => (.val .other, w)
  | .native => native run display w
  | .getLex x => getLex x w
  | .assign up decl x rhs =>
      andThen (run display rhs w) fun v w => assignAt display up decl x v w w
  | .assignList xs rhs => andThen (run display rhs w) fun _ w => assignAll display xs w
  | .inplace up decl x rhs =>
      andThen (run display rhs w) fun _ w =>
        andThen (getLex x w) fun _ reader =>
          andThen (native run display reader) fun v w => assignAt display up decl x v reader w
  | .logicalOp id left right =>
      andThen (run display left w) fun v w =>
        let w := w.bind w.lex (.logical id) v
        match poneSo w with
        | none => (.stop, w)
        | some (true, w) => getLex (.logical id) w
        | some (false, w) =>
            andThen (run display right w) fun v w =>
              getLex (.logical id) (w.bind w.lex (.logical id) v)
  | .codeCall code args =>
      andThen (run display code w) fun code w =>
        andThen (run display args w) fun _ w => codeCall run display code w
  | .codeNew between body =>
      (.val (.code w.codes.length), codeNew w (some w.lex) between body display)
  | .addMethod body => (.val .other, codeNew w none 0 body display)
  | .tryCode between body => tryCode run display between body w
  | .inScope body =>
      match run (w.lexCount :: display) body w.pushScope with
      | (.val _, w) => w.popScope.elim (.stop, w) fun w => (.val .other, w)
      | other => other
  | .branch cond yes no =>
      andThen (run display cond w) fun _ w =>
        match poneSo w with
        | none => (.stop, w)
        | some (true, w) => run display yes w
        | some (false, w) => run display no w
  | .forLoop iter body =>
      andThen (run display iter w) fun _ w =>
        andThen (native run display w) fun _ w => run display (.forRounds body) w
  | .forRounds body => forRound run display body w
  | .whileLoop cond body => whileRound run display cond body w
  | .ret e => andThen (run display e w) fun v w => (.ret v, { w with exits := w.exits + 1 })
  | .next pops => (w.popScopes pops).elim (.stop, w) fun w => (.next, w)
  | .last pops => (w.popScopes pops).elim (.stop, w) fun w => (.last, w)
  | .arity =>
      match poneSo w with
      | none => (.stop, w)
      | some (true, w) => (.val .other, w)
      | some (false, w) => (.thrown, w)
  | .param x default =>
      match w.choices with
      | .value v _ :: rest => assignAt display 0 .declares x v w { w with choices := rest }
      | .holds false :: rest =>
          andThen (run display default { w with choices := rest }) fun v w =>
            assignAt display 0 .declares x v w w
      | _ => (.stop, w)
  | .seq first second => andThen (run display first w) fun _ w => run display second w

/-- An execution with a bound on the nesting of commands and rounds. -/
def exec : Nat → List Nat → Cmd ν → World ν → Outcome × World ν
  | 0, _, _, w => (.stop, w)
  | fuel + 1, display, cmd, w => execCmd (exec fuel) display cmd w

/-- The world in which the function of the file is called: one scope without a parent. -/
def start (tmpstack : Nat) (choices : List Choice) : World ν :=
  { parent := fun _ => none, vars := fun _ _ => none, lexCount := 1, lex := 0,
    tmpstack := tmpstack, savestack := [], codes := [], choices := choices, displaced := false,
    exits := 0, writes := [], returns := [] }

end Runtime

end Compile
end Pone
