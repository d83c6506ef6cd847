import Pone.Compile.Emit
import Pone.Heap.Environment
import Pone.Heap.Stacks

/-!
# The evaluation of the emitted code

A thread runs the code that `_pone_compile` prints, on the heap.  The operands of a C call are
evaluated one after the other, and their values live in temporaries of the C stack until the call
is made; the collector does not see these.  The functions of the runtime may do anything to the heap
and call code values, and what they return they have got in one of a few ways, which is kept beside
every value.
-/

namespace Pone
namespace Heap

open Compile (Cmd Name)

/-- How C code has got a value. -/
inductive Source where
  /-- It was allocated, or popped from an array, and `pone_save_tmp` has put it on `tmpstack`. -/
  | saved
  /-- `pone_get_lex` has found it in a lex. -/
  | lexical
  /-- It was inside another value. -/
  | stored (holder : Ref) (source : Source)
  /-- It is a constant, a global, a field of the world or the universe such as `errvar`. -/
  | elsewhere
  deriving DecidableEq

structure Operand where
  ref : Ref
  source : Source
  deriving DecidableEq

/-- What the operands are evaluated for. -/
inductive Head (ν : Type) where
  /-- A function of the runtime, `pone_code_call` among them, with the latest value that it has got
  since it was called. -/
  | native (latest : Option Operand)
  | assign (up : Nat) (x : Name ν)
  /-- The value of a comma expression is that of its last operand. -/
  | comma
  | select (yes no : Cmd ν)
  /-- The test of `||`, `//` and `&&`. -/
  | logical (id : Nat) (right : Cmd ν)
  | branch (yes no : Cmd ν)
  | whileCond
  /-- `pone_val* iter = …`. -/
  | forInit (body : Cmd ν)
  /-- `pone_val* next = …`. -/
  | forNext
  | ret

inductive Frame (ν : Type) where
  /-- The values of the operands evaluated so far, the latest first, and the operands to come, the
  one under evaluation among them. -/
  | operands (head : Head ν) (done : List Operand) (todo : List (Cmd ν))
  /-- The statements to come, of a scope of their own or not. -/
  | stmts (scope : Bool) (todo : List (Cmd ν))
  | forLoop (iter : Operand) (body : Cmd ν)
  | whileLoop (cond body : Cmd ν)
  /-- A call of `pone_code_vcall`: what it has kept of `world->lex`, and the arguments. -/
  | function (origLex : Option (Option Ref)) (args : List Operand)

/-- The C stack of a thread, the innermost frame first. -/
structure Machine (ν : Type) where
  heap : Universe (Name ν)
  stack : List (Frame ν)

section Machine

variable {ν : Type}

/-- A list of operands, or a single one. -/
def operandsOf : Cmd ν → List (Cmd ν)
  | .seq args .native => [.seq args .native]
  | .seq first rest => first :: operandsOf rest
  | .atom => []
  | e => [e]

/-- The frame in which an expression is evaluated.  A variable is read at once. -/
def expression : Cmd ν → Option (Frame ν)
  | .atom | .native | .codeNew _ _ | .arity => some (.operands (.native none) [] [])
  | .seq args .native => some (.operands (.native none) [] (operandsOf args))
  | .codeCall code args => some (.operands (.native none) [] (code :: operandsOf args))
  | .assignList _ rhs | .inplace _ _ _ rhs => some (.operands (.native none) [] [rhs])
  | .tryCode between body => some (.operands (.native none) [] [.codeNew between body])
  | .addMethod body => some (.operands (.native none) [] [.codeNew 0 body])
  | .assign up _ x rhs => some (.operands (.assign up x) [] [rhs])
  | .branch cond yes no => some (.operands (.select yes no) [] [cond])
  | .logicalOp id left right =>
      some (.operands (.logical id right) [] [.assign 0 .declares (.logical id) left])
  | _ => none

/-- A value goes to the frame that waits for it.  A statement drops it, and the end of a function
returns it. -/
def deliver (world : Nat) (u : Universe (Name ν)) (v : Operand) :
    List (Frame ν) → Option (Machine ν)
  | .operands head done (_ :: todo) :: rest => some ⟨u, .operands head (v :: done) todo :: rest⟩
  | .stmts scope todo :: rest => some ⟨u, .stmts scope todo :: rest⟩
  | .function origLex _ :: .operands (.native _) done [] :: rest =>
      (codeReturn u world origLex).map fun u => ⟨u, .operands (.native (some v)) done [] :: rest⟩
  | _ => none

/-- `return` leaves the scopes and loops of the function as they are. -/
def leaveFunction : List (Frame ν) → List (Frame ν)
  | .function origLex args :: rest => .function origLex args :: rest
  | _ :: rest => leaveFunction rest
  | [] => []

/-- A number of `pone_pop_scope`, and `continue` or `break`: the frames from the loop on. -/
def leaveLoop (world : Nat) : List (Frame ν) → Nat → Universe (Name ν) → Option (Machine ν)
  | .stmts false _ :: rest, pops, u => leaveLoop world rest pops u
  | .stmts true _ :: rest, 0, u => leaveLoop world rest 0 u
  | .stmts true _ :: rest, pops + 1, u => (popScope u world).bind (leaveLoop world rest pops)
  | .forLoop iter body :: rest, 0, u => some ⟨u, .forLoop iter body :: rest⟩
  | .whileLoop cond body :: rest, 0, u => some ⟨u, .whileLoop cond body :: rest⟩
  | _, _, _ => none

/-- What follows from the value of a condition: a test, another element, an argument that was
passed. -/
def decideTruth (holds : Bool) : List (Frame ν) → Option (List (Frame ν))
  | .operands (.select yes no) [_] [] :: rest =>
      some (.operands .comma [] [if holds then yes else no] :: rest)
  | .operands (.logical id right) [_] [] :: rest =>
      some (.operands .comma []
        (if holds then [.getLex (.logical id)]
          else [.assign 0 .declares (.logical id) right, .getLex (.logical id)]) :: rest)
  | .operands (.branch yes no) [_] [] :: rest =>
      some (.stmts false [if holds then yes else no] :: rest)
  | .operands .whileCond [_] [] :: .whileLoop cond body :: rest =>
      some (if holds then .stmts false [body] :: .whileLoop cond body :: rest else rest)
  -- The scope of the round in which a for loop runs out is never popped.
  | .operands .forNext [next] [] :: .stmts scope todo :: .forLoop iter body :: rest =>
      some (if holds then
        .operands (.assign 0 .topic) [next] [] :: .stmts scope todo :: .forLoop iter body :: rest
        else rest)
  | .stmts scope (.param x default :: todo) :: rest =>
      some (.operands (.assign 0 x) [] [if holds then .atom else default] ::
        .stmts scope todo :: rest)
  | _ => none

/-- How a function of the runtime gets a value. -/
inductive Access where
  | latest
  | operand (i : Nat)
  /-- An argument of the running sub, `self` among them. -/
  | argument (i : Nat)
  | inside (holder : Access) (child : Ref)
  | elsewhere (ref : Ref)

def Frame.arguments : Frame ν → Option (List Operand)
  | .function _ args => some args
  | _ => none

def Access.get (u : Universe (Name ν)) (latest : Option Operand) (done : List Operand)
    (rest : List (Frame ν)) : Access → Option Operand
  | .latest => latest
  | .operand i => done[i]?
  | .argument i => (rest.findSome? Frame.arguments).bind fun args => args[i]?
  | .inside holder child =>
      (holder.get u latest done rest).bind fun v =>
        if child ∈ u.children v.ref then some ⟨child, .stored v.ref v.source⟩ else none
  | .elsewhere ref => some ⟨ref, .elsewhere⟩

/-- A step of a function of the runtime. -/
inductive Native (ν : Type) where
  | fresh (v : Value (Name ν))
  | save (a : Access)
  | result (a : Access)
  /-- `pone_code_vcall` of an emitted function with this body, or of another function of the
  runtime. -/
  | call (code : Access) (args : List Access) (body : Option (Cmd ν))

/-- `orig_lex`, which only the call of a code value with a lex keeps. -/
def origLex (u : Universe (Name ν)) (world : Nat) (code : Ref) : Option (Option Ref) :=
  match u.value code with
  | some (.code (some _)) => some ((u.worlds[world]?).bind World.lex)
  | _ => none

def nativeStep (world : Nat) (u : Universe (Name ν)) (latest : Option Operand)
    (done : List Operand) (rest : List (Frame ν)) : Native ν → Option (Machine ν)
  | .fresh v =>
      (objAlloc u world v).map fun made =>
        ⟨made.1, .operands (.native (some ⟨made.2, .saved⟩)) done [] :: rest⟩
  | .save a => do
      let _ ← u.worlds[world]?
      let v ← a.get u latest done rest
      return ⟨saveTmp u world v.ref, .operands (.native (some ⟨v.ref, .saved⟩)) done [] :: rest⟩
  | .result a => (a.get u latest done rest).bind fun v => deliver world u v rest
  | .call code args body => do
      let code ← code.get u latest done rest
      let args ← args.mapM (Access.get u latest done rest)
      let called ← codeVcall u world code.ref
      let below := .function (origLex u world code.ref) args ::
        .operands (.native latest) done [] :: rest
      match body with
      | some body => do
          let entered ← pushScope called world
          return ⟨entered, .stmts true [body] :: below⟩
      | none => return ⟨called, .operands (.native none) args [] :: below⟩

inductive Label (ν : Type) where
  /-- An operation of the runtime, by this thread or another one. -/
  | op (op : Op (Name ν))
  /-- The emitted code goes on. -/
  | advance
  | truth (holds : Bool)
  | native (act : Native ν)
  /-- An exception leaves a number of frames, as far as a function of the runtime that handles it. -/
  | throw (val : Ref) (rows frames : Nat)

variable [DecidableEq ν]

/-- `pone_get_lex`. -/
def getVariable (u : Universe (Name ν)) (world : Nat) (x : Name ν) : Option Operand := do
  let w ← u.worlds[world]?
  let found ← getLex u x (u.slots.length + 1) w.lex
  match found with
  | some val => return ⟨val, .lexical⟩
  | none => (u.globals.lookup x).map fun val => ⟨val, .elsewhere⟩

/-- `pone_assign`. -/
def assignVariable (u : Universe (Name ν)) (world up : Nat) (x : Name ν) (val : Ref) :
    Option (Universe (Name ν)) := do
  let w ← u.worlds[world]?
  let lex ← w.lex
  let target ← ScopeChain.ancestor u.lexParent up lex
  match u.value target with
  | some (.lex parent bindings) => store u target (.lex parent (bindings.insert x val))
  | _ => none

/-- The evaluation of an expression begins. -/
def evaluate (world : Nat) (u : Universe (Name ν)) (stack : List (Frame ν)) :
    Cmd ν → Option (Machine ν)
  | .getLex x => (getVariable u world x).bind fun v => deliver world u v stack
  | e => (expression e).map fun frame => ⟨u, frame :: stack⟩

/-- A statement begins; `todo` are those behind it. -/
def execute (world : Nat) (u : Universe (Name ν)) (scope : Bool) (todo : List (Cmd ν))
    (rest : List (Frame ν)) : Cmd ν → Option (Machine ν)
  -- The end of a list, or a literal that is not used.
  | .atom => some ⟨u, .stmts scope todo :: rest⟩
  | .seq args .native => evaluate world u (.stmts scope todo :: rest) (.seq args .native)
  | .seq first second => some ⟨u, .stmts scope (first :: second :: todo) :: rest⟩
  | .inScope body =>
      (pushScope u world).map fun u => ⟨u, .stmts true [body] :: .stmts scope todo :: rest⟩
  | .branch cond yes no =>
      some ⟨u, .operands (.branch yes no) [] [cond] :: .stmts scope todo :: rest⟩
  | .forLoop iter body =>
      some ⟨u, .operands (.forInit body) [] [.seq (.seq iter .atom) .native] ::
        .stmts scope todo :: rest⟩
  | .whileLoop cond body => some ⟨u, .whileLoop cond body :: .stmts scope todo :: rest⟩
  | .ret e => some ⟨u, .operands .ret [] [e] :: .stmts scope todo :: rest⟩
  | .next pops => leaveLoop world (.stmts scope todo :: rest) pops u
  | .last pops =>
      (leaveLoop world (.stmts scope todo :: rest) pops u).map fun m => ⟨m.heap, m.stack.tail⟩
  | e => evaluate world u (.stmts scope todo :: rest) e

/-- The emitted code goes on where it need not wait for a function of the runtime or a condition. -/
def advance (world : Nat) (u : Universe (Name ν)) : List (Frame ν) → Option (Machine ν)
  | .operands head done (e :: todo) :: rest =>
      evaluate world u (.operands head done (e :: todo) :: rest) e
  | .operands (.assign up x) [v] [] :: rest =>
      (assignVariable u world up x v.ref).bind fun u => deliver world u v rest
  | .operands .comma (v :: _) [] :: rest => deliver world u v rest
  | .operands (.forInit body) [iter] [] :: rest => some ⟨u, .forLoop iter body :: rest⟩
  | .operands .ret [v] [] :: rest => deliver world u v (leaveFunction rest)
  | .stmts true [] :: rest => (popScope u world).map fun u => ⟨u, rest⟩
  | .stmts false [] :: rest => some ⟨u, rest⟩
  | .stmts scope (s :: todo) :: rest => execute world u scope todo rest s
  -- A round begins with `pone_iter_next`, which is called with the iterator.
  | .forLoop iter body :: rest =>
      (pushScope u world).map fun u =>
        ⟨u, .operands (.native none) [iter] [] :: .operands .forNext [] [.native] ::
          .stmts true [body] :: .forLoop iter body :: rest⟩
  | .whileLoop cond body :: rest =>
      some ⟨u, .operands .whileCond [] [cond] :: .whileLoop cond body :: rest⟩
  -- The end of the body: `return pone_nil();`
  | .function origLex args :: rest =>
      deliver world u ⟨.nil, .elsewhere⟩ (.function origLex args :: rest)
  | _ => none

namespace Machine

/-- A step of the thread that runs in a world. -/
def step (world : Nat) (m : Machine ν) : Label ν → Option (Machine ν)
  | .op op =>
      if op.keeps world then (Heap.step m.heap op).map fun u => { m with heap := u } else none
  | .advance => advance world m.heap m.stack
  | .truth holds => (decideTruth holds m.stack).map fun stack => { m with stack := stack }
  | .native act =>
      match m.stack with
      | .operands (.native latest) done [] :: rest => nativeStep world m.heap latest done rest act
      | _ => none
  | .throw val rows frames =>
      match m.stack.drop frames with
      | .operands (.native _) done [] :: rest =>
          (excThrow m.heap world val rows).map fun u =>
            ⟨u, .operands (.native none) done [] :: rest⟩
      | _ => none

/-- A thread in the C function that will call its first code value. -/
def start (heap : Universe (Name ν)) : Machine ν := ⟨heap, [.operands (.native none) [] []]⟩

end Machine

end Machine

end Heap
end Pone
