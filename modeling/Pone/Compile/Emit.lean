import Pone.Compile.Node
import Pone.Compile.Numbering

/-!
# The emitted code

`compile` follows `_pone_compile`.  The commands stand for the C statements and expressions that it
prints: calls of the runtime, scopes, the C control flow around them, and functions of their own for
subs and tries.  A reference to such a function stands with the body that bears its name.  Beside what
the compiler keeps (`vars_stack`, `loop_stack`) the context carries the declarations of the source,
parameters included; they only annotate the commands that write a variable and do not influence the
code.
-/

namespace Pone
namespace Compile

/-- What a write refers to in the source: it is the declaration itself, or its innermost enclosing
declaration stands a number of scopes further out. -/
inductive Decl where
  | declares
  | outer (level : Nat) (parameter : Bool)
  deriving DecidableEq

inductive Cmd (ν : Type) where
  | atom
  /-- A function of the runtime, which may call the code values that it reaches. -/
  | native
  | getLex (x : Name ν)
  /-- `pone_assign(world, up, x, rhs)`. -/
  | assign (up : Nat) (decl : Decl) (x : Name ν) (rhs : Cmd ν)
  /-- `pone_assign_list`. -/
  | assignList (xs : List (Name ν)) (rhs : Cmd ν)
  /-- `pone_inplace_add(world, up, x, rhs)` and the like. -/
  | inplace (up : Nat) (decl : Decl) (x : Name ν) (rhs : Cmd ν)
  | logicalOp (id : Nat) (left right : Cmd ν)
  /-- `pone_code_call`. -/
  | codeCall (code args : Cmd ν)
  /-- `pone_code_new` of a function that pushes a scope, runs the body, pops and returns nil.  Between
  here and the sub in the source that the function was printed for stand a number of scopes. -/
  | codeNew (between : Nat) (body : Cmd ν)
  /-- `pone_add_method` of `pone_code_new_c` of such a function. -/
  | addMethod (body : Cmd ν)
  /-- `pone_try` of `pone_code_new` of such a function. -/
  | tryCode (between : Nat) (body : Cmd ν)
  | inScope (body : Cmd ν)
  | branch (cond yes no : Cmd ν)
  | forLoop (iter body : Cmd ν)
  /-- The `while (true)` of a for loop, whose iterator is there. -/
  | forRounds (body : Cmd ν)
  | whileLoop (cond body : Cmd ν)
  | ret (e : Cmd ν)
  /-- `continue` after a number of `pone_pop_scope`. -/
  | next (pops : Nat)
  /-- `break` after a number of `pone_pop_scope`. -/
  | last (pops : Nat)
  /-- The test for too few arguments. -/
  | arity
  | param (x : Name ν) (default : Cmd ν)
  | seq (first second : Cmd ν)
  deriving DecidableEq

/-- A function that has been printed. -/
structure Sub (ν : Type) where
  definition : Definition (Name ν)
  /-- The height of `vars_stack` in its body. -/
  depth : Nat
  body : Cmd ν

/-- `pone_compile_ctx`, the innermost scope first. -/
structure Ctx (ν : Type) where
  varsStack : List (List (Name ν))
  /-- The height of `vars_stack` at each enclosing loop. -/
  loopStack : List Nat
  logicalOpCounter : Nat
  naming : Naming
  /-- The functions whose bodies are complete, the latest first. -/
  subs : List (Sub ν)
  /-- Whether C accepts `continue` and `break` here: a loop of the same function encloses them. -/
  inLoop : Bool
  /-- The names that the source declares in each scope, and which of them are parameters. -/
  scopes : List (List (Name ν × Bool))

section Compiler

variable {ν : Type} [DecidableEq ν]

/-- `push_vars_stack`. -/
def Ctx.pushVars (ctx : Ctx ν) : Ctx ν :=
  { ctx with varsStack := [] :: ctx.varsStack, scopes := [] :: ctx.scopes }

/-- `pop_vars_stack`. -/
def Ctx.popVars (ctx : Ctx ν) : Ctx ν :=
  { ctx with varsStack := ctx.varsStack.tail, scopes := ctx.scopes.tail }

/-- Record in the innermost scope of the source that it declares a name. -/
def Ctx.declare (ctx : Ctx ν) (x : Name ν) (parameter : Bool) : Ctx ν :=
  { ctx with scopes := match ctx.scopes with
      | [] => []
      | names :: outer => ((x, parameter) :: names) :: outer }

/-- `def_lex`. -/
def Ctx.defLex (ctx : Ctx ν) (x : Name ν) : Ctx ν :=
  { ctx.declare x false with varsStack := match ctx.varsStack with
      | [] => []
      | names :: outer => (x :: names) :: outer }

/-- `find_lex`, which aborts when no scope has the name. -/
def Ctx.findLex (ctx : Ctx ν) (x : Name ν) : Option Nat :=
  ctx.varsStack.findIdx? (x ∈ ·)

/-- The innermost enclosing declaration of a name in the source. -/
def Ctx.resolve (ctx : Ctx ν) (x : Name ν) : Option Decl :=
  (ctx.scopes.findIdx? fun names => x ∈ names.map Prod.fst).map fun level =>
    .outer level ((x, false) ∉ ctx.scopes.getD level [])

/-- A function of its own is printed, where no loop of the outer one can be left. -/
def Ctx.enterFunction (ctx : Ctx ν) (naming : Naming) : Ctx ν :=
  { ctx.pushVars with inLoop := false, naming := naming }

/-- Its body is complete. -/
def Ctx.leaveFunction (ctx : Ctx ν) (inLoop : Bool) (definition : Definition (Name ν))
    (body : Cmd ν) : Ctx ν :=
  { ctx.popVars with
    inLoop := inLoop
    subs := ⟨definition, ctx.varsStack.length, body⟩ :: ctx.subs }

/-- The body that the name of a function stands for, and how many scopes lie between here and the sub
or try that it was printed for; `none` where no function has the name. -/
def Ctx.refer (ctx : Ctx ν) (definition : Definition (Name ν)) : Option (Nat × Cmd ν) :=
  (ctx.subs.find? fun sub => sub.definition = definition).map fun sub =>
    (sub.depth - (ctx.varsStack.length + 1), sub.body)

/-- `PUSH_LOOP_STACK`. -/
def Ctx.pushLoop (ctx : Ctx ν) : Ctx ν :=
  { ctx with loopStack := ctx.varsStack.length :: ctx.loopStack, inLoop := true }

/-- `POP_LOOP_STACK`. -/
def Ctx.popLoop (ctx : Ctx ν) (inLoop : Bool) : Ctx ν :=
  { ctx with loopStack := ctx.loopStack.tail, inLoop := inLoop }

/-- The number of scopes between here and the innermost loop. -/
def Ctx.loopDepth (ctx : Ctx ν) : Option Nat :=
  if ctx.inLoop then ctx.loopStack.head?.map (ctx.varsStack.length - ·) else none

/-- `_pone_compile`, on a tree whose subs and tries have their injected returns; `none` where it
aborts or prints what C rejects.  A sub with a name is referred to by that name, which is its own. -/
def compile : Node ν → Ctx ν → Option (Cmd ν × Ctx ν)
  | .atom, ctx => some (.atom, ctx)
  | .nop, ctx => some (.atom, ctx)
  | .done, ctx => some (.atom, ctx)
  | .var x, ctx => some (.getLex x, ctx)
  | .my x, ctx => some (.assign 0 .declares x .atom, ctx.defLex x)
  | .myAssign x rhs, ctx => do
      let up ← (ctx.defLex x).findLex x
      let (rhs, ctx) ← compile rhs (ctx.defLex x)
      return (.assign up .declares x rhs, ctx)
  | .myList xs rhs, ctx => do
      let (rhs, ctx) ← compile rhs (xs.foldl Ctx.defLex ctx)
      return (.assignList xs rhs, ctx)
  | .assign x rhs, ctx => do
      let up ← ctx.findLex x
      let decl ← ctx.resolve x
      let (rhs, ctx) ← compile rhs ctx
      return (.assign up decl x rhs, ctx)
  | .inplace x rhs, ctx => do
      let up ← ctx.findLex x
      let decl ← ctx.resolve x
      let (rhs, ctx) ← compile rhs ctx
      return (.inplace up decl x rhs, ctx)
  | .op args, ctx => do
      let (args, ctx) ← compile args ctx
      return (.seq args .native, ctx)
  | .conditional cond yes no, ctx => do
      let (cond, ctx) ← compile cond ctx
      let (yes, ctx) ← compile yes ctx
      let (no, ctx) ← compile no ctx
      return (.branch cond yes no, ctx)
  | .logicalOp left right, ctx => do
      let id := ctx.logicalOpCounter
      let (left, ctx) ← compile left { ctx with logicalOpCounter := id + 1 }
      let (right, ctx) ← compile right ctx
      return (.logicalOp id left right, ctx)
  | .funcall f args, ctx => do
      let (args, ctx) ← compile args ctx
      return (.codeCall (.getLex f) args, ctx)
  | .func name params body, ctx => do
      let entered := ctx.naming.enter name
      let (params, inner) ← compile params (ctx.enterFunction entered)
      let (body, inner) ← compile body inner
      let ctx := inner.leaveFunction ctx.inLoop (entered.sub name) (.seq params body)
      match name with
      | none => do
          let (between, meant) ← ctx.refer (ctx.naming.sub none)
          return (.codeNew between meant, ctx)
      | some x =>
          if ctx.naming.inClass then return (.addMethod (.seq params body), ctx)
          else return (.assign 0 .declares x (.codeNew 0 (.seq params body)), ctx)
  | .params list, ctx => do
      let (list, ctx) ← compile list ctx
      return (.seq .arity list, ctx)
  | .param x default, ctx => do
      let (default, ctx) ← compile default ctx
      return (.param x default, ctx.declare x true)
  | .attempt body, ctx => do
      let entered := ctx.naming.enterTry
      let (body, inner) ← compile body (ctx.enterFunction entered)
      let ctx := inner.leaveFunction ctx.inLoop entered.attempt body
      let (between, meant) ← ctx.refer ctx.naming.attempt
      return (.tryCode between meant, ctx)
  | .klass x body, ctx => do
      let (body, ctx) ← compile body { ctx with naming := { ctx.naming with inClass := true } }
      return (.seq (.assign 0 .declares x .native) body,
        { ctx with naming := { ctx.naming with inClass := false } })
  | .block body, ctx => do
      let (body, ctx) ← compile body ctx.pushVars
      return (.inScope body, ctx.popVars)
  | .statements head rest, ctx => do
      let (head, ctx) ← compile head ctx
      let (rest, ctx) ← compile rest ctx
      return (.seq head rest, ctx)
  | .ifThen cond body rest, ctx | .elsif cond body rest, ctx => do
      let (cond, ctx) ← compile cond ctx
      let (body, ctx) ← compile body ctx
      let (rest, ctx) ← compile rest ctx
      return (.branch cond body rest, ctx)
  | .otherwise body, ctx => compile body ctx
  | .forLoop iter body, ctx => do
      let (iter, ctx) ← compile iter ctx
      let (body, inner) ← compile body (ctx.pushLoop.pushVars.defLex .topic)
      return (.forLoop iter body, inner.popVars.popLoop ctx.inLoop)
  | .whileLoop cond body, ctx => do
      let (cond, ctx) ← compile cond ctx
      let (body, inner) ← compile body ctx.pushLoop
      return (.whileLoop cond body, inner.popLoop ctx.inLoop)
  | .ret e, ctx => do
      let (e, ctx) ← compile e ctx
      return (.ret e, ctx)
  | .next, ctx => do
      let pops ← ctx.loopDepth
      return (.next pops, ctx)
  | .last, ctx => do
      let pops ← ctx.loopDepth
      return (.last pops, ctx)

/-- `pone_compile_ctx_new` and the scope that `pone_compile_node` pushes for the file. -/
def Ctx.initial : Ctx ν :=
  { varsStack := [[]], loopStack := [], logicalOpCounter := 0, naming := ⟨0, false⟩,
    subs := [], inLoop := false, scopes := [[]] }

/-- `pone_compile_node`. -/
def compileProgram (program : Node ν) : Option (Cmd ν) :=
  (compile (withReturns program) Ctx.initial).map Prod.fst

end Compiler

end Compile
end Pone
