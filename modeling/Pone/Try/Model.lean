import Mathlib.Data.Int.Init
import Mathlib.Logic.Function.Basic
import Pone.Execution

/-!
# Calls, exception handlers and the caller stack

The control part of a world: `world->lex`, the handler stack of `exc.c`, the caller stack of
`code.c`, and of the save stacks what decides whether a collection keeps `world->caller_stack`.  The
C stack is a list of frames, the innermost first; `longjmp` cuts it back to the `pone_try` that
called the `setjmp`.  What the called functions do is any sequence of events.
-/

namespace Pone
namespace Try

/-- An entry of `tmpstack`. -/
inductive Tmp where
  | callerStack
  | other
  deriving DecidableEq

/-- An active C function. -/
inductive Frame (ρ : Type*) where
  /-- `pone_code_vcall` with its caller row, and `orig_lex` where the code has a lex. -/
  | vcall (row : ρ) (origLex : Option (Option Nat))
  /-- `pone_try`, below the `pone_code_vcall` that it makes. -/
  | attempt
  deriving DecidableEq

/-- The part of `pone_world` that calls and exceptions use, and the C stack. -/
structure World (ρ ν : Type*) where
  /-- An address, or `none` for `NULL`. -/
  lex : Option Nat
  /-- `as.lex.parent` of the lex at an address. -/
  parent : Nat → Option Nat
  /-- The rows of `caller_stack`; `none` once a collection has freed the array. -/
  callerStack : Option (List ρ)
  /-- `err_handlers[i]`, as the height of the C stack below the `pone_try` it jumps back to. -/
  errHandlers : Int → Nat
  errHandlerLexs : Int → Option Nat
  errHandlerCallers : Int → Nat
  errHandlerIdx : Int
  errHandlerMax : Int
  errvar : ν
  tmpstack : List Tmp
  savestack : List Nat
  gcRequested : Bool
  cstack : List (Frame ρ)
  /-- What the last `pone_code_vcall` or `pone_try` has returned. -/
  result : ν

/-- What the functions that a `pone_try` runs can do. -/
inductive Event (ρ ν : Type*) where
  | pushScope (lex : Nat)
  | popScope
  /-- `try_load_pn` writes `world->lex` around the code of a module. -/
  | setLex (lex : Option Nat)
  | alloc
  /-- `gc_request`, or an allocation that finds the arena full. -/
  | requestGc
  /-- `pone_code_vcall` on a code with this lex. -/
  | vcall (row : ρ) (lex : Option Nat)
  /-- The function of the innermost `pone_code_vcall` returns. -/
  | ret (val : ν)
  /-- `pone_try` on a code with this lex. -/
  | attempt (row : ρ) (lex : Option Nat)
  | throw (val : ν)
  deriving DecidableEq

section Operations

variable {ρ ν : Type*}

/-- `pone_save_tmp` on values other than the caller stack. -/
def World.saveTmp (w : World ρ ν) (count : Nat) : World ρ ν :=
  { w with tmpstack := w.tmpstack ++ List.replicate count .other }

/-- `pone_push_scope`. -/
def pushScope (w : World ρ ν) (lex : Nat) : World ρ ν :=
  { w.saveTmp 1 with
    parent := Function.update w.parent lex w.lex
    lex := some lex
    savestack := w.savestack ++ [w.tmpstack.length + 1] }

/-- `pone_pop_scope`, which aborts where a lex is missing. -/
def popScope (w : World ρ ν) : Option (World ρ ν) :=
  match w.lex.bind w.parent, w.savestack.getLast? with
  | some parent, some saved =>
      some { w with
        lex := some parent
        savestack := w.savestack.dropLast
        tmpstack := w.tmpstack.take saved }
  | _, _ => none

/-- `pone_gc_run`: the caller stack is marked only where it is on `tmpstack`. -/
def gcRun (w : World ρ ν) : World ρ ν :=
  { w with
    callerStack := if .callerStack ∈ w.tmpstack then w.callerStack else none
    gcRequested := false }

/-- `pone_push_caller`. -/
def pushCaller (w : World ρ ν) (row : ρ) : World ρ ν :=
  { w.saveTmp 4 with callerStack := w.callerStack.map (· ++ [row]) }

/-- `pone_pop_caller`. -/
def popCaller (w : World ρ ν) : World ρ ν :=
  { w.saveTmp 1 with callerStack := w.callerStack.map List.dropLast }

/-- `pone_code_vcall`, up to the call of the function. -/
def codeVcall (w : World ρ ν) (row : ρ) (lex : Option Nat) : World ρ ν :=
  let w := pushCaller (if w.gcRequested then gcRun w else w) row
  match lex with
  | some codeLex =>
      { w.saveTmp (if w.lex.isSome then 1 else 0) with
        lex := some codeLex
        cstack := .vcall row (some w.lex) :: w.cstack }
  | none => { w with cstack := .vcall row none :: w.cstack }

/-- `err_handler_max` after the test at the head of `pone_exc_handler_push`, which doubles the arrays
only when `idx` has reached it. -/
def growHandlers (w : World ρ ν) : Int :=
  if w.errHandlerIdx = w.errHandlerMax then 2 * w.errHandlerMax else w.errHandlerMax

/-- `pone_exc_handler_push`.  There is no step where `idx + 1` is outside of the arrays. -/
def excHandlerPush (w : World ρ ν) : Option (World ρ ν) :=
  let idx := w.errHandlerIdx + 1
  match w.callerStack with
  | some rows =>
      if idx < growHandlers w then
        some { w with
          errHandlerMax := growHandlers w
          errHandlerLexs := Function.update w.errHandlerLexs idx w.lex
          errHandlerCallers := Function.update w.errHandlerCallers idx rows.length
          errHandlers := Function.update w.errHandlers idx w.cstack.length
          errHandlerIdx := idx }
      else
        none
  | none => none

/-- `pone_exc_handler_pop`. -/
def excHandlerPop (w : World ρ ν) : World ρ ν :=
  { w with errHandlerIdx := w.errHandlerIdx - 1 }

/-- `pone_try`, up to the call of the function. -/
def excTry (w : World ρ ν) (row : ρ) (lex : Option Nat) : Option (World ρ ν) :=
  (excHandlerPush w).map fun pushed =>
    codeVcall { pushed with cstack := .attempt :: w.cstack } row lex

/-- The end of `pone_code_vcall`, and of the `pone_try` that has called it. -/
def codeReturn (w : World ρ ν) (val : ν) : Option (World ρ ν) :=
  match w.cstack with
  | .vcall _ origLex :: below =>
      let w := popCaller { w with lex := origLex.getD w.lex, cstack := below, result := val }
      match below with
      | .attempt :: rest => some (excHandlerPop { w with cstack := rest })
      | _ => some w
  | _ => none

/-- `pone_throw`, and the `return pone_nil()` of the `pone_try` it jumps to.  The handler with index
zero ends the process. -/
def excThrow (nil : ν) (w : World ρ ν) (val : ν) : Option (World ρ ν) :=
  let size := w.errHandlerCallers w.errHandlerIdx
  match w.callerStack with
  | some rows =>
      if 0 < w.errHandlerIdx then
        some { w.saveTmp (rows.length - size) with
          errvar := val
          lex := w.errHandlerLexs w.errHandlerIdx
          callerStack := some (rows.take size)
          cstack := w.cstack.drop (w.cstack.length - w.errHandlers w.errHandlerIdx)
          errHandlerIdx := w.errHandlerIdx - 1
          result := nil }
      else
        none
  | none => none

/-- One step. -/
def step (nil : ν) (w : World ρ ν) : Event ρ ν → Option (World ρ ν)
  | .pushScope lex => some (pushScope w lex)
  | .popScope => popScope w
  | .setLex lex => some { w with lex := lex }
  | .alloc => some (w.saveTmp 1)
  | .requestGc => some { w with gcRequested := true }
  | .vcall row lex => some (codeVcall w row lex)
  | .ret val => codeReturn w val
  | .attempt row lex => excTry w row lex
  | .throw val => excThrow nil w val

/-- `pone_world_new`, which empties `tmpstack` after it has allocated the lex and before it allocates
the caller stack. -/
def worldNew (nil : ν) : World ρ ν where
  lex := some 0
  parent := fun _ => none
  callerStack := some []
  errHandlers := fun _ => 0
  errHandlerLexs := fun _ => none
  errHandlerCallers := fun _ => 0
  errHandlerIdx := 0
  errHandlerMax := 10
  errvar := nil
  tmpstack := [.callerStack]
  savestack := []
  gcRequested := false
  cstack := []
  result := nil

/-- `pone_world_release`, between two jobs of a worker. -/
def worldRelease (w : World ρ ν) : World ρ ν :=
  let w := { w with tmpstack := [], savestack := [] }
  if w.gcRequested then gcRun w else w

/-- The rows of the active calls, the innermost last. -/
def activeRows : List (Frame ρ) → List ρ
  | [] => []
  | .vcall row _ :: below => activeRows below ++ [row]
  | .attempt :: below => activeRows below

end Operations

end Try
end Pone
