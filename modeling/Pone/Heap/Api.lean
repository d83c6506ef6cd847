import Pone.Execution
import Pone.Heap.Gc

/-!
# The operations of the runtime on the heap

Allocation, the stacks of a world, scopes, calls, exceptions and collections, each as the runtime
does it, and two operations that stand for the rest: `alloc` with any initial value for the
constructors of the types, and `store` with any new content for the operations that change a value
in place.  Whatever a program does is a sequence of these.
-/

namespace Pone
namespace Heap

section Api

variable {κ : Type}

/-- `PONE_ARENA_SIZE`. -/
def arenaSize : Nat := 1024

/-- `pone_save_tmp`. -/
def saveTmp (u : Universe κ) (world : Nat) (ref : Ref) : Universe κ :=
  u.modifyWorld world fun w => { w with tmpstack := w.tmpstack ++ [ref] }

/-- `pone_obj_alloc` and the initialisation of the value.  When the last arena is full a new one is
made and a collection requested. -/
def objAlloc (u : Universe κ) (world : Nat) (v : Value κ) : Option (Universe κ × Ref) :=
  match u.worlds[world]? with
  | none => none
  | some w =>
      match w.freelist with
      | index :: rest =>
          let u := { u with marked := Function.update u.marked (.slot world index) false }
          let u := (u.setSlot world index (some v)).modifyWorld world fun w =>
            { w with freelist := rest }
          some (saveTmp u world (.slot world index), .slot world index)
      | [] =>
          let index := w.slots.length
          let full := index ≠ 0 ∧ index % arenaSize = 0
          let u := { u with marked := Function.update u.marked (.slot world index) false }
          let u := u.modifyWorld world fun w =>
            { w with slots := w.slots ++ [some v], gcRequested := w.gcRequested || full }
          some (saveTmp u world (.slot world index), .slot world index)

/-- The content of a value is replaced in place; a freed value has none. -/
def store (u : Universe κ) (ref : Ref) (v : Value κ) : Option (Universe κ) :=
  match ref, u.value ref with
  | .slot world index, some _ => some (u.setSlot world index (some v))
  | _, _ => none

/-- `pone_ary_push`. -/
def aryPush (u : Universe κ) (ref item : Ref) : Option (Universe κ) :=
  match u.value ref with
  | some (.ary items) => store u ref (.ary (items ++ [item]))
  | _ => none

/-- `pone_ary_pop` of a value that is not empty. -/
def aryPop (u : Universe κ) (world : Nat) (ref : Ref) : Option (Universe κ) :=
  match u.value ref with
  | some (.ary items) =>
      match items.getLast? with
      | some item => store (saveTmp u world item) ref (.ary items.dropLast)
      | none => none
  | _ => none

/-- `pone_world_new`: the entry of the lex on `tmpstack` is dropped before the caller stack is made. -/
def worldNew (u : Universe κ) : Universe κ :=
  let world := u.worlds.length
  { u with
    worlds := u.worlds ++ [{
      slots := [some (.lex none ∅), some (.ary [])], freelist := [], code := none
      lex := some (.slot world 0), errvar := some .nil, callerStack := some (.slot world 1)
      errHandlerLexs := [none], tmpstack := [.slot world 1], savestack := []
      gcRequested := false }]
    marked := fun ref =>
      u.marked ref && ref ≠ .slot world 0 && ref ≠ .slot world 1 }

/-- `thread_start` saves the lex for the outermost handler. -/
def threadStart (u : Universe κ) (world : Nat) : Universe κ :=
  u.modifyWorld world fun w => { w with errHandlerLexs := w.errHandlerLexs.set 0 w.lex }

/-- `pone_push_scope`. -/
def pushScope (u : Universe κ) (world : Nat) : Option (Universe κ) := do
  let w ← u.worlds[world]?
  let (u, lex) ← objAlloc u world (.lex w.lex ∅)
  return u.modifyWorld world fun w =>
    { w with lex := some lex, savestack := w.savestack ++ [w.tmpstack.length] }

/-- `pone_pop_scope`, which aborts where a lex is missing. -/
def popScope (u : Universe κ) (world : Nat) : Option (Universe κ) := do
  let w ← u.worlds[world]?
  let lex ← w.lex
  let saved ← w.savestack.getLast?
  match u.value lex with
  | some (.lex (some parent) _) =>
      some (u.modifyWorld world fun w =>
        { w with
          lex := some parent
          savestack := w.savestack.dropLast
          tmpstack := w.tmpstack.take saved })
  | _ => none

/-- `pone_push_caller`, whose texts do not matter. -/
def pushCaller (u : Universe κ) (world : Nat) : Option (Universe κ) := do
  let w ← u.worlds[world]?
  let callerStack ← w.callerStack
  let (u, filename) ← objAlloc u world (.str true (.own []))
  let (u, lineno) ← objAlloc u world (.int 0)
  let (u, sub) ← objAlloc u world (.str true (.own []))
  let (u, row) ← objAlloc u world (.ary [filename, lineno, sub])
  aryPush u callerStack row

/-- `pone_pop_caller`. -/
def popCaller (u : Universe κ) (world : Nat) : Option (Universe κ) := do
  let w ← u.worlds[world]?
  let callerStack ← w.callerStack
  aryPop u world callerStack

/-- `pone_code_vcall`, up to the call of the function. -/
def codeVcall (u : Universe κ) (world : Nat) (code : Ref) : Option (Universe κ) := do
  let w ← u.worlds[world]?
  let u ← if w.gcRequested then gcRun u world else some u
  let u ← pushCaller u world
  match u.value code with
  | some (.code (some lex)) =>
      let u := match w.lex with
        | some origLex => saveTmp u world origLex
        | none => u
      some (u.modifyWorld world fun w => { w with lex := some lex })
  | some (.code none) => some u
  | _ => none

/-- The end of `pone_code_vcall`; the C stack has kept `orig_lex` where the code has a lex. -/
def codeReturn (u : Universe κ) (world : Nat) (origLex : Option (Option Ref)) :
    Option (Universe κ) :=
  popCaller (u.modifyWorld world fun w => { w with lex := origLex.getD w.lex }) world

/-- `pone_exc_handler_push`. -/
def excHandlerPush (u : Universe κ) (world : Nat) : Universe κ :=
  u.modifyWorld world fun w => { w with errHandlerLexs := w.errHandlerLexs ++ [w.lex] }

/-- `pone_exc_handler_pop`. -/
def excHandlerPop (u : Universe κ) (world : Nat) : Universe κ :=
  u.modifyWorld world fun w => { w with errHandlerLexs := w.errHandlerLexs.dropLast }

/-- `pone_throw` to a handler other than the outermost, which ends the process; `rows` is the height
of the caller stack that the handler has saved. -/
def excThrow (u : Universe κ) (world : Nat) (val : Ref) (rows : Nat) : Option (Universe κ) := do
  let w ← u.worlds[world]?
  let callerStack ← w.callerStack
  let handler ← w.errHandlerLexs.getLast?
  match u.value callerStack with
  | some (.ary items) =>
      let u := (items.drop rows).reverse.foldl (saveTmp · world ·) u
      let u ← store u callerStack (.ary (items.take rows))
      if 1 < w.errHandlerLexs.length then
        return u.modifyWorld world fun w =>
          { w with errvar := some val, lex := handler, errHandlerLexs := w.errHandlerLexs.dropLast }
      else none
  | _ => none

/-- `pone_world_release` before its collection. -/
def worldReset (u : Universe κ) (world : Nat) : Universe κ :=
  u.modifyWorld world fun w => { w with tmpstack := [], savestack := [], code := none }

/-- `pone_world_release`. -/
def worldRelease (u : Universe κ) (world : Nat) : Option (Universe κ) := do
  let w ← u.worlds[world]?
  if w.gcRequested then gcRun (worldReset u world) world else some (worldReset u world)

inductive Op (κ : Type) where
  | worldNew
  | threadStart (world : Nat)
  | alloc (world : Nat) (v : Value κ)
  /-- The body that `pone_opaque_new` allocates. -/
  | bodyNew (klass : Ref)
  | store (ref : Ref) (v : Value κ)
  | saveTmp (world : Nat) (ref : Ref)
  | setCode (world : Nat) (code : Ref)
  /-- `try_load_pn` and the ends of calls write `world->lex`. -/
  | setLex (world : Nat) (lex : Option Ref)
  | setErrvar (world : Nat) (val : Ref)
  | setInc (ref : Ref)
  | setArgs (ref : Ref)
  | setClassClass (ref : Ref)
  | setGlobal (name : κ) (ref : Ref)
  | signalNotify (signal : Nat) (channel : Ref)
  | pushScope (world : Nat)
  | popScope (world : Nat)
  | codeVcall (world : Nat) (code : Ref)
  | codeReturn (world : Nat) (origLex : Option (Option Ref))
  | handlerPush (world : Nat)
  | handlerPop (world : Nat)
  | throw (world : Nat) (val : Ref) (rows : Nat)
  | gcRequest (world : Nat)
  /-- `pone_gc_run` from elsewhere: a channel, the signal thread, the command line. -/
  | gcRun (world : Nat)
  | release (world : Nat)
  deriving DecidableEq

/-- One operation; `none` where the runtime aborts. -/
def step (u : Universe κ) : Op κ → Option (Universe κ)
  | .worldNew => some (worldNew u)
  | .threadStart world => some (threadStart u world)
  | .alloc world v => (objAlloc u world v).map Prod.fst
  | .bodyNew klass => some { u with bodies := u.bodies ++ [some { klass := klass, refcnt := 1 }] }
  | .store ref v => store u ref v
  | .saveTmp world ref => some (saveTmp u world ref)
  | .setCode world code => some (u.modifyWorld world fun w => { w with code := some code })
  | .setLex world lex => some (u.modifyWorld world fun w => { w with lex := lex })
  | .setErrvar world val => some (u.modifyWorld world fun w => { w with errvar := some val })
  | .setInc ref => some { u with inc := ref }
  | .setArgs ref => some { u with args := ref }
  | .setClassClass ref => some { u with classClass := ref }
  | .setGlobal name ref => some { u with globals := (name, ref) :: u.globals }
  | .signalNotify signal channel =>
      some { u with signalChannels := u.signalChannels.modify signal (· ++ [channel]) }
  | .pushScope world => pushScope u world
  | .popScope world => popScope u world
  | .codeVcall world code => codeVcall u world code
  | .codeReturn world origLex => codeReturn u world origLex
  | .handlerPush world => some (excHandlerPush u world)
  | .handlerPop world => some (excHandlerPop u world)
  | .throw world val rows => excThrow u world val rows
  | .gcRequest world => some (u.modifyWorld world fun w => { w with gcRequested := true })
  | .gcRun world => gcRun u world
  | .release world => worldRelease u world

/-- `pone_universe_init`, before the values of the universe are made. -/
def universeInit : Universe κ :=
  { worlds := [], bodies := [], marked := fun _ => false, inc := .nil, args := .nil, globals := []
    signalChannels := List.replicate 32 [], classClass := .nil }

end Api

end Heap
end Pone
