import Pone.Str.Model

/-!
# Where the runtime appends to what `pone_stringify` gives

`try_load_pn` of `module.c` and `Range#Str` append in place to the string that they have got by
`pone_stringify`; `Pair#Str` copies it first.  What a `Str` method gives depends on the class: a copy
of a string, a new string, or a string that the object holds, as with `Path`.
-/

namespace Pone
namespace Str

open Simulation (orHalt)

/-- A value by what its `Str` method gives. -/
inductive Form where
  /-- a string, of which `Str#Str` makes a copy -/
  | copyOf (string : Nat)
  /-- an object that gives a string that it holds -/
  | stored (string : Nat)
  /-- a new string; that of a literal is a constant -/
  | made (isConst : Bool) (text : List UInt8)
  deriving DecidableEq

/-- `pone_stringify`: the string that it gives. -/
def stringify (s : State) : Form → State × Nat
  | .copyOf string => (strCopy s string, s.strs.length)
  | .stored string => (s, string)
  | .made isConst text => (s.add isConst (text ++ [0]) text.length, s.strs.length)

/-- The bytes of a text. -/
def ascii (text : String) : List UInt8 := text.toList.map fun c => c.toNat.toUInt8

/-- Whether `realloc` moves a buffer, in each state. -/
abbrev Moves := State → Bool

/-- `pone_str_append_c` for each of the texts, up to one that throws. -/
def appendAll (moves : Moves) (s : State) (val : Nat) :
    List (List UInt8) → Except Halt (State × Answer)
  | [] => .ok (s, .done)
  | p :: rest =>
      match strAppendC (moves s) s val (.outside p) p.length with
      | .error halt => .error halt
      | .ok (s, .done) => appendAll moves s val rest
      | .ok (s, .throws message) => .ok (s, .throws message)

/-- `pone_str_append` of a value -/
def appendForm (moves : Moves) (s : State) (str : Nat) (form : Form) :
    Except Halt (State × Answer) :=
  let (s, v) := stringify s form
  strAppend (moves s) s str v

/-- The text of a C string. -/
def cText (bytes : List UInt8) : List UInt8 := bytes.takeWhile (· ≠ 0)

/-- `pone_str_c_str` and the text of what it gives; `none` where it throws. -/
def strCStr (s : State) (val : Nat) : Except Halt (State × Option (List UInt8)) := do
  let bytes ← orHalt .wild (content s val)
  -- `pone_str_contains_null` does not look at the last byte
  if (0 : UInt8) ∈ bytes.dropLast then return (s, none)
  else do
    let s := strNewStrdup s [0]
    let s ← strConcat s val (s.strs.length - 1)
    let joined ← orHalt .wild (content s (s.strs.length - 1))
    return (s, some (cText joined))

/-- A `const char*` of the compiled program. -/
structure CString where
  bytes : List UInt8
  no_nul : 0 ∉ bytes

/-- The file system as a `use` sees it. -/
structure FileSystem where
  /-- `fopen(path, "r")` succeeds. -/
  opens : List UInt8 → Bool
  /-- `stat(path)` succeeds. -/
  stats : List UInt8 → Bool
  /-- `strerror(errno)` after an `fopen` that failed -/
  strerror : List UInt8 → List UInt8

/-- How the attempt to load a module ends. -/
inductive Outcome where
  | missing
  | loaded (path : List UInt8)
  | throws (message : List UInt8)
  deriving DecidableEq

/-- `try_load_pn` up to the compilation of the file, with the path that it tries. -/
def tryLoadPn (fs : FileSystem) (moves : Moves) (s : State) (dir : Form) (name : CString) :
    Except Halt (State × List (List UInt8) × Outcome) :=
  let (s, path) := stringify s dir
  match appendAll moves s path [ascii "/", name.bytes, ascii ".pn"] with
  | .error halt => .error halt
  | .ok (s, .throws message) => .ok (s, [], .throws (ascii message))
  | .ok (s, .done) =>
      match strCStr s path with
      | .error halt => .error halt
      | .ok (s, none) =>
          .ok (s, [], .throws
            (ascii "You can't convert string to c-string. Since it contains \\0."))
      | .ok (s, some pathC) =>
          if fs.opens pathC then .ok (s, [pathC], .loaded pathC)
          else if fs.stats pathC then
            .ok (s, [pathC],
              .throws (ascii "Cannot open " ++ pathC ++ ascii ": " ++ fs.strerror pathC))
          else .ok (s, [pathC], .missing)

/-- `PONE_DLL_EXT` -/
def dllExt : List UInt8 := ascii "so"

/-- `load_module` up to `dlopen`, with the path that it tries. -/
def loadModule (fs : FileSystem) (s : State) (dir : Form) (name : CString) :
    Except Halt (State × List (List UInt8) × Outcome) :=
  let (s, dir) := stringify s dir
  match strCStr s dir with
  | .error halt => .error halt
  | .ok (s, none) =>
      .ok (s, [], .throws (ascii "You can't convert string to c-string. Since it contains \\0."))
  | .ok (s, some dirC) =>
      let s := strNewVprintf s (dirC ++ ascii "/" ++ name.bytes ++ ascii "." ++ dllExt)
      match strCStr s (s.strs.length - 1) with
      | .error halt => .error halt
      | .ok (s, none) =>
          .ok (s, [], .throws
            (ascii "You can't convert string to c-string. Since it contains \\0."))
      | .ok (s, some fullpath) =>
          if fs.stats fullpath then .ok (s, [fullpath], .loaded fullpath)
          else .ok (s, [fullpath], .missing)

/-- The loop of `pone_use` over `$*INC`, with the paths that are tried. -/
def scanInc (fs : FileSystem) (moves : Moves) (name : CString) :
    State → List Form → Except Halt (State × List (List UInt8) × Outcome)
  | s, [] => .ok (s, [], .missing)
  | s, dir :: rest =>
      match tryLoadPn fs moves s dir name with
      | .error halt => .error halt
      | .ok (s, tried, .missing) =>
          match loadModule fs s dir name with
          | .error halt => .error halt
          | .ok (s, tried', .missing) =>
              match scanInc fs moves name s rest with
              | .error halt => .error halt
              | .ok (s, tried'', outcome) => .ok (s, tried ++ tried' ++ tried'', outcome)
          | .ok (s, tried', outcome) => .ok (s, tried ++ tried', outcome)
      | .ok (s, tried, outcome) => .ok (s, tried, outcome)

/-- The directories in the message of `pone_use`. -/
def listInc (moves : Moves) (msg : Nat) : State → List Form → Except Halt (State × Answer)
  | s, [] => .ok (s, .done)
  | s, dir :: rest =>
      match strAppendC (moves s) s msg (.outside (ascii "    - ")) 6 with
      | .error halt => .error halt
      | .ok (s, .throws message) => .ok (s, .throws message)
      | .ok (s, .done) =>
          match appendForm moves s msg dir with
          | .error halt => .error halt
          | .ok (s, .throws message) => .ok (s, .throws message)
          | .ok (s, .done) =>
              match strAppendC (moves s) s msg (.outside (ascii "\n")) 1 with
              | .error halt => .error halt
              | .ok (s, .throws message) => .ok (s, .throws message)
              | .ok (s, .done) => listInc moves msg s rest

/-- `pone_use`, with the paths that are tried. -/
def use (fs : FileSystem) (moves : Moves) (inc : List Form) (s : State) (name : CString) :
    Except Halt (State × List (List UInt8) × Outcome) :=
  match scanInc fs moves name s inc with
  | .error halt => .error halt
  | .ok (s, tried, .missing) =>
      let msg := s.strs.length
      let s := strNewVprintf s (ascii "Could not load module '" ++ name.bytes ++
        ascii "': no such module in:\n\n")
      match listInc moves msg s inc with
      | .error halt => .error halt
      | .ok (s, .throws message) => .ok (s, tried, .throws (ascii message))
      | .ok (s, .done) =>
          match content s msg with
          | none => .error .wild
          | some message => .ok (s, tried, .throws message)
  | .ok (s, tried, outcome) => .ok (s, tried, outcome)

/-- `Range#Str` -/
def methRangeStr (moves : Moves) (s : State) (min max : Form) : Except Halt (State × Answer) :=
  let (s, str) := stringify s min
  match strAppendC (moves s) s str (.outside (ascii "..")) 2 with
  | .error halt => .error halt
  | .ok (s, .throws message) => .ok (s, .throws message)
  | .ok (s, .done) => appendForm moves s str max

/-- `Pair#Str` -/
def methPairStr (moves : Moves) (s : State) (key value : Form) : Except Halt (State × Answer) :=
  let (s, key) := stringify s key
  let buf := s.strs.length
  let s := strCopy s key
  match strAppendC (moves s) s buf (.outside (ascii "=>")) 1 with
  | .error halt => .error halt
  | .ok (s, .throws message) => .ok (s, .throws message)
  | .ok (s, .done) => appendForm moves s buf value

end Str
end Pone
