import Mathlib.Logic.Function.Basic
import Pone.Simulation

/-!
# The strings of `str.c`

A string has a buffer of its own or, with `PONE_FLAGS_STR_COPY`, a reference to another string.
`mutable` gives a copy a buffer before it is written.  Strings are known by the order in which they
are made and buffers by their address; `realloc` may move a buffer.
-/

namespace Pone
namespace Str

open Simulation (orHalt)

/-- `union { char* p; struct pone_val* val; }` -/
inductive Source where
  | p (address : Nat)
  | val (string : Nat)
  deriving DecidableEq

/-- `pone_string`; `PONE_FLAGS_STR_COPY` says which member the union is. -/
structure PoneString where
  isConst : Bool
  source : Source
  len : Nat
  deriving DecidableEq

/-- The allocated blocks, those below the address `next` or freed, and the strings. -/
structure State where
  mem : Nat → Option (List UInt8)
  next : Nat
  strs : List PoneString

/-- Why the process ends: memory outside of an allocated block is read, or an assertion fails. -/
inductive Halt where
  | wild
  | assertion
  deriving DecidableEq

inductive Answer where
  | done
  | throws (message : String)
  deriving DecidableEq

/-- The first `n` bytes at an address. -/
def readMem (mem : Nat → Option (List UInt8)) (address n : Nat) : Option (List UInt8) :=
  match mem address with
  | some block => if n ≤ block.length then some (block.take n) else none
  | none => none

/-- `pone_str_ptr` and `pone_str_len`, which follow the same references. -/
def strPtrLen (strs : List PoneString) : Nat → Nat → Option (Nat × Nat)
  | 0, _ => none
  | fuel + 1, val =>
      match strs[val]? with
      | some { source := .val source, .. } => strPtrLen strs fuel source
      | some { source := .p address, len, .. } => some (address, len)
      | none => none

/-- The bytes given by `pone_str_ptr` and `pone_str_len`. -/
def content (s : State) (val : Nat) : Option (List UInt8) := do
  let (address, len) ← strPtrLen s.strs (val + 1) val
  readMem s.mem address len

/-- `malloc` and the first contents of the block -/
def State.alloc (s : State) (block : List UInt8) : State :=
  { s with mem := Function.update s.mem s.next (some block), next := s.next + 1 }

/-- A new string with the block as its buffer. -/
def State.add (s : State) (isConst : Bool) (block : List UInt8) (len : Nat) : State :=
  { s.alloc block with strs := s.strs ++ [{ isConst, source := .p s.next, len }] }

/-- `pone_str_new_strdup` and `pone_bytes_new_strdup` -/
def strNewStrdup (s : State) (p : List UInt8) : State := s.add false (p ++ [0]) p.length

/-- `pone_bytes_new_malloc`, which leaves the bytes as it has got them. -/
def bytesNewMalloc (s : State) (garbage : List UInt8) : State := s.add false garbage garbage.length

/-- `pone_str_new_allocd` and `pone_bytes_new_allocd`, which take over a block. -/
def strNewAllocd (s : State) (block : List UInt8) (len : Nat) : State := s.add false block len

/-- `pone_str_new_const` and `pone_bytes_new_const` -/
def strNewConst (s : State) (block : List UInt8) (len : Nat) : State := s.add true block len

/-- `pone_str_new_vprintf` with the text that `vsnprintf` makes -/
def strNewVprintf (s : State) (text : List UInt8) : State := s.add false (text ++ [0]) text.length

/-- `pone_str_copy` -/
def strCopy (s : State) (val : Nat) : State :=
  { s with strs := s.strs ++ [{ isConst := false, source := .val val, len := 0 }] }

/-- `pone_str_concat`.  `pone_stringify` of a string is a copy, which shows the same bytes and which
nobody else sees. -/
def strConcat (s : State) (v1 v2 : Nat) : Except Halt State := do
  let s1 ← orHalt .wild (content s v1)
  let s2 ← orHalt .wild (content s v2)
  return s.add false (s1 ++ s2) (s1.length + s2.length)

/-- `pone_bytes_truncate` -/
def bytesTruncate (s : State) (val len : Nat) : Except Halt State :=
  match s.strs[val]? with
  | none => .error .wild
  | some v =>
      if len ≤ v.len then .ok { s with strs := s.strs.set val { v with len } }
      else .error .assertion

/-- `mutable`; `none` where it throws. -/
def mutable (s : State) (val : Nat) : Except Halt (Option State) :=
  match s.strs[val]? with
  | none => .error .wild
  | some v =>
      match v.source with
      | .val source => do
          let bytes ← orHalt .wild (content s source)
          let p := { v with source := .p s.next, len := bytes.length }
          return some { s.alloc (bytes ++ [0]) with strs := s.strs.set val p }
      | .p _ => .ok (if v.isConst then none else some s)

/-- A `const char*`, into memory of the caller or into a block. -/
inductive CharPtr where
  | outside (bytes : List UInt8)
  | block (address : Nat)

/-- What `memcpy` of `n` bytes reads. -/
def CharPtr.read (mem : Nat → Option (List UInt8)) (n : Nat) : CharPtr → Option (List UInt8)
  | .outside bytes => some (bytes.take n)
  | .block address => if n = 0 then some [] else readMem mem address n

/-- `realloc` to `n` bytes: the memory and the address of the block.  A block that is moved is
freed. -/
def realloc (moved : Bool) (s : State) (address : Nat) (n : Nat) : Option (State × Nat) :=
  match s.mem address with
  | none => none
  | some block =>
      let grown := block.take n ++ List.replicate (n - block.length) 0
      if moved then
        some ({ s with mem := Function.update s.mem address none }.alloc grown, s.next)
      else some ({ s with mem := Function.update s.mem address (some grown) }, address)

/-- `pone_str_append_c` behind `mutable` -/
def appendMutable (moved : Bool) (s : State) (val : Nat) (p : CharPtr) (sLen : Nat) :
    Except Halt State :=
  match s.strs[val]? with
  | some { isConst, source := .p address, len } =>
      if 0 < len + sLen then do
        let (s, address) ← orHalt .wild (realloc moved s address (len + sLen))
        let bytes ← orHalt .wild (p.read s.mem sLen)
        let block ← orHalt .wild (s.mem address)
        let written := block.take len ++ bytes ++ block.drop (len + sLen)
        return { s with
          mem := Function.update s.mem address (some written)
          strs := s.strs.set val { isConst, source := .p address, len := len + sLen } }
      else .ok s
  | _ => .error .wild

/-- `pone_str_append_c` -/
def strAppendC (moved : Bool) (s : State) (val : Nat) (p : CharPtr) (sLen : Nat) :
    Except Halt (State × Answer) := do
  match ← mutable s val with
  | none => return (s, .throws "You can't modify immutable string")
  | some s => return (← appendMutable moved s val p sLen, .done)

/-- `pone_str_append`, where `pone_stringify` gives a copy of the string `v`, which the pointer of
`v` is the pointer of. -/
def strAppend (moved : Bool) (s : State) (str v : Nat) : Except Halt (State × Answer) := do
  let (address, len) ← orHalt .wild (strPtrLen s.strs (v + 1) v)
  strAppendC moved s str (.block address) len

/-- `pone_str_appendf` with the text that `vsnprintf` makes -/
def strAppendf (moved : Bool) (s : State) (str : Nat) (text : List UInt8) :
    Except Halt (State × Answer) :=
  strAppend moved (strNewVprintf s text) str s.strs.length

/-- The operations on strings. -/
inductive Op where
  | newStrdup (p : List UInt8)
  | newMalloc (garbage : List UInt8)
  | newAllocd (block : List UInt8) (len : Nat)
  | newConst (block : List UInt8) (len : Nat)
  | newVprintf (text : List UInt8)
  | copy (val : Nat)
  | concat (v1 v2 : Nat)
  | truncate (val len : Nat)
  | appendC (val : Nat) (p : List UInt8)
  | append (str v : Nat)
  | appendf (str : Nat) (text : List UInt8)

/-- One operation.  `moved` says whether `realloc` moves the buffer. -/
def step (s : State) (moved : Bool) : Op → Except Halt (State × Answer)
  | .newStrdup p => .ok (strNewStrdup s p, .done)
  | .newMalloc garbage => .ok (bytesNewMalloc s garbage, .done)
  | .newAllocd block len => .ok (strNewAllocd s block len, .done)
  | .newConst block len => .ok (strNewConst s block len, .done)
  | .newVprintf text => .ok (strNewVprintf s text, .done)
  | .copy val => .ok (strCopy s val, .done)
  | .concat v1 v2 => do return (← strConcat s v1 v2, .done)
  | .truncate val len => do return (← bytesTruncate s val len, .done)
  | .appendC val p => strAppendC moved s val (.outside p) p.length
  | .append str v => strAppend moved s str v
  | .appendf str text => strAppendf moved s str text

end Str
end Pone
