import Mathlib.Algebra.Group.Int.Defs
import Mathlib.Algebra.Group.Nat.Defs
import Pone.Block
import Pone.CLong
import Pone.Simulation

/-!
# The arrays of `array.c`

A `pone_ary` is a buffer with the number `max` of pointers it is taken to have room for and the
number `len` of pointers in use.  Sizes in bytes are computed in `size_t`, so that a request for
memory is made modulo `2 ^ 64`.
-/

namespace Pone
namespace Ary

open CLong (sizeT)
open Simulation (orHalt)

variable {α : Type*}

/-- `sizeof(pone_val*)` -/
def sizeofPtr : Nat := 8

/-- `sizeof(pone_val)` -/
def sizeofVal : Nat := 32

/-- `PONE_INT_MAX` -/
def intMax : Int := 2 ^ 63 - 1

/-- A result of `pone_int_t` arithmetic, in two's complement. -/
def wrap (i : Int) : Int := i.bmod (2 ^ 64)

structure PoneAry (α : Type*) where
  a : Block α
  max : Int
  len : Int

/-- Why the process ends. -/
inductive Halt where
  /-- `Cannot allocate memory` or `cannot allocate memory for array` -/
  | noMemory
  | abort
  /-- Memory outside of the buffer is read or written. -/
  | wild
  deriving DecidableEq

/-- What an operation gives back. -/
inductive Answer (α : Type*) where
  | done
  | gives (c : Cell α)
  | throws (message : String)
  deriving DecidableEq

/-- `malloc` of so many bytes, which the allocator grants or refuses. -/
def malloc (granted : Bool) (bytes : Nat) : Option (Block α) :=
  if granted then some (Block.fresh (bytes / sizeofPtr)) else none

def realloc (granted : Bool) (a : Block α) (bytes : Nat) : Option (Block α) :=
  if granted then some (a.resize (bytes / sizeofPtr)) else none

/-- The arguments of `pone_ary_new` are written from position `i` on. -/
def fill (a : Block α) (i : Int) : List α → Option (Block α)
  | [] => some a
  | v :: vs => do fill (← a.write i (.ptr v)) (i + 1) vs

/-- `pone_ary_new` with the arguments `vs` -/
def aryNew (granted : Bool) (vs : List α) : Except Halt (PoneAry α) :=
  match malloc granted (sizeT (sizeofVal * vs.length)) with
  | none => .error .noMemory
  | some a => do
      let a ← orHalt .wild (fill a 0 vs)
      return { a, max := vs.length, len := vs.length }

/-- `pone_ary_at_pos` -/
def aryAtPos (nil : α) (self : PoneAry α) (i : Int) : Except Halt (Cell α) :=
  if i < self.len then orHalt .wild (self.a.read i) else .ok (.ptr nil)

/-- `while (len < size)` of `pone_ary_resize`, which runs `n` times. -/
def fillNil (nil : α) : Nat → PoneAry α → Option (PoneAry α)
  | 0, self => some self
  | n + 1, self => do
      let a ← self.a.write self.len (.ptr nil)
      fillNil nil n { self with a, len := self.len + 1 }

/-- `pone_ary_resize` -/
def aryResize (granted : Bool) (nil : α) (self : PoneAry α) (size : Int) :
    Except Halt (PoneAry α) :=
  if self.len < size then
    if self.max < size then
      match realloc granted self.a (sizeT (sizeofPtr * size)) with
      | none => .error .noMemory
      | some a => orHalt .wild (fillNil nil (size - self.len).toNat { self with a, max := size })
    else orHalt .wild (fillNil nil (size - self.len).toNat self)
  else .error .abort

/-- `pone_ary_assign_pos`, from the index that `pone_intify` has given. -/
def aryAssignPos (granted : Bool) (nil : α) (self : PoneAry α) (i : Int) (val : α) :
    Except Halt (PoneAry α) :=
  if i < self.len then do
    let a ← orHalt .wild (self.a.write i (.ptr val))
    return { self with a }
  else do
    let self ← aryResize granted nil self (wrap (i + 1))
    let a ← orHalt .wild (self.a.write i (.ptr val))
    return { self with a }

/-- `max`, doubled, or 1 -/
def grownMax (max : Int) : Int := if 0 < max then wrap (max * 2) else 1

/-- `self->as.ary.a[self->as.ary.len++] = val` -/
def append (self : PoneAry α) (val : α) : Except Halt (PoneAry α) := do
  let a ← orHalt .wild (self.a.write self.len (.ptr val))
  return { self with a, len := self.len + 1 }

/-- `pone_ary_push` -/
def aryPush (granted : Bool) (self : PoneAry α) (val : α) : Except Halt (PoneAry α) :=
  if self.max = self.len then
    let max := grownMax self.max
    match realloc granted self.a (sizeT (sizeofVal * max)) with
    | none => .error .noMemory
    | some a => append { self with a, max } val
  else append self val

/-- What `pone_ary_unshift` does once there is room. -/
def prepend (self : PoneAry α) (val : α) : Except Halt (PoneAry α) := do
  let a ← orHalt .wild (self.a.move 1 0 (sizeT (sizeofPtr * self.len) / sizeofPtr))
  let a ← orHalt .wild (a.write 0 (.ptr val))
  return { self with a, len := self.len + 1 }

/-- `pone_ary_unshift`, which does not look at the result of `realloc`. -/
def aryUnshift (granted : Bool) (self : PoneAry α) (val : α) : Except Halt (PoneAry α) :=
  if self.max = self.len then
    let max := if self.max ≠ 0 then wrap (self.max * 2) else 1
    match realloc granted self.a (sizeT (sizeofPtr * max)) with
    -- the buffer is `NULL`
    | none => .error .wild
    | some a => prepend { self with a, max } val
  else prepend self val

/-- `pone_ary_last` -/
def aryLast (self : PoneAry α) : Except Halt (Answer α) :=
  if self.len = 0 then .ok (.throws "Cannot get last element from an empty Array")
  else do return .gives (← orHalt .wild (self.a.read (self.len - 1)))

/-- `pone_ary_pop` -/
def aryPop (self : PoneAry α) : Except Halt (PoneAry α × Answer α) :=
  if self.len = 0 then .ok (self, .throws "Cannot pop from an empty Array")
  else do
    let retval ← orHalt .wild (self.a.read (self.len - 1))
    let a ← orHalt .wild (self.a.write (self.len - 1) .null)
    return ({ self with a, len := self.len - 1 }, .gives retval)

/-- `pone_ary_shift` -/
def aryShift (self : PoneAry α) : Except Halt (PoneAry α × Answer α) :=
  if self.len = 0 then .ok (self, .throws "Cannot shift from an empty Array")
  else do
    let retval ← orHalt .wild (self.a.read 0)
    let a ← orHalt .wild (self.a.move 0 1 (sizeT (sizeofPtr * (self.len - 1)) / sizeofPtr))
    return ({ self with a, len := self.len - 1 }, .gives retval)

/-- The operations on an array. -/
inductive Op (α : Type*) where
  | push (val : α)
  | unshift (val : α)
  | last
  | pop
  | shift
  | assignPos (i : Int) (val : α)
  | atPos (i : Int)

/-- One operation.  `granted` says whether the allocator grants the memory it may ask for. -/
def step (nil : α) (self : PoneAry α) (granted : Bool) :
    Op α → Except Halt (PoneAry α × Answer α)
  | .push val => do return (← aryPush granted self val, .done)
  | .unshift val => do return (← aryUnshift granted self val, .done)
  | .last => do return (self, ← aryLast self)
  | .pop => aryPop self
  | .shift => aryShift self
  | .assignPos i val => do return (← aryAssignPos granted nil self i val, .done)
  | .atPos i => do return (self, .gives (← aryAtPos nil self i))

/-- A sequence of operations with the answers of the allocator. -/
def run (nil : α) (self : PoneAry α) :
    List (Op α × Bool) → Except Halt (PoneAry α × List (Answer α))
  | [] => .ok (self, [])
  | (op, granted) :: rest => do
      let (self, answer) ← step nil self granted op
      let (self, answers) ← run nil self rest
      return (self, answer :: answers)

end Ary
end Pone
