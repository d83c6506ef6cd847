import Pone.Heap.Model

/-!
# The collector

`gc.c`: mark from the roots of the universe and of one world, then sweep the arenas of that world.
-/

namespace Pone
namespace Heap

section Collector

variable {κ : Type}

/-- `pone_gc_mark_value` on a list of values in turn.  The fuel is the number of slots and one more,
which no marking uses up. -/
def gcMarkValues (u : Universe κ) (values : List Ref) : Universe κ :=
  { u with marked := Marking.markAll u.children (u.slots.length + 1) u.marked values }

/-- What `pone_universe_mark` marks. -/
def Universe.markedRoots (u : Universe κ) : List Ref :=
  [u.inc, u.args] ++ u.signalChannels.flatten

/-- What `pone_world_mark` marks: of the handlers all but the innermost, at `err_handler_idx`. -/
def World.markedRoots (w : World κ) : List Ref :=
  w.lex.toList ++ w.errvar.toList ++ w.code.toList ++ w.errHandlerLexs.dropLast.filterMap id ++
    w.tmpstack

/-- `pone_gc_mark`, which aborts on a handler that was never written. -/
def gcMark (u : Universe κ) (world : Nat) : Option (Universe κ) :=
  match u.worlds[world]? with
  | none => none
  | some w =>
      if none ∈ w.errHandlerLexs.dropLast then none
      else some (gcMarkValues (gcMarkValues u u.markedRoots) w.markedRoots)

/-- `pone_opaque_free` of a value that is freed.  It counts down in the body and releases it in any
case; a body that has been released already is used and released once more, which is undefined. -/
def opaqueFree (u : Universe κ) : Value κ → Option (Universe κ)
  | .opaqueRef body =>
      if ((u.bodies[body]?).join).isSome then some { u with bodies := u.bodies.set body none }
      else none
  | _ => some u

/-- `pone_val_free`. -/
def valFree (u : Universe κ) (world index : Nat) : Universe κ :=
  (u.setSlot world index none).modifyWorld world fun w =>
    { w with freelist := index :: w.freelist }

/-- One round of the loop of `pone_gc_collect`. -/
def sweepSlot (world : Nat) (u : Universe κ) (index : Nat) : Option (Universe κ) :=
  match u.value (.slot world index) with
  | none => some u
  | some value =>
      if u.marked (.slot world index) then
        some { u with marked := Function.update u.marked (.slot world index) false }
      else (opaqueFree u value).map fun u => valFree u world index

/-- `pone_gc_collect`. -/
def gcCollect (u : Universe κ) (world : Nat) : Option (Universe κ) :=
  (List.range (((u.worlds[world]?).map fun w => w.slots.length).getD 0)).foldlM (sweepSlot world) u

/-- `pone_gc_run`. -/
def gcRun (u : Universe κ) (world : Nat) : Option (Universe κ) := do
  let u ← gcMark u world
  let u ← gcCollect u world
  return u.modifyWorld world fun w => { w with gcRequested := false }

end Collector

end Heap
end Pone
