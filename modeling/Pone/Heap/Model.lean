import Mathlib.Data.List.AList
import Mathlib.Logic.Function.Basic
import Pone.Marking

/-!
# Values, worlds and the universe

The heap of the runtime as far as pointers go.  A value lives in a slot of the arenas of a world, or
is a static object (`nil`, the booleans, the integer constants of compiled code).  The arenas of a
world are one list of slots that only grows; a freed slot holds no value and stands on the freelist.
`PONE_FLAGS_GC_MARK` of all values is one map beside the heap.
-/

namespace Pone
namespace Heap

/-- What succeeds has the result that `getD` gives. -/
theorem eq_some_getD {α : Type} {result : Option α} (succeeds : result.isSome = true)
    (default : α) : result = some (result.getD default) :=
  (Option.getD_of_ne_none (Option.isSome_iff_ne_none.mp succeeds) default).symm

/-- A `pone_val*`. -/
inductive Ref where
  | nil
  | bool (truth : Bool)
  | constInt (i : Int)
  | slot (world index : Nat)
  deriving DecidableEq

instance : LawfulBEq (Option Ref) := inferInstance

/-- The buffer of a string: its own, or with `PONE_FLAGS_STR_COPY` that of another string. -/
inductive Text where
  | own (bytes : List UInt8)
  | copyOf (source : Ref)
  deriving DecidableEq

/-- A `khash` from names: no name occurs twice. -/
abbrev Bindings (κ : Type) := AList fun _ : κ => Ref

inductive Value (κ : Type) where
  | int (i : Int)
  | num (bits : UInt64)
  | str (utf8 : Bool) (text : Text)
  | ary (items : List Ref)
  | map (entries : List (Ref × Ref))
  /-- `lex` is `NULL` for functions of the runtime and for methods. -/
  | code (lex : Option Ref)
  | obj (klass : Ref) (ivars : Bindings κ)
  | lex (parent : Option Ref) (bindings : Bindings κ)
  /-- The number of a `pone_opaque_body`. -/
  | opaqueRef (body : Nat)
  deriving DecidableEq

/-- `pone_opaque_body`. -/
structure Body where
  klass : Ref
  refcnt : Nat
  deriving DecidableEq

structure World (κ : Type) where
  /-- The slots of all arenas. -/
  slots : List (Option (Value κ))
  freelist : List Nat
  code : Option Ref
  lex : Option Ref
  errvar : Option Ref
  callerStack : Option Ref
  /-- `err_handler_lexs[0..err_handler_idx]`; `none` was never written. -/
  errHandlerLexs : List (Option Ref)
  tmpstack : List Ref
  savestack : List Nat
  gcRequested : Bool

structure Universe (κ : Type) where
  worlds : List (World κ)
  /-- `none` once `pone_opaque_free` has freed the body. -/
  bodies : List (Option Body)
  marked : Ref → Bool
  inc : Ref
  args : Ref
  globals : List (κ × Ref)
  signalChannels : List (List Ref)
  classClass : Ref

section Pointers

variable {κ : Type}

/-- The pointers that the mark functions of the types follow. -/
def Value.children : Value κ → List Ref
  | .int _ | .num _ | .opaqueRef _ => []
  | .str _ (.own _) => []
  | .str _ (.copyOf source) => [source]
  | .ary items => items
  | .map entries => entries.flatMap fun entry => [entry.1, entry.2]
  | .code captured => captured.toList
  | .obj klass ivars => ivars.entries.map Sigma.snd ++ [klass]
  | .lex parent bindings => bindings.entries.map Sigma.snd ++ parent.toList

/-- What a pointer points to; nothing but a heap slot or a constant has pointers of its own. -/
def Universe.value (u : Universe κ) : Ref → Option (Value κ)
  | .slot world index => (u.worlds[world]?).bind fun w => (w.slots[index]?).join
  | .constInt i => some (.int i)
  | .nil | .bool _ => none

def Universe.children (u : Universe κ) (ref : Ref) : List Ref :=
  (u.value ref).elim [] Value.children

/-- The klass of an opaque, which is kept in its body. -/
def Universe.bodyKlass (u : Universe κ) (ref : Ref) : Option Ref :=
  match u.value ref with
  | some (.opaqueRef body) => ((u.bodies[body]?).join).map Body.klass
  | _ => none

/-- All pointers stored inside a value: in its fields, its buffer, its table or its body. -/
def Value.pointers (bodies : List (Option Body)) : Value κ → List Ref
  | .int _ => []
  | .num _ => []
  | .str _ (.own _) => []
  | .str _ (.copyOf source) => [source]
  | .ary items => items
  | .map entries => entries.flatMap fun entry => [entry.1, entry.2]
  | .code captured => captured.toList
  | .obj klass ivars => klass :: ivars.entries.map Sigma.snd
  | .lex parent bindings => parent.toList ++ bindings.entries.map Sigma.snd
  | .opaqueRef body => ((bodies[body]?).join.map Body.klass).toList

def Universe.pointers (u : Universe κ) (ref : Ref) : List Ref :=
  (u.value ref).elim [] (Value.pointers u.bodies)

/-- The mark functions follow all pointers but the klass of an opaque. -/
theorem mem_pointers_iff {u : Universe κ} {parent child : Ref} :
    child ∈ u.pointers parent ↔ child ∈ u.children parent ∨ u.bodyKlass parent = some child := by
  unfold Universe.pointers Universe.children Universe.bodyKlass
  cases u.value parent with
  | none => simp
  | some value =>
      cases value with
      | int | num | ary | map | code => simp [Value.pointers, Value.children]
      | str utf8 text => cases text <;> simp [Value.pointers, Value.children]
      | obj klass ivars => simp [Value.pointers, Value.children, or_comm]
      | lex parent bindings => simp [Value.pointers, Value.children, or_comm]
      | opaqueRef body => simp [Value.pointers, Value.children]

/-- All pointers that a world holds. -/
def World.roots (w : World κ) : List Ref :=
  w.lex.toList ++ w.errvar.toList ++ w.code.toList ++ w.callerStack.toList ++
    w.errHandlerLexs.filterMap id ++ w.tmpstack

/-- All pointers from which the runtime starts. -/
def Universe.roots (u : Universe κ) : List Ref :=
  [u.inc, u.args] ++ u.globals.map Prod.snd ++ u.signalChannels.flatten ++
    u.worlds.flatMap World.roots

/-- The runtime can still get at a value. -/
def Universe.Reachable (u : Universe κ) (ref : Ref) : Prop :=
  ∃ root ∈ u.roots, Relation.ReflTransGen (fun parent child => child ∈ u.pointers parent) root ref

/-! ## Slots -/

/-- The addresses of all slots. -/
def Universe.slots (u : Universe κ) : List Ref :=
  u.worlds.zipIdx.flatMap fun entry =>
    (List.range entry.1.slots.length).map fun index => .slot entry.2 index

def Universe.modifyWorld (u : Universe κ) (world : Nat) (change : World κ → World κ) :
    Universe κ :=
  { u with worlds := u.worlds.modify world change }

def Universe.setSlot (u : Universe κ) (world index : Nat) (content : Option (Value κ)) :
    Universe κ :=
  u.modifyWorld world fun w => { w with slots := w.slots.set index content }

theorem value_mem_slots {u : Universe κ} {ref : Ref} (pointing : u.children ref ≠ []) :
    ref ∈ u.slots := by
  cases ref with
  | nil | bool | constInt => simp [Universe.children, Universe.value, Value.children] at pointing
  | slot world index =>
      simp only [Universe.children, Universe.value] at pointing
      cases found : u.worlds[world]? with
      | none => simp [found] at pointing
      | some w =>
          rw [found, Option.bind_some] at pointing
          have bound : index < w.slots.length := by
            by_contra beyond
            rw [List.getElem?_eq_none (Nat.le_of_not_lt beyond)] at pointing
            simp at pointing
          refine List.mem_flatMap.mpr ⟨(w, world), ?_, ?_⟩
          · exact List.mem_zipIdx_iff_getElem?.mpr found
          · exact List.mem_map.mpr ⟨index, List.mem_range.mpr bound, rfl⟩

end Pointers

end Heap
end Pone
