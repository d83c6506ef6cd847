import Pone.Heap.Alloc
import Pone.ScopeChain
import Pone.Sharing

/-!
# Copies for another thread

`pone_val_copy`, which channels and `signal.notify` call, and `copy_code`, which `pone_thread_start`
calls.  What they copy by pointer only leaks: the instance variables of objects and the values of
captured variables.
-/

namespace Pone
namespace Heap

section Copy

variable {κ : Type}

/-! ## Strings, arrays, maps and objects -/

/-- `pone_str_ptr` and `pone_str_len`.  The fuel bounds the chain of `PONE_FLAGS_STR_COPY`. -/
def strBytes (u : Universe κ) : Nat → Ref → Option (List UInt8)
  | 0, _ => none
  | fuel + 1, ref =>
      match u.value ref with
      | some (.str _ (.own bytes)) => some bytes
      | some (.str _ (.copyOf source)) => strBytes u fuel source
      | _ => none

/-- `pone_ary_copy`. -/
def aryCopy (copy : Universe κ → Ref → Option (Universe κ × Ref)) (u : Universe κ) (world : Nat)
    (items : List Ref) : Option (Universe κ × Ref) := do
  let (u, retval) ← objAlloc u world (.ary [])
  let u ← items.foldlM (fun u item => do
    let (u, item) ← copy u item
    aryPush u retval item) u
  return (u, retval)

/-- `kh_put` of an entry; the key that is there stays. -/
def mapPut (equal : Ref → Bool) (entries : List (Ref × Ref)) (key val : Ref) : List (Ref × Ref) :=
  if entries.any fun entry => equal entry.1 then
    entries.map fun entry => if equal entry.1 then (entry.1, val) else entry
  else entries ++ [(key, val)]

/-- `pone_map_assign_key` with a string for a key, as all keys of maps are. -/
def mapAssignKey (fuel : Nat) (u : Universe κ) (hv key val : Ref) : Option (Universe κ) :=
  match u.value key, u.value hv with
  | some (.str _ _), some (.map entries) =>
      store u hv (.map (mapPut (fun other => strBytes u fuel other = strBytes u fuel key) entries
        key val))
  | _, _ => none

/-- `pone_map_copy`. -/
def mapCopy (copy : Universe κ → Ref → Option (Universe κ × Ref)) (fuel : Nat) (u : Universe κ)
    (world : Nat) (entries : List (Ref × Ref)) : Option (Universe κ × Ref) := do
  let (u, retval) ← objAlloc u world (.map [])
  let u ← entries.foldlM (fun u entry => do
    let (u, key) ← copy u entry.1
    let (u, val) ← copy u entry.2
    mapAssignKey fuel u retval key val) u
  return (u, retval)

/-- `pone_opaque_copy`. -/
def opaqueCopy (u : Universe κ) (world body : Nat) : Option (Universe κ × Ref) :=
  (objAlloc u world (.opaqueRef body)).map fun (u, ref) =>
    let shared (body : Body) : Body := { body with refcnt := body.refcnt + 1 }
    ({ u with bodies := u.bodies.modify body (Option.map shared) }, ref)

/-- `pone_obj_new`, which asserts that the klass is an object. -/
def objNew (u : Universe κ) (world : Nat) (klass : Ref) : Option (Universe κ × Ref) :=
  match u.value klass with
  | some (.obj _ _) => objAlloc u world (.obj klass ∅)
  | _ => none

variable [DecidableEq κ]

/-- `pone_obj_set_ivar`. -/
def objSetIvar (u : Universe κ) (obj : Ref) (name : κ) (val : Ref) : Option (Universe κ) :=
  match u.value obj with
  | some (.obj klass ivars) => store u obj (.obj klass (ivars.insert name val))
  | _ => none

/-- `pone_obj_copy`. -/
def objCopy (u : Universe κ) (world : Nat) (klass : Ref) (ivars : Bindings κ) :
    Option (Universe κ × Ref) := do
  let (u, retval) ← objNew u world klass
  let u ← ivars.entries.foldlM (fun u entry => objSetIvar u retval entry.1 entry.2) u
  return (u, retval)

/-- `pone_val_copy`.  The fuel bounds the depth of the recursion; a value that contains itself is
never copied. -/
def valCopy (world : Nat) : Nat → Universe κ → Ref → Option (Universe κ × Ref)
  | 0, _, _ => none
  | _ + 1, u, .nil => some (u, .nil)
  | _ + 1, u, .bool truth => some (u, .bool truth)
  | fuel + 1, u, ref =>
      match u.value ref with
      -- `pone_alive`
      | none => none
      | some (.int i) => objAlloc u world (.int i)
      | some (.num bits) => objAlloc u world (.num bits)
      | some (.str utf8 _) =>
          (strBytes u (fuel + 1) ref).bind fun bytes => objAlloc u world (.str utf8 (.own bytes))
      | some (.ary items) => aryCopy (valCopy world fuel) u world items
      | some (.map entries) => mapCopy (valCopy world fuel) (fuel + 1) u world entries
      | some (.opaqueRef body) => opaqueCopy u world body
      | some (.obj klass ivars) => objCopy u world klass ivars
      | some (.code _) | some (.lex _ _) => none

/-! ## Closures -/

/-- `kh_put` into the map of a lex. -/
def lexPut (u : Universe κ) (dst : Ref) (name : κ) (val : Ref) : Option (Universe κ) :=
  match u.value dst with
  | some (.lex parent bindings) => store u dst (.lex parent (bindings.insert name val))
  | _ => none

/-- The bindings of one lex in `dup_lex_values`, each with a new string for its key. -/
def dupBindings (world : Nat) (dst : Ref) (u : Universe κ) (bindings : Bindings κ) :
    Option (Universe κ) :=
  bindings.entries.foldlM (fun u entry => do
    let (u, _) ← objAlloc u world (.str true (.own []))
    lexPut u dst entry.1 entry.2) u

/-- The loop of `dup_lex_values`; the fuel bounds the number of lexes. -/
def dupLexes (world : Nat) (dst : Ref) : Nat → Universe κ → Option Ref → Option (Universe κ)
  | _, u, none => some u
  | 0, _, some _ => none
  | fuel + 1, u, some lex =>
      match u.value lex with
      | some (.lex parent bindings) =>
          (dupBindings world dst u bindings).bind fun u => dupLexes world dst fuel u parent
      | _ => none

/-- `dup_lex_values`. -/
def dupLexValues (world fuel : Nat) (u : Universe κ) (code : Ref) : Option (Universe κ × Ref) := do
  let (u, dst) ← objAlloc u world (.lex none ∅)
  match u.value code with
  | some (.code lex) =>
      let u ← dupLexes world dst fuel u lex
      return (u, dst)
  | _ => none

/-- `copy_code`. -/
def copyCode (world fuel : Nat) (u : Universe κ) (code : Ref) : Option (Universe κ × Ref) := do
  let (u, dst) ← objAlloc u world (.code none)
  let (u, lex) ← dupLexValues world fuel u code
  let u ← store u dst (.code (some lex))
  return (u, dst)

end Copy

end Heap
end Pone
