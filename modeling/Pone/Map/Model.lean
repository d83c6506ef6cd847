import Pone.Table

/-!
# The maps of `map.c`

A map is a `khash` of string keys and the counter `len` beside it.  The hash function takes the
first byte of a key before it looks at the length, so that it only ends for the empty string when
the byte behind it is zero.  The hash table itself is taken to be correct.
-/

namespace Pone
namespace Map

/-- A string value: its bytes, and the byte behind them if that belongs to the buffer. -/
structure Str where
  bytes : List UInt8
  behind : Option UInt8
  deriving DecidableEq

/-- The values as far as keys need them: which are strings, and `pone_stringify`, which for a string
gives a copy of it. -/
structure Vals (α : Type) where
  str : α → Option Str
  stringify : α → α
  str_stringify : ∀ v, (str (stringify v)).isSome
  stringify_str : ∀ v s, str v = some s → str (stringify v) = some s

variable {τ α : Type}

/-- The bytes of a key. -/
def Vals.bytes (vals : Vals α) (v : α) : Option (List UInt8) := (vals.str v).map Str.bytes

/-- `(khint_t) *s`, where `char` is signed. -/
def charHash (c : UInt8) : UInt32 := if c < 128 then c.toUInt32 else c.toUInt32 + 0xffffff00

/-- Why the process ends: an assertion fails, memory behind a buffer is read, or a value cannot be
copied. -/
inductive Halt where
  | assertion
  | wild
  | abort
  deriving DecidableEq

/-- `pone_val_hash_func` -/
def valHashFunc (vals : Vals α) (val : α) : Except Halt UInt32 :=
  match vals.str val with
  | none => .error .assertion
  | some s =>
      match s.bytes with
      -- behind the first byte, the loop does not meet the end of the text
      | [] => if s.behind = some 0 then .ok 0 else .error .wild
      | c :: rest =>
          if c = 0 then .ok 0
          else .ok (rest.foldl (fun h c => (h <<< 5) - h + charHash c) (charHash c))

/-- `pone_hash_body` -/
structure HashBody (τ : Type) where
  h : τ
  len : Int

variable (vals : Vals α) (table : HashTable τ vals.bytes α)

/-- `kh_get`, with the value in the place of its position; the hash function is not called for a
table without buckets. -/
def khGet (h : τ) (key : α) : Except Halt (Option α) :=
  if table.nBuckets h = 0 then .ok none
  else do
    let _ ← valHashFunc vals key
    return table.get h key

/-- `kh_put` and the assignment to its position. -/
def khPut (h : τ) (key val : α) : Except Halt τ := do
  let _ ← valHashFunc vals key
  return table.put h key val

/-- `pone_map_new` -/
def mapNew : HashBody τ := { h := table.init, len := 0 }

/-- `pone_map_at_key` -/
def mapAtKey (nil : α) (self : HashBody τ) (key : α) : Except Halt α := do
  match ← khGet vals table self.h key with
  | some v => return v
  | none => return nil

/-- `pone_map_assign_key` -/
def mapAssignKey (hv : HashBody τ) (key value : α) : Except Halt (HashBody τ) := do
  let key := if (vals.str key).isSome then key else vals.stringify key
  let h ← khPut vals table hv.h key value
  return { h, len := hv.len + 1 }

/-- `pone_map_assign_keys` with the pairs of its arguments -/
def mapAssignKeys (hash : HashBody τ) : List (α × α) → Except Halt (HashBody τ)
  | [] => .ok hash
  | (k, v) :: rest => do mapAssignKeys (← mapAssignKey vals table hash k v) rest

/-- `pone_map_size` -/
def mapSize (val : HashBody τ) : Int := val.len

/-- `pone_map_exists` -/
def mapExists (self : HashBody τ) (key : α) : Except Halt Bool := do
  return (← khGet vals table self.h key).isSome

/-- `pone_map_keys` -/
def mapKeys (val : HashBody τ) : List α := (table.entries val.h).map Prod.fst

/-- `pone_map_values` -/
def mapValues (val : HashBody τ) : List α := (table.entries val.h).map Prod.snd

/-- The loop of `pone_map_copy`, where `copy` is `pone_val_copy`. -/
def mapCopyEntries (copy : α → Except Halt α) (retval : HashBody τ) :
    List (α × α) → Except Halt (HashBody τ)
  | [] => .ok retval
  | (k, v) :: rest => do
      mapCopyEntries copy (← mapAssignKey vals table retval (← copy k) (← copy v)) rest

/-- `pone_map_copy` -/
def mapCopy (copy : α → Except Halt α) (obj : HashBody τ) : Except Halt (HashBody τ) :=
  mapCopyEntries vals table copy (mapNew vals table) (table.entries obj.h)

/-- The integers and the strings among the values. -/
abbrev Plain := Int ⊕ Str

/-- `Int#Str` prints in decimal, `Str#Str` copies. -/
def plainVals : Vals Plain where
  str := Sum.getRight?
  stringify v := .inr (v.elim
    (fun i => { bytes := i.repr.toList.map fun c => c.toNat.toUInt8, behind := some 0 }) id)
  str_stringify _ := rfl
  stringify_str v s found := by
    cases v with
    | inl i => cases found
    | inr s' => exact found

end Map
end Pone
