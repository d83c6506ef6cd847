import Mathlib.Data.List.Basic

/-!
# Truth of values

`pone_so` and the conditions of compiled code that call it.  The accessors of the types assert the type
that they are given; a failed assertion is `none`.
-/

namespace Pone
namespace Truth

/-- The buffer of a string: its own, or with `PONE_FLAGS_STR_COPY` that of the string it was copied
from. -/
inductive Text where
  | own (bytes : List UInt8)
  | copyOf (source : Text)
  deriving DecidableEq

/-- A value that a program computes, with the fields that a condition may look at. -/
inductive Value where
  | nil
  | int (i : Int)
  /-- The bits of a `double`. -/
  | num (bits : UInt64)
  /-- `Str` and, without `PONE_FLAGS_STR_UTF8`, `Bytes`. -/
  | string (utf8 : Bool) (text : Text)
  | array
  | bool (b : Bool)
  | map
  | code
  | obj
  | opaqueVal
  deriving DecidableEq

/-- `pone_t`. -/
inductive PoneType where
  | nil | int | num | string | array | bool | map | code | obj | opaqueVal
  deriving DecidableEq

/-- `pone_type`. -/
def Value.type : Value → PoneType
  | .nil => .nil
  | .int _ => .int
  | .num _ => .num
  | .string _ _ => .string
  | .array => .array
  | .bool _ => .bool
  | .map => .map
  | .code => .code
  | .obj => .obj
  | .opaqueVal => .opaqueVal

/-- `pone_int_val`. -/
def intVal : Value → Option Int
  | .int i => some i
  | _ => none

/-- `pone_bool_val`. -/
def boolVal : Value → Option Bool
  | .bool b => some b
  | _ => none

/-- The bytes of a string, through all copies. -/
def Text.bytes : Text → List UInt8
  | .own bytes => bytes
  | .copyOf source => source.bytes

/-- `pone_str_len` of a string, which asks the source of a copy. -/
def Text.len : Text → Nat
  | .own bytes => bytes.length
  | .copyOf source => source.len

/-- `pone_str_len`. -/
def strLen : Value → Option Nat
  | .string _ text => some text.len
  | _ => none

/-- `pone_so`. -/
def so (val : Value) : Option Bool :=
  match val.type with
  | .nil => some false
  | .int => (intVal val).map fun i => i ≠ 0
  | .num => (intVal val).map fun i => i ≠ 0
  | .string => (strLen val).map fun len => len ≠ 0
  | .bool => boolVal val
  | _ => some true

/-- `pone_not`. -/
def not (val : Value) : Option Value :=
  (so val).map fun truth => if truth then .bool false else .bool true

/-- What compiled code does with the value of a condition. -/
inductive Use where
  | «if» | elsif | «while» | conditional | not | logicalOr | logicalAnd
  deriving DecidableEq

/-- Where control goes next: into the block, the body or the operand that the condition guards, or
past it.  After `pone_not` it is the boolean returned. -/
def Use.run : Use → Value → Option Bool
  | .if, val => so val
  | .elsif, val => so val
  | .while, val => so val
  | .conditional, val => so val
  | .not, val => (Truth.not val).bind boolVal
  | .logicalOr, val => (so val).map fun truth => !truth
  | .logicalAnd, val => so val

/-- The positive and the negative zero. -/
def zeroBits (bits : UInt64) : Bool := bits = 0 ∨ bits = 0x8000000000000000

/-- `nil`, `False`, `Int` 0, `Num` 0.0 and the empty string. -/
def Value.falsy : Value → Bool
  | .nil => true
  | .int i => i = 0
  | .num bits => zeroBits bits
  | .string _ text => text.bytes.isEmpty
  | .bool b => !b
  | .array | .map | .code | .obj | .opaqueVal => false

theorem Text.len_eq (text : Text) : text.len = text.bytes.length := by
  induction text with
  | own bytes => rfl
  | copyOf source ih => exact ih

/-- `pone_so` of all values but numbers, for which `pone_int_val` asserts an integer. -/
theorem so_eq (val : Value) : so val = if val.type = .num then none else some (!val.falsy) := by
  cases val with
  | int i => by_cases zero : i = 0 <;> simp [so, Value.type, intVal, Value.falsy, zero]
  | string utf8 text =>
      simp only [so, Value.type, strLen, Text.len_eq, Value.falsy]
      cases text.bytes <;> rfl
  | bool b => cases b <;> rfl
  | nil | num | array | map | code | obj | opaqueVal => rfl

/-- A condition fails on the values on which `pone_so` fails. -/
theorem run_isSome_iff (use : Use) (val : Value) : (use.run val).isSome ↔ (so val).isSome := by
  cases use with
  | not =>
      simp only [Use.run, Truth.not]
      cases so val with
      | none => rfl
      | some truth => cases truth <;> exact ⟨fun _ => rfl, fun _ => rfl⟩
  | «if» | elsif | «while» | conditional | logicalAnd => exact .rfl
  | logicalOr => simp only [Use.run, Option.isSome_map]

/-- No condition fails an assertion, and exactly the values listed are false. -/
def Total (val : Value) : Prop :=
  (∀ use : Use, (use.run val).isSome) ∧ so val = some (!val.falsy)

/-- Truth is total exactly on the values that are no `Num`. -/
theorem truth_total_iff (val : Value) : Total val ↔ val.type ≠ .num := by
  have defined : (so val).isSome ↔ val.type ≠ .num := by
    rw [so_eq]
    split <;> simp_all
  constructor
  · rintro ⟨uses, -⟩
    exact defined.mp ((run_isSome_iff .if val).mp (uses .if))
  · intro other
    refine ⟨fun use => (run_isSome_iff use val).mpr (defined.mpr other), ?_⟩
    rw [so_eq, if_neg other]

/-- The condition `if 1.5 { }` aborts. -/
theorem num_fails : Use.run .if (.num 0x3FF8000000000000) = none ∧
    ¬ Total (.num 0x3FF8000000000000) :=
  ⟨rfl, fun total => by cases total.2⟩

end Truth
end Pone
