import Mathlib.Algebra.Group.Nat.Defs
import Mathlib.Data.List.Basic

/-!
# The nodes of the parser

Nodes are values: an action that changes a node, such as `PVIP_node_push_child`, assigns the changed
node to the variable it was given.  The line number that a node carries is left out.
-/

namespace Pone
namespace Syntax

/-- `PVIP_node_type_t`. -/
inductive NodeType where
  | range | reduce | int | number | statements | div | mul | add | sub | ident | funcall | args
  | string | mod | nil | «variable» | my | our | bind | stringConcat | «if» | eqv | eq | ne | lt | le
  | gt | ge | array | atpos | methodcall | func | params | «return» | «else» | «while» | elsif | list
  | «for» | unless | not | conditional | nop | streq | strne | strgt | strge | strlt | strle | pow
  | twvar | hash | pair | atkey | logicalAnd | logicalOr | dor | block | lambda | use | module
  | «class» | unaryPlus | unaryMinus | itMethodcall | last | next | postinc | postdec | preinc
  | predec | brshift | blshift | chain | inplaceAdd | inplaceSub | inplaceMul | inplaceDiv
  | inplacePow | inplaceMod | inplaceBinOr | inplaceBinAnd | inplaceBinXor | inplaceBlshift
  | inplaceBrshift | inplaceConcatS | repeatS | stringify | «try» | ref | unaryBoolean | unaryUpto
  | metaMethodCall | regexp | smartMatch | notSmartMatch | true | false | has | attributeVariable
  | funcref | valueIdentity | cmp | specialVariableRegexpMatch | specialVariableExceptions
  | specialVariableErrno | specialVariablePid | enum | numCmp | complex | role | is | does
  | unicodeChar | stub | param | bitwiseOr | bitwiseAnd | bitwiseXor | whatever | «end» | begin
  | bindandMakeReadonly | listAssignment | twA | twB | twC
  deriving DecidableEq

/-- `PVIP_category_t`. -/
inductive Category where
  | string
  | int
  | number
  | children
  deriving DecidableEq

/-- `PVIP_node_category`. -/
def NodeType.category : NodeType → Category
  | .string | .variable | .ident | .regexp | .attributeVariable | .unicodeChar => .string
  | .int => .int
  | .number | .complex => .number
  | _ => .children

/-- `pone_node`; a number is kept as the text that `strtod` reads. -/
inductive Tree where
  | children (type : NodeType) (nodes : List Tree)
  | string (type : NodeType) (pv : List UInt8)
  | int (type : NodeType) (iv : Int)
  | number (type : NodeType) (nv : List UInt8)

namespace Tree

def type : Tree → NodeType
  | .children type _ => type
  | .string type _ => type
  | .int type _ => type
  | .number type _ => type

/-- `PVIP_node_push_child`. -/
def pushChild (node child : Tree) : Option Tree :=
  match node with
  | .children type nodes => some (.children type (nodes ++ [child]))
  | _ => none

/-- `PVIP_node_change_type`. -/
def changeType (node : Tree) (type : NodeType) : Option Tree :=
  match node with
  | .children _ nodes => if type.category = .children then some (.children type nodes) else none
  | .string _ pv => if type.category = .string then some (.string type pv) else none
  | .int _ iv => if type.category = .int then some (.int type iv) else none
  | .number _ nv => if type.category = .number then some (.number type nv) else none

/-- `PVIP_node_append_string`. -/
def appendString (node : Tree) (txt : List UInt8) : Option Tree :=
  match node with
  | .children .stringConcat nodes =>
      match nodes.getLast? with
      | some (.string .string pv) =>
          some (.children .stringConcat (nodes.dropLast ++ [.string .string (pv ++ txt)]))
      | some _ =>
          some (.children .stringConcat [.children .stringConcat nodes, .string .string txt])
      | none => none
  | .string type pv => some (.string type (pv ++ txt))
  | _ => none

/-- `PVIP_node_append_string_node`. -/
def appendNode (node stuff : Tree) : Option Tree :=
  if node.type = .string ∨ node.type = .stringConcat then
    some (.children .stringConcat [node, stuff])
  else none

/-- `node_all_children_are`. -/
def allChildrenAre (node : Tree) (type : NodeType) : Bool :=
  match node with
  | .children _ nodes => nodes.all fun child => child.type = type
  | _ => false

end Tree

/-- The value of a digit for `strtoll`. -/
def digitValue (b : UInt8) : Option Nat :=
  if 48 ≤ b ∧ b ≤ 57 then some (b.toNat - 48)
  else if 65 ≤ b ∧ b ≤ 90 then some (b.toNat - 55)
  else if 97 ≤ b ∧ b ≤ 122 then some (b.toNat - 87)
  else none

/-- The digits that `strtoll` reads, after `value`. -/
def readDigits (base : Nat) : List UInt8 → Nat → Nat
  | [], value => value
  | b :: rest, value =>
      match digitValue b with
      | some digit => if digit < base then readDigits base rest (value * base + digit) else value
      | none => value

/-- `strtoll` on digits; base 0 looks at the first of them. -/
def strtoll (digits : List UInt8) (base : Int) : Nat :=
  if base = 0 then readDigits (if digits.head? = some 48 then 8 else 10) digits 0
  else if 2 ≤ base ∧ base ≤ 36 then readDigits base.toNat digits 0
  else 0

/-- `PVIP_node_new_intf`, which aborts on an overflow. -/
def Tree.intf (base : Int) (str : List UInt8) : Option Tree :=
  let n := strtoll (str.filter (· ≠ 95)) base
  if n < 2 ^ 63 then some (.int .int n) else none

end Syntax
end Pone
