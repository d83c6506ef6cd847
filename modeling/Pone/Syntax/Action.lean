import Pone.Greg.Thunk
import Pone.Syntax.Tree

/-!
# The actions of the grammar

The C code between braces in `pone.y`, put together from the calls it is made of.  An assertion that
fails and a null pointer that is followed abort the parser.
-/

namespace Pone
namespace Syntax

open Greg

/-- What the actions use of `PVIPParserContext`. -/
structure Context where
  root : Option Tree
  lineNumber : Nat
  literalStrStack : List Tree

/-- `pone_node*`. -/
abbrev Value := Option Tree

abbrev Vm := Machine Value Context

abbrev Act := Action Value Context

/-- An operand of an action. -/
abbrev Operand := List UInt8 → Vm → Option Value

/-! ## Operands -/

def var (k : Nat) : Operand := fun _ vm => some (vm.var k)

/-- `$$`. -/
def dollar : Operand := fun _ vm => some vm.ss

def null : Operand := fun _ _ => some none

/-- An operand that must not be `NULL`. -/
def Operand.node (operand : Operand) (yytext : List UInt8) (vm : Vm) : Option Tree :=
  (operand yytext vm).join

/-- `PVIP_node_new_children`, `PVIP_node_new_children1` and so on. -/
def children (type : NodeType) (operands : List Operand) : Operand := fun yytext vm => do
  let nodes ← operands.mapM fun operand => operand.node yytext vm
  some (some (.children type nodes))

def nop : Operand := children .nop []

/-- `MAYBE`. -/
def maybe (operand : Operand) : Operand := fun yytext vm => do
  match ← operand yytext vm with
  | some tree => some (some tree)
  | none => nop yytext vm

/-- `PVIP_node_new_string` of some bytes. -/
def stringOf (type : NodeType) (bytes : List UInt8) : Operand := fun _ _ =>
  some (some (.string type bytes))

/-- `PVIP_node_new_string(…, yytext, yyleng)`. -/
def string (type : NodeType) : Operand := fun yytext _ => some (some (.string type yytext))

/-- `PVIP_node_new_number(…, yytext, yyleng)`. -/
def number (type : NodeType) : Operand := fun yytext _ => some (some (.number type yytext))

/-- `PVIP_node_new_intf(…, yytext, yyleng, base)`. -/
def intf (base : Int) : Operand := fun yytext _ => (Tree.intf base yytext).map some

/-! ## Statements -/

def acts : List Act → Act
  | [], _, vm => some vm
  | act :: rest, yytext, vm => (act yytext vm).bind (acts rest yytext)

/-- `$$ = …`. -/
def give (operand : Operand) : Act := fun yytext vm => do
  let v ← operand yytext vm
  some { vm with ss := v }

/-- `v = …`. -/
def store (k : Nat) (operand : Operand) : Act := fun yytext vm => do
  let v ← operand yytext vm
  some (vm.setVar k v)

/-- `PVIP_node_push_child(v, …)`. -/
def push (k : Nat) (operand : Operand) : Act := fun yytext vm => do
  let child ← operand.node yytext vm
  let node ← vm.var k
  let node ← node.pushChild child
  some (vm.setVar k node)

/-- `PVIP_node_push_child($$, …)`. -/
def pushDollar (operand : Operand) : Act := fun yytext vm => do
  let child ← operand.node yytext vm
  let node ← vm.ss
  let node ← node.pushChild child
  some { vm with ss := some node }

/-- `PVIP_node_change_type(v, …)`. -/
def changeType (k : Nat) (type : NodeType) : Act := fun _ vm => do
  let node ← vm.var k
  let node ← node.changeType type
  some (vm.setVar k node)

/-- `if (v->type == …)`. -/
def ifType (k : Nat) (type : NodeType) (yes no : Act) : Act := fun yytext vm => do
  let node ← vm.var k
  if node.type = type then yes yytext vm else no yytext vm

/-- `if (v)`. -/
def ifSet (k : Nat) (yes no : Act) : Act := fun yytext vm =>
  if (vm.var k).isSome then yes yytext vm else no yytext vm

/-- `$$ = …(t, v, w); v = $$;`, the step of a fold to the left. -/
def combine (type : NodeType) (k j : Nat) : Act :=
  acts [give (children type [var k, var j]), store k dollar]

/-- `G->data.root = …`. -/
def setRoot (operand : Operand) : Act := fun yytext vm => do
  let v ← operand yytext vm
  some { vm with data := { vm.data with root := v } }

/-- `G->data.line_number++`. -/
def newline : Act := fun _ vm =>
  some { vm with data := { vm.data with lineNumber := vm.data.lineNumber + 1 } }

/-- `$$ = PVIP_node_append_string(…, $$, …)`. -/
def append (bytes : List UInt8 → List UInt8) : Act := fun yytext vm => do
  let node ← vm.ss
  let node ← node.appendString (bytes yytext)
  some { vm with ss := some node }

/-- `v = PVIP_node_append_string(…, v, …)`. -/
def appendTo (k : Nat) (bytes : List UInt8 → List UInt8) : Act := fun yytext vm => do
  let node ← vm.var k
  let node ← node.appendString (bytes yytext)
  some (vm.setVar k node)

/-- `STR_INIT`. -/
def strInit : Act := fun _ vm =>
  some { vm with data := { vm.data with
    literalStrStack := .string .string [] :: vm.data.literalStrStack } }

/-- `$$ = STR_POP()`. -/
def strPop : Act := fun _ vm =>
  match vm.data.literalStrStack with
  | [] => none
  | top :: rest => some { vm with ss := some top, data := { vm.data with literalStrStack := rest } }

/-- An update of `S_LAST`. -/
def updateLast (update : List UInt8 → Vm → Tree → Option Tree) : Act := fun yytext vm =>
  match vm.data.literalStrStack with
  | [] => none
  | top :: rest => do
      let top ← update yytext vm top
      some { vm with data := { vm.data with literalStrStack := top :: rest } }

/-- `APPEND_S`. -/
def appendS (bytes : List UInt8 → List UInt8) : Act :=
  updateLast fun yytext _ top => top.appendString (bytes yytext)

/-- `APPEND_N`. -/
def appendN (operand : Operand) : Act :=
  updateLast fun yytext vm top => do top.appendNode (← operand.node yytext vm)

/-- `APPEND_DEC`, `APPEND_HEX` and `APPEND_OCT`, which take two digits onto a plain string. -/
def appendCode (base : Nat) : Act :=
  updateLast fun yytext _ top =>
    if top.type.category = .string ∧ yytext.length = 2 then
      top.appendString [UInt8.ofNat (readDigits base yytext 0)]
    else none

end Syntax
end Pone
