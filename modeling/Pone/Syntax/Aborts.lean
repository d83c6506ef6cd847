import Pone.Greg.Invariant
import Pone.Syntax.Grammar

/-!
# What aborts an action

An action of the grammar aborts in a state where it follows a null pointer, where an assertion about a
node fails, or where a number is too large.  These are all ways: where none of them is open, the action
runs to its end.
-/

namespace Pone
namespace Syntax

open Greg

/-- The operand cannot be made in this state. -/
inductive Broken (yytext : List UInt8) (vm : Vm) : Operand → Prop
  /-- A child is `NULL`. -/
  | nullChild {type : NodeType} {operands : List Operand} {operand : Operand}
      (among : operand ∈ operands) (null : operand yytext vm = some none) :
      Broken yytext vm (children type operands)
  | child {type : NodeType} {operands : List Operand} {operand : Operand}
      (among : operand ∈ operands) (broken : Broken yytext vm operand) :
      Broken yytext vm (children type operands)
  | maybe {operand : Operand} (broken : Broken yytext vm operand) : Broken yytext vm (maybe operand)
  /-- The integer does not fit into 63 bits. -/
  | overflow {base : Int} (large : 2 ^ 63 ≤ strtoll (yytext.filter (· ≠ 95)) base) :
      Broken yytext vm (intf base)
  | notString {k : Nat} (other : ∀ type pv, vm.var k ≠ some (.string type pv)) :
      Broken yytext vm (stringIn k)
  | notBase {k : Nat} (other : ∀ type iv, vm.var k ≠ some (.int type iv)) :
      Broken yytext vm (intfBase k)
  | overflowBase {k : Nat} {type : NodeType} {iv : Int} (base : vm.var k = some (.int type iv))
      (large : 2 ^ 63 ≤ strtoll (yytext.filter (· ≠ 95)) (iv.bmod (2 ^ 32))) :
      Broken yytext vm (intfBase k)

/-- The operand cannot be made, or is `NULL`. -/
def Missing (yytext : List UInt8) (vm : Vm) (operand : Operand) : Prop :=
  operand yytext vm = some none ∨ Broken yytext vm operand

/-- The action aborts in this state. -/
inductive Aborts (yytext : List UInt8) : Act → Vm → Prop
  | give {operand : Operand} {vm : Vm} (broken : Broken yytext vm operand) :
      Aborts yytext (give operand) vm
  | store {k : Nat} {operand : Operand} {vm : Vm} (broken : Broken yytext vm operand) :
      Aborts yytext (store k operand) vm
  | setRoot {operand : Operand} {vm : Vm} (broken : Broken yytext vm operand) :
      Aborts yytext (setRoot operand) vm
  | push {k : Nat} {operand : Operand} {vm : Vm} (missing : Missing yytext vm operand) :
      Aborts yytext (push k operand) vm
  /-- The variable is `NULL`, or a node without children. -/
  | pushOnto {k : Nat} {operand : Operand} {vm : Vm}
      (other : ∀ type nodes, vm.var k ≠ some (.children type nodes)) :
      Aborts yytext (push k operand) vm
  | pushDollar {operand : Operand} {vm : Vm} (missing : Missing yytext vm operand) :
      Aborts yytext (pushDollar operand) vm
  | pushOntoDollar {operand : Operand} {vm : Vm}
      (other : ∀ type nodes, vm.ss ≠ some (.children type nodes)) :
      Aborts yytext (pushDollar operand) vm
  /-- The variable is `NULL`, or its node has another kind of payload than the new type. -/
  | changeType {k : Nat} {type : NodeType} {vm : Vm}
      (other : ∀ node ∈ vm.var k, node.changeType type = none) : Aborts yytext (changeType k type) vm
  | ifNull {k : Nat} {type : NodeType} {yes no : Act} {vm : Vm} (null : vm.var k = none) :
      Aborts yytext (ifType k type yes no) vm
  | ifType {k : Nat} {type : NodeType} {yes no : Act} {vm : Vm} {node : Tree}
      (held : vm.var k = some node) (branch : Aborts yytext (if node.type = type then yes else no) vm) :
      Aborts yytext (ifType k type yes no) vm
  | ifSet {k : Nat} {yes no : Act} {vm : Vm}
      (branch : Aborts yytext (if (vm.var k).isSome then yes else no) vm) :
      Aborts yytext (ifSet k yes no) vm
  /-- `$$` is `NULL`, or no string that can be appended to. -/
  | append {bytes : List UInt8 → List UInt8} {vm : Vm}
      (other : ∀ node ∈ vm.ss, node.appendString (bytes yytext) = none) :
      Aborts yytext (append bytes) vm
  | appendTo {k : Nat} {bytes : List UInt8 → List UInt8} {vm : Vm}
      (other : ∀ node ∈ vm.var k, node.appendString (bytes yytext) = none) :
      Aborts yytext (appendTo k bytes) vm
  /-- There is no literal under construction. -/
  | noLiteral {vm : Vm} (empty : vm.data.literalStrStack = []) : Aborts yytext strPop vm
  | noLast {update : List UInt8 → Vm → Tree → Option Tree} {vm : Vm}
      (empty : vm.data.literalStrStack = []) : Aborts yytext (updateLast update) vm
  /-- The literal on the top is no string that can be appended to. -/
  | appendS {bytes : List UInt8 → List UInt8} {vm : Vm}
      (other : ∀ top ∈ vm.data.literalStrStack.head?, top.appendString (bytes yytext) = none) :
      Aborts yytext (appendS bytes) vm
  | appendN {operand : Operand} {vm : Vm} (missing : Missing yytext vm operand) :
      Aborts yytext (appendN operand) vm
  /-- The literal on the top is no string. -/
  | appendNOnto {operand : Operand} {vm : Vm}
      (other : ∀ top ∈ vm.data.literalStrStack.head?, top.type ≠ .string ∧ top.type ≠ .stringConcat) :
      Aborts yytext (appendN operand) vm
  /-- The literal on the top is no plain string: it has an interpolation, or the escape does not have
  two digits. -/
  | appendCode {base : Nat} {vm : Vm}
      (other : ∀ top ∈ vm.data.literalStrStack.head?, ∀ pv,
        top.type.category ≠ .string ∨ yytext.length ≠ 2 ∨ top ≠ .string top.type pv) :
      Aborts yytext (appendCode base) vm
  | unchained {k : Nat} {vm : Vm} (null : vm.var k = none) : Aborts yytext (giveUnchained k) vm
  /-- The statements of a block are no node with children, or there is none of them. -/
  | noStatements {k : Nat} {vm : Vm} {node : Tree} (held : vm.var k = some node)
      (other : ∀ type head rest, node ≠ .children type (head :: rest)) : Aborts yytext (giveBlock k) vm
  /-- The first of a list of actions. -/
  | head {act : Act} {rest : List Act} {vm : Vm} (first : Aborts yytext act vm) :
      Aborts yytext (acts (act :: rest)) vm
  /-- One behind it, in the state that it leaves. -/
  | tail {act : Act} {rest : List Act} {vm vm' : Vm} (ran : act yytext vm = some vm')
      (later : Aborts yytext (acts rest) vm') : Aborts yytext (acts (act :: rest)) vm

section Operands

variable {yytext : List UInt8} {vm : Vm} {operand : Operand}

theorem node_eq_none_iff : operand.node yytext vm = none ↔
    operand yytext vm = some none ∨ operand yytext vm = none := by
  unfold Operand.node
  cases operand yytext vm with
  | none => simp
  | some v => cases v <;> simp

theorem mapM_eq_none_iff {α β : Type} {f : α → Option β} {l : List α} :
    l.mapM f = none ↔ ∃ a ∈ l, f a = none := by
  induction l with
  | nil => simp
  | cons a rest ih =>
      rw [List.mapM_cons, List.exists_mem_cons_iff, ← ih]
      cases f a with
      | none => simp
      | some b => cases rest.mapM f <;> simp

theorem children_eq_none_iff {type : NodeType} {operands : List Operand} :
    children type operands yytext vm = none ↔
      ∃ operand ∈ operands, operand yytext vm = some none ∨ operand yytext vm = none := by
  simp only [children, Option.bind_eq_bind, ← node_eq_none_iff, ← mapM_eq_none_iff]
  cases operands.mapM fun operand => operand.node yytext vm <;> simp

theorem intf_eq_none_iff {base : Int} {str : List UInt8} :
    Tree.intf base str = none ↔ 2 ^ 63 ≤ strtoll (str.filter (· ≠ 95)) base := by
  unfold Tree.intf
  simp only [ite_eq_right_iff, reduceCtorEq, imp_false, Nat.not_lt]

theorem Broken.eq_none (broken : Broken yytext vm operand) : operand yytext vm = none := by
  induction broken with
  | nullChild among null => exact children_eq_none_iff.mpr ⟨_, among, .inl null⟩
  | child among _ ih => exact children_eq_none_iff.mpr ⟨_, among, .inr ih⟩
  | maybe _ ih => simp [Syntax.maybe, ih]
  | overflow large => rw [intf, intf_eq_none_iff.mpr large, Option.map_none]
  | @notString k other =>
      unfold stringIn
      cases held : vm.var k with
      | none => rfl
      | some node =>
          cases node with
          | string type pv => exact absurd held (other type pv)
          | children | int | number => rfl
  | @notBase k other =>
      unfold intfBase
      cases held : vm.var k with
      | none => rfl
      | some node =>
          cases node with
          | int type iv => exact absurd held (other type iv)
          | children | string | number => rfl
  | overflowBase base large =>
      simp only [intfBase, base]
      rw [intf_eq_none_iff.mpr large, Option.map_none]

theorem Missing.node_eq_none (missing : Missing yytext vm operand) :
    operand.node yytext vm = none :=
  node_eq_none_iff.mpr (missing.imp_right Broken.eq_none)

/-- Where the operand cannot be made, one of the ways above is open. -/
def Operand.Told (operand : Operand) : Prop :=
  ∀ yytext vm, operand yytext vm = none → Broken yytext vm operand

theorem Operand.Told.missing (told : operand.Told) (unmade : operand.node yytext vm = none) :
    Missing yytext vm operand :=
  (node_eq_none_iff.mp unmade).imp_right (told yytext vm)

namespace Operand.Told

variable {k : Nat}

theorem of_made (made : ∀ yytext vm, operand yytext vm ≠ none) : operand.Told :=
  fun yytext vm unmade => absurd unmade (made yytext vm)

@[simp]
theorem var : (Syntax.var k).Told := of_made fun _ _ => Option.some_ne_none _

@[simp]
theorem dollar : Syntax.dollar.Told := of_made fun _ _ => Option.some_ne_none _

@[simp]
theorem null : Syntax.null.Told := of_made fun _ _ => Option.some_ne_none _

@[simp]
theorem stringOf {type : NodeType} {bytes : List UInt8} : (Syntax.stringOf type bytes).Told :=
  of_made fun _ _ => Option.some_ne_none _

@[simp]
theorem string {type : NodeType} : (Syntax.string type).Told := of_made fun _ _ => Option.some_ne_none _

@[simp]
theorem number {type : NodeType} : (Syntax.number type).Told := of_made fun _ _ => Option.some_ne_none _

@[simp]
theorem lineNumber : Syntax.lineNumber.Told := of_made fun _ _ => Option.some_ne_none _

@[simp]
theorem zero : Syntax.zero.Told := of_made fun _ _ => Option.some_ne_none _

@[simp]
theorem children {type : NodeType} {operands : List Operand}
    (all : ∀ operand ∈ operands, operand.Told) : (Syntax.children type operands).Told := by
  intro yytext vm unmade
  obtain ⟨operand, among, null | none⟩ := children_eq_none_iff.mp unmade
  · exact .nullChild among null
  · exact .child among (all operand among yytext vm none)

@[simp]
theorem maybe {operand : Operand} (told : operand.Told) : (Syntax.maybe operand).Told := by
  intro yytext vm unmade
  cases made : operand yytext vm with
  | none => exact .maybe (told yytext vm made)
  | some v => cases v <;> simp [Syntax.maybe, made, nop, Syntax.children] at unmade

@[simp]
theorem intf {base : Int} : (Syntax.intf base).Told := fun _ _ none =>
  .overflow (intf_eq_none_iff.mp (Option.map_eq_none_iff.mp none))

@[simp]
theorem stringIn : (Syntax.stringIn k).Told := by
  intro yytext vm unmade
  refine .notString fun type pv held => ?_
  simp [Syntax.stringIn, held] at unmade

@[simp]
theorem intfBase : (Syntax.intfBase k).Told := by
  intro yytext vm unmade
  by_cases base : ∃ type iv, vm.var k = some (.int type iv)
  · obtain ⟨type, iv, held⟩ := base
    simp only [Syntax.intfBase, held] at unmade
    exact .overflowBase held (intf_eq_none_iff.mp (Option.map_eq_none_iff.mp unmade))
  · exact .notBase fun type iv held => base ⟨type, iv, held⟩

end Operand.Told

end Operands

section Actions

variable {yytext : List UInt8} {vm : Vm} {act : Act}

/-- `Option.bind` fails with its first part, or behind it. -/
theorem bind_eq_none {α β : Type} {first : Option α} {next : α → Option β} :
    first.bind next = none ↔ ∀ a ∈ first, next a = none := by
  cases first <;> simp

/-- What is appended to a node of the category of strings is appended to a string. -/
theorem string_of_appendString {tree tree' : Tree} {txt : List UInt8}
    (category : tree.type.category = .string) (appended : tree.appendString txt = some tree') :
    ∃ type pv, tree = .string type pv := by
  unfold Tree.appendString at appended
  split at appended
  · cases category
  · exact ⟨_, _, rfl⟩
  · cases appended

/-- What is said to abort an action does. -/
theorem Aborts.eq_none (aborts : Aborts yytext act vm) : act yytext vm = none := by
  induction aborts with
  | give broken => simp [Syntax.give, broken.eq_none]
  | store broken => simp [Syntax.store, broken.eq_none]
  | setRoot broken => simp [Syntax.setRoot, broken.eq_none]
  | push missing => simp [Syntax.push, missing.node_eq_none]
  | @pushOnto k operand vm other =>
      simp only [Syntax.push, Option.bind_eq_bind, bind_eq_none]
      intro child _ node held node' pushed
      cases node with
      | children type nodes => exact absurd held (other type nodes)
      | string | int | number => cases pushed
  | pushDollar missing => simp [Syntax.pushDollar, missing.node_eq_none]
  | @pushOntoDollar operand vm other =>
      simp only [Syntax.pushDollar, Option.bind_eq_bind, bind_eq_none]
      intro child _ node held node' pushed
      cases node with
      | children type nodes => exact absurd held (other type nodes)
      | string | int | number => cases pushed
  | changeType other =>
      simp only [Syntax.changeType, Option.bind_eq_bind, bind_eq_none]
      intro node held node' changed
      cases (other node held).symm.trans changed
  | ifNull null => simp [Syntax.ifType, null]
  | @ifType k type yes no vm node held branch ih =>
      simp only [Syntax.ifType, held, Option.bind_eq_bind, Option.bind_some]
      split at ih <;> simp_all
  | @ifSet k yes no vm branch ih =>
      simp only [Syntax.ifSet]
      split at ih <;> simp_all
  | append other =>
      simp only [Syntax.append, Option.bind_eq_bind, bind_eq_none]
      intro node held node' appended
      cases (other node held).symm.trans appended
  | appendTo other =>
      simp only [Syntax.appendTo, Option.bind_eq_bind, bind_eq_none]
      intro node held node' appended
      cases (other node held).symm.trans appended
  | noLiteral empty => simp [strPop, empty]
  | noLast empty => simp [updateLast, empty]
  | @appendS bytes vm other =>
      cases stack : vm.data.literalStrStack with
      | nil => simp [Syntax.appendS, updateLast, stack]
      | cons top rest =>
          rw [stack] at other
          simp [Syntax.appendS, updateLast, stack, other top rfl]
  | @appendN operand vm missing =>
      cases stack : vm.data.literalStrStack with
      | nil => simp [Syntax.appendN, updateLast, stack]
      | cons top rest => simp [Syntax.appendN, updateLast, stack, missing.node_eq_none]
  | @appendNOnto operand vm other =>
      cases stack : vm.data.literalStrStack with
      | nil => simp [Syntax.appendN, updateLast, stack]
      | cons top rest =>
          rw [stack] at other
          simp [Syntax.appendN, updateLast, stack, Tree.appendNode, other top rfl]
  | @appendCode base vm other =>
      cases stack : vm.data.literalStrStack with
      | nil => simp [Syntax.appendCode, updateLast, stack]
      | cons top rest =>
          rw [stack] at other
          simp only [Syntax.appendCode, updateLast, stack, Option.bind_eq_bind, bind_eq_none]
          intro top' updated
          split at updated
          · next plain =>
              obtain ⟨type, pv, rfl⟩ := string_of_appendString plain.1 updated
              rcases other _ rfl pv with wrong | wrong | wrong
              · exact absurd plain.1 wrong
              · exact absurd plain.2 wrong
              · exact absurd rfl wrong
          · cases updated
  | unchained null => simp [giveUnchained, null]
  | @noStatements k vm node held other =>
      unfold giveBlock
      rw [held]
      cases node with
      | children type nodes =>
          cases nodes with
          | nil => rfl
          | cons head rest => exact absurd rfl (other type head rest)
      | string | int | number => rfl
  | head _ ih => simp [acts, ih]
  | tail ran _ ih => simp [acts, ran, ih]

end Actions

/-- Where the action fails, one of the ways above is open. -/
def Told (act : Act) : Prop := ∀ yytext vm, act yytext vm = none → Aborts yytext act vm

namespace Told

variable {k j : Nat} {type : NodeType} {operand : Operand} {yes no : Act} {list : List Act}
  {bytes : List UInt8 → List UInt8}

@[simp]
theorem acts (all : ∀ act ∈ list, Told act) : Told (Syntax.acts list) := by
  induction list with
  | nil =>
      intro yytext vm failed
      cases failed
  | cons act rest ih =>
      intro yytext vm failed
      cases ran : act yytext vm with
      | none => exact .head (all act List.mem_cons_self yytext vm ran)
      | some vm' =>
          simp only [Syntax.acts, ran, Option.bind_some] at failed
          exact .tail ran (ih (fun other member => all other (List.mem_cons_of_mem _ member))
            yytext vm' failed)

@[simp]
theorem give (told : operand.Told) : Told (Syntax.give operand) := by
  intro yytext vm failed
  cases made : operand yytext vm with
  | none => exact .give (told yytext vm made)
  | some v => simp [Syntax.give, made] at failed

@[simp]
theorem store (told : operand.Told) : Told (Syntax.store k operand) := by
  intro yytext vm failed
  cases made : operand yytext vm with
  | none => exact .store (told yytext vm made)
  | some v => simp [Syntax.store, made] at failed

@[simp]
theorem setRoot (told : operand.Told) : Told (Syntax.setRoot operand) := by
  intro yytext vm failed
  cases made : operand yytext vm with
  | none => exact .setRoot (told yytext vm made)
  | some v => simp [Syntax.setRoot, made] at failed

@[simp]
theorem push (told : operand.Told) : Told (Syntax.push k operand) := by
  intro yytext vm failed
  cases made : operand.node yytext vm with
  | none => exact .push (told.missing made)
  | some child =>
      refine .pushOnto fun type nodes held => ?_
      simp [Syntax.push, made, held, Tree.pushChild] at failed

@[simp]
theorem pushDollar (told : operand.Told) : Told (Syntax.pushDollar operand) := by
  intro yytext vm failed
  cases made : operand.node yytext vm with
  | none => exact .pushDollar (told.missing made)
  | some child =>
      refine .pushOntoDollar fun type nodes held => ?_
      simp [Syntax.pushDollar, made, held, Tree.pushChild] at failed

@[simp]
theorem changeType : Told (Syntax.changeType k type) := by
  intro yytext vm failed
  refine .changeType fun node held => ?_
  cases changed : node.changeType type with
  | none => rfl
  | some node' => simp [Syntax.changeType, Option.mem_def.mp held, changed] at failed

@[simp]
theorem ifType (one : Told yes) (other : Told no) : Told (Syntax.ifType k type yes no) := by
  intro yytext vm failed
  cases held : vm.var k with
  | none => exact .ifNull held
  | some node =>
      refine .ifType held ?_
      simp only [Syntax.ifType, held, Option.bind_eq_bind, Option.bind_some] at failed
      split at failed
      · next same => rw [if_pos same]; exact one yytext vm failed
      · next different => rw [if_neg different]; exact other yytext vm failed

@[simp]
theorem ifSet (one : Told yes) (other : Told no) : Told (Syntax.ifSet k yes no) := by
  intro yytext vm failed
  refine .ifSet ?_
  unfold Syntax.ifSet at failed
  split at failed
  · next set => rw [if_pos set]; exact one yytext vm failed
  · next unset => rw [if_neg unset]; exact other yytext vm failed

@[simp]
theorem combine : Told (Syntax.combine type k j) := acts (by simp)

@[simp]
theorem newline : Told Syntax.newline := by
  intro yytext vm failed
  cases failed

@[simp]
theorem strInit : Told Syntax.strInit := by
  intro yytext vm failed
  cases failed

@[simp]
theorem strPop : Told Syntax.strPop := by
  intro yytext vm failed
  cases stack : vm.data.literalStrStack with
  | nil => exact .noLiteral stack
  | cons top rest => simp [Syntax.strPop, stack] at failed

@[simp]
theorem append : Told (Syntax.append bytes) := by
  intro yytext vm failed
  refine .append fun node held => ?_
  cases appended : node.appendString (bytes yytext) with
  | none => rfl
  | some node' => simp [Syntax.append, Option.mem_def.mp held, appended] at failed

@[simp]
theorem appendTo : Told (Syntax.appendTo k bytes) := by
  intro yytext vm failed
  refine .appendTo fun node held => ?_
  cases appended : node.appendString (bytes yytext) with
  | none => rfl
  | some node' => simp [Syntax.appendTo, Option.mem_def.mp held, appended] at failed

@[simp]
theorem appendS : Told (Syntax.appendS bytes) := by
  intro yytext vm failed
  cases stack : vm.data.literalStrStack with
  | nil => exact .noLast stack
  | cons top rest =>
      refine .appendS fun top' last => ?_
      rw [stack] at last
      cases last
      cases appended : top.appendString (bytes yytext) with
      | none => rfl
      | some top' => simp [Syntax.appendS, updateLast, stack, appended] at failed

@[simp]
theorem appendN (told : operand.Told) : Told (Syntax.appendN operand) := by
  intro yytext vm failed
  cases stack : vm.data.literalStrStack with
  | nil => exact .noLast stack
  | cons top rest =>
      cases made : operand.node yytext vm with
      | none => exact .appendN (told.missing made)
      | some node =>
          refine .appendNOnto fun top' last => ?_
          rw [stack] at last
          cases last
          simpa [Syntax.appendN, updateLast, stack, made, Tree.appendNode] using failed

@[simp]
theorem appendCode (base : Nat) : Told (Syntax.appendCode base) := by
  intro yytext vm failed
  cases stack : vm.data.literalStrStack with
  | nil => exact .noLast stack
  | cons top rest =>
      refine .appendCode fun top' last pv => ?_
      rw [stack] at last
      cases last
      by_contra! plain
      obtain ⟨category, two, string⟩ := plain
      rw [string] at stack category
      simp [Syntax.appendCode, updateLast, stack, category, two, Tree.appendString] at failed

@[simp]
theorem giveUnchained : Told (Syntax.giveUnchained k) := by
  intro yytext vm failed
  refine .unchained ?_
  unfold Syntax.giveUnchained at failed
  split at failed
  · cases failed
  · cases failed
  · assumption

@[simp]
theorem giveBlock : Told (Syntax.giveBlock k) := by
  intro yytext vm failed
  cases held : vm.var k with
  | none => simp [Syntax.giveBlock, held, Syntax.give, children] at failed
  | some node =>
      refine .noStatements held fun type head rest same => ?_
      -- both forms of a block can be made
      have hash : NodeType.hash.category = .children := rfl
      subst same
      simp only [Syntax.giveBlock, held] at failed
      split at failed
      · simp [Syntax.acts, Syntax.changeType, held, Tree.changeType, hash, Syntax.give, var] at failed
      · cases failed

end Told

/-! ## The rules -/

/-- The actions of every rule tell why they abort. -/
theorem rule_told (r : RuleName) : (rule r).expression.Each Told := by
  cases r
  all_goals
    simp (disch := simp) [rule, seq, alt, lit, cls, gap, ws1, no, opt, many, marked, gives, infixOp,
      assignOp, chainOp, listOp, prefixOp, modifier, isDoes, escaped, sqForm, bracketComment, nop,
      Node.Each]
  -- actions in actions
  case ifStmt =>
    exact ⟨Told.acts (by simp (disch := simp)), Told.ifSet (Told.acts (by simp)) (by simp)⟩
  case commaOperatorExpr => exact Told.ifType (by simp) (Told.acts (by simp))
  case methodPostfixExpr => exact Told.acts (by simp (disch := simp))
  case funcdef => exact Told.acts (by simp (disch := simp))
  case lambda => exact ⟨Told.acts (by simp (disch := simp)), Told.acts (by simp (disch := simp))⟩

end Syntax
end Pone
