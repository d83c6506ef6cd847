import Pone.Greg.Invariant
import Pone.Syntax.Entry

/-!
# Tags and payloads of nodes

`pone_node` is a union whose live field `PVIP_node_category` finds by the type.  A node is well tagged
where the field that was stored is the one that its type announces.  All actions of the grammar keep
that, except the one for `$*NAME`, which stores a string under a type of the category of children.
-/

namespace Pone
namespace Syntax

open Greg

/-- Every node of a tree stores what its type announces. -/
inductive WellTagged : Tree → Prop where
  | children {type nodes} (announced : type.category = .children)
      (all : ∀ node ∈ nodes, WellTagged node) : WellTagged (.children type nodes)
  | string {type pv} (announced : type.category = .string) : WellTagged (.string type pv)
  | int {type iv} (announced : type.category = .int) : WellTagged (.int type iv)
  | number {type nv} (announced : type.category = .number) : WellTagged (.number type nv)

namespace WellTagged

variable {node child : Tree} {txt : List UInt8} {type : NodeType}

theorem pushChild {node' : Tree} (tagged : WellTagged node) (tagged' : WellTagged child)
    (pushed : node.pushChild child = some node') : WellTagged node' := by
  cases tagged with
  | children announced all =>
      cases pushed
      refine .children announced fun other member => ?_
      rcases List.mem_append.mp member with before | last
      · exact all other before
      · rwa [List.mem_singleton.mp last]
  | string | int | number => cases pushed

theorem changeType {node' : Tree} (tagged : WellTagged node)
    (changed : node.changeType type = some node') : WellTagged node' := by
  cases tagged with
  | children announced all =>
      simp only [Tree.changeType] at changed
      split at changed <;> cases changed
      next same => exact .children same all
  | string =>
      simp only [Tree.changeType] at changed
      split at changed <;> cases changed
      next same => exact .string same
  | int =>
      simp only [Tree.changeType] at changed
      split at changed <;> cases changed
      next same => exact .int same
  | number =>
      simp only [Tree.changeType] at changed
      split at changed <;> cases changed
      next same => exact .number same

theorem appendString {node' : Tree} (tagged : WellTagged node)
    (appended : node.appendString txt = some node') : WellTagged node' := by
  cases tagged with
  | @children type nodes announced all =>
      unfold Tree.appendString at appended
      split at appended
      · next same =>
          cases same
          split at appended
          · cases appended
            refine .children rfl fun other member => ?_
            rcases List.mem_append.mp member with before | last
            · exact all other (List.dropLast_subset _ before)
            · rw [List.mem_singleton.mp last]
              exact .string rfl
          · cases appended
            refine .children rfl fun other member => ?_
            rcases List.mem_pair.mp member with rfl | rfl
            · exact .children rfl all
            · exact .string rfl
          · cases appended
      · next same => cases same
      · cases appended
  | string announced =>
      cases appended
      exact .string announced
  | int | number => cases appended

theorem appendNode {node' : Tree} (tagged : WellTagged node) (tagged' : WellTagged child)
    (appended : node.appendNode child = some node') : WellTagged node' := by
  unfold Tree.appendNode at appended
  split at appended <;> cases appended
  refine .children rfl fun other member => ?_
  rcases List.mem_pair.mp member with rfl | rfl
  · exact tagged
  · exact tagged'

theorem intf {base : Int} {str : List UInt8} (read : Tree.intf base str = some node) :
    WellTagged node := by
  unfold Tree.intf at read
  simp only at read
  split at read <;> cases read
  exact .int rfl

end WellTagged

/-! ## The actions -/

/-- A value is `NULL` or well tagged. -/
def TaggedValue (v : Value) : Prop := ∀ tree, v = some tree → WellTagged tree

/-- The nodes that the parser context keeps are well tagged. -/
structure TaggedContext (context : Context) : Prop where
  root : TaggedValue context.root
  literals : ∀ tree ∈ context.literalStrStack, WellTagged tree

/-- All nodes that the machine keeps are well tagged. -/
abbrev Tagged (vm : Vm) : Prop := vm.Fine TaggedValue TaggedContext

/-- An operand that is well tagged. -/
def TaggedOperand (operand : Operand) : Prop :=
  ∀ yytext vm v, Tagged vm → operand yytext vm = some v → TaggedValue v

def KeepsTags (act : Act) : Prop := Keeps TaggedValue TaggedContext act

/-- All members of a list. -/
inductive Every {α : Type} (p : α → Prop) : List α → Prop where
  | nil : Every p []
  | cons {x xs} (head : p x) (tail : Every p xs) : Every p (x :: xs)

@[simp]
theorem every_nil {α : Type} {p : α → Prop} : Every p [] := .nil

@[simp]
theorem every_cons {α : Type} {p : α → Prop} {x : α} {xs : List α} :
    Every p (x :: xs) ↔ p x ∧ Every p xs :=
  ⟨fun | .cons head tail => ⟨head, tail⟩, fun ⟨head, tail⟩ => .cons head tail⟩

theorem Every.of_mem {α : Type} {p : α → Prop} {x : α} {xs : List α} (every : Every p xs)
    (member : x ∈ xs) : p x := by
  induction every with
  | nil => cases member
  | cons head _ ih =>
      rcases List.mem_cons.mp member with rfl | later
      · exact head
      · exact ih later

private theorem exists_of_mapM {α β : Type} {f : α → Option β} {xs : List α} {ys : List β}
    (mapped : xs.mapM f = some ys) {y : β} (member : y ∈ ys) : ∃ x ∈ xs, f x = some y := by
  induction xs generalizing ys with
  | nil =>
      cases mapped
      cases member
  | cons x xs ih =>
      rw [List.mapM_cons] at mapped
      obtain ⟨y₁, first, mapped⟩ := Option.bind_eq_some_iff.mp mapped
      obtain ⟨ys₁, rest, mapped⟩ := Option.bind_eq_some_iff.mp mapped
      cases mapped
      rcases List.mem_cons.mp member with rfl | later
      · exact ⟨x, List.mem_cons_self .., first⟩
      · obtain ⟨x', listed, same⟩ := ih rest later
        exact ⟨x', List.mem_cons_of_mem _ listed, same⟩

namespace TaggedOperand

theorem node {operand : Operand} (tagged : TaggedOperand operand) {yytext : List UInt8} {vm : Vm}
    {tree : Tree} (fine : Tagged vm) (gives : operand.node yytext vm = some tree) :
    WellTagged tree := by
  exact tagged _ _ _ fine (Option.join_eq_some_iff.mp gives) tree rfl

@[simp]
theorem var (k : Nat) : TaggedOperand (var k) := by
  rintro yytext vm v fine ⟨⟩
  exact fine.var k

@[simp]
theorem dollar : TaggedOperand dollar := by
  rintro yytext vm v fine ⟨⟩
  exact fine.ss

@[simp]
theorem null : TaggedOperand null := by
  rintro yytext vm v fine ⟨⟩ tree missing
  cases missing

@[simp]
theorem children {type : NodeType} {operands : List Operand} (announced : type.category = .children)
    (all : Every TaggedOperand operands) :
    TaggedOperand (children type operands) := by
  intro yytext vm v fine gives tree same
  obtain ⟨nodes, read, made⟩ := Option.bind_eq_some_iff.mp gives
  cases made
  cases same
  refine .children announced fun node member => ?_
  obtain ⟨operand, listed, reads⟩ := exists_of_mapM read member
  exact (all.of_mem listed).node fine reads

@[simp]
theorem maybe {operand : Operand} (tagged : TaggedOperand operand) :
    TaggedOperand (maybe operand) := by
  intro yytext vm v fine gives
  obtain ⟨value, read, chosen⟩ := Option.bind_eq_some_iff.mp gives
  cases value with
  | some tree =>
      cases chosen
      exact tagged _ _ _ fine read
  | none => exact (children rfl .nil) _ _ _ fine chosen

@[simp]
theorem stringOf {type : NodeType} {bytes : List UInt8} (announced : type.category = .string) :
    TaggedOperand (stringOf type bytes) := by
  rintro yytext vm v fine ⟨⟩ tree ⟨⟩
  exact .string announced

@[simp]
theorem string {type : NodeType} (announced : type.category = .string) :
    TaggedOperand (string type) := by
  rintro yytext vm v fine ⟨⟩ tree ⟨⟩
  exact .string announced

@[simp]
theorem number {type : NodeType} (announced : type.category = .number) :
    TaggedOperand (number type) := by
  rintro yytext vm v fine ⟨⟩ tree ⟨⟩
  exact .number announced

@[simp]
theorem intf (base : Int) : TaggedOperand (intf base) := by
  intro yytext vm v fine gives tree same
  obtain ⟨node, read, rfl⟩ := Option.map_eq_some_iff.mp gives
  cases same
  exact .intf read

@[simp]
theorem intfBase (k : Nat) : TaggedOperand (intfBase k) := by
  intro yytext vm v fine gives tree same
  unfold Syntax.intfBase at gives
  split at gives
  · obtain ⟨node, read, rfl⟩ := Option.map_eq_some_iff.mp gives
    cases same
    exact .intf read
  · cases gives

@[simp]
theorem lineNumber : TaggedOperand lineNumber := by
  rintro yytext vm v fine ⟨⟩ tree ⟨⟩
  exact .int rfl

@[simp]
theorem zero : TaggedOperand zero := by
  rintro yytext vm v fine ⟨⟩ tree ⟨⟩
  exact .int rfl

@[simp]
theorem stringIn (k : Nat) : TaggedOperand (stringIn k) := by
  intro yytext vm v fine gives tree same
  unfold Syntax.stringIn at gives
  split at gives
  · cases gives
    cases same
    exact .string rfl
  · cases gives

end TaggedOperand

namespace KeepsTags

@[simp]
theorem acts {list : List Act} (all : Every KeepsTags list) : KeepsTags (acts list) := by
  induction all with
  | nil =>
      rintro yytext vm vm' fine ⟨⟩
      exact fine
  | cons head _ ih =>
      intro yytext vm vm' fine ran
      obtain ⟨vm₁, first, later⟩ := Option.bind_eq_some_iff.mp ran
      exact ih _ _ _ (head _ _ _ fine first) later

@[simp]
theorem give {operand : Operand} (tagged : TaggedOperand operand) : KeepsTags (give operand) := by
  intro yytext vm vm' fine ran
  obtain ⟨v, read, rest⟩ := Option.bind_eq_some_iff.mp ran
  cases rest
  exact fine.setSs (tagged _ _ _ fine read)

@[simp]
theorem store {k : Nat} {operand : Operand} (tagged : TaggedOperand operand) :
    KeepsTags (store k operand) := by
  intro yytext vm vm' fine ran
  obtain ⟨v, read, rest⟩ := Option.bind_eq_some_iff.mp ran
  cases rest
  exact fine.setVar (tagged _ _ _ fine read)

@[simp]
theorem push {k : Nat} {operand : Operand} (tagged : TaggedOperand operand) :
    KeepsTags (push k operand) := by
  intro yytext vm vm' fine ran
  obtain ⟨child, read, ran⟩ := Option.bind_eq_some_iff.mp ran
  obtain ⟨node, kept, ran⟩ := Option.bind_eq_some_iff.mp ran
  obtain ⟨node', pushed, rest⟩ := Option.bind_eq_some_iff.mp ran
  cases rest
  refine fine.setVar fun tree same => ?_
  cases same
  exact (fine.var k node kept).pushChild (tagged.node fine read) pushed

@[simp]
theorem pushDollar {operand : Operand} (tagged : TaggedOperand operand) :
    KeepsTags (pushDollar operand) := by
  intro yytext vm vm' fine ran
  obtain ⟨child, read, ran⟩ := Option.bind_eq_some_iff.mp ran
  obtain ⟨node, kept, ran⟩ := Option.bind_eq_some_iff.mp ran
  obtain ⟨node', pushed, rest⟩ := Option.bind_eq_some_iff.mp ran
  cases rest
  refine fine.setSs fun tree same => ?_
  cases same
  exact (fine.ss node kept).pushChild (tagged.node fine read) pushed

@[simp]
theorem changeType (k : Nat) (type : NodeType) : KeepsTags (changeType k type) := by
  intro yytext vm vm' fine ran
  obtain ⟨node, kept, ran⟩ := Option.bind_eq_some_iff.mp ran
  obtain ⟨node', changed, rest⟩ := Option.bind_eq_some_iff.mp ran
  cases rest
  refine fine.setVar fun tree same => ?_
  cases same
  exact (fine.var k node kept).changeType changed

@[simp]
theorem ifType {k : Nat} {type : NodeType} {yes no : Act} (one : KeepsTags yes)
    (other : KeepsTags no) : KeepsTags (ifType k type yes no) := by
  intro yytext vm vm' fine ran
  obtain ⟨node, kept, ran⟩ := Option.bind_eq_some_iff.mp ran
  split at ran
  · exact one _ _ _ fine ran
  · exact other _ _ _ fine ran

@[simp]
theorem ifSet {k : Nat} {yes no : Act} (one : KeepsTags yes) (other : KeepsTags no) :
    KeepsTags (ifSet k yes no) := by
  intro yytext vm vm' fine ran
  unfold Syntax.ifSet at ran
  split at ran
  · exact one _ _ _ fine ran
  · exact other _ _ _ fine ran

@[simp]
theorem combine {type : NodeType} (announced : type.category = .children) (k j : Nat) :
    KeepsTags (combine type k j) :=
  acts (.cons (give (.children announced (.cons (.var k) (.cons (.var j) .nil))))
    (.cons (store .dollar) .nil))

@[simp]
theorem setRoot {operand : Operand} (tagged : TaggedOperand operand) :
    KeepsTags (setRoot operand) := by
  intro yytext vm vm' fine ran
  obtain ⟨v, read, rest⟩ := Option.bind_eq_some_iff.mp ran
  cases rest
  exact fine.setData ⟨tagged _ _ _ fine read, fine.data.literals⟩

@[simp]
theorem newline : KeepsTags newline := by
  rintro yytext vm vm' fine ⟨⟩
  exact fine.setData ⟨fine.data.root, fine.data.literals⟩

@[simp]
theorem append (bytes : List UInt8 → List UInt8) : KeepsTags (append bytes) := by
  intro yytext vm vm' fine ran
  obtain ⟨node, kept, ran⟩ := Option.bind_eq_some_iff.mp ran
  obtain ⟨node', appended, rest⟩ := Option.bind_eq_some_iff.mp ran
  cases rest
  refine fine.setSs fun tree same => ?_
  cases same
  exact (fine.ss node kept).appendString appended

@[simp]
theorem appendTo (k : Nat) (bytes : List UInt8 → List UInt8) : KeepsTags (appendTo k bytes) := by
  intro yytext vm vm' fine ran
  obtain ⟨node, kept, ran⟩ := Option.bind_eq_some_iff.mp ran
  obtain ⟨node', appended, rest⟩ := Option.bind_eq_some_iff.mp ran
  cases rest
  refine fine.setVar fun tree same => ?_
  cases same
  exact (fine.var k node kept).appendString appended

@[simp]
theorem strInit : KeepsTags strInit := by
  rintro yytext vm vm' fine ⟨⟩
  refine fine.setData ⟨fine.data.root, fun tree member => ?_⟩
  rcases List.mem_cons.mp member with rfl | before
  · exact .string rfl
  · exact fine.data.literals tree before

@[simp]
theorem strPop : KeepsTags strPop := by
  intro yytext vm vm' fine ran
  unfold Syntax.strPop at ran
  split at ran
  · cases ran
  · next top rest stack =>
      cases ran
      have literals := fine.data.literals
      rw [stack] at literals
      refine ⟨fun tree same => ?_, fine.vals, ⟨fine.data.root, fun tree member => ?_⟩⟩
      · cases same
        exact literals top (List.mem_cons_self ..)
      · exact literals tree (List.mem_cons_of_mem _ member)

/-- What an update of the last literal has to keep. -/
theorem updateLast {update : List UInt8 → Vm → Tree → Option Tree}
    (keeps : ∀ yytext vm top top', Tagged vm → WellTagged top → update yytext vm top = some top' →
      WellTagged top') : KeepsTags (updateLast update) := by
  intro yytext vm vm' fine ran
  unfold Syntax.updateLast at ran
  split at ran
  · cases ran
  · next top rest stack =>
      obtain ⟨top', updated, last⟩ := Option.bind_eq_some_iff.mp ran
      cases last
      have literals := fine.data.literals
      rw [stack] at literals
      refine fine.setData ⟨fine.data.root, fun tree member => ?_⟩
      rcases List.mem_cons.mp member with rfl | before
      · exact keeps _ _ _ _ fine (literals top (List.mem_cons_self ..)) updated
      · exact literals tree (List.mem_cons_of_mem _ before)

@[simp]
theorem appendS (bytes : List UInt8 → List UInt8) : KeepsTags (appendS bytes) :=
  updateLast fun _ _ _ _ _ tagged appended => tagged.appendString appended

@[simp]
theorem appendN {operand : Operand} (tagged : TaggedOperand operand) :
    KeepsTags (appendN operand) :=
  updateLast fun _ _ _ _ fine literal appended => by
    obtain ⟨node, read, appended⟩ := Option.bind_eq_some_iff.mp appended
    exact literal.appendNode (tagged.node fine read) appended

@[simp]
theorem appendCode (base : Nat) : KeepsTags (appendCode base) :=
  updateLast fun _ _ _ _ _ tagged appended => by
    split at appended
    · exact tagged.appendString appended
    · cases appended

@[simp]
theorem giveUnchained (k : Nat) : KeepsTags (giveUnchained k) := by
  intro yytext vm vm' fine ran
  have kept := fine.var k
  unfold Syntax.giveUnchained at ran
  split at ran
  · next same =>
      cases ran
      cases kept _ same with
      | children _ all =>
          refine fine.setSs fun tree found => ?_
          cases found
          exact all _ (List.mem_singleton_self _)
  · next same =>
      cases ran
      rw [same] at kept
      exact fine.setSs kept
  · cases ran

@[simp]
theorem giveBlock (k : Nat) : KeepsTags (giveBlock k) := by
  intro yytext vm vm' fine ran
  have kept := fine.var k
  unfold Syntax.giveBlock at ran
  split at ran
  · exact give (.children rfl .nil) _ _ _ fine ran
  · next same =>
      split at ran
      · exact acts (.cons (changeType k .hash) (.cons (give (.var k)) .nil)) _ _ _ fine ran
      · cases ran
        refine fine.setSs fun tree found => ?_
        cases found
        exact .children rfl (by simpa using kept _ same)
  · cases ran

end KeepsTags

/-- The actions of all rules keep the tags, except for `$*NAME`. -/
theorem rule_keepsTags (r : RuleName) (plain : r ≠ .twvars) :
    (rule r).expression.Each KeepsTags := by
  cases r
  case twvars => exact (plain rfl).elim
  all_goals
    simp +decide [rule, seq, alt, lit, cls, gap, ws1, no, opt, many, marked, gives, infixOp,
      assignOp, chainOp, listOp, prefixOp, modifier, isDoes, escaped, sqForm, bracketComment, nop,
      Node.Each]
  -- operands in operands
  all_goals
    and_intros
    all_goals
      apply_rules [Every.cons, Every.nil, rfl, KeepsTags.acts, KeepsTags.give, KeepsTags.store,
        KeepsTags.push, KeepsTags.pushDollar, KeepsTags.setRoot, KeepsTags.changeType,
        KeepsTags.ifType, KeepsTags.ifSet, KeepsTags.combine, KeepsTags.appendN,
        TaggedOperand.children, TaggedOperand.maybe, TaggedOperand.var, TaggedOperand.dollar,
        TaggedOperand.null, TaggedOperand.stringOf, TaggedOperand.string, TaggedOperand.zero]

/-- The action for `$*NAME`. -/
def giveTwvar : Act := give (string .twvar)

theorem rule_tame (r : RuleName) :
    (rule r).expression.Each fun act => act = giveTwvar ∨ KeepsTags act := by
  by_cases plain : r = .twvars
  · subst plain
    simp +decide [rule, seq, alt, lit, cls, marked, gives, Node.Each, giveTwvar]
  · exact (rule_keepsTags r plain).imp fun _ keeps => .inr keeps

end Syntax
end Pone
