import Mathlib.Logic.Relation
import Pone.Syntax.Tags

/-!
# Reading nodes by their tags

The compiler rewrites the tree of the parser in two places, `inject_return` and the key of a pair.
All nodes that exist while a program is parsed and compiled store what their types announce, and so
are freed and printed by the right field, unless the action for `$*NAME` runs.
-/

namespace Pone
namespace Syntax

open Greg Relation

/-! ## What the compiler changes -/

/-- The types that `inject_return` puts under a `RETURN` node, in its order. -/
def returnedTypes : List NodeType :=
  [.range, .reduce, .int, .number, .div, .mul, .add, .sub, .ident, .funcall, .string, .mod,
    .variable, .my, .stringConcat, .eqv, .eq, .ne, .lt, .le, .gt, .ge, .array, .atpos, .methodcall,
    .func, .not, .conditional, .nop, .streq, .strne, .strgt, .strge, .strlt, .strle, .pow,
    .unaryBoolean, .unaryUpto, .twvar, .metaMethodCall, .regexp, .smartMatch, .notSmartMatch, .true,
    .false, .has, .attributeVariable, .funcref, .cmp, .specialVariableRegexpMatch,
    .specialVariableExceptions, .specialVariableErrno, .specialVariablePid, .hash, .pair, .atkey,
    .logicalAnd, .logicalOr, .dor, .lambda, .module, .class, .unaryPlus, .unaryMinus,
    .itMethodcall, .postinc, .postdec, .preinc, .predec, .brshift, .blshift, .chain, .inplaceAdd,
    .inplaceSub, .inplaceMul, .inplaceDiv, .inplacePow, .inplaceMod, .inplaceBinOr, .inplaceBinAnd,
    .inplaceBinXor, .inplaceBlshift, .inplaceBrshift, .inplaceConcatS, .repeatS, .stringify,
    .numCmp, .unicodeChar, .bitwiseOr, .bitwiseAnd, .bitwiseXor, .whatever, .nil, .role]

namespace Tree

/-- The `default` cases of `inject_return` and the long one before it. -/
def returned (node : Tree) : Tree :=
  if node.type ∈ returnedTypes then .children .return [node] else node

mutual

/-- `inject_return`; an IF has a condition and a body. -/
def injectReturn : Tree → Tree
  | .children .if (cond :: body :: other :: rest) =>
      .children .if (cond :: body.injectReturn :: other.injectReturn :: rest)
  | .children .if [cond, body] => .children .if [cond, body.injectReturn]
  | .children .else nodes => .children .else (injectLast nodes)
  | .children .block nodes => .children .block (injectLast nodes)
  | .children .statements nodes => .children .statements (injectLast nodes)
  | node => node.returned

/-- `inject_return` of the last child. -/
def injectLast : List Tree → List Tree
  | [] => []
  | [node] => [node.injectReturn]
  | node :: next :: rest => node :: injectLast (next :: rest)

end

/-- `node->type = …`. -/
def setType (node : Tree) (type : NodeType) : Tree :=
  match node with
  | .children _ nodes => .children type nodes
  | .string _ pv => .string type pv
  | .int _ iv => .int type iv
  | .number _ nv => .number type nv

/-- One change that the compiler makes in a tree. -/
inductive Rewrite : Tree → Tree → Prop where
  | inject (node) : Rewrite node node.injectReturn
  | pairKey (key rest) (ident : key.type = .ident) :
      Rewrite (.children .pair (key :: rest)) (.children .pair (key.setType .string :: rest))
  | inside (type before after) {node node'} (step : Rewrite node node') :
      Rewrite (.children type (before ++ node :: after)) (.children type (before ++ node' :: after))

/-! ## What is read by the tag -/

/-- The category of the payload that is stored. -/
def stored : Tree → Category
  | .children _ _ => .children
  | .string _ _ => .string
  | .int _ _ => .int
  | .number _ _ => .number

/-- What a node has on the heap. -/
inductive Owned where
  | nodes
  | string
  | nothing
  deriving DecidableEq

def owned : Tree → Owned
  | .children _ _ => .nodes
  | .string _ _ => .string
  | .int _ _ | .number _ _ => .nothing

/-- What `pvip_free` frees at a node; `none` where it frees what is not there. -/
def freed (node : Tree) : Option Owned :=
  match node.type.category, node with
  | .children, .children _ _ => some .nodes
  | .string, .string _ _ => some .string
  | .int, _ | .number, _ => some .nothing
  | _, _ => none

/-- A character in a string of `_PVIP_node_as_sexp`. -/
def sexpChar : UInt8 → List UInt8
  | 92 => bytes "\\\\"
  | 34 => bytes "\\\""
  | 47 => bytes "\\/"
  | 8 => bytes "\\b"
  | 12 => bytes "\\f"
  | 10 => bytes "\\n"
  | 13 => bytes "\\r"
  | 9 => bytes "\\t"
  | 7 => bytes "\\u0007"
  | 0 => bytes "\\0"
  | c => [c]

section Sexp

-- `PVIP_node_name`, and `PVIP_string_concat_number` of what `strtod` reads
variable (name : NodeType → List UInt8) (concatNumber : List UInt8 → List UInt8)

mutual

/-- `_PVIP_node_as_sexp`; `none` where it reads a payload that is not there. -/
def asSexp : Tree → Option (List UInt8)
  | .children type nodes =>
      if type.category = .children then do
        let parts ← sexps nodes
        some (bytes "(" ++ name type ++ (if parts.isEmpty then [] else bytes " ") ++
          (bytes " ").intercalate parts ++ bytes ")")
      else none
  | .string type pv =>
      if type.category = .string then
        some (bytes "(" ++ name type ++ bytes " \"" ++ pv.flatMap sexpChar ++ bytes "\")")
      else none
  | .int type iv =>
      if type.category = .int then
        some (bytes "(" ++ name type ++ bytes " " ++ bytes (toString iv) ++ bytes ")")
      else none
  | .number type nv =>
      if type.category = .number then
        some (bytes "(" ++ name type ++ bytes " " ++ concatNumber nv ++ bytes ")")
      else none

def sexps : List Tree → Option (List (List UInt8))
  | [] => some []
  | node :: rest => do
      let part ← asSexp node
      let parts ← sexps rest
      some (part :: parts)

end

end Sexp

end Tree

/-- `pvip_free`, over the nodes of the arenas. -/
def pvipFree (nodes : List Tree) : Option (List Tree.Owned) := nodes.mapM Tree.freed

/-! ## Well tagged trees -/

namespace WellTagged

open Pone.Syntax.Tree

variable {node node' : Tree}

theorem stored_eq (tagged : WellTagged node) : node.stored = node.type.category := by
  cases tagged with
  | children announced | string announced | int announced | number announced =>
      exact announced.symm

theorem freed_eq (tagged : WellTagged node) : node.freed = some node.owned := by
  cases tagged with
  | children announced | string announced | int announced | number announced =>
      simp only [freed, Tree.type, announced, owned]

private theorem sexps_isSome {name : NodeType → List UInt8}
    {concatNumber : List UInt8 → List UInt8} {nodes : List Tree}
    (all : ∀ node ∈ nodes, (asSexp name concatNumber node).isSome = true) :
    (sexps name concatNumber nodes).isSome = true := by
  induction nodes with
  | nil => rfl
  | cons node rest ih =>
      obtain ⟨part, printed⟩ := Option.isSome_iff_exists.mp (all node (List.mem_cons_self ..))
      obtain ⟨parts, later⟩ := Option.isSome_iff_exists.mp
        (ih fun other member => all other (List.mem_cons_of_mem _ member))
      rw [sexps, printed, Option.bind_eq_bind, Option.bind_some, later]
      rfl

theorem asSexp_isSome (name : NodeType → List UInt8) (concatNumber : List UInt8 → List UInt8)
    (tagged : WellTagged node) : (asSexp name concatNumber node).isSome = true := by
  induction tagged with
  | children announced _ ih =>
      obtain ⟨parts, printed⟩ := Option.isSome_iff_exists.mp (sexps_isSome ih)
      simp [asSexp, announced, printed]
  | string announced | int announced | number announced => simp [asSexp, announced]

theorem child {type : NodeType} {nodes : List Tree} (tagged : WellTagged (.children type nodes))
    (member : node ∈ nodes) : WellTagged node := by
  cases tagged with
  | children _ all => exact all node member

theorem returned (tagged : WellTagged node) : WellTagged node.returned := by
  unfold Tree.returned
  split
  · exact .children rfl fun other member => by rwa [List.mem_singleton.mp member]
  · exact tagged

mutual

theorem injectReturn {node : Tree} (tagged : WellTagged node) : WellTagged node.injectReturn := by
  unfold Tree.injectReturn
  split
  · next cond body other rest =>
      refine .children rfl fun part member => ?_
      rcases List.mem_cons.mp member with rfl | member
      · exact tagged.child (List.mem_cons_self ..)
      rcases List.mem_cons.mp member with rfl | member
      · exact injectReturn (tagged.child (by simp))
      rcases List.mem_cons.mp member with rfl | member
      · exact injectReturn (tagged.child (by simp))
      · exact tagged.child (by simp [member])
  · next cond body =>
      refine .children rfl fun part member => ?_
      rcases List.mem_pair.mp member with rfl | rfl
      · exact tagged.child (List.mem_cons_self ..)
      · exact injectReturn (tagged.child (by simp))
  · exact .children rfl (injectLast fun _ member => tagged.child member)
  · exact .children rfl (injectLast fun _ member => tagged.child member)
  · exact .children rfl (injectLast fun _ member => tagged.child member)
  · exact tagged.returned

theorem injectLast {nodes : List Tree} (all : ∀ node ∈ nodes, WellTagged node) :
    ∀ node ∈ Tree.injectLast nodes, WellTagged node := by
  match nodes with
  | [] => exact all
  | [node] =>
      intro part member
      rw [List.mem_singleton.mp member]
      exact injectReturn (all node (List.mem_cons_self ..))
  | node :: next :: rest =>
      intro part member
      rcases List.mem_cons.mp member with rfl | later
      · exact all _ (List.mem_cons_self ..)
      · exact injectLast (fun _ listed => all _ (List.mem_cons_of_mem _ listed)) part later

end

/-- The changes of the compiler keep the tags. -/
theorem rewrite (step : Rewrite node node') (tagged : WellTagged node) : WellTagged node' := by
  induction step with
  | inject => exact tagged.injectReturn
  | pairKey key rest ident =>
      refine .children rfl fun part member => ?_
      rcases List.mem_cons.mp member with rfl | later
      · -- an IDENT node is well tagged with a string only
        cases tagged.child (List.mem_cons_self ..) with
        | string => exact .string rfl
        | children announced | int announced | number announced =>
            cases ident
            cases announced
      · exact tagged.child (List.mem_cons_of_mem _ later)
  | inside type before after step ih =>
      cases tagged with
      | children announced all =>
          refine .children announced fun part member => ?_
          rcases List.mem_append.mp member with earlier | member
          · exact all part (List.mem_append_left _ earlier)
          rcases List.mem_cons.mp member with rfl | later
          · exact ih (all _ (by simp))
          · exact all part (by simp [later])

end WellTagged

/-! ## All nodes of a program -/

/-- A node that the machine keeps. -/
def Kept (vm : Vm) (node : Tree) : Prop :=
  vm.ss = some node ∨ (∃ i, vm.vals i = some node) ∨ vm.data.root = some node ∨
    node ∈ vm.data.literalStrStack

/-- A node that exists at some moment while a program is parsed, or while its tree is compiled. -/
inductive Built (w : List UInt8) : Tree → Prop where
  | parsed {c seen later done vm node} (run : ReadsWord w (.name .compInit) .start 0 true c seen)
      (thunks : c.thunks = later ++ done) (ran : yyDone (w.take seen) done initial = some vm)
      (kept : Kept vm node) : Built w node
  | compiled {c seen root node} (parsed : Parsed w c seen root)
      (rewritten : ReflTransGen Tree.Rewrite root node) : Built w node
  | part {type nodes node} (whole : Built w (.children type nodes)) (member : node ∈ nodes) :
      Built w node

/-- All nodes of a program store what their types announce; all payloads are freed, and all nodes
can be printed. -/
structure Announced (w : List UInt8) : Prop where
  stored : ∀ node, Built w node → node.stored = node.type.category
  freed : ∀ nodes : List Tree, (∀ node ∈ nodes, Built w node) →
    pvipFree nodes = some (nodes.map Tree.owned)
  printed : ∀ name concatNumber node, Built w node →
    (node.asSexp name concatNumber).isSome = true

/-- The action for `$*NAME` runs. -/
def TwvarRuns (w : List UInt8) : Prop :=
  ∃ c seen later first last done vm, ReadsWord w (.name .compInit) .start 0 true c seen ∧
    c.thunks = later ++ .action giveTwvar first last :: done ∧
      yyDone (w.take seen) done initial = some vm

section Built

variable {w : List UInt8} {node : Tree} {vm : Vm}

theorem initial_tagged : Tagged initial :=
  ⟨fun _ => (nomatch ·), fun _ _ => (nomatch ·), fun _ => (nomatch ·), fun _ => (nomatch ·)⟩

theorem Kept.wellTagged (kept : Kept vm node) (tagged : Tagged vm) : WellTagged node := by
  rcases kept with given | ⟨i, held⟩ | root | literal
  · exact tagged.ss node given
  · exact tagged.vals i node held
  · exact tagged.data.root node root
  · exact tagged.data.literals node literal

/-- While the action for `$*NAME` does not run, the machine keeps well tagged nodes only. -/
theorem tagged_of_plain {c : Cursor Act} {seen : Nat} {later done : List (Greg.Thunk Act)}
    (plain : ¬ TwvarRuns w) (run : ReadsWord w (.name .compInit) .start 0 true c seen)
    (thunks : c.thunks = later ++ done) (ran : yyDone (w.take seen) done initial = some vm) :
    Tagged vm := by
  refine yyDone_fine ran (fun act first last member => ?_) initial_tagged
  have pending := run.pending rule_tame trivial fun _ _ _ member => nomatch member
  rcases pending act first last (thunks ▸ List.mem_append_right _ member) with rfl | keeps
  · obtain ⟨before, earlier, rfl⟩ := List.append_of_mem member
    obtain ⟨vm₁, ran₁⟩ := yyDone_later ran
    rw [yyDone_cons] at ran₁
    obtain ⟨vm₂, ran₂, -⟩ := Option.bind_eq_some_iff.mp ran₁
    refine (plain ⟨c, seen, later ++ before, first, last, earlier, vm₂, run, ?_, ran₂⟩).elim
    rw [thunks, List.append_assoc]
  · exact keeps

theorem Built.wellTagged (built : Built w node) (plain : ¬ TwvarRuns w) : WellTagged node := by
  induction built with
  | parsed run thunks ran kept => exact kept.wellTagged (tagged_of_plain plain run thunks ran)
  | compiled parsed rewritten =>
      induction rewritten with
      | refl =>
          obtain ⟨vm, ran, root⟩ := Option.bind_eq_some_iff.mp parsed.root
          have all (thunks : List (Greg.Thunk Act)) : thunks = [] ++ thunks := rfl
          exact (tagged_of_plain plain parsed.run (all _) ran).data.root _ root
      | tail _ step ih => exact ih.rewrite step
  | part _ member ih => exact ih.child member

private theorem mapM_of_forall {α β : Type} {f : α → Option β} {g : α → β} {xs : List α}
    (each : ∀ x ∈ xs, f x = some (g x)) : xs.mapM f = some (xs.map g) := by
  induction xs with
  | nil => rfl
  | cons x xs ih =>
      rw [List.mapM_cons, each x (List.mem_cons_self ..),
        ih fun y member => each y (List.mem_cons_of_mem _ member)]
      rfl

private theorem not_announced_of_built {pv : List UInt8} (built : Built w (.string .twvar pv)) :
    ¬ Announced w := by
  intro announced
  cases announced.stored _ built

private theorem built_of_statement {w : List UInt8} (fuel : Nat) (pv : List UInt8)
    (read : (exec (lookWord w) rule fuel (.name .compInit) .start 0).bind (fun (ok, c, seen) =>
      match ok, rootOf (w.take seen) c.thunks with
      | true, some (.children _ [.string .twvar text]) => some text
      | _, _ => none) = some pv) : Built w (.string .twvar pv) := by
  obtain ⟨⟨ok, c, seen⟩, executed, result⟩ := Option.bind_eq_some_iff.mp read
  dsimp only at result
  split at result
  · next type text root =>
      cases result
      exact .part (.compiled ⟨.of_exec executed, root⟩ .refl) (List.mem_singleton_self _)
  · cases result

end Built

end Syntax
end Pone
