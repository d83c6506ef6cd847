import Pone.Syntax.Frame

/-!
# What the rules of a map literal give

The rules for identifiers, strings, pairs and maps are summarized by the node that they give, whatever
the expressions in them do.
-/

namespace Pone
namespace Syntax

open Greg

/-! ## The nodes that rules give -/

namespace Tree

/-- A pair whose key is printed as a string. -/
def IsPair (tree : Tree) : Prop := ∃ key value, tree = .children .pair [key, value] ∧ key.IsText

/-- A map literal as `_pone_compile` expects it. -/
def IsMap (tree : Tree) : Prop := ∃ pairs, tree = .children .hash pairs ∧ ∀ pair ∈ pairs, pair.IsPair

end Tree

/-- The rules for white space, comments and the ends of statements. -/
def Blank : RuleName → Prop
  | .esc | .eatTerminator | .comment | .ws | .pod | .dash | .endOfLine | .endOfFile => True
  | _ => False

/-- What the rule leaves in `$$`, and `comp_init` in the data of the parser. -/
def Gives : RuleName → Vm → Vm → Prop
  | .esc, vm, vm' | .eatTerminator, vm, vm' | .comment, vm, vm' | .ws, vm, vm' | .pod, vm, vm'
  | .dash, vm, vm' | .endOfLine, vm, vm' | .endOfFile, vm, vm' => vm'.ss = vm.ss
  | .compInit, _, vm' => ∃ tree, vm'.data.root = some tree
  | .statementlist, _, vm' => ∃ tree, vm'.ss = some tree
  | .ident, _, vm' => ∃ pv, vm'.ss = some (.string .ident pv)
  | .sqString, _, vm' => ∃ tree, vm'.ss = some tree ∧ tree.IsText
  | .dqString, vm, vm' | .string, vm, vm' | .hashKey, vm, vm' =>
      TextLiterals vm.data → ∃ tree, vm'.ss = some tree ∧ tree.IsText
  | .pair, vm, vm' => TextLiterals vm.data → ∃ tree, vm'.ss = some tree ∧ tree.IsPair
  | .hash, vm, vm' => TextLiterals vm.data → ∃ tree, vm'.ss = some tree ∧ tree.IsMap
  | _, _, _ => True

/-- What the thunks of a rule do. -/
abbrev Summary (r : RuleName) (vm vm' : Vm) : Prop := Within TextLiterals 0 vm vm' ∧ Gives r vm vm'

theorem Blank.gives {r : RuleName} {vm vm' : Vm} (blank : Blank r) : Gives r vm vm' ↔ vm'.ss = vm.ss := by
  cases r <;> first | exact blank.elim | exact Iff.rfl

theorem newline_blank {yytext : List UInt8} {vm vm' : Vm} (ran : newline yytext vm = some vm') :
    vm'.ss = vm.ss := by
  cases ran
  rfl

section Bodies

variable {vm vm' : Vm}

/-- White space leaves `$$` alone. -/
theorem blank_gives {r : RuleName} (blank : Blank r) (does : (rule r).expression.Does Summary vm vm') :
    vm'.ss = vm.ss := by
  refine Node.Blank.does (fun blank called => (Blank.gives blank).mp called.2) ?_ does
  cases r
  case esc | eatTerminator | comment | ws | dash | endOfFile =>
    simp [rule, seq, alt, lit, cls, gap, no, bracketComment, Node.Blank, Blank]
  case pod | endOfLine =>
    simp +decide [rule, seq, alt, lit, cls, no, many, Node.Blank]
    exact fun _ _ _ => newline_blank
  all_goals exact blank.elim

theorem give_eq_some {operand : Operand} {yytext : List UInt8} :
    give operand yytext vm = some vm' ↔
      ∃ v, operand yytext vm = some v ∧ { vm with ss := v } = vm' := by
  simp [give, Option.bind_eq_some_iff]

theorem does_alt {summary : RuleName → Vm → Vm → Prop} {nodes : List Expr} (some : nodes ≠ [])
    (does : (alt nodes).Does summary vm vm') : ∃ node ∈ nodes, node.Does summary vm vm' := by
  induction nodes with
  | nil => exact absurd rfl some
  | cons node rest ih =>
      cases rest with
      | nil => exact ⟨node, List.mem_cons_self, does⟩
      | cons next rest =>
          rcases does with does | does
          · exact ⟨node, List.mem_cons_self, does⟩
          · obtain ⟨other, listed, does⟩ := ih (by simp) does
            exact ⟨other, List.mem_cons_of_mem _ listed, does⟩

/-- What is appended to a string leaves it a string. -/
theorem append_isText {bytes : List UInt8 → List UInt8} {yytext : List UInt8}
    (isText : ∃ tree, vm.ss = some tree ∧ tree.IsText) (ran : append bytes yytext vm = some vm') :
    ∃ tree, vm'.ss = some tree ∧ tree.IsText := by
  obtain ⟨tree, given, isText⟩ := isText
  obtain ⟨node, given', ran⟩ := Option.bind_eq_some_iff.mp ran
  obtain ⟨node', appended, rest⟩ := Option.bind_eq_some_iff.mp ran
  cases rest
  cases given.symm.trans given'
  exact ⟨node', rfl, isText.appendString appended⟩

theorem sqForm_gives {start stop plain : String} {escapes : List (String × String)}
    (does : (sqForm start stop plain escapes).Does Summary vm vm') :
    ∃ tree, vm'.ss = some tree ∧ tree.IsText := by
  obtain ⟨_, rfl, vm₁, ⟨yytext, given⟩, vm₂, again, rfl⟩ := does
  obtain ⟨v, read, rfl⟩ := give_eq_some.mp given
  cases read
  refine again.star_keeps (P := fun vm => ∃ tree, vm.ss = some tree ∧ tree.IsText)
    ⟨_, rfl, .inl rfl⟩ fun {vm vm'} isText does => ?_
  obtain ⟨node, listed, does⟩ := does_alt (by simp) does
  have escaped {vm₁ : Vm} (called : Summary .esc vm vm₁) :
      ∃ tree, vm₁.ss = some tree ∧ tree.IsText := by
    rw [show vm₁.ss = vm.ss from called.2]
    exact isText
  simp only [List.mem_append, List.mem_cons, List.mem_map, List.not_mem_nil, or_false] at listed
  rcases listed with ((rfl | rfl) | ⟨⟨char, text⟩, -, rfl⟩) | rfl | rfl
  · obtain ⟨_, rfl, yytext, ran⟩ := does
    obtain ⟨vm₁, counted, ran⟩ := Option.bind_eq_some_iff.mp ran
    obtain ⟨vm₂, ran, done⟩ := Option.bind_eq_some_iff.mp ran
    cases counted
    cases done
    refine append_isText ?_ ran
    exact isText
  · obtain ⟨vm₁, plain, yytext, ran⟩ := does
    obtain rfl := Node.Silent.does (by simp [marked, seq, cls, Node.Silent]) plain
    exact append_isText isText ran
  · obtain ⟨vm₁, called, _, rfl, yytext, ran⟩ := does
    exact append_isText (escaped called) ran
  · obtain ⟨vm₁, called, vm₂, called', yytext, ran⟩ := does
    refine append_isText ?_ ran
    rw [show vm₂.ss = vm₁.ss from called'.2]
    exact escaped called
  · obtain ⟨vm₁, ⟨_, rfl, vm₂, ⟨vm₃, called, rfl⟩, rfl⟩, yytext, ran⟩ := does
    exact append_isText (escaped called) ran

theorem dqForm_gives {start stop : String} {element : Expr} {n : Nat}
    (confined : (Node.star element).Confined TextLiterals n) (literals : TextLiterals vm.data)
    (does : (seq [lit start, .action strInit, .star element, lit stop, .action strPop]).Does
      Summary vm vm') : ∃ tree, vm'.ss = some tree ∧ tree.IsText := by
  obtain ⟨_, rfl, vm₁, ⟨yytext, begun⟩, vm₂, again, _, rfl, yytext', popped⟩ := does
  have kept : AllText vm₂.data.literalStrStack := by
    have pushed := (Owns.strInit (n := n) _ _ _ begun).data literals
    exact (confined.within (fun called => called.1) again).data pushed
  unfold strPop at popped
  split at popped
  · cases popped
  · next top rest stack =>
      cases popped
      rw [stack] at kept
      exact ⟨top, rfl, kept top List.mem_cons_self⟩

theorem dqString_gives (literals : TextLiterals vm.data)
    (does : (rule .dqString).expression.Does Summary vm vm') :
    ∃ tree, vm'.ss = some tree ∧ tree.IsText := by
  have confined := rule_confined .dqString
  rcases does with does | does
  · exact dqForm_gives confined.1.2.2.1 literals does
  · exact dqForm_gives confined.2.2.2.1 literals does

theorem hashKey_gives (literals : TextLiterals vm.data)
    (does : (rule .hashKey).expression.Does Summary vm vm') :
    ∃ tree, vm'.ss = some tree ∧ tree.IsText := by
  rcases does with ⟨vm₁, -, yytext, given⟩ | called
  · obtain ⟨v, read, rfl⟩ := give_eq_some.mp given
    cases read
    exact ⟨_, rfl, .inl rfl⟩
  · exact called.2 literals

theorem ident_gives (does : (rule .ident).expression.Does Summary vm vm') :
    ∃ pv, vm'.ss = some (.string .ident pv) := by
  rcases does with ⟨vm₁, -, yytext, given⟩ | ⟨vm₁, -, yytext, given⟩
  · obtain ⟨v, read, rfl⟩ := give_eq_some.mp given
    cases read
    exact ⟨yytext, rfl⟩
  · obtain ⟨v, read, rfl⟩ := give_eq_some.mp given
    cases read
    exact ⟨yytext, rfl⟩

/-- Inside a rule with at least `n` variables, the variable `k` holds `tree`. -/
structure Holds (n k : Nat) (tree : Tree) (vm : Vm) : Prop where
  own : k < n
  room : n ≤ vm.val
  held : vm.var k = some tree
  literals : TextLiterals vm.data

namespace Holds

variable {n k j : Nat} {tree : Tree} {r : RuleName}

theorem call (holds : Holds n k tree vm) (called : Summary r vm vm') : Holds n k tree vm' where
  own := holds.own
  room := by rw [called.1.val_eq]; exact holds.room
  held := (called.1.var (Nat.lt_of_lt_of_le holds.own holds.room)).trans holds.held
  literals := called.1.data holds.literals

theorem setVar (holds : Holds n k tree vm) (different : k ≠ j) (own : j < n) (v : Value) :
    Holds n k tree (vm.setVar j v) where
  own := holds.own
  room := holds.room
  held := by
    have room := holds.room
    have here := holds.own
    exact (vm.var_setVar_of_ne different (by omega) (by omega) v).trans holds.held
  literals := holds.literals

theorem setSs (holds : Holds n k tree vm) (v : Value) : Holds n k tree { vm with ss := v } :=
  ⟨holds.own, holds.room, holds.held, holds.literals⟩

theorem write (own : k < n) (room : n ≤ vm.val) (literals : TextLiterals vm.data) :
    Holds n k tree (vm.setVar k (some tree)) :=
  ⟨own, room, vm.var_setVar_self k _, literals⟩

/-- What a call has given is in its variable. -/
theorem named (own : k < n) (room : n ≤ vm.val) (literals : TextLiterals vm.data)
    (called : Summary r vm vm') (given : vm'.ss = some tree) : Holds n k tree (vm'.setVar k vm'.ss) where
  own := own
  room := by
    rw [← called.1.val_eq] at room
    exact room
  held := (vm'.var_setVar_self k _).trans given
  literals := called.1.data literals

end Holds

theorem give_pair {first second : Operand} {yytext : List UInt8}
    (ran : give (children .pair [first, second]) yytext vm = some vm') :
    ∃ key value, first.node yytext vm = some key ∧ second.node yytext vm = some value ∧
      vm'.ss = some (.children .pair [key, value]) := by
  obtain ⟨v, made, rfl⟩ := give_eq_some.mp ran
  obtain ⟨nodes, read, same⟩ := Option.bind_eq_some_iff.mp made
  cases same
  simp only [List.mapM_cons, List.mapM_nil, Option.bind_eq_bind, Option.bind_eq_some_iff] at read
  obtain ⟨key, first, nodes', ⟨value, second, _, ⟨⟩, ⟨⟩⟩, ⟨⟩⟩ := read
  exact ⟨key, value, first, second, rfl⟩

theorem var_node {k : Nat} {yytext : List UInt8} : (var k).node yytext vm = vm.var k := by
  cases held : vm.var k <;> simp [Operand.node, var, held]

/-- A pair whose key is in a variable. -/
theorem Holds.pair {n k : Nat} {key : Tree} {second : Operand} {yytext : List UInt8}
    (holds : Holds n k key vm) (isText : key.IsText)
    (ran : give (children .pair [var k, second]) yytext vm = some vm') :
    ∃ tree, vm'.ss = some tree ∧ tree.IsPair := by
  obtain ⟨key', value, first, -, made⟩ := give_pair ran
  rw [var_node, holds.held] at first
  cases first
  exact ⟨_, made, key, value, rfl, isText⟩

/-- An identifier becomes a string. -/
theorem Holds.toString {n k : Nat} {pv yytext : List UInt8}
    (holds : Holds n k (.string .ident pv) vm)
    (ran : changeType k .string yytext vm = some vm') : Holds n k (.string .string pv) vm' := by
  obtain ⟨node, held, ran⟩ := Option.bind_eq_some_iff.mp ran
  obtain ⟨node', changed, rest⟩ := Option.bind_eq_some_iff.mp ran
  cases holds.held.symm.trans held
  cases changed
  cases rest
  exact ⟨holds.own, holds.room, vm.var_setVar_self k _, holds.literals⟩

/-- A pair in the form of an adverb, after its key. -/
theorem Holds.adverb {n : Nat} {pv yytext : List UInt8} {rest : List Act}
    (holds : Holds n 1 (.string .ident pv) vm)
    (ran : acts (changeType 1 .string :: rest) yytext vm = some vm') :
    ∃ vm₁, Holds n 1 (.string .string pv) vm₁ ∧ acts rest yytext vm₁ = some vm' := by
  obtain ⟨vm₁, changed, ran⟩ := Option.bind_eq_some_iff.mp ran
  exact ⟨vm₁, holds.toString changed, ran⟩

theorem acts_singleton {act : Act} {yytext : List UInt8} :
    acts [act] yytext vm = some vm' ↔ act yytext vm = some vm' := by
  simp [acts]

theorem pair_gives (room : 4 ≤ vm.val) (literals : TextLiterals vm.data)
    (does : (rule .pair).expression.Does Summary vm vm') :
    ∃ tree, vm'.ss = some tree ∧ tree.IsPair := by
  -- the identifier behind a colon
  have adverb {vm₁ : Vm} (called : Summary .ident vm vm₁) :
      ∃ pv, Holds 4 1 (.string .ident pv) (vm₁.setVar 1 vm₁.ss) := by
    obtain ⟨pv, given⟩ := called.2
    exact ⟨pv, .named (by decide) room literals called given⟩
  rcases does with does | does | does | does | does | does | does
  · obtain ⟨_, ⟨vm₁, key, rfl⟩, vm₂, gap, _, rfl, vm₃, gap', _, ⟨vm₄, value, rfl⟩, yytext, ran⟩ := does
    obtain ⟨tree, given, isText⟩ := key.2 literals
    have holds : Holds 4 3 tree (vm₁.setVar 3 vm₁.ss) :=
      .named (by decide) room literals key given
    exact ((((holds.call gap).call gap').call value).setVar (by decide) (by decide) _).pair isText ran
  · obtain ⟨_, rfl, _, ⟨_, rfl, _, ⟨vm₁, key, rfl⟩, rfl⟩, _, rfl, _, ⟨vm₂, value, rfl⟩, _, rfl, yytext,
      ran⟩ := does
    obtain ⟨pv, holds⟩ := adverb key
    have holds := (holds.call value).setVar (j := 0) (by decide) (by decide) vm₂.ss
    obtain ⟨vm₃, holds, ran⟩ := holds.adverb ran
    obtain ⟨vm₄, changed, ran⟩ := Option.bind_eq_some_iff.mp ran
    obtain ⟨node, -, changed⟩ := Option.bind_eq_some_iff.mp changed
    obtain ⟨node', -, rest⟩ := Option.bind_eq_some_iff.mp changed
    cases rest
    exact (holds.setVar (by decide) (by decide) _).pair (.inl rfl) (acts_singleton.mp ran)
  · obtain ⟨_, rfl, _, ⟨_, rfl, _, ⟨vm₁, key, rfl⟩, rfl⟩, _, rfl, _, ⟨vm₂, value, rfl⟩, _, rfl, yytext,
      ran⟩ := does
    obtain ⟨pv, holds⟩ := adverb key
    have holds := (holds.call value).setVar (j := 0) (by decide) (by decide) vm₂.ss
    obtain ⟨vm₃, holds, ran⟩ := holds.adverb ran
    exact holds.pair (.inl rfl) (acts_singleton.mp ran)
  · obtain ⟨_, rfl, _, ⟨_, rfl, _, ⟨vm₁, key, rfl⟩, rfl⟩, _, rfl, vm₂, gap, _, ⟨vm₃, value, rfl⟩, vm₄, gap',
      _, rfl, yytext, ran⟩ := does
    obtain ⟨pv, holds⟩ := adverb key
    have holds := ((holds.call gap).call value).setVar (j := 0) (by decide) (by decide) vm₃.ss
    obtain ⟨vm₅, holds, ran⟩ := (holds.call gap').adverb ran
    exact holds.pair (.inl rfl) (acts_singleton.mp ran)
  · obtain ⟨_, -, _, -, yytext, ran⟩ := does
    obtain ⟨key, value, first, -, made⟩ := give_pair ran
    cases first
    exact ⟨_, made, _, value, rfl, .inl rfl⟩
  · obtain ⟨_, -, _, -, yytext, ran⟩ := does
    obtain ⟨key, value, first, -, made⟩ := give_pair ran
    cases first
    exact ⟨_, made, _, value, rfl, .inl rfl⟩
  · obtain ⟨_, -, vm₁, -, yytext, ran⟩ := does
    obtain ⟨key, value, first, -, made⟩ := give_pair ran
    simp only [Operand.node, stringIn] at first
    split at first
    · cases first
      exact ⟨_, made, _, value, rfl, .inl rfl⟩
    · cases first

/-- A further pair of a map. -/
theorem Holds.further {tree : Tree} (holds : Holds 2 1 tree vm) (isMap : tree.IsMap)
    (does : (seq [gap, lit ",", gap, .named 0 .pair,
      .action (acts [push 1 (var 0), give (var 1)])]).Does Summary vm vm') :
    ∃ tree', Holds 2 1 tree' vm' ∧ tree'.IsMap := by
  obtain ⟨vm₁, space, _, rfl, vm₂, space', _, ⟨vm₃, called, rfl⟩, yytext, ran⟩ := does
  have before := (holds.call space).call space'
  obtain ⟨pair, given, isPair⟩ := called.2 before.literals
  have after := (before.call called).setVar (j := 0) (by decide) (by decide) vm₃.ss
  obtain ⟨vm₄, pushed, ran⟩ := Option.bind_eq_some_iff.mp ran
  obtain ⟨v, -, rfl⟩ := give_eq_some.mp (acts_singleton.mp ran)
  obtain ⟨child, read, pushed⟩ := Option.bind_eq_some_iff.mp pushed
  obtain ⟨node, held, pushed⟩ := Option.bind_eq_some_iff.mp pushed
  obtain ⟨node', appended, rest⟩ := Option.bind_eq_some_iff.mp pushed
  cases rest
  rw [var_node, vm₃.var_setVar_self, given] at read
  cases read
  cases after.held.symm.trans held
  obtain ⟨pairs, rfl, all⟩ := isMap
  cases appended
  refine ⟨_, (Holds.write (by decide) after.room after.literals).setSs v, _, rfl, ?_⟩
  intro other member
  rcases List.mem_append.mp member with earlier | last
  · exact all other earlier
  · rwa [List.mem_singleton.mp last]

theorem hash_gives (room : 2 ≤ vm.val) (literals : TextLiterals vm.data)
    (does : (rule .hash).expression.Does Summary vm vm') :
    ∃ tree, vm'.ss = some tree ∧ tree.IsMap := by
  rcases does with does | does
  · obtain ⟨_, rfl, vm₁, space, _, ⟨vm₂, called, rfl⟩, vm₃, ⟨yytext, first⟩, vm₄, again, vm₅, comma, vm₆,
      space', _, rfl, yytext', ran⟩ := does
    obtain ⟨pair, given, isPair⟩ := called.2 (space.1.data literals)
    -- the first pair
    have started : ∃ tree, Holds 2 1 tree vm₃ ∧ tree.IsMap := by
      obtain ⟨vm₇, gave, stored⟩ := Option.bind_eq_some_iff.mp first
      obtain ⟨v, made, rfl⟩ := give_eq_some.mp gave
      cases acts_singleton.mp stored
      simp only [children, List.mapM_cons, List.mapM_nil, var_node, Machine.var_setVar_self,
        given] at made
      cases made
      have inside : Holds 2 1 pair (vm₂.setVar 1 vm₂.ss) :=
        .named (by decide) (space.1.val_eq ▸ room) (space.1.data literals) called given
      refine ⟨_, Holds.write (by decide) inside.room inside.literals, [pair], rfl, ?_⟩
      rintro other member
      rwa [List.mem_singleton.mp member]
    obtain ⟨tree, holds, isMap⟩ := again.star_keeps
      (P := fun vm => ∃ tree, Holds 2 1 tree vm ∧ tree.IsMap) started
      fun now does => by
        obtain ⟨_, holds, isMap⟩ := now
        exact holds.further isMap does
    obtain rfl := Node.Silent.does (by simp [opt, seq, lit, Node.Silent]) comma
    obtain ⟨v, read, rfl⟩ := give_eq_some.mp ran
    cases read
    exact ⟨tree, (holds.call space').held, isMap⟩
  · obtain ⟨_, rfl, vm₁, space, _, rfl, yytext, ran⟩ := does
    obtain ⟨v, made, rfl⟩ := give_eq_some.mp ran
    cases made
    exact ⟨_, rfl, [], rfl, fun _ member => by cases member⟩

/-- A list of statements is a node, whatever the statements are. -/
theorem statementlist_gives (does : (rule .statementlist).expression.Does Summary vm vm') :
    ∃ tree, vm'.ss = some tree := by
  rcases does with ⟨_, ⟨vm₁, -, rfl⟩, vm₂, ⟨yytext, first⟩, vm₃, again, ended⟩ | ⟨vm₁, -, yytext, given⟩
  · have started : ∃ tree, vm₂.ss = some tree := by
      obtain ⟨vm₄, -, first⟩ := Option.bind_eq_some_iff.mp first
      obtain ⟨vm₅, pushed, first⟩ := Option.bind_eq_some_iff.mp first
      cases acts_singleton.mp first
      obtain ⟨child, -, pushed⟩ := Option.bind_eq_some_iff.mp pushed
      obtain ⟨node, -, pushed⟩ := Option.bind_eq_some_iff.mp pushed
      obtain ⟨node', -, done⟩ := Option.bind_eq_some_iff.mp pushed
      cases done
      exact ⟨node', rfl⟩
    obtain ⟨tree, given⟩ : ∃ tree, vm₃.ss = some tree := by
      refine again.star_keeps (P := fun vm => ∃ tree, vm.ss = some tree) started ?_
      rintro _ _ - ⟨_, -, _, -, yytext', ran⟩
      obtain ⟨vm₄, pushed, ran⟩ := Option.bind_eq_some_iff.mp ran
      obtain ⟨v, read, rfl⟩ := give_eq_some.mp (acts_singleton.mp ran)
      obtain ⟨child, -, pushed⟩ := Option.bind_eq_some_iff.mp pushed
      obtain ⟨node, -, pushed⟩ := Option.bind_eq_some_iff.mp pushed
      obtain ⟨node', -, done⟩ := Option.bind_eq_some_iff.mp pushed
      cases done
      cases read
      exact ⟨node', Machine.var_setVar_self ..⟩
    rcases ended with rfl | called
    · exact ⟨tree, given⟩
    · exact ⟨tree, Eq.trans called.2 given⟩
  · obtain ⟨v, made, rfl⟩ := give_eq_some.mp given
    cases made
    exact ⟨_, rfl⟩

/-- A match of the grammar has a root. -/
theorem compInit_gives (room : 1 ≤ vm.val) (does : (rule .compInit).expression.Does Summary vm vm') :
    ∃ tree, vm'.data.root = some tree := by
  have keeps {r : RuleName} {vm₁ vm₂ : Vm} (does : (opt [.name r]).Does Summary vm₁ vm₂) :
      vm₂.val = vm₁.val := by
    rcases does with rfl | called
    · rfl
    · exact called.1.val_eq
  rcases does with ⟨vm₁, bom, vm₂, pod, _, ⟨vm₃, list, rfl⟩, vm₄, space, vm₅, ended, yytext, ran⟩ |
      ⟨_, -, _, -, vm₁, -, vm₂, -, yytext, ran⟩
  · obtain ⟨tree, given⟩ := list.2
    have room' : 0 < vm₃.val := by
      rw [list.1.val_eq, keeps pod, keeps bom]
      exact room
    have held : vm₅.var 0 = some tree := by
      rw [ended.1.var (by rwa [space.1.val_eq]), space.1.var room', Machine.var_setVar_self, given]
    obtain ⟨vm₆, set, ran⟩ := Option.bind_eq_some_iff.mp ran
    obtain ⟨v, read, rfl⟩ := give_eq_some.mp (acts_singleton.mp ran)
    cases set
    exact ⟨tree, held⟩
  · obtain ⟨vm₃, gave, ran⟩ := Option.bind_eq_some_iff.mp ran
    obtain ⟨v, made, rfl⟩ := give_eq_some.mp gave
    cases acts_singleton.mp ran
    cases made
    exact ⟨_, rfl⟩

end Bodies

/-- The thunks of every rule do what is said of it. -/
theorem summarizes : Summarizes rule Summary := by
  refine summarizes_within rule_confined fun r vm vm' does => ?_
  by_cases blank : Blank r
  · have same := blank_gives blank does
    exact (Blank.gives blank).mpr same
  cases r
  case esc | eatTerminator | comment | ws | pod | dash | endOfLine | endOfFile =>
    exact absurd trivial blank
  case compInit =>
    have room : 1 ≤ (vm.push 1).val := Nat.le_add_left 1 vm.val
    have given := compInit_gives room does
    exact given
  case statementlist =>
    have given := statementlist_gives does
    exact given
  case ident => exact ident_gives does
  case sqString =>
    obtain ⟨form, listed, does⟩ := does_alt (by simp) does
    simp only [List.mem_cons, List.not_mem_nil, or_false] at listed
    rcases listed with rfl | rfl | rfl | rfl | rfl | rfl | rfl | rfl | rfl | rfl <;>
      exact sqForm_gives does
  case dqString => exact fun literals => dqString_gives literals does
  case string =>
    intro literals
    rcases does with called | called
    · exact called.2 literals
    · exact called.2
  case hashKey => exact fun literals => hashKey_gives literals does
  case pair =>
    intro literals
    have room : 4 ≤ (vm.push 4).val := Nat.le_add_left 4 vm.val
    have given := pair_gives room literals does
    exact given
  case hash =>
    intro literals
    have room : 2 ≤ (vm.push 2).val := Nat.le_add_left 2 vm.val
    have given := hash_gives room literals does
    exact given
  all_goals trivial

/-- A machine to which actions of the grammar lead from the start. -/
def Reached (vm : Vm) : Prop :=
  ∃ buf thunks, (∀ allowed : Act → Prop, (∀ r, (rule r).expression.Each allowed) →
    Greg.Pending allowed thunks) ∧ yyDone buf thunks initial = some vm

theorem Reached.literals {vm : Vm} (reached : Reached vm) : TextLiterals vm.data := by
  obtain ⟨buf, thunks, pending, ran⟩ := reached
  have keeps (r : RuleName) : (rule r).expression.Each (Keeps (fun _ => True) TextLiterals) :=
    (rule_confined r).each.imp fun _ stays => stays.keeps
  have start : initial.Fine (fun _ => True) TextLiterals :=
    ⟨trivial, fun _ => trivial, fun _ member => by cases member⟩
  exact (yyDone_fine ran (pending _ keeps) start).data

end Syntax
end Pone
