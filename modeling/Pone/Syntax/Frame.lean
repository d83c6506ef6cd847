import Pone.Greg.Summary
import Pone.Syntax.Entry

/-!
# What the rules leave alone

The actions of every rule store in its own variables only.  The string literals under construction
are on a stack: `dq_string` pushes one and pops it, the parts of a literal change the one on the top,
and for every other rule the stack is afterwards what it was.
-/

namespace Pone
namespace Syntax

open Greg

namespace Tree

/-- A node that `_pone_compile` prints as a string. -/
def IsText (tree : Tree) : Prop := tree.type = .string ∨ tree.type = .stringConcat

theorem IsText.appendString {tree tree' : Tree} {txt : List UInt8} (isText : tree.IsText)
    (appended : tree.appendString txt = some tree') : tree'.IsText := by
  unfold Tree.appendString at appended
  split at appended
  · split at appended <;> cases appended <;> exact .inr rfl
  · cases appended
    exact isText
  · cases appended

theorem isText_appendNode {tree stuff tree' : Tree} (appended : tree.appendNode stuff = some tree') :
    tree'.IsText := by
  unfold Tree.appendNode at appended
  split at appended <;> cases appended
  exact .inr rfl

end Tree

/-- A property of the literals under construction. -/
def Literals (P : List Tree → Prop) (context : Context) : Prop := P context.literalStrStack

def AllText (trees : List Tree) : Prop := ∀ tree ∈ trees, tree.IsText

/-- The literals under construction are strings. -/
abbrev TextLiterals : Context → Prop := Literals AllText

/-- An action stores in the first `n` variables only and keeps a property of the literals. -/
abbrev Owns (P : List Tree → Prop) (n : Nat) (act : Act) : Prop := Local (Literals P) n act

namespace Owns

variable {P : List Tree → Prop} {n k j : Nat} {operand : Operand} {type : NodeType}

@[simp]
theorem acts {list : List Act} (all : ∀ act ∈ list, Owns P n act) : Owns P n (acts list) := by
  induction list with
  | nil =>
      rintro yytext vm vm' ⟨⟩
      exact .refl vm
  | cons act rest ih =>
      intro yytext vm vm' ran
      obtain ⟨vm₁, ran, ran'⟩ := Option.bind_eq_some_iff.mp ran
      exact (all act List.mem_cons_self _ _ _ ran).trans
        (ih (fun other member => all other (List.mem_cons_of_mem _ member)) _ _ _ ran')

@[simp]
theorem give : Owns P n (give operand) := by
  intro yytext vm vm' ran
  obtain ⟨v, -, rest⟩ := Option.bind_eq_some_iff.mp ran
  cases rest
  exact .setSs vm v

@[simp]
theorem store (own : k < n) : Owns P n (store k operand) := by
  intro yytext vm vm' ran
  obtain ⟨v, -, rest⟩ := Option.bind_eq_some_iff.mp ran
  cases rest
  exact .setVar vm own v

@[simp]
theorem push (own : k < n) : Owns P n (push k operand) := by
  intro yytext vm vm' ran
  obtain ⟨child, -, ran⟩ := Option.bind_eq_some_iff.mp ran
  obtain ⟨node, -, ran⟩ := Option.bind_eq_some_iff.mp ran
  obtain ⟨node', -, rest⟩ := Option.bind_eq_some_iff.mp ran
  cases rest
  exact .setVar vm own _

@[simp]
theorem pushDollar : Owns P n (pushDollar operand) := by
  intro yytext vm vm' ran
  obtain ⟨child, -, ran⟩ := Option.bind_eq_some_iff.mp ran
  obtain ⟨node, -, ran⟩ := Option.bind_eq_some_iff.mp ran
  obtain ⟨node', -, rest⟩ := Option.bind_eq_some_iff.mp ran
  cases rest
  exact .setSs vm _

@[simp]
theorem changeType (own : k < n) : Owns P n (changeType k type) := by
  intro yytext vm vm' ran
  obtain ⟨node, -, ran⟩ := Option.bind_eq_some_iff.mp ran
  obtain ⟨node', -, rest⟩ := Option.bind_eq_some_iff.mp ran
  cases rest
  exact .setVar vm own _

@[simp]
theorem ifType {yes no : Act} (one : Owns P n yes) (other : Owns P n no) :
    Owns P n (ifType k type yes no) := by
  intro yytext vm vm' ran
  obtain ⟨node, -, ran⟩ := Option.bind_eq_some_iff.mp ran
  split at ran
  · exact one _ _ _ ran
  · exact other _ _ _ ran

@[simp]
theorem ifSet {yes no : Act} (one : Owns P n yes) (other : Owns P n no) : Owns P n (ifSet k yes no) := by
  intro yytext vm vm' ran
  unfold Syntax.ifSet at ran
  split at ran
  · exact one _ _ _ ran
  · exact other _ _ _ ran

@[simp]
theorem combine (own : k < n) : Owns P n (combine type k j) :=
  acts (by simp [own])

@[simp]
theorem setRoot : Owns P n (setRoot operand) := by
  intro yytext vm vm' ran
  obtain ⟨v, -, rest⟩ := Option.bind_eq_some_iff.mp ran
  cases rest
  exact .setData vm id

@[simp]
theorem newline : Owns P n newline := by
  rintro yytext vm vm' ⟨⟩
  exact .setData vm id

@[simp]
theorem append (bytes : List UInt8 → List UInt8) : Owns P n (append bytes) := by
  intro yytext vm vm' ran
  obtain ⟨node, -, ran⟩ := Option.bind_eq_some_iff.mp ran
  obtain ⟨node', -, rest⟩ := Option.bind_eq_some_iff.mp ran
  cases rest
  exact .setSs vm _

@[simp]
theorem appendTo (own : k < n) (bytes : List UInt8 → List UInt8) : Owns P n (appendTo k bytes) := by
  intro yytext vm vm' ran
  obtain ⟨node, -, ran⟩ := Option.bind_eq_some_iff.mp ran
  obtain ⟨node', -, rest⟩ := Option.bind_eq_some_iff.mp ran
  cases rest
  exact .setVar vm own _

/-- What an update of the last literal has to keep. -/
theorem updateLast {update : List UInt8 → Vm → Tree → Option Tree}
    (keeps : ∀ yytext vm top top' rest, P (top :: rest) → update yytext vm top = some top' →
      P (top' :: rest)) : Owns P n (updateLast update) := by
  intro yytext vm vm' ran
  unfold Syntax.updateLast at ran
  split at ran
  · cases ran
  · next top rest stack =>
      obtain ⟨top', updated, last⟩ := Option.bind_eq_some_iff.mp ran
      cases last
      refine .setData vm fun literals => ?_
      unfold Literals at literals ⊢
      rw [stack] at literals
      exact keeps _ _ _ _ _ literals updated

@[simp]
theorem giveUnchained : Owns P n (giveUnchained k) := by
  intro yytext vm vm' ran
  unfold Syntax.giveUnchained at ran
  split at ran <;> cases ran <;> exact .setSs vm _

@[simp]
theorem giveBlock (own : k < n) : Owns P n (giveBlock k) := by
  intro yytext vm vm' ran
  unfold Syntax.giveBlock at ran
  split at ran
  · exact give _ _ _ ran
  · split at ran
    · exact acts (by simp [own]) _ _ _ ran
    · cases ran
      exact .setSs vm _
  · cases ran

end Owns

/-- A property that stays when the literal on the top is changed, and stays a string if it was one. -/
def OfRest (P : List Tree → Prop) : Prop :=
  ∀ top top' rest, (top.IsText → top'.IsText) → P (top :: rest) → P (top' :: rest)

theorem ofRest_allText : OfRest AllText := by
  intro top top' rest still texts tree member
  rcases List.mem_cons.mp member with rfl | before
  · exact still (texts top List.mem_cons_self)
  · exact texts tree (List.mem_cons_of_mem _ before)

theorem ofRest_tail (rest : List Tree) : OfRest fun trees => trees.tail = rest :=
  fun _ _ _ _ same => same

namespace Owns

variable {P : List Tree → Prop} {n : Nat}

@[simp]
theorem appendS (ofRest : OfRest P) (bytes : List UInt8 → List UInt8) : Owns P n (appendS bytes) :=
  updateLast fun _ _ top top' rest literals appended =>
    ofRest top top' rest (fun isText => isText.appendString appended) literals

@[simp]
theorem appendN (ofRest : OfRest P) {operand : Operand} : Owns P n (appendN operand) :=
  updateLast fun _ _ top top' rest literals appended => by
    obtain ⟨node, -, appended⟩ := Option.bind_eq_some_iff.mp appended
    exact ofRest top top' rest (fun _ => Tree.isText_appendNode appended) literals

@[simp]
theorem appendCode (ofRest : OfRest P) (base : Nat) : Owns P n (appendCode base) :=
  updateLast fun _ _ top top' rest literals appended => by
    split at appended
    · exact ofRest top top' rest (fun isText => isText.appendString appended) literals
    · cases appended

theorem strInit : Owns AllText n strInit := by
  rintro yytext vm vm' ⟨⟩
  refine .setData vm fun literals tree member => ?_
  rcases List.mem_cons.mp member with rfl | before
  · exact .inl rfl
  · exact literals tree before

theorem strPop : Owns AllText n strPop := by
  intro yytext vm vm' ran
  unfold Syntax.strPop at ran
  split at ran
  · cases ran
  · next top rest stack =>
      cases ran
      refine ⟨rfl, fun _ _ => rfl, fun literals tree member => literals tree ?_⟩
      rw [stack]
      exact List.mem_cons_of_mem _ member

end Owns

/-! ## The rules -/

section Rules

variable {P : List Tree → Prop} {r : RuleName}

/-- A rule stores in its own variables only, and apart from strings it does not touch the literals. -/
theorem rule_quiet (different : r ≠ .dqString) (different' : r ≠ .dqStringInner) :
    (rule r).expression.Confined (Literals P) (rule r).varCount := by
  cases r
  case dqString | dqStringInner => contradiction
  all_goals
    simp +decide [rule, seq, alt, lit, cls, gap, ws1, no, opt, many, marked, gives, infixOp,
      assignOp, chainOp, listOp, prefixOp, modifier, isDoes, sqForm, bracketComment, nop,
      Node.Confined]
  -- actions in actions
  case ifStmt => exact Owns.ifSet (by simp) (by simp)
  case parenArgs | array => exact Owns.ifType (by simp) (by simp)
  case commaOperatorExpr =>
    exact ⟨Owns.ifType (by simp) (by simp), Owns.ifType (by simp) (by simp)⟩
  case funcdef => exact Owns.acts (by simp)
  case lambda => exact ⟨Owns.acts (by simp), Owns.acts (by simp)⟩

/-- The parts of a string change the literal on the top. -/
theorem inner_confined (ofRest : OfRest P) :
    (rule .dqStringInner).expression.Confined (Literals P) (rule .dqStringInner).varCount := by
  simp [rule, seq, alt, lit, cls, gap, no, opt, many, marked, escaped, Node.Confined, ofRest]

theorem rule_confined (r : RuleName) :
    (rule r).expression.Confined TextLiterals (rule r).varCount := by
  by_cases string : r = .dqString
  · subst string
    simp [rule, seq, alt, lit, Node.Confined, Owns.strInit, Owns.strPop, ofRest_allText]
  by_cases inner : r = .dqStringInner
  · subst inner
    exact inner_confined ofRest_allText
  exact rule_quiet string inner

/-- Only `dq_string` calls the rule for its parts. -/
theorem rule_calls (different : r ≠ .dqString) :
    (rule r).expression.Calls (· ≠ .dqStringInner) := by
  cases r
  case dqString => contradiction
  all_goals
    simp [rule, seq, alt, lit, cls, gap, ws1, no, opt, many, marked, gives, infixOp, assignOp,
      chainOp, listOp, prefixOp, modifier, isDoes, escaped, sqForm, bracketComment, Node.Calls]

/-! ## The stack of literals -/

variable {vm vm' : Vm}

/-- After the rule for the parts of a string only the literal on the top may have changed, and after
the other rules no literal. -/
structure Balanced (r : RuleName) (vm vm' : Vm) : Prop where
  tail : vm'.data.literalStrStack.tail = vm.data.literalStrStack.tail
  whole : r ≠ .dqStringInner → vm'.data.literalStrStack = vm.data.literalStrStack

/-- What the thunks of a rule leave alone. -/
abbrev Frame (r : RuleName) (vm vm' : Vm) : Prop := Within TextLiterals 0 vm vm' ∧ Balanced r vm vm'

theorem Balanced.of_eq (same : vm'.data.literalStrStack = vm.data.literalStrStack) :
    Balanced r vm vm' :=
  ⟨congrArg List.tail same, fun _ => same⟩

/-- What the parts of a string do keeps the literals below the top. -/
theorem Frame.within_tail {rest : List Tree} (called : Frame r vm vm') :
    Within (Literals fun trees => trees.tail = rest) 0 vm vm' :=
  called.1.keeping fun before => called.2.tail.trans before

theorem quiet_balanced (different : r ≠ .dqString) (different' : r ≠ .dqStringInner)
    (does : (rule r).expression.Does Frame vm vm') : Balanced r vm vm' := by
  have does' : (rule r).expression.Does
      (fun _ => Within (Literals (· = vm.data.literalStrStack)) 0) vm vm' :=
    (rule_calls different).does
      (fun other called => called.1.keeping fun before => (called.2.whole other).trans before) does
  exact .of_eq (((rule_quiet different different').within id does').data rfl)

theorem inner_balanced (does : (rule .dqStringInner).expression.Does Frame vm vm') :
    Balanced .dqStringInner vm vm' :=
  ⟨((inner_confined (ofRest_tail vm.data.literalStrStack.tail)).within Frame.within_tail does).data
    rfl, fun other => absurd rfl other⟩

/-- A literal is pushed, its parts change it, and it is popped. -/
theorem dqForm_balanced {start stop : String} {element : Expr} {n : Nat}
    (confined : ∀ {P}, OfRest P → (Node.star element).Confined (Literals P) n)
    (does : (seq [lit start, .action strInit, .star element, lit stop, .action strPop]).Does
      Frame vm vm') : vm'.data.literalStrStack = vm.data.literalStrStack := by
  obtain ⟨_, rfl, vm₁, ⟨yytext, begun⟩, vm₂, again, _, rfl, yytext', popped⟩ := does
  cases begun
  have kept := ((confined (ofRest_tail vm.data.literalStrStack)).within Frame.within_tail again).data
    rfl
  unfold strPop at popped
  split at popped
  · cases popped
  · next top rest stack =>
      cases popped
      unfold Literals at kept
      rwa [stack] at kept

theorem dqString_balanced (does : (rule .dqString).expression.Does Frame vm vm') :
    Balanced .dqString vm vm' := by
  rcases does with does | does
  · refine .of_eq (dqForm_balanced (n := 0) (fun ofRest => ?_) does)
    simp [seq, alt, lit, Node.Confined, ofRest]
  · refine .of_eq (dqForm_balanced (n := 0) (fun ofRest => ?_) does)
    simp [seq, alt, lit, Node.Confined, ofRest]

/-- The thunks of every rule leave the variables of its callers alone, and the literals. -/
theorem frames : Summarizes rule Frame := by
  refine summarizes_within rule_confined fun r vm vm' does => ?_
  have balanced : Balanced r (vm.push (rule r).varCount) vm' := by
    by_cases string : r = .dqString
    · subst string
      exact dqString_balanced does
    by_cases inner : r = .dqStringInner
    · subst inner
      exact inner_balanced does
    exact quiet_balanced string inner does
  exact ⟨balanced.tail, balanced.whole⟩

end Rules

/-- Whatever a rule has matched, its thunks leave the stack of variables where it was, the variables
of its callers as they were and the literals under construction in place. -/
theorem thunks_frame {σ : Type} {look : Nat → σ → Option UInt8 × σ} {r : RuleName}
    {c c' : Cursor Act} {s s' : σ} (run : Run look rule (.name r) c s true c' s') :
    ∃ new, c'.thunks = new ++ c.thunks ∧ ∀ buf vm vm', yyDone buf new vm = some vm' →
      vm'.val = vm.val ∧ (∀ i < vm.val, vm'.vals i = vm.vals i) ∧
        vm'.data.literalStrStack.tail = vm.data.literalStrStack.tail ∧
        (r ≠ .dqStringInner → vm'.data.literalStrStack = vm.data.literalStrStack) := by
  obtain ⟨new, pushed, done⟩ := run.pushes frames rfl
  refine ⟨new, pushed, fun buf vm vm' ran => ?_⟩
  obtain ⟨within, balanced⟩ : Frame r vm vm' := done ran
  exact ⟨within.val_eq, fun i low => within.below i low, balanced.tail, balanced.whole⟩

/-- A string is read between two others: the literal around it stays on the stack. -/
theorem thunks_frame_string : ∃ c' s', Run (lookWord (bytes "\"a#b\"")) rule (.name .dqString) .start 0
    true c' s' ∧ ∃ new, c'.thunks = new ++ Cursor.start.thunks ∧ ∀ buf vm vm',
      yyDone buf new vm = some vm' → vm'.val = vm.val ∧ (∀ i < vm.val, vm'.vals i = vm.vals i) ∧
        vm'.data.literalStrStack.tail = vm.data.literalStrStack.tail ∧
        (RuleName.dqString ≠ .dqStringInner →
          vm'.data.literalStrStack = vm.data.literalStrStack) := by
  have matches_string : (exec (lookWord (bytes "\"a#b\"")) rule 60 (.name .dqString) .start 0).map
      Prod.fst = some true := by decide +kernel
  obtain ⟨⟨ok, c', s'⟩, executed, rfl⟩ := Option.map_eq_some_iff.mp matches_string
  have run := Run.of_exec executed
  exact ⟨c', s', run, thunks_frame run⟩

end Syntax
end Pone

