import Mathlib.Logic.Function.Basic
import Pone.ScopeChain
import Pone.Truth

/-!
# The lowering of `||`, `//` and `&&`

The C expressions that are printed for the three operators.  What an operand does is arbitrary: it
may call subs, this expression again among them, throw, and read and write every binding, those of
the temporaries too.  An evaluation records its own steps, and not those of the evaluations that it
contains.
-/

namespace Pone
namespace Compile
namespace ShortCircuit

open ScopeChain Truth

/-- `PVIP_NODE_LOGICAL_OR`, `PVIP_NODE_DOR` and `PVIP_NODE_LOGICAL_AND`. -/
inductive Op where
  | logicalOr
  | dor
  | logicalAnd
  deriving DecidableEq

/-- A key of the map of a lex: a name of the program, or a temporary such as `$<LOGICAL_OR0`. -/
inductive Key (ν : Type) where
  | user (name : ν)
  | temp (op : Op) (id : Nat)
  deriving DecidableEq

structure World (ν σ : Type) where
  /-- `as.lex.parent`, `as.lex.map` and `as.lex.thread_id` of the lex with a number. -/
  parent : Nat → Option Nat
  map : Nat → Key ν → Option Value
  threadId : Nat → Nat
  lexCount : Nat
  lex : Nat
  globals : Key ν → Option Value
  /-- `pthread_self()`. -/
  self : Nat
  rest : σ

inductive Outcome (α : Type) where
  | value (a : α)
  | thrown
  /-- An abort, an exit or no end at all. -/
  | stop
  deriving DecidableEq

section Runtime

variable {ν σ : Type} [DecidableEq ν] {w w' : World ν σ}

/-- The running thread made the lex that it is in. -/
def World.Owned (w : World ν σ) : Prop := w.lex < w.lexCount ∧ w.threadId w.lex = w.self

/-- Lexes are made, and keep the thread that made them. -/
structure Grows (w w' : World ν σ) : Prop where
  lexCount : w.lexCount ≤ w'.lexCount
  threadId : ∀ lex < w.lexCount, w'.threadId lex = w.threadId lex
  self : w'.self = w.self

/-- A C function that is called, its body included. -/
structure Function (ν σ : Type) where
  run : World ν σ → Outcome Value × World ν σ
  grows : ∀ w, Grows w (run w).2

/-- An operand.  A function starts with `pone_push_scope`, and what is evaluated in it comes back to
a lex of the running thread. -/
structure Expression (ν σ : Type) extends Function ν σ where
  owned : ∀ {w v w'}, w.Owned → run w = (.value v, w') → w'.Owned

def World.bind (w : World ν σ) (lex : Nat) (key : Key ν) (v : Value) : World ν σ :=
  { w with map := Function.update w.map lex (Function.update (w.map lex) key (some v)) }

inductive Side where
  | left
  | right
  deriving DecidableEq

/-- What one evaluation of the C expression does. -/
inductive Step (ν : Type) where
  | evaluates (side : Side)
  | writes (lex : Nat) (key : Key ν) (v : Value)
  | reads (lex : Nat) (key : Key ν) (v : Value)
  deriving DecidableEq

/-- A value of C. -/
inductive CValue where
  | pointer (v : Value)
  | bool (b : Bool)
  deriving DecidableEq

/-- The condition that `||` and `&&` of C test; no value of Pone is `NULL`. -/
def CValue.truth : CValue → Bool
  | .pointer _ => true
  | .bool b => b

inductive CExpr (ν σ : Type) where
  | operand (side : Side) (e : Expression ν σ)
  | assign (up : Nat) (key : Key ν) (rhs : CExpr ν σ)
  | getLex (key : Key ν)
  | so (e : CExpr ν σ)
  | defined (e : CExpr ν σ)
  | or (left right : CExpr ν σ)
  | and (left right : CExpr ν σ)
  | comma (left right : CExpr ν σ)

/-- A computation with the steps that it takes. -/
abbrev Eval (ν σ α : Type) := World ν σ → Outcome α × World ν σ × List (Step ν)

def Eval.pure {α : Type} (a : α) : Eval ν σ α := fun w => (.value a, w, [])

def Eval.stop {α : Type} : Eval ν σ α := fun w => (.stop, w, [])

def Eval.andThen {α β : Type} (first : Eval ν σ α) (next : α → Eval ν σ β) : Eval ν σ β := fun w =>
  match first w with
  | (.value a, w, steps) => ((next a w).1, (next a w).2.1, steps ++ (next a w).2.2)
  | (.thrown, w, steps) => (.thrown, w, steps)
  | (.stop, w, steps) => (.stop, w, steps)

/-- `pone_assign`. -/
def assign (up : Nat) (key : Key ν) (v : Value) : Eval ν σ Value := fun w =>
  match ancestor w.parent up w.lex with
  | none => (.stop, w, [])
  | some lex =>
      if w.self = w.threadId lex then (.value v, w.bind lex key v, [.writes lex key v])
      else (.thrown, w, [])

/-- `pone_get_lex`. -/
def getLex (key : Key ν) : Eval ν σ Value := fun w =>
  match nearest w.parent (fun lex => (w.map lex key).isSome) w.lexCount (some w.lex) with
  | some lex => match w.map lex key with
      | some v => (.value v, w, [.reads lex key v])
      | none => (.stop, w, [])
  | none => match w.globals key with
      | some v => (.value v, w, [])
      | none => (.thrown, w, [])

def evaluate (side : Side) (e : Expression ν σ) : Eval ν σ Value := fun w =>
  ((e.run w).1, (e.run w).2, [.evaluates side])

/-- The argument of a function of the runtime. -/
def pointer : CValue → Eval ν σ Value
  | .pointer v => .pure v
  | .bool _ => .stop

/-- A failed assertion aborts. -/
def asserted {α : Type} : Option α → Eval ν σ α
  | some a => .pure a
  | none => .stop

/-- The value of a C expression. -/
def CExpr.eval : CExpr ν σ → Eval ν σ CValue
  | .operand side e => (evaluate side e).andThen fun v => .pure (.pointer v)
  | .assign up key rhs =>
      rhs.eval.andThen fun c => (pointer c).andThen fun v =>
        (ShortCircuit.assign up key v).andThen fun v => .pure (.pointer v)
  | .getLex key => (ShortCircuit.getLex key).andThen fun v => .pure (.pointer v)
  | .so e =>
      e.eval.andThen fun c => (pointer c).andThen fun v =>
        (asserted (Truth.so v)).andThen fun truth => .pure (.bool truth)
  | .defined e =>
      e.eval.andThen fun c => (pointer c).andThen fun v => .pure (.bool (v.type ≠ .nil))
  | .or left right =>
      left.eval.andThen fun c =>
        if c.truth then .pure (.bool true)
        else right.eval.andThen fun c => .pure (.bool c.truth)
  | .and left right =>
      left.eval.andThen fun c =>
        if c.truth then right.eval.andThen fun c => .pure (.bool c.truth)
        else .pure (.bool false)
  | .comma left right => left.eval.andThen fun _ => right.eval

/-- The text that `_pone_compile` prints for an operator. -/
def lower (op : Op) (id : Nat) (a b : Expression ν σ) : CExpr ν σ :=
  let key := Key.temp op id
  let first := CExpr.assign 0 key (.operand .left a)
  let second := CExpr.assign 0 key (.operand .right b)
  match op with
  | .logicalOr => .comma (.or (.so first) second) (.getLex key)
  | .dor => .comma (.or (.defined first) second) (.getLex key)
  | .logicalAnd => .comma (.and (.so first) second) (.getLex key)

/-- The evaluation of the operator as a value of Pone. -/
def evalOp (op : Op) (id : Nat) (a b : Expression ν σ) : Eval ν σ Value :=
  (lower op id a b).eval.andThen pointer

/-! ## What the operators mean -/

/-- The value of the left operand is the value of the operator. -/
def Op.decided : Op → Value → Bool
  | .logicalOr, v => !v.falsy
  | .dor, v => v.type ≠ .nil
  | .logicalAnd, v => v.falsy

/-- A run from `w` of an operator: the left operand is evaluated first, the right one where the left
value does not decide, and the temporary that is read was written just before. -/
inductive ShortCircuits (op : Op) (key : Key ν) (a b : Expression ν σ) (w : World ν σ) :
    Outcome Value × World ν σ × List (Step ν) → Prop
  | leftLeaves {outcome : Outcome Value} {w₁ : World ν σ} (left : a.run w = (outcome, w₁))
      (leaves : ∀ v, outcome ≠ .value v) :
      ShortCircuits op key a b w (outcome, w₁, [.evaluates .left])
  | decided {v : Value} {w₁ : World ν σ} (left : a.run w = (.value v, w₁))
      (decided : op.decided v = true) :
      ShortCircuits op key a b w (.value v, w₁.bind w₁.lex key v,
        [.evaluates .left, .writes w₁.lex key v, .reads w₁.lex key v])
  | rightLeaves {v : Value} {w₁ : World ν σ} {outcome : Outcome Value} {w₂ : World ν σ}
      (left : a.run w = (.value v, w₁)) (undecided : op.decided v = false)
      (right : b.run (w₁.bind w₁.lex key v) = (outcome, w₂)) (leaves : ∀ u, outcome ≠ .value u) :
      ShortCircuits op key a b w (outcome, w₂,
        [.evaluates .left, .writes w₁.lex key v, .evaluates .right])
  | undecided {v u : Value} {w₁ w₂ : World ν σ} (left : a.run w = (.value v, w₁))
      (undecided : op.decided v = false)
      (right : b.run (w₁.bind w₁.lex key v) = (.value u, w₂)) :
      ShortCircuits op key a b w (.value u, w₂.bind w₂.lex key u,
        [.evaluates .left, .writes w₁.lex key v, .evaluates .right, .writes w₂.lex key u,
          .reads w₂.lex key u])

/-! ## The temporary -/

omit [DecidableEq ν] in
theorem Grows.owned_lex (grows : Grows w w') (owned : w.Owned) :
    ({ w' with lex := w.lex } : World ν σ).Owned := by
  refine ⟨Nat.lt_of_lt_of_le owned.1 grows.lexCount, ?_⟩
  simp only [grows.threadId w.lex owned.1, grows.self]
  exact owned.2

theorem World.Owned.bind (owned : w.Owned) (lex : Nat) (key : Key ν) (v : Value) :
    (w.bind lex key v).Owned := owned

theorem assign_owned (owned : w.Owned) (key : Key ν) (v : Value) :
    assign 0 key v w = (.value v, w.bind w.lex key v, [.writes w.lex key v]) := by
  simp only [assign, ancestor, owned.2, if_pos]

theorem getLex_bind (owned : w.Owned) (key : Key ν) (v : Value) :
    getLex key (w.bind w.lex key v) =
      (.value v, w.bind w.lex key v, [.reads w.lex key v]) := by
  obtain ⟨count, some_lex⟩ : ∃ count, w.lexCount = count + 1 :=
    ⟨w.lexCount - 1, by have := owned.1; omega⟩
  have bound : (w.bind w.lex key v).map w.lex key = some v := by simp [World.bind]
  have found : nearest (w.bind w.lex key v).parent
      (fun lex => ((w.bind w.lex key v).map lex key).isSome) (w.bind w.lex key v).lexCount
      (some (w.bind w.lex key v).lex) = some w.lex := by
    change nearest _ _ w.lexCount (some w.lex) = some w.lex
    rw [some_lex, nearest, bound]
    rfl
  simp only [getLex, found, bound]

/-! ## Evaluation -/

omit [DecidableEq ν] in
@[simp] theorem pure_andThen {α β : Type} (a : α) (next : α → Eval ν σ β) :
    (Eval.pure a).andThen next = next a := rfl

omit [DecidableEq ν] in
@[simp] theorem andThen_pure {α : Type} (first : Eval ν σ α) : first.andThen .pure = first := by
  funext w
  simp only [Eval.andThen, Eval.pure]
  rcases first w with ⟨_ | _ | _, _, _⟩ <;> simp

omit [DecidableEq ν] in
theorem andThen_assoc {α β γ : Type} (first : Eval ν σ α) (second : α → Eval ν σ β)
    (third : β → Eval ν σ γ) :
    (first.andThen second).andThen third = first.andThen fun a => (second a).andThen third := by
  funext w
  simp only [Eval.andThen]
  rcases first w with ⟨a | _ | _, w₁, steps⟩
  · dsimp only
    rcases second a w₁ with ⟨_ | _ | _, _, _⟩ <;> simp
  · rfl
  · rfl

/-- Whether the code goes on with the value of the left operand. -/
def Op.test : Op → Value → Option Bool
  | .logicalOr, v => so v
  | .dor, v => some (v.type ≠ .nil)
  | .logicalAnd, v => (so v).map fun truth => !truth

theorem test_eq (op : Op) (v : Value) :
    op.test v = if op ≠ .dor ∧ v.type = .num then none else some (op.decided v) := by
  cases op with
  | dor => rfl
  | logicalOr => simp [Op.test, Op.decided, so_eq]
  | logicalAnd =>
      simp only [Op.test, Op.decided, so_eq, ne_eq, reduceCtorEq, not_false_eq_true, true_and]
      split <;> simp

variable {op : Op} {id : Nat} {a b : Expression ν σ} {v u : Value} {w₁ w₂ : World ν σ}

/-- The three C expressions differ in the test only. -/
theorem evalOp_eq :
    evalOp op id a b = ((evaluate .left a).andThen (assign 0 (.temp op id))).andThen fun v =>
      (asserted (op.test v)).andThen fun decided =>
        if decided then getLex (.temp op id)
        else ((evaluate .right b).andThen (assign 0 (.temp op id))).andThen fun _ =>
          getLex (.temp op id) := by
  refine Eq.trans ?_ (andThen_assoc _ _ _).symm
  cases op with
  | logicalOr | logicalAnd =>
      simp only [evalOp, lower, CExpr.eval, andThen_assoc, pure_andThen, pointer, Op.test]
      refine congrArg _ (funext fun u => congrArg _ (funext fun v => ?_))
      cases so v with
      | none => rfl
      | some truth => cases truth <;> simp [asserted, CValue.truth, andThen_assoc]
  | dor =>
      simp only [evalOp, lower, CExpr.eval, andThen_assoc, pure_andThen, pointer, Op.test]
      refine congrArg _ (funext fun u => congrArg _ (funext fun v => ?_))
      by_cases defined : v.type = .nil <;>
        simp [asserted, CValue.truth, andThen_assoc, defined]

/-- An operand whose value is stored in its temporary. -/
theorem stored_eq (side : Side) (e : Expression ν σ) (key : Key ν) (owned : w.Owned) :
    ((evaluate side e).andThen (assign 0 key)) w = match e.run w with
      | (.value v, w) =>
          (.value v, w.bind w.lex key v, [.evaluates side, .writes w.lex key v])
      | (.thrown, w) => (.thrown, w, [.evaluates side])
      | (.stop, w) => (.stop, w, [.evaluates side]) := by
  simp only [Eval.andThen, evaluate]
  rcases run : e.run w with ⟨v | _ | _, w₁⟩
  · simp [assign_owned (e.owned owned run)]
  · rfl
  · rfl

/-- An exception or an abort in the left operand is one of the operator. -/
theorem evalOp_leaves {outcome : Outcome Value} (owned : w.Owned) (left : a.run w = (outcome, w₁))
    (leaves : ∀ v, outcome ≠ .value v) :
    evalOp op id a b w = (outcome, w₁, [.evaluates .left]) := by
  rw [evalOp_eq, Eval.andThen, stored_eq .left a _ owned, left]
  cases outcome with
  | value v => exact absurd rfl (leaves v)
  | thrown | stop => rfl

/-- The operator where the left operand has a value. -/
theorem evalOp_value (owned : w.Owned) (left : a.run w = (.value v, w₁)) :
    evalOp op id a b w =
      match op.test v with
      | none => (.stop, w₁.bind w₁.lex (.temp op id) v,
          [.evaluates .left, .writes w₁.lex (.temp op id) v])
      | some true => (.value v, w₁.bind w₁.lex (.temp op id) v,
          [.evaluates .left, .writes w₁.lex (.temp op id) v, .reads w₁.lex (.temp op id) v])
      | some false =>
          match b.run (w₁.bind w₁.lex (.temp op id) v) with
          | (.value u, w₂) => (.value u, w₂.bind w₂.lex (.temp op id) u,
              [.evaluates .left, .writes w₁.lex (.temp op id) v, .evaluates .right,
                .writes w₂.lex (.temp op id) u, .reads w₂.lex (.temp op id) u])
          | (.thrown, w₂) =>
              (.thrown, w₂, [.evaluates .left, .writes w₁.lex (.temp op id) v, .evaluates .right])
          | (.stop, w₂) =>
              (.stop, w₂, [.evaluates .left, .writes w₁.lex (.temp op id) v, .evaluates .right]) := by
  have owned₁ : w₁.Owned := a.owned owned left
  rw [evalOp_eq, Eval.andThen, stored_eq .left a _ owned, left]
  dsimp only
  cases op.test v with
  | none => rfl
  | some decided =>
      cases decided with
      | true => simp [asserted, getLex_bind owned₁]
      | false =>
          have stored := stored_eq .right b (.temp op id) (owned₁.bind w₁.lex (.temp op id) v)
          simp only [asserted, pure_andThen, Bool.false_eq_true, if_false]
          simp only [Eval.andThen] at stored ⊢
          rw [stored]
          rcases right : b.run (w₁.bind w₁.lex (.temp op id) v) with ⟨u | _ | _, w₂⟩
          · have owned₂ : w₂.Owned := b.owned (owned₁.bind _ _ _) right
            simp [getLex_bind owned₂]
          · rfl
          · rfl

/-- After a value of the left operand, an operator either reads its temporary or evaluates the right
operand. -/
theorem ShortCircuits.goes_on {key : Key ν} {result : Outcome Value × World ν σ × List (Step ν)}
    (runs : ShortCircuits op key a b w result) (left : a.run w = (.value v, w₁)) :
    2 < result.2.2.length := by
  cases runs with
  | leftLeaves same leaves =>
      rw [left] at same
      cases same
      exact absurd rfl (leaves v)
  | decided | rightLeaves | undecided => simp

/-- Every evaluation of every operator short-circuits, unless `pone_so` is asked for the truth of a
`Num`. -/
theorem shortCircuits_iff (op : Op) (id : Nat) (a b : Expression ν σ) (w : World ν σ)
    (owned : w.Owned) :
    ShortCircuits op (.temp op id) a b w (evalOp op id a b w) ↔
      op = .dor ∨ ∀ v w₁, a.run w = (.value v, w₁) → v.type ≠ .num := by
  rcases left : a.run w with ⟨v | _ | _, w₁⟩
  · rw [evalOp_value owned left, test_eq]
    by_cases aborts : op ≠ .dor ∧ v.type = .num
    · rw [if_pos aborts]
      refine ⟨fun runs => ?_, fun total => ?_⟩
      · exact absurd (runs.goes_on left) (by simp)
      · rcases total with rfl | total
        · exact absurd rfl aborts.1
        · exact absurd aborts.2 (total v w₁ rfl)
    · rw [if_neg aborts]
      refine ⟨fun _ => ?_, fun _ => ?_⟩
      · refine or_iff_not_imp_left.mpr fun tests u w₂ same => ?_
        obtain ⟨rfl, rfl⟩ : u = v ∧ w₂ = w₁ := by simpa using same.symm
        exact fun num => aborts ⟨tests, num⟩
      · cases decided : op.decided v with
        | true => exact .decided left decided
        | false =>
            rcases right : b.run (w₁.bind w₁.lex (.temp op id) v) with ⟨u | _ | _, w₂⟩
            · exact .undecided left decided right
            · exact .rightLeaves left decided right (by simp)
            · exact .rightLeaves left decided right (by simp)
  · rw [evalOp_leaves owned left (by simp)]
    exact ⟨fun _ => .inr nofun, fun _ => .leftLeaves left (by simp)⟩
  · rw [evalOp_leaves owned left (by simp)]
    exact ⟨fun _ => .inr nofun, fun _ => .leftLeaves left (by simp)⟩

/-! ## Operands -/

omit [DecidableEq ν] in
theorem Grows.refl (w : World ν σ) : Grows w w := ⟨Nat.le_refl _, fun _ _ => rfl, rfl⟩

omit [DecidableEq ν] in
theorem Grows.trans (first : Grows w w₁) (second : Grows w₁ w₂) : Grows w w₂ where
  lexCount := Nat.le_trans first.lexCount second.lexCount
  threadId lex old := by
    rw [second.threadId lex (Nat.lt_of_lt_of_le old first.lexCount), first.threadId lex old]
  self := second.self.trans first.self

/-- A computation makes lexes only. -/
def Eval.Grows {α : Type} (x : Eval ν σ α) : Prop :=
  ∀ w, ShortCircuit.Grows w (x w).2.1

omit [DecidableEq ν] in
theorem Eval.Grows.andThen {α β : Type} {first : Eval ν σ α} {next : α → Eval ν σ β}
    (grows : first.Grows) (later : ∀ a, (next a).Grows) : (first.andThen next).Grows := by
  intro w
  have made := grows w
  simp only [Eval.andThen]
  rcases result : first w with ⟨a | _ | _, w₁, steps⟩ <;> rw [result] at made
  · exact made.trans (later a w₁)
  · exact made
  · exact made

theorem assign_grows (up : Nat) (key : Key ν) (v : Value) :
    (assign up key v : Eval ν σ Value).Grows := by
  intro w
  simp only [assign]
  split
  · exact .refl w
  · split
    · exact ⟨Nat.le_refl _, fun _ _ => rfl, rfl⟩
    · exact .refl w

omit [DecidableEq ν] in
theorem getLex_grows (key : Key ν) : (getLex key : Eval ν σ Value).Grows := by
  intro w
  simp only [getLex]
  split <;> split <;> exact .refl w

omit [DecidableEq ν] in
theorem asserted_grows {α : Type} (result : Option α) : (asserted result : Eval ν σ α).Grows := by
  cases result with
  | none => exact .refl
  | some a => exact .refl

theorem evalOp_grows : (evalOp op id a b).Grows := by
  have stored (side : Side) (e : Expression ν σ) :
      ((evaluate side e).andThen (assign 0 (.temp op id))).Grows :=
    .andThen e.grows fun v => assign_grows 0 _ v
  rw [evalOp_eq]
  refine (stored .left a).andThen fun v => (asserted_grows _).andThen fun decided => ?_
  cases decided with
  | true => exact getLex_grows _
  | false => exact (stored .right b).andThen fun _ => getLex_grows _

/-- An operator with a value comes back to a lex of the running thread. -/
theorem evalOp_owned (owned : w.Owned) (runs : (evalOp op id a b w).1 = .value u) :
    (evalOp op id a b w).2.1.Owned := by
  rcases left : a.run w with ⟨v | _ | _, w₁⟩
  · have owned₁ : w₁.Owned := a.owned owned left
    revert runs
    rw [evalOp_value owned left]
    match op.test v with
    | none => exact nofun
    | some true => exact fun _ => owned₁.bind _ _ _
    | some false =>
        dsimp only
        rcases right : b.run (w₁.bind w₁.lex (.temp op id) v) with ⟨u' | _ | _, w₂⟩
        · exact fun _ => (b.owned (owned₁.bind _ _ _) right).bind _ _ _
        · exact nofun
        · exact nofun
  · rw [evalOp_leaves owned left (by simp)] at runs
    cases runs
  · rw [evalOp_leaves owned left (by simp)] at runs
    cases runs

/-- An operator as an operand. -/
def Expression.operator (op : Op) (id : Nat) (a b : Expression ν σ) : Expression ν σ where
  run w := ((evalOp op id a b w).1, (evalOp op id a b w).2.1)
  grows := evalOp_grows
  owned owned runs := by
    obtain ⟨result, rfl⟩ := Prod.mk.inj runs
    exact evalOp_owned owned result

def Expression.literal (v : Value) : Expression ν σ where
  run w := (.value v, w)
  grows := .refl
  owned {w u w'} owned runs := by
    cases runs
    exact owned

/-- `pone_push_scope`. -/
def World.pushScope (w : World ν σ) : World ν σ :=
  { w with
    parent := Function.update w.parent w.lexCount (some w.lex)
    map := Function.update w.map w.lexCount fun _ => none
    threadId := Function.update w.threadId w.lexCount w.self
    lexCount := w.lexCount + 1
    lex := w.lexCount }

omit [DecidableEq ν] in
theorem grows_pushScope (w : World ν σ) (lex : Nat) :
    Grows w ({ w with lex := lex } : World ν σ).pushScope where
  lexCount := Nat.le_succ _
  threadId other old := by simp [World.pushScope, Nat.ne_of_lt old]
  self := rfl

/-- `pone_code_vcall` of `sub () { … }`, whose code was made in the lex `codeLex`. -/
def Expression.call (codeLex : Nat) (body : Expression ν σ) : Expression ν σ where
  run w := match body.run ({ w with lex := codeLex } : World ν σ).pushScope with
    | (.value v, w') => (.value v, { w' with lex := w.lex })
    | left => left
  grows w := by
    have made := (grows_pushScope w codeLex).trans (body.grows _)
    split
    case h_1 v w' runs =>
      rw [runs] at made
      exact ⟨made.lexCount, made.threadId, made.self⟩
    case h_2 => exact made
  owned {w v w'} owned runs := by
    have made := (grows_pushScope w codeLex).trans (body.grows _)
    split at runs
    case h_1 u inner same =>
      rw [same] at made
      cases runs
      exact made.owned_lex owned
    case h_2 other => exact absurd runs (other v w')

end Runtime

/-- A world with one lex. -/
def oneLex : World Char Unit :=
  { parent := fun _ => none, map := fun _ _ => none, threadId := fun _ => 0, lexCount := 1, lex := 0,
    globals := fun _ => none, self := 0, rest := () }

/-- `sub f() { False || 1 }; f() || 2`, where both operators have the same temporary. -/
def reentrant : Expression Char Unit :=
  .call 0 (.operator .logicalOr 0 (.literal (.bool false)) (.literal (.int 1)))

theorem shortCircuits_iff_reentrant :
    ShortCircuits .logicalOr (.temp .logicalOr 0) reentrant (.literal (.int 2)) oneLex
        (evalOp .logicalOr 0 reentrant (.literal (.int 2)) oneLex) ↔
      Op.logicalOr = .dor ∨
        ∀ v w₁, reentrant.run oneLex = (.value v, w₁) → v.type ≠ .num :=
  shortCircuits_iff .logicalOr 0 reentrant (.literal (.int 2)) oneLex ⟨Nat.zero_lt_one, rfl⟩

/-- `1.5 || 2` aborts before the temporary is read. -/
theorem num_not_shortCircuits :
    (evalOp .logicalOr 0 (.literal (.num 0x3FF8000000000000)) (.literal (.int 2)) oneLex).1 = .stop ∧
      ¬ ShortCircuits .logicalOr (.temp .logicalOr 0) (.literal (.num 0x3FF8000000000000))
        (.literal (.int 2)) oneLex
        (evalOp .logicalOr 0 (.literal (.num 0x3FF8000000000000)) (.literal (.int 2)) oneLex) :=
  ⟨rfl, fun runs => absurd (runs.goes_on rfl) (by decide)⟩

end ShortCircuit
end Compile
end Pone
