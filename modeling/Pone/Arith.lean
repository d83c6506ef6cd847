import Pone.CLong

/-!
# The arithmetic of `op.c`

The operators on values, their in-place forms, the lowering of the unary minus, and `math.abs`.
Every one of them ends in a bare operator of C on `long`.
-/

namespace Pone
namespace Arith

/-- A value, as far as arithmetic looks at it: an Int, a Num, or an object of another class. -/
inductive Val (ν ρ : Type) where
  | int (i : Int)
  | num (n : ν)
  | other (object : ρ)

/-- What a C function comes to. -/
inductive Outcome (α : Type) where
  | value (a : α)
  | throws (message : String)
  /-- An assertion fails. -/
  | aborts
  /-- C leaves it undefined: the process is killed, or it goes on with any number. -/
  | undefined

variable {ν ρ α β : Type}

namespace Outcome

def bind (o : Outcome α) (next : α → Outcome β) : Outcome β :=
  match o with
  | .value a => next a
  | .throws message => .throws message
  | .aborts => .aborts
  | .undefined => .undefined

instance : Monad Outcome where
  pure := .value
  bind := bind

@[simp]
theorem value_bind (a : α) (next : α → Outcome β) : (Outcome.value a >>= next) = next a := rfl

@[simp]
theorem throws_bind (message : String) (next : α → Outcome β) :
    (Outcome.throws message >>= next) = .throws message := rfl

@[simp]
theorem undefined_bind (next : α → Outcome β) : (Outcome.undefined >>= next) = .undefined := rfl

theorem bind_eq_value_iff {o : Outcome α} {next : α → Outcome β} {b : β} :
    (o >>= next) = .value b ↔ ∃ a, o = .value a ∧ next a = .value b := by
  cases o with
  | value a => simp
  | throws message => simp
  | aborts => exact iff_of_false nofun fun ⟨a, same, _⟩ => nomatch same
  | undefined => simp

/-- The result of an operator of C. -/
def ofC : Option α → Outcome α
  | some a => .value a
  | none => .undefined

end Outcome

/-- The arithmetic of doubles, and the methods `Int` and `Num` of objects of other classes. -/
structure Machine (ν ρ : Type) where
  add : ν → ν → ν
  sub : ν → ν → ν
  mul : ν → ν → ν
  div : ν → ν → ν
  neg : ν → ν
  isNegative : ν → Bool
  ofInt : Int → ν
  /-- `(pone_int_t)n` -/
  toInt : ν → Option Int
  intMethod : ρ → Outcome (Val ν ρ)
  numMethod : ρ → Outcome (Val ν ρ)

/-- The table of variables of a lex, and the thread that made it. -/
structure Lex (κ ν ρ : Type) where
  map : κ → Option (Val ν ρ)
  threadId : Nat

/-- The lexes from `world->lex` outwards, the globals, and `pthread_self()`. -/
structure World (κ ν ρ : Type) where
  lexes : List (Lex κ ν ρ)
  globals : κ → Option (Val ν ρ)
  self : Nat

section Operators

variable (m : Machine ν ρ)

/-- `pone_intify` -/
def intify : Val ν ρ → Outcome Int
  | .int i => .value i
  | .num n => .ofC (m.toInt n)
  | .other object => do
      match ← m.intMethod object with
      | .int i => .value i
      | _ => .aborts

/-- `pone_numify` -/
def numify : Val ν ρ → Outcome ν
  | .int i => .value (m.ofInt i)
  | .num n => .value n
  | .other object => do
      match ← m.numMethod object with
      | .num n => .value n
      | _ => .aborts

def Val.isNum : Val ν ρ → Bool
  | .num _ => true
  | _ => false

/-- The operator on Ints. -/
def onInts (op : Int → Int → Option Int) (v1 v2 : Val ν ρ) : Outcome (Val ν ρ) := do
  let i1 ← intify m v1
  let i2 ← intify m v2
  return .int (← .ofC (op i1 i2))

/-- The operator on Nums if one of the operands is a Num, else on Ints. -/
def onNumbers (numOp : ν → ν → ν) (op : Int → Int → Option Int) (v1 v2 : Val ν ρ) :
    Outcome (Val ν ρ) :=
  if v1.isNum ∨ v2.isNum then do
    let n1 ← numify m v1
    let n2 ← numify m v2
    return .num (numOp n1 n2)
  else onInts m op v1 v2

def poneAdd : Val ν ρ → Val ν ρ → Outcome (Val ν ρ) := onNumbers m m.add CLong.add

def poneSubtract : Val ν ρ → Val ν ρ → Outcome (Val ν ρ) := onNumbers m m.sub CLong.sub

def poneMultiply : Val ν ρ → Val ν ρ → Outcome (Val ν ρ) := onNumbers m m.mul CLong.mul

def poneDivide : Val ν ρ → Val ν ρ → Outcome (Val ν ρ) := onNumbers m m.div CLong.div

def poneMod : Val ν ρ → Val ν ρ → Outcome (Val ν ρ) := onInts m CLong.mod

def poneBlshift : Val ν ρ → Val ν ρ → Outcome (Val ν ρ) := onInts m CLong.shiftLeft

def poneBrshift : Val ν ρ → Val ν ρ → Outcome (Val ν ρ) := onInts m CLong.shiftRight

/-- The code of `PVIP_NODE_UNARY_MINUS` -/
def unaryMinus (v : Val ν ρ) : Outcome (Val ν ρ) := poneSubtract m (.int 0) v

/-- `meth_abs` -/
def methAbs (val : Val ν ρ) : Outcome (Val ν ρ) :=
  match val with
  | .int i => if i < 0 then do return .int (← .ofC (CLong.neg i)) else .value val
  | .num n => if m.isNegative n then .value (.num (m.neg n)) else .value val
  | .other _ => .throws "you can't call abs() for non-numeric value"

end Operators

section InPlace

variable {κ : Type} [DecidableEq κ] [ToString κ]

/-- `pone_get_lex` -/
def getLex (w : World κ ν ρ) (key : κ) : Outcome (Val ν ρ) :=
  match (w.lexes.findSome? (·.map key)).or (w.globals key) with
  | some v => .value v
  | none => .throws ("Unknown lexical variable: " ++ toString key)

/-- `pone_assign` -/
def assign (w : World κ ν ρ) (up : Nat) (key : κ) (val : Val ν ρ) :
    Outcome (World κ ν ρ × Val ν ρ) :=
  match w.lexes[up]? with
  | none => .undefined
  | some lex =>
      if lex.threadId = w.self then
        let map := Function.update lex.map key (some val)
        .value ({ w with lexes := w.lexes.set up { lex with map } }, val)
      else
        .throws "You can't set variable to non-owned lexical variables from other thread"

/-- The in-place form of an operator -/
def inplace (op : Val ν ρ → Val ν ρ → Outcome (Val ν ρ)) (w : World κ ν ρ) (level : Nat)
    (varname : κ) (val : Val ν ρ) : Outcome (World κ ν ρ × Val ν ρ) := do
  let lhs ← getLex w varname
  let result ← op lhs val
  assign w level varname result

end InPlace

/-! ## Where the arithmetic is exact -/

/-- The operators on two Ints. -/
inductive Op where
  | add
  | subtract
  | multiply
  | divide
  | mod
  | blshift
  | brshift
  deriving DecidableEq

namespace Op

/-- The C function of an operator -/
def run (m : Machine ν ρ) : Op → Val ν ρ → Val ν ρ → Outcome (Val ν ρ)
  | .add => poneAdd m
  | .subtract => poneSubtract m
  | .multiply => poneMultiply m
  | .divide => poneDivide m
  | .mod => poneMod m
  | .blshift => poneBlshift m
  | .brshift => poneBrshift m

/-- The operator of C in it -/
def onLong : Op → Int → Int → Option Int
  | .add => CLong.add
  | .subtract => CLong.sub
  | .multiply => CLong.mul
  | .divide => CLong.div
  | .mod => CLong.mod
  | .blshift => CLong.shiftLeft
  | .brshift => CLong.shiftRight

/-- The mathematical result, where there is one.  Quotient and remainder are truncated. -/
def exact : Op → Int → Int → Option Int
  | .add, i, j => some (i + j)
  | .subtract, i, j => some (i - j)
  | .multiply, i, j => some (i * j)
  | .divide, i, j => if j = 0 then none else some (i.tdiv j)
  | .mod, i, j => if j = 0 then none else some (i.tmod j)
  | .blshift, i, j => if j < 0 then none else some (i * 2 ^ j.toNat)
  | .brshift, i, j => if j < 0 then none else some (i / 2 ^ j.toNat)

/-- The operands for which the operator of C is defined. -/
def Safe : Op → Int → Int → Prop
  | .add, i, j => CLong.Fits (i + j)
  | .subtract, i, j => CLong.Fits (i - j)
  | .multiply, i, j => CLong.Fits (i * j)
  | .divide, i, j | .mod, i, j => j ≠ 0 ∧ ¬ (i = CLong.minimum ∧ j = -1)
  | .blshift, i, j => (0 ≤ j ∧ j < 64) ∧ CLong.Fits (i * 2 ^ j.toNat)
  | .brshift, _, j => 0 ≤ j ∧ j < 64

theorem run_int (m : Machine ν ρ) (op : Op) (i j : Int) :
    op.run m (.int i) (.int j) = (Outcome.ofC (op.onLong i j) >>= fun k => pure (.int k)) := by
  cases op <;> rfl

/-- The operator of C gives the mathematical result where it is defined, and nothing elsewhere. -/
theorem onLong_of_safe {op : Op} {i j : Int} (fits : CLong.Fits i) (safe : op.Safe i j) :
    op.onLong i j = op.exact i j ∧ (op.exact i j).isSome := by
  cases op with
  | add | subtract | multiply => exact ⟨CLong.checked_of_fits safe, rfl⟩
  | divide =>
      rw [onLong, exact, if_neg safe.1]
      exact ⟨(CLong.div_eq_some_iff fits).mpr ⟨safe.1, safe.2, rfl⟩, rfl⟩
  | mod =>
      rw [onLong, exact, if_neg safe.1]
      exact ⟨(CLong.mod_eq_some_iff fits).mpr ⟨safe.1, safe.2, rfl⟩, rfl⟩
  | blshift =>
      rw [onLong, exact, if_neg (Int.not_lt_of_ge safe.1.1)]
      exact ⟨CLong.shiftLeft_eq_some_iff.mpr ⟨safe.1, safe.2, rfl⟩, rfl⟩
  | brshift =>
      rw [onLong, exact, if_neg (Int.not_lt_of_ge safe.1)]
      exact ⟨CLong.shiftRight_eq_some_iff.mpr ⟨safe, rfl⟩, rfl⟩

theorem safe_of_onLong {op : Op} {i j k : Int} (fits : CLong.Fits i)
    (done : op.onLong i j = some k) : op.Safe i j := by
  cases op with
  | add | subtract | multiply => exact (CLong.checked_eq_some_iff.mp done).1
  | divide =>
      obtain ⟨nonzero, other, -⟩ := (CLong.div_eq_some_iff fits).mp done
      exact ⟨nonzero, other⟩
  | mod =>
      obtain ⟨nonzero, other, -⟩ := (CLong.mod_eq_some_iff fits).mp done
      exact ⟨nonzero, other⟩
  | blshift =>
      obtain ⟨inside, fits, -⟩ := CLong.shiftLeft_eq_some_iff.mp done
      exact ⟨inside, fits⟩
  | brshift => exact (CLong.shiftRight_eq_some_iff.mp done).1

end Op

/-- The ways to the operators of C. -/
inductive Form (κ : Type) where
  | direct (op : Op)
  /-- The in-place form on a variable, `level` lexes further out -/
  | inplace (op : Op) (level : Nat) (varname : κ)
  | unaryMinus
  | abs

namespace Form

variable {κ : Type} [DecidableEq κ] [ToString κ]

/-- The form on the Ints `i` and `j`; the last two have only the operand `i`. -/
def run (m : Machine ν ρ) (w : World κ ν ρ) (i j : Int) : Form κ → Outcome (Val ν ρ)
  | .direct op => op.run m (.int i) (.int j)
  | .inplace op level varname => do
      return (← Arith.inplace (op.run m) w level varname (.int j)).2
  | .unaryMinus => Arith.unaryMinus m (.int i)
  | .abs => methAbs m (.int i)

/-- The left operand of an in-place form is the value of the variable, and the lex that the variable
is written to is there. -/
def HasOperand (w : World κ ν ρ) (i : Int) : Form κ → Prop
  | .inplace _ level varname =>
      getLex w varname = .value (.int i) ∧ level < w.lexes.length
  | _ => True

def exact (i j : Int) : Form κ → Option Int
  | .direct op | .inplace op _ _ => op.exact i j
  | .unaryMinus => some (-i)
  | .abs => some |i|

def Safe (i j : Int) : Form κ → Prop
  | .direct op | .inplace op _ _ => op.Safe i j
  | .unaryMinus | .abs => i ≠ CLong.minimum

end Form

/-- The mathematical result is returned, or an exception is raised. -/
def ExactOrThrows (exact : Option Int) : Outcome (Val ν ρ) → Prop
  | .value (.int k) => exact = some k
  | .throws _ => True
  | _ => False

theorem exactOrThrows_ofC {exact onLong : Option Int} {Safe : Prop}
    (safe : Safe → onLong = exact ∧ exact.isSome) (defined : ∀ k, onLong = some k → Safe) :
    ExactOrThrows exact (Outcome.ofC onLong >>= fun k => pure (Val.int k : Val ν ρ)) ↔ Safe := by
  cases found : onLong with
  | some k => exact iff_of_true ((safe (defined k found)).1.symm.trans found) (defined k found)
  | none =>
      refine iff_of_false (fun meets => meets) fun holds => ?_
      obtain ⟨same, some_exact⟩ := safe holds
      rw [← same, found] at some_exact
      cases some_exact

theorem Op.exactOrThrows_iff (m : Machine ν ρ) (op : Op) {i j : Int} (fits : CLong.Fits i) :
    ExactOrThrows (op.exact i j) (op.run m (.int i) (.int j)) ↔ op.Safe i j := by
  rw [op.run_int]
  exact exactOrThrows_ofC (onLong_of_safe fits) fun _ => safe_of_onLong fits

section Forms

variable {κ : Type} [DecidableEq κ] [ToString κ]

omit [ToString κ] in
/-- The assignment of an in-place form returns its operand or throws. -/
theorem exactOrThrows_assign {w : World κ ν ρ} {level : Nat} (inside : level < w.lexes.length)
    (varname : κ) {exact : Option Int} {k : Int} (same : exact = some k) :
    ExactOrThrows exact (do return (← assign w level varname (.int k)).2 : Outcome (Val ν ρ)) := by
  rw [assign, List.getElem?_eq_getElem inside]
  simp only
  split
  · exact same
  · trivial

/-- Every form of the arithmetic returns the mathematical result, or raises an exception, exactly
where the operator of C that it comes to is defined. -/
theorem arithmetic_exact_iff (m : Machine ν ρ) (w : World κ ν ρ) (form : Form κ) {i j : Int}
    (fits : CLong.Fits i) (operand : form.HasOperand w i) :
    ExactOrThrows (form.exact i j) (form.run m w i j) ↔ form.Safe i j := by
  cases form with
  | direct op => exact op.exactOrThrows_iff m fits
  | inplace op level varname =>
      obtain ⟨variable_eq, inside⟩ := operand
      have run_eq : (Form.inplace op level varname).run m w i j =
          (Outcome.ofC (op.onLong i j) >>= fun k => do
            return (← assign w level varname (.int k)).2) := by
        simp only [Form.run, Arith.inplace, variable_eq, op.run_int, Outcome.value_bind]
        cases op.onLong i j <;> rfl
      rw [run_eq]
      cases done : op.onLong i j with
      | some k =>
          have safe := Op.safe_of_onLong fits done
          have same := (Op.onLong_of_safe fits safe).1.symm.trans done
          exact iff_of_true (exactOrThrows_assign inside varname same) safe
      | none =>
          refine iff_of_false (fun meets => meets) fun safe => ?_
          have safe' : op.Safe i j := safe
          obtain ⟨same, some_exact⟩ := Op.onLong_of_safe fits safe'
          rw [← same, done] at some_exact
          cases some_exact
  | unaryMinus =>
      have run_eq : (Form.unaryMinus : Form κ).run m w i j =
          (Outcome.ofC (CLong.sub 0 i) >>= fun k => pure (.int k)) := rfl
      rw [run_eq]
      have safe_iff : CLong.Fits (0 - i) ↔ i ≠ CLong.minimum := by
        rw [Int.zero_sub]
        exact CLong.fits_neg_iff fits
      apply exactOrThrows_ofC
      · intro safe
        rw [CLong.sub, CLong.checked_of_fits (safe_iff.mpr safe), Int.zero_sub]
        exact ⟨rfl, rfl⟩
      · intro k done
        exact safe_iff.mp (CLong.checked_eq_some_iff.mp done).1
  | abs =>
      have run_eq : (Form.abs : Form κ).run m w i j =
          if i < 0 then Outcome.ofC (CLong.neg i) >>= fun k => pure (.int k)
          else .value (.int i) := rfl
      rw [run_eq]
      by_cases negative : i < 0
      · rw [if_pos negative, Form.exact, abs_of_neg negative]
        apply exactOrThrows_ofC
        · intro safe
          rw [CLong.neg, CLong.checked_of_fits ((CLong.fits_neg_iff fits).mpr safe)]
          exact ⟨rfl, rfl⟩
        · intro k done
          exact (CLong.fits_neg_iff fits).mp (CLong.checked_eq_some_iff.mp done).1
      · rw [if_neg negative, Form.exact, abs_of_nonneg (Int.not_lt.mp negative)]
        refine iff_of_true rfl fun lowest => negative ?_
        rw [lowest]
        decide

end Forms

/-- No double is ever looked at. -/
def Machine.trivial : Machine Unit Empty where
  add _ _ := ()
  sub _ _ := ()
  mul _ _ := ()
  div _ _ := ()
  neg _ := ()
  isNegative _ := false
  ofInt _ := ()
  toInt _ := none
  intMethod := nofun
  numMethod := nofun

/-- The quotient of -7 by 2 is assigned to `$n`. -/
theorem arithmetic_exact_iff_quotient :
    ExactOrThrows ((Form.inplace .divide 0 "$n").exact (-7) 2)
      ((Form.inplace .divide 0 "$n").run Machine.trivial
        ⟨[⟨fun _ => some (.int (-7)), 0⟩], fun _ => none, 0⟩ (-7) 2) :=
  (arithmetic_exact_iff Machine.trivial _ (.inplace .divide 0 "$n") (by decide)
    ⟨rfl, by decide⟩).mpr (by constructor <;> decide)

/-- A division by zero is no exception. -/
theorem not_exact_zero :
    ¬ ∀ (form : Form String) (i j : Int), CLong.Fits i → CLong.Fits j →
      ExactOrThrows (form.exact i j)
        (form.run Machine.trivial (⟨[], fun _ => none, 0⟩ : World String Unit Empty) i j) :=
  fun meets => meets (.direct .divide) 1 0 (by decide) (by decide)

end Arith
end Pone
