import Pone.Compile.Return

/-!
# Parameters

What is printed for the parameters of a sub.  The count that is checked is the number of parameters
without a default, wherever they stand, and from below only; the parameters are bound by position.
-/

namespace Pone
namespace Compile

/-- How the binding of the parameters ends. -/
inductive Binding (V S E : Type) where
  /-- The arguments that `va_arg` has not taken, and the state before the body. -/
  | ready (args : List V) (s : S)
  /-- The exception about the number of parameters. -/
  | miscounted (message : String)
  /-- A default leaves the function. -/
  | left (e : E)
  /-- `va_arg` is called where there is no argument. -/
  | wild

/-- `PVIP_NODE_PARAM`, by what stands in the place of the variable; the compiler aborts on other
terms. -/
inductive Param (ν : Type) where
  /-- The default is `nop` where there is none. -/
  | named (x : Name ν) (default : Node ν)
  /-- What `sub ($x, $y) { }` without a name has between its parentheses. -/
  | list (terms : List (Node ν))

/-- `min_params` -/
def minParams {ν : Type} : List (Param ν) → Nat
  | [] => 0
  | .named _ .nop :: rest => minParams rest + 1
  | _ :: rest => minParams rest

def countMessage (min max n : Nat) : String :=
  "Expect " ++ toString min ++ ".." ++ toString max ++ " parameters but you passed " ++
    toString n ++ "."

section Bind

variable {ν V S E : Type} (m : Runtime ν V S E) (assign : Name ν → V → S → S)

/-- What is printed for `PVIP_NODE_PARAM`, number `i`; `assign` is `pone_assign` in the scope of the
sub. -/
def bindParam (n i : Nat) (param : Param ν) (args : List V) (s : S) : Binding V S E :=
  match param with
  | .named x default =>
      if i < n then
        match args with
        | v :: args => .ready args (assign x v s)
        | [] => .wild
      else
        match m.value default s with
        | (.ok v, s) => .ready args (assign x v s)
        | (.error e, _) => .left e
  | .list _ => .ready args s

def bindParams (n : Nat) : Nat → List (Param ν) → List V → S → Binding V S E
  | _, [], args, s => .ready args s
  | i, param :: rest, args, s =>
      match bindParam m assign n i param args s with
      | .ready args s => bindParams n (i + 1) rest args s
      | other => other

/-- What is printed for `PVIP_NODE_PARAMS`. -/
def enterSub (params : List (Param ν)) (args : List V) (s : S) : Binding V S E :=
  if args.length < minParams params then
    .miscounted (countMessage (minParams params) params.length args.length)
  else bindParams m assign args.length 0 params args s

/-- Each parameter gets its argument, or the value of its default as of then. -/
def bound : List (Name ν × Node ν) → List V → S → Binding V S E
  | [], args, s => .ready args s
  | (x, _) :: rest, v :: args, s => bound rest args (assign x v s)
  | (x, default) :: rest, [], s =>
      match m.value default s with
      | (.ok v, s) => bound rest [] (assign x v s)
      | (.error e, _) => .left e

/-- A sub with a name has its parameters one by one. -/
def namedParams (params : List (Name ν × Node ν)) : List (Param ν) :=
  params.map fun p => .named p.1 p.2

/-- The variables of a parenthesized list, none of which has a default. -/
def noDefaults (xs : List (Name ν)) : List (Name ν × Node ν) :=
  xs.map fun x => (x, .nop)

/-- Some parameter without a default gets no argument, or there are arguments left over. -/
def Miscounts (params : List (Name ν × Node ν)) (n : Nat) : Prop :=
  (∃ p ∈ params.drop n, p.2 = .nop) ∨ params.length < n

/-- The sub is entered as it is to be. -/
def Enters (params : List (Name ν × Node ν)) (args : List V) (s : S) (outcome : Binding V S E) :
    Prop :=
  (Miscounts params args.length → ∃ message, outcome = .miscounted message) ∧
    (¬ Miscounts params args.length → outcome = bound m assign params args s)

variable {m assign}

/-! ## The printed code -/

theorem minParams_optional (x : Name ν) {default : Node ν} (optional : default ≠ .nop)
    (rest : List (Param ν)) : minParams (.named x default :: rest) = minParams rest := by
  cases default with
  | nop => exact absurd rfl optional
  | _ => rfl

theorem minParams_le (params : List (Param ν)) : minParams params ≤ params.length := by
  induction params with
  | nil => exact Nat.le_refl 0
  | cons param rest ih =>
      rw [List.length_cons]
      cases param with
      | named x default =>
          by_cases required : default = .nop
          · rw [required]
            exact Nat.succ_le_succ ih
          · rw [minParams_optional x required]
            exact Nat.le_succ_of_le ih
      | list terms => exact Nat.le_succ_of_le ih

theorem bindParam_arg {n i : Nat} (before : i < n) (x : Name ν) (default : Node ν) (v : V)
    (args : List V) (s : S) :
    bindParam m assign n i (.named x default) (v :: args) s = .ready args (assign x v s) :=
  if_pos before

theorem bindParam_default {n i : Nat} (behind : n ≤ i) (x : Name ν) (default : Node ν)
    (args : List V) (s : S) :
    bindParam m assign n i (.named x default) args s =
      match m.value default s with
      | (.ok v, s) => .ready args (assign x v s)
      | (.error e, _) => .left e :=
  if_neg (Nat.not_lt.mpr behind)

/-- Named parameters are bound by position, whatever has been counted. -/
theorem bindParams_eq {n i : Nat} {args : List V} (rest : List (Name ν × Node ν))
    (count : n = i + args.length ∨ args = [] ∧ n ≤ i) (s : S) :
    bindParams m assign n i (namedParams rest) args s = bound m assign rest args s := by
  induction rest generalizing i args s with
  | nil => rfl
  | cons p rest ih =>
      obtain ⟨x, default⟩ := p
      rw [namedParams, List.map_cons, bindParams]
      cases args with
      | cons v args =>
          have before : i < n := by
            rcases count with count | ⟨none_left, -⟩
            · rw [count, List.length_cons]
              omega
            · cases none_left
          rw [bindParam_arg before, bound]
          refine ih (.inl ?_) (assign x v s)
          rcases count with count | ⟨none_left, -⟩
          · rw [count, List.length_cons]
            omega
          · cases none_left
      | nil =>
          have behind : n ≤ i := by
            rcases count with count | ⟨-, behind⟩
            · exact Nat.le_of_eq count
            · exact behind
          rw [bindParam_default behind, bound]
          rcases m.value default s with ⟨_ | v, s'⟩
          · rfl
          · exact ih (.inr ⟨rfl, Nat.le_succ_of_le behind⟩) (assign x v s')

/-- Binding does not count. -/
theorem bound_ne_miscounted (params : List (Name ν × Node ν)) (args : List V) (s : S)
    (message : String) : bound m assign params args s ≠ .miscounted message := by
  induction params generalizing args s with
  | nil => exact nofun
  | cons p rest ih =>
      obtain ⟨x, default⟩ := p
      cases args with
      | cons v args => exact ih args _
      | nil =>
          rw [bound]
          rcases m.value default s with ⟨_ | v, s'⟩
          · exact nofun
          · exact ih [] _

/-- With fewer arguments than parameters without a default, one of these gets none. -/
theorem miscounts_of_lt {params : List (Name ν × Node ν)} {n : Nat}
    (few : n < minParams (namedParams params)) : Miscounts params n := by
  left
  induction params generalizing n with
  | nil => exact absurd few (Nat.not_lt_zero n)
  | cons p rest ih =>
      obtain ⟨x, default⟩ := p
      by_cases required : default = .nop
      · cases n with
        | zero => exact ⟨(x, default), List.mem_cons_self, required⟩
        | succ n =>
            rw [required] at few
            exact ih (Nat.lt_of_succ_lt_succ few)
      · rw [namedParams, List.map_cons, minParams_optional x required] at few
        cases n with
        | zero =>
            obtain ⟨p, among, nop⟩ := ih few
            exact ⟨p, List.mem_cons_of_mem _ among, nop⟩
        | succ n => exact ih (Nat.lt_of_succ_lt few)

theorem enters_named_iff (params : List (Name ν × Node ν)) (args : List V) (s : S) :
    Enters m assign params args s (enterSub m assign (namedParams params) args s) ↔
      args.length ≤ params.length ∧
        (args.length < minParams (namedParams params) ∨
          ∀ p ∈ params.drop args.length, p.2 ≠ .nop) := by
  by_cases few : args.length < minParams (namedParams params)
  · have miscounts := miscounts_of_lt few
    have within : args.length ≤ params.length := by
      have most := minParams_le (namedParams params)
      rw [namedParams, List.length_map] at most
      exact Nat.le_trans (Nat.le_of_lt few) most
    rw [enterSub, if_pos few]
    exact iff_of_true ⟨fun _ => ⟨_, rfl⟩, fun fine => absurd miscounts fine⟩ ⟨within, .inl few⟩
  · have entered :
        enterSub m assign (namedParams params) args s = bound m assign params args s := by
      rw [enterSub, if_neg few]
      exact bindParams_eq params (.inl (Nat.zero_add _).symm) s
    have enters_iff_fine : Enters m assign params args s
        (enterSub m assign (namedParams params) args s) ↔ ¬ Miscounts params args.length := by
      rw [entered]
      refine ⟨fun enters miscounts => ?_, fun fine => ⟨fun miscounts => absurd miscounts fine,
        fun _ => rfl⟩⟩
      obtain ⟨message, counted⟩ := enters.1 miscounts
      exact bound_ne_miscounted params args s message counted
    rw [enters_iff_fine, Miscounts, not_or, Nat.not_lt, and_comm, or_iff_right few]
    refine and_congr_right fun _ => ?_
    simp only [not_exists, not_and, ne_eq]

/-- All arguments are left over behind a list. -/
theorem enterSub_list (terms : List (Node ν)) (args : List V) (s : S) :
    enterSub m assign [.list terms] args s = .ready args s :=
  if_neg (Nat.not_lt_zero _)

/-- Where as many arguments are passed as there are parameters, none is left over. -/
theorem bound_nop (xs : List (Name ν)) {args : List V} (count : args.length = xs.length) (s : S) :
    ∃ s', bound m assign (noDefaults xs) args s = .ready [] s' := by
  induction xs generalizing args s with
  | nil => exact ⟨s, by rw [List.eq_nil_of_length_eq_zero count]; rfl⟩
  | cons x xs ih =>
      cases args with
      | nil => cases count
      | cons v args => exact ih (Nat.succ.inj count) (assign x v s)

theorem miscounts_nop (xs : List (Name ν)) (n : Nat) :
    Miscounts (noDefaults xs) n ↔ n ≠ xs.length := by
  have short : (∃ p ∈ (noDefaults xs).drop n, p.2 = .nop) ↔ n < xs.length := by
    constructor
    · rintro ⟨p, among, -⟩
      have nonempty := List.length_pos_of_mem among
      rw [List.length_drop, noDefaults, List.length_map] at nonempty
      exact Nat.lt_of_sub_pos nonempty
    · intro few
      refine ⟨(xs[n], .nop), ?_, rfl⟩
      rw [noDefaults, ← List.map_drop, List.drop_eq_getElem_cons few]
      exact List.mem_cons_self
  rw [Miscounts, short, noDefaults, List.length_map]
  exact Nat.lt_or_gt.symm

/-- A parenthesized list binds nothing, so it stands for the empty list of parameters only. -/
theorem enters_list_iff (xs : List (Name ν)) (args : List V) (s : S) :
    Enters m assign (noDefaults xs) args s
        (enterSub m assign [.list (xs.map .var)] args s) ↔ xs = [] ∧ args = [] := by
  rw [enterSub_list, Enters, miscounts_nop, not_not]
  constructor
  · rintro ⟨counted, entered⟩
    have count : args.length = xs.length := by
      by_contra differ
      obtain ⟨message, same⟩ := counted differ
      cases same
    obtain ⟨s', none_left⟩ : ∃ s', bound m assign (noDefaults xs) args s = .ready [] s' :=
      bound_nop xs count s
    have no_args : args = [] := by
      have same := (entered count).trans none_left
      cases same
      rfl
    rw [no_args] at count
    exact ⟨List.eq_nil_of_length_eq_zero count.symm, no_args⟩
  · rintro ⟨rfl, rfl⟩
    exact ⟨fun differ => absurd rfl differ, fun _ => rfl⟩

end Bind

/-- `$x` and `$y` in an environment; every other expression is 0. -/
def plain : Runtime Char Nat (List (Name Char × Nat)) Unit where
  eval e s :=
    match e with
    | .var x => (.ok ((s.lookup x).getD 0), s)
    | _ => (.ok 0, s)
  perform _ s := (.ok none, s)
  so _ := .ok true
  nil := 0
  pushScope s := s
  popScope s := s

end Compile
end Pone
