import Mathlib.Data.List.Forall2
import Pone.Compile.Emit

/-!
# The compiler counts scopes as the code pushes them

`WellScoped depth loop cmd` says that a command fits a place with `depth` scopes around it, of which
`loop` were pushed since the innermost loop: the level of every declaration lies inside, writes of
what `my` and `for` declare count exactly up to it, and `continue` and `break` pop what the loop body
has pushed.  All that `compile` emits is well scoped.
-/

namespace Pone
namespace Compile

def Decl.Fits (depth up : Nat) : Decl → Prop
  | .declares => up = 0 ∧ 0 < depth
  | .outer level parameter => level < depth ∧ (parameter = false → up = level)

section WellScoped

variable {ν : Type}

def Cmd.WellScoped : Nat → Option Nat → Cmd ν → Prop
  | _, _, .atom | _, _, .native | _, _, .getLex _ | _, _, .arity => True
  | depth, loop, .assign up decl _ rhs | depth, loop, .inplace up decl _ rhs =>
      decl.Fits depth up ∧ rhs.WellScoped depth loop
  | depth, loop, .assignList _ rhs => 0 < depth ∧ rhs.WellScoped depth loop
  | depth, loop, .logicalOp _ left right =>
      left.WellScoped depth loop ∧ right.WellScoped depth loop
  | depth, loop, .codeCall code args => code.WellScoped depth loop ∧ args.WellScoped depth loop
  | depth, _, .codeNew between body | depth, _, .tryCode between body =>
      body.WellScoped (depth + between + 1) none
  | depth, _, .addMethod body => body.WellScoped (depth + 1) none
  | depth, loop, .inScope body => body.WellScoped (depth + 1) (loop.map (· + 1))
  | depth, loop, .branch cond yes no =>
      cond.WellScoped depth loop ∧ yes.WellScoped depth loop ∧ no.WellScoped depth loop
  | depth, loop, .forLoop iter body =>
      iter.WellScoped depth loop ∧ body.WellScoped (depth + 1) (some 1)
  | depth, _, .forRounds body => body.WellScoped (depth + 1) (some 1)
  | depth, loop, .whileLoop cond body =>
      cond.WellScoped depth loop ∧ body.WellScoped depth (some 0)
  | depth, loop, .ret e => e.WellScoped depth loop
  | _, loop, .next pops | _, loop, .last pops => loop = some pops
  | depth, loop, .param _ default => 0 < depth ∧ default.WellScoped depth loop
  | depth, loop, .seq first second => first.WellScoped depth loop ∧ second.WellScoped depth loop

end WellScoped

section Compiler

variable {ν : Type} {ctx ctx' : Ctx ν}

/-- `vars_stack` holds, scope by scope, what the source declares other than parameters, and the
functions that have been printed fit the places where they were. -/
structure Ctx.Ok (ctx : Ctx ν) : Prop where
  nonempty : 0 < ctx.varsStack.length
  registered : List.Forall₂ (fun vars names => ∀ x, x ∈ vars ↔ (x, false) ∈ names)
    ctx.varsStack ctx.scopes
  loop : ctx.inLoop = true → ∃ height rest, ctx.loopStack = height :: rest ∧
    height ≤ ctx.varsStack.length
  subs : ∀ sub ∈ ctx.subs, sub.body.WellScoped sub.depth none
  numbers : ∀ sub ∈ ctx.subs, ∀ no ∈ sub.definition.number, no ≤ ctx.naming.anonSubNo

private theorem registered_tail {α β : Type} {relation : α → β → Prop} {left : List α}
    {right : List β} (pairs : List.Forall₂ relation left right) :
    List.Forall₂ relation left.tail right.tail := by
  cases pairs with
  | nil => exact .nil
  | cons _ rest => exact rest

/-- What compiling a node leaves as it was; the functions that it prints stand further inside. -/
structure Ctx.Kept (ctx ctx' : Ctx ν) : Prop where
  depth : ctx'.varsStack.length = ctx.varsStack.length
  loopStack : ctx'.loopStack = ctx.loopStack
  inLoop : ctx'.inLoop = ctx.inLoop
  number : ctx.naming.anonSubNo ≤ ctx'.naming.anonSubNo
  subs : ∀ sub ∈ ctx'.subs, sub ∈ ctx.subs ∨ ctx.varsStack.length < sub.depth

theorem Ctx.Kept.trans {ctx'' : Ctx ν} (first : ctx.Kept ctx') (second : ctx'.Kept ctx'') :
    ctx.Kept ctx'' where
  depth := second.depth.trans first.depth
  loopStack := second.loopStack.trans first.loopStack
  inLoop := second.inLoop.trans first.inLoop
  number := Nat.le_trans first.number second.number
  subs sub member := by
    rcases second.subs sub member with earlier | inside
    · exact first.subs sub earlier
    · exact .inr (first.depth ▸ inside)

theorem Ctx.Kept.refl : ctx.Kept ctx := ⟨rfl, rfl, rfl, Nat.le_refl _, fun _ member => .inl member⟩

theorem Ctx.Kept.loopDepth (kept : ctx.Kept ctx') : ctx'.loopDepth = ctx.loopDepth := by
  rw [Ctx.loopDepth, Ctx.loopDepth, kept.depth, kept.loopStack, kept.inLoop]

theorem Ctx.Ok.declare (ok : ctx.Ok) (x : Name ν) :
    (ctx.declare x true).Ok ∧ ctx.Kept (ctx.declare x true) := by
  refine ⟨⟨ok.nonempty, ?_, ok.loop, ok.subs, ok.numbers⟩, rfl, rfl, rfl, Nat.le_refl _,
    fun _ member => .inl member⟩
  have registered := ok.registered
  simp only [Ctx.declare]
  generalize ctx.varsStack = vars, ctx.scopes = scopes at registered
  cases registered with
  | nil => exact .nil
  | cons head tail =>
      refine .cons (fun y => ?_) tail
      rw [head y]
      simp

theorem Ctx.Ok.defLex (ok : ctx.Ok) (x : Name ν) :
    (ctx.defLex x).Ok ∧ ctx.Kept (ctx.defLex x) := by
  have depth : (ctx.defLex x).varsStack.length = ctx.varsStack.length := by
    simp only [Ctx.defLex]
    cases ctx.varsStack <;> rfl
  refine ⟨⟨depth ▸ ok.nonempty, ?_, ?_, ok.subs, ok.numbers⟩, depth, rfl, rfl, Nat.le_refl _,
    fun _ member => .inl member⟩
  · have registered := ok.registered
    simp only [Ctx.defLex, Ctx.declare]
    generalize ctx.varsStack = vars, ctx.scopes = scopes at registered
    cases registered with
    | nil => exact .nil
    | cons head tail =>
        refine .cons (fun y => ?_) tail
        rw [List.mem_cons, List.mem_cons, head y]
        simp
  · rw [depth]
    exact ok.loop

theorem Ctx.Ok.defLexs (ok : ctx.Ok) (xs : List (Name ν)) :
    (xs.foldl Ctx.defLex ctx).Ok ∧ ctx.Kept (xs.foldl Ctx.defLex ctx) := by
  induction xs generalizing ctx with
  | nil => exact ⟨ok, .refl⟩
  | cons x xs ih =>
      obtain ⟨first, kept⟩ := ok.defLex x
      obtain ⟨all, rest⟩ := ih first
      exact ⟨all, kept.trans rest⟩

theorem Ctx.Ok.pushVars (ok : ctx.Ok) : ctx.pushVars.Ok where
  nonempty := Nat.succ_pos _
  registered := .cons (fun _ => by simp) ok.registered
  loop inLoop := by
    obtain ⟨height, rest, stack, bound⟩ := ok.loop inLoop
    exact ⟨height, rest, stack, Nat.le_succ_of_le bound⟩
  subs := ok.subs
  numbers := ok.numbers

theorem Ctx.Ok.popVars {inner : Ctx ν} (ok : ctx.Ok) (inner_ok : inner.Ok)
    (kept : ctx.pushVars.Kept inner) : inner.popVars.Ok ∧ ctx.Kept inner.popVars := by
  have depth : inner.popVars.varsStack.length = ctx.varsStack.length := by
    have pushed : inner.varsStack.length = ctx.varsStack.length + 1 := kept.depth
    rw [Ctx.popVars, List.length_tail, pushed, Nat.add_sub_cancel]
  refine ⟨⟨depth ▸ ok.nonempty, ?_, ?_, inner_ok.subs, inner_ok.numbers⟩, depth, kept.loopStack,
    kept.inLoop, kept.number, fun sub member => (kept.subs sub member).imp_right Nat.lt_of_succ_lt⟩
  · exact registered_tail inner_ok.registered
  · intro inLoop
    obtain ⟨height, rest, stack, bound⟩ := ok.loop (kept.inLoop ▸ inLoop)
    exact ⟨height, rest, kept.loopStack.trans stack, depth ▸ bound⟩

theorem Ctx.Ok.enterFunction {naming : Naming} (ok : ctx.Ok)
    (later : ctx.naming.anonSubNo ≤ naming.anonSubNo) : (ctx.enterFunction naming).Ok where
  nonempty := Nat.succ_pos _
  registered := .cons (fun _ => by simp) ok.registered
  loop inLoop := by cases inLoop
  subs := ok.subs
  numbers sub member no numbered := Nat.le_trans (ok.numbers sub member no numbered) later

theorem Ctx.Ok.leaveFunction {inner : Ctx ν} {naming : Naming} {definition : Definition (Name ν)}
    {body : Cmd ν} (ok : ctx.Ok) (inner_ok : inner.Ok)
    (later : ctx.naming.anonSubNo ≤ naming.anonSubNo)
    (kept : (ctx.enterFunction naming).Kept inner)
    (fits : body.WellScoped inner.varsStack.length none)
    (numbered : ∀ no ∈ definition.number, no ≤ naming.anonSubNo) :
    (inner.leaveFunction ctx.inLoop definition body).Ok ∧
      ctx.Kept (inner.leaveFunction ctx.inLoop definition body) := by
  have pushed : inner.varsStack.length = ctx.varsStack.length + 1 := kept.depth
  have depth : (inner.leaveFunction ctx.inLoop definition body).varsStack.length =
      ctx.varsStack.length := by
    rw [Ctx.leaveFunction, Ctx.popVars, List.length_tail, pushed, Nat.add_sub_cancel]
  refine ⟨⟨depth ▸ ok.nonempty, ?_, ?_, ?_, ?_⟩, depth, kept.loopStack, rfl,
    Nat.le_trans later kept.number, ?_⟩
  · exact registered_tail inner_ok.registered
  · intro inLoop
    obtain ⟨height, rest, stack, bound⟩ := ok.loop inLoop
    exact ⟨height, rest, kept.loopStack.trans stack, depth ▸ bound⟩
  · intro sub member
    rcases List.mem_cons.mp member with rfl | member
    · exact fits
    · exact inner_ok.subs sub member
  · intro sub member no number
    rcases List.mem_cons.mp member with rfl | member
    · exact Nat.le_trans (numbered no number) kept.number
    · exact inner_ok.numbers sub member no number
  · intro sub member
    rcases List.mem_cons.mp member with rfl | member
    · exact .inr (pushed ▸ Nat.lt_succ_self _)
    · exact (kept.subs sub member).imp_right Nat.lt_of_succ_lt

theorem Ctx.Ok.pushLoop (ok : ctx.Ok) : ctx.pushLoop.Ok where
  nonempty := ok.nonempty
  registered := ok.registered
  loop _ := ⟨_, _, rfl, Nat.le_refl _⟩
  subs := ok.subs
  numbers := ok.numbers

theorem Ctx.Ok.popLoop {inner : Ctx ν} (ok : ctx.Ok) (inner_ok : inner.Ok)
    (kept : ctx.pushLoop.Kept inner) :
    (inner.popLoop ctx.inLoop).Ok ∧ ctx.Kept (inner.popLoop ctx.inLoop) := by
  have stack : inner.loopStack.tail = ctx.loopStack := by
    rw [kept.loopStack]
    rfl
  refine ⟨⟨inner_ok.nonempty, inner_ok.registered, ?_, inner_ok.subs, inner_ok.numbers⟩, kept.depth,
    stack, rfl, kept.number, kept.subs⟩
  intro inLoop
  obtain ⟨height, rest, before, bound⟩ := ok.loop inLoop
  exact ⟨height, rest, stack.trans before, kept.depth.symm ▸ bound⟩

theorem Ctx.Ok.loopDepth_pushVars (ok : ctx.Ok) :
    ctx.pushVars.loopDepth = ctx.loopDepth.map (· + 1) := by
  by_cases inLoop : ctx.inLoop = true
  · have pushed : ctx.pushVars.inLoop = true := inLoop
    obtain ⟨height, rest, stack, bound⟩ := ok.loop inLoop
    rw [Ctx.loopDepth, if_pos pushed, Ctx.loopDepth, if_pos inLoop,
      show ctx.pushVars.loopStack = ctx.loopStack from rfl, stack]
    exact congrArg some (Nat.succ_sub bound)
  · have pushed : ¬ ctx.pushVars.inLoop = true := inLoop
    rw [Ctx.loopDepth, if_neg pushed, Ctx.loopDepth, if_neg inLoop, Option.map_none]

theorem Ctx.loopDepth_pushLoop : ctx.pushLoop.loopDepth = some 0 := by
  simp [Ctx.loopDepth, Ctx.pushLoop]

/-- Compiling a node keeps the context in order and emits a command that fits. -/
def Fits (ctx : Ctx ν) (cmd : Cmd ν) (ctx' : Ctx ν) : Prop :=
  ctx'.Ok ∧ ctx.Kept ctx' ∧ cmd.WellScoped ctx.varsStack.length ctx.loopDepth

private theorem Fits.after {first second : Cmd ν} {ctx'' : Ctx ν} (before : Fits ctx first ctx')
    (after : Fits ctx' second ctx'') : Fits ctx second ctx'' := by
  obtain ⟨-, kept, -⟩ := before
  obtain ⟨ok, rest, fits⟩ := after
  refine ⟨ok, kept.trans rest, ?_⟩
  rw [← kept.depth, ← kept.loopDepth]
  exact fits

variable [DecidableEq ν]

/-- The function that bears a number given since then fits a place as many scopes further in as the
reference says. -/
theorem Ctx.Ok.refer_fits {between no : Nat} {definition : Definition (Name ν)} {meant : Cmd ν}
    (ok : ctx.Ok) (ok' : ctx'.Ok) (kept : ctx.Kept ctx')
    (found : ctx'.refer definition = some (between, meant)) (number : definition.number = some no)
    (later : ctx.naming.anonSubNo < no) :
    meant.WellScoped (ctx.varsStack.length + between + 1) none := by
  obtain ⟨sub, first, same⟩ := Option.map_eq_some_iff.mp found
  obtain ⟨rfl, rfl⟩ := Prod.mk.inj same
  have member := List.mem_of_find?_eq_some first
  have named : sub.definition = definition := by simpa using List.find?_some first
  have inside : ctx.varsStack.length < sub.depth := by
    refine (kept.subs sub member).resolve_left fun earlier => ?_
    have bound := ok.numbers sub earlier no (by rw [named, number]; rfl)
    omega
  have depth : ctx.varsStack.length + (sub.depth - (ctx'.varsStack.length + 1)) + 1 = sub.depth := by
    rw [kept.depth]
    omega
  rw [depth]
  exact ok'.subs sub member

theorem Ctx.Ok.findLex_defLex {x : Name ν} {up : Nat} (ok : ctx.Ok)
    (found : (ctx.defLex x).findLex x = some up) : up = 0 := by
  have nonempty := ok.nonempty
  simp only [Ctx.findLex, Ctx.defLex] at found
  cases stack : ctx.varsStack with
  | nil => simp [stack] at nonempty
  | cons vars outer =>
      rw [stack] at found
      simpa [List.findIdx?_cons] using found.symm

/-- `find_lex` finds the innermost enclosing declaration, unless that is a parameter. -/
theorem Ctx.Ok.resolve_fits {x : Name ν} {up : Nat} {decl : Decl} (ok : ctx.Ok)
    (found : ctx.findLex x = some up) (resolved : ctx.resolve x = some decl) :
    decl.Fits ctx.varsStack.length up := by
  obtain ⟨level, first, rfl⟩ := Option.map_eq_some_iff.mp resolved
  obtain ⟨same_length, agree⟩ := List.forall₂_iff_get.mp ok.registered
  obtain ⟨level_bound, declared, level_least⟩ := List.findIdx?_eq_some_iff_getElem.mp first
  obtain ⟨up_bound, registered, up_least⟩ := List.findIdx?_eq_some_iff_getElem.mp found
  refine ⟨same_length ▸ level_bound, fun parameter => ?_⟩
  have names : (x, false) ∈ ctx.scopes[level] := by
    simpa [List.getD_eq_getElem?_getD, level_bound] using parameter
  have at_level : x ∈ ctx.varsStack[level] := (agree level (by omega) level_bound x).mpr names
  have at_up : (x, false) ∈ ctx.scopes[up] := (agree up up_bound (by omega) x).mp (by
    simpa using registered)
  have not_above : ¬ level < up := fun below => up_least level below (by simpa using at_level)
  have not_below : ¬ up < level := fun below => level_least up below (by
    simpa using .inl at_up)
  omega

theorem compile_fits {node : Node ν} {cmd : Cmd ν} (ok : ctx.Ok)
    (compiled : compile node ctx = some (cmd, ctx')) : Fits ctx cmd ctx' := by
  induction node generalizing ctx cmd ctx' <;>
    simp only [compile, Option.bind_eq_bind, Option.bind_eq_some_iff, Prod.exists,
      Option.pure_def, Option.some.injEq, Prod.mk.injEq] at compiled
  case atom | nop | done | var =>
    obtain ⟨rfl, rfl⟩ := compiled
    exact ⟨ok, .refl, trivial⟩
  case my x =>
    obtain ⟨rfl, rfl⟩ := compiled
    obtain ⟨defined, kept⟩ := ok.defLex x
    exact ⟨defined, kept, ⟨rfl, ok.nonempty⟩, trivial⟩
  case myAssign x rhs ih =>
    obtain ⟨up, found, value, after, rhs_compiled, rfl, rfl⟩ := compiled
    obtain ⟨defined, kept⟩ := ok.defLex x
    obtain ⟨after_ok, rest, fits⟩ := ih defined rhs_compiled
    refine ⟨after_ok, kept.trans rest, ⟨ok.findLex_defLex found, ok.nonempty⟩, ?_⟩
    rw [← kept.depth, ← kept.loopDepth]
    exact fits
  case myList xs rhs ih =>
    obtain ⟨value, after, rhs_compiled, rfl, rfl⟩ := compiled
    obtain ⟨defined, kept⟩ := ok.defLexs xs
    obtain ⟨after_ok, rest, fits⟩ := ih defined rhs_compiled
    refine ⟨after_ok, kept.trans rest, ok.nonempty, ?_⟩
    rw [← kept.depth, ← kept.loopDepth]
    exact fits
  case assign x rhs ih | inplace x rhs ih =>
    obtain ⟨up, found, decl, resolved, value, after, rhs_compiled, rfl, rfl⟩ := compiled
    obtain ⟨after_ok, kept, fits⟩ := ih ok rhs_compiled
    exact ⟨after_ok, kept, ok.resolve_fits found resolved, fits⟩
  case op args ih =>
    obtain ⟨args, after, args_compiled, rfl, rfl⟩ := compiled
    obtain ⟨after_ok, kept, fits⟩ := ih ok args_compiled
    exact ⟨after_ok, kept, fits, trivial⟩
  case conditional cond yes no cond_ih yes_ih no_ih
      | ifThen cond yes no cond_ih yes_ih no_ih | elsif cond yes no cond_ih yes_ih no_ih =>
    obtain ⟨cond, ctx₁, cond_compiled, yes, ctx₂, yes_compiled, no, ctx₃, no_compiled, rfl, rfl⟩ :=
      compiled
    have cond_fits := cond_ih ok cond_compiled
    have yes_fits := cond_fits.after (yes_ih cond_fits.1 yes_compiled)
    have no_fits := yes_fits.after (no_ih yes_fits.1 no_compiled)
    exact ⟨no_fits.1, no_fits.2.1, cond_fits.2.2, yes_fits.2.2, no_fits.2.2⟩
  case logicalOp left right left_ih right_ih =>
    obtain ⟨left, ctx₁, left_compiled, right, ctx₂, right_compiled, rfl, rfl⟩ := compiled
    have counted : Ctx.Ok { ctx with logicalOpCounter := ctx.logicalOpCounter + 1 } :=
      ⟨ok.nonempty, ok.registered, ok.loop, ok.subs, ok.numbers⟩
    obtain ⟨left_ok, left_kept, left_scoped⟩ := left_ih counted left_compiled
    have left_fits : Fits ctx left ctx₁ := ⟨left_ok, ⟨left_kept.depth, left_kept.loopStack,
      left_kept.inLoop, left_kept.number, left_kept.subs⟩, left_scoped⟩
    have right_fits := left_fits.after (right_ih left_fits.1 right_compiled)
    exact ⟨right_fits.1, right_fits.2.1, left_fits.2.2, right_fits.2.2⟩
  case funcall f args ih =>
    obtain ⟨args, after, args_compiled, rfl, rfl⟩ := compiled
    obtain ⟨after_ok, kept, fits⟩ := ih ok args_compiled
    exact ⟨after_ok, kept, trivial, fits⟩
  case func name params body params_ih body_ih =>
    obtain ⟨params, ctx₁, params_compiled, body, inner, body_compiled, named⟩ := compiled
    have later : ctx.naming.anonSubNo ≤ (ctx.naming.enter name).anonSubNo := by
      cases name with
      | none => exact Nat.le_succ _
      | some x => exact Nat.le_refl _
    have params_fits := params_ih (ok.enterFunction later) params_compiled
    have body_fits := params_fits.after (body_ih params_fits.1 body_compiled)
    have pushed : inner.varsStack.length = ctx.varsStack.length + 1 := body_fits.2.1.depth
    have inside : (Cmd.seq params body).WellScoped (ctx.varsStack.length + 1) none :=
      ⟨params_fits.2.2, body_fits.2.2⟩
    have fits : (Cmd.seq params body).WellScoped inner.varsStack.length none := pushed ▸ inside
    have numbered : ∀ no ∈ ((ctx.naming.enter name).sub name).number,
        no ≤ (ctx.naming.enter name).anonSubNo := by
      cases name with
      | none => exact fun no same => Nat.le_of_eq (Option.some.inj same).symm
      | some x => exact fun no same => by cases same
    obtain ⟨left_ok, kept⟩ := ok.leaveFunction body_fits.1 later body_fits.2.1 fits numbered
    cases name with
    | none =>
        simp only [Option.bind_eq_some_iff, Prod.exists, Option.some.injEq, Prod.mk.injEq] at named
        obtain ⟨between, meant, found, rfl, rfl⟩ := named
        exact ⟨left_ok, kept, ok.refer_fits left_ok kept found rfl body_fits.2.1.number⟩
    | some x =>
        simp only at named
        split at named <;> simp only [Option.some.injEq, Prod.mk.injEq] at named <;>
          obtain ⟨rfl, rfl⟩ := named
        · exact ⟨left_ok, kept, inside⟩
        · exact ⟨left_ok, kept, ⟨rfl, ok.nonempty⟩, inside⟩
  case params list ih =>
    obtain ⟨list, after, list_compiled, rfl, rfl⟩ := compiled
    obtain ⟨after_ok, kept, fits⟩ := ih ok list_compiled
    exact ⟨after_ok, kept, trivial, fits⟩
  case param x default ih =>
    obtain ⟨default, after, default_compiled, rfl, rfl⟩ := compiled
    obtain ⟨after_ok, kept, fits⟩ := ih ok default_compiled
    obtain ⟨declared_ok, declared⟩ := after_ok.declare x
    exact ⟨declared_ok, kept.trans declared, ok.nonempty, fits⟩
  case attempt body ih =>
    obtain ⟨body, inner, body_compiled, between, meant, found, rfl, rfl⟩ := compiled
    have later : ctx.naming.anonSubNo ≤ ctx.naming.enterTry.anonSubNo := Nat.le_succ _
    obtain ⟨inner_ok, kept, fits⟩ := ih (ok.enterFunction later) body_compiled
    have pushed : inner.varsStack.length = ctx.varsStack.length + 1 := kept.depth
    have inner_fits : body.WellScoped inner.varsStack.length none := pushed ▸ fits
    have numbered : ∀ no ∈ (ctx.naming.enterTry.attempt : Definition (Name ν)).number,
        no ≤ ctx.naming.enterTry.anonSubNo := fun no same => Nat.le_of_eq (Option.some.inj same).symm
    obtain ⟨left_ok, left_kept⟩ := ok.leaveFunction inner_ok later kept inner_fits numbered
    exact ⟨left_ok, left_kept, ok.refer_fits left_ok left_kept found rfl kept.number⟩
  case klass x body ih =>
    obtain ⟨body, after, body_compiled, rfl, rfl⟩ := compiled
    have entered : Ctx.Ok { ctx with naming := { ctx.naming with inClass := true } } :=
      ⟨ok.nonempty, ok.registered, ok.loop, ok.subs, ok.numbers⟩
    obtain ⟨after_ok, kept, fits⟩ := ih entered body_compiled
    exact ⟨⟨after_ok.nonempty, after_ok.registered, after_ok.loop, after_ok.subs, after_ok.numbers⟩,
      ⟨kept.depth, kept.loopStack, kept.inLoop, kept.number, kept.subs⟩,
      ⟨⟨rfl, ok.nonempty⟩, trivial⟩, fits⟩
  case block body ih =>
    obtain ⟨body, inner, body_compiled, rfl, rfl⟩ := compiled
    obtain ⟨inner_ok, kept, fits⟩ := ih ok.pushVars body_compiled
    obtain ⟨left_ok, left_kept⟩ := ok.popVars inner_ok kept
    rw [ok.loopDepth_pushVars] at fits
    exact ⟨left_ok, left_kept, fits⟩
  case statements head rest head_ih rest_ih =>
    obtain ⟨head, ctx₁, head_compiled, rest, ctx₂, rest_compiled, rfl, rfl⟩ := compiled
    have head_fits := head_ih ok head_compiled
    have rest_fits := head_fits.after (rest_ih head_fits.1 rest_compiled)
    exact ⟨rest_fits.1, rest_fits.2.1, head_fits.2.2, rest_fits.2.2⟩
  case otherwise body ih => exact ih ok compiled
  case forLoop iter body iter_ih body_ih =>
    obtain ⟨iter, ctx₁, iter_compiled, body, inner, body_compiled, rfl, rfl⟩ := compiled
    have iter_fits := iter_ih ok iter_compiled
    obtain ⟨defined, topic_kept⟩ := iter_fits.1.pushLoop.pushVars.defLex .topic
    obtain ⟨inner_ok, kept, fits⟩ := body_ih defined body_compiled
    obtain ⟨popped_ok, popped⟩ := iter_fits.1.pushLoop.popVars inner_ok (topic_kept.trans kept)
    obtain ⟨left_ok, left_kept⟩ := iter_fits.1.popLoop popped_ok popped
    rw [topic_kept.depth, topic_kept.loopDepth, iter_fits.1.pushLoop.loopDepth_pushVars,
      Ctx.loopDepth_pushLoop] at fits
    have body_fits : body.WellScoped (ctx.varsStack.length + 1) (some 1) :=
      iter_fits.2.1.depth ▸ fits
    exact ⟨left_ok, iter_fits.2.1.trans left_kept, iter_fits.2.2, body_fits⟩
  case whileLoop cond body cond_ih body_ih =>
    obtain ⟨cond, ctx₁, cond_compiled, body, inner, body_compiled, rfl, rfl⟩ := compiled
    have cond_fits := cond_ih ok cond_compiled
    obtain ⟨inner_ok, kept, fits⟩ := body_ih cond_fits.1.pushLoop body_compiled
    obtain ⟨left_ok, left_kept⟩ := cond_fits.1.popLoop inner_ok kept
    rw [Ctx.loopDepth_pushLoop] at fits
    have body_fits : body.WellScoped ctx.varsStack.length (some 0) :=
      cond_fits.2.1.depth ▸ fits
    exact ⟨left_ok, cond_fits.2.1.trans left_kept, cond_fits.2.2, body_fits⟩
  case ret e ih =>
    obtain ⟨value, after, compiled, rfl, rfl⟩ := compiled
    obtain ⟨after_ok, kept, fits⟩ := ih ok compiled
    exact ⟨after_ok, kept, fits⟩
  case next | last =>
    obtain ⟨pops, depth, rfl, rfl⟩ := compiled
    exact ⟨ok, .refl, depth⟩

omit [DecidableEq ν] in
theorem Ctx.initial_ok : (Ctx.initial : Ctx ν).Ok where
  nonempty := Nat.zero_lt_one
  registered := .cons (by simp) .nil
  loop inLoop := by cases inLoop
  subs _ member := by cases member
  numbers _ member := by cases member

theorem compileProgram_wellScoped {program : Node ν} {cmd : Cmd ν}
    (compiled : compileProgram program = some cmd) : cmd.WellScoped 1 none := by
  obtain ⟨⟨_, after⟩, emitted, rfl⟩ := Option.map_eq_some_iff.mp compiled
  obtain ⟨-, -, fits⟩ := compile_fits Ctx.initial_ok emitted
  exact fits

end Compiler

end Compile
end Pone
