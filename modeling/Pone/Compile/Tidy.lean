import Pone.Compile.Resolution

/-!
# What every command does to the lex

Where no scope is left without being popped, a command that comes to its end leaves `world->lex` as
it was, and one that continues or breaks a loop pops the scopes inside it.  One lemma for each
operation of the runtime; `exec_keeps` follows by induction on the fuel.
-/

namespace Pone
namespace Compile

open ScopeChain

section Lex

variable {ν : Type} {display : List Nat} {loop : Option Nat} {w w' : World ν}

/-- Where no exit was counted, a command that comes to its end has left `world->lex` alone, and
`continue` and `break` have popped the scopes inside the loop. -/
def KeepsLex (loop : Option Nat) (w : World ν) (result : Outcome × World ν) : Prop :=
  result.2.exits = w.exits → match result.1 with
    | .val _ => result.2.lex = w.lex
    | .next | .last => ∃ depth, loop = some depth ∧
        ancestor result.2.parent depth w.lex = some result.2.lex
    | .ret _ | .thrown | .stop => True

theorem Quiet.keepsLex (quiet : Quiet w w') (v : Val) : KeepsLex loop w (.val v, w') :=
  fun _ => quiet.lex

theorem keepsLex_thrown : KeepsLex loop w (.thrown, w') := fun _ => trivial

theorem keepsLex_stop : KeepsLex loop w (.stop, w') := fun _ => trivial

/-- Exits are only added, except where a function is left for good. -/
theorem Post.exits {result : Outcome × World ν} (post : Post display loop w result)
    (goes_on : (∃ v, result.1 = .val v) ∨ result.1 = .next ∨ result.1 = .last) :
    w.exits ≤ result.2.exits := by
  have leaves := post.leaves
  rcases goes_on with ⟨v, same⟩ | same | same <;> rw [same] at leaves
  · exact leaves.2.exits
  · obtain ⟨_, -, -, popped⟩ := leaves
    exact popped.exits
  · obtain ⟨_, -, -, popped⟩ := leaves
    exact popped.exits

theorem KeepsLex.after {v : Val} {result : Outcome × World ν}
    (first_post : Post display loop w (.val v, w')) (first : KeepsLex loop w (.val v, w'))
    (second_post : Post display loop w' result) (second : KeepsLex loop w' result) :
    KeepsLex loop w result := by
  intro same
  obtain ⟨outcome, w''⟩ := result
  have before : w.exits ≤ w'.exits := first_post.exits (.inl ⟨v, rfl⟩)
  have middle (goes_on : (∃ v, outcome = .val v) ∨ outcome = .next ∨ outcome = .last) :
      w''.exits = w'.exits ∧ w'.lex = w.lex := by
    have later : w'.exits ≤ w''.exits := second_post.exits goes_on
    have unchanged : w''.exits = w.exits := same
    have none_before : w'.exits = w.exits := by omega
    exact ⟨unchanged.trans none_before.symm, first none_before⟩
  cases outcome with
  | val u =>
      obtain ⟨rest, lex⟩ := middle (.inl ⟨u, rfl⟩)
      exact (second rest).trans lex
  | next =>
      obtain ⟨rest, lex⟩ := middle (.inr (.inl rfl))
      exact lex ▸ second rest
  | last =>
      obtain ⟨rest, lex⟩ := middle (.inr (.inr rfl))
      exact lex ▸ second rest
  | ret u | thrown | stop => trivial

theorem KeepsLex.andThen {result : Outcome × World ν}
    {continuation : Val → World ν → Outcome × World ν} (ready : Ready display loop w)
    (post : Post display loop w result) (kept : KeepsLex loop w result)
    (rest : ∀ v w', result = (.val v, w') → Ready display loop w' →
      Post display loop w' (continuation v w') ∧ KeepsLex loop w' (continuation v w')) :
    KeepsLex loop w (andThen result continuation) := by
  obtain ⟨outcome, w'⟩ := result
  cases outcome with
  | val v =>
      obtain ⟨later, keeps⟩ := rest v w' rfl (ready.next post)
      exact kept.after post later keeps
  | next | last | ret v | thrown | stop => exact kept

/-- A test followed by what each outcome leads to. -/
theorem KeepsLex.test {yes no : World ν → Outcome × World ν} (ready : Ready display loop w)
    (whenTrue : ∀ w', Ready display loop w' → KeepsLex loop w' (yes w'))
    (whenFalse : ∀ w', Ready display loop w' → KeepsLex loop w' (no w')) :
    KeepsLex loop w (match poneSo w with
      | none => (.stop, w)
      | some (true, w) => yes w
      | some (false, w) => no w) := by
  have moved {w' : World ν} {result : Outcome × World ν} (quiet : Quiet w w')
      (kept : KeepsLex loop w' result) : KeepsLex loop w result := by
    intro same
    have later := kept (same.trans quiet.exits.symm)
    rw [quiet.lex] at later
    exact later
  split
  · exact keepsLex_stop
  case h_2 w' tested =>
    have quiet := poneSo_quiet tested
    exact moved quiet (whenTrue w' (quiet.ready ready))
  case h_3 w' tested =>
    have quiet := poneSo_quiet tested
    exact moved quiet (whenFalse w' (quiet.ready ready))

/-! ## Scopes -/

/-- A scope whose body kept the lex is popped. -/
theorem KeepsLex.popScope {inner : Option Nat} {v : Val} {popped : World ν}
    (post : Post (w.lexCount :: display) inner w.pushScope (.val v, w'))
    (kept : KeepsLex inner w.pushScope (.val v, w')) (taken : w'.popScope = some popped)
    (result : Val) : KeepsLex loop w (.val result, popped) := by
  intro same
  obtain ⟨above, saved, linked, -, eq⟩ := popScope_eq taken
  rw [eq] at same ⊢
  have inside : w'.lex = w.lexCount := kept same
  have link : w'.parent w.lexCount = some w.lex := by
    rw [post.frame.parent w.lexCount (Nat.lt_succ_self _)]
    exact Function.update_self _ _ _
  rw [inside, link] at linked
  exact (Option.some.inj linked).symm

/-- `continue` and `break` in a scope that was pushed pop it first. -/
theorem ancestor_pushScope {depth : Nat} (frame : Extends w.pushScope w') :
    ancestor w'.parent (depth + 1) w.lexCount = ancestor w'.parent depth w.lex := by
  have link : w'.parent w.lexCount = some w.lex := by
    rw [frame.parent w.lexCount (Nat.lt_succ_self _)]
    exact Function.update_self _ _ _
  rw [ancestor, link, Option.bind_some]

/-- `continue` and `break` in a round that has a scope of its own. -/
theorem KeepsLex.leaveRound {outcome : Outcome} (leaves : outcome = .next ∨ outcome = .last)
    (post : Post (w.lexCount :: display) (some 1) w.pushScope (outcome, w'))
    (kept : KeepsLex (some 1) w.pushScope (outcome, w')) (v : Val) :
    KeepsLex loop w (.val v, w') := by
  intro same
  have popped : ∃ depth, some 1 = some depth ∧
      ancestor w'.parent depth w.lexCount = some w'.lex := by
    rcases leaves with rfl | rfl <;> exact kept same
  obtain ⟨depth, inside, found⟩ := popped
  obtain rfl := Option.some.inj inside
  rw [ancestor_pushScope post.frame] at found
  exact (Option.some.inj found).symm

/-- `continue` and `break` in a loop without a scope. -/
theorem KeepsLex.leaveLoop {outcome : Outcome} (leaves : outcome = .next ∨ outcome = .last)
    (kept : KeepsLex (some 0) w (outcome, w')) (v : Val) : KeepsLex loop w (.val v, w') := by
  intro same
  have popped : ∃ depth, some 0 = some depth ∧ ancestor w'.parent depth w.lex = some w'.lex := by
    rcases leaves with rfl | rfl <;> exact kept same
  obtain ⟨depth, inside, found⟩ := popped
  obtain rfl := Option.some.inj inside
  exact (Option.some.inj found).symm

/-- `continue` and `break` leave a scope inside a loop. -/
theorem KeepsLex.leaveScope {outcome : Outcome} (leaves : outcome = .next ∨ outcome = .last)
    (post : Post (w.lexCount :: display) (loop.map (· + 1)) w.pushScope (outcome, w'))
    (kept : KeepsLex (loop.map (· + 1)) w.pushScope (outcome, w')) :
    KeepsLex loop w (outcome, w') := by
  intro same
  have popped : ∃ depth, loop = some depth ∧ ancestor w'.parent depth w.lex = some w'.lex := by
    obtain ⟨inner, inside, found⟩ : ∃ inner, loop.map (· + 1) = some inner ∧
        ancestor w'.parent inner w.lexCount = some w'.lex := by
      rcases leaves with rfl | rfl <;> exact kept same
    obtain ⟨depth, outer, rfl⟩ := Option.map_eq_some_iff.mp inside
    exact ⟨depth, outer, ancestor_pushScope post.frame ▸ found⟩
  rcases leaves with rfl | rfl <;> exact popped

theorem popScopes_lex {pops : Nat} {popped : World ν} (taken : w.popScopes pops = some popped) :
    ancestor popped.parent pops w.lex = some popped.lex := by
  have kept : popped.parent = w.parent ∧ ancestor w.parent pops w.lex = some popped.lex := by
    induction pops generalizing w with
    | zero =>
        obtain rfl := Option.some.inj taken
        exact ⟨rfl, rfl⟩
    | succ pops ih =>
        obtain ⟨next, first, rest⟩ := Option.bind_eq_some_iff.mp taken
        obtain ⟨above, saved, linked, -, same⟩ := popScope_eq first
        obtain ⟨parent, found⟩ := ih rest
        rw [same] at parent found
        refine ⟨parent, ?_⟩
        rw [ancestor, linked]
        exact found
  rw [kept.1]
  exact kept.2

end Lex

section Operations

variable {ν : Type} {display : List Nat} {loop : Option Nat} {w : World ν}
  {run : List Nat → Cmd ν → World ν → Outcome × World ν}

/-- Executing the parts of a command keeps the lex. -/
def Keeps (run : List Nat → Cmd ν → World ν → Outcome × World ν) : Prop :=
  ∀ {display loop cmd w}, cmd.WellScoped display.length loop → Ready display loop w →
    KeepsLex loop w (run display cmd w)

theorem getLex_keepsLex [DecidableEq ν] (x : Name ν) : KeepsLex loop w (getLex x w) := by
  simp only [getLex]
  split
  case h_1 lex _ =>
    cases w.vars lex x with
    | none => exact keepsLex_stop
    | some v => exact (Quiet.refl w).keepsLex v
  case h_2 =>
    split
    case h_1 v allocs rest _ => exact (Quiet.set w rest w.tmpstack w.vars).keepsLex v
    case h_2 => exact keepsLex_thrown
    case h_3 => exact keepsLex_stop

/-- A function that falls off its end has popped its scope. -/
theorem runFunction_keepsLex (correct : Correct run) (keeps : Keeps run) {body : Cmd ν}
    (fits : body.WellScoped (display.length + 1) none) (ready : Ready display none w) :
    KeepsLex none w (runFunction run display body w) := by
  have pushed : Ready (w.lexCount :: display) none w.pushScope := ready.pushScope nofun
  have inner : Post (w.lexCount :: display) none w.pushScope
      (run (w.lexCount :: display) body w.pushScope) := correct fits pushed
  have kept : KeepsLex none w.pushScope (run (w.lexCount :: display) body w.pushScope) :=
    keeps fits pushed
  simp only [runFunction]
  generalize run (w.lexCount :: display) body w.pushScope = result at inner kept
  obtain ⟨outcome, left⟩ := result
  cases outcome with
  | val v =>
      simp only
      cases taken : left.popScope with
      | none => exact keepsLex_stop
      | some popped => exact kept.popScope inner taken .other
  | ret v =>
      have exited : w.exits < left.exits := inner.leaves.2
      exact fun same => absurd same (Nat.ne_of_gt exited)
  | next | last | thrown | stop => intro; trivial

/-- What is done with the value of a function that was called in some world. -/
theorem Called.keepsLex {entered : World ν} {result : Outcome × World ν}
    {continuation : Val → World ν → Outcome × World ν} (called : Called entered result)
    (returns : ∀ v left, result = (.val v, left) → KeepsLex loop w (continuation v left)) :
    KeepsLex loop w (andThen result continuation) := by
  obtain ⟨outcome, left⟩ := result
  cases outcome with
  | val v => exact returns v left rfl
  | thrown => exact keepsLex_thrown
  | stop => exact keepsLex_stop
  | next | last | ret v => exact called.leaves.elim

theorem codeVcall_keepsLex (correct : Correct run) (keeps : Keeps run)
    (ready : Ready display loop w) (id : Nat) : KeepsLex loop w (codeVcall run id w) := by
  simp only [codeVcall]
  cases found : w.codes[id]? with
  | none => exact keepsLex_stop
  | some code =>
      have fits := ready.sound.codes code (List.mem_of_getElem? found)
      simp only
      cases captured : code.lex with
      | some lex =>
          have entered := ready.sound.enterSub fits captured
          exact (runFunction_called correct fits.body entered).keepsLex fun _ _ _ _ => rfl
      | none =>
          have entered := ready.sound.enterMethod code.display
          refine (runFunction_called correct fits.body entered).keepsLex fun v left returned => ?_
          have kept := runFunction_keepsLex correct keeps fits.body entered
          rw [returned] at kept
          exact fun same => kept same

theorem native_keepsLex (correct : Correct run) (keeps : Keeps run) (ready : Ready display loop w) :
    KeepsLex loop w (native run display w) := by
  simp only [native]
  split
  case h_1 v allocs rest _ => exact (Quiet.set w rest (w.tmpstack + allocs) w.vars).keepsLex v
  case h_2 => exact keepsLex_thrown
  case h_3 id rest _ =>
    have quiet : Quiet w { w with choices := rest } := .set w rest w.tmpstack w.vars
    have chosen : Post display loop w (.val .other, { w with choices := rest }) := quiet.val ready
    have drawn := ready.next chosen
    have called := (codeVcall_post correct drawn id).1
    refine (quiet.keepsLex .other).after chosen (called.andThen drawn fun _ _ _ again =>
      correct trivial again) ?_
    exact (codeVcall_keepsLex correct keeps drawn id).andThen drawn called fun _ _ _ again =>
      ⟨correct trivial again, keeps trivial again⟩
  case h_4 => exact keepsLex_stop

theorem codeCall_keepsLex (correct : Correct run) (keeps : Keeps run)
    (ready : Ready display loop w) (code : Val) :
    KeepsLex loop w (codeCall run display code w) := by
  cases code with
  | code id => exact codeVcall_keepsLex correct keeps ready id
  | other => exact native_keepsLex correct keeps ready

/-- A caught exception counts as an exit. -/
theorem tryCode_keepsLex (correct : Correct run) (keeps : Keeps run) {between : Nat} {body : Cmd ν}
    (ready : Ready display loop w) (fits : body.WellScoped (display.length + between + 1) none) :
    KeepsLex loop w (tryCode run display between body w) := by
  have made : Post display loop w (.val .other, codeNew w (some w.lex) between body display) :=
    codeNew_post ready fits (fun scope same => (Option.some.inj same).symm) .other
  have called := codeVcall_post correct (ready.next made) w.codes.length
  have kept := codeVcall_keepsLex correct keeps (ready.next made) w.codes.length
  simp only [tryCode]
  generalize codeVcall run w.codes.length (codeNew w (some w.lex) between body display) = result
    at called kept
  obtain ⟨outcome, left⟩ := result
  cases outcome with
  | val v => exact fun same => kept same
  | thrown =>
      have grown : w.exits ≤ left.exits := called.1.leaves.exits
      exact fun same => absurd same (by simp only; omega)
  | next | last => exact kept
  | ret v | stop => intro; trivial

/-! ## Assignments -/

variable [DecidableEq ν]

theorem assignAt_outcome {up : Nat} {decl : Decl} {reader w' : World ν} {x : Name ν} {v : Val}
    {outcome : Outcome} (assigned : assignAt display up decl x v reader w = (outcome, w')) :
    outcome = .val v ∨ outcome = .stop := by
  simp only [assignAt] at assigned
  split at assigned
  · exact .inl (congrArg Prod.fst assigned).symm
  · exact .inr (congrArg Prod.fst assigned).symm

theorem assignAt_keepsLex {up : Nat} {decl : Decl} {reader : World ν} (x : Name ν) (v : Val) :
    KeepsLex loop w (assignAt display up decl x v reader w) := by
  simp only [assignAt]
  split
  · exact fun _ => rfl
  · exact keepsLex_stop

theorem assignAll_keepsLex {xs : List (Name ν)} (nonempty : 0 < display.length)
    (ready : Ready display loop w) : KeepsLex loop w (assignAll display xs w) := by
  induction xs generalizing w with
  | nil => exact (Quiet.refl w).keepsLex .other
  | cons x xs ih =>
      simp only [assignAll]
      split
      case h_1 v allocs rest _ =>
        have quiet : Quiet w { w with choices := rest } := .set w rest w.tmpstack w.vars
        have chosen : Post display loop w (.val v, { w with choices := rest }) := quiet.val ready
        have drawn := ready.next chosen
        have fits : Decl.declares.Fits display.length 0 := ⟨rfl, nonempty⟩
        have assigned := assignAt_post drawn fits x v ready.sound ready.chain
        refine (quiet.keepsLex v).after chosen
          (assigned.andThen drawn fun _ _ _ => assignAll_post nonempty) ?_
        exact (assignAt_keepsLex x v).andThen drawn assigned fun _ _ _ next_ready =>
          ⟨assignAll_post nonempty next_ready, ih next_ready⟩
      case h_2 => exact keepsLex_thrown
      case h_3 => exact keepsLex_stop

/-! ## Loops -/

omit [DecidableEq ν] in
theorem whileBody_keepsLex (correct : Correct run) (keeps : Keeps run) {cond body : Cmd ν}
    (cond_fits : cond.WellScoped display.length loop)
    (body_fits : body.WellScoped display.length (some 0)) (ready : Ready display loop w) :
    KeepsLex loop w (whileBody run display cond body w) := by
  have round : Ready display (some 0) w := ⟨ready.sound, ready.chain, fun depth same => by
    obtain rfl := Option.some.inj same
    exact Nat.zero_le _⟩
  have executed := correct body_fits round
  have kept := keeps body_fits round
  simp only [whileBody]
  generalize run display body w = result at executed kept
  obtain ⟨outcome, w₁⟩ := result
  have again (post : Post display loop w (.val .other, w₁))
      (kept : KeepsLex loop w (.val .other, w₁)) :
      KeepsLex loop w (run display (.whileLoop cond body) w₁) :=
    kept.after post (correct ⟨cond_fits, body_fits⟩ (ready.next post))
      (keeps ⟨cond_fits, body_fits⟩ (ready.next post))
  cases outcome with
  | val v => exact again ⟨executed.sound, executed.frame, executed.leaves⟩ fun same => kept same
  | next => exact again (executed.leaveLoop (.inl rfl) .other) (kept.leaveLoop (.inl rfl) .other)
  | last => exact kept.leaveLoop (.inr rfl) .other
  | ret v | thrown | stop => intro; trivial

/-- The body of a for loop, in the scope of its round. -/
theorem element_executed (correct : Correct run) (keeps : Keeps run) {body : Cmd ν} {v u : Val}
    {inside w₁ : World ν} (fits : body.WellScoped (display.length + 1) (some 1))
    (ready : Ready display loop w)
    (before : Post (w.lexCount :: display) none w.pushScope (.val v, inside))
    (kept : KeepsLex none w.pushScope (.val v, inside))
    (assigned : assignAt (w.lexCount :: display) 0 .declares .topic v inside inside =
      (.val u, w₁)) :
    Post (w.lexCount :: display) (some 1) w.pushScope (run (w.lexCount :: display) body w₁) ∧
      KeepsLex (some 1) w.pushScope (run (w.lexCount :: display) body w₁) := by
  have pushed : Ready (w.lexCount :: display) none w.pushScope := ready.pushScope nofun
  have topic : Decl.declares.Fits (w.lexCount :: display).length 0 := ⟨rfl, Nat.succ_pos _⟩
  have post := (pushed.next before).assignAt topic .topic v
  have lex : KeepsLex none inside
      (assignAt (w.lexCount :: display) 0 .declares .topic v inside inside) :=
    assignAt_keepsLex .topic v
  rw [assigned] at post lex
  have started : Post (w.lexCount :: display) (some 1) w.pushScope (.val u, w₁) :=
    (before.after pushed post).outside
  have started_lex : KeepsLex (some 1) w.pushScope (.val u, w₁) := fun same =>
    kept.after before post lex same
  have round : Ready (w.lexCount :: display) (some 1) w.pushScope :=
    ready.pushScope fun depth same => by
      obtain rfl := Option.some.inj same
      omega
  have executed : Post (w.lexCount :: display) (some 1) w₁ (run (w.lexCount :: display) body w₁) :=
    correct fits (round.next started)
  have executed_lex : KeepsLex (some 1) w₁ (run (w.lexCount :: display) body w₁) :=
    keeps fits (round.next started)
  exact ⟨started.after round executed, started_lex.after started executed executed_lex⟩

theorem forElement_keepsLex (correct : Correct run) (keeps : Keeps run) {body : Cmd ν} {v : Val}
    {inside : World ν} (fits : body.WellScoped (display.length + 1) (some 1))
    (ready : Ready display loop w)
    (before : Post (w.lexCount :: display) none w.pushScope (.val v, inside))
    (kept : KeepsLex none w.pushScope (.val v, inside)) :
    KeepsLex loop w (forElement run display (w.lexCount :: display) body v inside) := by
  simp only [forElement]
  cases assigned : assignAt (w.lexCount :: display) 0 .declares .topic v inside inside with
  | mk outcome w₁ =>
      cases outcome with
      | next | last =>
          rcases assignAt_outcome assigned with impossible | impossible <;> cases impossible
      | ret u | thrown | stop => intro; trivial
      | val u =>
          obtain ⟨executed, lex⟩ := element_executed correct keeps fits ready before kept assigned
          simp only [andThen]
          generalize run (w.lexCount :: display) body w₁ = result at executed lex
          obtain ⟨outcome, w₂⟩ := result
          have again {w₃ : World ν} (left : Post display loop w (.val .other, w₃))
              (kept : KeepsLex loop w (.val .other, w₃)) :
              KeepsLex loop w (run display (.forRounds body) w₃) :=
            kept.after left (correct fits (ready.next left)) (keeps fits (ready.next left))
          cases outcome with
          | val u =>
              simp only
              cases taken : w₂.popScope with
              | none => exact keepsLex_stop
              | some w₃ =>
                  exact again (executed.popScope taken .other) (lex.popScope executed taken .other)
          | next =>
              exact again (executed.leaveRound (.inl rfl) .other)
                (lex.leaveRound (.inl rfl) executed .other)
          | last => exact lex.leaveRound (.inr rfl) executed .other
          | ret u | thrown | stop => intro; trivial

theorem forRound_keepsLex (correct : Correct run) (keeps : Keeps run) {body : Cmd ν}
    (fits : body.WellScoped (display.length + 1) (some 1)) (ready : Ready display loop w) :
    KeepsLex loop w (forRound run display body w) := by
  have pushed : Ready (w.lexCount :: display) none w.pushScope := ready.pushScope nofun
  have element := native_post correct pushed
  have lex := native_keepsLex correct keeps pushed
  simp only [forRound]
  generalize native run (w.lexCount :: display) w.pushScope = result at element lex
  obtain ⟨outcome, w₁⟩ := result
  cases outcome with
  | next | last =>
      obtain ⟨_, none_some, _⟩ := element.leaves
      cases none_some
  | ret v | thrown | stop => intro; trivial
  | val v =>
      have tested {truth : Bool} {w₂ : World ν} (test : poneSo w₁ = some (truth, w₂)) :
          Post (w.lexCount :: display) none w.pushScope (.val v, w₂) ∧
            KeepsLex none w.pushScope (.val v, w₂) := by
        have quiet := poneSo_quiet test
        have drawn := quiet.val (v := v) (pushed.next element)
        exact ⟨element.after pushed drawn, lex.after element drawn (quiet.keepsLex v)⟩
      simp only [andThen]
      split
      · exact keepsLex_stop
      case h_2 w₂ test =>
        exact forElement_keepsLex correct keeps fits ready (tested test).1 (tested test).2
      case h_3 w₂ test =>
        have exits : w.exits ≤ w₂.exits := (tested test).1.exits (.inl ⟨v, rfl⟩)
        exact fun same => absurd same (by simp only; omega)

theorem inScope_keepsLex (correct : Correct run) (keeps : Keeps run) {body : Cmd ν}
    (fits : body.WellScoped (display.length + 1) (loop.map (· + 1)))
    (ready : Ready display loop w) :
    KeepsLex loop w (execCmd run display (.inScope body) w) := by
  have pushed : Ready (w.lexCount :: display) (loop.map (· + 1)) w.pushScope := by
    refine ready.pushScope fun depth inside => ?_
    obtain ⟨outer, same, rfl⟩ := Option.map_eq_some_iff.mp inside
    exact Nat.succ_le_succ (ready.room outer same)
  have executed : Post (w.lexCount :: display) (loop.map (· + 1)) w.pushScope
      (run (w.lexCount :: display) body w.pushScope) := correct fits pushed
  have lex : KeepsLex (loop.map (· + 1)) w.pushScope
      (run (w.lexCount :: display) body w.pushScope) := keeps fits pushed
  simp only [execCmd]
  generalize run (w.lexCount :: display) body w.pushScope = result at executed lex
  obtain ⟨outcome, w₁⟩ := result
  cases outcome with
  | val v =>
      simp only
      cases taken : w₁.popScope with
      | none => exact keepsLex_stop
      | some popped => exact lex.popScope executed taken .other
  | next => exact lex.leaveScope (.inl rfl) executed
  | last => exact lex.leaveScope (.inr rfl) executed
  | ret v | thrown | stop => intro; trivial

/-! ## Commands -/

/-- Both invariants. -/
def Tidy (display : List Nat) (loop : Option Nat) (w : World ν) (result : Outcome × World ν) :
    Prop :=
  Post display loop w result ∧ KeepsLex loop w result

omit [DecidableEq ν] in
theorem Tidy.after {v : Val} {w' : World ν} {result : Outcome × World ν}
    (ready : Ready display loop w) (first : Tidy display loop w (.val v, w'))
    (second : Tidy display loop w' result) : Tidy display loop w result :=
  ⟨first.1.after ready second.1, first.2.after first.1 second.1 second.2⟩

omit [DecidableEq ν] in
theorem Tidy.andThen {result : Outcome × World ν}
    {continuation : Val → World ν → Outcome × World ν} (ready : Ready display loop w)
    (first : Tidy display loop w result)
    (rest : ∀ v w', Ready display loop w' → Tidy display loop w' (continuation v w')) :
    Tidy display loop w (andThen result continuation) :=
  ⟨first.1.andThen ready fun v w' _ ready' => (rest v w' ready').1,
    first.2.andThen ready first.1 fun v w' _ ready' => rest v w' ready'⟩

omit [DecidableEq ν] in
theorem Tidy.test {yes no : World ν → Outcome × World ν} (ready : Ready display loop w)
    (whenTrue : ∀ w', Ready display loop w' → Tidy display loop w' (yes w'))
    (whenFalse : ∀ w', Ready display loop w' → Tidy display loop w' (no w')) :
    Tidy display loop w (match poneSo w with
      | none => (.stop, w)
      | some (true, w) => yes w
      | some (false, w) => no w) :=
  ⟨.test ready (fun w' ready' => (whenTrue w' ready').1) fun w' ready' => (whenFalse w' ready').1,
    .test ready (fun w' ready' => (whenTrue w' ready').2) fun w' ready' => (whenFalse w' ready').2⟩

omit [DecidableEq ν] in
/-- The value does not matter, nor the loop that a command which came to its end was in. -/
theorem Tidy.ended {inner : Option Nat} {v u : Val} {w' : World ν}
    (tidy : Tidy display inner w (.val v, w')) : Tidy display loop w (.val u, w') :=
  ⟨⟨tidy.1.sound, tidy.1.frame, tidy.1.leaves⟩, fun same => tidy.2 same⟩

omit [DecidableEq ν] in
theorem Quiet.tidy {w' : World ν} (quiet : Quiet w w') (ready : Ready display loop w) (v : Val) :
    Tidy display loop w (.val v, w') :=
  ⟨quiet.val ready, quiet.keepsLex v⟩

theorem execCmd_keeps (correct : Correct run) (keeps : Keeps run) : Keeps (execCmd run) := by
  intro display loop cmd w fits ready
  have tidy {cmd : Cmd ν} {w : World ν} (fits : cmd.WellScoped display.length loop)
      (ready : Ready display loop w) : Tidy display loop w (run display cmd w) :=
    ⟨correct fits ready, keeps fits ready⟩
  have native_tidy {w : World ν} (ready : Ready display loop w) :
      Tidy display loop w (native run display w) :=
    ⟨native_post correct ready, native_keepsLex correct keeps ready⟩
  cases cmd with
  | atom => exact (Quiet.refl w).keepsLex .other
  | native => exact native_keepsLex correct keeps ready
  | getLex x => exact getLex_keepsLex x
  | assign up decl x rhs =>
      refine (Tidy.andThen ready (tidy fits.2 ready) fun v w' ready' => ?_).2
      exact ⟨ready'.assignAt fits.1 x v, assignAt_keepsLex x v⟩
  | assignList xs rhs =>
      refine (Tidy.andThen ready (tidy fits.2 ready) fun v w' ready' => ?_).2
      exact ⟨assignAll_post fits.1 ready', assignAll_keepsLex fits.1 ready'⟩
  | inplace up decl x rhs =>
      refine (Tidy.andThen ready (tidy fits.2 ready) fun _ w' evaluated => ?_).2
      refine .andThen evaluated ⟨getLex_post evaluated x, getLex_keepsLex x⟩ fun _ reader read => ?_
      have computed := native_post correct read
      have assigned : ∀ v written, native run display reader = (.val v, written) →
          Ready display loop written →
          Tidy display loop written (assignAt display up decl x v reader written) := by
        intro v written same ready'
        have in_scope : InScope reader written display := by
          rw [same] at computed
          exact computed.leaves.1
        exact ⟨assignAt_post ready' fits.1 x v read.sound fun placed =>
          read.chain (in_scope placed).1, assignAt_keepsLex x v⟩
      exact ⟨computed.andThen read fun v written same ready' => (assigned v written same ready').1,
        (native_keepsLex correct keeps read).andThen read computed assigned⟩
  | logicalOp id left right =>
      refine (Tidy.andThen ready (tidy fits.1 ready) fun v w' evaluated => ?_).2
      have bound : Quiet w' (w'.bind w'.lex (.logical id) v) := .set w' w'.choices w'.tmpstack _
      refine (bound.tidy evaluated v).after evaluated ?_
      refine .test (bound.ready evaluated)
        (fun _ tested => ⟨getLex_post tested _, getLex_keepsLex _⟩) fun _ tested => ?_
      refine .andThen tested (tidy fits.2 tested) fun v w' evaluated => ?_
      have bound : Quiet w' (w'.bind w'.lex (.logical id) v) := .set w' w'.choices w'.tmpstack _
      exact (bound.tidy evaluated v).after evaluated
        ⟨getLex_post (bound.ready evaluated) _, getLex_keepsLex _⟩
  | codeCall code args =>
      refine (Tidy.andThen ready (tidy fits.1 ready) fun code w' found => ?_).2
      refine .andThen found (tidy fits.2 found) fun _ w'' evaluated => ?_
      exact ⟨codeCall_post correct evaluated code, codeCall_keepsLex correct keeps evaluated code⟩
  | codeNew between body => exact fun _ => rfl
  | addMethod body => exact fun _ => rfl
  | tryCode between body => exact tryCode_keepsLex correct keeps ready fits
  | inScope body => exact inScope_keepsLex correct keeps fits ready
  | branch cond yes no =>
      refine (Tidy.andThen ready (tidy fits.1 ready) fun _ w' evaluated => ?_).2
      exact .test evaluated (fun _ => tidy fits.2.1) fun _ => tidy fits.2.2
  | forLoop iter body =>
      refine (Tidy.andThen ready (tidy fits.1 ready) fun _ w' evaluated => ?_).2
      exact .andThen evaluated (native_tidy evaluated) fun _ _ => tidy fits.2
  | forRounds body => exact forRound_keepsLex correct keeps fits ready
  | whileLoop cond body =>
      refine (Tidy.andThen ready (tidy fits.1 ready) fun _ w' evaluated => ?_).2
      refine .test evaluated (fun w'' tested => ?_) fun w'' tested => (Quiet.refl w'').tidy tested _
      exact ⟨whileBody_post correct fits.1 fits.2 tested,
        whileBody_keepsLex correct keeps fits.1 fits.2 tested⟩
  | ret e =>
      have executed : KeepsLex loop w (run display e w) := keeps fits ready
      simp only [execCmd]
      generalize run display e w = result at executed
      obtain ⟨outcome, left⟩ := result
      cases outcome with
      | val v => intro; trivial
      | next | last | ret v | thrown | stop => exact executed
  | next pops | last pops =>
      obtain rfl := fits
      simp only [execCmd]
      cases taken : w.popScopes pops with
      | none => exact keepsLex_stop
      | some popped => exact fun _ => ⟨pops, rfl, popScopes_lex taken⟩
  | arity =>
      exact KeepsLex.test ready (fun w' _ => (Quiet.refl w').keepsLex .other) fun _ _ => keepsLex_thrown
  | param x default =>
      have topic : Decl.declares.Fits display.length 0 := ⟨rfl, fits.1⟩
      have drawn (rest : List Choice) : Quiet w { w with choices := rest } :=
        .set w rest w.tmpstack w.vars
      simp only [execCmd]
      split
      case h_1 v allocs rest _ =>
        have ready' := (drawn rest).ready ready
        exact (((drawn rest).tidy ready v).after ready
          ⟨ready'.assignAt topic x v, assignAt_keepsLex x v⟩).2
      case h_2 rest _ =>
        have ready' := (drawn rest).ready ready
        refine (((drawn rest).tidy ready .other).after ready
          (.andThen ready' (tidy fits.2 ready') fun v _ evaluated => ?_)).2
        exact ⟨evaluated.assignAt topic x v, assignAt_keepsLex x v⟩
      case h_3 => exact keepsLex_stop
  | seq first second =>
      exact (Tidy.andThen ready (tidy fits.1 ready) fun _ _ => tidy fits.2).2

theorem exec_keeps (fuel : Nat) :
    Keeps (exec fuel : List Nat → Cmd ν → World ν → Outcome × World ν) := by
  induction fuel with
  | zero => exact fun _ _ => keepsLex_stop
  | succ fuel ih => exact execCmd_keeps (exec_correct fuel) ih

end Operations

end Compile
end Pone
