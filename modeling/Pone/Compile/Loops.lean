import Pone.Compile.Tidy

/-!
# Loops leave the scope as they found it

For every loop of every execution of a compiled program, `world->lex` and the height of the
savestack after the loop are those before it, and those at the head of each round are those at the
head of the first one, exactly where no scope was left without being popped in between: by a for
loop that ran out, a return statement or a caught exception.

The loops of an execution are found from its start: a command executes a part where it could not get
past it, so that it would stop if the part did.
-/

namespace Pone
namespace Compile

section Rounds

variable {ν : Type} {w w' : World ν}

/-- The worlds at the heads of the rounds of a loop, from the first one on. -/
def rounds (next : Nat → World ν → Option (World ν)) : Nat → World ν → List (World ν)
  | 0, w => [w]
  | fuel + 1, w => w :: (next fuel w).elim [] (rounds next fuel)

theorem rounds_forall {next : Nat → World ν → Option (World ν)} {holds : World ν → Prop}
    (step : ∀ fuel w w', holds w → next fuel w = some w' → holds w') {fuel : Nat} (first : holds w) :
    ∀ head ∈ rounds next fuel w, holds head := by
  induction fuel generalizing w with
  | zero =>
      intro head member
      obtain rfl := List.mem_singleton.mp member
      exact first
  | succ fuel ih =>
      intro head member
      rcases List.mem_cons.mp member with rfl | later
      · exact first
      · cases found : next fuel w with
        | none =>
            rw [found] at later
            cases later
        | some w' =>
            rw [found] at later
            exact ih (step fuel w w' first found) head later

theorem rounds_eq (next : Nat → World ν → Option (World ν)) (fuel : Nat) (w : World ν) :
    ∃ rest, rounds next fuel w = w :: rest := by
  cases fuel with
  | zero => exact ⟨[], rfl⟩
  | succ fuel => exact ⟨_, rfl⟩

variable [DecidableEq ν]

/-- The world at the head of the next round of a while loop. -/
def whileNext (run : List Nat → Cmd ν → World ν → Outcome × World ν) (display : List Nat)
    (cond body : Cmd ν) (w : World ν) : Option (World ν) :=
  match run display cond w with
  | (.val _, w) =>
      match poneSo w with
      | some (true, w) =>
          match run display body w with
          | (.val _, w) | (.next, w) => some w
          | _ => none
      | _ => none
  | _ => none

/-- What follows the topic in a round of a for loop, up to the head of the next round. -/
def elementNext (run : List Nat → Cmd ν → World ν → Outcome × World ν) (inner : List Nat)
    (body : Cmd ν) (w : World ν) : Option (World ν) :=
  match run inner body w with
  | (.val _, w) => w.popScope
  | (.next, w) => some w
  | _ => none

/-- The world at the head of the next round of a for loop. -/
def forNext (run : List Nat → Cmd ν → World ν → Outcome × World ν) (display : List Nat)
    (body : Cmd ν) (w : World ν) : Option (World ν) :=
  let inner := w.lexCount :: display
  match native run inner w.pushScope with
  | (.val v, w) =>
      match poneSo w with
      | some (true, w) =>
          match assignAt inner 0 .declares .topic v w w with
          | (.val _, w) => elementNext run inner body w
          | _ => none
      | _ => none
  | _ => none

/-- The world at the head of the first round of a for loop. -/
def forFirst (run : List Nat → Cmd ν → World ν → Outcome × World ν) (display : List Nat)
    (iter : Cmd ν) (w : World ν) : Option (World ν) :=
  match run display iter w with
  | (.val _, w) =>
      match native run display w with
      | (.val _, w) => some w
      | _ => none
  | _ => none

/-- The heads of the rounds of a loop that is executed with some fuel. -/
def heads : Nat → List Nat → Cmd ν → World ν → List (World ν)
  | fuel + 1, display, .forLoop iter body, w =>
      (forFirst (exec fuel) display iter w).elim []
        (rounds (fun fuel => forNext (exec fuel) display body) fuel)
  | fuel + 1, display, .whileLoop cond body, w =>
      rounds (fun fuel => whileNext (exec fuel) display cond body) (fuel + 1) w
  | _, _, _, _ => []

variable {display : List Nat} {loop : Option Nat}
  {run : List Nat → Cmd ν → World ν → Outcome × World ν}

/-! ## What the heads of rounds are -/

theorem forFirst_eq {iter body : Cmd ν} (first : forFirst run display iter w = some w') :
    execCmd run display (.forLoop iter body) w = run display (.forRounds body) w' := by
  simp only [forFirst] at first
  simp only [execCmd]
  generalize run display iter w = evaluated at first ⊢
  obtain ⟨outcome, w₁⟩ := evaluated
  cases outcome with
  | val v =>
      simp only [andThen] at first ⊢
      generalize native run display w₁ = made at first ⊢
      obtain ⟨outcome, w₂⟩ := made
      cases outcome with
      | val u =>
          obtain rfl := Option.some.inj first
          rfl
      | next | last | ret v | thrown | stop => cases first
  | next | last | ret v | thrown | stop => cases first

omit [DecidableEq ν] in
theorem elementNext_eq {inner : List Nat} {body : Cmd ν}
    (next : elementNext run inner body w = some w') :
    (match run inner body w with
      | (.val _, w) => w.popScope.elim (.stop, w) fun w => run display (.forRounds body) w
      | (.next, w) => run display (.forRounds body) w
      | (.last, w) => (.val .other, w)
      | other => other) = run display (.forRounds body) w' := by
  simp only [elementNext] at next
  split at next
  case h_1 v w₁ executed =>
    simp only [executed, next]
    rfl
  case h_2 w₁ executed =>
    obtain rfl := Option.some.inj next
    simp only [executed]
  case h_3 => cases next

theorem forNext_eq {body : Cmd ν} (next : forNext run display body w = some w') :
    execCmd run display (.forRounds body) w = run display (.forRounds body) w' := by
  simp only [forNext] at next
  simp only [execCmd, forRound]
  split at next
  case h_1 v w₁ pulled =>
    simp only [pulled, andThen]
    split at next
    case h_1 w₂ tested =>
      simp only [tested, forElement]
      split at next
      case h_1 u w₃ assigned =>
        simp only [assigned, andThen]
        exact elementNext_eq next
      case h_2 => cases next
    case h_2 => cases next
  case h_2 => cases next

theorem whileNext_eq {cond body : Cmd ν} (next : whileNext run display cond body w = some w') :
    execCmd run display (.whileLoop cond body) w = run display (.whileLoop cond body) w' := by
  simp only [whileNext] at next
  simp only [execCmd, whileRound]
  split at next
  case h_1 v w₁ evaluated =>
    simp only [evaluated, andThen]
    split at next
    case h_1 w₂ tested =>
      simp only [tested, whileBody]
      split at next
      case h_1 u w₃ executed =>
        obtain rfl := Option.some.inj next
        simp only [executed]
      case h_2 w₃ executed =>
        obtain rfl := Option.some.inj next
        simp only [executed]
      case h_3 => cases next
    case h_2 => cases next
  case h_2 => cases next

/-! ## What lies between the heads -/

omit [DecidableEq ν] in
theorem forFirst_tidy (correct : Correct run) (keeps : Keeps run) {iter : Cmd ν}
    (fits : iter.WellScoped display.length loop) (ready : Ready display loop w)
    (first : forFirst run display iter w = some w') : Tidy display loop w (.val .other, w') := by
  have evaluated : Tidy display loop w (run display iter w) := ⟨correct fits ready, keeps fits ready⟩
  simp only [forFirst] at first
  split at first
  case h_1 v w₁ found =>
    rw [found] at evaluated
    have ready₁ := ready.next evaluated.1
    have made : Tidy display loop w₁ (native run display w₁) :=
      ⟨native_post correct ready₁, native_keepsLex correct keeps ready₁⟩
    split at first
    case h_1 u w₂ found =>
      obtain rfl := Option.some.inj first
      rw [found] at made
      exact (evaluated.after ready made).ended
    case h_2 => cases first
  case h_2 => cases first

omit [DecidableEq ν] in
theorem whileNext_tidy (correct : Correct run) (keeps : Keeps run) {cond body : Cmd ν}
    (cond_fits : cond.WellScoped display.length loop)
    (body_fits : body.WellScoped display.length (some 0)) (ready : Ready display loop w)
    (next : whileNext run display cond body w = some w') :
    Tidy display loop w (.val .other, w') := by
  have evaluated : Tidy display loop w (run display cond w) :=
    ⟨correct cond_fits ready, keeps cond_fits ready⟩
  simp only [whileNext] at next
  split at next
  case h_1 v w₁ found =>
    rw [found] at evaluated
    have ready₁ := ready.next evaluated.1
    split at next
    case h_1 w₂ tested =>
      have quiet := poneSo_quiet tested
      have ready₂ := quiet.ready ready₁
      have round : Ready display (some 0) w₂ := ⟨ready₂.sound, ready₂.chain, fun depth same => by
        obtain rfl := Option.some.inj same
        exact Nat.zero_le _⟩
      have executed : Tidy display (some 0) w₂ (run display body w₂) :=
        ⟨correct body_fits round, keeps body_fits round⟩
      have whole {v : Val} {w₃ : World ν} (last : Tidy display loop w₂ (.val v, w₃)) :
          Tidy display loop w (.val .other, w₃) :=
        (evaluated.after ready ((quiet.tidy ready₁ .other).after ready₁ last)).ended
      split at next
      case h_1 u w₃ found =>
        obtain rfl := Option.some.inj next
        rw [found] at executed
        have ended : Tidy display loop w₂ (.val u, w₃) := executed.ended
        exact whole ended
      case h_2 w₃ found =>
        obtain rfl := Option.some.inj next
        rw [found] at executed
        exact whole ⟨executed.1.leaveLoop (.inl rfl) .other, executed.2.leaveLoop (.inl rfl) .other⟩
      case h_3 => cases next
    case h_2 => cases next
  case h_2 => cases next

theorem forNext_tidy (correct : Correct run) (keeps : Keeps run) {body : Cmd ν}
    (fits : body.WellScoped (display.length + 1) (some 1)) (ready : Ready display loop w)
    (next : forNext run display body w = some w') : Tidy display loop w (.val .other, w') := by
  have pushed : Ready (w.lexCount :: display) none w.pushScope := ready.pushScope nofun
  have pulled : Tidy (w.lexCount :: display) none w.pushScope
      (native run (w.lexCount :: display) w.pushScope) :=
    ⟨native_post correct pushed, native_keepsLex correct keeps pushed⟩
  simp only [forNext] at next
  split at next
  case h_1 v w₁ found =>
    rw [found] at pulled
    have ready₁ := pushed.next pulled.1
    split at next
    case h_1 w₂ tested =>
      have before := pulled.after pushed ((poneSo_quiet tested).tidy ready₁ v)
      split at next
      case h_1 u w₃ assigned =>
        obtain ⟨executed, lex⟩ :=
          element_executed correct keeps fits ready before.1 before.2 assigned
        simp only [elementNext] at next
        split at next
        case h_1 u w₄ found =>
          rw [found] at executed lex
          exact ⟨executed.popScope next .other, lex.popScope executed next .other⟩
        case h_2 w₄ found =>
          obtain rfl := Option.some.inj next
          rw [found] at executed lex
          exact ⟨executed.leaveRound (.inl rfl) .other, lex.leaveRound (.inl rfl) executed .other⟩
        case h_3 => cases next
      case h_2 => cases next
    case h_2 => cases next
  case h_2 => cases next

/-- Between the first head of a loop and any later one. -/
theorem heads_tidy {fuel : Nat} {cmd : Cmd ν} (fits : cmd.WellScoped display.length loop)
    (ready : Ready display loop w) {first : World ν} {later : List (World ν)}
    (all : heads fuel display cmd w = first :: later) :
    ∀ head ∈ later, Tidy display loop first (.val .other, head) := by
  have along {next : Nat → World ν → Option (World ν)} {fuel : Nat} {first : World ν}
      (ready : Ready display loop first)
      (step : ∀ fuel w w', Ready display loop w → next fuel w = some w' →
        Tidy display loop w (.val .other, w')) :
      ∀ head ∈ rounds next fuel first, Tidy display loop first (.val .other, head) :=
    rounds_forall (fun fuel w w' before found =>
      before.after ready (step fuel w w' (ready.next before.1) found))
      ((Quiet.refl first).tidy ready .other)
  have later_of {next : Nat → World ν → Option (World ν)} {fuel : Nat} {start : World ν}
      (same : rounds next fuel start = first :: later) (ready : Ready display loop start)
      (step : ∀ fuel w w', Ready display loop w → next fuel w = some w' →
        Tidy display loop w (.val .other, w')) :
      ∀ head ∈ later, Tidy display loop first (.val .other, head) := by
    obtain ⟨rest, split⟩ := rounds_eq next fuel start
    obtain ⟨rfl, -⟩ := List.cons.inj (split.symm.trans same)
    intro head member
    exact along ready step head (same ▸ List.mem_cons_of_mem _ member)
  cases fuel with
  | zero => cases all
  | succ fuel =>
      cases cmd with
      | forLoop iter body =>
          simp only [heads] at all
          cases found : forFirst (exec fuel) display iter w with
          | none =>
              rw [found] at all
              cases all
          | some start =>
              rw [found] at all
              have before := forFirst_tidy (exec_correct fuel) (exec_keeps fuel) fits.1 ready found
              refine later_of all (ready.next before.1) fun fuel w w' ready' next => ?_
              exact forNext_tidy (exec_correct fuel) (exec_keeps fuel) fits.2 ready' next
      | whileLoop cond body =>
          refine later_of all ready fun fuel w w' ready' next => ?_
          exact whileNext_tidy (exec_correct fuel) (exec_keeps fuel) fits.1 fits.2 ready' next
      | _ => cases all

end Rounds

section Parts

variable {ν : Type} [DecidableEq ν]

/-- A point of an execution: a command is about to be executed. -/
structure Point (ν : Type) where
  display : List Nat
  cmd : Cmd ν
  world : World ν

/-- What an execution makes of a point. -/
def Point.result (run : List Nat → Cmd ν → World ν → Outcome × World ν) (point : Point ν) :
    Outcome × World ν :=
  run point.display point.cmd point.world

/-- Executing a command executes a part: if the part, and nothing else, were to stop in some world,
the command would stop in that world. -/
def Executes (run : List Nat → Cmd ν → World ν → Outcome × World ν) (whole part : Point ν) : Prop :=
  ∀ stopping found, part.result stopping = (.stop, found) →
    (∀ other ≠ part, other.result stopping = other.result run) →
    whole.result (execCmd stopping) = (.stop, found)

/-- An execution with some fuel comes to a point with the fuel that is left there. -/
inductive Reaches : Nat → Point ν → Nat → Point ν → Prop
  | refl (fuel : Nat) (point : Point ν) : Reaches fuel point fuel point
  | part {fuel rest : Nat} {point whole part : Point ν} (reached : Reaches fuel point (rest + 1) whole)
      (executes : Executes (exec rest) whole part) : Reaches fuel point rest part

/-- The invariant of all points: the command is well scoped and may be executed. -/
def Point.Fits (point : Point ν) : Prop :=
  ∃ loop, point.cmd.WellScoped point.display.length loop ∧ Ready point.display loop point.world

/-- A part that does not fit could stop in a world that is not sound. -/
theorem Executes.fits {run : List Nat → Cmd ν → World ν → Outcome × World ν} {whole part : Point ν}
    (executes : Executes run whole part) (correct : Correct run) (fits : whole.Fits) :
    part.Fits := by
  classical
  obtain ⟨loop, cmd_fits, ready⟩ := fits
  let broken : World ν := { part.world with lexCount := 0 }
  let stopping (display : List Nat) (cmd : Cmd ν) (w : World ν) : Outcome × World ν :=
    if (⟨display, cmd, w⟩ : Point ν) = part then (.stop, broken) else run display cmd w
  have stops : whole.result (execCmd stopping) = (.stop, broken) :=
    executes stopping broken (if_pos rfl) fun other different => if_neg different
  by_contra misfit
  have stopping_correct : Correct stopping := by
    intro display loop cmd w cmd_fits ready
    have different : (⟨display, cmd, w⟩ : Point ν) ≠ part := by
      rintro rfl
      exact misfit ⟨loop, cmd_fits, ready⟩
    simp only [stopping, if_neg different]
    exact correct cmd_fits ready
  have post : Post whole.display loop whole.world (whole.result (execCmd stopping)) :=
    execCmd_correct stopping_correct cmd_fits ready
  rw [stops] at post
  exact Nat.not_lt_zero _ post.sound.lex

theorem Reaches.fits {fuel rest : Nat} {point reached : Point ν}
    (reaches : Reaches fuel point rest reached) (fits : point.Fits) : reached.Fits := by
  induction reaches with
  | refl => exact fits
  | part _ executes ih => exact executes.fits (exec_correct _) (ih fits)

theorem executes_first {run : List Nat → Cmd ν → World ν → Outcome × World ν} {display : List Nat}
    {first second : Cmd ν} {w : World ν} :
    Executes run ⟨display, .seq first second, w⟩ ⟨display, first, w⟩ := by
  intro stopping found stopped _
  have same : stopping display first w = (.stop, found) := stopped
  simp only [Point.result, execCmd, same, andThen]

theorem executes_body {run : List Nat → Cmd ν → World ν → Outcome × World ν} {display : List Nat}
    {body : Cmd ν} {w : World ν} :
    Executes run ⟨display, .inScope body, w⟩ ⟨w.lexCount :: display, body, w.pushScope⟩ := by
  intro stopping found stopped _
  have same : stopping (w.lexCount :: display) body w.pushScope = (.stop, found) := stopped
  simp only [Point.result, execCmd, same]

end Parts

section Loops

variable {ν : Type} [DecidableEq ν]

/-- `world->lex` is the same and the savestack as high. -/
def SameScope (w w' : World ν) : Prop :=
  w'.lex = w.lex ∧ w'.savestack.length = w.savestack.length

omit [DecidableEq ν] in
theorem Tidy.sameScope_iff {display : List Nat} {loop : Option Nat} {w w' : World ν} {v : Val}
    (tidy : Tidy display loop w (.val v, w')) : SameScope w w' ↔ w'.exits = w.exits := by
  have height : w'.savestack.length = w.savestack.length ↔ w'.exits = w.exits :=
    tidy.1.leaves.2.height
  exact ⟨fun same => height.mp same.2, fun clean => ⟨tidy.2 clean, height.mpr clean⟩⟩

/-- The point at which a program starts. -/
def startPoint (cmd : Cmd ν) (tmpstack : Nat) (choices : List Choice) : Point ν :=
  ⟨[0], cmd, start tmpstack choices⟩

/-- A loop that an execution reaches, as any command, leaves the scope as it found it exactly where
no exit was counted while it ran, and a round begins in the scope of the first one exactly where none
was counted since. -/
theorem loops_restore_iff (program : Node ν) {cmd : Cmd ν}
    (compiled : compileProgram program = some cmd) (tmpstack : Nat) (choices : List Choice)
    {fuel rest : Nat} {loop : Point ν}
    (reaches : Reaches fuel (startPoint cmd tmpstack choices) rest loop) :
    (∀ v w', loop.result (exec rest) = (.val v, w') →
      (SameScope loop.world w' ↔ w'.exits = loop.world.exits)) ∧
    ∀ first later, heads rest loop.display loop.cmd loop.world = first :: later →
      ∀ head ∈ later, SameScope first head ↔ head.exits = first.exits := by
  have fits : (startPoint cmd tmpstack choices).Fits :=
    ⟨none, compileProgram_wellScoped compiled, start_ready tmpstack choices⟩
  obtain ⟨inside, cmd_fits, ready⟩ := reaches.fits fits
  refine ⟨fun v w' ended => ?_, fun first later all head member => ?_⟩
  · have tidy : Tidy loop.display inside loop.world (loop.result (exec rest)) :=
      ⟨exec_correct rest cmd_fits ready, exec_keeps rest cmd_fits ready⟩
    rw [ended] at tidy
    exact tidy.sameScope_iff
  · exact (heads_tidy cmd_fits ready all head member).sameScope_iff

end Loops

instance {ν : Type} (w w' : World ν) : Decidable (SameScope w w') :=
  inferInstanceAs (Decidable (_ ∧ _))

/-- `{ for … { if … { next }; last } }`. -/
def nextThenLast : Node Char :=
  .statements (.block (.statements (.forLoop .atom (.block (.statements
    (.ifThen .atom (.block (.statements .next .done)) .done) (.statements .last .done)))) .done))
  .done

def twoElements : List Choice :=
  [.value .other 1, .value .other 1, .holds true, .holds true, .value .other 1, .holds true,
    .holds false]

theorem loops_restore_iff_nextThenLast :
    ∃ cmd loop, compileProgram nextThenLast = some cmd ∧
      Reaches 30 (startPoint cmd 0 twoElements) 27 loop ∧
      (loop.result (exec 27)).1 = .val .other ∧
      SameScope loop.world (loop.result (exec 27)).2 ∧
      ∃ first second, heads 27 loop.display loop.cmd loop.world = [first, second] ∧
        SameScope first second := by
  refine ⟨_, _, rfl, .part (.part (.part (.refl 30 _) executes_first) executes_body)
    executes_first, by decide, ?_, _, _, rfl, ?_⟩
  · exact ((loops_restore_iff nextThenLast rfl 0 twoElements (.part (.part (.part (.refl 30 _)
      executes_first) executes_body) executes_first)).1 .other _ rfl).mpr (by decide)
  · exact ((loops_restore_iff nextThenLast rfl 0 twoElements (.part (.part (.part (.refl 30 _)
      executes_first) executes_body) executes_first)).2 _ _ rfl _
      (List.mem_singleton_self _)).mpr (by decide)

/-- `for [] { }`. -/
def forNothing : Node Char := .statements (.forLoop .atom (.block .done)) .done

/-- A for loop that runs out leaves the scope of its last round on the savestack and in
`world->lex`. -/
theorem forNothing_leaks :
    ∃ cmd loop, compileProgram forNothing = some cmd ∧
      Reaches 30 (startPoint cmd 0 [.value .other 1, .value .other 0, .holds false]) 29 loop ∧
      (∃ iter body, loop.cmd = .forLoop iter body) ∧
      (loop.result (exec 29)).1 = .val .other ∧
      loop.world.lex = 0 ∧ (loop.result (exec 29)).2.lex = 1 ∧
      loop.world.savestack.length = 0 ∧ (loop.result (exec 29)).2.savestack.length = 1 := by
  refine ⟨_, _, rfl, .part (.refl 30 _) executes_first, ⟨_, _, rfl⟩, ?_⟩
  decide

end Compile
end Pone
