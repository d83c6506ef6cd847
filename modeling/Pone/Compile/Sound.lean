import Pone.Compile.Discipline

/-!
# Every execution keeps the discipline

One lemma for each operation of the runtime and for each kind of loop, under the assumption that
`run` executes the parts of a command correctly; `exec_correct` ties the knot by induction on the
fuel.
-/

namespace Pone
namespace Compile

open ScopeChain

section Sound

variable {ν : Type} {display : List Nat} {loop : Option Nat} {w : World ν}

/-! ## Variables -/

theorem getLex_post (ready : Ready display loop w) (x : Name ν) :
    Post display loop w (getLex x w) := by
  simp only [getLex]
  split
  case h_1 lex found =>
    cases w.vars lex x with
    | none => exact (Quiet.refl w).stop ready
    | some v => exact (Quiet.refl w).val ready
  case h_2 =>
    split
    case h_1 v allocs rest _ => exact (Quiet.set w rest w.tmpstack w.vars).val ready
    case h_2 rest _ => exact (Quiet.set w rest w.tmpstack w.vars).thrown ready
    case h_3 => exact (Quiet.refl w).stop ready

/-- In the scopes of the display, the walk of `pone_get_lex` is a search in the display. -/
theorem findBinding_eq {x : Name ν} (sound : w.Sound)
    (chain : IsChain w.parent (some w.lex) display) :
    w.findBinding x = display.find? (w.holds x) := by
  refine chain.nearest_eq (chain.bounded sound.older fun scope same => ?_).2
  obtain rfl := Option.some.inj same
  exact sound.lex

/-- A search that passes over scopes without the name ends at the one that has it. -/
private theorem find?_clear {test : Nat → Bool} {level : Nat}
    (inside : (display.take level).all (fun scope => !test scope) = true)
    (declared : display[level]?.any test = true) : display.find? test = display[level]? := by
  induction display generalizing level with
  | nil => simp at declared
  | cons scope scopes ih =>
      cases level with
      | zero =>
          have here : test scope = true := by simpa using declared
          simp [here]
      | succ level =>
          simp only [List.take_succ_cons, List.all_cons, Bool.and_eq_true] at inside
          have missing : test scope = false := by simpa using inside.1
          rw [List.find?_cons, missing, List.getElem?_cons_succ]
          exact ih inside.2 (by simpa using declared)

private theorem recorded_sound {write : Write} (sound : w.Sound)
    (regular : write.Regular → write.Resolved) :
    ({ w with writes := write :: w.writes } : World ν).Sound := by
  refine sound.update rfl rfl rfl sound.lex (fun other member => ?_) sound.returns
  rcases List.mem_cons.mp member with rfl | member
  · exact regular
  · exact sound.writes other member

/-- The write that `pone_assign` makes is resolved where it is regular. -/
theorem assignAt_resolved {up : Nat} {decl : Decl} {x : Name ν} {reader written : World ν}
    {target : Nat} (fits : decl.Fits display.length up)
    (chain : IsChain w.parent (some w.lex) display) (reader_sound : reader.Sound)
    (reader_chain : IsChain reader.parent (some reader.lex) display)
    (found : ancestor w.parent up w.lex = some target)
    (variable_ : decl.isParameter = false) (clear : decl.clear display x reader = true)
    (written_sound : written.Sound) (written_chain : IsChain written.parent (some written.lex) display)
    (holds : written.holds x target = true) :
    display[decl.level]? = some target ∧
      (decl.readIn reader written).findBinding x = some target := by
  cases decl with
  | declares =>
      obtain ⟨rfl, nonempty⟩ := fits
      rw [chain.ancestor_eq nonempty] at found
      refine ⟨found, ?_⟩
      rw [Decl.readIn, findBinding_eq written_sound written_chain]
      cases display with
      | nil => cases nonempty
      | cons scope scopes =>
          obtain rfl : scope = target := by simpa using found
          rw [List.find?_cons, holds]
  | outer level parameter =>
      obtain ⟨bound, exact_⟩ := fits
      obtain rfl := exact_ variable_
      rw [chain.ancestor_eq bound] at found
      refine ⟨found, ?_⟩
      simp only [Decl.clear, Bool.and_eq_true] at clear
      rw [Decl.readIn, findBinding_eq reader_sound reader_chain, find?_clear clear.1 clear.2, found]

/-! ## Calls -/

/-- Executing the parts of a command keeps the discipline. -/
def Correct (run : List Nat → Cmd ν → World ν → Outcome × World ν) : Prop :=
  ∀ {display loop cmd w}, cmd.WellScoped display.length loop → Ready display loop w →
    Post display loop w (run display cmd w)

variable {run : List Nat → Cmd ν → World ν → Outcome × World ν}

theorem Popped.balanced {w' : World ν} (popped : Popped 0 w w') : (Return.of w w').Balanced := by
  refine ⟨popped.height, fun clean => ?_⟩
  exact (popped.kept.eq_of_length (popped.height.mpr clean).symm).symm

/-- What a printed function guarantees, however it is left. -/
structure Called (w : World ν) (result : Outcome × World ν) : Prop where
  sound : result.2.Sound
  frame : Extends w result.2
  leaves : match result.1 with
    | .val _ => Popped 0 w result.2
    | .thrown => Grown w result.2 ∧ w.savestack.length < result.2.savestack.length
    | .stop => True
    | _ => False

theorem runFunction_called (correct : Correct run) {body : Cmd ν}
    (fits : body.WellScoped (display.length + 1) none) (ready : Ready display none w) :
    Called w (runFunction run display body w) := by
  have inner : Post (w.lexCount :: display) none w.pushScope
      (run (w.lexCount :: display) body w.pushScope) := correct fits (ready.pushScope nofun)
  have frame := (pushScope_frame w).trans inner.frame
  simp only [runFunction]
  generalize run (w.lexCount :: display) body w.pushScope = result at inner frame
  obtain ⟨outcome, left⟩ := result
  cases outcome with
  | val v =>
      simp only
      cases taken : left.popScope with
      | none => exact ⟨inner.sound, frame, trivial⟩
      | some popped =>
          have post : Post display none w (.val .other, popped) := inner.popScope taken .other
          exact ⟨post.sound, post.frame, post.leaves.2⟩
  | ret v =>
      obtain ⟨grown, exited⟩ : Grown w.pushScope left ∧ w.exits < left.exits := inner.leaves
      obtain ⟨kept, higher⟩ := grown.pushScope
      have popped : Popped 0 w left := ⟨kept.kept, kept.exits, by omega⟩
      exact ⟨inner.sound, frame, popped⟩
  | thrown => exact ⟨inner.sound, frame, Grown.pushScope inner.leaves⟩
  | next | last | stop => exact ⟨inner.sound, frame, trivial⟩

/-- The caller goes on after a call, in the scopes that the given lex is in. -/
theorem returned_post {left : World ν} {lex : Nat} {displaced : Bool} (sound : left.Sound)
    (frame : Extends w left) (popped : Popped 0 w left) (bound : lex < left.lexCount)
    (placed : displaced = false →
      w.displaced = false ∧ IsChain left.parent (some lex) display)
    (v : Val) (tmpstack : Nat) :
    Post display loop w (.val v, { left with
      lex := lex, displaced := displaced, tmpstack := tmpstack
      returns := .of w left :: left.returns }) where
  sound := by
    refine sound.update rfl rfl rfl bound sound.writes fun ret member => ?_
    rcases List.mem_cons.mp member with rfl | member
    · exact popped.balanced
    · exact sound.returns ret member
  frame := ⟨frame.lexCount, frame.parent⟩
  leaves := ⟨placed, popped.kept, popped.exits, popped.height⟩

/-- A code value with a lex is entered in that lex. -/
theorem World.Sound.enterSub {code : Code ν} {lex : Nat} (sound : w.Sound) (fits : code.Sound w)
    (captured : code.lex = some lex) : Ready code.display none
      { w with lex := lex, displaced := code.displaced, tmpstack := w.tmpstack + 5 } where
  sound := sound.update rfl rfl rfl (fits.lex lex captured).1 sound.writes sound.returns
  chain := (fits.lex lex captured).2
  room := nofun

/-- A method is entered in the lex of its caller. -/
theorem World.Sound.enterMethod (sound : w.Sound) (display : List Nat) : Ready display none
    { w with displaced := true, tmpstack := w.tmpstack + 4 } where
  sound := sound.update rfl rfl rfl sound.lex sound.writes sound.returns
  chain := nofun
  room := nofun

/-- A function that is called in `w` leaves `w` as a caller needs it, and a throw out of it has left
a scope on the savestack. -/
theorem codeVcall_post (correct : Correct run) (ready : Ready display loop w) (id : Nat) :
    Post display loop w (codeVcall run id w) ∧
      ((codeVcall run id w).1 = .thrown →
        w.savestack.length < (codeVcall run id w).2.savestack.length) := by
  simp only [codeVcall]
  cases found : w.codes[id]? with
  | none => exact ⟨(Quiet.refl w).stop ready, nofun⟩
  | some code =>
      have fits := ready.sound.codes code (List.mem_of_getElem? found)
      simp only
      cases captured : code.lex with
      | some lex =>
          have called := runFunction_called correct fits.body (ready.sound.enterSub fits captured)
          simp only
          generalize runFunction run code.display code.body _ = result at called
          obtain ⟨outcome, left⟩ := result
          have frame : Extends w left := ⟨called.frame.lexCount, called.frame.parent⟩
          cases outcome with
          | val v =>
              obtain ⟨kept, exits, height⟩ := called.leaves
              refine ⟨returned_post called.sound frame ⟨kept, exits, height⟩
                (Nat.lt_of_lt_of_le ready.sound.lex frame.lexCount) (fun placed => ?_) v _, nofun⟩
              exact ⟨placed, frame.chain ready.sound ready.sound.lex (ready.chain placed)⟩
          | thrown =>
              obtain ⟨⟨kept, exits⟩, higher⟩ := called.leaves
              exact ⟨⟨called.sound, frame, kept, exits⟩, fun _ => higher⟩
          | stop => exact ⟨⟨called.sound, frame, trivial⟩, nofun⟩
          | next | last | ret v => exact called.leaves.elim
      | none =>
          have called := runFunction_called correct fits.body (ready.sound.enterMethod code.display)
          simp only
          generalize runFunction run code.display code.body _ = result at called
          obtain ⟨outcome, left⟩ := result
          have frame : Extends w left := ⟨called.frame.lexCount, called.frame.parent⟩
          cases outcome with
          | val v =>
              obtain ⟨kept, exits, height⟩ := called.leaves
              refine ⟨returned_post called.sound frame ⟨kept, exits, height⟩
                called.sound.lex (fun placed => ?_) v _, nofun⟩
              simp only [Bool.or_eq_false_iff, bne_eq_false_iff_eq] at placed
              rw [placed.2]
              exact ⟨placed.1, frame.chain ready.sound ready.sound.lex (ready.chain placed.1)⟩
          | thrown =>
              obtain ⟨⟨kept, exits⟩, higher⟩ := called.leaves
              exact ⟨⟨called.sound, frame, kept, exits⟩, fun _ => higher⟩
          | stop => exact ⟨⟨called.sound, frame, trivial⟩, nofun⟩
          | next | last | ret v => exact called.leaves.elim

theorem native_post (correct : Correct run) (ready : Ready display loop w) :
    Post display loop w (native run display w) := by
  simp only [native]
  split
  case h_1 v allocs rest _ => exact (Quiet.set w rest (w.tmpstack + allocs) w.vars).val ready
  case h_2 rest _ => exact (Quiet.set w rest w.tmpstack w.vars).thrown ready
  case h_3 id rest _ =>
    have quiet : Quiet w { w with choices := rest } := .set w rest w.tmpstack w.vars
    have chosen : Post display loop w (.val .other, { w with choices := rest }) := quiet.val ready
    refine chosen.after ready ?_
    exact (codeVcall_post correct (ready.next chosen) id).1.andThen (ready.next chosen)
      fun _ _ _ rest_ready => correct trivial rest_ready
  case h_4 => exact (Quiet.refl w).stop ready

theorem codeCall_post (correct : Correct run) (ready : Ready display loop w) (code : Val) :
    Post display loop w (codeCall run display code w) := by
  cases code with
  | code id => exact (codeVcall_post correct ready id).1
  | other => exact native_post correct ready

theorem codeNew_post {lex : Option Nat} {between : Nat} {body : Cmd ν} (ready : Ready display loop w)
    (fits : body.WellScoped (display.length + between + 1) none)
    (captured : ∀ scope, lex = some scope → scope = w.lex) (v : Val) :
    Post display loop w (.val v, codeNew w lex between body display) where
  sound := by
    refine ⟨ready.sound.lex, ready.sound.older, fun code member => ?_, ready.sound.writes,
      ready.sound.returns⟩
    rcases List.mem_append.mp member with old | new
    · exact ⟨(ready.sound.codes code old).body, (ready.sound.codes code old).lex⟩
    · obtain rfl := List.mem_singleton.mp new
      refine ⟨?_, fun scope same => ?_⟩
      · rwa [List.length_append, List.length_replicate, Nat.add_comm between]
      · obtain rfl := captured scope same
        refine ⟨ready.sound.lex, fun placed => ?_⟩
        obtain ⟨here, own⟩ := Bool.or_eq_false_iff.mp placed
        obtain rfl : between = 0 := by simpa using own
        exact ready.chain here
  frame := ⟨Nat.le_refl _, fun _ _ => rfl⟩
  leaves := ⟨fun placed => ⟨placed, ready.chain placed⟩,
    ⟨List.suffix_rfl, Nat.le_refl _, Iff.intro (fun _ => rfl) fun _ => rfl⟩⟩

theorem tryCode_post (correct : Correct run) {between : Nat} {body : Cmd ν}
    (ready : Ready display loop w) (fits : body.WellScoped (display.length + between + 1) none) :
    Post display loop w (tryCode run display between body w) := by
  have made : Post display loop w (.val .other, codeNew w (some w.lex) between body display) :=
    codeNew_post ready fits (fun scope same => (Option.some.inj same).symm) .other
  obtain ⟨called, higher⟩ := codeVcall_post correct (ready.next made) w.codes.length
  have whole := made.after ready called
  simp only [tryCode]
  generalize codeVcall run w.codes.length _ = result at called higher whole
  obtain ⟨outcome, left⟩ := result
  have sound : left.Sound := whole.sound
  have frame : Extends w left := whole.frame
  cases outcome with
  | val v =>
      obtain ⟨in_scope, popped⟩ : InScope w left display ∧ Popped 0 w left := whole.leaves
      exact returned_post sound frame popped sound.lex in_scope v left.tmpstack
  | thrown =>
      obtain ⟨kept, exits⟩ : Grown w left := whole.leaves
      have above : w.savestack.length < left.savestack.length := higher rfl
      let caught : World ν := { left with exits := left.exits + 1 }
      have caught_sound : caught.Sound :=
        sound.update rfl rfl rfl sound.lex sound.writes sound.returns
      have popped : Popped 0 w caught := by
        refine ⟨kept, Nat.le_succ_of_le exits, ?_⟩
        simp only [caught]
        omega
      exact returned_post caught_sound ⟨frame.lexCount, frame.parent⟩ popped
        (Nat.lt_of_lt_of_le ready.sound.lex frame.lexCount)
        (fun placed => ⟨placed, frame.chain ready.sound ready.sound.lex (ready.chain placed)⟩)
        .other left.tmpstack
  | next | last | ret v | stop => exact whole

theorem whileBody_post (correct : Correct run) {cond body : Cmd ν}
    (cond_fits : cond.WellScoped display.length loop)
    (body_fits : body.WellScoped display.length (some 0)) (ready : Ready display loop w) :
    Post display loop w (whileBody run display cond body w) := by
  have round : Ready display (some 0) w := ⟨ready.sound, ready.chain, fun depth same => by
    obtain rfl := Option.some.inj same
    exact Nat.zero_le _⟩
  have executed := correct body_fits round
  simp only [whileBody]
  generalize run display body w = result at executed
  obtain ⟨outcome, w₁⟩ := result
  have again (left : Post display loop w (.val .other, w₁)) :
      Post display loop w (run display (.whileLoop cond body) w₁) :=
    left.after ready (correct ⟨cond_fits, body_fits⟩ (ready.next left))
  cases outcome with
  | val v => exact again ⟨executed.sound, executed.frame, executed.leaves⟩
  | next => exact again (executed.leaveLoop (.inl rfl) .other)
  | last => exact executed.leaveLoop (.inr rfl) .other
  | ret v | thrown | stop => exact ⟨executed.sound, executed.frame, executed.leaves⟩

/-! ## Assignments -/

variable [DecidableEq ν]

theorem assignAt_post {up : Nat} {decl : Decl} {reader : World ν} (ready : Ready display loop w)
    (fits : decl.Fits display.length up) (x : Name ν) (v : Val) (reader_sound : reader.Sound)
    (reader_chain : w.displaced = false → IsChain reader.parent (some reader.lex) display) :
    Post display loop w (assignAt display up decl x v reader w) := by
  simp only [assignAt]
  split
  case h_1 target found =>
    have binding : Quiet w (w.bind target x v) := .set w w.choices w.tmpstack _
    refine ⟨recorded_sound (binding.sound ready.sound) fun regular => ?_,
      ⟨Nat.le_refl _, fun _ _ => rfl⟩, fun placed => ⟨placed, ready.chain placed⟩,
      ⟨List.suffix_rfl, Nat.le_refl _, Iff.intro (fun _ => rfl) fun _ => rfl⟩⟩
    have chain := ready.chain regular.placed
    obtain ⟨declared, read⟩ := assignAt_resolved fits chain reader_sound
      (reader_chain regular.placed) found regular.notParameter regular.clear
      (binding.sound ready.sound) chain (by simp [World.holds, World.bind])
    exact ⟨target, rfl, declared, read⟩
  case h_2 missing =>
    refine ⟨recorded_sound ready.sound fun regular => ?_, ⟨Nat.le_refl _, fun _ _ => rfl⟩, trivial⟩
    have chain := ready.chain regular.placed
    have bound : up < display.length := by
      cases decl with
      | declares => exact fits.1 ▸ fits.2
      | outer level parameter => exact fits.2 regular.notParameter ▸ fits.1
    rw [chain.ancestor_eq bound, List.getElem?_eq_getElem bound] at missing
    cases missing

theorem Ready.assignAt {up : Nat} {decl : Decl} (ready : Ready display loop w)
    (fits : decl.Fits display.length up) (x : Name ν) (v : Val) :
    Post display loop w (assignAt display up decl x v w w) :=
  assignAt_post ready fits x v ready.sound ready.chain

theorem assignAll_post {xs : List (Name ν)} (nonempty : 0 < display.length)
    (ready : Ready display loop w) : Post display loop w (assignAll display xs w) := by
  induction xs generalizing w with
  | nil => exact (Quiet.refl w).val ready
  | cons x xs ih =>
      simp only [assignAll]
      split
      case h_1 v allocs rest _ =>
        have quiet : Quiet w { w with choices := rest } := .set w rest w.tmpstack w.vars
        have chosen : Post display loop w (.val v, { w with choices := rest }) := quiet.val ready
        have drawn := ready.next chosen
        have fits : Decl.declares.Fits display.length 0 := ⟨rfl, nonempty⟩
        have assigned := assignAt_post drawn fits x v ready.sound ready.chain
        exact chosen.after ready (assigned.andThen drawn fun _ _ _ => ih)
      case h_2 rest _ => exact (Quiet.set w rest w.tmpstack w.vars).thrown ready
      case h_3 => exact (Quiet.refl w).stop ready

/-! ## Loops -/

theorem forElement_post (correct : Correct run) {body : Cmd ν} {v : Val} {inside : World ν}
    (fits : body.WellScoped (display.length + 1) (some 1)) (ready : Ready display loop w)
    (before : Post (w.lexCount :: display) none w.pushScope (.val v, inside)) :
    Post display loop w (forElement run display (w.lexCount :: display) body v inside) := by
  have pushed : Ready (w.lexCount :: display) none w.pushScope := ready.pushScope nofun
  have topic : Decl.declares.Fits (w.lexCount :: display).length 0 := ⟨rfl, Nat.succ_pos _⟩
  have assigned := before.after pushed ((pushed.next before).assignAt topic .topic v)
  simp only [forElement]
  generalize assignAt (w.lexCount :: display) 0 .declares .topic v inside inside = result at assigned
  obtain ⟨outcome, w₁⟩ := result
  cases outcome with
  | next | last =>
      obtain ⟨_, none_some, _⟩ := assigned.leaves
      cases none_some
  | ret v => exact assigned.escape (.inl ⟨v, rfl⟩)
  | thrown => exact assigned.escape (.inr (.inl rfl))
  | stop => exact assigned.escape (.inr (.inr rfl))
  | val v =>
      have round : Ready (w.lexCount :: display) (some 1) w.pushScope :=
        ready.pushScope fun depth same => by
          obtain rfl := Option.some.inj same
          omega
      have started : Post (w.lexCount :: display) (some 1) w.pushScope (.val v, w₁) :=
        assigned.outside
      have executed := started.after round (correct fits (round.next started))
      simp only [andThen]
      generalize run (w.lexCount :: display) body w₁ = result at executed
      obtain ⟨outcome, w₂⟩ := result
      have again {w₃ : World ν} (left : Post display loop w (.val .other, w₃)) :
          Post display loop w (run display (.forRounds body) w₃) :=
        left.after ready (correct fits (ready.next left))
      cases outcome with
      | val v =>
          simp only
          cases taken : w₂.popScope with
          | none => exact ⟨executed.sound, (pushScope_frame w).trans executed.frame, trivial⟩
          | some w₃ => exact again (executed.popScope taken .other)
      | next => exact again (executed.leaveRound (.inl rfl) .other)
      | last => exact executed.leaveRound (.inr rfl) .other
      | ret v => exact executed.escape (.inl ⟨v, rfl⟩)
      | thrown => exact executed.escape (.inr (.inl rfl))
      | stop => exact executed.escape (.inr (.inr rfl))

theorem forRound_post (correct : Correct run) {body : Cmd ν}
    (fits : body.WellScoped (display.length + 1) (some 1)) (ready : Ready display loop w) :
    Post display loop w (forRound run display body w) := by
  have pushed : Ready (w.lexCount :: display) none w.pushScope := ready.pushScope nofun
  have element := native_post correct pushed
  simp only [forRound]
  generalize native run (w.lexCount :: display) w.pushScope = result at element
  obtain ⟨outcome, w₁⟩ := result
  cases outcome with
  | next | last =>
      obtain ⟨_, none_some, _⟩ := element.leaves
      cases none_some
  | ret v => exact element.escape (.inl ⟨v, rfl⟩)
  | thrown => exact element.escape (.inr (.inl rfl))
  | stop => exact element.escape (.inr (.inr rfl))
  | val v =>
      have tested {truth : Bool} {w₂ : World ν} (test : poneSo w₁ = some (truth, w₂)) :
          Post (w.lexCount :: display) none w.pushScope (.val v, w₂) :=
        element.after pushed ((poneSo_quiet test).val (pushed.next element))
      simp only [andThen]
      split
      · exact ⟨element.sound, (pushScope_frame w).trans element.frame, trivial⟩
      case h_2 w₂ test => exact forElement_post correct fits ready (tested test)
      case h_3 w₂ test =>
        have post := tested test
        have sound : w₂.Sound := post.sound
        have frame : Extends w w₂ := (pushScope_frame w).trans post.frame
        obtain ⟨-, stack⟩ : InScope w.pushScope w₂ _ ∧ Popped 0 w.pushScope w₂ := post.leaves
        obtain ⟨grown, higher⟩ := stack.grown.pushScope
        have exits : w.exits ≤ w₂.exits := grown.exits
        refine ⟨sound.update rfl rfl rfl sound.lex sound.writes sound.returns,
          ⟨frame.lexCount, frame.parent⟩, nofun, grown.kept, Nat.le_succ_of_le exits, ?_⟩
        simp only
        omega

theorem inScope_post (correct : Correct run) {body : Cmd ν}
    (fits : body.WellScoped (display.length + 1) (loop.map (· + 1)))
    (ready : Ready display loop w) :
    Post display loop w (execCmd run display (.inScope body) w) := by
  have pushed : Ready (w.lexCount :: display) (loop.map (· + 1)) w.pushScope := by
    refine ready.pushScope fun depth inside => ?_
    obtain ⟨outer, same, rfl⟩ := Option.map_eq_some_iff.mp inside
    exact Nat.succ_le_succ (ready.room outer same)
  have executed : Post (w.lexCount :: display) (loop.map (· + 1)) w.pushScope
      (run (w.lexCount :: display) body w.pushScope) := correct fits pushed
  simp only [execCmd]
  generalize run (w.lexCount :: display) body w.pushScope = result at executed
  obtain ⟨outcome, w₁⟩ := result
  cases outcome with
  | val v =>
      simp only
      cases taken : w₁.popScope with
      | none => exact ⟨executed.sound, (pushScope_frame w).trans executed.frame, trivial⟩
      | some popped => exact executed.popScope taken .other
  | next => exact executed.leaveScope (.inl rfl)
  | last => exact executed.leaveScope (.inr rfl)
  | ret v => exact executed.escape (.inl ⟨v, rfl⟩)
  | thrown => exact executed.escape (.inr (.inl rfl))
  | stop => exact executed.escape (.inr (.inr rfl))

/-! ## Commands -/

theorem execCmd_correct (correct : Correct run) : Correct (execCmd run) := by
  intro display loop cmd w fits ready
  cases cmd with
  | atom => exact (Quiet.refl w).val ready
  | native => exact native_post correct ready
  | getLex x => exact getLex_post ready x
  | assign up decl x rhs =>
      refine (correct fits.2 ready).andThen ready fun v w' _ ready' => ?_
      exact ready'.assignAt fits.1 x v
  | assignList xs rhs =>
      exact (correct fits.2 ready).andThen ready fun _ _ _ ready' => assignAll_post fits.1 ready'
  | inplace up decl x rhs =>
      refine (correct fits.2 ready).andThen ready fun _ _ _ evaluated => ?_
      refine (getLex_post evaluated x).andThen evaluated fun _ reader _ read => ?_
      have computed := native_post correct read
      refine computed.andThen read fun v written same ready' => ?_
      have in_scope : InScope reader written display := by
        rw [same] at computed
        exact computed.leaves.1
      exact assignAt_post ready' fits.1 x v read.sound fun placed => read.chain (in_scope placed).1
  | logicalOp id left right =>
      refine (correct fits.1 ready).andThen ready fun v w' _ evaluated => ?_
      have bound : Quiet w' (w'.bind w'.lex (.logical id) v) := .set w' w'.choices w'.tmpstack _
      refine Post.after evaluated (bound.val evaluated : Post display loop w' (.val v, _)) ?_
      refine Post.test (bound.ready evaluated) (fun _ tested => getLex_post tested _)
        fun _ tested => ?_
      refine (correct fits.2 tested).andThen tested fun v w' _ evaluated => ?_
      have bound : Quiet w' (w'.bind w'.lex (.logical id) v) := .set w' w'.choices w'.tmpstack _
      exact Post.after evaluated (bound.val evaluated : Post display loop w' (.val v, _))
        (getLex_post (bound.ready evaluated) _)
  | codeCall code args =>
      refine (correct fits.1 ready).andThen ready fun code _ _ found => ?_
      refine (correct fits.2 found).andThen found fun _ _ _ evaluated => ?_
      exact codeCall_post correct evaluated code
  | codeNew between body =>
      exact codeNew_post ready fits (fun scope same => (Option.some.inj same).symm) _
  | addMethod body =>
      exact codeNew_post ready fits (fun _ same => absurd same (Option.some_ne_none _).symm) _
  | tryCode between body => exact tryCode_post correct ready fits
  | inScope body => exact inScope_post correct fits ready
  | branch cond yes no =>
      refine (correct fits.1 ready).andThen ready fun _ _ _ evaluated => ?_
      exact Post.test evaluated (fun _ tested => correct fits.2.1 tested)
        fun _ tested => correct fits.2.2 tested
  | forLoop iter body =>
      refine (correct fits.1 ready).andThen ready fun _ _ _ evaluated => ?_
      refine (native_post correct evaluated).andThen evaluated fun _ _ _ begun => ?_
      exact correct fits.2 begun
  | forRounds body => exact forRound_post correct fits ready
  | whileLoop cond body =>
      refine (correct fits.1 ready).andThen ready fun _ _ _ evaluated => ?_
      exact Post.test evaluated (fun _ tested => whileBody_post correct fits.1 fits.2 tested)
        fun _ tested => (Quiet.refl _).val tested
  | ret e =>
      have executed : Post display loop w (run display e w) := correct fits ready
      refine executed.andThen ready fun v left _ evaluated => ?_
      have sound := evaluated.sound
      exact ⟨sound.update rfl rfl rfl sound.lex sound.writes sound.returns,
        ⟨Nat.le_refl _, fun _ _ => rfl⟩, ⟨List.suffix_rfl, Nat.le_succ _⟩, Nat.lt_succ_self _⟩
  | next pops | last pops =>
      obtain rfl := fits
      simp only [execCmd]
      cases taken : w.popScopes pops with
      | none => exact (Quiet.refl w).stop ready
      | some popped =>
          obtain ⟨sound, frame, in_scope, stack⟩ := popScopes_post ready taken
          exact ⟨sound, frame, pops, rfl, in_scope, stack⟩
  | arity =>
      exact Post.test ready (fun _ tested => (Quiet.refl _).val tested)
        fun _ tested => (Quiet.refl _).thrown tested
  | param x default =>
      have topic : Decl.declares.Fits display.length 0 := ⟨rfl, fits.1⟩
      have drawn (rest : List Choice) : Quiet w { w with choices := rest } :=
        .set w rest w.tmpstack w.vars
      simp only [execCmd]
      split
      case h_1 v allocs rest _ =>
        have chosen : Post display loop w (.val v, { w with choices := rest }) :=
          (drawn rest).val ready
        have ready' := ready.next chosen
        exact chosen.after ready (assignAt_post ready' topic x v ready.sound ready.chain)
      case h_2 rest _ =>
        have chosen : Post display loop w (.val .other, { w with choices := rest }) :=
          (drawn rest).val ready
        have ready' := ready.next chosen
        refine chosen.after ready ((correct fits.2 ready').andThen ready' ?_)
        exact fun v _ _ evaluated => evaluated.assignAt topic x v
      case h_3 => exact (Quiet.refl w).stop ready
  | seq first second =>
      exact (correct fits.1 ready).andThen ready fun _ _ _ executed => correct fits.2 executed

theorem exec_correct (fuel : Nat) : Correct (exec fuel : List Nat → Cmd ν → World ν → Outcome × World ν) := by
  induction fuel with
  | zero => exact fun _ ready => (Quiet.refl _).stop ready
  | succ fuel ih => exact execCmd_correct ih

end Sound

end Compile
end Pone
