import Pone.Compile.Exec
import Pone.Compile.Scopes

/-!
# What every command keeps

`Ready` is what a command may rely on where it starts and `Post` what it guarantees where it is left:
unless the world is displaced, the chain of `world->lex` is the display; the savestack has grown
exactly when an exit was counted.  Both speak about all worlds that can occur, the displaced ones
included, because displacement is local to an activation while the savestack is not.
-/

namespace Pone
namespace Compile

open ScopeChain

/-- The write is made where the source is, the name is not a parameter, and its declaration was
executed with no other scope in between that holds the name. -/
structure Write.Regular (write : Write) : Prop where
  placed : write.displaced = false
  notParameter : write.parameter = false
  clear : write.clear = true

/-- The write sets the binding of the innermost enclosing declaration, which is the one read. -/
def Write.Resolved (write : Write) : Prop :=
  ∃ scope, write.target = some scope ∧ write.declared = some scope ∧ write.read = some scope

/-- No exit was counted between the call and its return. -/
def Return.Clean (ret : Return) : Prop := ret.exitsAfter = ret.exitsBefore

/-- The savestack is as high as before exactly when there was no exit, and is then the same. -/
def Return.Balanced (ret : Return) : Prop :=
  (ret.after.length = ret.before.length ↔ ret.Clean) ∧ (ret.Clean → ret.after = ret.before)

section Invariants

variable {ν : Type} {display : List Nat} {loop : Option Nat} {w w' w'' : World ν}

/-- The body fits the display, and the captured lex heads it. -/
structure Code.Sound (w : World ν) (code : Code ν) : Prop where
  body : code.body.WellScoped (code.display.length + 1) none
  lex : ∀ lex, code.lex = some lex → lex < w.lexCount ∧
    (code.displaced = false → IsChain w.parent (some lex) code.display)

structure World.Sound (w : World ν) : Prop where
  lex : w.lex < w.lexCount
  older : ∀ scope above, w.parent scope = some above → above < scope
  codes : ∀ code ∈ w.codes, code.Sound w
  writes : ∀ write ∈ w.writes, write.Regular → write.Resolved
  returns : ∀ ret ∈ w.returns, ret.Balanced

structure Ready (display : List Nat) (loop : Option Nat) (w : World ν) : Prop where
  sound : w.Sound
  chain : w.displaced = false → IsChain w.parent (some w.lex) display
  room : ∀ depth, loop = some depth → depth ≤ w.savestack.length

/-- Lexes are never removed and their parents never change. -/
structure Extends (w w' : World ν) : Prop where
  lexCount : w.lexCount ≤ w'.lexCount
  parent : ∀ scope < w.lexCount, w'.parent scope = w.parent scope

/-- Unless displaced, the world is in the given scopes, and was not displaced before. -/
def InScope (w w' : World ν) (display : List Nat) : Prop :=
  w'.displaced = false → w.displaced = false ∧ IsChain w'.parent (some w'.lex) display

/-- The savestack was popped `depth` times, but for the exits. -/
structure Popped (depth : Nat) (w w' : World ν) : Prop where
  kept : w.savestack.drop depth <:+ w'.savestack
  exits : w.exits ≤ w'.exits
  height : w'.savestack.length + depth = w.savestack.length ↔ w'.exits = w.exits

structure Grown (w w' : World ν) : Prop where
  kept : w.savestack <:+ w'.savestack
  exits : w.exits ≤ w'.exits

def Leaves (display : List Nat) (loop : Option Nat) (w : World ν) : Outcome → World ν → Prop
  | .val _, w' => InScope w w' display ∧ Popped 0 w w'
  | .next, w' | .last, w' => ∃ depth, loop = some depth ∧
      InScope w w' (display.drop depth) ∧ Popped depth w w'
  | .ret _, w' => Grown w w' ∧ w.exits < w'.exits
  | .thrown, w' => Grown w w'
  | .stop, _ => True

structure Post (display : List Nat) (loop : Option Nat) (w : World ν)
    (result : Outcome × World ν) : Prop where
  sound : result.2.Sound
  frame : Extends w result.2
  leaves : Leaves display loop w result.1 result.2

theorem Extends.refl (w : World ν) : Extends w w := ⟨Nat.le_refl _, fun _ _ => rfl⟩

theorem Extends.trans (first : Extends w w') (second : Extends w' w'') : Extends w w'' where
  lexCount := Nat.le_trans first.lexCount second.lexCount
  parent scope bound := (second.parent scope (Nat.lt_of_lt_of_le bound first.lexCount)).trans
    (first.parent scope bound)

theorem Extends.chain (extension : Extends w w') (sound : w.Sound) {lex : Nat}
    (bound : lex < w.lexCount) (chain : IsChain w.parent (some lex) display) :
    IsChain w'.parent (some lex) display := by
  have members := (chain.bounded sound.older fun scope same => by
    obtain rfl := Option.some.inj same
    exact bound).1
  exact chain.congr fun scope member => extension.parent scope (members scope member)

theorem Extends.code {code : Code ν} (extension : Extends w w') (sound : w.Sound)
    (fits : code.Sound w) : code.Sound w' where
  body := fits.body
  lex lex captured := by
    obtain ⟨bound, chain⟩ := fits.lex lex captured
    refine ⟨Nat.lt_of_lt_of_le bound extension.lexCount, fun placed => ?_⟩
    exact extension.chain sound bound (chain placed)

/-- What soundness needs to know again after a change that leaves the lexes and the code values. -/
theorem World.Sound.update (sound : w.Sound) (parent : w'.parent = w.parent)
    (lexCount : w'.lexCount = w.lexCount) (codes : w'.codes = w.codes) (lex : w'.lex < w.lexCount)
    (writes : ∀ write ∈ w'.writes, write.Regular → write.Resolved)
    (returns : ∀ ret ∈ w'.returns, ret.Balanced) : w'.Sound where
  lex := lexCount ▸ lex
  older := by
    rw [parent]
    exact sound.older
  codes code member := by
    have frame : Extends w w' := ⟨Nat.le_of_eq lexCount.symm, fun _ _ => by rw [parent]⟩
    exact frame.code sound (sound.codes code (codes ▸ member))
  writes := writes
  returns := returns

theorem Popped.grown (popped : Popped 0 w w') : Grown w w' := ⟨popped.kept, popped.exits⟩

theorem Popped.length (popped : Popped 0 w w') :
    w.savestack.length ≤ w'.savestack.length := popped.kept.length_le

theorem Grown.trans (first : Grown w w') (second : Grown w' w'') : Grown w w'' :=
  ⟨first.kept.trans second.kept, Nat.le_trans first.exits second.exits⟩

theorem Popped.after {depth : Nat} (first : Popped 0 w w') (second : Popped depth w' w'')
    (room : depth ≤ w.savestack.length) : Popped depth w w'' := by
  obtain ⟨extra, same⟩ := first.kept
  rw [List.drop_zero] at same
  have suffix : w.savestack.drop depth <:+ w'.savestack.drop depth := by
    rw [← same]
    exact ⟨(extra ++ w.savestack.take depth).drop depth, by
      rw [← List.drop_append_of_le_length (by simp; omega), List.append_assoc,
        List.take_append_drop]⟩
  have kept := suffix.trans second.kept
  have shorter := first.length
  have above : w'.savestack.length - depth ≤ w''.savestack.length := by
    simpa using second.kept.length_le
  have first_exits := first.exits
  have second_exits := second.exits
  have first_height := first.height
  have second_height := second.height
  exact ⟨kept, by omega, by omega⟩

theorem Leaves.after {outcome : Outcome} (room : ∀ depth, loop = some depth →
    depth ≤ w.savestack.length) (in_scope : InScope w w' display) (popped : Popped 0 w w')
    (leaves : Leaves display loop w' outcome w'') : Leaves display loop w outcome w'' := by
  have scope {scopes : List Nat} (later : InScope w' w'' scopes) : InScope w w'' scopes :=
    fun placed => ⟨(in_scope (later placed).1).1, (later placed).2⟩
  cases outcome with
  | val v => exact ⟨scope leaves.1, popped.after leaves.2 (Nat.zero_le _)⟩
  | next | last =>
      obtain ⟨depth, inside, later, rest⟩ := leaves
      exact ⟨depth, inside, scope later, popped.after rest (room depth inside)⟩
  | ret v =>
      obtain ⟨grown, exited⟩ := leaves
      exact ⟨popped.grown.trans grown, Nat.lt_of_le_of_lt popped.exits exited⟩
  | thrown => exact popped.grown.trans leaves
  | stop => trivial

theorem Ready.next {v : Val} (ready : Ready display loop w)
    (post : Post display loop w (.val v, w')) : Ready display loop w' where
  sound := post.sound
  chain placed := (post.leaves.1 placed).2
  room depth inside := Nat.le_trans (ready.room depth inside) post.leaves.2.length

theorem Post.after {v : Val} {result : Outcome × World ν} (ready : Ready display loop w)
    (first : Post display loop w (.val v, w')) (second : Post display loop w' result) :
    Post display loop w result where
  sound := second.sound
  frame := first.frame.trans second.frame
  leaves := second.leaves.after ready.room first.leaves.1 first.leaves.2

theorem Post.andThen {result : Outcome × World ν}
    {continuation : Val → World ν → Outcome × World ν} (ready : Ready display loop w)
    (first : Post display loop w result)
    (rest : ∀ v w', result = (.val v, w') → Ready display loop w' →
      Post display loop w' (continuation v w')) :
    Post display loop w (andThen result continuation) := by
  obtain ⟨outcome, w'⟩ := result
  cases outcome with
  | val v => exact first.after ready (rest v w' rfl (ready.next first))
  | next | last | ret v | thrown | stop => exact first

/-- A command that leaves alone what the invariants speak about. -/
structure Quiet (w w' : World ν) : Prop where
  parent : w'.parent = w.parent
  lexCount : w'.lexCount = w.lexCount
  lex : w'.lex = w.lex
  savestack : w'.savestack = w.savestack
  codes : w'.codes = w.codes
  displaced : w'.displaced = w.displaced
  exits : w'.exits = w.exits
  writes : w'.writes = w.writes
  returns : w'.returns = w.returns

theorem Quiet.frame (quiet : Quiet w w') : Extends w w' where
  lexCount := Nat.le_of_eq quiet.lexCount.symm
  parent _ _ := by rw [quiet.parent]

theorem Quiet.sound (quiet : Quiet w w') (sound : w.Sound) : w'.Sound := by
  refine sound.update quiet.parent quiet.lexCount quiet.codes (quiet.lex ▸ sound.lex) ?_ ?_
  · rw [quiet.writes]
    exact sound.writes
  · rw [quiet.returns]
    exact sound.returns

theorem Quiet.popped (quiet : Quiet w w') : Popped 0 w w' where
  kept := by simp only [quiet.savestack, List.drop_zero, List.suffix_rfl]
  exits := Nat.le_of_eq quiet.exits.symm
  height := by simp [quiet.savestack, quiet.exits]

theorem Quiet.ready (quiet : Quiet w w') (ready : Ready display loop w) :
    Ready display loop w' where
  sound := quiet.sound ready.sound
  chain := by
    rw [quiet.displaced, quiet.parent, quiet.lex]
    exact ready.chain
  room := by
    rw [quiet.savestack]
    exact ready.room

theorem Quiet.val {v : Val} (quiet : Quiet w w') (ready : Ready display loop w) :
    Post display loop w (.val v, w') where
  sound := quiet.sound ready.sound
  frame := quiet.frame
  leaves := by
    refine ⟨fun placed => ⟨quiet.displaced ▸ placed, (quiet.ready ready).chain placed⟩, ?_⟩
    exact quiet.popped

theorem Quiet.thrown (quiet : Quiet w w') (ready : Ready display loop w) :
    Post display loop w (.thrown, w') where
  sound := quiet.sound ready.sound
  frame := quiet.frame
  leaves := quiet.popped.grown

theorem Quiet.stop (quiet : Quiet w w') (ready : Ready display loop w) :
    Post display loop w (.stop, w') where
  sound := quiet.sound ready.sound
  frame := quiet.frame
  leaves := trivial

theorem Quiet.refl (w : World ν) : Quiet w w := ⟨rfl, rfl, rfl, rfl, rfl, rfl, rfl, rfl, rfl⟩

/-- New choices, a new height of `tmpstack` and new bindings disturb nothing. -/
theorem Quiet.set (w : World ν) (choices : List Choice) (tmpstack : Nat)
    (vars : Nat → Name ν → Option Val) :
    Quiet w { w with choices := choices, tmpstack := tmpstack, vars := vars } :=
  ⟨rfl, rfl, rfl, rfl, rfl, rfl, rfl, rfl, rfl⟩

theorem poneSo_quiet {truth : Bool} (tested : poneSo w = some (truth, w')) : Quiet w w' := by
  simp only [poneSo] at tested
  split at tested
  · simp only [Option.some.injEq, Prod.mk.injEq] at tested
    obtain ⟨-, rfl⟩ := tested
    exact .set w _ w.tmpstack w.vars
  · cases tested

/-- A test followed by what each outcome leads to. -/
theorem Post.test {yes no : World ν → Outcome × World ν} (ready : Ready display loop w)
    (whenTrue : ∀ w', Ready display loop w' → Post display loop w' (yes w'))
    (whenFalse : ∀ w', Ready display loop w' → Post display loop w' (no w')) :
    Post display loop w (match poneSo w with
      | none => (.stop, w)
      | some (true, w) => yes w
      | some (false, w) => no w) := by
  have step {truth : Bool} {w' : World ν} (tested : poneSo w = some (truth, w')) :
      Post display loop w (.val .other, w') := (poneSo_quiet tested).val ready
  split
  · exact (Quiet.refl w).stop ready
  case h_2 w' tested => exact (step tested).after ready (whenTrue w' (ready.next (step tested)))
  case h_3 w' tested => exact (step tested).after ready (whenFalse w' (ready.next (step tested)))

/-! ## Scopes -/

theorem pushScope_frame (w : World ν) : Extends w w.pushScope where
  lexCount := Nat.le_succ _
  parent _ bound := Function.update_of_ne (Nat.ne_of_lt bound) _ _

theorem pushScope_sound (sound : w.Sound) : w.pushScope.Sound where
  lex := Nat.lt_succ_self _
  older scope above linked := by
    simp only [World.pushScope, Function.update_apply] at linked
    split at linked
    · obtain rfl := Option.some.inj linked
      have := sound.lex
      omega
    · exact sound.older scope above linked
  codes code member := (pushScope_frame w).code sound (sound.codes code member)
  writes := sound.writes
  returns := sound.returns

theorem Ready.pushScope {inner : Option Nat} (ready : Ready display loop w)
    (room : ∀ depth, inner = some depth → depth ≤ w.savestack.length + 1) :
    Ready (w.lexCount :: display) inner w.pushScope where
  sound := pushScope_sound ready.sound
  chain placed := by
    refine ⟨rfl, ?_⟩
    simp only [World.pushScope, Function.update_self]
    exact (pushScope_frame w).chain ready.sound ready.sound.lex (ready.chain placed)
  room := room

theorem popScope_eq {popped : World ν} (taken : w.popScope = some popped) :
    ∃ above saved, w.parent w.lex = some above ∧ w.savestack = saved :: popped.savestack ∧
      popped = { w with lex := above, tmpstack := saved, savestack := popped.savestack } := by
  simp only [World.popScope] at taken
  split at taken
  case h_1 above saved rest linked stack =>
    obtain rfl := Option.some.inj taken
    exact ⟨above, saved, linked, stack, rfl⟩
  · cases taken

theorem popScope_sound {popped : World ν} (sound : w.Sound) (taken : w.popScope = some popped) :
    popped.Sound ∧ Extends w popped := by
  obtain ⟨above, saved, linked, -, same⟩ := popScope_eq taken
  rw [same]
  have inside : above < w.lexCount := Nat.lt_trans (sound.older _ _ linked) sound.lex
  exact ⟨sound.update rfl rfl rfl inside sound.writes sound.returns, Nat.le_refl _, fun _ _ => rfl⟩

private theorem popScope_chain {popped : World ν} {scope : Nat} {scopes : List Nat}
    (taken : w.popScope = some popped) (chain : IsChain w.parent (some w.lex) (scope :: scopes)) :
    IsChain popped.parent (some popped.lex) scopes := by
  obtain ⟨above, saved, linked, -, same⟩ := popScope_eq taken
  obtain ⟨here, rest⟩ := chain
  obtain rfl := Option.some.inj here
  rw [linked] at rest
  rw [same]
  exact rest

/-- A scope whose body ran to its end is popped. -/
theorem Post.popScope {inner : Option Nat} {v : Val} {popped : World ν}
    (post : Post (w.lexCount :: display) inner w.pushScope (.val v, w'))
    (taken : w'.popScope = some popped) (result : Val) :
    Post display loop w (.val result, popped) := by
  obtain ⟨sound, frame⟩ := popScope_sound post.sound taken
  obtain ⟨in_scope, stack⟩ := post.leaves
  refine ⟨sound, (pushScope_frame w).trans (post.frame.trans frame), fun placed => ?_, ?_⟩
  · have before : w'.displaced = false := by
      obtain ⟨_, _, _, _, same⟩ := popScope_eq taken
      rw [same] at placed
      exact placed
    exact ⟨(in_scope before).1, popScope_chain taken (in_scope before).2⟩
  · obtain ⟨above, saved, -, split, same⟩ := popScope_eq taken
    have kept := stack.kept
    have exits := stack.exits
    have height := stack.height
    rw [split] at kept height
    rw [same]
    simp only [World.pushScope, List.drop_zero, List.length_cons] at kept height exits ⊢
    refine ⟨?_, exits, by simp only; omega⟩
    rcases List.suffix_cons_iff.mp kept with whole | rest
    · simp only [List.drop_zero, (List.cons.inj whole).2, List.suffix_rfl]
    · exact (List.suffix_cons _ _).trans rest

/-- A scope is left without being popped. -/
theorem Grown.pushScope (grown : Grown w.pushScope w') :
    Grown w w' ∧ w.savestack.length < w'.savestack.length := by
  have kept : (w.tmpstack + 1) :: w.savestack <:+ w'.savestack := grown.kept
  exact ⟨⟨(List.suffix_cons _ _).trans kept, grown.exits⟩, kept.length_le⟩

theorem popScopes_post {pops : Nat} {popped : World ν} (ready : Ready display (some pops) w)
    (taken : w.popScopes pops = some popped) :
    popped.Sound ∧ Extends w popped ∧ InScope w popped (display.drop pops) ∧
      Popped pops w popped := by
  induction pops generalizing w display with
  | zero =>
      obtain rfl := Option.some.inj taken
      exact ⟨ready.sound, .refl w, fun placed => ⟨placed, ready.chain placed⟩,
        (Quiet.refl w).popped⟩
  | succ pops ih =>
      obtain ⟨next, first, rest⟩ := Option.bind_eq_some_iff.mp taken
      obtain ⟨sound, frame⟩ := popScope_sound ready.sound first
      obtain ⟨above, saved, -, split, same⟩ := popScope_eq first
      have placed_eq : next.displaced = w.displaced := by rw [same]
      have exits_eq : next.exits = w.exits := by rw [same]
      have next_ready : Ready display.tail (some pops) next := by
        refine ⟨sound, fun placed => ?_, fun depth inside => ?_⟩
        · have chain := ready.chain (placed_eq ▸ placed)
          cases display with
          | nil => cases chain
          | cons scope scopes => exact popScope_chain first chain
        · obtain rfl := Option.some.inj inside
          have room := ready.room _ rfl
          rw [split, List.length_cons] at room
          omega
      obtain ⟨final_sound, final_frame, in_scope, stack⟩ := ih next_ready rest
      refine ⟨final_sound, frame.trans final_frame, fun placed => ?_, ?_⟩
      · obtain ⟨before, chain⟩ := in_scope placed
        rw [List.drop_tail] at chain
        exact ⟨placed_eq ▸ before, chain⟩
      · refine ⟨?_, exits_eq ▸ stack.exits, ?_⟩
        · rw [split, List.drop_succ_cons]
          exact stack.kept
        · have height := stack.height
          rw [split, List.length_cons, ← exits_eq, ← height]
          omega

/-- Outside of a loop there is nothing to continue or to break. -/
theorem Post.outside {result : Outcome × World ν} (post : Post display none w result) :
    Post display loop w result where
  sound := post.sound
  frame := post.frame
  leaves := by
    have leaves := post.leaves
    cases outcome : result.1 with
    | next | last =>
        rw [outcome] at leaves
        obtain ⟨depth, inside, -⟩ := leaves
        cases inside
    | val v | ret v | thrown | stop =>
        rw [outcome] at leaves
        exact leaves

/-- `continue` and `break` in the body of a loop whose rounds have a scope of their own. -/
theorem Post.leaveRound {outcome : Outcome} (leaves : outcome = .next ∨ outcome = .last)
    (post : Post (w.lexCount :: display) (some 1) w.pushScope (outcome, w')) (v : Val) :
    Post display loop w (.val v, w') := by
  refine ⟨post.sound, (pushScope_frame w).trans post.frame, ?_⟩
  obtain ⟨depth, inside, in_scope, popped⟩ :
      ∃ depth, some 1 = some depth ∧
        InScope w.pushScope w' ((w.lexCount :: display).drop depth) ∧
        Popped depth w.pushScope w' := by
    rcases leaves with rfl | rfl <;> exact post.leaves
  obtain rfl := Option.some.inj inside
  have height := popped.height
  simp only [World.pushScope, List.length_cons] at height
  have before : Popped 0 w w' := ⟨popped.kept, popped.exits, by omega⟩
  exact ⟨in_scope, before⟩

/-- `continue` and `break` in the body of a loop without a scope. -/
theorem Post.leaveLoop {outcome : Outcome} (leaves : outcome = .next ∨ outcome = .last)
    (post : Post display (some 0) w (outcome, w')) (v : Val) :
    Post display loop w (.val v, w') := by
  refine ⟨post.sound, post.frame, ?_⟩
  obtain ⟨depth, inside, in_scope, popped⟩ :
      ∃ depth, some 0 = some depth ∧ InScope w w' (display.drop depth) ∧ Popped depth w w' := by
    rcases leaves with rfl | rfl <;> exact post.leaves
  obtain rfl := Option.some.inj inside
  exact ⟨in_scope, popped⟩

/-- A return or an exception leaves a scope that was pushed. -/
theorem Post.escape {inner : Option Nat} {outcome : Outcome}
    (post : Post (w.lexCount :: display) inner w.pushScope (outcome, w'))
    (leaves : (∃ v, outcome = .ret v) ∨ outcome = .thrown ∨ outcome = .stop) :
    Post display loop w (outcome, w') := by
  refine ⟨post.sound, (pushScope_frame w).trans post.frame, ?_⟩
  have stack := post.leaves
  rcases leaves with ⟨v, rfl⟩ | rfl | rfl
  · exact ⟨stack.1.pushScope.1, stack.2⟩
  · exact Grown.pushScope stack |>.1
  · trivial

/-- `continue` and `break` leave a scope inside the body of a loop. -/
theorem Post.leaveScope {outcome : Outcome} (leaves : outcome = .next ∨ outcome = .last)
    (post : Post (w.lexCount :: display) (loop.map (· + 1)) w.pushScope (outcome, w')) :
    Post display loop w (outcome, w') := by
  refine ⟨post.sound, (pushScope_frame w).trans post.frame, ?_⟩
  have popped : ∃ depth, loop = some depth ∧ InScope w w' (display.drop depth) ∧
      Popped depth w w' := by
    obtain ⟨depth, inside, in_scope, popped⟩ :
        ∃ depth, loop.map (· + 1) = some depth ∧
          InScope w.pushScope w' ((w.lexCount :: display).drop depth) ∧
          Popped depth w.pushScope w' := by
      rcases leaves with rfl | rfl <;> exact post.leaves
    obtain ⟨outer, same, rfl⟩ := Option.map_eq_some_iff.mp inside
    have height := popped.height
    simp only [World.pushScope, List.length_cons] at height
    exact ⟨outer, same, in_scope, popped.kept, popped.exits, by omega⟩
  rcases leaves with rfl | rfl <;> exact popped

end Invariants

end Compile
end Pone
