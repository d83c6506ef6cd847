import Mathlib.Data.List.TakeWhile
import Pone.Greg.Lookahead
import Pone.Syntax.Aborts
import Pone.Syntax.Results
import Pone.Syntax.Termination

/-!
# The exits of `PVIP_parse_string`

A grammar failure, a rest of the input that was not read, and a success share one cleanup section,
which frees the string state `g.data.str` and asserts that there is a root.  The first exit has freed
the string state when it gets there, if it wrote a message, and has no root.
-/

namespace Pone
namespace Syntax

open Greg

/-! ## The function with its cleanup -/

/-- What ends the process: a failed assertion, an abort or a null pointer in an action, a block that
is freed or read after it was freed, and a pointer that was never set. -/
inductive Crash where
  | assertion
  | action
  | doubleFree
  | usedFreed
  | unset
  deriving DecidableEq

/-- `PVIPParserStringState`, or what `free` left of it. -/
inductive StringState where
  | live (buf : List UInt8) (pos : Nat)
  | freed
  deriving DecidableEq

namespace StringState

def free : StringState → Except Crash StringState
  | .live _ _ => .ok .freed
  | .freed => .error .doubleFree

def buf : StringState → Except Crash (List UInt8)
  | .live buf _ => .ok buf
  | .freed => .error .usedFreed

def pos : StringState → Except Crash Nat
  | .live _ pos => .ok pos
  | .freed => .error .usedFreed

end StringState

/-- `g.data.str` after a parse. -/
def stringState : Input → StringState
  | .string buf pos => .live buf pos
  | .file _ _ => .freed

/-- What a call leaves behind: the root that it returns, `*error`, and the string state. -/
structure Returned where
  root : Option Tree
  error : Option (List UInt8)
  str : StringState

def lineBreak (b : UInt8) : Bool := b = 10 || b = 13

/-- The message of a grammar failure.  `text` is what the buffer `g.text` holds, in which no action has
stored anything; no rule has moved `g.pos`, and no action has counted a line. -/
def failureMessage (text chars : List UInt8) (str : StringState) : Except Crash (List UInt8) := do
  let buf ← str.buf
  let pos ← str.pos
  let near := if text = [] then [] else bytes "** near " ++ text
  let line := chars.takeWhile (!lineBreak ·)
  let rest := if line = chars then (buf.drop pos).takeWhile fun ch => ch ≠ 0 && !lineBreak ch else []
  let before := if chars ≠ [] || buf.length = pos then
    bytes " before text \"" ++ line ++ rest ++ bytes "\"" else []
  return bytes "** Syntax error at line " ++ bytes "1" ++ bytes "\n" ++ near ++ before ++ bytes "\n\n"

/-- The message of a rest that was not read: `g.pos` is 0 after the parse, so that it shows the
beginning of the source, as many bytes as the rest has and at most 24. -/
def restMessage (rest : Nat) (str : StringState) : Except Crash (List UInt8) := do
  let buf ← str.buf
  return bytes "Syntax error! Around:\n" ++ (buf.take (min rest 24)).filter (· ≠ 0) ++ bytes "\n"

/-- The section after the label `finished`. -/
def finished (dataRoot : Option Tree) (str : StringState) (root : Option Tree)
    (error : Option (List UInt8)) : Except Crash Returned := do
  let str ← str.free
  if dataRoot.isNone then throw .assertion
  return ⟨root, error, str⟩

/-- `PVIP_parse_string` after `YY_NAME(parse)`; `error` tells whether the caller wants a message. -/
def exits (error : Bool) (text : List UInt8) :
    Bool × Cursor Act × Buffer Input → Except Crash Returned
  | (false, _, buffer) => do
      let str := stringState buffer.input
      if error then
        let message ← failureMessage text buffer.chars str
        let str ← str.free
        finished none str none (some message)
      else finished none str none none
  | (true, c, buffer) => do
      let str := stringState buffer.input
      let some vm := yyDone buffer.chars c.thunks initial | throw .action
      if buffer.chars.length ≠ c.pos then
        if error then
          let message ← restMessage (buffer.chars.length - c.pos) str
          finished vm.data.root str none (some message)
        else finished vm.data.root str none none
      else finished vm.data.root str vm.data.root none

/-- `PVIP_parse_string` on a string of bytes and its length. -/
def parseString (error : Bool) (text : List UInt8) (fuel : Nat) (w : List UInt8) :
    Option (Except Crash Returned) :=
  (exec (Buffer.look pvipInput) rule fuel (.name .compInit) .start ⟨[], .string w 0⟩).map
    (exits error text)

/-- How `pone_parse_string` ends: it returns a tree, or it throws a string. -/
inductive Thrown where
  | returned (tree : Tree)
  | threw (message : List UInt8)

/-- `pone_parse_string` on a C string, which ends before the first NUL byte. -/
def poneParseString (text : List UInt8) (fuel : Nat) (src : List UInt8) :
    Option (Except Crash Thrown) :=
  (parseString true text fuel (src.takeWhile (· ≠ 0))).map fun result => do
    let returned ← result
    match returned.root, returned.error with
    | some tree, _ => return .returned tree
    | none, some error => return .threw (bytes "Cannot parse string: " ++ error)
    | none, none => throw .unset

/-- The input is answered by a root, or by `NULL` and a message, which `pone_parse_string` throws; the
string state has been freed, and nothing has crashed. -/
structure Reported (w : List UInt8) : Prop where
  returns : ∀ text, ∃ fuel returned, parseString true text fuel w = some (.ok returned) ∧
    returned.str = .freed ∧ (returned.root = none → returned.error.isSome = true)
  thrown : ∀ text fuel returned message, 0 ∉ w →
    parseString true text fuel w = some (.ok returned) → returned.root = none →
      returned.error = some message →
        poneParseString text fuel w = some (.ok (.threw (bytes "Cannot parse string: " ++ message)))

/-! ## Where the grammar fails -/

/-- What may stand in front of a program. -/
def lead : Expr := seq [opt [.name .bom], opt [.name .pod], many [.name .ws]]

/-- Behind what may stand in front of a program there is a NUL byte. -/
def NulFirst (w : List UInt8) : Prop :=
  ∃ c seen, ReadsWord w lead .start 0 true c seen ∧ w[c.pos]? = some 0

/-- Where the grammar matches, no action aborts in the state in which its turn comes. -/
def ActionsRun (w : List UInt8) : Prop :=
  ∀ c seen, ReadsWord w (.name .compInit) .start 0 true c seen →
    ∀ later act first last earlier vm, c.thunks = later ++ .action act first last :: earlier →
      yyDone (w.take seen) earlier initial = some vm →
        ¬ Aborts (yyText (w.take seen) first last) act vm

/-- What the rules may do in front of a NUL byte. -/
def beforeNul : RuleName → Ahead
  | .dash => ⟨true, false⟩
  | .atkeyKey | .dqStringInner | .qwItem | .qwList => ⟨false, true⟩
  | _ => ⟨false, false⟩

theorem beforeNul_covers : Covers 0 beforeNul rule := by
  intro r
  cases r <;> decide +kernel

theorem lookWord_steady (w : List UInt8) : Steady (lookWord w) := fun _ _ _ => rfl

section Failure

variable {w : List UInt8} {c c' d d' : Cursor Act} {seen seen' t t' : Nat} {ok : Bool}

/-- Where a node may do nothing in front of NUL, it does not match there. -/
private theorem fails_at_nul {node : Expr} (nothing : (node.ahead 0 beforeNul).stays = false ∧
    (node.ahead 0 beforeNul).moves = false) (nul : w[c.pos]? = some 0)
    (run : ReadsWord w node c seen ok c' seen') : ok = false :=
  run.fails beforeNul_covers (fun _ => nul) nothing

/-- White space stays in front of NUL. -/
private theorem gap_at_nul (nul : w[c.pos]? = some 0) (run : ReadsWord w gap c seen true c' seen') :
    c'.pos = c.pos := by
  by_contra moved
  cases (run.ahead beforeNul_covers rfl fun _ => nul).2 moved

private theorem endOfFile_iff (run : ReadsWord w (.name .endOfFile) c seen ok c' seen') :
    ok = true ↔ w[c.pos]? ≠ some 0 := by
  constructor
  · rintro matched nul
    cases matched.symm.trans (fails_at_nul ⟨rfl, rfl⟩ nul run)
  · intro plain
    cases run with
    | name => rfl
    | name_fail body =>
        cases body with
        | peekNot_fail passed =>
            cases passed with
            | string matched => exact (plain (head_of_matchString matched)).elim

/-- The rest of the second alternative is read behind what may stand in front of a program. -/
private theorem behind_lead {act : Act} {start : Cursor Act}
    (before : ReadsWord w lead start seen true d t)
    (run : ReadsWord w (seq [opt [.name .bom], opt [.name .pod], many [.name .ws], .name .endOfFile,
      .action act]) c seen' ok c' t') (here : c.pos = start.pos) :
    ok = true ↔ w[d.pos]? ≠ some 0 := by
  have steady := lookWord_steady w
  cases before with
  | sequence bom before =>
  cases before with
  | sequence pod spaces =>
  cases run with
  | sequence_fail failed => cases (failed.steady steady bom here).1
  | sequence bom' run =>
  have here := (bom'.steady steady bom here).2
  cases run with
  | sequence_fail failed => cases (failed.steady steady pod here).1
  | sequence pod' run =>
  have here := (pod'.steady steady pod here).2
  cases run with
  | sequence_fail failed => cases (failed.steady steady spaces here).1
  | sequence spaces' run =>
  rw [← (spaces'.steady steady spaces here).2]
  cases run with
  | sequence_fail failed => exact endOfFile_iff failed
  | sequence ended run =>
  cases run with
  | action => exact endOfFile_iff ended

/-- A list of statements in front of NUL is white space. -/
private theorem statementlist_at_nul {start : Cursor Act}
    (spaces : ReadsWord w (many [.name .ws]) start seen true d t) (nul : w[d.pos]? = some 0)
    (run : ReadsWord w (.name .statementlist) c seen' true c' t') (here : c.pos = start.pos) :
    c'.pos = d.pos := by
  have steady := lookWord_steady w
  cases run with
  | name body =>
  rw [Cursor.leave_pos]
  cases body with
  | alternate passed =>
      cases passed with
      | sequence first rest =>
      cases first with
      | named call =>
      cases call with
      | name body =>
      cases body with
      | sequence gap rest =>
      cases gap with
      | name body =>
      have here := (body.steady steady spaces (by simpa using here)).2
      cases fails_at_nul ⟨by decide +kernel, by decide +kernel⟩ (by simpa [here] using nul) rest
  | alternate_next failed next =>
      cases next with
      | sequence spaces' last =>
      cases last
      cases spaces' with
      | plus passed again =>
      exact ((Run.star passed again).steady steady spaces (by simpa using here)).2

/-- The first alternative does not match in front of NUL. -/
private theorem first_at_nul {act : Act} {start : Cursor Act}
    (before : ReadsWord w lead start seen true d t) (nul : w[d.pos]? = some 0)
    (run : ReadsWord w (seq [opt [.name .bom], opt [.name .pod], .named 0 .statementlist, gap,
      .name .endOfFile, .action act]) c seen' true c' t') (here : c.pos = start.pos) : False := by
  have steady := lookWord_steady w
  cases before with
  | sequence bom before =>
  cases before with
  | sequence pod spaces =>
  cases run with
  | sequence bom' run =>
  have here := (bom'.steady steady bom here).2
  cases run with
  | sequence pod' run =>
  have here := (pod'.steady steady pod here).2
  cases run with
  | sequence statements run =>
  cases statements with
  | named statements =>
  have here := statementlist_at_nul spaces nul statements here
  cases run with
  | sequence spaces' run =>
  have stays := gap_at_nul (by simpa [here] using nul) spaces'
  cases run with
  | sequence ended run =>
  exact (endOfFile_iff ended).mp rfl (by simpa [stays, here] using nul)

/-- The grammar fails exactly in front of a NUL byte. -/
theorem compInit_iff (before : ReadsWord w lead .start 0 true d t)
    (run : ReadsWord w (.name .compInit) .start 0 ok c seen) : ok = true ↔ w[d.pos]? ≠ some 0 := by
  cases run with
  | name body =>
      refine ⟨fun _ nul => ?_, fun _ => rfl⟩
      cases body with
      | alternate passed => exact first_at_nul before nul passed (by simp)
      | alternate_next failed next => exact (behind_lead before next (by simp)).mp rfl nul
  | name_fail body =>
      refine ⟨fun failed => absurd failed Bool.false_ne_true, fun plain => ?_⟩
      cases body with
      | alternate_next failed next => cases (behind_lead before next (by simp)).mpr plain

end Failure

/-- Nothing is behind the end of a word. -/
def wordEnding (w : List UInt8) : Ending (lookWord w) w.length where
  holds _ _ := True
  keep := fun _ _ => trivial
  next := fun _ _ => trivial
  ended := fun _ beyond => List.getElem?_eq_none beyond

/-- What stands in front of a program can always be read. -/
theorem lead_matches (w : List UInt8) : ∃ d t, ReadsWord w lead .start 0 true d t := by
  have loops : lead.loopsConsume wellFounded.empty = true := rfl
  have start : (Cursor.start : Cursor Act).pos ≤ w.length := Nat.zero_le _
  obtain ⟨ok, d, t, run⟩ := wellFounded.ends (s := 0) (wordEnding w) loops start trivial
  have matched : ok = true := by
    cases run with
    | sequence_fail failed => cases failed
    | sequence _ run =>
        cases run with
        | sequence_fail failed => cases failed
        | sequence _ run => exact run.star_matches
  subst matched
  exact ⟨d, t, run⟩

theorem nulFirst_iff {w : List UInt8} {c : Cursor Act} {seen : Nat} {ok : Bool}
    (run : ReadsWord w (.name .compInit) .start 0 ok c seen) : ok = false ↔ NulFirst w := by
  obtain ⟨d, t, before⟩ := lead_matches w
  have fails := (compInit_iff before run).not
  rw [Bool.not_eq_true, not_not] at fails
  refine fails.trans ⟨fun nul => ⟨d, t, before, nul⟩, ?_⟩
  rintro ⟨d', t', before', nul⟩
  obtain ⟨-, rfl, rfl⟩ := before.unique before'
  exact nul

/-! ## The actions of a match -/

section Match

variable {w buf : List UInt8} {c : Cursor Act} {seen : Nat}

/-- The actions of a match that run to their end leave a root. -/
theorem root_of_yyDone {vm : Vm} (run : ReadsWord w (.name .compInit) .start 0 true c seen)
    (ran : yyDone buf c.thunks initial = some vm) : ∃ tree, vm.data.root = some tree := by
  have summary := run.does summarizes (List.append_nil c.thunks).symm ran
  exact summary.2

/-- The actions of a match leave a root unless one aborts when its turn comes. -/
theorem rootOf_eq_none_iff (run : ReadsWord w (.name .compInit) .start 0 true c seen) :
    rootOf buf c.thunks = none ↔ ∃ later act first last earlier vm,
      c.thunks = later ++ .action act first last :: earlier ∧
        yyDone buf earlier initial = some vm ∧ Aborts (yyText buf first last) act vm := by
  have rooted : rootOf buf c.thunks = none ↔ yyDone buf c.thunks initial = none := by
    unfold rootOf
    cases ran : yyDone buf c.thunks initial with
    | none => simp
    | some vm =>
        obtain ⟨tree, root⟩ := root_of_yyDone run ran
        simp [root]
  rw [rooted, yyDone_eq_none]
  have told : Pending Told c.thunks := run.pending rule_told trivial fun _ _ _ member => by cases member
  constructor
  · rintro ⟨later, act, first, last, earlier, vm, split, ran, failed⟩
    refine ⟨later, act, first, last, earlier, vm, split, ran, told act first last ?_ _ _ failed⟩
    simp [split]
  · rintro ⟨later, act, first, last, earlier, vm, split, ran, aborts⟩
    exact ⟨later, act, first, last, earlier, vm, split, ran, aborts.eq_none⟩

theorem actionsRun_iff (run : ReadsWord w (.name .compInit) .start 0 true c seen) :
    ActionsRun w ↔ (rootOf (w.take seen) c.thunks).isSome = true := by
  rw [Option.isSome_iff_ne_none, Ne, rootOf_eq_none_iff run]
  constructor
  · rintro actions ⟨later, act, first, last, earlier, vm, split, ran, aborts⟩
    exact actions c seen run later act first last earlier vm split ran aborts
  · rintro none c' seen' run' later act first last earlier vm split ran aborts
    obtain ⟨-, rfl, rfl⟩ := run.unique run'
    exact none ⟨later, act, first, last, earlier, vm, split, ran, aborts⟩

end Match

/-! ## Which inputs are answered -/

theorem finished_live {buf : List UInt8} {pos : Nat} {dataRoot root : Option Tree}
    {error : Option (List UInt8)} :
    finished dataRoot (.live buf pos) root error =
      if dataRoot.isNone then .error .assertion else .ok ⟨root, error, .freed⟩ := by
  cases dataRoot <;> rfl

theorem restMessage_live {buf : List UInt8} {pos rest : Nat} :
    restMessage rest (.live buf pos) =
      .ok (bytes "Syntax error! Around:\n" ++ (buf.take (min rest 24)).filter (· ≠ 0) ++ bytes "\n") :=
  rfl

/-- A call for a message returns where the grammar matched and its actions left a root.  It has freed
the string state then, and has a root or a message. -/
theorem exits_ok_iff {text w : List UInt8} {pos : Nat} {ok : Bool} {c : Cursor Act}
    {chars : List UInt8} {returned : Returned} :
    exits true text (ok, c, ⟨chars, .string w pos⟩) = .ok returned ↔
      ok = true ∧ ∃ tree, rootOf chars c.thunks = some tree ∧ returned =
        if chars.length ≠ c.pos then
          ⟨none, some (bytes "Syntax error! Around:\n" ++
            (w.take (min (chars.length - c.pos) 24)).filter (· ≠ 0) ++ bytes "\n"), .freed⟩
        else ⟨some tree, none, .freed⟩ := by
  cases ok with
  | false =>
      refine ⟨fun exited => ?_, fun ⟨matched, _⟩ => absurd matched Bool.false_ne_true⟩
      -- the string state is freed with the message and again in the cleanup
      cases exited
  | true =>
      cases ran : yyDone chars c.thunks initial with
      | none => simp [exits, ran, rootOf]
      | some vm =>
          cases root : vm.data.root with
          | none =>
              simp only [exits, ran, root, rootOf, stringState, finished_live, restMessage_live]
              split <;> simp [bind, Except.bind, root]
          | some tree =>
              simp only [exits, ran, root, rootOf, stringState, finished_live, restMessage_live]
              split <;> simp [bind, Except.bind, root, eq_comm]

/-- A parse over the input is one over its bytes. -/
private theorem word_of_exec {w : List UInt8} {fuel : Nat} {ok : Bool} {c : Cursor Act}
    {buffer : Buffer Input}
    (executed : exec (Buffer.look pvipInput) rule fuel (.name .compInit) .start ⟨[], .string w 0⟩ =
      some (ok, c, buffer)) :
    ∃ seen, ReadsWord w (.name .compInit) .start 0 ok c seen ∧
      buffer = ⟨w.take seen, .string w (min seen w.length)⟩ := by
  have run := Run.of_exec executed
  have delivered : (stringDelivery w).buffer 0 = ⟨[], .string w 0⟩ := by
    simp [Delivery.buffer, stringDelivery]
  rw [← delivered] at run
  exact (stringDelivery w).word_of_run run fun _ => trivial

/-- A call that returns has freed the string state, and has a root or a message. -/
theorem answered {text w : List UInt8} {fuel : Nat} {returned : Returned}
    (parsed : parseString true text fuel w = some (.ok returned)) :
    returned.str = .freed ∧ (returned.root = none → returned.error.isSome = true) := by
  obtain ⟨⟨ok, c, buffer⟩, executed, exited⟩ := Option.map_eq_some_iff.mp parsed
  obtain ⟨seen, run, rfl⟩ := word_of_exec executed
  obtain ⟨-, tree, -, rfl⟩ := exits_ok_iff.mp exited
  split
  · exact ⟨rfl, fun _ => rfl⟩
  · exact ⟨rfl, fun missing => nomatch missing⟩

/-- A call returns exactly where the grammar matches and no action aborts. -/
theorem returns_iff (text w : List UInt8) :
    (∃ fuel returned, parseString true text fuel w = some (.ok returned)) ↔
      ¬ NulFirst w ∧ ActionsRun w := by
  obtain ⟨fuel, ⟨ok, c, buffer⟩, executed⟩ := compInit_ends (.string w 0)
  obtain ⟨seen, run, rfl⟩ := word_of_exec executed
  constructor
  · rintro ⟨fuel', returned, parsed⟩
    obtain ⟨⟨ok', c', buffer'⟩, executed', exited⟩ := Option.map_eq_some_iff.mp parsed
    obtain ⟨seen', run', rfl⟩ := word_of_exec executed'
    obtain ⟨rfl, tree, root, -⟩ := exits_ok_iff.mp exited
    refine ⟨fun nul => ?_, (actionsRun_iff run').mpr (by simp [root])⟩
    cases (nulFirst_iff run').mpr nul
  · rintro ⟨plain, actions⟩
    obtain rfl : ok = true := by
      rw [← nulFirst_iff run, Bool.not_eq_false] at plain
      exact plain
    obtain ⟨tree, root⟩ := Option.isSome_iff_exists.mp ((actionsRun_iff run).mp actions)
    exact ⟨fuel, _, Option.map_eq_some_iff.mpr
      ⟨_, executed, exits_ok_iff.mpr ⟨rfl, tree, root, rfl⟩⟩⟩

private theorem not_reported {w : List UInt8} (never : ¬ (¬ NulFirst w ∧ ActionsRun w)) :
    ¬ Reported w := by
  intro reported
  obtain ⟨fuel, returned, parsed, -⟩ := reported.returns []
  exact never ((returns_iff [] w).mp ⟨fuel, returned, parsed⟩)

private theorem not_reported_of_failure {w : List UInt8} (fuel : Nat)
    (fails : (exec (lookWord w) rule fuel (.name .compInit) .start 0).map Prod.fst = some false) :
    ¬ Reported w := by
  obtain ⟨⟨ok, c, seen⟩, executed, rfl⟩ := Option.map_eq_some_iff.mp fails
  exact not_reported fun answers => answers.1 ((nulFirst_iff (.of_exec executed)).mp rfl)

private theorem not_reported_of_action {w : List UInt8} (fuel : Nat)
    (aborts : (exec (lookWord w) rule fuel (.name .compInit) .start 0).map
      (fun (ok, c, seen) => (ok, (rootOf (w.take seen) c.thunks).isSome)) = some (true, false)) :
    ¬ Reported w := by
  obtain ⟨⟨ok, c, seen⟩, executed, result⟩ := Option.map_eq_some_iff.mp aborts
  obtain ⟨rfl, fails⟩ := Prod.mk.inj result
  refine not_reported fun ⟨_, actions⟩ => ?_
  rw [(actionsRun_iff (.of_exec executed)).mp actions] at fails
  cases fails

end Syntax
end Pone
