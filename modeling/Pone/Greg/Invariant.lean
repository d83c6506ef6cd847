import Pone.Greg.Simulation
import Pone.Greg.Thunk

/-!
# Invariants of the actions

The pending thunks of a parse hold no action but those of the rules.  What holds of every value that
the machine keeps, and is kept by every action, holds all along while the thunks are run.
-/

namespace Greg

section Pending

variable {ρ α σ : Type} {look : Nat → σ → Option UInt8 × σ} {rules : ρ → Rule ρ α}

/-- Every action in a node is allowed. -/
def Node.Each (allowed : α → Prop) : Node ρ α → Prop
  | .action act => allowed act
  | .alternate first second | .sequence first second => first.Each allowed ∧ second.Each allowed
  | .peekFor element | .peekNot element | .query element | .star element | .plus element =>
      element.Each allowed
  | .dot | .name _ | .named _ _ | .string _ | .cclass _ | .textBegin | .textEnd => True

theorem Node.Each.imp {allowed further : α → Prop} {node : Node ρ α} (each : node.Each allowed)
    (more : ∀ act, allowed act → further act) : node.Each further := by
  induction node with
  | action act => exact more act each
  | alternate _ _ ih ih' | sequence _ _ ih ih' => exact ⟨ih each.1, ih' each.2⟩
  | peekFor _ ih | peekNot _ ih | query _ ih | star _ ih | plus _ ih => exact ih each
  | dot | name | named | string | cclass | textBegin | textEnd => trivial

/-- Every pending action is allowed. -/
def Pending (allowed : α → Prop) (thunks : List (Thunk α)) : Prop :=
  ∀ act first last, .action act first last ∈ thunks → allowed act

variable {allowed : α → Prop} {node : Node ρ α} {c c' : Cursor α} {s s' : σ} {ok : Bool}

private theorem pending_yyDo {thunk : Thunk α} (pending : Pending allowed c.thunks)
    (fine : ∀ act first last, thunk = .action act first last → allowed act) :
    Pending allowed (c.yyDo thunk).thunks := by
  intro act first last member
  rcases List.mem_cons.mp member with same | earlier
  · exact fine act first last same.symm
  · exact pending act first last earlier

private theorem pending_enter (pending : Pending allowed c.thunks) (count : Nat) :
    Pending allowed (c.enter count).thunks := by
  unfold Cursor.enter
  split
  · exact pending
  · exact pending_yyDo pending fun _ _ _ other => nomatch other

private theorem pending_leave (pending : Pending allowed c.thunks) (count : Nat) :
    Pending allowed (c.leave count).thunks := by
  unfold Cursor.leave
  split
  · exact pending
  · exact pending_yyDo pending fun _ _ _ other => nomatch other

theorem matchClass_thunks {bits : UInt8 → Bool}
    (matched : matchClass look bits c s = (ok, c', s')) : c'.thunks = c.thunks := by
  unfold matchClass at matched
  split at matched
  · cases matched
    rfl
  · split at matched <;>
      · cases matched
        rfl

theorem matchString_thunks {saved : Nat} {chars : List UInt8}
    (matched : matchString look saved chars c s = (ok, c', s')) : c'.thunks = c.thunks := by
  induction chars generalizing c s with
  | nil =>
      cases matched
      rfl
  | cons b rest ih =>
      rw [matchString] at matched
      split at matched
      · cases matched
        rfl
      · split at matched
        · exact (ih matched).trans rfl
        · cases matched
          rfl

/-- A run leaves no action pending but those of the rules and of the node. -/
theorem Run.pending (every : ∀ r, (rules r).expression.Each allowed)
    (run : Run look rules node c s ok c' s') (each : node.Each allowed)
    (pending : Pending allowed c.thunks) : Pending allowed c'.thunks := by
  induction run with
  | dot step | cclass step => rwa [matchClass_thunks step]
  | string step => rwa [matchString_thunks step]
  | action => exact pending_yyDo pending fun _ _ _ same => by cases same; exact each
  | textBegin | textEnd => exact pending
  | name _ ih => exact pending_leave (ih (every _) (pending_enter pending _)) _
  | name_fail | peekFor | peekNot | query_skip | star_end => exact pending
  | named _ ih => exact pending_yyDo (ih trivial pending) fun _ _ _ other => nomatch other
  | named_fail _ ih => exact ih trivial pending
  | alternate _ ih | sequence_fail _ ih => exact ih each.1 pending
  | alternate_next _ _ _ ih => exact ih each.2 pending
  | sequence _ _ ih ih' => exact ih' each.2 (ih each.1 pending)
  | peekFor_fail _ ih | peekNot_fail _ ih | query _ ih | plus_fail _ ih => exact ih each pending
  | star _ _ ih ih' | plus _ _ ih ih' => exact ih' each (ih each pending)

end Pending

section Held

variable {V D : Type} {P : V → Prop} {Q : D → Prop} {m m' : Machine V D} {buf : List UInt8}

/-- Everything that the machine keeps is fine. -/
structure Machine.Fine (P : V → Prop) (Q : D → Prop) (m : Machine V D) : Prop where
  ss : P m.ss
  vals : ∀ i, P (m.vals i)
  data : Q m.data

namespace Machine.Fine

theorem var (fine : m.Fine P Q) (k : Nat) : P (m.var k) := fine.vals _

theorem setVar (fine : m.Fine P Q) {k : Nat} {v : V} (new : P v) : (m.setVar k v).Fine P Q := by
  refine ⟨fine.ss, fun i => ?_, fine.data⟩
  simp only [Machine.setVar, Function.update_apply]
  split
  · exact new
  · exact fine.vals i

theorem setSs (fine : m.Fine P Q) {v : V} (new : P v) : Machine.Fine P Q { m with ss := v } :=
  ⟨new, fine.vals, fine.data⟩

theorem setData (fine : m.Fine P Q) {d : D} (new : Q d) : Machine.Fine P Q { m with data := d } :=
  ⟨fine.ss, fine.vals, new⟩

end Machine.Fine

/-- An action that keeps everything fine. -/
def Keeps (P : V → Prop) (Q : D → Prop) (act : Action V D) : Prop :=
  ∀ yytext m m', m.Fine P Q → act yytext m = some m' → m'.Fine P Q

theorem Thunk.run_fine {thunk : Thunk (Action V D)} (ran : thunk.run buf m = some m')
    (keeps : ∀ act first last, thunk = .action act first last → Keeps P Q act)
    (fine : m.Fine P Q) : m'.Fine P Q := by
  cases thunk with
  | yyPush count | yyPop count =>
      cases ran
      exact ⟨fine.ss, fine.vals, fine.data⟩
  | yySet k =>
      cases ran
      exact fine.setVar fine.ss
  | action act first last => exact keeps act first last rfl _ _ _ fine ran

theorem yyDone_cons {thunk : Thunk (Action V D)} {thunks : List (Thunk (Action V D))} :
    yyDone buf (thunk :: thunks) m = (yyDone buf thunks m).bind (thunk.run buf) := by
  rw [yyDone, List.reverse_cons, List.foldlM_append]
  simp only [List.foldlM_cons, List.foldlM_nil, bind_pure]
  rfl

theorem yyDone_later {later done : List (Thunk (Action V D))}
    (ran : yyDone buf (later ++ done) m = some m') : ∃ m₁, yyDone buf done m = some m₁ := by
  rw [yyDone_append] at ran
  obtain ⟨m₁, before, -⟩ := Option.bind_eq_some_iff.mp ran
  exact ⟨m₁, before⟩

/-- The thunks fail exactly where an action does when its turn comes. -/
theorem yyDone_eq_none {thunks : List (Thunk (Action V D))} :
    yyDone buf thunks m = none ↔ ∃ later act first last earlier m₁,
      thunks = later ++ .action act first last :: earlier ∧ yyDone buf earlier m = some m₁ ∧
        act (yyText buf first last) m₁ = none := by
  constructor
  · intro failed
    induction thunks with
    | nil => cases failed
    | cons thunk earlier ih =>
        rw [yyDone_cons] at failed
        cases ran : yyDone buf earlier m with
        | none =>
            obtain ⟨later, act, first, last, before, m₁, rfl, turn⟩ := ih ran
            exact ⟨thunk :: later, act, first, last, before, m₁, rfl, turn⟩
        | some m₁ =>
            rw [ran, Option.bind_some] at failed
            cases thunk with
            | action act first last => exact ⟨[], act, first, last, earlier, m₁, rfl, ran, failed⟩
            | yyPush count | yyPop count | yySet k => cases failed
  · rintro ⟨later, act, first, last, earlier, m₁, rfl, ran, failed⟩
    rw [yyDone_append, yyDone_cons, ran, Option.bind_some]
    exact congrArg (Option.bind · _) failed

/-- Run over actions that keep everything fine, the thunks leave it fine. -/
theorem yyDone_fine {thunks : List (Thunk (Action V D))} (ran : yyDone buf thunks m = some m')
    (keeps : Pending (Keeps P Q) thunks) (fine : m.Fine P Q) : m'.Fine P Q := by
  induction thunks generalizing m' with
  | nil =>
      cases ran
      exact fine
  | cons thunk thunks ih =>
      rw [yyDone_cons] at ran
      obtain ⟨m₁, before, last⟩ := Option.bind_eq_some_iff.mp ran
      refine Thunk.run_fine last ?_ (ih before fun act p q member =>
        keeps act p q (List.mem_cons_of_mem _ member))
      rintro act p q rfl
      exact keeps act p q (List.mem_cons_self ..)

end Held

end Greg
