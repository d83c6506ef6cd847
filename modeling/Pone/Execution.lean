import Mathlib.Algebra.GroupWithZero.Nat
import Mathlib.Data.List.Basic

/-!
# Runs of partial labelled steps

A system is a partial function `step : σ → ε → Option σ`: a label is an action of one of the
parties together with the choices its scheduler makes, and `none` says that the action is not
enabled.  `run` executes a list of labels.  `Along` and `Always` speak about every step taken and
every state met, and the lemmas reduce both to facts about one step.
-/

namespace Execution

/-- The two processes of a small run are named by literals of `Fin 2`. -/
instance neZero_two : NeZero 2 := ⟨by decide⟩

variable {σ ε : Type*} (step : σ → ε → Option σ)

/-- Execute a list of labels, failing when one of them is not enabled. -/
def run : σ → List ε → Option σ
  | state, [] => some state
  | state, label :: labels => (step state label).bind fun next => run next labels

/-- `guard` holds of every step that the labels take from `state`. -/
def Along (guard : σ → ε → Prop) : σ → List ε → Prop
  | _, [] => True
  | state, label :: labels =>
      guard state label ∧ ∀ next, step state label = some next → Along guard next labels

/-- `property` holds of every state that the labels meet, the first and the last included. -/
def Always (property : σ → Prop) : σ → List ε → Prop
  | state, [] => property state
  | state, label :: labels =>
      property state ∧ ∀ next, step state label = some next → Always property next labels

variable {step}

/-- A statement about the successor of a state is decided by taking the step. -/
instance decidableSuccessor {property : σ → Prop} [DecidablePred property] (state : σ)
    (label : ε) : Decidable (∀ next, step state label = some next → property next) :=
  match taken : step state label with
  | none => .isTrue fun _ other => by cases other
  | some next => decidable_of_iff (property next) ⟨fun holds other same => by
      rwa [← Option.some.inj same], fun holds => holds next rfl⟩

instance Along.decidable {guard : σ → ε → Prop} [∀ state label, Decidable (guard state label)] :
    ∀ (state : σ) (labels : List ε), Decidable (Along step guard state labels)
  | _, [] => .isTrue trivial
  | state, label :: labels =>
      have : DecidablePred fun next => Along step guard next labels := fun next =>
        Along.decidable next labels
      inferInstanceAs (Decidable (guard state label ∧
        ∀ next, step state label = some next → Along step guard next labels))

instance Always.decidable {property : σ → Prop} [DecidablePred property] :
    ∀ (state : σ) (labels : List ε), Decidable (Always step property state labels)
  | state, [] => inferInstanceAs (Decidable (property state))
  | state, label :: labels =>
      have : DecidablePred fun next => Always step property next labels := fun next =>
        Always.decidable next labels
      inferInstanceAs (Decidable (property state ∧
        ∀ next, step state label = some next → Always step property next labels))

@[simp]
theorem run_nil (state : σ) : run step state [] = some state := rfl

theorem run_cons_iff {state final : σ} {label : ε} {labels : List ε} :
    run step state (label :: labels) = some final ↔
      ∃ next, step state label = some next ∧ run step next labels = some final := by
  simp [run, Option.bind_eq_some_iff]

theorem run_append_iff {state final : σ} {front back : List ε} :
    run step state (front ++ back) = some final ↔
      ∃ middle, run step state front = some middle ∧ run step middle back = some final := by
  induction front generalizing state with
  | nil => simp
  | cons label front ih =>
      simp only [List.cons_append, run_cons_iff, ih]
      constructor
      · rintro ⟨next, taken, middle, front_run, back_run⟩
        exact ⟨middle, ⟨next, taken, front_run⟩, back_run⟩
      · rintro ⟨middle, ⟨next, taken, front_run⟩, back_run⟩
        exact ⟨next, taken, middle, front_run, back_run⟩

@[simp]
theorem along_nil (guard : σ → ε → Prop) (state : σ) : Along step guard state [] := trivial

theorem Along.mono {guard weaker : σ → ε → Prop} {state : σ} {labels : List ε}
    (weaken : ∀ state label, guard state label → weaker state label)
    (along : Along step guard state labels) : Along step weaker state labels := by
  induction labels generalizing state with
  | nil => trivial
  | cons label labels ih =>
      exact ⟨weaken _ _ along.1, fun next taken => ih (along.2 next taken)⟩

theorem along_append {guard : σ → ε → Prop} {state middle : σ} {front back : List ε}
    (executed : run step state front = some middle) (along : Along step guard state (front ++ back)) :
    Along step guard state front ∧ Along step guard middle back := by
  induction front generalizing state with
  | nil =>
      obtain rfl : state = middle := by simpa using executed
      exact ⟨trivial, along⟩
  | cons label front ih =>
      obtain ⟨next, taken, rest⟩ := run_cons_iff.mp executed
      obtain ⟨front_along, back_along⟩ := ih rest (along.2 next taken)
      refine ⟨⟨along.1, fun other other_taken => ?_⟩, back_along⟩
      obtain rfl : next = other := Option.some.inj (taken.symm.trans other_taken)
      exact front_along

theorem Along.of_append {guard : σ → ε → Prop} {state : σ} {front back : List ε}
    (along : Along step guard state (front ++ back)) : Along step guard state front := by
  induction front generalizing state with
  | nil => trivial
  | cons label front ih => exact ⟨along.1, fun next taken => ih (along.2 next taken)⟩

theorem along_concat_iff {guard : σ → ε → Prop} {state middle : σ} {front : List ε} {label : ε}
    (executed : run step state front = some middle) :
    Along step guard state (front ++ [label]) ↔
      Along step guard state front ∧ guard middle label := by
  constructor
  · intro along
    obtain ⟨front_along, back_along⟩ := along_append executed along
    exact ⟨front_along, back_along.1⟩
  · rintro ⟨along, guarded⟩
    induction front generalizing state with
    | nil =>
        obtain rfl : state = middle := by simpa using executed
        exact ⟨guarded, fun _ _ => trivial⟩
    | cons first front ih =>
        obtain ⟨next, taken, rest⟩ := run_cons_iff.mp executed
        refine ⟨along.1, fun other other_taken => ?_⟩
        obtain rfl : next = other := Option.some.inj (taken.symm.trans other_taken)
        exact ih rest (along.2 next taken)

/-- A condition on labels alone is a condition on the steps that take them. -/
theorem along_of_forall_mem {allowed : ε → Prop} {state : σ} {labels : List ε}
    (members : ∀ label ∈ labels, allowed label) :
    Along step (fun _ label => allowed label) state labels := by
  induction labels generalizing state with
  | nil => trivial
  | cons label labels ih =>
      exact ⟨members label (by simp), fun next _ => ih fun other member => members other (by
        simp [member])⟩

/-- An invariant of the guarded steps holds at the end of a guarded run. -/
theorem invariant_run (guard : σ → ε → Prop) {invariant : σ → Prop}
    (preserved : ∀ {state label next}, invariant state → guard state label →
      step state label = some next → invariant next)
    {state final : σ} {labels : List ε} (initial : invariant state)
    (along : Along step guard state labels) (executed : run step state labels = some final) :
    invariant final := by
  induction labels generalizing state with
  | nil =>
      obtain rfl : state = final := by simpa using executed
      exact initial
  | cons label labels ih =>
      obtain ⟨next, taken, rest⟩ := run_cons_iff.mp executed
      exact ih (preserved initial along.1 taken) (along.2 next taken) rest

/-- An invariant of all steps holds at the end of every run. -/
theorem run_invariant {invariant : σ → Prop}
    (preserved : ∀ {state label next}, invariant state → step state label = some next →
      invariant next)
    {state final : σ} {labels : List ε} (initial : invariant state)
    (executed : run step state labels = some final) : invariant final :=
  invariant_run (fun _ _ => True) (fun holds _ taken => preserved holds taken) initial
    (along_of_forall_mem fun _ _ => trivial) executed

/-- What an invariant and the guard say about one step holds along a guarded run. -/
theorem Along.of_invariant {guard goal : σ → ε → Prop} {invariant : σ → Prop}
    (preserved : ∀ {state label next}, invariant state → guard state label →
      step state label = some next → invariant next)
    (local_goal : ∀ {state label}, invariant state → guard state label → goal state label)
    {state : σ} {labels : List ε} (initial : invariant state)
    (along : Along step guard state labels) : Along step goal state labels := by
  induction labels generalizing state with
  | nil => trivial
  | cons label labels ih =>
      refine ⟨local_goal initial along.1, fun next taken => ?_⟩
      exact ih (preserved initial along.1 taken) (along.2 next taken)

/-- An invariant of the guarded steps holds in every state of a guarded run. -/
theorem Always.of_invariant {guard : σ → ε → Prop} {invariant property : σ → Prop}
    (preserved : ∀ {state label next}, invariant state → guard state label →
      step state label = some next → invariant next)
    (local_property : ∀ {state}, invariant state → property state)
    {state : σ} {labels : List ε} (initial : invariant state)
    (along : Along step guard state labels) : Always step property state labels := by
  induction labels generalizing state with
  | nil => exact local_property initial
  | cons label labels ih =>
      refine ⟨local_property initial, fun next taken => ?_⟩
      exact ih (preserved initial along.1 taken) (along.2 next taken)

/-- Where an invariant of the guarded steps makes a goal and the guard say the same about each step,
they say the same about each run. -/
theorem along_iff_along {guard goal : σ → ε → Prop} {invariant : σ → Prop}
    (preserved : ∀ {state label next}, invariant state → guard state label →
      step state label = some next → invariant next)
    (goal_iff : ∀ {state label}, invariant state → (goal state label ↔ guard state label))
    {state : σ} {labels : List ε} (initial : invariant state) :
    Along step goal state labels ↔ Along step guard state labels := by
  induction labels generalizing state with
  | nil => exact .rfl
  | cons label labels ih =>
      constructor
      · rintro ⟨holds, along⟩
        have guarded := (goal_iff initial).mp holds
        exact ⟨guarded, fun next taken =>
          (ih (preserved initial guarded taken)).mp (along next taken)⟩
      · rintro ⟨guarded, along⟩
        exact ⟨(goal_iff initial).mpr guarded, fun next taken =>
          (ih (preserved initial guarded taken)).mpr (along next taken)⟩

theorem Always.head {property : σ → Prop} {state : σ} {labels : List ε}
    (always : Always step property state labels) : property state := by
  cases labels with
  | nil => exact always
  | cons label labels => exact always.1

/-- When each step keeps a property exactly if it meets the guard, a run that starts with the
property keeps it exactly if all its steps meet the guard. -/
theorem always_iff_along {guard : σ → ε → Prop} {invariant property : σ → Prop}
    (preserved : ∀ {state label next}, invariant state → step state label = some next →
      invariant next)
    (property_iff : ∀ {state label next}, invariant state → property state →
      step state label = some next → (property next ↔ guard state label))
    {state final : σ} {labels : List ε} (initial : invariant state) (holds : property state)
    (executed : run step state labels = some final) :
    Always step property state labels ↔ Along step guard state labels := by
  induction labels generalizing state with
  | nil => exact ⟨fun _ => trivial, fun _ => holds⟩
  | cons label labels ih =>
      obtain ⟨next, taken, rest⟩ := run_cons_iff.mp executed
      have kept := property_iff initial holds taken
      constructor
      · rintro ⟨-, always⟩
        have holds_next := (always next taken).head
        refine ⟨kept.mp holds_next, fun other other_taken => ?_⟩
        obtain rfl : next = other := Option.some.inj (taken.symm.trans other_taken)
        exact (ih (preserved initial taken) holds_next rest).mp (always next taken)
      · rintro ⟨guarded, along⟩
        refine ⟨holds, fun other other_taken => ?_⟩
        obtain rfl : next = other := Option.some.inj (taken.symm.trans other_taken)
        exact (ih (preserved initial taken) (kept.mpr guarded) rest).mpr (along next taken)

theorem Always.mono {property weaker : σ → Prop} {state : σ} {labels : List ε}
    (always : Always step property state labels)
    (weaken : ∀ state, property state → weaker state) : Always step weaker state labels := by
  induction labels generalizing state with
  | nil => exact weaken state always
  | cons label labels ih =>
      exact ⟨weaken state always.1, fun next taken => ih (always.2 next taken)⟩

/-- What a property says about the next step holds along a run that keeps the property. -/
theorem Always.along {property : σ → Prop} {goal : σ → ε → Prop} {state : σ} {labels : List ε}
    (always : Always step property state labels)
    (local_goal : ∀ state label, property state → goal state label) :
    Along step goal state labels := by
  induction labels generalizing state with
  | nil => trivial
  | cons label labels ih =>
      exact ⟨local_goal state label always.1, fun next taken => ih (always.2 next taken)⟩

theorem Always.final {property : σ → Prop} {state final : σ} {labels : List ε}
    (always : Always step property state labels)
    (executed : run step state labels = some final) : property final := by
  induction labels generalizing state with
  | nil =>
      obtain rfl : state = final := by simpa using executed
      exact always
  | cons label labels ih =>
      obtain ⟨next, taken, rest⟩ := run_cons_iff.mp executed
      exact ih (always.2 next taken) rest

end Execution
