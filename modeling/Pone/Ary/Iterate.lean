import Pone.Ary.Elements

/-!
# Iteration over arrays

`Array::Iterator#pull-one` compares its position with the size of the array by `!=`, so it comes to
the end only where the two meet.
-/

namespace Pone
namespace Ary

universe u

variable {α : Type u}

/-- An `Array::Iterator`: the array `$!val` and the position `$!i`, an integer that nobody else
has. -/
structure Iteration (α : Type u) where
  ary : PoneAry α
  i : Int

/-- What a pull gives back. -/
inductive Pulled (α : Type u) where
  | iterationEnd
  | gives (c : Cell α)
  deriving DecidableEq

/-- `meth_ary_iterator` -/
def aryIterator (self : PoneAry α) : Iteration α := { ary := self, i := 0 }

/-- `meth_pull_one` -/
def pullOne (nil : α) (self : Iteration α) : Except Halt (Iteration α × Pulled α) :=
  if self.i ≠ self.ary.len then do
    let val ← aryAtPos nil self.ary self.i
    return ({ self with i := wrap (self.i + 1) }, .gives val)
  else .ok (self, .iterationEnd)

/-- What happens to an array that is iterated over. -/
inductive Event (α : Type u) where
  | pull
  | on (op : Op α) (granted : Bool)

/-- A sequence of events, with what the pulls give back. -/
def iterate (nil : α) (self : Iteration α) :
    List (Event α) → Except Halt (Iteration α × List (Pulled α))
  | [] => .ok (self, [])
  | .pull :: rest => do
      let (self, next) ← pullOne nil self
      let (self, pulled) ← iterate nil self rest
      return (self, next :: pulled)
  | .on op granted :: rest => do
      let (ary, _) ← step nil self.ary granted op
      iterate nil { self with ary } rest

/-- The operations among the events. -/
def opsOf : List (Event α) → List (Op α × Bool)
  | [] => []
  | .pull :: rest => opsOf rest
  | .on op granted :: rest => (op, granted) :: opsOf rest

/-- The rounds of a `for` loop, as many as `fuel`, from round `k` on; its body leaves the array
`arys k` before that round.  The number of rounds at which it ends. -/
def forLoop (nil : α) (arys : Nat → PoneAry α) : Nat → Nat → Int → Except Halt (Option Nat)
  | 0, _, _ => .ok none
  | fuel + 1, k, i =>
      match pullOne nil { ary := arys k, i } with
      | .error halt => .error halt
      | .ok (_, .iterationEnd) => .ok (some k)
      | .ok (iter, .gives _) => forLoop nil arys fuel (k + 1) iter.i

/-! ## What pulls are to give -/

/-- What the pulls are to give, from the position `k` in the list on. -/
def specPulls (nil : α) (xs : List α) (k : Nat) : List (Event α) → List (Pulled α)
  | [] => []
  | .pull :: rest =>
      match xs[k]? with
      | some x => .gives (.ptr x) :: specPulls nil xs (k + 1) rest
      | none => .iterationEnd :: specPulls nil xs k rest
  | .on op _ :: rest => specPulls nil (specStep nil xs op).1 k rest

/-- At every pull, the position is not behind the end of the list. -/
def NeverPast (nil : α) (xs : List α) (k : Nat) : List (Event α) → Prop
  | [] => True
  | .pull :: rest => k ≤ xs.length ∧ NeverPast nil xs (if k < xs.length then k + 1 else k) rest
  | .on op _ :: rest => NeverPast nil (specStep nil xs op).1 k rest

/-- The indices of the assignments are integers of the language. -/
def Event.InRange : Event α → Prop
  | .pull => True
  | .on op _ => op.InRange

variable {nil : α}

/-! ## One pull -/

theorem pullOne_inside {self : PoneAry α} {xs : List α} (elements : Elements self xs) {k : Nat}
    {x : α} (found : xs[k]? = some x) :
    pullOne nil { ary := self, i := k } =
      .ok ({ ary := self, i := (k + 1 : Nat) }, .gives (.ptr x)) := by
  have inside := (List.getElem?_eq_some_iff.mp found).1
  have small := elements.kept.small
  have len_eq := elements.len_eq
  have before : (k : Int) ≠ self.len := by omega
  have next : wrap ((k : Int) + 1) = (k + 1 : Nat) := by
    rw [wrap_eq (by omega) (by omega)]
    omega
  have read : aryAtPos nil self k = .ok (.ptr x) := by
    rw [aryAtPos, if_pos (by omega), elements.holds.read found]
    rfl
  rw [pullOne, if_pos before]
  simp only [read, next, bind, Except.bind, pure, Except.pure]

theorem pullOne_end {self : PoneAry α} {xs : List α} (elements : Elements self xs) :
    pullOne nil { ary := self, i := xs.length } =
      .ok ({ ary := self, i := xs.length }, .iterationEnd) :=
  if_neg fun differs => differs elements.len_eq.symm

/-- Behind the end, there is nil. -/
theorem pullOne_past {self : PoneAry α} {xs : List α} (elements : Elements self xs) {i : Int}
    (past : xs.length < i) :
    pullOne nil { ary := self, i } = .ok ({ ary := self, i := wrap (i + 1) }, .gives (.ptr nil)) := by
  have len_eq := elements.len_eq
  have differs : i ≠ self.len := by omega
  have read : aryAtPos nil self i = .ok (.ptr nil) := by
    rw [aryAtPos, if_neg (by omega)]
  rw [pullOne, if_pos differs]
  simp only [read, bind, Except.bind, pure, Except.pure]

/-! ## Sequences of events -/

/-- Behind a pull, only the other events matter. -/
theorem iterate_pull_iff {self self' : Iteration α} {next next' : Pulled α}
    (done : pullOne nil self = .ok (self', next)) {rest : List (Event α)}
    {pulled : List (Pulled α)} :
    (∃ s', iterate nil self (.pull :: rest) = .ok (s', next' :: pulled)) ↔
      next = next' ∧ ∃ s', iterate nil self' rest = .ok (s', pulled) := by
  simp only [iterate, done, bind, Except.bind, pure, Except.pure]
  cases iterate nil self' rest with
  | error halt => simp
  | ok result =>
      obtain ⟨s, pulled'⟩ := result
      simp

/-- The pulls give what they are to give exactly if the position is never behind the end of the
array at a pull. -/
theorem iterate_eq_iff {self : PoneAry α} {xs : List α} (elements : Elements self xs) {k : Nat}
    {events : List (Event α)} (range : ∀ event ∈ events, event.InRange)
    {result : PoneAry α × List (Answer α)} (runs : run nil self (opsOf events) = .ok result) :
    (∃ self', iterate nil { ary := self, i := k } events =
        .ok (self', specPulls nil xs k events)) ↔
      NeverPast nil xs k events := by
  induction events generalizing self xs k result with
  | nil => exact iff_of_true ⟨_, rfl⟩ trivial
  | cons event rest ih =>
      have range' : ∀ event ∈ rest, event.InRange :=
        fun event among => range event (List.mem_cons_of_mem _ among)
      cases event with
      | pull =>
          have runs' : run nil self (opsOf rest) = .ok result := runs
          rcases Nat.lt_trichotomy k xs.length with inside | rfl | past
          · have found : xs[k]? = some xs[k] := List.getElem?_eq_getElem inside
            rw [specPulls, found, NeverPast, if_pos inside, and_iff_right inside.le,
              iterate_pull_iff (pullOne_inside elements found), and_iff_right rfl]
            exact ih elements range' runs'
          · have found : xs[xs.length]? = none := List.getElem?_eq_none (Nat.le_refl _)
            rw [specPulls, found, NeverPast, if_neg (Nat.lt_irrefl _),
              and_iff_right (Nat.le_refl _), iterate_pull_iff (pullOne_end elements),
              and_iff_right rfl]
            exact ih elements range' runs'
          · have found : xs[k]? = none := List.getElem?_eq_none past.le
            have past' : (xs.length : Int) < k := Int.ofNat_lt.mpr past
            rw [specPulls, found, NeverPast, iterate_pull_iff (pullOne_past elements past')]
            exact iff_of_false (fun same => nomatch same.1) fun never => Nat.not_le.mpr past never.1
      | on op granted =>
          rw [opsOf, run] at runs
          cases done : step nil self granted op with
          | error halt =>
              rw [done] at runs
              cases runs
          | ok stepped =>
              obtain ⟨self', answer⟩ := stepped
              rw [done] at runs
              cases rest_runs : run nil self' (opsOf rest) with
              | error halt =>
                  simp only [rest_runs, bind, Except.bind] at runs
                  cases runs
              | ok result' =>
                  have elements' : Elements self' (specStep nil xs op).1 :=
                    elements.step (range _ List.mem_cons_self) done
                  have next := ih (k := k) elements' range' rest_runs
                  rw [NeverPast, ← next]
                  simp only [iterate, done, specPulls, bind, Except.bind]

/-! ## Loops -/

section Loop

variable {arys : Nat → PoneAry α} {lists : Nat → List α}

theorem forLoop_inside (each : ∀ k, Elements (arys k) (lists k)) (fuel : Nat) {k : Nat}
    (inside : k < (lists k).length) :
    forLoop nil arys (fuel + 1) k k = forLoop nil arys fuel (k + 1) (k + 1 : Nat) := by
  have found : (lists k)[k]? = some (lists k)[k] := List.getElem?_eq_getElem inside
  rw [forLoop, pullOne_inside (each k) found]

theorem forLoop_end (each : ∀ k, Elements (arys k) (lists k)) (fuel : Nat) {k : Nat}
    (meets : k = (lists k).length) : forLoop nil arys (fuel + 1) k k = .ok (some k) := by
  have ends : pullOne nil { ary := arys k, i := (lists k).length } = _ := pullOne_end (each k)
  rw [← meets] at ends
  rw [forLoop, ends]

/-- Once the position is behind the end of an array that does not grow, the loop goes on. -/
theorem forLoop_past (each : ∀ k, Elements (arys k) (lists k))
    (shrinks : Antitone fun k => (lists k).length) {fuel k : Nat} {i : Int}
    (past : (lists k).length < i) (room : i + fuel < 2 ^ 63) :
    forLoop nil arys fuel k i = .ok none := by
  induction fuel generalizing k i with
  | zero => rfl
  | succ fuel ih =>
      have next : wrap (i + 1) = i + 1 := wrap_eq (by omega) (by omega)
      have size : (lists (k + 1)).length ≤ (lists k).length := shrinks (Nat.le_succ k)
      rw [forLoop, pullOne_past (each k) past, next]
      exact ih (k := k + 1) (i := i + 1) (by omega) (by omega)

/-- In the rounds from `k` on, the array is never smaller than the number of rounds before. -/
def KeepsUp (lists : Nat → List α) (k : Nat) : Prop :=
  ∀ k', k ≤ k' → (∀ j < k', j < (lists j).length) → k' ≤ (lists k').length

/-- The rounds from round `k` on, when there have been `k` rounds before: either the loop ends where
the position meets the size, or it is still going on. -/
theorem forLoop_cases (nil : α) (each : ∀ k, Elements (arys k) (lists k))
    (shrinks : Antitone fun k => (lists k).length) {fuel k : Nat}
    (total : k + fuel = (lists 0).length + 1) (before : ∀ j < k, j < (lists j).length) :
    (KeepsUp lists k ∧ ∃ m ≤ (lists 0).length, forLoop nil arys fuel k k = .ok (some m)) ∨
      (¬ KeepsUp lists k ∧ forLoop nil arys fuel k k = .ok none) := by
  have small := (each 0).kept.small
  have sizes (j : Nat) : (lists j).length ≤ (lists 0).length := shrinks (Nat.zero_le j)
  induction fuel generalizing k with
  | zero =>
      refine .inr ⟨fun keeps => ?_, rfl⟩
      have size := sizes k
      have within := keeps k (Nat.le_refl k) before
      omega
  | succ fuel ih =>
      rcases Nat.lt_trichotomy k (lists k).length with inside | meets | past
      · have before' : ∀ j < k + 1, j < (lists j).length := by
          intro j earlier
          rcases Nat.lt_succ_iff_lt_or_eq.mp earlier with lt | rfl
          · exact before j lt
          · exact inside
        have same : KeepsUp lists k ↔ KeepsUp lists (k + 1) := by
          refine ⟨fun keeps k' later => keeps k' (Nat.le_of_succ_le later), fun keeps k' le started => ?_⟩
          rcases Nat.eq_or_lt_of_le le with rfl | later
          · exact inside.le
          · exact keeps k' later started
        rw [same, forLoop_inside each fuel inside]
        exact ih (by omega) before'
      · refine .inl ⟨fun k' le started => ?_, k, meets.le.trans (sizes k), forLoop_end each fuel meets⟩
        rcases Nat.eq_or_lt_of_le le with rfl | later
        · exact meets.le
        · exact absurd (started k later) (Nat.not_lt.mpr meets.ge)
      · refine .inr ⟨fun keeps => Nat.not_le.mpr past (keeps k (Nat.le_refl k) before), ?_⟩
        exact forLoop_past each shrinks (Int.ofNat_lt.mpr past) (by omega)

/-- A loop over an array that does not grow ends after at most as many rounds as there were elements
exactly if the array never gets smaller than the number of rounds that there have been. -/
theorem forLoop_le_iff (each : ∀ k, Elements (arys k) (lists k))
    (shrinks : Antitone fun k => (lists k).length) :
    (∃ m ≤ (lists 0).length, forLoop nil arys ((lists 0).length + 1) 0 0 = .ok (some m)) ↔
      KeepsUp lists 0 := by
  rcases forLoop_cases nil each shrinks (Nat.zero_add _) (by simp) with
    ⟨keeps, ends⟩ | ⟨late, goes_on⟩
  · exact iff_of_true ends keeps
  · exact iff_of_false (fun ⟨m, _, ends⟩ => nomatch goes_on.symm.trans ends) late

end Loop

/-- The pulls from a new array give its elements and come to its end, whatever happens to it, exactly
if the position is never behind the end at a pull; and a loop whose body leaves the array no larger
has at most as many rounds as there are elements exactly if the array keeps up with them. -/
theorem iteration_iff (nil : α) {vs : List α} {granted : Bool} {self : PoneAry α}
    (made : aryNew granted vs = .ok self) {events : List (Event α)}
    (range : ∀ event ∈ events, event.InRange) {result : PoneAry α × List (Answer α)}
    (runs : run nil self (opsOf events) = .ok result) {arys : Nat → PoneAry α}
    {lists : Nat → List α} (each : ∀ k, Elements (arys k) (lists k))
    (shrinks : Antitone fun k => (lists k).length) :
    ((∃ self', iterate nil (aryIterator self) events =
        .ok (self', specPulls nil vs 0 events)) ↔ NeverPast nil vs 0 events) ∧
      ((∃ m ≤ (lists 0).length,
        forLoop nil arys ((lists 0).length + 1) 0 0 = .ok (some m)) ↔ KeepsUp lists 0) :=
  ⟨iterate_eq_iff (aryNew_elements made) range runs, forLoop_le_iff each shrinks⟩

/-- `[5, 6]` -/
def fiveSix : PoneAry Nat :=
  { a := [.ptr 5, .ptr 6] ++ Block.fresh 6, max := 2, len := 2 }

/-- A value is pushed behind the first pull, and a loop leaves the array alone. -/
theorem iteration_iff_push :
    (∃ self', iterate 0 (aryIterator fiveSix) [.pull, .on (.push 7) true, .pull, .pull, .pull] =
        .ok (self', [.gives (.ptr 5), .gives (.ptr 6), .gives (.ptr 7), .iterationEnd])) ∧
      ∃ m ≤ 2, forLoop 0 (fun _ => fiveSix) 3 0 0 = .ok (some m) := by
  have made : aryNew true [5, 6] = .ok fiveSix := rfl
  have range : ∀ event ∈ [.pull, .on (.push 7) true, .pull, .pull, (.pull : Event Nat)],
      event.InRange := by simp [Event.InRange, Op.InRange]
  have each (k : Nat) : Elements fiveSix [5, 6] := aryNew_elements made
  obtain ⟨pulls, loop⟩ := iteration_iff 0 made range rfl each fun _ _ _ => Nat.le_refl 2
  refine ⟨pulls.mpr (by simp [NeverPast, specStep]), loop.mpr fun k _ started => ?_⟩
  exact Nat.not_lt.mp fun beyond => Nat.lt_irrefl 2 (started 2 beyond)

/-- The array gets smaller than the position: the last pull gives nil and not the end, and so do all
that follow. -/
theorem not_iteration_pop :
    ¬ ∃ self', iterate 0 (aryIterator fiveSix) [.pull, .pull, .on .pop true, .pull] =
      .ok (self', specPulls 0 [5, 6] 0 [.pull, .pull, .on .pop true, .pull]) := by
  rintro ⟨self', pulled⟩
  have found : ∃ self'', iterate 0 (aryIterator fiveSix) [.pull, .pull, .on .pop true, .pull] =
      .ok (self'', [.gives (.ptr 5), .gives (.ptr 6), .gives (.ptr 0)]) := ⟨_, rfl⟩
  obtain ⟨self'', found⟩ := found
  cases pulled.symm.trans found

end Ary
end Pone
