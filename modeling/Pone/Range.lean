import Pone.CLong
import Pone.Simulation

/-!
# Ranges

An iterator counts in an `Int` object of its own, which `pone_int_incr` changes in place, and hands
out copies.  The number behind the last one is computed too.
-/

namespace Pone
namespace Range

open Simulation (orHalt)

/-- An `Int` object -/
structure PoneInt where
  i : Int
  frozen : Bool
  deriving DecidableEq

/-- A `Range` object: the objects `$!min` and `$!max`. -/
structure RangeObj where
  min : Nat
  max : Nat

/-- A `Range::Iterator` object: the objects `$!i` and `$!max`. -/
structure Iterator where
  i : Nat
  max : Nat
  deriving DecidableEq

/-- The `Int` objects, the iterators, and the objects that the iterators have handed out, each by the
order in which they are made. -/
structure State where
  ints : List PoneInt
  iters : List Iterator
  values : List Nat

inductive Halt where
  /-- An object is read that is not there. -/
  | wild
  /-- The result of `i++` is out of range, which C leaves undefined. -/
  | overflow
  /-- `You can't modify an itenger literal` -/
  | exits
  deriving DecidableEq

inductive Answer where
  | done
  | iterationEnd
  | gives (i : Int)
  deriving DecidableEq

/-- `pone_int_val`, and `pone_intify` of an integer -/
def intVal (ints : List PoneInt) (n : Nat) : Except Halt Int := orHalt .wild ((ints[n]?).map PoneInt.i)

/-- `pone_int_new` -/
def intNew (ints : List PoneInt) (i : Int) : List PoneInt := ints ++ [{ i, frozen := false }]

/-- `pone_int_incr` -/
def intIncr (ints : List PoneInt) (n : Nat) : Except Halt (List PoneInt) :=
  match ints[n]? with
  | none => .error .wild
  | some int =>
      if int.frozen then .error .exits
      else
        match CLong.incr int.i with
        | none => .error .overflow
        | some i => .ok (ints.set n { int with i })

/-- `meth_range_iterator` -/
def methRangeIterator (self : RangeObj) (s : State) : Except Halt (State × Answer) := do
  let i ← intVal s.ints self.min
  return ({ s with
    ints := intNew s.ints i
    iters := s.iters ++ [{ i := s.ints.length, max := self.max }] }, .done)

/-- `meth_pull_one` -/
def methPullOne (s : State) (self : Nat) : Except Halt (State × Answer) := do
  let iter ← orHalt .wild s.iters[self]?
  let i ← intVal s.ints iter.i
  let max ← intVal s.ints iter.max
  if max < i then return (s, .iterationEnd)
  else do
    let retval := s.ints.length
    let ints ← intIncr (intNew s.ints i) iter.i
    return ({ s with ints, values := s.values ++ [retval] }, .gives i)

/-- What happens to the iterators of a range, and to the values that they have handed out, which the
program may change and look at. -/
inductive Op where
  | iterator
  | pull (iter : Nat)
  | change (value : Nat) (i : Int)
  | look (value : Nat)

def step (self : RangeObj) (s : State) : Op → Except Halt (State × Answer)
  | .iterator => methRangeIterator self s
  | .pull iter => methPullOne s iter
  | .change value i => do
      let n ← orHalt .wild s.values[value]?
      let int ← orHalt .wild s.ints[n]?
      return ({ s with ints := s.ints.set n { int with i } }, .done)
  | .look value => do
      let n ← orHalt .wild s.values[value]?
      return (s, .gives (← intVal s.ints n))

/-! ## What iteration is to be -/

/-- How many values each iterator has handed out, and the values. -/
structure Spec where
  iters : List Nat
  values : List Int

/-- The iterators of `a..b` hand out `a`, `a + 1`, … up to `b`, each for itself, and then come to the
end; a value is changed only when the program does. -/
def spec (a b : Int) (x : Spec) : Op → Spec × Answer
  | .iterator => ({ x with iters := x.iters ++ [0] }, .done)
  | .pull iter =>
      let n := x.iters.getD iter 0
      if a + n ≤ b then
        ({ iters := x.iters.set iter (n + 1), values := x.values ++ [a + n] }, .gives (a + n))
      else (x, .iterationEnd)
  | .change value i => ({ x with values := x.values.set value i }, .done)
  | .look value => (x, .gives (x.values.getD value 0))

/-- The iterator or the value exists. -/
def InScope (x : Spec) : Op → Prop
  | .iterator => True
  | .pull iter => iter < x.iters.length
  | .change value _ => value < x.values.length
  | .look value => value < x.values.length

/-- The objects that the iterators count in and those handed out. -/
def State.owned (s : State) : List Nat := s.values ++ s.iters.map Iterator.i

/-- The iterators and the values are those of the specification, and no object has two of the roles
or is a bound of the range. -/
structure Shows (range : RangeObj) (a b : Int) (s : State) (x : Spec) : Prop where
  min : (s.ints[range.min]?).map PoneInt.i = some a
  max : (s.ints[range.max]?).map PoneInt.i = some b
  iters : s.iters.map (fun iter => (iter.max, s.ints[iter.i]?)) =
    x.iters.map fun n => (range.max, some { i := a + (n : Int), frozen := false })
  values : s.values.map (fun n => (s.ints[n]?).map PoneInt.i) = x.values.map some
  nodup : s.owned.Nodup
  apart : range.min ∉ s.owned ∧ range.max ∉ s.owned

/-- No value is handed out behind which the counter cannot be. -/
def Allowed (a b : Int) (x : Spec) : Op → Prop
  | .pull iter => a + x.iters.getD iter 0 ≤ b → a + x.iters.getD iter 0 ≠ CLong.maximum
  | _ => True

/-! ## Objects with one role -/

/-- Where a function changes at one place only. -/
theorem map_eq_set {β γ : Type} {xs : List β} {k : Nat} {x : β} (found : xs[k]? = some x)
    {f g : β → γ} (same : ∀ j y, xs[j]? = some y → j ≠ k → g y = f y) :
    xs.map g = (xs.map f).set k (g x) := by
  apply List.ext_getElem?
  intro j
  rw [List.getElem?_set, List.getElem?_map, List.getElem?_map, List.length_map]
  by_cases here : k = j
  · subst here
    rw [if_pos rfl, if_pos (List.getElem?_eq_some_iff.mp found).1, found]
    rfl
  · rw [if_neg here]
    cases found' : xs[j]? with
    | none => rfl
    | some y => exact congrArg some (same j y found' (Ne.symm here))

namespace Shows

variable {self : RangeObj} {a b : Int} {s : State} {x : Spec}

theorem getElem?_iters (shows : Shows self a b s x) {k n : Nat} (found : x.iters[k]? = some n) :
    ∃ iter, s.iters[k]? = some iter ∧ iter.max = self.max ∧
      s.ints[iter.i]? = some { i := a + (n : Int), frozen := false } := by
  have same := congrArg (·[k]?) shows.iters
  simp only [List.getElem?_map, found, Option.map_some, Option.map_eq_some_iff, Prod.mk.injEq] at same
  obtain ⟨iter, found', max_eq, int⟩ := same
  exact ⟨iter, found', max_eq, int⟩

theorem getElem?_values (shows : Shows self a b s x) {k : Nat} {i : Int}
    (found : x.values[k]? = some i) :
    ∃ n int, s.values[k]? = some n ∧ s.ints[n]? = some int ∧ int.i = i := by
  have same := congrArg (·[k]?) shows.values
  simp only [List.getElem?_map, found, Option.map_some, Option.map_eq_some_iff] at same
  obtain ⟨n, found', int, found_int, rfl⟩ := same
  exact ⟨n, int, found', found_int, rfl⟩

theorem lt_of_owned (shows : Shows self a b s x) {n : Nat} (owned : n ∈ s.owned) :
    n < s.ints.length := by
  rcases List.mem_append.mp owned with value | iter
  · have present : (s.ints[n]?).map PoneInt.i ∈ x.values.map some := by
      rw [← shows.values]
      exact List.mem_map_of_mem value
    obtain ⟨i, -, found⟩ := List.mem_map.mp present
    obtain ⟨int, found', -⟩ := Option.map_eq_some_iff.mp found.symm
    exact (List.getElem?_eq_some_iff.mp found').1
  · obtain ⟨it, among, rfl⟩ := List.mem_map.mp iter
    have present : (it.max, s.ints[it.i]?) ∈
        x.iters.map fun n => (self.max, some { i := a + (n : Int), frozen := false }) := by
      rw [← shows.iters]
      exact List.mem_map_of_mem among
    obtain ⟨n, -, found⟩ := List.mem_map.mp present
    exact (List.getElem?_eq_some_iff.mp (Prod.mk.inj found).2.symm).1

theorem new_not_owned (shows : Shows self a b s x) : s.ints.length ∉ s.owned :=
  fun owned => Nat.lt_irrefl _ (shows.lt_of_owned owned)

theorem min_lt (shows : Shows self a b s x) : self.min < s.ints.length := by
  obtain ⟨int, found, -⟩ := Option.map_eq_some_iff.mp shows.min
  exact (List.getElem?_eq_some_iff.mp found).1

theorem max_lt (shows : Shows self a b s x) : self.max < s.ints.length := by
  obtain ⟨int, found, -⟩ := Option.map_eq_some_iff.mp shows.max
  exact (List.getElem?_eq_some_iff.mp found).1

/-- A new object has no role. -/
theorem push (shows : Shows self a b s x) (i : Int) :
    Shows self a b { s with ints := intNew s.ints i } x := by
  have same {n : Nat} (inside : n < s.ints.length) : (intNew s.ints i)[n]? = s.ints[n]? :=
    List.getElem?_append_left inside
  refine ⟨?_, ?_, ?_, ?_, shows.nodup, shows.apart⟩
  · rw [same shows.min_lt, shows.min]
  · rw [same shows.max_lt, shows.max]
  · rw [← shows.iters]
    refine List.map_congr_left fun iter among => ?_
    rw [same (shows.lt_of_owned (List.mem_append_right _ (List.mem_map_of_mem among)))]
  · rw [← shows.values]
    refine List.map_congr_left fun n among => ?_
    rw [same (shows.lt_of_owned (List.mem_append_left _ among))]

/-- An object without a role becomes the counter of a new iterator. -/
theorem addIter (shows : Shows self a b s x) {n : Nat}
    (found : s.ints[n]? = some { i := a, frozen := false }) (new : n ∉ s.owned)
    (other : n ≠ self.min ∧ n ≠ self.max) :
    Shows self a b { s with iters := s.iters ++ [{ i := n, max := self.max }] }
      { x with iters := x.iters ++ [0] } := by
  have owned : ({ s with iters := s.iters ++ [{ i := n, max := self.max }] } : State).owned =
      s.owned ++ [n] := by
    simp [State.owned]
  refine ⟨shows.min, shows.max, ?_, shows.values, ?_, ?_⟩
  · simp [shows.iters, found]
  · rw [owned]
    exact List.nodup_append.mpr ⟨shows.nodup, by simp, by
      intro m among k only
      rw [List.mem_singleton.mp only]
      exact fun same => new (same ▸ among)⟩
  · rw [owned]
    simp [shows.apart, other.1.symm, other.2.symm]

/-- An object without a role is handed out. -/
theorem addValue (shows : Shows self a b s x) {n : Nat} {i : Int}
    (found : (s.ints[n]?).map PoneInt.i = some i) (new : n ∉ s.owned)
    (other : n ≠ self.min ∧ n ≠ self.max) :
    Shows self a b { s with values := s.values ++ [n] } { x with values := x.values ++ [i] } := by
  have owned : ({ s with values := s.values ++ [n] } : State).owned =
      s.values ++ n :: s.iters.map Iterator.i := by
    simp [State.owned]
  refine ⟨shows.min, shows.max, shows.iters, ?_, ?_, ?_⟩
  · simp [shows.values, found]
  · rw [owned]
    exact (List.perm_middle.nodup_iff).mpr (List.nodup_cons.mpr ⟨new, shows.nodup⟩)
  · rw [owned]
    have apart := shows.apart
    simp only [State.owned, List.mem_append, not_or] at apart
    simp [apart, other.1.symm, other.2.symm]

/-- The counter of an iterator is changed. -/
theorem setIter (shows : Shows self a b s x) {k n : Nat} {iter : Iterator}
    (found_n : x.iters[k]? = some n) (found : s.iters[k]? = some iter) :
    Shows self a b
      { s with ints := s.ints.set iter.i { i := a + ((n + 1 : Nat) : Int), frozen := false } }
      { x with iters := x.iters.set k (n + 1) } := by
  obtain ⟨iter', found', max_eq, int⟩ := shows.getElem?_iters found_n
  obtain rfl : iter = iter' := Option.some.inj (found.symm.trans found')
  obtain ⟨nodup_values, nodup_iters, disjoint⟩ := List.nodup_append.mp shows.nodup
  have among : iter.i ∈ s.iters.map Iterator.i :=
    List.mem_map_of_mem (List.mem_of_getElem? found)
  have inside := shows.lt_of_owned (List.mem_append_right _ among)
  have same {m : Nat} (other : m ≠ iter.i) (v : PoneInt) : (s.ints.set iter.i v)[m]? = s.ints[m]? :=
    List.getElem?_set_ne other.symm
  have not_owned {m : Nat} (apart : m ∉ s.owned) : m ≠ iter.i :=
    fun equal => apart (equal ▸ List.mem_append_right _ among)
  refine ⟨?_, ?_, ?_, ?_, shows.nodup, shows.apart⟩
  · rw [same (not_owned shows.apart.1), shows.min]
  · rw [same (not_owned shows.apart.2), shows.max]
  · have others : ∀ j y, s.iters[j]? = some y → j ≠ k →
        (y.max, (s.ints.set iter.i { i := a + ((n + 1 : Nat) : Int), frozen := false })[y.i]?) =
          (y.max, s.ints[y.i]?) := by
      intro j y found_y differs
      rw [same]
      intro equal
      apply differs
      apply (List.getElem?_inj (by simpa using (List.getElem?_eq_some_iff.mp found_y).1)
        nodup_iters).mp
      rw [List.getElem?_map, List.getElem?_map, found_y, found, Option.map_some, equal]
      rfl
    rw [map_eq_set found others, shows.iters, List.map_set, List.getElem?_set_self inside, max_eq]
  · rw [← shows.values]
    refine List.map_congr_left fun m value => ?_
    rw [same (disjoint m value _ among)]

/-- The program changes a value. -/
theorem setValue (shows : Shows self a b s x) {k n : Nat} {int : PoneInt}
    (found : s.values[k]? = some n) (found_int : s.ints[n]? = some int) (i : Int) :
    Shows self a b { s with ints := s.ints.set n { int with i } }
      { x with values := x.values.set k i } := by
  obtain ⟨nodup_values, nodup_iters, disjoint⟩ := List.nodup_append.mp shows.nodup
  have among : n ∈ s.values := List.mem_of_getElem? found
  have inside := (List.getElem?_eq_some_iff.mp found_int).1
  have same {m : Nat} (other : m ≠ n) (v : PoneInt) : (s.ints.set n v)[m]? = s.ints[m]? :=
    List.getElem?_set_ne other.symm
  have not_owned {m : Nat} (apart : m ∉ s.owned) : m ≠ n :=
    fun equal => apart (equal ▸ List.mem_append_left _ among)
  refine ⟨?_, ?_, ?_, ?_, shows.nodup, shows.apart⟩
  · rw [same (not_owned shows.apart.1), shows.min]
  · rw [same (not_owned shows.apart.2), shows.max]
  · rw [← shows.iters]
    refine List.map_congr_left fun iter iterating => ?_
    rw [same (disjoint n among _ (List.mem_map_of_mem iterating)).symm]
  · have others : ∀ j y, s.values[j]? = some y → j ≠ k →
        ((s.ints.set n { int with i })[y]?).map PoneInt.i = (s.ints[y]?).map PoneInt.i := by
      intro j y found_y differs
      rw [same]
      rintro rfl
      apply differs
      exact (List.getElem?_inj (List.getElem?_eq_some_iff.mp found_y).1 nodup_values).mp
        (found_y.trans found.symm)
    rw [map_eq_set found others, shows.values, List.map_set, List.getElem?_set_self inside]
    rfl

end Shows

/-! ## One operation -/

section Step

variable {self : RangeObj} {a b : Int} {s : State} {x : Spec}

theorem iterator_agrees (shows : Shows self a b s x) :
    Simulation.Agrees (Shows self a b) (spec a b x .iterator) (step self s .iterator) := by
  have read : intVal s.ints self.min = .ok a := by rw [intVal, shows.min, orHalt]
  have found : (intNew s.ints a)[s.ints.length]? = some { i := a, frozen := false } := by
    simp [intNew]
  refine ⟨_, ?_, (shows.push a).addIter found shows.new_not_owned
    ⟨Nat.ne_of_gt shows.min_lt, Nat.ne_of_gt shows.max_lt⟩⟩
  simp only [step, methRangeIterator, read, bind, Except.bind, pure, Except.pure, spec]

/-- A value is handed out unless it is the last one that there is. -/
theorem pull_agrees_iff (shows : Shows self a b s x) (fits : CLong.Fits a) (fits_b : CLong.Fits b)
    {k : Nat} (scope : k < x.iters.length) :
    Simulation.Agrees (Shows self a b) (spec a b x (.pull k)) (step self s (.pull k)) ↔
      Allowed a b x (.pull k) := by
  obtain ⟨n, found_n⟩ : ∃ n, x.iters[k]? = some n := ⟨_, List.getElem?_eq_getElem scope⟩
  obtain ⟨iter, found, max_eq, int⟩ := shows.getElem?_iters found_n
  have position : x.iters.getD k 0 = n := by rw [List.getD_eq_getElem?_getD, found_n]; rfl
  have read : intVal s.ints iter.i = .ok (a + n) := by rw [intVal, int]; rfl
  have bound : intVal s.ints iter.max = .ok b := by rw [intVal, max_eq, shows.max, orHalt]
  rw [Allowed, spec, position]
  by_cases more : a + (n : Int) ≤ b
  · have inside := (List.getElem?_eq_some_iff.mp int).1
    have counter : (intNew s.ints (a + n))[iter.i]? = some { i := a + (n : Int), frozen := false } := by
      rw [intNew, List.getElem?_append_left inside, int]
    have low := fits.1
    have high := fits_b.2
    rw [if_pos more, forall_prop_of_true more]
    by_cases last : a + (n : Int) = CLong.maximum
    · have overflows : CLong.incr (a + n) = none := by
        rw [last]
        rfl
      refine iff_of_false ?_ fun other => other last
      simp only [step, methPullOne, found, orHalt, read, bound, bind, Except.bind,
        if_neg (Int.not_lt.mpr more), intIncr, counter, Bool.false_eq_true, if_false, overflows]
      exact Simulation.not_agrees_error
    · have fits_n : CLong.Fits (a + n) := ⟨by omega, Int.le_trans more high⟩
      have next : CLong.incr (a + n) = some (a + ((n + 1 : Nat) : Int)) :=
        (CLong.incr_eq_some_iff fits_n).mpr ⟨lt_of_le_of_ne fits_n.2 last, by push_cast; omega⟩
      have copy : ((intNew s.ints (a + n))[s.ints.length]?).map PoneInt.i = some (a + (n : Int)) := by
        simp [intNew]
      have shows' := ((shows.push (a + n)).addValue copy shows.new_not_owned
        ⟨Nat.ne_of_gt shows.min_lt, Nat.ne_of_gt shows.max_lt⟩).setIter found_n found
      refine iff_of_true ⟨_, ?_, shows'⟩ last
      simp only [step, methPullOne, found, orHalt, read, bound, bind, Except.bind,
        if_neg (Int.not_lt.mpr more), intIncr, counter, Bool.false_eq_true, if_false, next, pure,
        Except.pure]
  · have past : b < a + n := Int.not_le.mp more
    refine iff_of_true ⟨s, ?_, ?_⟩ fun within => absurd within more
    · simp only [step, methPullOne, found, orHalt, read, bound, bind, Except.bind, if_pos past,
        if_neg more, pure, Except.pure]
    · simp only [if_neg more]
      exact shows

theorem change_agrees (shows : Shows self a b s x) {k : Nat} (scope : k < x.values.length)
    (i : Int) :
    Simulation.Agrees (Shows self a b) (spec a b x (.change k i)) (step self s (.change k i)) := by
  obtain ⟨n, int, found, found_int, -⟩ := shows.getElem?_values (List.getElem?_eq_getElem scope)
  refine ⟨_, ?_, shows.setValue found found_int i⟩
  simp only [step, found, found_int, orHalt, bind, Except.bind, pure, Except.pure, spec]

theorem look_agrees (shows : Shows self a b s x) {k : Nat} (scope : k < x.values.length) :
    Simulation.Agrees (Shows self a b) (spec a b x (.look k)) (step self s (.look k)) := by
  have found_i : x.values[k]? = some x.values[k] := List.getElem?_eq_getElem scope
  obtain ⟨n, int, found, found_int, equal⟩ := shows.getElem?_values found_i
  refine ⟨s, ?_, shows⟩
  simp only [step, found, orHalt, intVal, found_int, Option.map_some, equal, bind, Except.bind, pure,
    Except.pure, spec, List.getD_eq_getElem?_getD, found_i, Option.getD_some]

/-- An operation does what it is to do exactly if no counter has to go beyond `LONG_MAX`. -/
theorem step_agrees_iff (shows : Shows self a b s x) (fits : CLong.Fits a) (fits_b : CLong.Fits b)
    (op : Op) (scope : InScope x op) :
    Simulation.Agrees (Shows self a b) (spec a b x op) (step self s op) ↔ Allowed a b x op := by
  cases op with
  | iterator => exact iff_of_true (iterator_agrees shows) trivial
  | pull k => exact pull_agrees_iff shows fits fits_b scope
  | change k i => exact iff_of_true (change_agrees shows scope i) trivial
  | look k => exact iff_of_true (look_agrees shows scope) trivial

end Step

/-! ## Runs -/

/-- A range, its bounds among other integers, before it is iterated over. -/
def start (ints : List PoneInt) : State := { ints, iters := [], values := [] }

def Spec.empty : Spec := { iters := [], values := [] }

variable {self : RangeObj} {a b : Int}

theorem shows_start {ints : List PoneInt} (min : (ints[self.min]?).map PoneInt.i = some a)
    (max : (ints[self.max]?).map PoneInt.i = some b) :
    Shows self a b (start ints) Spec.empty :=
  ⟨min, max, rfl, rfl, by simp [State.owned, start], by simp [State.owned, start]⟩

/-- Every run does what it is to do exactly if every operation on the way is allowed. -/
theorem follows_iff_always {s : State} {x : Spec} (shows : Shows self a b s x)
    (fits : CLong.Fits a) (fits_b : CLong.Fits b) {ops : List Op}
    (scope : Simulation.Within (spec a b) InScope x ops) :
    Simulation.Follows (step self) (spec a b) (Shows self a b) s x ops ↔
      Simulation.Always (step self) (spec a b) (fun _ => Allowed a b) s x ops :=
  Simulation.follows_iff (fun _ => True) InScope
    (fun _ _ op _ shows scope => ⟨step_agrees_iff shows fits fits_b op scope, fun _ _ _ => trivial⟩)
    trivial shows scope

theorem allowed_of_lt (below : a ≤ b → b < CLong.maximum) (x : Spec) (op : Op) :
    Allowed a b x op := by
  cases op with
  | pull k =>
      intro within last
      have := below (by omega)
      omega
  | iterator => trivial
  | change k i => trivial
  | look k => trivial

theorem always_of_lt (below : a ≤ b → b < CLong.maximum) (s : State) (x : Spec) (ops : List Op) :
    Simulation.Always (step self) (spec a b) (fun _ => Allowed a b) s x ops := by
  induction ops generalizing s x with
  | nil => trivial
  | cons op rest ih => exact ⟨allowed_of_lt below x op, fun s' answer _ => ih s' _⟩

/-- With `LONG_MAX` as the last value, the iterator comes to it after so many pulls, and then the
counter overflows. -/
theorem not_follows_of_eq {s : State} {x : Spec} (shows : Shows self a b s x) (fits : CLong.Fits a)
    (last : b = CLong.maximum) {k n m : Nat} (found : x.iters[k]? = some n)
    (distance : a + n + m = CLong.maximum) :
    ¬ ∀ ops, Simulation.Within (spec a b) InScope x ops →
      Simulation.Follows (step self) (spec a b) (Shows self a b) s x ops := by
  intro follows
  have fits_b : CLong.Fits b := by
    subst last
    decide
  have scope : InScope x (.pull k) := (List.getElem?_eq_some_iff.mp found).1
  have position : x.iters.getD k 0 = n := by rw [List.getD_eq_getElem?_getD, found]; rfl
  have within : a + (n : Int) ≤ b := by omega
  have pulls := (Simulation.follows_cons_iff shows).mp (follows [.pull k] ⟨scope, trivial⟩)
  induction m generalizing s x n with
  | zero =>
      have allowed := (pull_agrees_iff shows fits fits_b scope).mp pulls.1
      rw [Allowed, position] at allowed
      exact allowed within (by omega)
  | succ m ih =>
      obtain ⟨s', done, shows'⟩ := pulls.1
      have follows' : ∀ ops, Simulation.Within (spec a b) InScope (spec a b x (.pull k)).1 ops →
          Simulation.Follows (step self) (spec a b) (Shows self a b) s' (spec a b x (.pull k)).1
            ops := fun ops scopes =>
        ((Simulation.follows_cons_iff shows).mp (follows (.pull k :: ops) ⟨scope, scopes⟩)).2 s' _ done
      have found' : (spec a b x (.pull k)).1.iters[k]? = some (n + 1) := by
        simp only [spec, position, if_pos within]
        exact List.getElem?_set_self scope
      have scope' : InScope (spec a b x (.pull k)).1 (.pull k) :=
        (List.getElem?_eq_some_iff.mp found').1
      refine ih shows' found' (by push_cast; omega) follows' scope' ?_ (by push_cast; omega) ?_
      · rw [List.getD_eq_getElem?_getD, found']
        rfl
      · exact (Simulation.follows_cons_iff shows').mp (follows' [.pull k] ⟨scope', trivial⟩)

/-- Every run over a range gives what it is to give, without an overflow, exactly if the range is empty
or does not go up to `LONG_MAX`. -/
theorem range_iff {ints : List PoneInt} (min : (ints[self.min]?).map PoneInt.i = some a)
    (max : (ints[self.max]?).map PoneInt.i = some b) (fits : CLong.Fits a) (fits_b : CLong.Fits b) :
    (∀ ops, Simulation.Within (spec a b) InScope Spec.empty ops →
      Simulation.Follows (step self) (spec a b) (Shows self a b) (start ints) Spec.empty ops) ↔
      (a ≤ b → b < CLong.maximum) := by
  have shows := shows_start min max
  constructor
  · intro follows nonempty
    by_contra reaches
    have last : b = CLong.maximum := le_antisymm fits_b.2 (Int.not_lt.mp reaches)
    obtain ⟨s', done, shows'⟩ := iterator_agrees shows
    have distance : a + ((0 : Nat) : Int) + ((b - a).toNat : Int) = CLong.maximum := by omega
    refine not_follows_of_eq shows' fits last (k := 0) rfl distance fun ops scopes => ?_
    exact ((Simulation.follows_cons_iff shows).mp (follows (.iterator :: ops) ⟨trivial, scopes⟩)).2
      s' _ done
  · intro below ops scope
    exact (follows_iff_always shows fits fits_b scope).mpr (always_of_lt below _ _ ops)

/-- `1..2`, iterated over twice; the first value is changed. -/
theorem range_iff_twice :
    Simulation.Follows (step ⟨0, 1⟩) (spec 1 2) (Shows ⟨0, 1⟩ 1 2)
      (start [⟨1, true⟩, ⟨2, true⟩]) Spec.empty
      [.iterator, .pull 0, .change 0 7, .iterator, .pull 1, .pull 0, .pull 0, .look 0] := by
  have follows := @range_iff ⟨0, 1⟩ 1 2 [⟨1, true⟩, ⟨2, true⟩] rfl rfl (by decide) (by decide)
  apply follows.mpr (by decide)
  simp [Simulation.Within, InScope, spec, Spec.empty]

/-- The range that consists of `LONG_MAX` -/
theorem not_range_maximum :
    ¬ Simulation.Follows (step ⟨0, 0⟩) (spec CLong.maximum CLong.maximum)
      (Shows ⟨0, 0⟩ CLong.maximum CLong.maximum) (start [⟨CLong.maximum, true⟩]) Spec.empty
      [.iterator, .pull 0] := by
  intro follows
  obtain ⟨s, done, -⟩ := follows 2
  have overflows : Simulation.run (step ⟨0, 0⟩) (start [⟨CLong.maximum, true⟩])
      [.iterator, .pull 0] = .error .overflow := rfl
  cases overflows.symm.trans done

end Range
end Pone
