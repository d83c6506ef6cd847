import Mathlib.Data.List.Basic

/-!
# Copies by reference

Cells that hold a value of their own or refer to an earlier cell.  A reference is a copy as long as
the cell it refers to is not written: a write to a cell is seen by that cell alone exactly when it
changes nothing or no cell refers to the cell.
-/

namespace Cow

variable {β : Type*}

inductive Cell (β : Type*) where
  | own (value : β)
  | ref (source : Nat)

/-- The value at the end of the chain of references, of at most `fuel` cells. -/
def resolve (cells : List (Cell β)) : Nat → Nat → Option β
  | 0, _ => none
  | fuel + 1, i =>
      match cells[i]? with
      | some (.own value) => some value
      | some (.ref source) => resolve cells fuel source
      | none => none

def value (cells : List (Cell β)) (i : Nat) : Option β := resolve cells (i + 1) i

/-- References go to earlier cells. -/
def Backward (cells : List (Cell β)) : Prop :=
  ∀ i source, cells[i]? = some (Cell.ref source) → source < i

/-- No cell refers to this one. -/
def Unshared (cells : List (Cell β)) (i : Nat) : Prop := ∀ j : Nat, cells[j]? ≠ some (Cell.ref i)

/-- The values that the cells show. -/
def Holds (cells : List (Cell β)) (values : List β) : Prop := ∀ i, value cells i = values[i]?

theorem value_of_own {cells : List (Cell β)} {i : Nat} {c : β}
    (owned : cells[i]? = some (Cell.own c)) : value cells i = some c := by
  rw [value, resolve, owned]

/-- A write to a cell to which none refers is seen there alone. -/
theorem Unshared.value_set {cells : List (Cell β)} {i : Nat} (unshared : Unshared cells i) (c : β)
    {j : Nat} (other : j ≠ i) : value (cells.set i (.own c)) j = value cells j := by
  have same (fuel : Nat) : ∀ j ≠ i, resolve (cells.set i (.own c)) fuel j = resolve cells fuel j := by
    induction fuel with
    | zero => exact fun _ _ => rfl
    | succ fuel ih =>
        intro j other
        rw [resolve, resolve, List.getElem?_set_ne (Ne.symm other)]
        cases found : cells[j]? with
        | none => rfl
        | some cell =>
            cases cell with
            | own c => rfl
            | ref source =>
                apply ih
                rintro rfl
                exact unshared j found
  exact same (j + 1) j other

namespace Backward

variable {cells : List (Cell β)}

theorem resolve_eq (backward : Backward cells) {fuel i : Nat} (enough : i < fuel) :
    resolve cells fuel i = value cells i := by
  induction fuel using Nat.strongRecOn generalizing i with
  | ind fuel ih =>
      cases fuel with
      | zero => exact absurd enough (Nat.not_lt_zero i)
      | succ fuel =>
          rw [value, resolve, resolve]
          cases found : cells[i]? with
          | none => rfl
          | some cell =>
              cases cell with
              | own c => rfl
              | ref source =>
                  have earlier := backward i source found
                  simp only
                  rw [ih fuel (Nat.lt_succ_self fuel) (by omega)]
                  by_cases last : i = fuel
                  · subst last
                    exact (ih i (by omega) earlier).symm
                  · exact (ih i (by omega) earlier).symm

theorem value_of_ref (backward : Backward cells) {i source : Nat}
    (refers : cells[i]? = some (Cell.ref source)) : value cells i = value cells source := by
  rw [value, resolve, refers]
  exact backward.resolve_eq (backward i source refers)

theorem append (backward : Backward cells) {cell : Cell β}
    (earlier : ∀ source, cell = .ref source → source < cells.length) :
    Backward (cells ++ [cell]) := by
  intro i source found
  by_cases inside : i < cells.length
  · rw [List.getElem?_append_left inside] at found
    exact backward i source found
  · rw [List.getElem?_append_right (by omega), List.getElem?_singleton] at found
    split at found
    · cases found
      have := earlier source rfl
      omega
    · cases found

theorem set (backward : Backward cells) (i : Nat) (c : β) : Backward (cells.set i (.own c)) := by
  intro j source found
  rw [List.getElem?_set] at found
  split at found
  · split at found <;> cases found
  · exact backward j source found

/-- New cells do not change what the old ones show. -/
theorem value_append (backward : Backward cells) (more : List (Cell β)) {i : Nat}
    (inside : i < cells.length) : value (cells ++ more) i = value cells i := by
  have same (fuel : Nat) : ∀ i < cells.length,
      resolve (cells ++ more) fuel i = resolve cells fuel i := by
    induction fuel with
    | zero => exact fun _ _ => rfl
    | succ fuel ih =>
        intro i inside
        rw [resolve, resolve, List.getElem?_append_left inside]
        cases found : cells[i]? with
        | none => rfl
        | some cell =>
            cases cell with
            | own c => rfl
            | ref source => exact ih source (Nat.lt_trans (backward i source found) inside)
  exact same (i + 1) i inside

/-- A write that changes nothing is not seen. -/
theorem value_set_same (backward : Backward cells) {i : Nat} {c : β}
    (same : value cells i = some c) (j : Nat) :
    value (cells.set i (.own c)) j = value cells j := by
  induction j using Nat.strongRecOn with
  | ind j ih =>
      by_cases here : j = i
      · subst here
        have inside : j < cells.length := by
          by_contra outside
          have missing : cells[j]? = none := List.getElem?_eq_none (by omega)
          rw [value, resolve, missing] at same
          cases same
        rw [same]
        exact value_of_own (List.getElem?_set_self inside)
      · have kept : (cells.set i (.own c))[j]? = cells[j]? :=
          List.getElem?_set_ne (Ne.symm here)
        cases found : cells[j]? with
        | none => rw [value, resolve, value, resolve, kept, found]
        | some cell =>
            cases cell with
            | own c' => rw [value_of_own found, value_of_own (kept.trans found)]
            | ref source =>
                rw [backward.value_of_ref found,
                  (backward.set i c).value_of_ref (kept.trans found)]
                exact ih source (backward j source found)

end Backward

namespace Holds

variable {cells : List (Cell β)} {values : List β}

theorem inside (holds : Holds cells values) {i : Nat} {c : β} (found : values[i]? = some c) :
    i < cells.length := by
  by_contra outside
  have missing : cells[i]? = none := List.getElem?_eq_none (by omega)
  have shown := holds i
  rw [found, value, resolve, missing] at shown
  cases shown

/-- Every cell shows a value when the references go backward. -/
theorem length_eq (holds : Holds cells values) (backward : Backward cells) :
    cells.length = values.length := by
  have shows (i : Nat) (inside : i < cells.length) : ∃ c, value cells i = some c := by
    induction i using Nat.strongRecOn with
    | ind i ih =>
        cases found : cells[i]? with
        | none =>
            rw [List.getElem?_eq_none_iff] at found
            omega
        | some cell =>
            cases cell with
            | own c => exact ⟨c, value_of_own found⟩
            | ref source =>
                have earlier := backward i source found
                rw [backward.value_of_ref found]
                exact ih source earlier (by omega)
  apply Nat.le_antisymm
  · by_contra longer
    obtain ⟨c, shown⟩ := shows values.length (by omega)
    rw [holds] at shown
    simp at shown
  · by_contra shorter
    have last : values[cells.length]? = some values[cells.length] :=
      List.getElem?_eq_getElem (by omega)
    exact absurd (holds.inside last) (Nat.lt_irrefl _)

theorem append (holds : Holds cells values) (backward : Backward cells) {cell : Cell β} {c : β}
    (shown : value (cells ++ [cell]) cells.length = some c) :
    Holds (cells ++ [cell]) (values ++ [c]) := by
  have length_eq := holds.length_eq backward
  intro i
  rcases Nat.lt_trichotomy i cells.length with before | rfl | behind
  · rw [backward.value_append _ before, holds, List.getElem?_append_left (by omega)]
  · rw [shown, List.getElem?_append_right (by omega), length_eq]
    simp
  · have missing : (cells ++ [cell])[i]? = none := List.getElem?_eq_none (by simp; omega)
    have missing' : (values ++ [c])[i]? = none := List.getElem?_eq_none (by simp; omega)
    rw [value, resolve, missing, missing']

theorem append_own (holds : Holds cells values) (backward : Backward cells) (c : β) :
    Holds (cells ++ [.own c]) (values ++ [c]) :=
  holds.append backward (value_of_own (by simp))

theorem append_ref (holds : Holds cells values) (backward : Backward cells) {source : Nat} {c : β}
    (found : values[source]? = some c) : Holds (cells ++ [.ref source]) (values ++ [c]) := by
  have inside := holds.inside found
  have backward' : Backward (cells ++ [.ref source]) := backward.append fun _ same => by
    cases same
    exact inside
  have last : (cells ++ [.ref source])[cells.length]? = some (Cell.ref source) := by simp
  apply holds.append backward
  rw [backward'.value_of_ref last, backward.value_append _ inside, holds, found]

/-- A write is seen in its cell alone exactly when it changes nothing or no cell refers to the
cell. -/
theorem set_iff (holds : Holds cells values) (backward : Backward cells) {i : Nat} {old : β}
    (found : values[i]? = some old) (c : β) :
    Holds (cells.set i (.own c)) (values.set i c) ↔ c = old ∨ Unshared cells i := by
  have inside := holds.inside found
  have length_eq := holds.length_eq backward
  have written : value (cells.set i (.own c)) i = some c :=
    value_of_own (List.getElem?_set_self inside)
  constructor
  · intro holds'
    by_contra neither
    rw [not_or] at neither
    obtain ⟨changed, shared⟩ := neither
    unfold Unshared at shared
    push Not at shared
    obtain ⟨j, refers⟩ := shared
    -- the copy shows what is written
    have earlier := backward j i refers
    have kept : (cells.set i (.own c))[j]? = some (Cell.ref i) := by
      rw [List.getElem?_set_ne (by omega), refers]
    have seen := holds' j
    rw [(backward.set i c).value_of_ref kept, written, List.getElem?_set_ne (by omega), ← holds,
      backward.value_of_ref refers, holds, found] at seen
    exact changed (Option.some.inj seen)
  · rintro alone j
    by_cases here : j = i
    · subst here
      rw [written, List.getElem?_set_self (by omega)]
    · rw [List.getElem?_set_ne (Ne.symm here), ← holds]
      rcases alone with rfl | unshared
      · exact backward.value_set_same ((holds i).trans found) j
      · exact unshared.value_set c here

end Holds

end Cow
