import Mathlib.Data.List.Count

/-!
# Fields that a separator ends

A list of fields, each written with a separator behind it, can be read back up to the separators
inside the fields: what is written determines the pieces between separators, in order, and not which
field they belong to.
-/

namespace Separated

variable {α : Type*} [DecidableEq α]

/-- The fields one after another, with a separator behind each. -/
def ended (sep : α) : List (List α) → List α
  | [] => []
  | field :: fields => field ++ sep :: ended sep fields

/-- The pieces between the separators of the fields. -/
def pieces (sep : α) (fields : List (List α)) : List (List α) := fields.flatMap (·.splitOn sep)

theorem splitOn_ended (sep : α) (fields : List (List α)) :
    (ended sep fields).splitOn sep = pieces sep fields ++ [[]] := by
  induction fields with
  | nil => exact List.splitOn_nil sep
  | cons field fields ih =>
      rw [ended, List.splitOn_append_cons_self, ih, pieces, pieces, List.flatMap_cons,
        List.append_assoc]

theorem splitOn_injective (sep : α) : Function.Injective fun field : List α => field.splitOn sep := by
  intro field field' same
  have joined := congrArg (List.intercalate [sep]) same
  rwa [List.intercalate_splitOn, List.intercalate_splitOn] at joined

/-- What is written determines the pieces, and the pieces what is written. -/
theorem ended_eq_iff {sep : α} {fields fields' : List (List α)} :
    ended sep fields = ended sep fields' ↔ pieces sep fields = pieces sep fields' := by
  rw [← (splitOn_injective sep).eq_iff, splitOn_ended, splitOn_ended, List.append_left_inj]

/-- A field with its separator is read back when the number of separators inside it is known. -/
theorem append_cons_inj {sep : α} {field field' rest rest' : List α}
    (written : field ++ sep :: rest = field' ++ sep :: rest')
    (count : field.count sep = field'.count sep) : field = field' ∧ rest = rest' := by
  induction field generalizing field' with
  | nil =>
      cases field' with
      | nil => exact ⟨rfl, (List.cons.inj written).2⟩
      | cons a field' =>
          obtain ⟨rfl, -⟩ := List.cons.inj written
          rw [List.count_nil, List.count_cons_self] at count
          exact absurd count (Nat.succ_ne_zero _).symm
  | cons a field ih =>
      cases field' with
      | nil =>
          obtain ⟨rfl, -⟩ := List.cons.inj written
          rw [List.count_nil, List.count_cons_self] at count
          exact absurd count (Nat.succ_ne_zero _)
      | cons b field' =>
          obtain ⟨rfl, written'⟩ := List.cons.inj written
          rw [List.count_cons, List.count_cons, Nat.add_right_cancel_iff] at count
          obtain ⟨rfl, rfl⟩ := ih written' count
          exact ⟨rfl, rfl⟩

end Separated
