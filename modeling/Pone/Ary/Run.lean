import Pone.Ary.Refine

/-!
# Sequences of array operations

An array that starts with `pone_ary_new` stays the list through every sequence of operations exactly
when each request for memory on the way covers the `max` it is made for.
-/

namespace Pone
namespace Ary

open CLong (sizeT sizeT_lt)

universe u

variable {α : Type u}

theorem aryPush_addressable {self self' : PoneAry α} {granted : Bool} {val : α}
    (addressable : Addressable self) (done : aryPush granted self val = .ok self') :
    Addressable self' := by
  unfold aryPush at done
  split at done
  · simp only at done
    split at done
    · cases done
    · next a grown =>
        unfold realloc at grown
        split at grown
        · cases grown
          exact (append_sameRoom _ val).addressable (addressable_resize self _ _) done
        · cases grown
  · exact (append_sameRoom self val).addressable addressable done

theorem aryUnshift_addressable {self self' : PoneAry α} {granted : Bool} {val : α}
    (addressable : Addressable self) (done : aryUnshift granted self val = .ok self') :
    Addressable self' := by
  unfold aryUnshift at done
  split at done
  · simp only at done
    split at done
    · cases done
    · next a grown =>
        unfold realloc at grown
        split at grown
        · cases grown
          exact (prepend_sameRoom _ val).addressable (addressable_resize self _ _) done
        · cases grown
  · exact (prepend_sameRoom self val).addressable addressable done

theorem aryAssignPos_addressable {self self' : PoneAry α} {xs : List α} {granted : Bool}
    {nil val : α} {i : Int} (represents : Represents self xs) (addressable : Addressable self)
    (valid : (Op.assignPos i val).InDomain)
    (done : aryAssignPos granted nil self i val = .ok self') : Addressable self' := by
  by_cases inside : i < self.len
  · obtain ⟨a, written, -⟩ := represents.assign valid.1 inside val
    rw [aryAssignPos, if_pos inside, written] at done
    cases done
    unfold Addressable at addressable ⊢
    rwa [Block.length_of_write written]
  · rw [aryAssignPos_beyond granted (by omega) valid.2 valid.1] at done
    split at done
    · split at done
      · cases done
      · next a grown =>
          unfold realloc at grown
          split at grown
          · cases grown
            exact (fillAndWrite_sameRoom nil _ i val _).addressable
              (addressable_resize self _ _) done
          · cases grown
    · exact (fillAndWrite_sameRoom nil _ i val self).addressable addressable done

theorem of_map_ok {β γ : Type u} {outcome : Except Halt β} {f : β → γ} {c : γ}
    (done : (do return f (← outcome)) = .ok c) : ∃ b, outcome = .ok b ∧ f b = c := by
  cases outcome with
  | error => cases done
  | ok b =>
      cases done
      exact ⟨b, rfl, rfl⟩

theorem step_addressable {self self' : PoneAry α} {xs : List α} {op : Op α} {nil : α}
    {granted : Bool} {answer : Answer α} (represents : Represents self xs)
    (addressable : Addressable self) (valid : op.InDomain)
    (done : step nil self granted op = .ok (self', answer)) : Addressable self' := by
  cases op with
  | push val =>
      obtain ⟨_, pushed, same⟩ := of_map_ok done
      cases same
      exact aryPush_addressable addressable pushed
  | unshift val =>
      obtain ⟨_, unshifted, same⟩ := of_map_ok done
      cases same
      exact aryUnshift_addressable addressable unshifted
  | last =>
      obtain ⟨_, -, same⟩ := of_map_ok done
      cases same
      exact addressable
  | pop =>
      obtain ⟨_, popped, -, length_eq⟩ := aryPop_eq represents nil
      rw [step, popped] at done
      cases done
      unfold Addressable at addressable ⊢
      rwa [length_eq]
  | shift =>
      obtain ⟨_, shifted, -, length_eq⟩ := aryShift_eq represents addressable nil
      rw [step, shifted] at done
      cases done
      unfold Addressable at addressable ⊢
      rwa [length_eq]
  | assignPos i val =>
      obtain ⟨_, assigned, same⟩ := of_map_ok done
      cases same
      exact aryAssignPos_addressable represents addressable valid assigned
  | atPos i =>
      obtain ⟨_, -, same⟩ := of_map_ok done
      cases same
      exact addressable

/-- Whatever memory the operations ask for on their way covers the `max` it is made for. -/
def AllCovered (nil : α) (self : PoneAry α) : List (Op α × Bool) → Prop
  | [] => True
  | (op, granted) :: rest =>
      Covered self granted op ∧
        ∀ self' answer, step nil self granted op = .ok (self', answer) → AllCovered nil self' rest

/-- A request for memory is refused. -/
def Refused (steps : List (Op α × Bool)) : Prop := ∃ s ∈ steps, s.2 = false

/-- After the first operations, as many as one likes, the array is the list. -/
def Refines (refused : Prop) (nil : α) (self : PoneAry α) (xs : List α)
    (steps : List (Op α × Bool)) : Prop :=
  ∀ k, Matches refused (specRun nil xs (steps.take k)).1 (specRun nil xs (steps.take k)).2
    (run nil self (steps.take k))

theorem matches_error_iff {β γ : Type u} {refused : Prop} {xs ys : List α} {answers : β}
    {answers' : γ} {halt : Halt} :
    Matches refused xs answers (.error halt) ↔ Matches refused ys answers' (.error halt) := by
  constructor <;> rintro (⟨_⟩ | ⟨wanting⟩) <;> exact .noMemory wanting

/-- Behind an operation that is that of the list, only the others matter. -/
theorem matches_run_cons_iff {self self' : PoneAry α} {xs : List α} {op : Op α} {granted : Bool}
    {nil : α} {steps : List (Op α × Bool)} {refused : Prop}
    (done : step nil self granted op = .ok (self', (specStep nil xs op).2)) :
    Matches refused (specRun nil xs ((op, granted) :: steps)).1
        (specRun nil xs ((op, granted) :: steps)).2 (run nil self ((op, granted) :: steps)) ↔
      Matches refused (specRun nil (specStep nil xs op).1 steps).1
        (specRun nil (specStep nil xs op).1 steps).2 (run nil self' steps) := by
  simp only [run, specRun, done, bind, Except.bind]
  cases run nil self' steps with
  | error halt => exact matches_error_iff
  | ok result =>
      obtain ⟨self'', answers⟩ := result
      refine matches_ok_iff.trans (Iff.trans ?_ matches_ok_iff.symm)
      simp

theorem refines_nil_iff {refused : Prop} {self : PoneAry α} {xs : List α} (nil : α) :
    Refines refused nil self xs [] ↔ Represents self xs := by
  constructor
  · intro refines
    exact (matches_ok_iff.mp (refines 0)).2
  · intro represents k
    rw [List.take_nil]
    exact .ok represents

theorem refines_cons_iff {self : PoneAry α} {xs : List α} {op : Op α} {granted : Bool} (nil : α)
    {rest : List (Op α × Bool)} {refused : Prop} (represents : Represents self xs) :
    Refines refused nil self xs ((op, granted) :: rest) ↔
      Matches refused (specStep nil xs op).1 (specStep nil xs op).2 (step nil self granted op) ∧
        ∀ self' answer, step nil self granted op = .ok (self', answer) →
          Refines refused nil self' (specStep nil xs op).1 rest := by
  cases outcome : step nil self granted op with
  | error halt =>
      have ended (k : Nat) : run nil self (((op, granted) :: rest).take (k + 1)) =
          .error halt := by
        rw [List.take_succ_cons, run, outcome]
        rfl
      constructor
      · intro refines
        have first := refines 1
        rw [ended 0] at first
        exact ⟨matches_error_iff.mp first, nofun⟩
      · rintro ⟨first, -⟩ k
        cases k with
        | zero => exact .ok represents
        | succ k =>
            rw [ended k]
            exact matches_error_iff.mp first
  | ok result =>
      obtain ⟨self', answer⟩ := result
      constructor
      · intro refines
        have first := refines 1
        rw [List.take_succ_cons, List.take_zero] at first
        simp only [run, outcome, bind, Except.bind, pure, Except.pure, matches_ok_iff, specRun,
          List.cons.injEq, and_true] at first
        obtain ⟨rfl, represents'⟩ := first
        refine ⟨.ok represents', fun _ _ same k => ?_⟩
        cases same
        exact (matches_run_cons_iff outcome).mp (refines (k + 1))
      · rintro ⟨first, refines⟩ k
        obtain ⟨rfl, represents'⟩ := matches_ok_iff.mp first
        cases k with
        | zero => exact .ok represents
        | succ k => exact (matches_run_cons_iff outcome).mpr (refines _ _ rfl k)

theorem refines_iff {self : PoneAry α} {xs : List α} (nil : α) {steps : List (Op α × Bool)}
    {refused : Prop} (represents : Represents self xs) (addressable : Addressable self)
    (wanting : Refused steps → refused) (valid : ∀ s ∈ steps, s.1.InDomain) :
    Refines refused nil self xs steps ↔ AllCovered nil self steps := by
  induction steps generalizing self xs with
  | nil => exact iff_of_true ((refines_nil_iff nil).mpr represents) trivial
  | cons first rest ih =>
      obtain ⟨op, granted⟩ := first
      have first_valid : op.InDomain := valid _ (List.mem_cons_self ..)
      have one : Matches refused (specStep nil xs op).1 (specStep nil xs op).2
          (step nil self granted op) ↔ Covered self granted op :=
        step_matches_iff nil represents addressable
          (fun not_granted => wanting ⟨_, List.mem_cons_self .., not_granted⟩) first_valid
      rw [refines_cons_iff nil represents, one, AllCovered]
      refine and_congr_right fun covered => forall₃_congr fun self' answer done => ?_
      have first_matches := one.mpr covered
      rw [done] at first_matches
      exact ih (matches_ok_iff.mp first_matches).2
        (step_addressable represents addressable first_valid done)
        (fun ⟨s, among, not_granted⟩ => wanting ⟨s, List.mem_cons_of_mem _ among, not_granted⟩)
        (fun s among => valid s (List.mem_cons_of_mem _ among))

theorem fill_length {a a' : Block α} {i : Int} {vs : List α} (filled : fill a i vs = some a') :
    a'.length = a.length := by
  induction vs generalizing a i with
  | nil =>
      cases filled
      rfl
  | cons v vs ih =>
      simp only [fill, Option.bind_eq_bind, Option.bind_eq_some_iff] at filled
      obtain ⟨b, written, filled⟩ := filled
      exact (ih filled).trans (Block.length_of_write written)

theorem fill_holds {a : Block α} {xs vs : List α} (holds : a.Holds xs)
    (room : xs.length + vs.length ≤ a.length) :
    ∃ a', fill a xs.length vs = some a' ∧ a'.Holds (xs ++ vs) := by
  induction vs generalizing a xs with
  | nil => exact ⟨a, rfl, by simpa using holds⟩
  | cons v vs ih =>
      simp only [List.length_cons] at room
      obtain ⟨b, written, holds'⟩ := holds.write_end (by omega) v
      have room' : (xs ++ [v]).length + vs.length ≤ b.length := by
        rw [Block.length_of_write written, List.length_append, List.length_singleton]
        omega
      obtain ⟨a', filled, holds''⟩ := ih holds' room'
      refine ⟨a', ?_, by simpa using holds''⟩
      simpa [fill, written] using filled

/-- A new array is the list of its arguments exactly when its buffer has room for them. -/
theorem aryNew_settles_iff {vs : List α} {granted : Bool} {refused : Prop}
    (wanting : granted = false → refused) :
    Settles refused vs (aryNew granted vs) ↔
      (granted = true → Covers vs.length (sizeofVal * vs.length)) := by
  cases granted with
  | false => simp [aryNew, malloc, Settles, wanting]
  | true =>
      simp only [aryNew, malloc, if_true, forall_const]
      constructor
      · rintro (⟨self, done, represents⟩ | ⟨ended, -⟩)
        · cases filled : fill (Block.fresh (sizeT (sizeofVal * vs.length) / sizeofPtr)) 0 vs with
          | none =>
              rw [filled] at done
              cases done
          | some a =>
              rw [filled] at done
              cases done
              have within := represents.max_le
              simpa only [Covers, fill_length filled, Block.length_fresh] using within
        · cases filled : fill (Block.fresh (sizeT (sizeofVal * vs.length) / sizeofPtr)) 0 vs with
          | none =>
              rw [filled] at ended
              cases ended
          | some a =>
              rw [filled] at ended
              cases ended
      · intro covers
        have room : ([] : List α).length + vs.length ≤
            (Block.fresh (sizeT (sizeofVal * vs.length) / sizeofPtr) : Block α).length := by
          rw [Block.length_fresh]
          unfold Covers at covers
          simp only [List.length_nil]
          omega
        obtain ⟨a, filled, holds⟩ := fill_holds (Block.Holds.nil _) room
        simp only [List.length_nil, Nat.cast_zero] at filled
        rw [filled]
        refine .inl ⟨⟨a, vs.length, vs.length⟩, rfl, rfl, by simpa using holds, le_rfl, ?_⟩
        rw [fill_length filled]
        simpa only [Covers, Block.length_fresh] using covers

theorem aryNew_addressable {vs : List α} {granted : Bool} {self : PoneAry α}
    (made : aryNew granted vs = .ok self) : Addressable self := by
  unfold aryNew malloc at made
  cases granted with
  | false => cases made
  | true =>
      simp only [if_true] at made
      cases filled : fill (Block.fresh (sizeT (sizeofVal * vs.length) / sizeofPtr)) 0 vs with
      | none =>
          rw [filled] at made
          cases made
      | some a =>
          rw [filled] at made
          cases made
          have := sizeT_lt (sizeofVal * vs.length)
          rw [Addressable, fill_length filled, Block.length_fresh]
          unfold sizeofPtr
          omega

/-- `pone_ary_new` and the operations on what it has made. -/
def newAndRun (nil : α) (granted : Bool) (vs : List α) (steps : List (Op α × Bool)) :
    Except Halt (PoneAry α × List (Answer α)) := do
  run nil (← aryNew granted vs) steps

/-- An array behaves as the list, with `len ≤ max` inside the buffer, after each of any operations
exactly when every request for memory, taken modulo `2 ^ 64`, covers the `max` it is made for. -/
theorem ary_refines_list_iff (nil : α) (granted : Bool) (vs : List α)
    (steps : List (Op α × Bool)) (valid : ∀ s ∈ steps, s.1.InDomain) :
    (∀ k, Matches (granted = false ∨ Refused steps) (specRun nil vs (steps.take k)).1
      (specRun nil vs (steps.take k)).2 (newAndRun nil granted vs (steps.take k))) ↔
      (granted = true → Covers vs.length (sizeofVal * vs.length)) ∧
        ∀ self, aryNew granted vs = .ok self → AllCovered nil self steps := by
  have new : Settles (granted = false ∨ Refused steps) vs (aryNew granted vs) ↔ _ :=
    aryNew_settles_iff .inl
  unfold newAndRun
  rw [← new]
  cases made : aryNew granted vs with
  | error halt =>
      constructor
      · intro refines
        have ended : Matches (granted = false ∨ Refused steps) vs [] (.error halt) := refines 0
        cases ended with
        | noMemory wanting => exact ⟨.inr ⟨rfl, wanting⟩, nofun⟩
      · rintro ⟨⟨_, done, -⟩ | ⟨ended, wanting⟩, -⟩ k
        · cases done
        · cases ended
          exact .noMemory wanting
  | ok self =>
      have refines_iff' (represents : Represents self vs) :
          Refines (granted = false ∨ Refused steps) nil self vs steps ↔ AllCovered nil self steps :=
        refines_iff nil represents (aryNew_addressable made) .inr valid
      constructor
      · intro refines
        have represents : Represents self vs := (matches_ok_iff.mp (refines 0)).2
        refine ⟨settles_ok represents, fun _ same => ?_⟩
        cases same
        exact (refines_iff' represents).mp refines
      · rintro ⟨⟨_, done, represents⟩ | ⟨ended, -⟩, covered⟩
        · cases done
          exact (refines_iff' represents).mpr (covered self rfl)
        · cases ended

/-- The sequence starts with three arguments, fills a gap and throws nothing away. -/
theorem ary_refines_list_iff_gap :
    Matches (true = false ∨ Refused [(Op.assignPos 4 9, true), (.shift, true)])
      (specRun 0 [1, 2, 3] [(.assignPos 4 9, true), (.shift, true)]).1
      (specRun 0 [1, 2, 3] [(.assignPos 4 9, true), (.shift, true)]).2
      (newAndRun 0 true [1, 2, 3] [(.assignPos 4 9, true), (.shift, true)]) := by
  have valid : ∀ s ∈ [((.assignPos 4 9 : Op Nat), true), (.shift, true)], s.1.InDomain := by
    simp [Op.InDomain, intMax]
  refine (ary_refines_list_iff 0 true [1, 2, 3] _ valid).mpr ?_ 2
  constructor
  · simp [Covers, sizeT, sizeofVal, sizeofPtr]
  · intro self made
    cases made
    refine ⟨?_, fun self' answer _ => ⟨?_, fun _ _ _ => trivial⟩⟩
    · simp [Covered, request, Covers, sizeT, sizeofPtr, Op.isUnshift]
    · exact covered_of_no_request true rfl

/-- The size of the buffer for `2 ^ 61 + 1` pointers is 8 in a `size_t`. -/
theorem assignPos_outside :
    ¬ ∀ (granted : Bool) (vs : List Nat) (steps : List (Op Nat × Bool)),
      (∀ s ∈ steps, s.1.InDomain) →
      ∀ k, Matches (granted = false ∨ Refused steps) (specRun 0 vs (steps.take k)).1
        (specRun 0 vs (steps.take k)).2 (newAndRun 0 granted vs (steps.take k)) := by
  intro refines
  have matched := refines true [] [(.assignPos (2 ^ 61) 7, true)] (by simp [Op.InDomain, intMax]) 1
  have wild : newAndRun 0 true [] (List.take 1 [((.assignPos (2 ^ 61) 7 : Op Nat), true)]) =
      .error .wild := by
    rfl
  rw [wild] at matched
  cases matched

end Ary
end Pone
