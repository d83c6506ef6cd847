import Pone.Ary.Index
import Pone.Ary.Run

/-!
# The elements of an array

Whatever room an array is taken to have, its elements are those of the list: an operation that would
go beyond the buffer ends the process.
-/

namespace Pone
namespace Ary

open CLong (sizeT)
open Simulation (orHalt)

universe u

variable {α : Type u}

/-- The elements are in the buffer. -/
structure Elements (ary : PoneAry α) (xs : List α) : Prop where
  len_eq : ary.len = xs.length
  holds : ary.a.Holds xs
  addressable : Addressable ary

/-- The elements are in the buffer if it is not too small for them. -/
structure Kept (ary : PoneAry α) (xs : List α) : Prop where
  len_eq : ary.len = xs.length
  holds : xs.length ≤ ary.a.length → ary.a.Holds xs
  addressable : Addressable ary
  small : xs.length < 2 ^ 61

/-- The index is a `pone_int_t`. -/
def Op.InRange : Op α → Prop
  | .assignPos i _ => Ary.InRange i
  | .atPos i => Ary.InRange i
  | _ => True

theorem Elements.kept {self : PoneAry α} {xs : List α} (elements : Elements self xs) :
    Kept self xs where
  len_eq := elements.len_eq
  holds _ := elements.holds
  addressable := elements.addressable
  small := Nat.lt_of_le_of_lt elements.holds.length_le elements.addressable

theorem Represents.elements {self : PoneAry α} {xs : List α} (represents : Represents self xs)
    (addressable : Addressable self) : Elements self xs :=
  ⟨represents.len_eq, represents.holds, addressable⟩

/-- Taken to have the room that it has, the array represents the list. -/
theorem Elements.represents {self : PoneAry α} {xs : List α} (elements : Elements self xs) :
    Represents { self with max := self.a.length } xs where
  len_eq := elements.len_eq
  holds := elements.holds
  len_le := by
    have inside := elements.holds.length_le
    have := elements.len_eq
    simp only
    omega
  max_le := Int.le_refl _

/-- `realloc` may cut elements off, and nothing else. -/
theorem Elements.resize {self : PoneAry α} {xs : List α} (elements : Elements self xs) (bytes max : Int) :
    Kept { self with a := self.a.resize (sizeT bytes / sizeofPtr), max } xs where
  len_eq := elements.len_eq
  holds room := elements.holds.resize (by simpa using room)
  addressable := addressable_resize self bytes max
  small := elements.kept.small

/-- What is written lies in the buffer. -/
theorem inside_of_write {b b' : Block α} {i : Int} {c : Cell α} (written : b.write i c = some b') :
    0 ≤ i ∧ i < b.length := by
  unfold Block.write at written
  split at written
  · assumption
  · cases written

theorem of_touch_ok {β γ : Type u} {outcome : Option β} {f : β → γ} {c : γ}
    (done : (do return f (← orHalt .wild outcome) : Except Halt γ) = .ok c) :
    ∃ b, outcome = some b ∧ f b = c := by
  cases outcome with
  | none => cases done
  | some b =>
      cases done
      exact ⟨b, rfl, rfl⟩

namespace Kept

variable {self self' : PoneAry α} {xs : List α}

theorem write_end (kept : Kept self xs) {a : Block α} {val : α}
    (written : self.a.write self.len (.ptr val) = some a) :
    Elements { self with a, len := self.len + 1 } (xs ++ [val]) := by
  have inside := (inside_of_write written).2
  rw [kept.len_eq] at inside written
  have room : xs.length < self.a.length := by omega
  obtain ⟨b, written', holds⟩ := (kept.holds room.le).write_end room val
  obtain rfl : a = b := Option.some.inj (written.symm.trans written')
  refine ⟨by simp [kept.len_eq], holds, ?_⟩
  have addressable := kept.addressable
  unfold Addressable at addressable ⊢
  rwa [Block.length_of_write written]

theorem append (kept : Kept self xs) {val : α} (done : append self val = .ok self') :
    Elements self' (xs ++ [val]) := by
  obtain ⟨a, written, rfl⟩ := of_touch_ok done
  exact kept.write_end written

theorem prepend (kept : Kept self xs) {val : α} (done : prepend self val = .ok self') :
    Elements self' (val :: xs) := by
  have count : sizeT (sizeofPtr * self.len) / sizeofPtr = xs.length := by
    rw [kept.len_eq]
    exact sizeT_ptrs kept.small
  unfold Ary.prepend at done
  rw [count] at done
  cases moved : self.a.move 1 0 xs.length with
  | none =>
      rw [moved] at done
      cases done
  | some a =>
      rw [moved] at done
      obtain ⟨b, written, rfl⟩ := of_touch_ok done
      have same := Block.length_of_move moved
      have room : xs.length < self.a.length := by
        have inside := (inside_of_write written).2
        rw [same] at inside
        unfold Block.move at moved
        split at moved
        · omega
        · split at moved
          · omega
          · cases moved
      obtain ⟨a', b', moved', written', holds⟩ := (kept.holds room.le).move_up room val
      obtain rfl : a = a' := Option.some.inj (moved.symm.trans moved')
      obtain rfl : b = b' := Option.some.inj (written.symm.trans written')
      refine ⟨by simp [kept.len_eq], holds, ?_⟩
      have addressable := kept.addressable
      unfold Addressable at addressable ⊢
      rwa [Block.length_of_write written, same]

theorem fillNil (kept : Kept self xs) (nil : α) {n : Nat}
    (filled : fillNil nil (n + 1) self = some self') :
    Elements self' (xs ++ List.replicate (n + 1) nil) := by
  induction n generalizing self xs with
  | zero =>
      obtain ⟨a, written, filled'⟩ := Option.bind_eq_some_iff.mp filled
      cases filled'
      exact kept.write_end written
  | succ n ih =>
      obtain ⟨a, written, filled'⟩ := Option.bind_eq_some_iff.mp filled
      have next := ih (kept.write_end written).kept filled'
      rwa [List.append_assoc, List.singleton_append, ← List.replicate_succ] at next

end Kept

theorem Elements.write {self : PoneAry α} {xs : List α} (elements : Elements self xs) {i : Int}
    (inside : i < xs.length) {a : Block α} {val : α} (written : self.a.write i (.ptr val) = some a) :
    Elements { self with a } (xs.set i.toNat val) := by
  have nonneg := (inside_of_write written).1
  have among : i.toNat < xs.length := by omega
  obtain ⟨b, written', holds⟩ := elements.holds.write_among among val
  rw [Int.toNat_of_nonneg nonneg] at written'
  obtain rfl : a = b := Option.some.inj (written.symm.trans written')
  refine ⟨by simp [elements.len_eq], holds, ?_⟩
  have addressable := elements.addressable
  unfold Addressable at addressable ⊢
  rwa [Block.length_of_write written]

/-- What `realloc` gives. -/
theorem of_realloc {granted : Bool} {a b : Block α} {bytes : Nat}
    (grown : realloc granted a bytes = some b) : b = a.resize (bytes / sizeofPtr) := by
  unfold realloc at grown
  split at grown
  · exact (Option.some.inj grown).symm
  · cases grown

theorem aryPop_max (self : PoneAry α) (max : Int) :
    aryPop { self with max } = (aryPop self).map fun r => ({ r.1 with max }, r.2) := by
  unfold aryPop
  by_cases empty : self.len = 0
  · simp only [if_pos empty]
    rfl
  · simp only [if_neg empty]
    cases self.a.read (self.len - 1) with
    | none => rfl
    | some retval => cases self.a.write (self.len - 1) .null <;> rfl

theorem aryShift_max (self : PoneAry α) (max : Int) :
    aryShift { self with max } = (aryShift self).map fun r => ({ r.1 with max }, r.2) := by
  unfold aryShift
  by_cases empty : self.len = 0
  · simp only [if_pos empty]
    rfl
  · simp only [if_neg empty]
    cases self.a.read 0 with
    | none => rfl
    | some retval =>
        cases self.a.move 0 1 (sizeT (sizeofPtr * (self.len - 1)) / sizeofPtr) <;> rfl

namespace Elements

variable {self self' : PoneAry α} {xs : List α} {nil : α}

theorem push (elements : Elements self xs) {granted : Bool} {val : α}
    (done : aryPush granted self val = .ok self') : Elements self' (xs ++ [val]) := by
  unfold aryPush at done
  split at done
  · simp only at done
    split at done
    · cases done
    · next a grown =>
        obtain rfl := of_realloc grown
        exact (elements.resize _ _).append done
  · exact elements.kept.append done

theorem unshift (elements : Elements self xs) {granted : Bool} {val : α}
    (done : aryUnshift granted self val = .ok self') : Elements self' (val :: xs) := by
  unfold aryUnshift at done
  split at done
  · simp only at done
    split at done
    · cases done
    · next a grown =>
        obtain rfl := of_realloc grown
        exact (elements.resize _ _).prepend done
  · exact elements.kept.prepend done

/-- The room that an array is taken to have does not matter where nothing is added. -/
theorem of_represents (elements : Elements self xs) {max : Int} {ys : List α}
    (represents : Represents { self' with max } ys) (same : self'.a.length = self.a.length) :
    Elements self' ys := by
  refine ⟨represents.len_eq, represents.holds, ?_⟩
  have addressable := elements.addressable
  unfold Addressable at addressable ⊢
  rwa [same]

theorem pop (elements : Elements self xs) {answer : Answer α}
    (done : aryPop self = .ok (self', answer)) : Elements self' (specStep nil xs .pop).1 := by
  obtain ⟨self'', popped, represents, same⟩ := aryPop_eq elements.represents nil
  have popped' : aryPop { self with max := self.a.length } =
      .ok ({ self' with max := self.a.length }, answer) := by
    rw [aryPop_max, done]
    rfl
  cases popped.symm.trans popped'
  exact elements.of_represents represents same

theorem shift (elements : Elements self xs) {answer : Answer α}
    (done : aryShift self = .ok (self', answer)) : Elements self' (specStep nil xs .shift).1 := by
  obtain ⟨self'', shifted, represents, same⟩ :=
    aryShift_eq elements.represents elements.addressable nil
  have shifted' : aryShift { self with max := self.a.length } =
      .ok ({ self' with max := self.a.length }, answer) := by
    rw [aryShift_max, done]
    rfl
  cases shifted.symm.trans shifted'
  exact elements.of_represents represents same

/-- The gap is filled and the value is written. -/
theorem fillAndWrite (kept : Kept self xs) {i : Int} (beyond : self.len ≤ i) {val : α}
    (done : fillAndWrite nil (i + 1 - self.len).toNat i val self = .ok self') :
    Elements self' ((xs ++ List.replicate (i.toNat + 1 - xs.length) nil).set i.toNat val) := by
  have len_eq := kept.len_eq
  obtain ⟨n, count⟩ : ∃ n, (i + 1 - self.len).toNat = n + 1 :=
    ⟨(i - self.len).toNat, by omega⟩
  have gap : i.toNat + 1 - xs.length = n + 1 := by omega
  unfold Ary.fillAndWrite at done
  rw [count] at done
  cases filled : Ary.fillNil nil (n + 1) self with
  | none =>
      rw [filled] at done
      cases done
  | some self₁ =>
      rw [filled] at done
      obtain ⟨a, written, rfl⟩ := of_touch_ok done
      rw [gap]
      refine (kept.fillNil nil filled).write ?_ written
      rw [List.length_append, List.length_replicate]
      omega

theorem assignPos (elements : Elements self xs) {granted : Bool} {i : Int} {val : α}
    (range : InRange i) (done : aryAssignPos granted nil self i val = .ok self') :
    Elements self' (specStep nil xs (.assignPos i val)).1 := by
  have len_eq := elements.len_eq
  by_cases inside : i < self.len
  · rw [aryAssignPos, if_pos inside] at done
    obtain ⟨a, written, rfl⟩ := of_touch_ok done
    have nonneg := (inside_of_write written).1
    have no_gap : i.toNat + 1 - xs.length = 0 := by omega
    rw [specStep, no_gap, List.replicate_zero, List.append_nil]
    exact elements.write (by omega) written
  · have nonneg : 0 ≤ i := by omega
    by_cases last : i = intMax
    · have negative : ¬ self.len < wrap (i + 1) := by
        subst last
        have : wrap (intMax + 1) = -2 ^ 63 := by decide
        omega
      rw [aryAssignPos, if_neg inside, aryResize, if_neg negative] at done
      cases done
    · have below : i + 1 ≤ intMax := by
        have := range.2
        omega
      rw [aryAssignPos_beyond granted (by omega) below nonneg] at done
      split at done
      · split at done
        · cases done
        · next a grown =>
            obtain rfl := of_realloc grown
            exact fillAndWrite (elements.resize _ _) (by simp only; omega) done
      · exact fillAndWrite elements.kept (by omega) done

end Elements

/-- An operation that does not end the process does to the elements what it does to the list. -/
theorem Elements.step {self self' : PoneAry α} {xs : List α} {nil : α} (elements : Elements self xs)
    {granted : Bool} {op : Op α} (range : op.InRange) {answer : Answer α}
    (done : step nil self granted op = .ok (self', answer)) :
    Elements self' (specStep nil xs op).1 := by
  cases op with
  | push val =>
      obtain ⟨_, pushed, same⟩ := of_map_ok done
      cases same
      exact elements.push pushed
  | unshift val =>
      obtain ⟨_, unshifted, same⟩ := of_map_ok done
      cases same
      exact elements.unshift unshifted
  | last =>
      obtain ⟨_, -, same⟩ := of_map_ok done
      cases same
      have unchanged : (specStep nil xs .last).1 = xs := by
        rw [specStep]
        split <;> rfl
      rwa [unchanged]
  | pop => exact elements.pop done
  | shift => exact elements.shift done
  | assignPos i val =>
      obtain ⟨_, assigned, same⟩ := of_map_ok done
      cases same
      exact elements.assignPos range assigned
  | atPos i =>
      obtain ⟨_, -, same⟩ := of_map_ok done
      cases same
      exact elements

theorem room_of_fill {a a' : Block α} {vs : List α} {i : Int} (below : i ≤ a.length)
    (filled : fill a i vs = some a') : i + vs.length ≤ a.length := by
  induction vs generalizing a i with
  | nil => simpa using below
  | cons v vs ih =>
      obtain ⟨b, written, filled'⟩ := Option.bind_eq_some_iff.mp filled
      have inside := (inside_of_write written).2
      have length_eq := Block.length_of_write written
      have rest := ih (by omega) filled'
      rw [List.length_cons]
      push_cast
      omega

/-- The elements of a new array are the arguments. -/
theorem aryNew_elements {vs : List α} {granted : Bool} {self : PoneAry α}
    (made : aryNew granted vs = .ok self) : Elements self vs := by
  have covers : granted = true → Covers vs.length (sizeofVal * vs.length) := by
    rintro rfl
    simp only [aryNew, malloc, if_true] at made
    obtain ⟨a, filled, -⟩ := of_touch_ok made
    have room := room_of_fill (Int.natCast_nonneg _) filled
    rw [Block.length_fresh] at room
    rw [Covers]
    omega
  rcases (aryNew_settles_iff fun refused => refused).mpr covers with ⟨_, done, represents⟩ | ⟨ended, -⟩
  · cases made.symm.trans done
    exact represents.elements (aryNew_addressable made)
  · cases made.symm.trans ended

end Ary
end Pone
