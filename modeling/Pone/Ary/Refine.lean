import Mathlib.Tactic.Linarith
import Pone.Ary.Model

/-!
# Arrays refine lists

An array represents a list when the pointers at the front of its buffer are those of the list and
`len ≤ max` is within the buffer.  Every operation commutes with the operation on the list exactly
when the memory that it asks for, its size computed in `size_t`, covers the new `max`.
-/

namespace Pone
namespace Ary

open CLong (sizeT sizeT_lt)
open Simulation (orHalt)

universe u

variable {α : Type u}

/-- One operation on the list that an array stands for. -/
def specStep (nil : α) (xs : List α) : Op α → List α × Answer α
  | .push val => (xs ++ [val], .done)
  | .unshift val => (val :: xs, .done)
  | .last =>
      match xs.getLast? with
      | some x => (xs, .gives (.ptr x))
      | none => (xs, .throws "Cannot get last element from an empty Array")
  | .pop =>
      match xs.getLast? with
      | some x => (xs.dropLast, .gives (.ptr x))
      | none => (xs, .throws "Cannot pop from an empty Array")
  | .shift =>
      match xs with
      | x :: rest => (rest, .gives (.ptr x))
      | [] => (xs, .throws "Cannot shift from an empty Array")
  | .assignPos i val =>
      ((xs ++ List.replicate (i.toNat + 1 - xs.length) nil).set i.toNat val, .done)
  | .atPos i => (xs, .gives (.ptr (xs.getD i.toNat nil)))

def specRun (nil : α) (xs : List α) : List (Op α × Bool) → List α × List (Answer α)
  | [] => (xs, [])
  | (op, _) :: rest =>
      let (xs, answer) := specStep nil xs op
      let (xs, answers) := specRun nil xs rest
      (xs, answer :: answers)

/-- The array is the list, and what it takes to be its room is inside its buffer. -/
structure Represents (ary : PoneAry α) (xs : List α) : Prop where
  len_eq : ary.len = xs.length
  holds : ary.a.Holds xs
  len_le : ary.len ≤ ary.max
  max_le : ary.max ≤ ary.a.length

/-- The buffer is no larger than a `size_t` can say. -/
def Addressable (self : PoneAry α) : Prop := self.a.length < 2 ^ 61

/-- The index of an assignment is not negative and its successor is representable. -/
def Op.InDomain : Op α → Prop
  | .assignPos i _ => 0 ≤ i ∧ i + 1 ≤ intMax
  | .atPos i => 0 ≤ i
  | _ => True

/-- The new `max` and the number of bytes that an operation asks for. -/
def request (self : PoneAry α) : Op α → Option (Int × Int)
  | .push _ =>
      if self.max = self.len then some (grownMax self.max, sizeofVal * grownMax self.max) else none
  | .unshift _ =>
      if self.max = self.len then some (grownMax self.max, sizeofPtr * grownMax self.max) else none
  | .assignPos i _ => if self.max ≤ i then some (i + 1, sizeofPtr * (i + 1)) else none
  | _ => none

def Op.isUnshift : Op α → Bool
  | .unshift _ => true
  | _ => false

/-- So many bytes, reduced to a `size_t`, are room for `max` pointers. -/
def Covers (max bytes : Int) : Prop := max ≤ (sizeT bytes / sizeofPtr : Nat)

/-- What an operation asks for covers its new `max` if it is granted, and `unshift` is not refused
memory. -/
def Covered (self : PoneAry α) (granted : Bool) (op : Op α) : Prop :=
  ∀ max bytes, request self op = some (max, bytes) →
    (granted = true → Covers max bytes) ∧ (op.isUnshift = true → granted = true)

/-- The outcome is that of the list, or the process has ended for want of memory. -/
inductive Matches {β : Type*} (refused : Prop) (xs : List α) (answers : β) :
    Except Halt (PoneAry α × β) → Prop
  | ok {self : PoneAry α} : Represents self xs → Matches refused xs answers (.ok (self, answers))
  | noMemory : refused → Matches refused xs answers (.error .noMemory)

/-- The count of `memmove`, reckoned in bytes, is the number of pointers. -/
theorem sizeT_ptrs {n : Nat} (small : n < 2 ^ 61) :
    sizeT (sizeofPtr * (n : Int)) / sizeofPtr = n := by
  unfold sizeT sizeofPtr
  omega

theorem wrap_eq {i : Int} (low : -2 ^ 63 ≤ i) (high : i < 2 ^ 63) : wrap i = i := by
  unfold wrap
  rw [Int.bmod_eq_of_le] <;> omega

/-- Without memory for `max` pointers there is no way back to a list. -/
def Stranded (self : PoneAry α) : Prop := (self.a.length : Int) < self.max

/-- What happens without a request for memory leaves the buffer where it is. -/
def SameRoom (self : PoneAry α) (outcome : Except Halt (PoneAry α)) : Prop :=
  outcome ≠ .error .noMemory ∧
    ∀ self', outcome = .ok self' → self'.max = self.max ∧ self'.a.length = self.a.length

/-- The array ends up as the list, or the process has ended for want of memory. -/
def Settles (refused : Prop) (xs : List α) (outcome : Except Halt (PoneAry α)) : Prop :=
  (∃ self, outcome = .ok self ∧ Represents self xs) ∨ (outcome = .error .noMemory ∧ refused)

theorem SameRoom.not_settles {self : PoneAry α} {outcome : Except Halt (PoneAry α)}
    (same : SameRoom self outcome) (stranded : Stranded self) (refused : Prop) (xs : List α) :
    ¬ Settles refused xs outcome := by
  rintro (⟨self', done, represents⟩ | ⟨ended, -⟩)
  · obtain ⟨max_eq, length_eq⟩ := same.2 self' done
    have within := represents.max_le
    unfold Stranded at stranded
    omega
  · exact same.1 ended

theorem SameRoom.bind {self : PoneAry α} {next : Block α → Except Halt (PoneAry α)}
    {accessed : Option (Block α)} (same : ∀ b, accessed = some b → SameRoom self (next b)) :
    SameRoom self (orHalt .wild accessed >>= next) := by
  cases accessed with
  | none => exact ⟨nofun, nofun⟩
  | some b => exact same b rfl

theorem sameRoom_ok {self : PoneAry α} {a : Block α} (same : a.length = self.a.length)
    (len : Int) : SameRoom self (.ok { self with a, len }) := by
  refine ⟨nofun, fun self' done => ?_⟩
  cases done
  exact ⟨rfl, same⟩

theorem append_sameRoom (self : PoneAry α) (val : α) : SameRoom self (append self val) := by
  apply SameRoom.bind
  intro a written
  exact sameRoom_ok (Block.length_of_write written) _

theorem prepend_sameRoom (self : PoneAry α) (val : α) : SameRoom self (prepend self val) := by
  apply SameRoom.bind
  intro a moved
  apply SameRoom.bind
  intro a' written
  exact sameRoom_ok ((Block.length_of_write written).trans (Block.length_of_move moved)) _

theorem fillNil_room {nil : α} {n : Nat} {self self' : PoneAry α}
    (filled : fillNil nil n self = some self') :
    self'.max = self.max ∧ self'.a.length = self.a.length := by
  induction n generalizing self with
  | zero =>
      cases filled
      exact ⟨rfl, rfl⟩
  | succ n ih =>
      simp only [fillNil, Option.bind_eq_bind, Option.bind_eq_some_iff] at filled
      obtain ⟨a, written, filled⟩ := filled
      obtain ⟨max_eq, length_eq⟩ := ih filled
      exact ⟨max_eq, length_eq.trans (Block.length_of_write written)⟩

namespace Represents

variable {self : PoneAry α} {xs : List α}

/-- A larger buffer represents the same list if it covers the new `max`. -/
theorem grown (represents : Represents self xs) {max : Int} {count : Nat}
    (larger : self.len ≤ max) (covers : max ≤ count) :
    Represents { self with a := self.a.resize count, max } xs where
  len_eq := represents.len_eq
  holds := by
    apply represents.holds.resize
    have := represents.len_eq
    omega
  len_le := larger
  max_le := by simpa using covers

theorem append (represents : Represents self xs) (room : self.len < self.max) (val : α) :
    ∃ self', append self val = .ok self' ∧ Represents self' (xs ++ [val]) := by
  obtain ⟨len_eq, holds, len_le, max_le⟩ := represents
  obtain ⟨b', written, holds'⟩ := holds.write_end (by omega) val
  refine ⟨{ self with a := b', len := self.len + 1 }, ?_, ?_, holds', ?_, ?_⟩
  · simp [Ary.append, len_eq, written, orHalt, bind, Except.bind, pure, Except.pure]
  · simp [len_eq]
  · exact room
  · rwa [Block.length_of_write written]

theorem prepend (represents : Represents self xs) (addressable : Addressable self)
    (room : self.len < self.max) (val : α) :
    ∃ self', prepend self val = .ok self' ∧ Represents self' (val :: xs) := by
  obtain ⟨len_eq, holds, len_le, max_le⟩ := represents
  obtain ⟨b', b'', moved, written, holds'⟩ := holds.move_up (by omega) val
  have count : sizeT (sizeofPtr * self.len) / sizeofPtr = xs.length := by
    rw [len_eq]
    apply sizeT_ptrs
    unfold Addressable at addressable
    omega
  refine ⟨{ self with a := b'', len := self.len + 1 }, ?_, ?_, holds', ?_, ?_⟩
  · simp [Ary.prepend, count, moved, written, orHalt, bind, Except.bind, pure, Except.pure]
  · simp [len_eq]
  · exact room
  · rwa [Block.length_of_write written, Block.length_of_move moved]

theorem fillNil (represents : Represents self xs) (nil : α) {n : Nat}
    (room : self.len + n ≤ self.max) :
    ∃ self', fillNil nil n self = some self' ∧
      Represents self' (xs ++ List.replicate n nil) := by
  induction n generalizing self xs with
  | zero => exact ⟨self, rfl, by simpa using represents⟩
  | succ n ih =>
      obtain ⟨len_eq, holds, len_le, max_le⟩ := represents
      obtain ⟨b', written, holds'⟩ := holds.write_end (by omega) nil
      have next : Represents { self with a := b', len := self.len + 1 } (xs ++ [nil]) :=
        ⟨by simp [len_eq], holds', by simp only; omega, by rwa [Block.length_of_write written]⟩
      obtain ⟨self', filled, represents'⟩ := ih next (by simp only; omega)
      refine ⟨self', ?_, ?_⟩
      · simp [Ary.fillNil, len_eq, written, ← filled]
      · simpa [List.replicate_succ] using represents'

/-- With the index inside the list, the assignment replaces an element. -/
theorem assign (represents : Represents self xs) {i : Int} (nonneg : 0 ≤ i) (inside : i < self.len)
    (val : α) :
    ∃ a, self.a.write i (.ptr val) = some a ∧ Represents { self with a } (xs.set i.toNat val) := by
  obtain ⟨len_eq, holds, len_le, max_le⟩ := represents
  obtain ⟨b', written, holds'⟩ := holds.write_among (i := i.toNat) (by omega) val
  rw [Int.toNat_of_nonneg nonneg] at written
  exact ⟨b', written, by simpa using len_eq, holds', len_le,
    by rwa [Block.length_of_write written]⟩

end Represents

theorem addressable_resize (self : PoneAry α) (bytes max : Int) :
    Addressable { self with a := self.a.resize (sizeT bytes / sizeofPtr), max } := by
  have := sizeT_lt bytes
  simp only [Addressable, Block.length_resize, sizeofPtr]
  omega

/-- Work in a buffer that has just been asked for settles exactly when the buffer covers the new
`max`. -/
theorem settles_grown_iff {self : PoneAry α} {xs ys : List α} {max : Int} (bytes : Int)
    {next : PoneAry α → Except Halt (PoneAry α)} (represents : Represents self xs)
    (larger : self.len ≤ max)
    (succeeds : ∀ s, Represents s xs → Addressable s → s.max = max → s.len = self.len →
      ∃ s', next s = .ok s' ∧ Represents s' ys)
    (same : ∀ s, SameRoom s (next s)) (refused : Prop) :
    Settles refused ys
      (next { self with a := self.a.resize (sizeT bytes / sizeofPtr), max }) ↔
      Covers max bytes := by
  constructor
  · intro settles
    by_contra short
    apply (same _).not_settles _ refused ys settles
    unfold Covers at short
    simp only [Stranded, Block.length_resize]
    omega
  · intro covers
    obtain ⟨s', done, represents'⟩ := succeeds _ (represents.grown larger covers)
      (addressable_resize self bytes max) rfl rfl
    exact .inl ⟨s', done, represents'⟩

theorem settles_ok {refused : Prop} {self : PoneAry α} {xs : List α}
    (represents : Represents self xs) : Settles refused xs (.ok self) :=
  .inl ⟨self, rfl, represents⟩

theorem not_settles_wild {refused : Prop} {xs : List α} :
    ¬ Settles refused xs (.error .wild : Except Halt (PoneAry α)) := by
  rintro (⟨_, done, -⟩ | ⟨ended, -⟩)
  · cases done
  · cases ended

/-- Doubling `max` does not overflow. -/
theorem grownMax_eq {self : PoneAry α} {xs : List α} (represents : Represents self xs)
    (addressable : Addressable self) :
    grownMax self.max = if 0 < self.max then self.max * 2 else 1 := by
  have within := represents.max_le
  unfold Addressable at addressable
  unfold grownMax
  split
  · apply wrap_eq <;> omega
  · rfl

theorem len_lt_grownMax {self : PoneAry α} {xs : List α} (represents : Represents self xs)
    (addressable : Addressable self) (full : self.max = self.len) :
    self.len < grownMax self.max := by
  have nonneg := represents.len_eq
  rw [grownMax_eq represents addressable]
  split <;> omega

theorem aryPush_settles_iff {self : PoneAry α} {xs : List α} (represents : Represents self xs)
    (addressable : Addressable self) {granted : Bool} {refused : Prop}
    (wanting : granted = false → refused) (val : α) :
    Settles refused (xs ++ [val]) (aryPush granted self val) ↔
      Covered self granted (.push val) := by
  have room := represents.len_le
  by_cases full : self.max = self.len
  · have grows := len_lt_grownMax represents addressable full
    simp only [aryPush, if_pos full, Covered, request, realloc]
    cases granted with
    | false => simp [Settles, Op.isUnshift, wanting]
    | true =>
        have settles := settles_grown_iff (sizeofVal * grownMax self.max) represents grows.le
          (fun s represents' _ max_eq len_eq => represents'.append (by omega) val)
          (fun s => append_sameRoom s val) refused
        simpa [Op.isUnshift] using settles
  · obtain ⟨self', done, represents'⟩ := represents.append (by omega) val
    simp only [aryPush, full, if_false, done, Covered, request]
    simpa using settles_ok represents'

/-- `max << 1` where `max` is not zero is what `pone_ary_push` makes of `max`. -/
theorem unshiftMax_eq {self : PoneAry α} {xs : List α} (represents : Represents self xs) :
    (if self.max ≠ 0 then wrap (self.max * 2) else 1) = grownMax self.max := by
  have nonneg := represents.len_eq
  have room := represents.len_le
  unfold grownMax
  by_cases empty : self.max = 0
  · simp [empty]
  · rw [if_pos empty, if_pos (by omega)]

theorem aryUnshift_settles_iff {self : PoneAry α} {xs : List α} (represents : Represents self xs)
    (addressable : Addressable self) (granted : Bool) (refused : Prop) (val : α) :
    Settles refused (val :: xs) (aryUnshift granted self val) ↔
      Covered self granted (.unshift val) := by
  have room := represents.len_le
  by_cases full : self.max = self.len
  · have grows := len_lt_grownMax represents addressable full
    simp only [aryUnshift, if_pos full, unshiftMax_eq represents, Covered, request, realloc]
    cases granted with
    | false => simp [Op.isUnshift, not_settles_wild]
    | true =>
        have settles := settles_grown_iff (sizeofPtr * grownMax self.max) represents grows.le
          (fun s represents' addressable' max_eq len_eq =>
            represents'.prepend addressable' (by omega) val)
          (fun s => prepend_sameRoom s val) refused
        simpa [Op.isUnshift] using settles
  · obtain ⟨self', done, represents'⟩ := represents.prepend addressable (by omega) val
    simp only [aryUnshift, full, if_false, done, Covered, request]
    simpa using settles_ok represents'

/-- The rest of an assignment beyond the length: the gap is filled and the value is written. -/
def fillAndWrite (nil : α) (n : Nat) (i : Int) (val : α) (self : PoneAry α) :
    Except Halt (PoneAry α) := do
  let self ← orHalt .wild (fillNil nil n self)
  let a ← orHalt .wild (self.a.write i (.ptr val))
  return { self with a }

theorem fillAndWrite_sameRoom (nil : α) (n : Nat) (i : Int) (val : α) (self : PoneAry α) :
    SameRoom self (fillAndWrite nil n i val self) := by
  unfold fillAndWrite
  cases filled : fillNil nil n self with
  | none => exact ⟨nofun, nofun⟩
  | some self' =>
      obtain ⟨max_eq, length_eq⟩ := fillNil_room filled
      have same : SameRoom self' (orHalt .wild (self'.a.write i (.ptr val)) >>=
          fun a => .ok { self' with a }) :=
        SameRoom.bind fun a written => sameRoom_ok (Block.length_of_write written) _
      refine ⟨same.1, fun self'' done => ?_⟩
      obtain ⟨max_eq', length_eq'⟩ := same.2 self'' done
      exact ⟨max_eq'.trans max_eq, length_eq'.trans length_eq⟩

theorem Represents.fillAndWrite {self : PoneAry α} {xs : List α}
    (represents : Represents self xs) (nil : α) {i : Int} (beyond : self.len ≤ i)
    (room : i < self.max) (val : α) :
    ∃ self', fillAndWrite nil (i + 1 - self.len).toNat i val self = .ok self' ∧
      Represents self' ((xs ++ List.replicate (i.toNat + 1 - xs.length) nil).set i.toNat val) := by
  have len_eq := represents.len_eq
  have count : (i + 1 - self.len).toNat = i.toNat + 1 - xs.length := by omega
  obtain ⟨self', filled, represents'⟩ :=
    represents.fillNil nil (n := (i + 1 - self.len).toNat) (by omega)
  rw [count] at filled represents' ⊢
  have len_eq' := represents'.len_eq
  simp only [List.length_append, List.length_replicate] at len_eq'
  obtain ⟨a, written, assigned⟩ := represents'.assign (i := i) (by omega) (by omega) val
  refine ⟨_, ?_, assigned⟩
  simp [Ary.fillAndWrite, filled, written, orHalt, bind, Except.bind, pure, Except.pure]

theorem aryAssignPos_beyond {self : PoneAry α} {nil val : α} {i : Int} (granted : Bool)
    (beyond : self.len ≤ i) (below : i + 1 ≤ intMax) (nonneg : 0 ≤ i) :
    aryAssignPos granted nil self i val =
      if self.max ≤ i then
        match realloc granted self.a (sizeT (sizeofPtr * (i + 1))) with
        | none => .error .noMemory
        | some a =>
            fillAndWrite nil (i + 1 - self.len).toNat i val { self with a, max := i + 1 }
      else fillAndWrite nil (i + 1 - self.len).toNat i val self := by
  have no_wrap : wrap (i + 1) = i + 1 := by
    unfold intMax at below
    apply wrap_eq <;> omega
  rw [aryAssignPos, if_neg (by omega), no_wrap, aryResize, if_pos (by omega)]
  by_cases short : self.max ≤ i
  · rw [if_pos short, if_pos (by omega)]
    cases realloc granted self.a (sizeT (sizeofPtr * (i + 1))) <;> rfl
  · rw [if_neg short, if_neg (by omega)]
    rfl

theorem aryAssignPos_settles_iff {self : PoneAry α} {xs : List α} {nil : α} {i : Int}
    (represents : Represents self xs) {granted : Bool} {refused : Prop}
    (wanting : granted = false → refused) (val : α) (valid : (Op.assignPos i val).InDomain) :
    Settles refused
        ((xs ++ List.replicate (i.toNat + 1 - xs.length) nil).set i.toNat val)
        (aryAssignPos granted nil self i val) ↔
      Covered self granted (.assignPos i val) := by
  obtain ⟨nonneg, below⟩ := valid
  have len_eq := represents.len_eq
  have room := represents.len_le
  by_cases inside : i < self.len
  · obtain ⟨a, written, assigned⟩ := represents.assign nonneg inside val
    have no_gap : i.toNat + 1 - xs.length = 0 := by omega
    have no_request : ¬ self.max ≤ i := by omega
    simp only [aryAssignPos, if_pos inside, written, no_gap, Covered, request, if_neg no_request,
      List.replicate_zero, List.append_nil]
    simpa [orHalt, Functor.map, Except.map] using settles_ok assigned
  · rw [aryAssignPos_beyond granted (by omega) below nonneg]
    by_cases short : self.max ≤ i
    · simp only [if_pos short, Covered, request, realloc]
      cases granted with
      | false => simp [Settles, Op.isUnshift, wanting]
      | true =>
          have settles := settles_grown_iff (sizeofPtr * (i + 1)) represents
            (by omega : self.len ≤ i + 1)
            (fun s represents' _ max_eq len_eq' => by
              have done := represents'.fillAndWrite nil (i := i) (by omega) (by omega) val
              rwa [len_eq'] at done)
            (fillAndWrite_sameRoom nil (i + 1 - self.len).toNat i val) refused
          simpa [Op.isUnshift] using settles
    · obtain ⟨self', done, represents'⟩ :=
        represents.fillAndWrite nil (i := i) (by omega) (by omega) val
      simp only [if_neg short, done, Covered, request]
      simpa using settles_ok represents'

theorem aryAtPos_eq {self : PoneAry α} {xs : List α} (represents : Represents self xs) (nil : α)
    {i : Int} (nonneg : 0 ≤ i) :
    aryAtPos nil self i = .ok (.ptr (xs.getD i.toNat nil)) := by
  have len_eq := represents.len_eq
  unfold aryAtPos
  by_cases inside : i < self.len
  · have within : i.toNat < xs.length := by omega
    have found : xs[i.toNat]? = some xs[i.toNat] := List.getElem?_eq_getElem within
    have read := represents.holds.read found
    rw [Int.toNat_of_nonneg nonneg] at read
    rw [if_pos inside, read, List.getD_eq_getElem?_getD, found]
    rfl
  · have outside : xs[i.toNat]? = none := List.getElem?_eq_none (by omega)
    rw [if_neg inside, List.getD_eq_getElem?_getD, outside]
    rfl

theorem Represents.len_eq_zero_iff {self : PoneAry α} {xs : List α}
    (represents : Represents self xs) : self.len = 0 ↔ xs = [] := by
  rw [represents.len_eq]
  simp

theorem aryLast_eq {self : PoneAry α} {xs : List α} (represents : Represents self xs) (nil : α) :
    aryLast self = .ok (specStep nil xs .last).2 := by
  rcases List.eq_nil_or_concat' xs with rfl | ⟨xs, x, rfl⟩
  · have empty := represents.len_eq_zero_iff.mpr rfl
    simp [aryLast, empty, specStep]
  · have len_eq := represents.len_eq
    simp only [List.length_append, List.length_singleton, Nat.cast_add, Nat.cast_one] at len_eq
    have read : self.a.read (xs.length : Int) = some (.ptr x) := represents.holds.read (by simp)
    have last : self.len - 1 = xs.length := by omega
    rw [aryLast, if_neg (by omega), last, read]
    simp [specStep, orHalt, bind, Except.bind, pure, Except.pure]

theorem aryPop_eq {self : PoneAry α} {xs : List α} (represents : Represents self xs) (nil : α) :
    ∃ self', aryPop self = .ok (self', (specStep nil xs .pop).2) ∧
      Represents self' (specStep nil xs .pop).1 ∧ self'.a.length = self.a.length := by
  rcases List.eq_nil_or_concat' xs with rfl | ⟨xs, x, rfl⟩
  · have empty := represents.len_eq_zero_iff.mpr rfl
    exact ⟨self, by simp [aryPop, empty, specStep], represents, rfl⟩
  · obtain ⟨len_eq, holds, len_le, max_le⟩ := represents
    simp only [List.length_append, List.length_singleton, Nat.cast_add, Nat.cast_one] at len_eq
    have read : self.a.read (xs.length : Int) = some (.ptr x) := holds.read (by simp)
    obtain ⟨b', written, holds'⟩ := holds.write_last .null
    have last : self.len - 1 = xs.length := by omega
    have length_eq := Block.length_of_write written
    refine ⟨{ self with a := b', len := self.len - 1 }, ?_,
      ⟨by simpa [specStep] using last, by simpa [specStep] using holds', by simp only; omega,
        by simp only; omega⟩, length_eq⟩
    rw [aryPop, if_neg (by omega), last, read]
    simp [specStep, written, orHalt, bind, Except.bind, pure, Except.pure]

theorem aryShift_eq {self : PoneAry α} {xs : List α} (represents : Represents self xs)
    (addressable : Addressable self) (nil : α) :
    ∃ self', aryShift self = .ok (self', (specStep nil xs .shift).2) ∧
      Represents self' (specStep nil xs .shift).1 ∧ self'.a.length = self.a.length := by
  cases xs with
  | nil =>
      have empty := represents.len_eq_zero_iff.mpr rfl
      exact ⟨self, by simp [aryShift, empty, specStep], represents, rfl⟩
  | cons x xs =>
      obtain ⟨len_eq, holds, len_le, max_le⟩ := represents
      simp only [List.length_cons, Nat.cast_add, Nat.cast_one] at len_eq
      have read : self.a.read ((0 : Nat) : Int) = some (.ptr x) := holds.read (by simp)
      obtain ⟨b', moved, holds'⟩ := holds.move_down
      have rest : self.len - 1 = xs.length := by omega
      have count : sizeT (sizeofPtr * (xs.length : Int)) / sizeofPtr = xs.length := by
        apply sizeT_ptrs
        unfold Addressable at addressable
        omega
      have length_eq := Block.length_of_move moved
      refine ⟨{ self with a := b', len := self.len - 1 }, ?_,
        ⟨by simpa [specStep] using rest, by simpa [specStep] using holds', by simp only; omega,
          by simp only; omega⟩, length_eq⟩
      rw [aryShift, if_neg (by omega), rest, count]
      simp only [Nat.cast_zero] at read
      simp [specStep, read, moved, orHalt, bind, Except.bind, pure, Except.pure]

theorem matches_ok_iff {β : Type*} {refused : Prop} {xs : List α} {answers answers' : β}
    {self : PoneAry α} :
    Matches refused xs answers (.ok (self, answers')) ↔
      answers' = answers ∧ Represents self xs := by
  constructor
  · rintro ⟨represents⟩
    exact ⟨rfl, represents⟩
  · rintro ⟨rfl, represents⟩
    exact .ok represents

theorem matches_done_iff {β : Type u} {refused : Prop} {xs : List α} {answer : β}
    {outcome : Except Halt (PoneAry α)} :
    Matches refused xs answer (do return (← outcome, answer)) ↔ Settles refused xs outcome := by
  cases outcome with
  | ok self =>
      refine matches_ok_iff.trans ?_
      simp [Settles]
  | error halt =>
      constructor
      · rintro (⟨_⟩ | ⟨refused⟩)
        exact .inr ⟨rfl, refused⟩
      · rintro (⟨_, done, -⟩ | ⟨ended, refused⟩)
        · cases done
        · cases ended
          exact .noMemory refused

theorem covered_of_no_request {self : PoneAry α} {op : Op α} (granted : Bool)
    (quiet : request self op = none) : Covered self granted op := by
  intro max bytes asked
  rw [quiet] at asked
  cases asked

/-- One operation is that of the list exactly when the memory it asks for covers the new `max`. -/
theorem step_matches_iff {self : PoneAry α} {xs : List α} {op : Op α} (nil : α)
    (represents : Represents self xs) (addressable : Addressable self) {granted : Bool}
    {refused : Prop} (wanting : granted = false → refused) (valid : op.InDomain) :
    Matches refused (specStep nil xs op).1 (specStep nil xs op).2
        (step nil self granted op) ↔
      Covered self granted op := by
  cases op with
  | push val =>
      exact matches_done_iff.trans (aryPush_settles_iff represents addressable wanting val)
  | unshift val =>
      exact matches_done_iff.trans
        (aryUnshift_settles_iff represents addressable granted refused val)
  | last =>
      have kept : (specStep nil xs .last).1 = xs := by
        simp only [specStep]
        split <;> rfl
      have done : step nil self granted .last = .ok (self, (specStep nil xs .last).2) := by
        simp only [step, aryLast_eq represents nil]
        rfl
      rw [done, kept]
      exact iff_of_true (.ok represents) (covered_of_no_request granted rfl)
  | pop =>
      obtain ⟨self', done, represents', -⟩ := aryPop_eq represents nil
      rw [step, done]
      exact iff_of_true (.ok represents') (covered_of_no_request granted rfl)
  | shift =>
      obtain ⟨self', done, represents', -⟩ := aryShift_eq represents addressable nil
      rw [step, done]
      exact iff_of_true (.ok represents') (covered_of_no_request granted rfl)
  | assignPos i val =>
      exact matches_done_iff.trans (aryAssignPos_settles_iff represents wanting val valid)
  | atPos i =>
      rw [step, aryAtPos_eq represents nil valid]
      exact iff_of_true (.ok represents) (covered_of_no_request granted rfl)

theorem SameRoom.addressable {self self' : PoneAry α} {outcome : Except Halt (PoneAry α)}
    (same : SameRoom self outcome) (addressable : Addressable self)
    (done : outcome = .ok self') : Addressable self' := by
  unfold Addressable at addressable ⊢
  rwa [(same.2 self' done).2]

end Ary
end Pone
