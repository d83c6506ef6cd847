import Pone.Ary.Refine

/-!
# Indexes that come from the program

`pone_ary_at_pos` and `pone_ary_assign_pos` compare an index with the length and nothing else, so a
negative index counts as one of an element.
-/

namespace Pone
namespace Ary

open CLong (sizeT)

universe u

variable {α : Type u}

/-- A `pone_int_t` -/
def InRange (i : Int) : Prop := -2 ^ 63 ≤ i ∧ i ≤ intMax

/-- `pone_at_pos` on an array -/
def atPos (intify : α → Int) (nil : α) (obj : PoneAry α) (pos : α) : Except Halt (Cell α) :=
  aryAtPos nil obj (intify pos)

/-- `pone_assign_pos` on an array -/
def assignPos (intify : α → Int) (granted : Bool) (nil : α) (var : PoneAry α) (pos rhs : α) :
    Except Halt (PoneAry α × α) := do
  return (← aryAssignPos granted nil var (intify pos) rhs, rhs)

/-- `Array#ASSIGN-POS` -/
def methAryAssignPos (intify : α → Int) (granted : Bool) (nil : α) (self : PoneAry α)
    (pos value : α) : Except Halt (PoneAry α × α) := do
  return (← aryAssignPos granted nil self (intify pos) value, value)

/-- `runtime.caller(level)`: the file name, the line and the name of the sub, or nil.  `frame` is the
array that a value of the caller stack is. -/
def methCaller (frame : α → Option (PoneAry α)) (nil : α) (callerStack : PoneAry α) (level : Int) :
    Except Halt (Option (List (Cell α))) := do
  match ← aryAtPos nil callerStack (wrap (wrap (callerStack.len - level) - 1)) with
  | .ptr caller =>
      match frame caller with
      | some caller =>
          return some [← aryAtPos nil caller 0, ← aryAtPos nil caller 1, ← aryAtPos nil caller 2]
      | none => return none
  | _ => .error .wild

/-- The index is that of an element. -/
def Denotes (xs : List α) (i : Int) (x : α) : Prop := 0 ≤ i ∧ xs[i.toNat]? = some x

/-- A read gives the element of the index, and nil where the index denotes none. -/
def ReadSafe (nil : α) (xs : List α) (i : Int) (outcome : Except Halt (Cell α)) : Prop :=
  ∃ y, outcome = .ok (.ptr y) ∧ (∀ x, Denotes xs i x → y = x) ∧ ((¬ ∃ x, Denotes xs i x) → y = nil)

/-- A write makes the value the element of the index, with nil in the gap before it.  Where there is
no such element, it leaves the array alone. -/
def WriteSafe (nil : α) (self : PoneAry α) (xs : List α) (granted : Bool) (i : Int) (val : α)
    (outcome : Except Halt (PoneAry α × α)) : Prop :=
  if 0 ≤ i then
    Matches (granted = false)
      ((xs ++ List.replicate (i.toNat + 1 - xs.length) nil).set i.toNat val) val outcome
  else outcome = .ok (self, nil)

/-- The caller of that level, and nil where there is none. -/
def CallerSafe (frame : α → Option (PoneAry α)) (xs : List α) (level : Int)
    (outcome : Except Halt (Option (List (Cell α)))) : Prop :=
  ∃ y, outcome = .ok y ∧
    (∀ x, Denotes xs (xs.length - level - 1) x →
      ∃ caller f l s, frame x = some caller ∧ Represents caller [f, l, s] ∧
        y = some [.ptr f, .ptr l, .ptr s]) ∧
    ((¬ ∃ x, Denotes xs (xs.length - level - 1) x) → y = none)

/-- The values on the caller stack are what `pone_push_caller` has pushed. -/
def Frames (frame : α → Option (PoneAry α)) (xs : List α) : Prop :=
  ∀ x ∈ xs, ∃ caller f l s, frame x = some caller ∧ Represents caller [f, l, s]

/-- The operations that take an index from the program. -/
inductive Access (α : Type*) where
  | atPos (pos : α)
  | assignPos (pos rhs : α)
  | methAssignPos (pos value : α)
  | caller (level : Int)

/-- The operation, on the array or on the caller stack, stays within the elements. -/
def Access.Safe (intify : α → Int) (frame : α → Option (PoneAry α)) (granted : Bool) (nil : α)
    (self : PoneAry α) (xs : List α) : Access α → Prop
  | .atPos pos => ReadSafe nil xs (intify pos) (Ary.atPos intify nil self pos)
  | .assignPos pos rhs =>
      WriteSafe nil self xs granted (intify pos) rhs
        (Ary.assignPos intify granted nil self pos rhs)
  | .methAssignPos pos value =>
      WriteSafe nil self xs granted (intify pos) value
        (methAryAssignPos intify granted nil self pos value)
  | .caller level => CallerSafe frame xs level (methCaller frame nil self level)

/-- The index is not negative.  For an assignment its successor is representable and as many
pointers have a size, if the buffer has to grow. -/
def Access.Sound (intify : α → Int) (granted : Bool) (self : PoneAry α) : Access α → Prop
  | .atPos pos => 0 ≤ intify pos
  | .assignPos pos _ | .methAssignPos pos _ =>
      0 ≤ intify pos ∧ intify pos < intMax ∧
        (granted = true → self.max ≤ intify pos → intify pos + 1 < 2 ^ 61)
  | .caller level => level < self.len ∧ self.len - 2 ^ 63 ≤ level

theorem aryAtPos_negative {self : PoneAry α} {xs : List α} (represents : Represents self xs)
    (nil : α) {i : Int} (negative : i < 0) : aryAtPos nil self i = .error .wild := by
  have len_eq := represents.len_eq
  rw [aryAtPos, if_pos (by omega), Block.read_neg _ negative]
  rfl

theorem denotes_getD (xs : List α) {i : Int} (nonneg : 0 ≤ i) (nil : α) :
    (∀ x, Denotes xs i x → xs.getD i.toNat nil = x) ∧
      ((¬ ∃ x, Denotes xs i x) → xs.getD i.toNat nil = nil) := by
  rw [List.getD_eq_getElem?_getD]
  constructor
  · rintro x ⟨-, found⟩
    rw [found]
    rfl
  · intro denotes_none
    cases found : xs[i.toNat]? with
    | none => rfl
    | some x => exact absurd ⟨x, nonneg, found⟩ denotes_none

theorem atPos_safe_iff {self : PoneAry α} {xs : List α} (represents : Represents self xs)
    (intify : α → Int) (nil pos : α) :
    ReadSafe nil xs (intify pos) (atPos intify nil self pos) ↔ 0 ≤ intify pos := by
  unfold atPos
  constructor
  · rintro ⟨y, done, -⟩
    by_contra negative
    rw [aryAtPos_negative represents nil (by omega)] at done
    cases done
  · intro nonneg
    exact ⟨_, aryAtPos_eq represents nil nonneg, denotes_getD xs nonneg nil⟩

/-- A size in bytes covers the pointers exactly when it does not wrap around. -/
theorem covers_ptrs_iff (max : Int) (nonneg : 0 ≤ max) (representable : max ≤ intMax) :
    Covers max (sizeofPtr * max) ↔ max < 2 ^ 61 := by
  unfold Covers sizeT sizeofPtr
  unfold intMax at representable
  omega

theorem assignPos_covered_iff {self : PoneAry α} {granted : Bool} {i : Int} {val : α}
    (valid : (Op.assignPos i val).InDomain) :
    Covered self granted (.assignPos i val) ↔
      (granted = true → self.max ≤ i → i + 1 < 2 ^ 61) := by
  have covers := covers_ptrs_iff (i + 1) (by have := valid.1; omega) valid.2
  unfold Covered request
  by_cases short : self.max ≤ i
  · simp [short, covers, Op.isUnshift]
  · simp [short]

theorem aryAssignPos_safe_iff {self : PoneAry α} {xs : List α} (represents : Represents self xs)
    (addressable : Addressable self) (granted : Bool) (nil val : α) {i : Int} (range : InRange i) :
    WriteSafe nil self xs granted i val (do return (← aryAssignPos granted nil self i val, val)) ↔
      0 ≤ i ∧ i < intMax ∧ (granted = true → self.max ≤ i → i + 1 < 2 ^ 61) := by
  obtain ⟨low, high⟩ := range
  have len_eq := represents.len_eq
  have room := represents.len_le
  have within := represents.max_le
  unfold Addressable at addressable
  unfold WriteSafe
  by_cases nonneg : 0 ≤ i
  · rw [if_pos nonneg]
    by_cases largest : i = intMax
    · -- the successor of the index is negative, and `pone_ary_resize` does not shrink
      have overflow : wrap (i + 1) = -2 ^ 63 := by rw [largest]; rfl
      have aborts : aryAssignPos granted nil self i val = .error .abort := by
        unfold intMax at largest
        rw [aryAssignPos, if_neg (by omega), overflow, aryResize, if_neg (by omega)]
        rfl
      rw [aborts]
      refine iff_of_false ?_ (by omega)
      rintro ⟨_⟩
    · have valid : (Op.assignPos i val).InDomain := ⟨nonneg, by omega⟩
      rw [matches_done_iff, aryAssignPos_settles_iff represents id val valid,
        assignPos_covered_iff valid]
      constructor
      · intro covered
        exact ⟨nonneg, by omega, covered⟩
      · rintro ⟨-, -, covered⟩
        exact covered
  · have negative : self.a.write i (.ptr val) = none :=
      Block.write_eq_none (.inl (by omega)) _
    rw [if_neg nonneg, aryAssignPos, if_pos (by omega), negative]
    refine iff_of_false ?_ (by omega)
    rintro ⟨_⟩

theorem Represents.read_frame {caller : PoneAry α} {f l s : α} (nil : α)
    (represents : Represents caller [f, l, s]) :
    aryAtPos nil caller 0 = .ok (.ptr f) ∧ aryAtPos nil caller 1 = .ok (.ptr l) ∧
      aryAtPos nil caller 2 = .ok (.ptr s) :=
  ⟨aryAtPos_eq represents nil le_rfl, aryAtPos_eq represents nil zero_le_one,
    aryAtPos_eq represents nil zero_le_two⟩

theorem wrap_spec (i : Int) :
    -2 ^ 63 ≤ wrap i ∧ wrap i < 2 ^ 63 ∧ ∃ k : Int, wrap i = i + k * 2 ^ 64 := by
  unfold wrap
  have low := Int.le_bmod (x := i) (m := 2 ^ 64) (by decide)
  have high := Int.bmod_lt (x := i) (m := 2 ^ 64) (by decide)
  refine ⟨by omega, by omega, -(i.bdiv (2 ^ 64)), ?_⟩
  have split := Int.bdiv_add_bmod i (2 ^ 64)
  omega

/-- In `pone_int_t` the position on the caller stack is negative unless the level is that of a
caller, or a negative one that is not too far from zero. -/
theorem callerIndex {l level : Int} (nonneg : 0 ≤ l) (small : l < 2 ^ 61) (range : InRange level) :
    if level < l ∧ l - 2 ^ 63 ≤ level then wrap (wrap (l - level) - 1) = l - level - 1
    else wrap (wrap (l - level) - 1) < 0 := by
  obtain ⟨low, high⟩ := range
  unfold intMax at high
  obtain ⟨inner_low, inner_high, k, inner⟩ := wrap_spec (l - level)
  obtain ⟨outer_low, outer_high, k', outer⟩ := wrap_spec (wrap (l - level) - 1)
  split <;> omega

theorem methCaller_safe_iff {self : PoneAry α} {xs : List α} {frame : α → Option (PoneAry α)}
    {nil : α} (represents : Represents self xs) (addressable : Addressable self)
    (frames : Frames frame xs) (nil_frame : frame nil = none) {level : Int}
    (range : InRange level) :
    CallerSafe frame xs level (methCaller frame nil self level) ↔
      level < self.len ∧ self.len - 2 ^ 63 ≤ level := by
  have len_eq := represents.len_eq
  have room := represents.len_le
  have within := represents.max_le
  unfold Addressable at addressable
  have position := callerIndex (l := self.len) (by omega) (by omega) range
  by_cases sound : level < self.len ∧ self.len - 2 ^ 63 ≤ level
  · rw [if_pos sound] at position
    refine iff_of_true ?_ sound
    obtain ⟨found_all, outside⟩ :=
      denotes_getD xs (i := self.len - level - 1) (by omega) nil
    unfold CallerSafe
    rw [methCaller, position, aryAtPos_eq represents nil (by omega), ← len_eq]
    by_cases denotes : ∃ x, Denotes xs (self.len - level - 1) x
    · obtain ⟨x, found⟩ := denotes
      obtain ⟨caller, f, l, s, framed, caller_represents⟩ :=
        frames x (List.mem_of_getElem? found.2)
      obtain ⟨file, line, sub⟩ := caller_represents.read_frame nil
      refine ⟨some [.ptr f, .ptr l, .ptr s], ?_, fun y found' => ?_, fun no => absurd ⟨x, found⟩ no⟩
      · rw [found_all x found]
        simp [framed, file, line, sub, bind, Except.bind, pure, Except.pure]
      · obtain rfl : x = y := Option.some.inj (found.2.symm.trans found'.2)
        exact ⟨caller, f, l, s, framed, caller_represents, rfl⟩
    · refine ⟨none, ?_, fun x found => absurd ⟨x, found⟩ denotes, fun _ => rfl⟩
      rw [outside denotes]
      simp [nil_frame, bind, Except.bind, pure, Except.pure]
  · rw [if_neg sound] at position
    refine iff_of_false ?_ sound
    rintro ⟨y, done, -⟩
    rw [methCaller, aryAtPos_negative represents nil position] at done
    cases done

/-- An operation with an index from the program stays within the elements exactly when the index is
not negative, and an assignment can grow the array to the index. -/
theorem index_safe_iff {intify : α → Int} {frame : α → Option (PoneAry α)} {nil : α}
    {self : PoneAry α} {xs : List α} {access : Access α} (granted : Bool)
    (intified : ∀ x, InRange (intify x)) (represents : Represents self xs)
    (addressable : Addressable self)
    (leveled : ∀ level, access = .caller level →
      InRange level ∧ Frames frame xs ∧ frame nil = none) :
    access.Safe intify frame granted nil self xs ↔ access.Sound intify granted self := by
  cases access with
  | atPos pos => exact atPos_safe_iff represents intify nil pos
  | assignPos pos rhs =>
      exact aryAssignPos_safe_iff represents addressable granted nil rhs (intified pos)
  | methAssignPos pos value =>
      exact aryAssignPos_safe_iff represents addressable granted nil value (intified pos)
  | caller level =>
      obtain ⟨range, frames, nil_frame⟩ := leveled level rfl
      exact methCaller_safe_iff represents addressable frames nil_frame range

/-- An array of two elements and the index 5. -/
theorem index_safe_iff_five :
    (Access.assignPos 5 7 : Access Int).Safe wrap (fun _ => none) true 0
      { a := [.ptr 1, .ptr 2], max := 2, len := 2 } [1, 2] := by
  apply (index_safe_iff true ?_ ⟨rfl, ⟨[], rfl⟩, le_rfl, by decide⟩ ?_ (fun _ same => by cases same)).mpr
  · exact ⟨by decide, by decide, fun _ _ => by decide⟩
  · intro i
    obtain ⟨low, high, -⟩ := wrap_spec i
    exact ⟨low, by unfold intMax; omega⟩
  · simp [Addressable]

/-- The index -1 is that of no element. -/
theorem atPos_negative_outside :
    ¬ ∀ (self : PoneAry Int) (xs : List Int) (access : Access Int), Represents self xs →
      (∀ level, access = .caller level →
        InRange level ∧ Frames (fun _ => none) xs) →
      access.Safe wrap (fun _ => none) true 0 self xs := by
  intro safe
  have two : Represents (α := Int) { a := [.ptr 1, .ptr 2], max := 2, len := 2 } [1, 2] :=
    ⟨rfl, ⟨[], rfl⟩, le_rfl, by decide⟩
  obtain ⟨y, done, -⟩ := safe _ _ (.atPos (-1)) two (fun _ same => by cases same)
  cases done

end Ary
end Pone
