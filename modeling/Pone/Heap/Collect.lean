import Pone.Heap.Gc

/-!
# What a collection frees

A collection frees exactly the values in the arenas of its world that are not traced: they carried no
mark before, and no path over unmarked values leads to them from a root that is marked.
-/

namespace Pone
namespace Heap

section Collect

variable {κ : Type} {u u' : Universe κ} {world index : Nat} {ref : Ref}

/-- A value was freed: its slot is on a freelist now. -/
def Freed (u u' : Universe κ) (ref : Ref) : Prop := u.value ref ≠ none ∧ u'.value ref = none

/-- The roots that a collection of a world marks. -/
def Universe.gcRoots (u : Universe κ) (world : Nat) : List Ref :=
  u.markedRoots ++ ((u.worlds[world]?).map World.markedRoots).getD []

/-- The mark is set beforehand, or unmarked values lead to the value from a root that is marked. -/
def Traced (u : Universe κ) (world : Nat) (ref : Ref) : Prop :=
  u.marked ref = true ∨ ∃ root ∈ u.gcRoots world, Marking.Clear u.children u.marked root ref

/-! ## Changes of one slot -/

theorem value_modifyWorld {change : World κ → World κ}
    (slots : ∀ w, (change w).slots = w.slots) :
    (u.modifyWorld world change).value ref = u.value ref := by
  cases ref with
  | nil | bool | constInt => rfl
  | slot other index =>
      simp only [Universe.value, Universe.modifyWorld, List.getElem?_modify]
      cases u.worlds[other]? with
      | none => rfl
      | some w =>
          by_cases same : world = other
          · simp [same, slots]
          · simp [same]

theorem value_setSlot_none :
    (u.setSlot world index none).value ref =
      if ref = .slot world index then none else u.value ref := by
  cases ref with
  | nil | bool | constInt => rfl
  | slot other position =>
      simp only [Universe.value, Universe.setSlot, Universe.modifyWorld, List.getElem?_modify]
      by_cases here : world = other
      · obtain rfl := here
        cases u.worlds[world]? with
        | none => simp
        | some w =>
            by_cases there : index = position
            · obtain rfl := there
              by_cases bound : index < w.slots.length <;> simp [bound]
            · simp [Ne.symm there, List.getElem?_set_ne there]
      · simp [here, Ne.symm here]

/-! ## The sweep -/

/-- The body of an opaque. -/
def Value.body : Value κ → Option Nat
  | .opaqueRef body => some body
  | _ => none

/-- The body that a round of the sweep releases. -/
def released (u : Universe κ) (world index : Nat) : Option Nat :=
  if u.marked (.slot world index) then none else (u.value (.slot world index)).bind Value.body

/-- `pone_opaque_free` releases the body of an opaque, and changes nothing else. -/
theorem opaqueFree_eq_some_iff {value : Value κ} : opaqueFree u value = some u' ↔
    (∀ body ∈ value.body, (u.bodies[body]?).join ≠ none) ∧
      u' = { u with bodies := value.body.elim u.bodies fun body => u.bodies.set body none } := by
  cases value with
  | opaqueRef body =>
      simp only [opaqueFree, Value.body, Option.ite_none_right_eq_some, Option.some.injEq,
        Option.mem_def, forall_eq', Option.isSome_iff_ne_none, Option.elim_some]
      exact and_congr_right fun _ => eq_comm
  | int | num | str | ary | map | code | obj | lex =>
      simp only [opaqueFree, Value.body, Option.some.injEq, Option.mem_def, reduceCtorEq,
        false_implies, implies_true, true_and, Option.elim_none]
      exact eq_comm

/-- What a round of the sweep does: the slot is free, or its mark is cleared, or its value is freed. -/
theorem sweepSlot_cases (swept : sweepSlot world u index = some u') :
    u.value (.slot world index) = none ∧ u' = u ∨
      u.value (.slot world index) ≠ none ∧ u.marked (.slot world index) = true ∧
        u' = { u with marked := Function.update u.marked (.slot world index) false } ∨
      ∃ bodies, u.value (.slot world index) ≠ none ∧ u.marked (.slot world index) = false ∧
        u' = valFree { u with bodies } world index := by
  simp only [sweepSlot] at swept
  split at swept
  case h_1 free => exact .inl ⟨free, (Option.some.inj swept).symm⟩
  case h_2 value found =>
    have allocated : u.value (.slot world index) ≠ none := by
      rw [found]
      exact Option.some_ne_none _
    split at swept
    case isTrue set => exact .inr (.inl ⟨allocated, set, (Option.some.inj swept).symm⟩)
    case isFalse unset =>
      obtain ⟨u₁, freed, same⟩ := Option.map_eq_some_iff.mp swept
      obtain rfl := (opaqueFree_eq_some_iff.mp freed).2
      exact .inr (.inr ⟨_, allocated, by simpa using unset, same.symm⟩)

theorem value_valFree {bodies : List (Option Body)} :
    (valFree { u with bodies } world index).value ref =
      if ref = .slot world index then none else u.value ref := by
  have freed : ({ u with bodies } : Universe κ).value ref = u.value ref := rfl
  rw [valFree, value_modifyWorld (by exact fun _ => rfl), value_setSlot_none, freed]

theorem sweepSlot_value (swept : sweepSlot world u index = some u') :
    u'.value ref = if ref = .slot world index ∧ u.marked ref = false then none else u.value ref := by
  obtain ⟨free, rfl⟩ | ⟨-, set, rfl⟩ | ⟨bodies, -, unset, rfl⟩ := sweepSlot_cases swept
  · split
    case isTrue here => rw [here.1, free]
    case isFalse => rfl
  · have kept : ¬ (ref = .slot world index ∧ u.marked ref = false) := by
      rintro ⟨rfl, unset⟩
      rw [set] at unset
      cases unset
    rw [if_neg kept]
    rfl
  · rw [value_valFree]
    by_cases here : ref = .slot world index
    · obtain rfl := here
      simp [unset]
    · simp [here]

theorem sweepSlot_marked (swept : sweepSlot world u index = some u')
    (other : ref ≠ .slot world index) : u'.marked ref = u.marked ref := by
  obtain ⟨-, rfl⟩ | ⟨-, -, rfl⟩ | ⟨bodies, -, -, rfl⟩ := sweepSlot_cases swept
  · rfl
  · exact Function.update_of_ne other _ _
  · rfl

theorem sweep_value {indices : List Nat} (nodup : indices.Nodup)
    (swept : indices.foldlM (sweepSlot world) u = some u') :
    u'.value ref =
      if (∃ index ∈ indices, ref = .slot world index) ∧ u.marked ref = false then none
      else u.value ref := by
  induction indices generalizing u with
  | nil =>
      cases swept
      simp
  | cons index indices ih =>
      obtain ⟨fresh, rest⟩ := List.nodup_cons.mp nodup
      obtain ⟨u₁, first, swept⟩ := Option.bind_eq_some_iff.mp swept
      rw [ih rest swept, sweepSlot_value first]
      by_cases here : ref = .slot world index
      · obtain rfl := here
        simp [fresh]
      · rw [sweepSlot_marked first here]
        simp [here]

/-- A round of the sweep succeeds unless the body that it releases has been released before. -/
theorem sweepSlot_ends_iff : (∃ u', sweepSlot world u index = some u') ↔
    ∀ body ∈ released u world index, (u.bodies[body]?).join ≠ none := by
  unfold sweepSlot released
  cases u.value (.slot world index) with
  | none => simp
  | some value =>
      cases u.marked (.slot world index) with
      | true => simp
      | false =>
          simp only [Bool.false_eq_true, if_false, Option.map_eq_some_iff, opaqueFree_eq_some_iff,
            Option.bind_some]
          constructor
          · rintro ⟨_, _, ⟨held, -⟩, -⟩
            exact held
          · intro held
            exact ⟨_, _, ⟨held, rfl⟩, rfl⟩

theorem sweepSlot_bodies (swept : sweepSlot world u index = some u') :
    u'.bodies = (released u world index).elim u.bodies fun body => u.bodies.set body none := by
  unfold sweepSlot at swept
  unfold released
  cases found : u.value (.slot world index) with
  | none =>
      rw [found] at swept
      obtain rfl := Option.some.inj swept
      simp
  | some value =>
      simp only [found] at swept
      cases set : u.marked (.slot world index) with
      | true =>
          rw [if_pos set] at swept
          obtain rfl := Option.some.inj swept
          rfl
      | false =>
          simp only [set, Bool.false_eq_true, if_false] at swept
          obtain ⟨u₁, freed, rfl⟩ := Option.map_eq_some_iff.mp swept
          obtain ⟨-, rfl⟩ := opaqueFree_eq_some_iff.mp freed
          rfl

theorem sweepSlot_released {other : Nat} (swept : sweepSlot world u index = some u')
    (elsewhere : other ≠ index) : released u' world other = released u world other := by
  have different : (Ref.slot world other) ≠ .slot world index :=
    fun same => elsewhere (Ref.slot.inj same).2
  have kept : u'.value (.slot world other) = u.value (.slot world other) := by
    rw [sweepSlot_value swept, if_neg fun here => different here.1]
  rw [released, released, sweepSlot_marked swept different, kept]

/-- The sweep succeeds exactly where it releases no body twice, and none that has been released. -/
theorem sweep_ends_iff {indices : List Nat} (nodup : indices.Nodup) :
    (∃ u', indices.foldlM (sweepSlot world) u = some u') ↔
      (indices.filterMap (released u world)).Nodup ∧
        ∀ body ∈ indices.filterMap (released u world), (u.bodies[body]?).join ≠ none := by
  induction indices generalizing u with
  | nil => simp
  | cons index indices ih =>
      obtain ⟨fresh, rest⟩ := List.nodup_cons.mp nodup
      have split : (∃ u', (index :: indices).foldlM (sweepSlot world) u = some u') ↔
          ∃ u₁, sweepSlot world u index = some u₁ ∧
            ∃ u', indices.foldlM (sweepSlot world) u₁ = some u' := by
        simp only [List.foldlM_cons, Option.bind_eq_bind, Option.bind_eq_some_iff]
        rw [exists_comm]
        simp only [exists_and_left]
      have later {u₁ : Universe κ} (first : sweepSlot world u index = some u₁) :
          indices.filterMap (released u₁ world) = indices.filterMap (released u world) :=
        List.filterMap_congr fun other among =>
          sweepSlot_released first fun here => fresh (here ▸ among)
      rw [split, List.filterMap_cons]
      cases here : released u world index with
      | none =>
          obtain ⟨u₁, first⟩ := sweepSlot_ends_iff.mpr (show ∀ body ∈ released u world index,
            (u.bodies[body]?).join ≠ none by simp [here])
          have bodies := sweepSlot_bodies first
          rw [here, Option.elim_none] at bodies
          simp only [first, Option.some.injEq, exists_eq_left', ih rest, later first, bodies]
      | some body =>
          rw [List.nodup_cons]
          constructor
          · rintro ⟨u₁, first, swept⟩
            have held := sweepSlot_ends_iff.mp ⟨u₁, first⟩ body here
            have bodies := sweepSlot_bodies first
            rw [here, Option.elim_some] at bodies
            rw [ih rest, later first, bodies] at swept
            obtain ⟨distinct, alive⟩ := swept
            have apart : body ∉ indices.filterMap (released u world) := by
              intro among
              refine alive body among ?_
              have inside : body < u.bodies.length := by
                by_contra beyond
                rw [List.getElem?_eq_none (Nat.le_of_not_lt beyond)] at held
                exact held rfl
              rw [List.getElem?_set_self inside]
              rfl
            refine ⟨⟨apart, distinct⟩, fun other among => ?_⟩
            rcases List.mem_cons.mp among with rfl | among
            · exact held
            · have alive' := alive other among
              rwa [List.getElem?_set_ne (ne_of_mem_of_not_mem among apart).symm] at alive'
          · rintro ⟨⟨apart, distinct⟩, alive⟩
            obtain ⟨u₁, first⟩ := sweepSlot_ends_iff.mpr fun other same => by
              rw [here] at same
              cases same
              exact alive body List.mem_cons_self
            have bodies := sweepSlot_bodies first
            rw [here, Option.elim_some] at bodies
            refine ⟨u₁, first, ?_⟩
            rw [ih rest, later first, bodies]
            refine ⟨distinct, fun other among => ?_⟩
            rw [List.getElem?_set_ne (ne_of_mem_of_not_mem among apart).symm]
            exact alive other (List.mem_cons_of_mem _ among)

/-! ## Marking and sweeping -/

theorem pending_slots (u : Universe κ) (marked : Ref → Bool) :
    Marking.pending u.slots marked < u.slots.length + 1 :=
  Nat.lt_succ_of_le (List.countP_le_length)

theorem gcMark_marked {marked : Universe κ} (executed : gcMark u world = some marked) :
    marked = { u with marked := marked.marked } ∧
      ∀ ref, marked.marked ref = true ↔ Traced u world ref := by
  simp only [gcMark] at executed
  split at executed
  · cases executed
  case h_2 w found =>
    split at executed
    · cases executed
    · obtain rfl := Option.some.inj executed
      refine ⟨rfl, fun ref => ?_⟩
      have roots : u.gcRoots world = u.markedRoots ++ w.markedRoots := by
        rw [Universe.gcRoots, found, Option.map_some, Option.getD_some]
      rw [Traced, roots, ← Marking.markAll_iff (fun _ => value_mem_slots) (pending_slots u u.marked),
        Marking.markAll, List.foldl_append]
      rfl

/-- A value in the arenas of a world is one that the sweep comes to. -/
theorem slot_lt (allocated : u.value (.slot world index) ≠ none) :
    index < ((u.worlds[world]?).map fun w => w.slots.length).getD 0 := by
  simp only [Universe.value] at allocated
  cases found : u.worlds[world]? with
  | none => simp [found] at allocated
  | some w =>
      rw [found, Option.bind_some] at allocated
      rw [Option.map_some, Option.getD_some]
      by_contra beyond
      rw [List.getElem?_eq_none (Nat.le_of_not_lt beyond)] at allocated
      exact allocated rfl

/-- The two phases of a collection. -/
theorem gcRun_eq_some_iff : gcRun u world = some u' ↔
    ∃ marked swept, gcMark u world = some marked ∧ gcCollect marked world = some swept ∧
      swept.modifyWorld world (fun w => { w with gcRequested := false }) = u' := by
  simp only [gcRun, Option.bind_eq_bind, Option.bind_eq_some_iff, Option.pure_def, Option.some.injEq]
  constructor
  · rintro ⟨marked, marking, swept, sweeping, same⟩
    exact ⟨marked, swept, marking, sweeping, same⟩
  · rintro ⟨marked, swept, marking, sweeping, same⟩
    exact ⟨marked, marking, swept, sweeping, same⟩

/-- Behind the mark phase, a collection ends where it releases no body twice. -/
theorem gcRun_ends_iff_released {marked : Universe κ} (marking : gcMark u world = some marked) :
    (∃ u', gcRun u world = some u') ↔
      ((List.range (((u.worlds[world]?).map fun w => w.slots.length).getD 0)).filterMap
        (released marked world)).Nodup ∧
      ∀ body ∈ (List.range (((u.worlds[world]?).map fun w => w.slots.length).getD 0)).filterMap
        (released marked world), (u.bodies[body]?).join ≠ none := by
  have ends : (∃ u', gcRun u world = some u') ↔ ∃ swept, gcCollect marked world = some swept := by
    simp only [gcRun, marking, Option.bind_eq_bind, Option.bind_some, Option.bind_eq_some_iff,
      Option.pure_def, Option.some.injEq]
    constructor
    · rintro ⟨-, swept, sweeping, -⟩
      exact ⟨swept, sweeping⟩
    · rintro ⟨swept, sweeping⟩
      exact ⟨_, swept, sweeping, rfl⟩
  have worlds : marked.worlds = u.worlds := by rw [(gcMark_marked marking).1]
  have bodies : marked.bodies = u.bodies := by rw [(gcMark_marked marking).1]
  rw [ends, gcCollect, sweep_ends_iff List.nodup_range, worlds, bodies]

/-- A collection that finds all values of its world ends. -/
theorem gcRun_ends_of_traced {marked : Universe κ} (marking : gcMark u world = some marked)
    (live : ∀ index, u.value (.slot world index) ≠ none → Traced u world (.slot world index)) :
    ∃ u', gcRun u world = some u' := by
  obtain ⟨same, traced⟩ := gcMark_marked marking
  have none_released (index : Nat) : released marked world index = none := by
    have contents : marked.value (.slot world index) = u.value (.slot world index) := by
      rw [same]
      rfl
    rw [released, contents]
    cases found : u.value (.slot world index) with
    | none => simp
    | some value =>
        rw [if_pos ((traced _).mpr (live index (by rw [found]; exact Option.some_ne_none _)))]
  rw [gcRun_ends_iff_released marking, List.filterMap_congr fun index _ => none_released index]
  simp

/-- What a collection frees. -/
theorem gcRun_freed (executed : gcRun u world = some u') :
    Freed u u' ref ↔
      (∃ index, ref = .slot world index) ∧ u.value ref ≠ none ∧ ¬ Traced u world ref := by
  obtain ⟨marked, swept, marking, sweeping, rfl⟩ := gcRun_eq_some_iff.mp executed
  obtain ⟨same, traced⟩ := gcMark_marked marking
  have contents (other : Ref) : marked.value other = u.value other := by
    rw [same]
    rfl
  have unset : marked.marked ref = false ↔ ¬ Traced u world ref := by
    rw [← traced ref, Bool.not_eq_true]
  rw [Freed, value_modifyWorld (by exact fun _ => rfl), sweep_value List.nodup_range sweeping, contents]
  constructor
  · rintro ⟨allocated, freed⟩
    split at freed
    case isTrue here =>
      obtain ⟨⟨index, -, own⟩, unmarked⟩ := here
      exact ⟨⟨index, own⟩, allocated, unset.mp unmarked⟩
    case isFalse => exact absurd freed allocated
  · rintro ⟨⟨index, rfl⟩, allocated, untraced⟩
    refine ⟨allocated, if_pos ⟨⟨index, List.mem_range.mpr ?_, rfl⟩, unset.mpr untraced⟩⟩
    exact slot_lt (by rwa [contents])

end Collect

end Heap
end Pone
