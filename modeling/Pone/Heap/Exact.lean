import Pone.Heap.Marks

/-!
# Exactness of a collection

Where all that the marked roots lead to is in the arenas of the collected world, a collection frees
exactly the values that they do not lead to, and puts them in front of the freelist.  It ends unless it
releases the body of an opaque twice.
-/

namespace Pone
namespace Heap

section Exact

variable {κ : Type} {u u' : Universe κ} {world index : Nat} {ref : Ref}

/-- The marked roots lead to the value. -/
def GcReached (u : Universe κ) (world : Nat) (ref : Ref) : Prop :=
  ∃ root ∈ u.gcRoots world,
    Relation.ReflTransGen (fun parent child => child ∈ u.children parent) root ref

/-- The marked roots are values, and lead to values in the own arenas and to static values. -/
structure SelfContained (u : Universe κ) (world : Nat) : Prop where
  roots : ∀ w, u.worlds[world]? = some w → none ∉ w.errHandlerLexs.dropLast
  own : ∀ other index, GcReached u world (.slot other index) →
    other = world ∧ u.value (.slot other index) ≠ none

/-- The opaques that the marked roots do not lead to have bodies that have not been released, each its
own. -/
structure OwnBodies (u : Universe κ) (world : Nat) : Prop where
  held : ∀ index body, u.value (.slot world index) = some (.opaqueRef body) →
    ¬ GcReached u world (.slot world index) → (u.bodies[body]?).join ≠ none
  own : ∀ i j body, u.value (.slot world i) = some (.opaqueRef body) →
    ¬ GcReached u world (.slot world i) → u.value (.slot world j) = some (.opaqueRef body) →
    ¬ GcReached u world (.slot world j) → i = j

/-- `pone_gc_mark_value` on a list of values in turn, with a bound on the depth of its recursion. -/
def gcMarkValuesWithin (depth : Nat) (u : Universe κ) (values : List Ref) : Option (Universe κ) :=
  (Marking.markAllWithin u.children depth u.marked values).map fun marked =>
    { u with marked := marked }

/-- `pone_gc_run`, with a bound on the depth of the recursion of `pone_gc_mark_value`. -/
def gcRunWithin (depth : Nat) (u : Universe κ) (world : Nat) : Option (Universe κ) := do
  let w ← u.worlds[world]?
  if none ∈ w.errHandlerLexs.dropLast then none
  else
    let u ← gcMarkValuesWithin depth u u.markedRoots
    let u ← gcMarkValuesWithin depth u w.markedRoots
    let u ← gcCollect u world
    return u.modifyWorld world fun w => { w with gcRequested := false }

theorem gcMarkValuesWithin_eq {depth : Nat} {values : List Ref} (enough : u.slots.length < depth) :
    gcMarkValuesWithin depth u values = some (gcMarkValues u values) := by
  have pending : Marking.pending u.slots u.marked < depth :=
    Nat.lt_of_le_of_lt List.countP_le_length enough
  have finite : ∀ node, u.children node ≠ [] → node ∈ u.slots := fun _ => value_mem_slots
  rw [gcMarkValuesWithin, Marking.markAllWithin_eq finite pending, Option.map_some,
    Marking.markAll_eq finite pending (pending_slots u u.marked)]
  rfl

/-- The recursion is not deeper than there are slots. -/
theorem gcRunWithin_eq {depth : Nat} (enough : u.slots.length < depth) :
    gcRunWithin depth u world = gcRun u world := by
  simp only [gcRunWithin, gcRun, gcMark, Option.bind_eq_bind]
  cases u.worlds[world]? with
  | none => rfl
  | some w =>
      have same : (gcMarkValues u u.markedRoots).slots.length < depth := enough
      by_cases unset : none ∈ w.errHandlerLexs.dropLast
      · simp only [Option.bind_some, if_pos unset, Option.bind_none]
      · simp only [Option.bind_some, if_neg unset, gcMarkValuesWithin_eq enough,
          gcMarkValuesWithin_eq same]

/-! ## The freelist -/

/-- The sweep frees the value at an index. -/
def frees (u : Universe κ) (world index : Nat) : Bool :=
  (u.value (.slot world index)).isSome && !u.marked (.slot world index)

def Universe.freelist (u : Universe κ) (world : Nat) : Option (List Nat) :=
  (u.worlds[world]?).map World.freelist

theorem sweepSlot_freelist (swept : sweepSlot world u index = some u') : u'.freelist world =
    (u.freelist world).map fun free => if frees u world index then index :: free else free := by
  obtain ⟨free, rfl⟩ | ⟨-, set, rfl⟩ | ⟨bodies, allocated, unset, rfl⟩ := sweepSlot_cases swept
  · simp [frees, free]
  · simp only [frees, set, Bool.not_true, Bool.and_false, Bool.false_eq_true, if_false, Option.map_id']
    rfl
  · have freed : frees u world index = true := by
      rw [frees, Option.isSome_iff_ne_none.mpr allocated, unset]
      rfl
    simp only [freed, if_true, Universe.freelist, valFree, Universe.setSlot, getElem?_modifyWorld]
    cases u.worlds[world]? <;> rfl

theorem sweepSlot_frees {other : Nat} (swept : sweepSlot world u index = some u')
    (elsewhere : other ≠ index) : frees u' world other = frees u world other := by
  have different : (Ref.slot world other : Ref) ≠ .slot world index :=
    fun same => elsewhere (Ref.slot.inj same).2
  rw [frees, frees, sweepSlot_value swept, sweepSlot_marked swept different,
    if_neg fun here => different here.1]

/-- The sweep puts the values that it frees in front of the freelist, the last one first. -/
theorem sweep_freelist {indices : List Nat} (nodup : indices.Nodup)
    (swept : indices.foldlM (sweepSlot world) u = some u') :
    u'.freelist world =
      (u.freelist world).map fun free => (indices.filter (frees u world)).reverse ++ free := by
  induction indices generalizing u with
  | nil =>
      cases swept
      simp
  | cons index indices ih =>
      obtain ⟨fresh, rest⟩ := List.nodup_cons.mp nodup
      obtain ⟨u₁, first, swept⟩ := Option.bind_eq_some_iff.mp swept
      have same : indices.filter (frees u₁ world) = indices.filter (frees u world) :=
        List.filter_congr fun other member => sweepSlot_frees first fun here => fresh (here ▸ member)
      rw [ih rest swept, sweepSlot_freelist first, same, Option.map_map]
      congr 1
      funext free
      by_cases freed : frees u world index = true
      · simp [freed]
      · simp [freed]

/-! ## Exactness -/

/-- A collection frees values and changes none. -/
theorem gcRun_value (executed : gcRun u world = some u') :
    u'.value ref = none ∨ u'.value ref = u.value ref := by
  obtain ⟨marked, swept, marking, sweeping, rfl⟩ := gcRun_eq_some_iff.mp executed
  have contents : marked.value ref = u.value ref := by
    rw [(gcMark_marked marking).1]
    rfl
  rw [value_modifyWorld (by exact fun _ => rfl), sweep_value List.nodup_range sweeping, contents]
  split
  · exact .inl rfl
  · exact .inr rfl

/-- The traced values of a world whose heap is self-contained. -/
theorem traced_iff (clean : Clean u) (allocated : u.value (.slot world index) ≠ none) :
    Traced u world (.slot world index) ↔ GcReached u world (.slot world index) :=
  clean_traced clean ⟨world, index, rfl⟩ allocated

theorem SelfContained.tracesOwn (contained : SelfContained u world) (clean : Clean u) :
    TracesOwn u world := by
  intro other index elsewhere allocated traced
  rw [clean_traced clean ⟨other, index, rfl⟩ allocated] at traced
  exact elsewhere (contained.own other index traced).1

/-- The bodies that the sweep releases are those of the opaques that the marked roots do not lead to. -/
theorem released_iff (clean : Clean u) {marked : Universe κ} (marking : gcMark u world = some marked)
    {index body : Nat} : released marked world index = some body ↔
      u.value (.slot world index) = some (.opaqueRef body) ∧
        ¬ GcReached u world (.slot world index) := by
  obtain ⟨same, traced⟩ := gcMark_marked marking
  have contents : marked.value (.slot world index) = u.value (.slot world index) := by
    rw [same]
    rfl
  have opaque_iff : (u.value (.slot world index)).bind Value.body = some body ↔
      u.value (.slot world index) = some (.opaqueRef body) := by
    cases u.value (.slot world index) with
    | none => simp
    | some value => cases value <;> simp [Value.body]
  rw [released, contents, Option.ite_none_left_eq_some, traced, opaque_iff, and_comm]
  refine and_congr_right fun found => ?_
  rw [traced_iff clean (by rw [found]; exact Option.some_ne_none _)]

/-- A collection of a self-contained world ends exactly where it releases no body twice. -/
theorem gcRun_ends_iff {w : World κ} (found : u.worlds[world]? = some w) (clean : Clean u)
    (contained : SelfContained u world) : (∃ u', gcRun u world = some u') ↔ OwnBodies u world := by
  obtain ⟨marked, marking⟩ : ∃ marked, gcMark u world = some marked := by
    simp only [gcMark, found, if_neg (contained.roots w found)]
    exact ⟨_, rfl⟩
  have inside {index body : Nat} (value : u.value (.slot world index) = some (.opaqueRef body)) :
      index ∈ List.range (((u.worlds[world]?).map fun w => w.slots.length).getD 0) :=
    List.mem_range.mpr (slot_lt (by rw [value]; exact Option.some_ne_none _))
  rw [gcRun_ends_iff_released marking]
  constructor
  · rintro ⟨distinct, alive⟩
    refine ⟨fun index body value dead => alive body ?_, fun i j body value dead value' dead' => ?_⟩
    · exact List.mem_filterMap.mpr ⟨index, inside value, (released_iff clean marking).mpr ⟨value, dead⟩⟩
    · by_contra different
      rw [List.Nodup, List.pairwise_filterMap] at distinct
      have : Std.Symm fun i j => ∀ b, released marked world i = some b →
          ∀ b', released marked world j = some b' → b ≠ b' :=
        ⟨fun i j apart b' at_j b at_i => (apart b at_i b' at_j).symm⟩
      exact distinct.forall (inside value) (inside value') different
        body ((released_iff clean marking).mpr ⟨value, dead⟩)
        body ((released_iff clean marking).mpr ⟨value', dead'⟩) rfl
  · rintro ⟨held, own⟩
    refine ⟨?_, fun body among => ?_⟩
    · rw [List.Nodup, List.pairwise_filterMap]
      refine List.nodup_range.imp fun {i j} different body at_i body' at_j same => different ?_
      obtain ⟨value, dead⟩ := (released_iff clean marking).mp at_i
      obtain ⟨value', dead'⟩ := (released_iff clean marking).mp at_j
      exact own i j body value dead (same ▸ value') dead'
    · obtain ⟨index, -, at_index⟩ := List.mem_filterMap.mp among
      obtain ⟨value, dead⟩ := (released_iff clean marking).mp at_index
      exact held index body value dead

/-- A list that contains the marked roots, and the children of its members, contains all that the roots
lead to. -/
theorem GcReached.mem_of_closed (closed : List Ref) (roots : ∀ root ∈ u.gcRoots world, root ∈ closed)
    (step : ∀ parent ∈ closed, ∀ child ∈ u.children parent, child ∈ closed)
    (reached : GcReached u world ref) : ref ∈ closed := by
  obtain ⟨root, held, path⟩ := reached
  induction path with
  | refl => exact roots root held
  | tail _ edge ih => exact step _ ih _ edge

end Exact

/-! ## A world with a cycle of garbage -/

/-- Two arrays that contain each other, and an opaque, in a scope that is left. -/
def cyclicGarbage : List (Op Nat) :=
  [.worldNew, .pushScope 0, .alloc 0 (.ary []), .alloc 0 (.ary [.slot 0 3]),
    .store (.slot 0 3) (.ary [.slot 0 4]), .bodyNew .nil, .alloc 0 (.opaqueRef 0), .popScope 0]

def withGarbage : Universe Nat := (Execution.run step universeInit cyclicGarbage).getD universeInit

set_option maxRecDepth 10000 in
theorem withGarbage_spec : (Execution.run step universeInit cyclicGarbage).isSome = true ∧
    withGarbage.bodies = [some { klass := .nil, refcnt := 1 }] ∧
    (withGarbage.worlds[0]?).map (fun w => w.errHandlerLexs.dropLast) = some [] ∧
    (∀ root ∈ withGarbage.gcRoots 0, root ∈ [.nil, .slot 0 0, .slot 0 1, .slot 0 2]) ∧
    ∀ parent ∈ [.nil, .slot 0 0, .slot 0 1, .slot 0 2],
      ∀ child ∈ withGarbage.children parent, child ∈ [.nil, .slot 0 0, .slot 0 1, .slot 0 2] := by
  decide +kernel

theorem clean_withGarbage : Clean withGarbage := by
  have never : Execution.Along step (fun _ op => ∀ u : Universe Nat, collection u op = none)
      universeInit cyclicGarbage :=
    Execution.along_of_forall_mem fun op member u => by
      simp only [cyclicGarbage, List.mem_cons, List.not_mem_nil, or_false] at member
      rcases member with rfl | rfl | rfl | rfl | rfl | rfl | rfl | rfl <;> rfl
  have preserved {u u' : Universe Nat} {op : Op Nat} (before : u.WellFormed ∧ Clean u)
      (uncollected : ∀ u : Universe Nat, collection u op = none) (taken : step u op = some u') :
      u'.WellFormed ∧ Clean u' := by
    refine ⟨wellFormed_step before.1 taken, (clean_step before.1 before.2 taken).mpr ?_⟩
    intro _ _ collected
    rw [uncollected] at collected
    cases collected
  have initial : (universeInit : Universe Nat).WellFormed ∧ Clean (universeInit : Universe Nat) :=
    ⟨fun world w found => by simp [universeInit] at found, fun ref dirty => by cases dirty.2.2⟩
  exact (Execution.invariant_run _ preserved initial never (eq_some_getD withGarbage_spec.1 _)).2

set_option maxRecDepth 10000 in
theorem withGarbage_slots : (withGarbage.worlds[0]?).map World.slots =
    some [some (.lex none ∅), some (.ary []), some (.lex (some (.slot 0 0)) ∅),
      some (.ary [.slot 0 4]), some (.ary [.slot 0 3]), some (.opaqueRef 0)] := rfl

theorem withGarbage_value {index : Nat} : withGarbage.value (.slot 0 index) =
    ([some (.lex none ∅), some (.ary []), some (.lex (some (.slot 0 0)) ∅), some (.ary [.slot 0 4]),
      some (.ary [.slot 0 3]), some (.opaqueRef 0)] : List (Option (Value Nat)))[index]?.join := by
  obtain ⟨w, found, slots⟩ := Option.map_eq_some_iff.mp withGarbage_slots
  rw [Universe.value, found, Option.bind_some, slots]

theorem selfContained_withGarbage : SelfContained withGarbage 0 := by
  obtain ⟨-, -, handlers, roots, closed⟩ := withGarbage_spec
  refine ⟨fun w found => ?_, fun other index reached => ?_⟩
  · rw [found, Option.map_some, Option.some.injEq] at handlers
    simp [handlers]
  · have inside := reached.mem_of_closed _ roots closed
    simp only [List.mem_cons, reduceCtorEq, false_or, List.not_mem_nil, or_false,
      Ref.slot.injEq] at inside
    rcases inside with ⟨rfl, rfl⟩ | ⟨rfl, rfl⟩ | ⟨rfl, rfl⟩ <;> simp [withGarbage_value]

theorem ownBodies_withGarbage : OwnBodies withGarbage 0 := by
  have at_five {index body : Nat} (value : withGarbage.value (.slot 0 index) = some (.opaqueRef body)) :
      index = 5 ∧ body = 0 := by
    rw [withGarbage_value] at value
    rcases index with _ | _ | _ | _ | _ | _ | index <;> simp at value
    exact ⟨rfl, value.symm⟩
  refine ⟨fun index body value _ => ?_, fun i j body value _ value' _ => ?_⟩
  · rw [(at_five value).2, withGarbage_spec.2.1]
    exact Option.some_ne_none _
  · rw [(at_five value).1, (at_five value').1]

/-- Two opaques of one body, as a channel and the copy of it that was received, die together. -/
example : (Execution.run step (universeInit : Universe Nat) [.worldNew, .pushScope 0, .bodyNew .nil,
    .alloc 0 (.opaqueRef 0), .alloc 0 (.opaqueRef 0), .popScope 0, .gcRun 0]).isNone = true := by
  decide +kernel

end Heap
end Pone
