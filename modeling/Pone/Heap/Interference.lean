import Pone.Heap.Threads

/-!
# Threads that interfere

What one thread reaches and another one changes, or frees and allocates again, lets the first thread see
what the other one does.
-/

namespace Pone
namespace Heap
namespace Threads

variable {κ τ : Type} [DecidableEq τ] {worlds : τ → Nat} {s : Threads τ κ} {thread other : τ}

/-! ## Runs -/

theorem reads_append {front back : List (τ × Act κ)} {middle : Threads τ κ}
    (executed : Execution.run (step worlds) s front = some middle) :
    s.reads worlds thread (front ++ back) =
      s.reads worlds thread front ++ middle.reads worlds thread back := by
  induction front generalizing s with
  | nil =>
      cases executed
      rfl
  | cons label front ih =>
      obtain ⟨next, taken, rest⟩ := Execution.run_cons_iff.mp executed
      simp only [List.cons_append, reads, taken, ih rest]
      split <;> rfl

theorem reads_foreign {labels : List (τ × Act κ)} {final : Threads τ κ}
    (executed : Execution.run (step worlds) s labels = some final)
    (foreign : ∀ label ∈ labels, label.1 ≠ thread) : s.reads worlds thread labels = [] := by
  induction labels generalizing s with
  | nil => rfl
  | cons label labels ih =>
      obtain ⟨next, taken, rest⟩ := Execution.run_cons_iff.mp executed
      simp only [reads, taken]
      rw [if_neg (foreign label List.mem_cons_self),
        ih rest fun other member => foreign other (List.mem_cons_of_mem _ member)]

/-- A thread can get hold of all that it reaches. -/
theorem exists_reading (worlds : τ → Nat) {target : Ref}
    (reaches : Sharing.Reaches (sharing s.heap.classClass) s.heap.value (s.held thread) target) :
    ∃ (labels : List (τ × Act κ)) (final : Threads τ κ),
      Execution.run (step worlds) s labels = some final ∧ final.heap = s.heap ∧
        target ∈ final.held thread ∧ ∀ other, other ≠ thread → final.held other = s.held other := by
  obtain ⟨start, member, path⟩ := reaches
  induction path with
  | refl => exact ⟨[], s, rfl, rfl, member, fun _ _ => rfl⟩
  | @tail parent child _ points ih =>
      obtain ⟨labels, final, executed, heap, holds, others⟩ := ih
      obtain ⟨v, found, pointer⟩ := points
      let next : Threads τ κ :=
        { final with held := final.hold thread ((sharing final.heap.classClass).pointers v) }
      have taken : final.step worlds (thread, .read parent) = some next := by
        simp only [step, if_pos holds]
        rw [heap, found, ← heap]
        rfl
      refine ⟨labels ++ [(thread, .read parent)], next,
        Execution.run_append_iff.mpr ⟨final, executed, ?_⟩, heap, ?_, fun other different => ?_⟩
      · simp [Execution.run, taken]
      · simp only [next, hold, Function.update_self]
        exact List.mem_append_left _ (heap ▸ pointer)
      · simp only [next, hold]
        rw [Function.update_of_ne different, others other different]

/-- What the other threads do does not change what a thread reads. -/
theorem NonInterfering.same (quiet : s.NonInterfering worlds) {front labels : List (τ × Act κ)}
    {middle final : Threads τ κ} {target : Ref} {v v' : Value κ}
    (front_run : Execution.run (step worlds) s front = some middle)
    (executed : Execution.run (step worlds) middle labels = some final)
    (foreign : ∀ label ∈ labels, label.1 ≠ thread) (holds : target ∈ middle.held thread)
    (kept : final.held thread = middle.held thread) (found : middle.heap.value target = some v)
    (found' : final.heap.value target = some v') : v = v' := by
  have reading (at_end : Threads τ κ) {v : Value κ} (holds : target ∈ at_end.held thread)
      (found : at_end.heap.value target = some v) : ∃ last : Threads τ κ,
        at_end.step worlds (thread, .read target) = some last ∧
          at_end.reads worlds thread [(thread, .read target)] = [some v] := by
    refine ⟨_, by rw [step, if_pos holds, found]; rfl, ?_⟩
    simp only [reads, step, if_pos holds, found, Option.map_some, observed, if_true]
  obtain ⟨left_last, left_step, left_reads⟩ := reading middle holds found
  obtain ⟨right_last, right_step, right_reads⟩ := reading final (kept ▸ holds) found'
  have whole_run : Execution.run (step worlds) s (front ++ labels) = some final :=
    Execution.run_append_iff.mpr ⟨middle, front_run, executed⟩
  have same := quiet thread (front ++ [(thread, .read target)])
    (front ++ labels ++ [(thread, .read target)]) left_last right_last
    (by
      have none_own : labels.filter (fun label => label.1 = thread) = [] :=
        List.filter_eq_nil_iff.mpr fun label member => by simpa using foreign label member
      simp only [List.filter_append, none_own, List.append_nil])
    (Execution.run_append_iff.mpr ⟨middle, front_run, by simp [Execution.run, left_step]⟩)
    (Execution.run_append_iff.mpr ⟨final, whole_run, by simp [Execution.run, right_step]⟩)
  rw [reads_append front_run, reads_append whole_run, reads_append front_run,
    reads_foreign executed foreign, left_reads, right_reads, List.append_nil,
    List.append_right_inj] at same
  simpa using same

/-! ## Changes -/

/-- An integer in a slot that two threads reach lets one of them see what the other one does. -/
theorem not_reaches_of_nonInterfering (quiet : s.NonInterfering worlds) (different : other ≠ thread)
    {world index : Nat} {i : Int} (found : s.heap.value (.slot world index) = some (.int i))
    (reaches : Sharing.Reaches (sharing s.heap.classClass) s.heap.value (s.held thread)
      (.slot world index)) :
    ¬ Sharing.Reaches (sharing s.heap.classClass) s.heap.value (s.held other) (.slot world index) := by
  intro reaches_other
  obtain ⟨own_path, first, first_run, first_heap, holds, first_others⟩ :=
    exists_reading worlds reaches
  rw [← first_heap, ← first_others other different] at reaches_other
  obtain ⟨other_path, second, second_run, second_heap, other_holds, second_others⟩ :=
    exists_reading worlds reaches_other
  rw [← second_others thread different.symm] at holds
  rw [← first_heap, ← second_heap] at found
  have both_run : Execution.run (step worlds) s (own_path ++ other_path) = some second :=
    Execution.run_append_iff.mpr ⟨first, first_run, second_run⟩
  -- both hold the integer now: either it is read at once, or the other thread changes it before
  have stores : store second.heap (.slot world index) (.int (i + 1)) =
      some (second.heap.setSlot world index (some (.int (i + 1)))) :=
    store_eq_some_iff.mpr ⟨world, index, _, rfl, found, rfl⟩
  let third : Threads τ κ :=
    { second with heap := second.heap.setSlot world index (some (.int (i + 1))) }
  have found' : third.heap.value (.slot world index) = some (.int (i + 1)) := by
    rw [(store_replaces stores).value, Function.update_self]
  have writes : Execution.run (step worlds) second
      [(other, .write (.slot world index) (.int (i + 1)))] = some third := by
    refine Execution.run_cons_iff.mpr ⟨third, ?_, rfl⟩
    simp only [step, found, stores]
    rw [if_pos ⟨other_holds, List.nil_subset _, rfl, by simp [changeable, Value.type]⟩]
    rfl
  have same := quiet.same both_run writes
    (fun label member => List.mem_singleton.mp member ▸ different) holds rfl found found'
  simp only [Value.int.injEq] at same
  omega

/-! ## Collections -/

/-- The other thread allocates an integer. -/
theorem exists_alloc (wellFormed : s.heap.WellFormed) {arenas : List Nat × Nat}
    (allocator : s.heap.allocator (worlds other) = some arenas) (i : Int) :
    ∃ next : Threads τ κ, s.step worlds (other, .alloc (.int i)) = some next ∧
      next.heap.WellFormed ∧ next.heap.allocator (worlds other) = some (nextArenas arenas) ∧
      next.heap.value (.slot (worlds other) (nextSlot arenas)) = some (.int i) ∧
      ∀ thread, thread ≠ other → next.held thread = s.held thread := by
  have set : (objAlloc s.heap (worlds other) (.int i)).isSome :=
    objAlloc_isSome (by rw [allocator]; rfl)
  obtain ⟨⟨u, ref⟩, alloc⟩ := Option.isSome_iff_exists.mp set
  obtain ⟨before, first, rfl, last, -⟩ := objAlloc_allocator alloc
  obtain rfl := Option.some.inj (allocator.symm.trans first)
  obtain ⟨-, -, replaces⟩ := objAlloc_replaces wellFormed alloc
  refine ⟨⟨u, s.hold other [.slot (worlds other) (nextSlot arenas)]⟩, ?_,
    replaces.wellFormed wellFormed, last, ?_, fun thread different => ?_⟩
  · rw [step, if_pos (show (Value.int i).children ⊆ s.held other from List.nil_subset _), alloc]
    rfl
  · rw [replaces.value, Function.update_self]
  · exact Function.update_of_ne different _ _

/-- Allocations fill the slots of the freelist, one after another. -/
theorem exists_filling {index count : Nat} {front rest : List Nat} (wellFormed : s.heap.WellFormed)
    (allocator : s.heap.allocator (worlds other) = some (front ++ index :: rest, count)) (i : Int) :
    ∃ (labels : List (τ × Act κ)) (final : Threads τ κ),
      Execution.run (step worlds) s labels = some final ∧ (∀ label ∈ labels, label.1 = other) ∧
        final.heap.value (.slot (worlds other) index) = some (.int i) ∧
        ∀ thread, thread ≠ other → final.held thread = s.held thread := by
  induction front generalizing s with
  | nil =>
      obtain ⟨next, taken, -, -, found, held⟩ := exists_alloc wellFormed allocator i
      exact ⟨[(other, .alloc (.int i))], next, by simp [Execution.run, taken],
        fun label member => List.mem_singleton.mp member ▸ rfl, found, held⟩
  | cons first front ih =>
      obtain ⟨next, taken, wellFormed', allocator', -, held⟩ := exists_alloc wellFormed allocator i
      obtain ⟨labels, final, executed, own, found, held'⟩ := ih wellFormed' allocator'
      refine ⟨(other, .alloc (.int i)) :: labels, final,
        Execution.run_cons_iff.mpr ⟨next, taken, executed⟩, fun label member => ?_, found,
        fun thread different => (held' thread different).trans (held thread different)⟩
      rcases List.mem_cons.mp member with rfl | member
      · rfl
      · exact own label member

/-- A slot in the arenas of another thread, too, which that thread can drop, free and fill again. -/
theorem not_reaches_collectable (quiet : s.NonInterfering worlds) (wellFormed : s.heap.WellFormed)
    (different : other ≠ thread) {target : Ref}
    (collectable : Collectable s.heap (worlds other) target) :
    ¬ Sharing.Reaches (sharing s.heap.classClass) s.heap.value (s.held thread) target := by
  intro reaches
  obtain ⟨path, first, first_run, heap, holds, -⟩ := exists_reading worlds reaches
  rw [← heap] at collectable wellFormed
  obtain ⟨index, v, rfl, found, different_kind⟩ := collectable
  let dropped : Threads τ κ := { first with held := Function.update first.held other [] }
  let swept : Threads τ κ :=
    { dropped with heap := sweep dropped.heap (worlds other) (dropped.dead other (worlds other) []) }
  have frees : Frees first.heap swept.heap (worlds other) (dropped.dead other (worlds other) []) :=
    sweep_dead dropped other (worlds other) []
  have member : index ∈ dropped.dead other (worlds other) [] := by
    refine mem_dead_iff.mpr ⟨⟨index, v, rfl, found, different_kind⟩, ?_, List.not_mem_nil⟩
    rintro ⟨start, held, -⟩
    simp [dropped] at held
  obtain ⟨front, rest, split⟩ := List.append_of_mem (List.mem_reverse.mpr member)
  obtain ⟨w, world_found, -⟩ := slot_of_value found
  have allocator : swept.heap.allocator (worlds other) =
      some (front ++ index :: (rest ++ w.freelist), w.slots.length) := by
    rw [frees.allocator, Universe.allocator, world_found, split]
    simp
  obtain ⟨i, fresh⟩ : ∃ i : Int, v ≠ .int i := by
    cases v with
    | int i => exact ⟨i + 1, fun same => absurd (Value.int.inj same) (by omega)⟩
    | num | str | ary | map | code | obj | lex | opaqueRef => exact ⟨0, by simp⟩
  obtain ⟨filling, final, filled, own, found', kept⟩ :=
    exists_filling (frees.wellFormed wellFormed) allocator i
  have executed : Execution.run (step worlds) first
      ((other, .keep []) :: (other, .collect []) :: filling) = some final := by
    refine Execution.run_cons_iff.mpr ⟨dropped, ?_, Execution.run_cons_iff.mpr ⟨swept, rfl, filled⟩⟩
    rw [step, if_pos (List.nil_subset _)]
  refine fresh (quiet.same first_run executed (fun label among => ?_) holds ?_ found found')
  · rcases List.mem_cons.mp among with rfl | among
    · exact different
    · rcases List.mem_cons.mp among with rfl | among
      · exact different
      · exact own label among ▸ different
  · exact (kept thread different.symm).trans (Function.update_of_ne different.symm _ _)

end Threads
end Heap
end Pone
