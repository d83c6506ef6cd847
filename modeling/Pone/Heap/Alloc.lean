import Pone.Heap.Api
import Pone.Heap.Collect

/-!
# What allocations and stores change

The freelist of a world holds free slots, each once.  So an allocation takes a slot that holds no value
and changes no other, and which slot it takes depends on nothing but the arenas of its world.
-/

namespace Pone
namespace Heap

section Alloc

variable {κ : Type} {u u' : Universe κ} {world other index : Nat} {ref : Ref} {v : Value κ}

def World.WellFormed (w : World κ) : Prop :=
  w.freelist.Nodup ∧ ∀ index ∈ w.freelist, w.slots[index]? = some none

def Universe.WellFormed (u : Universe κ) : Prop :=
  ∀ (world : Nat) (w : World κ), u.worlds[world]? = some w → w.WellFormed

/-- The part of a world that decides which slot an allocation takes. -/
def Universe.allocator (u : Universe κ) (world : Nat) : Option (List Nat × Nat) :=
  (u.worlds[world]?).map fun w => (w.freelist, w.slots.length)

/-- One value gets a new content, and nothing else changes that contents or allocations depend on. -/
structure Replaces (u u' : Universe κ) (ref : Ref) (v : Value κ) : Prop where
  value : u'.value = Function.update u.value ref (some v)
  classClass : u'.classClass = u.classClass
  wellFormed : u.WellFormed → u'.WellFormed

/-! ## Worlds -/

theorem getElem?_modifyWorld {change : World κ → World κ} :
    (u.modifyWorld world change).worlds[other]? =
      if world = other then (u.worlds[other]?).map change else u.worlds[other]? := by
  simp only [Universe.modifyWorld, List.getElem?_modify]
  split <;> simp_all

theorem wellFormed_modifyWorld {change : World κ → World κ} (wellFormed : u.WellFormed)
    (keeps : ∀ w, u.worlds[world]? = some w → w.WellFormed → (change w).WellFormed) :
    (u.modifyWorld world change).WellFormed := by
  intro position w found
  rw [getElem?_modifyWorld] at found
  by_cases here : world = position
  · obtain rfl := here
    rw [if_pos rfl] at found
    obtain ⟨before, found_before, rfl⟩ := Option.map_eq_some_iff.mp found
    exact keeps before found_before (wellFormed _ before found_before)
  · rw [if_neg here] at found
    exact wellFormed _ w found

theorem allocator_modifyWorld {change : World κ → World κ}
    (arenas : ∀ w, (change w).freelist = w.freelist ∧ (change w).slots.length = w.slots.length) :
    (u.modifyWorld world change).allocator other = u.allocator other := by
  simp only [Universe.allocator]
  rw [getElem?_modifyWorld]
  split
  · cases u.worlds[other]? with
    | none => rfl
    | some w => simp [arenas]
  · rfl

theorem value_setSlot (bound : (u.worlds[world]?).elim False fun w => index < w.slots.length) :
    (u.setSlot world index (some v)).value =
      Function.update u.value (.slot world index) (some v) := by
  funext ref
  cases ref with
  | nil | bool | constInt => simp [Universe.value]
  | slot place position =>
      simp only [Universe.value, Universe.setSlot, getElem?_modifyWorld]
      by_cases here : world = place
      · obtain rfl := here
        cases found : u.worlds[world]? with
        | none => simp [found] at bound
        | some w =>
            simp only [found, Option.elim_some] at bound
            by_cases there : index = position
            · obtain rfl := there
              simp [bound]
            · simp [List.getElem?_set_ne there, Ne.symm there, Universe.value, found]
      · simp [here, Ne.symm here, Universe.value]

/-- A slot that holds a value is none of the free ones. -/
theorem wellFormed_set {w : World κ} (wellFormed : w.WellFormed)
    (taken : w.slots[index]? ≠ some none) :
    World.WellFormed { w with slots := w.slots.set index (some v) } := by
  refine ⟨wellFormed.1, fun free member => ?_⟩
  have elsewhere : index ≠ free := fun same => taken (same ▸ wellFormed.2 free member)
  exact (List.getElem?_set_ne elsewhere).trans (wellFormed.2 free member)

/-! ## Stores and allocations -/

theorem store_eq_some_iff : store u ref v = some u' ↔
    ∃ (world index : Nat) (before : Value κ), ref = .slot world index ∧
      u.value (.slot world index) = some before ∧ u' = u.setSlot world index (some v) := by
  constructor
  · intro executed
    simp only [store] at executed
    split at executed
    case h_1 world index before found => exact ⟨world, index, before, rfl, found, by cases executed; rfl⟩
    case h_2 => cases executed
  · rintro ⟨world, index, before, rfl, found, rfl⟩
    simp only [store, found]

theorem slot_of_value {before : Value κ} (found : u.value (.slot world index) = some before) :
    ∃ w : World κ, u.worlds[world]? = some w ∧ w.slots[index]? = some (some before) := by
  simp only [Universe.value, Option.bind_eq_some_iff, Option.join_eq_some_iff] at found
  exact found

theorem store_replaces (executed : store u ref v = some u') : Replaces u u' ref v := by
  obtain ⟨world, index, before, rfl, found, rfl⟩ := store_eq_some_iff.mp executed
  obtain ⟨w, world_found, slot_found⟩ := slot_of_value found
  constructor
  · refine value_setSlot ?_
    rw [world_found, Option.elim_some]
    by_contra beyond
    rw [List.getElem?_eq_none (Nat.le_of_not_lt beyond)] at slot_found
    cases slot_found
  · rfl
  · intro wellFormed
    refine wellFormed_modifyWorld wellFormed fun other same holds => wellFormed_set holds ?_
    obtain rfl := Option.some.inj (world_found.symm.trans same)
    simp [slot_found]

theorem store_allocator (executed : store u ref v = some u') :
    u'.allocator other = u.allocator other := by
  obtain ⟨world, index, before, rfl, found, rfl⟩ := store_eq_some_iff.mp executed
  exact allocator_modifyWorld fun w => ⟨rfl, by simp⟩

theorem saveTmp_replaces (replaces : Replaces u u' ref v) (tmp : Ref) :
    Replaces u (saveTmp u' world tmp) ref v := by
  refine ⟨?_, replaces.classClass, fun wellFormed => ?_⟩
  · rw [← replaces.value]
    exact funext fun _ => value_modifyWorld (by exact fun _ => rfl)
  · exact wellFormed_modifyWorld (replaces.wellFormed wellFormed) fun _ _ holds => holds

theorem saveTmp_allocator (tmp : Ref) : (saveTmp u world tmp).allocator other = u.allocator other :=
  allocator_modifyWorld fun _ => ⟨rfl, rfl⟩

/-- The slot that an allocation takes. -/
def nextSlot : List Nat × Nat → Nat
  | (index :: _, _) => index
  | ([], count) => count

/-- The arenas after an allocation. -/
def nextArenas : List Nat × Nat → List Nat × Nat
  | (_ :: rest, count) => (rest, count)
  | ([], count) => ([], count + 1)

/-- An allocation from the freelist. -/
private theorem reuse_replaces {w : World κ} {rest : List Nat} {marked : Ref → Bool}
    (wellFormed : u.WellFormed) (found : u.worlds[world]? = some w)
    (freelist : w.freelist = index :: rest) :
    u.value (.slot world index) = none ∧
      Replaces u ((Universe.setSlot { u with marked := marked } world index (some v)).modifyWorld
        world fun w => { w with freelist := rest }) (.slot world index) v := by
  have holds := wellFormed world w found
  rw [World.WellFormed, freelist] at holds
  have free : w.slots[index]? = some none := holds.2 index List.mem_cons_self
  have bound : index < w.slots.length := by
    by_contra beyond
    rw [List.getElem?_eq_none (Nat.le_of_not_lt beyond)] at free
    cases free
  refine ⟨by simp [Universe.value, found, free], ⟨?_, rfl, fun _ => ?_⟩⟩
  · funext other
    rw [value_modifyWorld (by exact fun _ => rfl), value_setSlot (by simpa [found] using bound)]
    rfl
  · rw [Universe.setSlot, Universe.modifyWorld, Universe.modifyWorld, List.modify_modify_eq]
    refine wellFormed_modifyWorld (u := { u with marked := marked }) wellFormed fun other same _ => ?_
    obtain rfl := Option.some.inj (found.symm.trans same)
    obtain ⟨fresh, nodup⟩ := List.nodup_cons.mp holds.1
    refine ⟨nodup, fun position member => ?_⟩
    have elsewhere : index ≠ position := fun same => fresh (same ▸ member)
    exact (List.getElem?_set_ne elsewhere).trans (holds.2 position (List.mem_cons_of_mem _ member))

/-- An allocation from the last arena. -/
private theorem extend_replaces {w : World κ} {marked : Ref → Bool} {requested : World κ → Bool}
    (found : u.worlds[world]? = some w) (freelist : w.freelist = []) :
    u.value (.slot world w.slots.length) = none ∧
      Replaces u (Universe.modifyWorld { u with marked := marked } world fun w =>
        { w with slots := w.slots ++ [some v], gcRequested := requested w })
        (.slot world w.slots.length) v := by
  refine ⟨by simp [Universe.value, found], ⟨?_, rfl, fun wellFormed => ?_⟩⟩
  · funext other
    cases other with
    | nil | bool | constInt => simp [Universe.value]
    | slot place position =>
        simp only [Universe.value, getElem?_modifyWorld]
        by_cases here : world = place
        · obtain rfl := here
          by_cases there : position = w.slots.length
          · obtain rfl := there
            simp [found]
          · rw [Function.update_of_ne (by simpa using there)]
            simp only [if_true, found, Option.map_some, Option.bind_some, Universe.value]
            rcases Nat.lt_or_gt_of_ne there with inside | beyond
            · rw [List.getElem?_append_left inside]
            · rw [List.getElem?_eq_none (by simp; omega), List.getElem?_eq_none (by omega)]
        · simp [here, Ne.symm here, Universe.value]
  · refine wellFormed_modifyWorld (u := { u with marked := marked }) wellFormed fun other same holds => ?_
    obtain rfl := Option.some.inj (found.symm.trans same)
    simp [World.WellFormed, freelist]

theorem objAlloc_replaces (wellFormed : u.WellFormed)
    (executed : objAlloc u world v = some (u', ref)) :
    (∃ index, ref = .slot world index) ∧ u.value ref = none ∧ Replaces u u' ref v := by
  simp only [objAlloc] at executed
  split at executed
  · cases executed
  case h_2 w found =>
    split at executed
    case h_1 index rest freelist =>
      obtain ⟨rfl, rfl⟩ := Prod.mk.inj (Option.some.inj executed)
      obtain ⟨free, replaces⟩ := reuse_replaces (v := v) wellFormed found freelist
      exact ⟨⟨index, rfl⟩, free, saveTmp_replaces replaces _⟩
    case h_2 freelist =>
      obtain ⟨rfl, rfl⟩ := Prod.mk.inj (Option.some.inj executed)
      obtain ⟨free, replaces⟩ := extend_replaces (v := v) found freelist
      exact ⟨⟨_, rfl⟩, free, saveTmp_replaces replaces _⟩

theorem objAlloc_allocator (executed : objAlloc u world v = some (u', ref)) :
    ∃ arenas, u.allocator world = some arenas ∧ ref = .slot world (nextSlot arenas) ∧
      u'.allocator world = some (nextArenas arenas) ∧
      ∀ other, other ≠ world → u'.allocator other = u.allocator other := by
  simp only [objAlloc] at executed
  split at executed
  · cases executed
  case h_2 w found =>
    refine ⟨(w.freelist, w.slots.length), by simp [Universe.allocator, found], ?_⟩
    split at executed
    case h_1 index rest freelist =>
      obtain ⟨rfl, rfl⟩ := Prod.mk.inj (Option.some.inj executed)
      rw [freelist]
      refine ⟨rfl, ?_, fun other elsewhere => ?_⟩ <;> rw [saveTmp_allocator]
      · simp [Universe.allocator, Universe.setSlot, getElem?_modifyWorld, found, nextArenas]
      · simp [Universe.allocator, Universe.setSlot, getElem?_modifyWorld, elsewhere.symm]
    case h_2 freelist =>
      obtain ⟨rfl, rfl⟩ := Prod.mk.inj (Option.some.inj executed)
      rw [freelist]
      refine ⟨rfl, ?_, fun other elsewhere => ?_⟩ <;> rw [saveTmp_allocator]
      · simp [Universe.allocator, getElem?_modifyWorld, found, freelist, nextArenas]
      · simp [Universe.allocator, getElem?_modifyWorld, elsewhere.symm]

theorem objAlloc_isSome (arenas : (u.allocator world).isSome) : (objAlloc u world v).isSome := by
  simp only [Universe.allocator, Option.isSome_map] at arenas
  obtain ⟨w, found⟩ := Option.isSome_iff_exists.mp arenas
  simp only [objAlloc, found]
  split <;> rfl

/-! ## Reachable states -/

/-- A change of a world outside its arenas. -/
theorem wellFormed_outside {change : World κ → World κ} (wellFormed : u.WellFormed)
    (arenas : ∀ w, (change w).slots = w.slots ∧ (change w).freelist = w.freelist) :
    (u.modifyWorld world change).WellFormed := by
  refine wellFormed_modifyWorld wellFormed fun w _ holds => ?_
  rwa [World.WellFormed, (arenas w).1, (arenas w).2]

theorem wellFormed_saveTmp (wellFormed : u.WellFormed) (tmp : Ref) :
    (saveTmp u world tmp).WellFormed :=
  wellFormed_outside wellFormed fun _ => ⟨rfl, rfl⟩

theorem wellFormed_objAlloc (wellFormed : u.WellFormed)
    (executed : objAlloc u world v = some (u', ref)) : u'.WellFormed :=
  (objAlloc_replaces wellFormed executed).2.2.wellFormed wellFormed

theorem wellFormed_store (wellFormed : u.WellFormed) (executed : store u ref v = some u') :
    u'.WellFormed :=
  (store_replaces executed).wellFormed wellFormed

theorem wellFormed_valFree {bodies : List (Option Body)} {value : Value κ}
    (wellFormed : u.WellFormed) (found : u.value (.slot world index) = some value) :
    (valFree { u with bodies } world index).WellFormed := by
  obtain ⟨w, world_found, slot_found⟩ := slot_of_value found
  have wellFormed' : ({ u with bodies } : Universe κ).WellFormed := wellFormed
  rw [valFree, Universe.setSlot, Universe.modifyWorld, Universe.modifyWorld, List.modify_modify_eq]
  refine wellFormed_modifyWorld wellFormed' fun other same holds => ?_
  obtain rfl := Option.some.inj (world_found.symm.trans same)
  have bound : index < w.slots.length := by
    by_contra beyond
    rw [List.getElem?_eq_none (Nat.le_of_not_lt beyond)] at slot_found
    cases slot_found
  refine ⟨List.nodup_cons.mpr ⟨fun member => ?_, holds.1⟩, fun position member => ?_⟩
  · cases slot_found.symm.trans (holds.2 index member)
  · rcases List.mem_cons.mp member with rfl | member
    · simp [bound]
    · have elsewhere : index ≠ position := by
        rintro rfl
        cases slot_found.symm.trans (holds.2 index member)
      exact (List.getElem?_set_ne elsewhere).trans (holds.2 position member)

theorem wellFormed_sweepSlot (wellFormed : u.WellFormed)
    (swept : sweepSlot world u index = some u') : u'.WellFormed := by
  obtain ⟨-, rfl⟩ | ⟨-, -, rfl⟩ | ⟨bodies, allocated, -, rfl⟩ := sweepSlot_cases swept
  · exact wellFormed
  · exact wellFormed
  · obtain ⟨value, found⟩ := Option.ne_none_iff_exists'.mp allocated
    exact wellFormed_valFree wellFormed found

/-- What all rounds of a loop do to the universe, the loop does. -/
theorem foldlM_rel {α : Type} {R : Universe κ → Universe κ → Prop}
    {f : Universe κ → α → Option (Universe κ)} {xs : List α} (refl : ∀ u, R u u)
    (trans : ∀ {u u₁ u'}, R u u₁ → R u₁ u' → R u u')
    (each : ∀ {u : Universe κ} {x : α} {u' : Universe κ}, f u x = some u' → R u u')
    (executed : xs.foldlM f u = some u') : R u u' := by
  induction xs generalizing u with
  | nil =>
      cases executed
      exact refl _
  | cons x xs ih =>
      rw [List.foldlM_cons] at executed
      obtain ⟨u₁, first, rest⟩ := Option.bind_eq_some_iff.mp executed
      exact trans (each first) (ih rest)

theorem wellFormed_gcRun (wellFormed : u.WellFormed) (executed : gcRun u world = some u') :
    u'.WellFormed := by
  obtain ⟨marked, swept, marking, sweeping, rfl⟩ := gcRun_eq_some_iff.mp executed
  have wellFormed' : marked.WellFormed := by
    rw [(gcMark_marked marking).1]
    exact wellFormed
  have sweeps : marked.WellFormed → swept.WellFormed :=
    foldlM_rel (R := fun u u' : Universe κ => u.WellFormed → u'.WellFormed) (fun _ => id)
      (fun first second => second ∘ first)
      (fun swept wellFormed => wellFormed_sweepSlot wellFormed swept) sweeping
  exact wellFormed_outside (sweeps wellFormed') fun _ => ⟨rfl, rfl⟩

theorem wellFormed_aryPush {item : Ref} (wellFormed : u.WellFormed)
    (executed : aryPush u ref item = some u') : u'.WellFormed := by
  simp only [aryPush] at executed
  split at executed
  · exact wellFormed_store wellFormed executed
  · cases executed

theorem wellFormed_aryPop (wellFormed : u.WellFormed) (executed : aryPop u world ref = some u') :
    u'.WellFormed := by
  simp only [aryPop] at executed
  split at executed
  · split at executed
    · exact wellFormed_store (wellFormed_saveTmp wellFormed _) executed
    · cases executed
  · cases executed

theorem wellFormed_pushCaller (wellFormed : u.WellFormed)
    (executed : pushCaller u world = some u') : u'.WellFormed := by
  simp only [pushCaller, Option.bind_eq_bind, Option.bind_eq_some_iff, Prod.exists] at executed
  obtain ⟨w, -, callerStack, -, u₁, filename, first, u₂, lineno, second, u₃, sub, third, u₄, row,
    fourth, pushed⟩ := executed
  have wellFormed₁ := wellFormed_objAlloc wellFormed first
  have wellFormed₂ := wellFormed_objAlloc wellFormed₁ second
  have wellFormed₃ := wellFormed_objAlloc wellFormed₂ third
  exact wellFormed_aryPush (wellFormed_objAlloc wellFormed₃ fourth) pushed

theorem wellFormed_popCaller (wellFormed : u.WellFormed)
    (executed : popCaller u world = some u') : u'.WellFormed := by
  simp only [popCaller, Option.bind_eq_bind, Option.bind_eq_some_iff] at executed
  obtain ⟨w, -, callerStack, -, popped⟩ := executed
  exact wellFormed_aryPop wellFormed popped

theorem wellFormed_codeVcall {code : Ref} (wellFormed : u.WellFormed)
    (executed : codeVcall u world code = some u') : u'.WellFormed := by
  simp only [codeVcall, Option.bind_eq_bind, Option.bind_eq_some_iff] at executed
  obtain ⟨w, -, executed⟩ := executed
  split at executed
  all_goals
    obtain ⟨collected, collects, executed⟩ := Option.bind_eq_some_iff.mp executed
    obtain ⟨pushed, pushes, called⟩ := Option.bind_eq_some_iff.mp executed
    have wellFormed_collected : collected.WellFormed := by
      first
      | exact wellFormed_gcRun wellFormed collects
      | exact Option.some.inj collects ▸ wellFormed
    have wellFormed_pushed := wellFormed_pushCaller wellFormed_collected pushes
    split at called
    · cases called
      refine wellFormed_outside ?_ fun _ => ⟨rfl, rfl⟩
      split
      · exact wellFormed_saveTmp wellFormed_pushed _
      · exact wellFormed_pushed
    · cases called
      exact wellFormed_pushed
    · cases called

theorem wellFormed_excThrow {val : Ref} {rows : Nat} (wellFormed : u.WellFormed)
    (executed : excThrow u world val rows = some u') : u'.WellFormed := by
  simp only [excThrow, Option.bind_eq_bind, Option.bind_eq_some_iff] at executed
  obtain ⟨w, -, callerStack, -, handler, -, thrown⟩ := executed
  split at thrown
  case h_1 items found =>
    obtain ⟨truncated, truncates, unwound⟩ := Option.bind_eq_some_iff.mp thrown
    have saved (tmps : List Ref) (before : Universe κ) (holds : before.WellFormed) :
        (tmps.foldl (saveTmp · world ·) before).WellFormed := by
      induction tmps generalizing before with
      | nil => exact holds
      | cons tmp tmps ih => exact ih _ (wellFormed_saveTmp holds tmp)
    have wellFormed_truncated := wellFormed_store (saved _ u wellFormed) truncates
    split at unwound
    · cases unwound
      exact wellFormed_outside wellFormed_truncated fun _ => ⟨rfl, rfl⟩
    · cases unwound
  · cases thrown

theorem wellFormed_worldNew (wellFormed : u.WellFormed) : (worldNew u).WellFormed := by
  intro world w found
  simp only [worldNew, List.getElem?_append] at found
  split at found
  · exact wellFormed world w found
  · rw [List.getElem?_singleton] at found
    split at found
    · cases found
      exact ⟨List.nodup_nil, fun index member => by cases member⟩
    · cases found

theorem wellFormed_release (wellFormed : u.WellFormed) (executed : worldRelease u world = some u') :
    u'.WellFormed := by
  have reset : (worldReset u world).WellFormed := wellFormed_outside wellFormed fun _ => ⟨rfl, rfl⟩
  simp only [worldRelease, Option.bind_eq_bind, Option.bind_eq_some_iff] at executed
  obtain ⟨w, -, released⟩ := executed
  split at released
  · exact wellFormed_gcRun reset released
  · cases released
    exact reset

theorem wellFormed_step {op : Op κ} (wellFormed : u.WellFormed) (executed : step u op = some u') :
    u'.WellFormed := by
  cases op with
  | worldNew =>
      cases executed
      exact wellFormed_worldNew wellFormed
  | alloc world v =>
      obtain ⟨⟨u', ref⟩, allocated, rfl⟩ := Option.map_eq_some_iff.mp executed
      exact wellFormed_objAlloc wellFormed allocated
  | store ref v => exact wellFormed_store wellFormed executed
  | threadStart | saveTmp | setCode | setLex | setErrvar | handlerPush | handlerPop | gcRequest =>
      cases executed
      exact wellFormed_outside wellFormed fun _ => ⟨rfl, rfl⟩
  | bodyNew | setInc | setArgs | setClassClass | setGlobal | signalNotify =>
      cases executed
      exact wellFormed
  | pushScope world =>
      simp only [step, pushScope, Option.bind_eq_bind, Option.bind_eq_some_iff, Prod.exists] at executed
      obtain ⟨w, -, u₁, lex, allocated, pushed⟩ := executed
      cases pushed
      exact wellFormed_outside (wellFormed_objAlloc wellFormed allocated) fun _ => ⟨rfl, rfl⟩
  | popScope world =>
      simp only [step, popScope, Option.bind_eq_bind, Option.bind_eq_some_iff] at executed
      obtain ⟨w, -, lex, -, saved, -, popped⟩ := executed
      split at popped
      · cases popped
        exact wellFormed_outside wellFormed fun _ => ⟨rfl, rfl⟩
      · cases popped
  | codeVcall world code => exact wellFormed_codeVcall wellFormed executed
  | codeReturn world origLex =>
      refine wellFormed_popCaller ?_ executed
      exact wellFormed_outside wellFormed fun _ => ⟨rfl, rfl⟩
  | throw world val rows => exact wellFormed_excThrow wellFormed executed
  | gcRun world => exact wellFormed_gcRun wellFormed executed
  | release world => exact wellFormed_release wellFormed executed

end Alloc

end Heap
end Pone
