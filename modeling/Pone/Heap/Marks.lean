import Pone.Heap.Alloc
import Pone.Heap.Safety

/-!
# Mark bits between collections

An operation is a sequence of mutations, which leave the mark bits of the values alone, with at most
one collection among them.  A collection clears the marks in the arenas of its own world only, so
the marks it has set elsewhere stay, and the next collection that meets them turns back there.
-/

namespace Pone
namespace Heap

section Marks

variable {κ : Type} {u u' : Universe κ} {world other index : Nat} {ref : Ref}

/-! ## What an operation is made of -/

/-- A change that no collection makes. -/
inductive Mutation : Universe κ → Universe κ → Prop where
  | outside {u : Universe κ} {world : Nat} {change : World κ → World κ}
      (arenas : ∀ w, (change w).slots = w.slots ∧ (change w).freelist = w.freelist) :
      Mutation u (u.modifyWorld world change)
  | fields {u u' : Universe κ} (worlds : u'.worlds = u.worlds) (marked : u'.marked = u.marked) :
      Mutation u u'
  | alloc {u u' : Universe κ} {world : Nat} {v : Value κ} {ref : Ref}
      (executed : objAlloc u world v = some (u', ref)) : Mutation u u'
  | store {u u' : Universe κ} {ref : Ref} {v : Value κ} (executed : store u ref v = some u') :
      Mutation u u'
  | worldNew {u : Universe κ} : Mutation u (worldNew u)

/-- A sequence of mutations. -/
abbrev Quiet : Universe κ → Universe κ → Prop := Relation.ReflTransGen Mutation

theorem wellFormed_mutation (wellFormed : u.WellFormed) (mutation : Mutation u u') :
    u'.WellFormed := by
  cases mutation with
  | outside arenas => exact wellFormed_outside wellFormed arenas
  | fields worlds => rwa [Universe.WellFormed, worlds]
  | alloc executed => exact wellFormed_objAlloc wellFormed executed
  | store executed => exact wellFormed_store wellFormed executed
  | worldNew => exact wellFormed_worldNew wellFormed

theorem wellFormed_quiet (wellFormed : u.WellFormed) (quiet : Quiet u u') : u'.WellFormed := by
  induction quiet with
  | refl => exact wellFormed
  | tail _ mutation ih => exact wellFormed_mutation ih mutation

theorem quiet_outside {change : World κ → World κ}
    (arenas : ∀ w, (change w).slots = w.slots ∧ (change w).freelist = w.freelist) :
    Quiet u (u.modifyWorld world change) :=
  .single (.outside arenas)

theorem quiet_saveTmp (tmp : Ref) : Quiet u (saveTmp u world tmp) :=
  quiet_outside fun _ => ⟨rfl, rfl⟩

theorem quiet_aryPush {item : Ref} (executed : aryPush u ref item = some u') : Quiet u u' := by
  simp only [aryPush] at executed
  split at executed
  · exact .single (.store executed)
  · cases executed

theorem quiet_aryPop (executed : aryPop u world ref = some u') : Quiet u u' := by
  simp only [aryPop] at executed
  split at executed
  · split at executed
    · exact (quiet_saveTmp _).tail (.store executed)
    · cases executed
  · cases executed

theorem quiet_pushCaller (executed : pushCaller u world = some u') : Quiet u u' := by
  simp only [pushCaller, Option.bind_eq_bind, Option.bind_eq_some_iff, Prod.exists] at executed
  obtain ⟨w, -, callerStack, -, u₁, filename, first, u₂, lineno, second, u₃, sub, third, u₄, row,
    fourth, pushed⟩ := executed
  have rows : Quiet u u₄ := (((Relation.ReflTransGen.single (.alloc first)).tail (.alloc second)).tail
    (.alloc third)).tail (.alloc fourth)
  exact rows.trans (quiet_aryPush pushed)

theorem quiet_popCaller (executed : popCaller u world = some u') : Quiet u u' := by
  simp only [popCaller, Option.bind_eq_bind, Option.bind_eq_some_iff] at executed
  obtain ⟨w, -, callerStack, -, popped⟩ := executed
  exact quiet_aryPop popped

theorem quiet_excThrow {val : Ref} {rows : Nat} (executed : excThrow u world val rows = some u') :
    Quiet u u' := by
  simp only [excThrow, Option.bind_eq_bind, Option.bind_eq_some_iff] at executed
  obtain ⟨w, -, callerStack, -, handler, -, thrown⟩ := executed
  split at thrown
  case h_1 items found =>
    obtain ⟨truncated, truncates, unwound⟩ := Option.bind_eq_some_iff.mp thrown
    have saved (tmps : List Ref) (before : Universe κ) :
        Quiet before (tmps.foldl (saveTmp · world ·) before) := by
      induction tmps generalizing before with
      | nil => exact .refl
      | cons tmp tmps ih => exact (quiet_saveTmp tmp).trans (ih _)
    have quiet := (saved _ u).tail (.store truncates)
    split at unwound
    · cases unwound
      exact quiet.trans (quiet_outside fun _ => ⟨rfl, rfl⟩)
    · cases unwound
  · cases thrown

/-- An operation is mutations with at most one collection among them. -/
inductive Made (u u' : Universe κ) (op : Op κ) : Prop where
  | quiet (uncollected : collection u op = none) (quiet : Quiet u u')
  | collects (before : Universe κ) (world : Nat) (after : Universe κ)
      (collected : collection u op = some (before, world)) (first : Quiet u before)
      (executed : gcRun before world = some after) (rest : Quiet after u')

/-- What `pone_code_vcall` does behind its collection. -/
theorem quiet_enter {start : Universe κ} {code : Ref} {w : World κ}
    (executed : ((pushCaller start world).bind fun pushed =>
      match pushed.value code with
      | some (.code (some lex)) =>
          some ((match w.lex with
            | some origLex => saveTmp pushed world origLex
            | none => pushed).modifyWorld world fun w => { w with lex := some lex })
      | some (.code none) => some pushed
      | _ => none) = some u') : Quiet start u' := by
  obtain ⟨pushed, pushes, called⟩ := Option.bind_eq_some_iff.mp executed
  have quiet := quiet_pushCaller pushes
  split at called
  · cases called
    refine quiet.trans (.trans ?_ (quiet_outside fun _ => ⟨rfl, rfl⟩))
    split
    · exact quiet_saveTmp _
    · exact .refl
  · cases called
    exact quiet
  · cases called

theorem codeVcall_made {code : Ref} (executed : codeVcall u world code = some u') :
    Made u u' (.codeVcall world code) := by
  simp only [codeVcall, Option.bind_eq_bind, Option.bind_eq_some_iff] at executed
  obtain ⟨w, found, executed⟩ := executed
  by_cases requested : w.gcRequested = true
  · rw [if_pos requested] at executed
    obtain ⟨collected, collects, executed⟩ := Option.bind_eq_some_iff.mp executed
    refine .collects u world collected ?_ .refl collects (quiet_enter executed)
    simp [collection, found, requested]
  · rw [if_neg requested] at executed
    refine .quiet ?_ (quiet_enter executed)
    simp [collection, found, requested]

theorem release_made (executed : worldRelease u world = some u') : Made u u' (.release world) := by
  simp only [worldRelease, Option.bind_eq_bind, Option.bind_eq_some_iff] at executed
  obtain ⟨w, found, released⟩ := executed
  have reset : Quiet u (worldReset u world) := quiet_outside fun _ => ⟨rfl, rfl⟩
  split at released
  · rename_i requested
    refine .collects (worldReset u world) world u' ?_ reset released .refl
    simp [collection, found, requested]
  · rename_i requested
    cases released
    refine .quiet ?_ reset
    simp [collection, found, requested]

theorem step_made {op : Op κ} (executed : step u op = some u') : Made u u' op := by
  cases op with
  | worldNew =>
      cases executed
      exact .quiet rfl (.single .worldNew)
  | alloc world v =>
      obtain ⟨⟨u', ref⟩, allocated, rfl⟩ := Option.map_eq_some_iff.mp executed
      exact .quiet rfl (.single (.alloc allocated))
  | store ref v => exact .quiet rfl (.single (.store executed))
  | threadStart | saveTmp | setCode | setLex | setErrvar | handlerPush | handlerPop | gcRequest =>
      cases executed
      exact .quiet rfl (quiet_outside fun _ => ⟨rfl, rfl⟩)
  | bodyNew | setInc | setArgs | setClassClass | setGlobal | signalNotify =>
      cases executed
      exact .quiet rfl (.single (.fields rfl rfl))
  | pushScope world =>
      simp only [step, pushScope, Option.bind_eq_bind, Option.bind_eq_some_iff, Prod.exists] at executed
      obtain ⟨w, -, u₁, lex, allocated, pushed⟩ := executed
      cases pushed
      exact .quiet rfl ((Relation.ReflTransGen.single (.alloc allocated)).trans
        (quiet_outside fun _ => ⟨rfl, rfl⟩))
  | popScope world =>
      simp only [step, popScope, Option.bind_eq_bind, Option.bind_eq_some_iff] at executed
      obtain ⟨w, -, lex, -, saved, -, popped⟩ := executed
      split at popped
      · cases popped
        exact .quiet rfl (quiet_outside fun _ => ⟨rfl, rfl⟩)
      · cases popped
  | codeVcall world code => exact codeVcall_made executed
  | codeReturn world origLex =>
      have restored : Quiet u (u.modifyWorld world fun w => { w with lex := origLex.getD w.lex }) :=
        quiet_outside fun _ => ⟨rfl, rfl⟩
      exact .quiet rfl (restored.trans (quiet_popCaller executed))
  | throw world val rows => exact .quiet rfl (quiet_excThrow executed)
  | gcRun world => exact .collects u world u' rfl .refl executed .refl
  | release world => exact release_made executed

/-! ## Dirty values -/

/-- A value in an arena carries a mark. -/
def Dirty (u : Universe κ) (ref : Ref) : Prop :=
  (∃ world index, ref = .slot world index) ∧ u.value ref ≠ none ∧ u.marked ref = true

/-- No value in any arena carries a mark. -/
def Clean (u : Universe κ) : Prop := ∀ ref, ¬ Dirty u ref

theorem dirty_congr (value : u'.value ref ≠ none ↔ u.value ref ≠ none)
    (marked : u'.marked ref = u.marked ref) : Dirty u' ref ↔ Dirty u ref := by
  rw [Dirty, Dirty, value, marked]

/-- A slot that has just been allocated is not dirty, before or after. -/
theorem dirty_fresh (before : u.value ref = none) (after : u'.marked ref = false) :
    Dirty u' ref ↔ Dirty u ref := by
  simp [Dirty, before, after]

theorem objAlloc_marked {v : Value κ} (executed : objAlloc u world v = some (u', ref)) :
    u'.marked = Function.update u.marked ref false := by
  simp only [objAlloc] at executed
  split at executed
  · cases executed
  · split at executed <;> cases executed <;> rfl

theorem dirty_worldNew : Dirty (worldNew u) ref ↔ Dirty u ref := by
  cases ref with
  | nil | bool | constInt => simp [Dirty]
  | slot place position =>
      by_cases old : place < u.worlds.length
      · refine dirty_congr ?_ ?_
        · simp [Universe.value, worldNew, List.getElem?_append_left old]
        · have different (i : Nat) : (Ref.slot place position : Ref) ≠ .slot u.worlds.length i := by
            rintro ⟨⟩
            exact Nat.lt_irrefl _ old
          simp [worldNew, different]
      · have unused : u.value (.slot place position) = none := by
          simp [Universe.value, List.getElem?_eq_none (Nat.le_of_not_lt old)]
        have beyond (i : Nat) (w : World κ) (empty : w.slots[i]? = none) (found :
            (worldNew u).worlds[place]? = some w) : (worldNew u).value (.slot place i) = none := by
          simp [Universe.value, found, empty]
        rcases Nat.lt_trichotomy place u.worlds.length with older | rfl | newer
        · exact absurd older old
        · rcases position with _ | _ | position
          · exact dirty_fresh unused (by simp [worldNew])
          · exact dirty_fresh unused (by simp [worldNew])
          · simp [Dirty, unused, beyond (position + 2) _ rfl (by simp [worldNew]; rfl)]
        · have missing : (worldNew u).value (.slot place position) = none := by
            have length : (worldNew u).worlds.length ≤ place := by
              simp only [worldNew, List.length_append, List.length_singleton]
              omega
            simp [Universe.value, List.getElem?_eq_none length]
          simp [Dirty, unused, missing]

theorem dirty_mutation (wellFormed : u.WellFormed) (mutation : Mutation u u') :
    Dirty u' ref ↔ Dirty u ref := by
  cases mutation with
  | outside arenas =>
      refine dirty_congr ?_ rfl
      rw [value_modifyWorld fun w => (arenas w).1]
  | fields worlds marked =>
      refine dirty_congr ?_ (by rw [marked])
      have same : u'.value ref = u.value ref := by
        cases ref <;> simp only [Universe.value, worlds]
      rw [same]
  | @alloc _ world v fresh executed =>
      obtain ⟨-, free, replaces⟩ := objAlloc_replaces wellFormed executed
      have marked := objAlloc_marked executed
      by_cases here : ref = fresh
      · subst here
        exact dirty_fresh free (by rw [marked, Function.update_self])
      · refine dirty_congr ?_ (by rw [marked, Function.update_of_ne here])
        rw [replaces.value, Function.update_of_ne here]
  | @store _ target v executed =>
      have replaces := store_replaces executed
      obtain ⟨world, index, before, rfl, found, rfl⟩ := store_eq_some_iff.mp executed
      refine dirty_congr ?_ rfl
      rw [replaces.value]
      by_cases here : ref = .slot world index
      · subst here
        simp [found]
      · rw [Function.update_of_ne here]
  | worldNew => exact dirty_worldNew

theorem dirty_quiet (wellFormed : u.WellFormed) (quiet : Quiet u u') :
    Dirty u' ref ↔ Dirty u ref := by
  induction quiet with
  | refl => exact Iff.rfl
  | tail front mutation ih =>
      exact (dirty_mutation (wellFormed_quiet wellFormed front) mutation).trans ih

/-! ## Collections -/

theorem sweepSlot_clean (swept : sweepSlot world u index = some u') :
    ¬ Dirty u' (.slot world index) := by
  rintro ⟨-, allocated, marked⟩
  obtain ⟨free, rfl⟩ | ⟨-, -, rfl⟩ | ⟨bodies, -, -, rfl⟩ := sweepSlot_cases swept
  · exact allocated free
  · simp only [Function.update_self] at marked
    cases marked
  · exact allocated (by rw [value_valFree, if_pos rfl])

/-- What the sweep leaves marked, of the values it leaves. -/
theorem sweep_dirty {indices : List Nat} (nodup : indices.Nodup)
    (swept : indices.foldlM (sweepSlot world) u = some u') :
    Dirty u' ref ↔ Dirty u ref ∧ ¬ ∃ index ∈ indices, ref = .slot world index := by
  induction indices generalizing u with
  | nil =>
      cases swept
      simp
  | cons index indices ih =>
      obtain ⟨fresh, rest⟩ := List.nodup_cons.mp nodup
      obtain ⟨u₁, first, swept⟩ := Option.bind_eq_some_iff.mp swept
      rw [ih rest swept]
      by_cases here : ref = .slot world index
      · subst here
        simp [sweepSlot_clean first]
      · have kept : Dirty u₁ ref ↔ Dirty u ref := by
          refine dirty_congr ?_ (sweepSlot_marked first here)
          rw [sweepSlot_value first]
          simp [here]
        rw [kept]
        simp [here]

/-- What a collection leaves dirty: the values that it has traced in the arenas of other worlds. -/
theorem gcRun_dirty (executed : gcRun u world = some u') :
    Dirty u' ref ↔ (∃ other index, other ≠ world ∧ ref = .slot other index) ∧
      u.value ref ≠ none ∧ Traced u world ref := by
  obtain ⟨marked, collected, marking, sweeping, rfl⟩ := gcRun_eq_some_iff.mp executed
  obtain ⟨same, traced⟩ := gcMark_marked marking
  have contents : marked.value ref = u.value ref := by
    rw [same]
    rfl
  have swept : Dirty collected ref ↔ Dirty marked ref ∧
      ¬ ∃ index ∈ List.range (((marked.worlds[world]?).map fun w => w.slots.length).getD 0),
        ref = .slot world index :=
    sweep_dirty List.nodup_range sweeping
  have reset : Dirty (collected.modifyWorld world fun w => { w with gcRequested := false }) ref ↔
      Dirty collected ref :=
    dirty_congr (by rw [value_modifyWorld (by exact fun _ => rfl)]) rfl
  rw [reset, swept, Dirty, contents, traced]
  constructor
  · rintro ⟨⟨⟨other, index, rfl⟩, allocated, reached⟩, beyond⟩
    refine ⟨⟨other, index, ?_, rfl⟩, allocated, reached⟩
    rintro rfl
    exact beyond ⟨index, List.mem_range.mpr (slot_lt (by rwa [contents])), rfl⟩
  · rintro ⟨⟨other, index, elsewhere, rfl⟩, allocated, reached⟩
    refine ⟨⟨⟨other, index, rfl⟩, allocated, reached⟩, ?_⟩
    rintro ⟨_, -, here⟩
    exact elsewhere (Ref.slot.inj here).1

/-- A collection traces values of its own world only. -/
def TracesOwn (u : Universe κ) (world : Nat) : Prop :=
  ∀ other index, other ≠ world → u.value (.slot other index) ≠ none →
    ¬ Traced u world (.slot other index)

/-- The collection of an operation traces values of its own world only. -/
def CollectsOwn (u : Universe κ) (op : Op κ) : Prop :=
  ∀ before world, collection u op = some (before, world) → TracesOwn before world

/-- A collection leaves the arenas clean exactly when it has traced values of its own world only. -/
theorem gcRun_clean_iff (executed : gcRun u world = some u') : Clean u' ↔ TracesOwn u world := by
  constructor
  · intro clean other index elsewhere allocated traced
    exact clean _ ((gcRun_dirty executed).mpr ⟨⟨other, index, elsewhere, rfl⟩, allocated, traced⟩)
  · intro own ref dirty
    obtain ⟨⟨other, index, elsewhere, rfl⟩, allocated, traced⟩ := (gcRun_dirty executed).mp dirty
    exact own other index elsewhere allocated traced

theorem clean_quiet (wellFormed : u.WellFormed) (quiet : Quiet u u') : Clean u' ↔ Clean u :=
  forall_congr' fun _ => not_congr (dirty_quiet wellFormed quiet)

theorem clean_step {op : Op κ} (wellFormed : u.WellFormed) (clean : Clean u)
    (executed : step u op = some u') : Clean u' ↔ CollectsOwn u op := by
  cases step_made executed with
  | quiet uncollected quiet =>
      have kept : Clean u' := (clean_quiet wellFormed quiet).mpr clean
      refine iff_of_true kept fun before world collected => ?_
      rw [uncollected] at collected
      cases collected
  | collects before world after collected first collects rest =>
      have wellFormed_before := wellFormed_quiet wellFormed first
      rw [clean_quiet (wellFormed_gcRun wellFormed_before collects) rest, gcRun_clean_iff collects]
      constructor
      · intro own other_before other_world same
        cases collected.symm.trans same
        exact own
      · intro own
        exact own before world collected

theorem children_slot (pointing : u.children ref ≠ []) :
    (∃ world index, ref = .slot world index) ∧ u.value ref ≠ none := by
  cases ref with
  | nil | bool | constInt => simp [Universe.children, Universe.value, Value.children] at pointing
  | slot world index =>
      refine ⟨⟨world, index, rfl⟩, fun free => pointing ?_⟩
      rw [Universe.children, free]
      rfl

theorem Clean.unmarked (clean : Clean u) (slot : ∃ world index, ref = .slot world index)
    (allocated : u.value ref ≠ none) : u.marked ref = false := by
  cases marked : u.marked ref with
  | false => rfl
  | true => exact absurd ⟨slot, allocated, marked⟩ (clean ref)

/-- A mark phase that starts from clean arenas traverses whatever its roots lead to. -/
theorem clean_traced (clean : Clean u) (slot : ∃ world index, ref = .slot world index)
    (allocated : u.value ref ≠ none) :
    Traced u world ref ↔ ∃ root ∈ u.gcRoots world,
      Relation.ReflTransGen (fun parent child => child ∈ u.children parent) root ref := by
  have unmarked := clean.unmarked slot allocated
  constructor
  · rintro (marked | ⟨root, held, -, path⟩)
    · rw [unmarked] at marked
      cases marked
    · exact ⟨root, held, Relation.ReflTransGen.mono (fun _ _ edge => edge.1) _ _ path⟩
  · rintro ⟨root, held, path⟩
    refine .inr ⟨root, held, ?_⟩
    clear held
    -- whatever has children is a value in an arena, and carries no mark
    induction path using Relation.ReflTransGen.head_induction_on with
    | refl => exact ⟨unmarked, .refl⟩
    | head edge _ ih =>
        obtain ⟨parent_slot, parent_allocated⟩ := children_slot (List.ne_nil_of_mem edge)
        exact ⟨clean.unmarked parent_slot parent_allocated, .head ⟨edge, ih.1⟩ ih.2⟩

/-- The mark phase of an operation's collection stops early at no value: it traces whatever its roots
lead to. -/
def Traverses (u : Universe κ) (op : Op κ) : Prop :=
  ∀ before world, collection u op = some (before, world) →
    ∀ ref, (∃ other index, ref = .slot other index) → before.value ref ≠ none →
      (Traced before world ref ↔ ∃ root ∈ before.gcRoots world,
        Relation.ReflTransGen (fun parent child => child ∈ before.children parent) root ref)

theorem collection_clean {before : Universe κ} {op : Op κ} (clean : Clean u)
    (collected : collection u op = some (before, world)) : Clean before := by
  cases op with
  | gcRun place =>
      cases collected
      exact clean
  | codeVcall place code =>
      simp only [collection] at collected
      split at collected <;> cases collected
      exact clean
  | release place =>
      simp only [collection] at collected
      split at collected <;> cases collected
      intro ref dirty
      have same : (worldReset u world).value ref = u.value ref :=
        value_modifyWorld (by exact fun _ => rfl)
      have kept : Dirty (worldReset u world) ref ↔ Dirty u ref := dirty_congr (by rw [same]) rfl
      exact clean ref (kept.mp dirty)
  | worldNew | threadStart | alloc | bodyNew | store | saveTmp | setCode | setLex | setErrvar
  | setInc | setArgs | setClassClass | setGlobal | signalNotify | pushScope | popScope
  | codeReturn | handlerPush | handlerPop | throw | gcRequest => cases collected

/-- In every run of the worlds, the arenas are clean between the operations exactly when each
collection traces values of its own world only; and then no mark phase stops early. -/
theorem marks_clean_iff (ops : List (Op κ)) {u : Universe κ}
    (executed : Execution.run step universeInit ops = some u) :
    (Execution.Always step Clean universeInit ops ↔
        Execution.Along step CollectsOwn universeInit ops) ∧
      (Execution.Always step Clean universeInit ops →
        Execution.Along step Traverses universeInit ops) := by
  have wellFormed : (universeInit : Universe κ).WellFormed := by
    intro world w found
    simp [universeInit] at found
  have clean : Clean (universeInit : Universe κ) := fun ref dirty => by
    cases dirty.2.2
  refine ⟨Execution.always_iff_along wellFormed_step clean_step wellFormed clean executed, ?_⟩
  intro always
  refine always.along fun u op clean before world collected ref slot allocated => ?_
  exact clean_traced (collection_clean clean collected) slot allocated

end Marks

/-- The global world makes `$*INC`; a worker asks for a collection. -/
def workerCollects : List (Op Nat) :=
  [.worldNew, .alloc 0 (.ary []), .setInc (.slot 0 2), .worldNew, .gcRun 1]

/-- The universe after the collection of the worker. -/
def workerCollected : Universe Nat :=
  (Execution.run step universeInit workerCollects).getD universeInit

set_option maxRecDepth 10000 in
theorem workerCollects_run :
    Execution.run step universeInit workerCollects = some workerCollected := by
  have runs : (Execution.run step universeInit workerCollects).isSome = true := by decide +kernel
  exact eq_some_getD runs _

theorem marks_clean_iff_worker :
    (Execution.Always step Clean universeInit workerCollects ↔
        Execution.Along step CollectsOwn universeInit workerCollects) ∧
      (Execution.Always step Clean universeInit workerCollects →
        Execution.Along step Traverses universeInit workerCollects) :=
  marks_clean_iff workerCollects workerCollects_run

set_option maxRecDepth 10000 in
/-- The mark of `$*INC`, which is in the arenas of the global world, stays set. -/
theorem mark_stays :
    Execution.run step universeInit workerCollects = some workerCollected ∧
      ¬ Clean workerCollected := by
  refine ⟨workerCollects_run, fun clean => clean (.slot 0 2) ⟨⟨0, 2, rfl⟩, ?_, ?_⟩⟩
  · decide +kernel
  · decide +kernel

end Heap
end Pone
