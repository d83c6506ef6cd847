import Mathlib.Data.List.Induction
import Pone.Heap.Api
import Pone.Heap.Collect

/-!
# When a collection frees only what cannot be reached

Some pointers of the runtime are overlooked by the collection of a world: the caller stack, the
innermost handler, the globals, everything that other worlds hold, the klass of an opaque, and what
lies behind a value whose mark is still set from the collection of another world.  A collection is
safe exactly when the values of its world that these lead to are traced in some other way.
-/

namespace Pone
namespace Heap

section Safety

variable {κ : Type} {u u' : Universe κ} {world : Nat} {ref : Ref}

/-- The roots that a collection of the world does not mark. -/
def Universe.overlookedRoots (u : Universe κ) (world : Nat) : List Ref :=
  u.globals.map Prod.snd ++ u.worlds.zipIdx.flatMap fun entry =>
    if entry.2 = world then
      entry.1.callerStack.toList ++ entry.1.errHandlerLexs.getLast?.join.toList
    else
      entry.1.roots

/-- Where the collection of a world does not follow the pointers of the runtime. -/
inductive Overlooked (u : Universe κ) (world : Nat) : Ref → Prop where
  | root {ref : Ref} (held : ref ∈ u.overlookedRoots world) : Overlooked u world ref
  | klass {holder ref : Ref} (reachable : u.Reachable holder)
      (klass : u.bodyKlass holder = some ref) : Overlooked u world ref
  | behindMark {holder ref : Ref} (reachable : u.Reachable holder)
      (marked : u.marked holder = true) (child : ref ∈ u.children holder) : Overlooked u world ref

/-- The values of the world that overlooked pointers lead to are traced all the same. -/
def Covers (u : Universe κ) (world : Nat) : Prop :=
  ∀ entry, Overlooked u world entry → ∀ index,
    Relation.ReflTransGen (fun parent child => child ∈ u.pointers parent) entry
      (.slot world index) →
    u.value (.slot world index) ≠ none → Traced u world (.slot world index)

theorem Universe.Reachable.step {holder : Ref} (reachable : u.Reachable holder)
    (pointer : ref ∈ u.pointers holder) : u.Reachable ref := by
  obtain ⟨root, held, path⟩ := reachable
  exact ⟨root, held, path.tail pointer⟩

/-! ## Roots -/

private theorem mem_handlers {handlers : List (Option Ref)} :
    ref ∈ handlers.filterMap id ↔
      ref ∈ handlers.dropLast.filterMap id ∨ ref ∈ handlers.getLast?.join.toList := by
  induction handlers using List.reverseRecOn with
  | nil => simp
  | append_singleton front last => cases last <;> simp

theorem World.mem_roots_iff {w : World κ} :
    ref ∈ w.roots ↔ ref ∈ w.markedRoots ∨
      ref ∈ w.callerStack.toList ++ w.errHandlerLexs.getLast?.join.toList := by
  simp only [World.roots, World.markedRoots, List.mem_append]
  rw [mem_handlers]
  constructor
  · rintro (((((lex | errvar) | code) | caller) | (handler | innermost)) | tmp) <;>
      simp only [*, true_or, or_true]
  · rintro (((((lex | errvar) | code) | handler) | tmp) | (caller | innermost)) <;>
      simp only [*, true_or, or_true]

theorem mem_roots_iff :
    ref ∈ u.roots ↔ ref ∈ u.gcRoots world ∨ ref ∈ u.overlookedRoots world := by
  have worlds : ref ∈ u.worlds.flatMap World.roots ↔
      ∃ (w : World κ) (other : Nat), u.worlds[other]? = some w ∧ ref ∈ w.roots := by
    rw [List.mem_flatMap]
    constructor
    · rintro ⟨w, member, held⟩
      obtain ⟨other, found⟩ := List.mem_iff_getElem?.mp member
      exact ⟨w, other, found, held⟩
    · rintro ⟨w, other, found, held⟩
      exact ⟨w, List.mem_of_getElem? found, held⟩
  have overlooked : ref ∈ u.overlookedRoots world ↔ ref ∈ u.globals.map Prod.snd ∨
      ∃ (w : World κ) (other : Nat), u.worlds[other]? = some w ∧ ref ∈ (if other = world then
        w.callerStack.toList ++ w.errHandlerLexs.getLast?.join.toList else w.roots) := by
    rw [Universe.overlookedRoots, List.mem_append, List.mem_flatMap]
    refine or_congr_right ⟨?_, ?_⟩
    · rintro ⟨⟨w, other⟩, member, held⟩
      exact ⟨w, other, List.mem_zipIdx_iff_getElem?.mp member, held⟩
    · rintro ⟨w, other, found, held⟩
      exact ⟨(w, other), List.mem_zipIdx_iff_getElem?.mpr found, held⟩
  simp only [Universe.roots, Universe.gcRoots, Universe.markedRoots, List.mem_append, worlds,
    overlooked]
  constructor
  · rintro (((fixed | global) | channel) | ⟨w, other, found, held⟩)
    · exact .inl (.inl (.inl fixed))
    · exact .inr (.inl global)
    · exact .inl (.inl (.inr channel))
    · by_cases here : other = world
      · obtain rfl := here
        rcases World.mem_roots_iff.mp held with marked | hidden
        · exact .inl (.inr (by rwa [found, Option.map_some, Option.getD_some]))
        · exact .inr (.inr ⟨w, other, found, by rwa [if_pos rfl]⟩)
      · exact .inr (.inr ⟨w, other, found, by rwa [if_neg here]⟩)
  · rintro (((fixed | channel) | marked) | global | ⟨w, other, found, held⟩)
    · exact .inl (.inl (.inl fixed))
    · exact .inl (.inr channel)
    · cases found : u.worlds[world]? with
      | none => simp [found] at marked
      | some w =>
          rw [found, Option.map_some, Option.getD_some] at marked
          exact .inr ⟨w, world, found, World.mem_roots_iff.mpr (.inl marked)⟩
    · exact .inl (.inl (.inr global))
    · by_cases here : other = world
      · obtain rfl := here
        rw [if_pos rfl] at held
        exact .inr ⟨w, other, found, World.mem_roots_iff.mpr (.inr held)⟩
      · rw [if_neg here] at held
        exact .inr ⟨w, other, found, held⟩

/-! ## Collections -/

theorem Overlooked.reachable (overlooked : Overlooked u world ref) : u.Reachable ref := by
  cases overlooked with
  | root held => exact ⟨ref, mem_roots_iff.mpr (.inr held), .refl⟩
  | klass reachable klass =>
      exact reachable.step (mem_pointers_iff.mpr (.inr klass))
  | behindMark reachable _ child => exact reachable.step (mem_pointers_iff.mpr (.inl child))

/-- What is reachable is traced, or lies behind an overlooked pointer. -/
theorem reachable_traced (reachable : u.Reachable ref) :
    Traced u world ref ∨ ∃ entry, Overlooked u world entry ∧
      Relation.ReflTransGen (fun parent child => child ∈ u.pointers parent) entry ref := by
  obtain ⟨root, held, path⟩ := reachable
  induction path with
  | refl =>
      rcases (@mem_roots_iff κ u world root).mp held with marked | hidden
      · left
        cases set : u.marked root with
        | true => exact .inl set
        | false => exact .inr ⟨root, marked, set, .refl⟩
      · exact .inr ⟨root, .root hidden, .refl⟩
  | @tail holder ref front pointer ih =>
      have holder_reachable : u.Reachable holder := ⟨root, held, front⟩
      rcases ih with traced | ⟨entry, overlooked, behind⟩
      · rcases mem_pointers_iff.mp pointer with child | klass
        · rcases traced with set | ⟨start, marked, clear⟩
          · exact .inr ⟨ref, .behindMark holder_reachable set child, .refl⟩
          · left
            cases set : u.marked ref with
            | true => exact .inl set
            | false => exact .inr ⟨start, marked, clear.1, clear.2.tail ⟨child, set⟩⟩
        · exact .inr ⟨ref, .klass holder_reachable klass, .refl⟩
      · exact .inr ⟨entry, overlooked, behind.tail pointer⟩

/-- A collection frees nothing that can be reached exactly when overlooked pointers do not matter. -/
theorem gcRun_safe_iff (executed : gcRun u world = some u') :
    (∀ ref, Freed u u' ref → ¬ u.Reachable ref) ↔ Covers u world := by
  constructor
  · intro safe entry overlooked index path allocated
    by_contra untraced
    have freed : Freed u u' (.slot world index) :=
      (gcRun_freed executed).mpr ⟨⟨index, rfl⟩, allocated, untraced⟩
    obtain ⟨root, held, front⟩ := overlooked.reachable
    exact safe _ freed ⟨root, held, front.trans path⟩
  · intro covers ref freed reachable
    obtain ⟨⟨index, rfl⟩, allocated, untraced⟩ := (gcRun_freed executed).mp freed
    rcases reachable_traced reachable with traced | ⟨entry, overlooked, path⟩
    · exact untraced traced
    · exact untraced (covers entry overlooked index path allocated)

/-- The state in which an operation runs a collection, and of which world. -/
def collection (u : Universe κ) : Op κ → Option (Universe κ × Nat)
  | .gcRun world => some (u, world)
  | .codeVcall world _ =>
      if ((u.worlds[world]?).map World.gcRequested).getD false then some (u, world) else none
  | .release world =>
      if ((u.worlds[world]?).map World.gcRequested).getD false then
        some (worldReset u world, world)
      else none
  | _ => none

/-- The collections of an operation free nothing that the runtime can still reach. -/
def SafeCollection (u : Universe κ) (op : Op κ) : Prop :=
  ∀ before world after, collection u op = some (before, world) → gcRun before world = some after →
    ∀ ref, Freed before after ref → ¬ before.Reachable ref

/-- The collections of an operation find by other ways what they overlook. -/
def CoveredCollection (u : Universe κ) (op : Op κ) : Prop :=
  ∀ before world after, collection u op = some (before, world) → gcRun before world = some after →
    Covers before world

/-- In every run, the collections are safe exactly when overlooked pointers do not matter in them. -/
theorem collections_safe_iff (u : Universe κ) (ops : List (Op κ)) :
    Execution.Along step SafeCollection u ops ↔ Execution.Along step CoveredCollection u ops := by
  have same (u : Universe κ) (op : Op κ) : SafeCollection u op ↔ CoveredCollection u op :=
    forall_congr' fun before => forall_congr' fun world => forall_congr' fun after =>
      forall_congr' fun _ => forall_congr' fun executed => gcRun_safe_iff executed
  exact ⟨fun safe => safe.mono fun u op => (same u op).mp,
    fun covered => covered.mono fun u op => (same u op).mpr⟩

end Safety

instance {κ : Type} [DecidableEq κ] (u u' : Universe κ) (ref : Ref) : Decidable (Freed u u' ref) :=
  inferInstanceAs (Decidable (_ ∧ _))

/-- `async(sub () { gc_request() })`, up to the end of the job: the values of the universe, the new
world with the copied code, and the call. -/
def jobThatRequestsGc : List (Op Nat) :=
  [.worldNew, .alloc 0 (.ary []), .setInc (.slot 0 2), .alloc 0 (.ary []), .setArgs (.slot 0 3),
    .worldNew, .alloc 1 (.code none), .alloc 1 (.lex none ∅),
    .store (.slot 1 2) (.code (some (.slot 1 3))), .setCode 1 (.slot 1 2), .threadStart 1,
    .pushScope 1, .codeVcall 1 (.slot 1 2), .pushScope 1, .gcRequest 1,
    .codeReturn 1 (some (some (.slot 1 4)))]

/-- The universe when the job has returned. -/
def jobReturned : Universe Nat :=
  (Execution.run step universeInit jobThatRequestsGc).getD universeInit

/-- The universe in which `pone_world_release` runs the collection, and after it. -/
def jobReset : Universe Nat := worldReset jobReturned 1
def jobCollected : Universe Nat := (gcRun jobReset 1).getD universeInit

set_option maxRecDepth 10000 in
/-- The world is released, `tmpstack` is emptied, and the collection frees the caller stack. -/
theorem collection_frees_callerStack :
    Execution.run step universeInit jobThatRequestsGc = some jobReturned ∧
      collection jobReturned (.release 1) = some (jobReset, 1) ∧
      gcRun jobReset 1 = some jobCollected ∧
      (jobReset.worlds[1]?).bind World.callerStack = some (.slot 1 1) ∧
      Freed jobReset jobCollected (.slot 1 1) ∧ jobReset.Reachable (.slot 1 1) := by
  have returns : (Execution.run step universeInit jobThatRequestsGc).isSome = true := by decide
  have requested : ((jobReturned.worlds[1]?).map World.gcRequested).getD false = true := by decide
  have collects : (gcRun jobReset 1).isSome = true := by decide
  refine ⟨?_, ?_, ?_, by decide, by decide, .slot 1 1, by decide, .refl⟩
  · exact eq_some_getD returns _
  · rw [collection, if_pos requested]
    rfl
  · exact eq_some_getD collects _

end Heap
end Pone
