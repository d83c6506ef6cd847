import Pone.Heap.Leaks

/-!
# Threads on values of their own

Threads that read, allocate and change values, each starting from values that it holds, and that free
what they do not hold any more.  Threads that are apart do not interfere: what a thread reads depends
on what it does alone.
-/

namespace Pone
namespace Heap

section Threads

variable {κ τ : Type} [DecidableEq τ]

/-- `pone_t`. -/
inductive PoneType where
  | int | num | string | array | map | code | obj | lex | opaqueBody
  deriving DecidableEq

/-- `pone_type`. -/
def Value.type : Value κ → PoneType
  | .int _ => .int
  | .num _ => .num
  | .str _ _ => .string
  | .ary _ => .array
  | .map _ => .map
  | .code _ => .code
  | .obj _ _ => .obj
  | .lex _ _ => .lex
  | .opaqueRef _ => .opaqueBody

/-- `nil`, a boolean or an integer constant of compiled code. -/
def Ref.literal : Ref → Bool
  | .slot _ _ => false
  | _ => true

/-- A value in the arenas of a world that a collection can free. -/
def Collectable (u : Universe κ) (world : Nat) (target : Ref) : Prop :=
  ∃ index v, target = .slot world index ∧ u.value target = some v ∧ v.isClass u.classClass = false

/-- The universe and the values that each thread has got hold of. -/
structure Threads (τ κ : Type) where
  heap : Universe κ
  held : τ → List Ref

inductive Act (κ : Type) where
  | literal (ref : Ref)
  /-- A value is read, and the thread gets hold of what it points to. -/
  | read (ref : Ref)
  | alloc (v : Value κ)
  /-- A value is changed in place; it keeps its type. -/
  | write (ref : Ref) (v : Value κ)
  /-- A scope is left, a variable overwritten or a job ended: of what it holds the thread keeps this. -/
  | keep (refs : List Ref)
  /-- A collection.  `others` are marked, too: what is only reached through classes, and values that
  still carry the mark of another collection. -/
  | collect (others : List Ref)
  deriving DecidableEq

namespace Threads

def hold (s : Threads τ κ) (thread : τ) (refs : List Ref) : τ → List Ref :=
  Function.update s.held thread (refs ++ s.held thread)

/-- What a collection of the thread marks. -/
def marks (s : Threads τ κ) (thread : τ) : Ref → Bool :=
  Marking.markAll (fun ref => (s.heap.value ref).elim [] (sharing s.heap.classClass).pointers)
    (s.heap.slots.length + 1) (fun _ => false) (s.held thread)

/-- The slots of a world that a collection of the thread frees; classes are left. -/
def dead (s : Threads τ κ) (thread : τ) (world : Nat) (others : List Ref) : List Nat :=
  (List.range (((s.heap.worlds[world]?).map fun w => w.slots.length).getD 0)).filter fun index =>
    (s.heap.value (.slot world index)).any (fun v => !v.isClass s.heap.classClass) &&
      !s.marks thread (.slot world index) && .slot world index ∉ others

/-- `pone_val_free` of each slot in turn; the bodies of opaques are left out. -/
def sweep (u : Universe κ) (world : Nat) (freed : List Nat) : Universe κ :=
  freed.foldl (fun u index => valFree u world index) u

/-- Thread `t` works in world `worlds t`. -/
def step (worlds : τ → Nat) (s : Threads τ κ) : τ × Act κ → Option (Threads τ κ)
  | (thread, .literal ref) =>
      if ref.literal then some { s with held := s.hold thread [ref] } else none
  | (thread, .read ref) =>
      if ref ∈ s.held thread then
        (s.heap.value ref).map fun v =>
          { s with held := s.hold thread ((sharing s.heap.classClass).pointers v) }
      else none
  | (thread, .alloc v) =>
      if v.children ⊆ s.held thread then
        (objAlloc s.heap (worlds thread) v).map fun (u, ref) =>
          { heap := u, held := s.hold thread [ref] }
      else none
  | (thread, .write ref v) =>
      if ref ∈ s.held thread ∧ v.children ⊆ s.held thread ∧
          changeable s.heap.classClass ref v = true ∧
          (s.heap.value ref).any fun before =>
            changeable s.heap.classClass ref before ∧ before.type = v.type then
        (store s.heap ref v).map fun u => { s with heap := u }
      else none
  | (thread, .keep refs) =>
      if refs ⊆ s.held thread then some { s with held := Function.update s.held thread refs } else none
  | (thread, .collect others) =>
      some { s with
        heap := sweep s.heap (worlds thread) (s.dead thread (worlds thread) others) }

/-- What a label reads. -/
def observed (s : Threads τ κ) : τ × Act κ → Option (Value κ)
  | (_, .read ref) => s.heap.value ref
  | _ => none

/-- What a thread reads in a run. -/
def reads (worlds : τ → Nat) (thread : τ) : Threads τ κ → List (τ × Act κ) → List (Option (Value κ))
  | _, [] => []
  | s, label :: labels =>
      match s.step worlds label with
      | none => []
      | some next =>
          if label.1 = thread then s.observed label :: next.reads worlds thread labels
          else next.reads worlds thread labels

/-- What a thread reads is the same in all runs in which it does the same. -/
def NonInterfering (worlds : τ → Nat) (s : Threads τ κ) : Prop :=
  ∀ thread left right leftFinal rightFinal,
    left.filter (fun label => label.1 = thread) = right.filter (fun label => label.1 = thread) →
    Execution.run (step worlds) s left = some leftFinal →
    Execution.run (step worlds) s right = some rightFinal →
    s.reads worlds thread left = s.reads worlds thread right

/-- No thread reaches what another one can change or free, and none reaches a free slot. -/
structure Separate (worlds : τ → Nat) (s : Threads τ κ) : Prop where
  wellFormed : s.heap.WellFormed
  live : ∀ thread, Sharing.Live (sharing s.heap.classClass) s.heap.value (s.held thread)
  apart : ∀ thread other, thread ≠ other →
    Sharing.Apart (sharing s.heap.classClass) s.heap.value (s.held thread) (s.held other)
  own : ∀ thread other, thread ≠ other → ∀ target, Collectable s.heap (worlds other) target →
    ¬ Sharing.Reaches (sharing s.heap.classClass) s.heap.value (s.held thread) target

variable {worlds : τ → Nat} {s s' solo : Threads τ κ} {thread other : τ} {act : Act κ}

/-! ## Collections -/

/-- Slots of one world become free, and nothing else changes that contents or allocations depend on. -/
structure Frees (u u' : Universe κ) (world : Nat) (freed : List Nat) : Prop where
  value : ∀ ref, u'.value ref = if ref ∈ freed.map (.slot world) then none else u.value ref
  classClass : u'.classClass = u.classClass
  wellFormed : u.WellFormed → u'.WellFormed
  allocator : u'.allocator world =
    (u.allocator world).map fun arenas => (freed.reverse ++ arenas.1, arenas.2)
  elsewhere : ∀ other, other ≠ world → u'.allocator other = u.allocator other

theorem valFree_allocator {u : Universe κ} {world index : Nat} :
    (valFree u world index).allocator world =
      (u.allocator world).map fun arenas => (index :: arenas.1, arenas.2) := by
  simp only [valFree, Universe.setSlot, Universe.allocator, getElem?_modifyWorld, if_true, Option.map_map]
  refine Option.map_congr fun w _ => ?_
  simp

theorem valFree_elsewhere {u : Universe κ} {world other index : Nat} (different : other ≠ world) :
    (valFree u world index).allocator other = u.allocator other := by
  simp only [valFree, Universe.setSlot, Universe.allocator, getElem?_modifyWorld, if_neg different.symm]

theorem sweep_frees {u : Universe κ} {world : Nat} {freed : List Nat} (nodup : freed.Nodup)
    (set : ∀ index ∈ freed, u.value (.slot world index) ≠ none) :
    Frees u (sweep u world freed) world freed := by
  induction freed generalizing u with
  | nil => exact ⟨fun _ => by simp [sweep], rfl, id, by simp [sweep], fun _ _ => rfl⟩
  | cons index freed ih =>
      obtain ⟨fresh, nodup⟩ := List.nodup_cons.mp nodup
      have first (ref : Ref) : (valFree u world index).value ref =
          if ref = .slot world index then none else u.value ref := value_valFree
      obtain ⟨v, found⟩ := Option.ne_none_iff_exists'.mp (set index List.mem_cons_self)
      have rest := ih (u := valFree u world index) nodup fun other member => by
        have different : Ref.slot world other ≠ .slot world index := by
          rintro same
          exact fresh ((Ref.slot.inj same).2 ▸ member)
        rw [first, if_neg different]
        exact set other (List.mem_cons_of_mem _ member)
      refine ⟨fun ref => ?_, rest.classClass, fun wellFormed => ?_, ?_, fun other different => ?_⟩
      · refine (rest.value ref).trans ?_
        rw [first, List.map_cons]
        by_cases here : ref = .slot world index
        · simp [here]
        · simp [here]
      · exact rest.wellFormed (wellFormed_valFree wellFormed found)
      · refine rest.allocator.trans ?_
        rw [valFree_allocator, Option.map_map]
        exact Option.map_congr fun arenas _ => by simp
      · exact (rest.elsewhere other different).trans (valFree_elsewhere different)

theorem pointers_subset {classClass : Ref} {v : Value κ} :
    (sharing classClass).pointers v ⊆ v.children := by
  simp only [sharing]
  split
  · exact List.nil_subset _
  · exact List.Subset.refl _

omit [DecidableEq τ] in
/-- A collection marks all that the thread reaches. -/
theorem marks_iff {ref : Ref} : s.marks thread ref = true ↔
    Sharing.Reaches (sharing s.heap.classClass) s.heap.value (s.held thread) ref := by
  have inside (ref : Ref) (pointing : (s.heap.value ref).elim []
      (sharing s.heap.classClass).pointers ≠ []) : ref ∈ s.heap.slots := by
    refine value_mem_slots fun childless => pointing ?_
    cases found : s.heap.value ref with
    | none => rfl
    | some v =>
        simp only [Universe.children, found, Option.elim_some] at childless
        exact List.subset_nil.mp (childless ▸ pointers_subset)
  have edges : Marking.Open (fun ref => (s.heap.value ref).elim []
      (sharing s.heap.classClass).pointers) (fun _ => false) =
      Sharing.Points (sharing s.heap.classClass) s.heap.value := by
    funext parent child
    cases found : s.heap.value parent <;> simp [Marking.Open, Sharing.Points, found]
  rw [marks, Marking.markAll_iff inside (pending_slots s.heap _)]
  simp only [Bool.false_eq_true, false_or, Marking.Clear, true_and, edges]
  rfl

omit [DecidableEq τ] in
theorem mem_dead_iff {world index : Nat} {others : List Ref} : index ∈ s.dead thread world others ↔
    Collectable s.heap world (.slot world index) ∧
      ¬ Sharing.Reaches (sharing s.heap.classClass) s.heap.value (s.held thread) (.slot world index) ∧
      .slot world index ∉ others := by
  simp only [dead, List.mem_filter, List.mem_range, Bool.and_eq_true, Option.any_eq_true,
    Bool.not_eq_true', decide_eq_true_eq, ← marks_iff, Bool.not_eq_true]
  constructor
  · rintro ⟨-, ⟨⟨v, found, different⟩, unmarked⟩, kept⟩
    exact ⟨⟨index, v, rfl, found, different⟩, unmarked, kept⟩
  · rintro ⟨⟨_, v, -, found, different⟩, unmarked, kept⟩
    exact ⟨slot_lt (by simp [found]), ⟨⟨v, found, different⟩, unmarked⟩, kept⟩

omit [DecidableEq τ] in
theorem sweep_dead (s : Threads τ κ) (thread : τ) (world : Nat) (others : List Ref) :
    Frees s.heap (sweep s.heap world (s.dead thread world others)) world
      (s.dead thread world others) := by
  refine sweep_frees (List.nodup_range.filter _) fun index member => ?_
  obtain ⟨⟨_, v, -, found, -⟩, -⟩ := mem_dead_iff.mp member
  simp [found]

/-! ## Steps -/

/-- How a step changes the heap, and where what its thread holds afterwards comes from. -/
inductive Effect (worlds : τ → Nat) (thread : τ) (s s' : Threads τ κ) : Prop
  | look (heap : s'.heap = s.heap) (held : ∀ ref ∈ s'.held thread, ref.literal = true ∨
      Sharing.Reaches (sharing s.heap.classClass) s.heap.value (s.held thread) ref)
  | change (ref : Ref) (v : Value κ) (replaces : Replaces s.heap s'.heap ref v)
      (held : ∀ start ∈ s'.held thread, start = ref ∨
        Sharing.Reaches (sharing s.heap.classClass) s.heap.value (s.held thread) start)
      (pointers : ∀ child ∈ (sharing s.heap.classClass).pointers v,
        Sharing.Reaches (sharing s.heap.classClass) s.heap.value (s.held thread) child)
      (own : (∃ index, ref = .slot (worlds thread) index) ∧ s.heap.value ref = none ∨
        Sharing.Reaches (sharing s.heap.classClass) s.heap.value (s.held thread) ref ∧
          Sharing.Changeable (sharing s.heap.classClass) s.heap.value ref)
      (arenas : ∀ world, world ≠ worlds thread →
        s'.heap.allocator world = s.heap.allocator world)
  | free (freed : List Nat) (frees : Frees s.heap s'.heap (worlds thread) freed)
      (held : s'.held thread = s.held thread)
      (dead : ∀ index ∈ freed, Collectable s.heap (worlds thread) (.slot (worlds thread) index) ∧
        ¬ Sharing.Reaches (sharing s.heap.classClass) s.heap.value (s.held thread)
          (.slot (worlds thread) index))

theorem step_effect (wellFormed : s.heap.WellFormed)
    (taken : s.step worlds (thread, act) = some s') :
    (∀ other, other ≠ thread → s'.held other = s.held other) ∧ Effect worlds thread s s' := by
  have reached {ref : Ref} (member : ref ∈ s.held thread) :
      Sharing.Reaches (sharing s.heap.classClass) s.heap.value (s.held thread) ref := .of_mem member
  cases act with
  | literal ref =>
      simp only [step] at taken
      split at taken
      case isTrue literal =>
        cases taken
        refine ⟨fun other elsewhere => Function.update_of_ne elsewhere _ _, .look rfl ?_⟩
        intro start member
        simp only [hold, Function.update_self, List.singleton_append, List.mem_cons] at member
        rcases member with rfl | member
        · exact .inl literal
        · exact .inr (reached member)
      case isFalse => cases taken
  | read ref =>
      simp only [step] at taken
      split at taken
      case isTrue holds =>
        obtain ⟨v, found, rfl⟩ := Option.map_eq_some_iff.mp taken
        refine ⟨fun other elsewhere => Function.update_of_ne elsewhere _ _, .look rfl ?_⟩
        intro start member
        simp only [hold, Function.update_self, List.mem_append] at member
        rcases member with pointer | member
        · exact .inr ((reached holds).step ⟨v, found, pointer⟩)
        · exact .inr (reached member)
      case isFalse => cases taken
  | alloc v =>
      simp only [step] at taken
      split at taken
      case isTrue children =>
        obtain ⟨⟨u, ref⟩, alloc, rfl⟩ := Option.map_eq_some_iff.mp taken
        obtain ⟨slot, free, replaces⟩ := objAlloc_replaces wellFormed alloc
        obtain ⟨arenas, -, -, -, elsewhere⟩ := objAlloc_allocator alloc
        refine ⟨fun other different => Function.update_of_ne different _ _,
          .change ref v replaces ?_ (fun child pointer => reached (children (pointers_subset pointer)))
            (.inl ⟨slot, free⟩) elsewhere⟩
        intro start member
        simp only [hold, Function.update_self, List.singleton_append, List.mem_cons] at member
        exact member.imp_right reached
      case isFalse => cases taken
  | write ref v =>
      simp only [step] at taken
      split at taken
      case isTrue guard =>
        obtain ⟨holds, children, -, before⟩ := guard
        obtain ⟨u, stores, rfl⟩ := Option.map_eq_some_iff.mp taken
        obtain ⟨content, found, replaceable⟩ := (Option.any_eq_true _ _).mp before
        refine ⟨fun _ _ => rfl, .change ref v (store_replaces stores) (fun start member =>
          .inr (reached member)) (fun child pointer => reached (children (pointers_subset pointer)))
          (.inr ⟨reached holds, content, found, ?_⟩) fun world _ => store_allocator stores⟩
        exact (of_decide_eq_true replaceable).1
      case isFalse => cases taken
  | keep refs =>
      simp only [step] at taken
      split at taken
      case isTrue subset =>
        cases taken
        refine ⟨fun other elsewhere => Function.update_of_ne elsewhere _ _,
          .look rfl fun ref member => .inr (reached (subset ?_))⟩
        simpa only [Function.update_self] using member
      case isFalse => cases taken
  | collect others =>
      obtain rfl := Option.some.inj taken
      refine ⟨fun _ _ => rfl, .free _ (sweep_dead s thread (worlds thread) others) rfl
        fun index member => ?_⟩
      obtain ⟨collectable, unreached, -⟩ := mem_dead_iff.mp member
      exact ⟨collectable, unreached⟩

theorem inert_literal {u : Universe κ} {classClass ref : Ref} (literal : ref.literal = true) :
    Sharing.Inert (sharing classClass) u.value ref := by
  have of_constant {ref : Ref} (unset : u.value ref = none)
      (constant : (sharing classClass : Sharing.Kind Ref (Value κ)).constant ref) :
      Sharing.Inert (sharing classClass) u.value ref := by
    refine ⟨fun child ⟨v, found, _⟩ => ?_, fun ⟨v, found, _⟩ => ?_, fun _ => constant⟩ <;>
      cases unset.symm.trans found
  cases ref with
  | nil => exact of_constant rfl (.inl rfl)
  | bool truth => exact of_constant rfl (.inr ⟨truth, rfl⟩)
  | constInt i =>
      refine ⟨fun child ⟨v, found, pointer⟩ => ?_, fun ⟨v, found, changes⟩ => ?_, fun unset => ?_⟩
      · cases found
        simp [sharing, Value.isClass, Value.children] at pointer
      · cases found
        simp [sharing, changeable, Value.mutable] at changes
      · cases unset
  | slot => cases literal

theorem changeable_not_class {classClass ref : Ref} {v : Value κ}
    (changes : changeable classClass ref v = true) : v.isClass classClass = false := by
  cases v with
  | obj klass ivars => simpa [changeable, Value.mutable] using changes
  | int | num | str | ary | map | code | lex | opaqueRef => rfl

omit [DecidableEq τ] in
/-- A value that one thread is about to change is reached by no other one. -/
theorem Separate.unreached (separate : s.Separate worlds) {ref : Ref} (different : other ≠ thread)
    (own : (∃ index, ref = .slot (worlds thread) index) ∧ s.heap.value ref = none ∨
      Sharing.Reaches (sharing s.heap.classClass) s.heap.value (s.held thread) ref ∧
        Sharing.Changeable (sharing s.heap.classClass) s.heap.value ref) :
    ¬ Sharing.Reaches (sharing s.heap.classClass) s.heap.value (s.held other) ref := by
  intro reaches
  rcases own with ⟨⟨index, rfl⟩, free⟩ | ⟨reached, changes⟩
  · rcases separate.live other _ reaches free with same | ⟨truth, same⟩ <;> cases same
  · exact separate.apart thread other different.symm ref changes reached reaches

omit [DecidableEq τ] in
/-- What a collection of one thread frees is reached by none. -/
theorem Separate.sweep_agrees (separate : s.Separate worlds) {u : Universe κ} {freed : List Nat}
    (frees : Frees s.heap u (worlds thread) freed)
    (dead : ∀ index ∈ freed, Collectable s.heap (worlds thread) (.slot (worlds thread) index) ∧
      ¬ Sharing.Reaches (sharing s.heap.classClass) s.heap.value (s.held thread)
        (.slot (worlds thread) index)) {target : Ref}
    (reaches : Sharing.Reaches (sharing s.heap.classClass) s.heap.value (s.held other) target) :
    u.value target = s.heap.value target := by
  rw [frees.value, if_neg]
  intro member
  obtain ⟨index, among, rfl⟩ := List.mem_map.mp member
  obtain ⟨collectable, unreached⟩ := dead index among
  by_cases here : other = thread
  · exact unreached (here ▸ reaches)
  · exact separate.own other thread here _ collectable reaches

theorem separate_step (distinct : worlds.Injective) (separate : s.Separate worlds)
    (taken : s.step worlds (thread, act) = some s') : s'.Separate worlds := by
  obtain ⟨others, effect⟩ := step_effect separate.wellFormed taken
  cases effect with
  | look heap held =>
      have first (ref : Ref) (member : ref ∈ s'.held thread) :
          Sharing.Inert (sharing s.heap.classClass) s.heap.value ref ∨
            Sharing.Reaches (sharing s.heap.classClass) s.heap.value (s.held thread) ref :=
        (held ref member).imp_left inert_literal
      refine ⟨heap ▸ separate.wellFormed, fun other => ?_, fun left right different => ?_,
        fun left right different target collectable reaches => ?_⟩
      · rw [heap]
        by_cases here : other = thread
        · exact here ▸ (separate.live thread).look first
        · exact others other here ▸ separate.live other
      · rw [heap]
        by_cases left_here : left = thread
        · subst left_here
          rw [others right different.symm]
          exact (separate.apart left right different).look first
        · rw [others left left_here]
          by_cases right_here : right = thread
          · subst right_here
            exact ((separate.apart right left different.symm).look first).symm
          · rw [others right right_here]
            exact separate.apart left right different
      · rw [heap] at collectable reaches
        refine separate.own left right different target collectable ?_
        by_cases here : left = thread
        · subst here
          rcases reaches.of_first first with ⟨member, -⟩ | before
          · refine (held target member).resolve_left fun literal => ?_
            obtain ⟨index, v, rfl, -⟩ := collectable
            cases literal
          · exact before
        · rwa [others left here] at reaches
  | change ref v replaces held pointers own arenas =>
      refine ⟨replaces.wellFormed separate.wellFormed, fun other => ?_, fun left right different => ?_,
        fun left right different target collectable reaches => ?_⟩
      · rw [replaces.value, replaces.classClass]
        by_cases here : other = thread
        · exact here ▸ (separate.live thread).change held pointers
        · rw [others other here]
          exact (separate.live other).elsewhere (separate.unreached here own)
      · rw [replaces.value, replaces.classClass]
        by_cases left_here : left = thread
        · subst left_here
          rw [others right different.symm]
          exact (separate.apart left right different).change (separate.unreached different.symm own)
            held pointers
        · rw [others left left_here]
          by_cases right_here : right = thread
          · subst right_here
            exact ((separate.apart right left different.symm).change
              (separate.unreached different own) held pointers).symm
          · rw [others right right_here]
            exact (separate.apart left right different).elsewhere (separate.unreached left_here own)
              (separate.unreached right_here own)
      · obtain ⟨index, content, slot, found, different_kind⟩ := collectable
        rw [replaces.value] at found
        rw [replaces.classClass] at different_kind
        rw [replaces.value, replaces.classClass] at reaches
        have earlier (elsewhere : target ≠ ref) : ¬ Sharing.Reaches (sharing s.heap.classClass)
            s.heap.value (s.held left) target := by
          rw [Function.update_of_ne elsewhere] at found
          exact separate.own left right different target ⟨index, content, slot, found, different_kind⟩
        by_cases here : left = thread
        · subst here
          by_cases same : target = ref
          · subst same
            -- the slot is of the thread's own world, or it held a value that could change before
            rcases own with ⟨⟨fresh, here⟩, -⟩ | ⟨reached, before, found_before, changes⟩
            · exact different (distinct (Ref.slot.inj (here.symm.trans slot)).1)
            · exact separate.own left right different target
                ⟨index, before, slot, found_before, changeable_not_class changes⟩ reached
          · exact earlier same ((Sharing.reaches_update reaches held pointers).resolve_left same)
        · rw [others left here, Sharing.reaches_update_iff (separate.unreached here own)] at reaches
          exact earlier (fun same => separate.unreached here own (same ▸ reaches)) reaches
  | free freed frees held dead =>
      have holds (other : τ) : s'.held other = s.held other := by
        by_cases here : other = thread
        · rw [here, held]
        · exact others other here
      have agrees (other : τ) (target : Ref) (reaches : Sharing.Reaches (sharing s.heap.classClass)
          s.heap.value (s.held other) target) : s'.heap.value target = s.heap.value target :=
        separate.sweep_agrees frees dead reaches
      refine ⟨frees.wellFormed separate.wellFormed, fun other => ?_, fun left right different => ?_,
        fun left right different target collectable reaches => ?_⟩
      · rw [holds, frees.classClass]
        exact (separate.live other).of_agree (agrees other)
      · rw [holds, holds, frees.classClass]
        exact (separate.apart left right different).of_agree (agrees left) (agrees right)
      · rw [holds, frees.classClass, Sharing.reaches_iff_of_agree (agrees left)] at reaches
        obtain ⟨index, v, rfl, found, different_kind⟩ := collectable
        rw [agrees left _ reaches] at found
        rw [frees.classClass] at different_kind
        exact separate.own left right different _ ⟨index, v, rfl, found, different_kind⟩ reaches

/-! ## A thread by itself -/

/-- What a thread gets to see, and what its collections find, is the same in both states. -/
structure Agrees (worlds : τ → Nat) (thread : τ) (s solo : Threads τ κ) : Prop where
  held : solo.held thread = s.held thread
  classClass : solo.heap.classClass = s.heap.classClass
  values : ∀ ref, Sharing.Reaches (sharing s.heap.classClass) s.heap.value (s.held thread) ref →
    solo.heap.value ref = s.heap.value ref
  arena : ∀ index, solo.heap.value (.slot (worlds thread) index) =
    s.heap.value (.slot (worlds thread) index)
  allocator : solo.heap.allocator (worlds thread) = s.heap.allocator (worlds thread)

/-- Steps of other threads do not show. -/
theorem Agrees.step_other (agrees : Agrees worlds thread s solo) (separate : s.Separate worlds)
    (distinct : worlds.Injective) (different : thread ≠ other)
    (taken : s.step worlds (other, act) = some s') : Agrees worlds thread s' solo := by
  obtain ⟨others, effect⟩ := step_effect separate.wellFormed taken
  have held : s'.held thread = s.held thread := others thread different
  have worlds_differ : worlds thread ≠ worlds other := fun same => different (distinct same)
  cases effect with
  | look heap =>
      constructor
      · rw [held, agrees.held]
      · rw [heap, agrees.classClass]
      · rw [heap, held]
        exact agrees.values
      · rw [heap]
        exact agrees.arena
      · rw [heap, agrees.allocator]
  | change ref v replaces _ _ own arenas =>
      have unreached := separate.unreached different own
      constructor
      · rw [held, agrees.held]
      · rw [replaces.classClass, agrees.classClass]
      · intro target reaches
        rw [replaces.value, replaces.classClass, held,
          Sharing.reaches_update_iff unreached] at reaches
        rw [replaces.value, Sharing.update_agrees unreached reaches, agrees.values target reaches]
      · intro index
        rw [replaces.value, agrees.arena, Function.update_of_ne]
        rintro rfl
        rcases own with ⟨⟨fresh, here⟩, -⟩ | ⟨reached, before, found, changes⟩
        · exact worlds_differ (Ref.slot.inj here).1
        · exact separate.own other thread different.symm _
            ⟨index, before, rfl, found, changeable_not_class changes⟩ reached
      · rw [arenas _ worlds_differ, agrees.allocator]
  | free freed frees _ dead =>
      have same (target : Ref) (reaches : Sharing.Reaches (sharing s.heap.classClass) s.heap.value
          (s.held thread) target) : s'.heap.value target = s.heap.value target :=
        separate.sweep_agrees frees dead reaches
      constructor
      · rw [held, agrees.held]
      · rw [frees.classClass, agrees.classClass]
      · intro target reaches
        rw [frees.classClass, held, Sharing.reaches_iff_of_agree same] at reaches
        rw [same target reaches, agrees.values target reaches]
      · intro index
        rw [frees.value, if_neg, agrees.arena]
        intro member
        obtain ⟨_, -, here⟩ := List.mem_map.mp member
        exact worlds_differ (Ref.slot.inj here).1.symm
      · rw [frees.elsewhere _ worlds_differ, agrees.allocator]

omit [DecidableEq τ] in
/-- Both states undergo the same change. -/
theorem Agrees.change {solo' : Threads τ κ} {ref : Ref} {v : Value κ}
    (agrees : Agrees worlds thread s solo) (replaces : Replaces s.heap s'.heap ref v)
    (solo_replaces : Replaces solo.heap solo'.heap ref v)
    (held : ∀ start ∈ s'.held thread, start = ref ∨ start ∈ s.held thread)
    (children : v.children ⊆ s.held thread) (same_held : solo'.held thread = s'.held thread)
    (allocator : solo'.heap.allocator (worlds thread) = s'.heap.allocator (worlds thread)) :
    Agrees worlds thread s' solo' := by
  refine ⟨same_held, ?_, fun target reaches => ?_, fun index => ?_, allocator⟩
  · rw [replaces.classClass, solo_replaces.classClass, agrees.classClass]
  · rw [replaces.value, solo_replaces.value]
    by_cases here : target = ref
    · rw [here, Function.update_self, Function.update_self]
    · rw [Function.update_of_ne here, Function.update_of_ne here]
      rw [replaces.value, replaces.classClass] at reaches
      refine agrees.values target ((Sharing.reaches_update reaches (fun start member =>
        (held start member).imp_right .of_mem) fun child pointer => ?_).resolve_left here)
      exact .of_mem (children (pointers_subset pointer))
  · rw [replaces.value, solo_replaces.value, Function.update_apply, Function.update_apply,
      agrees.arena]

omit [DecidableEq τ] in
/-- A collection finds the same. -/
theorem Agrees.dead (agrees : Agrees worlds thread s solo) (others : List Ref) :
    solo.dead thread (worlds thread) others = s.dead thread (worlds thread) others := by
  have marks (index : Nat) : solo.marks thread (.slot (worlds thread) index) =
      s.marks thread (.slot (worlds thread) index) := by
    rw [Bool.eq_iff_iff, marks_iff, marks_iff, agrees.classClass, agrees.held]
    exact Sharing.reaches_iff_of_agree agrees.values
  have count : (solo.heap.worlds[worlds thread]?).map (fun w => w.slots.length) =
      (s.heap.worlds[worlds thread]?).map fun w => w.slots.length := by
    have lengths := congrArg (Option.map Prod.snd) agrees.allocator
    simp only [Universe.allocator, Option.map_map] at lengths
    exact lengths
  simp only [Threads.dead, count, marks, agrees.arena, agrees.classClass]

/-- A thread can do by itself what it does among others, and it reads the same. -/
theorem Agrees.step_own (agrees : Agrees worlds thread s solo) (separate : s.Separate worlds)
    (separate_solo : solo.Separate worlds) (taken : s.step worlds (thread, act) = some s') :
    solo.observed (thread, act) = s.observed (thread, act) ∧
      ∃ solo', solo.step worlds (thread, act) = some solo' ∧ Agrees worlds thread s' solo' := by
  have holds (refs : List Ref) : solo.hold thread refs thread = s.hold thread refs thread := by
    simp only [hold, Function.update_self, agrees.held]
  cases act with
  | literal ref =>
      simp only [step] at taken ⊢
      split at taken
      case isTrue literal =>
        cases taken
        refine ⟨rfl, _, if_pos literal, holds [ref], agrees.classClass, fun target reaches => ?_,
          agrees.arena, agrees.allocator⟩
        have first (start : Ref) (member : start ∈ s.hold thread [ref] thread) :
            start = ref ∨ start ∈ s.held thread := by
          simpa only [hold, Function.update_self, List.singleton_append, List.mem_cons] using member
        have inert (start : Ref) (same : start = ref) :
            Sharing.Inert (sharing s.heap.classClass) s.heap.value start :=
          inert_literal (same ▸ literal)
        rcases reaches.of_first fun start member => (first start member).imp (inert start) .of_mem with
          ⟨member, -⟩ | before
        · rcases first target member with rfl | member
          · cases target with
            | slot => cases literal
            | nil | bool | constInt => rfl
          · exact agrees.values target (.of_mem member)
        · exact agrees.values target before
      case isFalse => cases taken
  | read ref =>
      simp only [step] at taken ⊢
      split at taken
      case isTrue member =>
        obtain ⟨v, found, rfl⟩ := Option.map_eq_some_iff.mp taken
        have same := agrees.values ref (.of_mem member)
        refine ⟨same, _, by rw [if_pos (agrees.held ▸ member), same, found]; rfl, ?_⟩
        refine ⟨agrees.classClass ▸ holds _, agrees.classClass, fun target reaches => ?_,
          agrees.arena, agrees.allocator⟩
        refine agrees.values target (reaches.trans fun start member_start => ?_)
        simp only [hold, Function.update_self, List.mem_append] at member_start
        rcases member_start with pointer | held
        · exact (Sharing.Reaches.of_mem member).step ⟨v, found, pointer⟩
        · exact .of_mem held
      case isFalse => cases taken
  | alloc v =>
      simp only [step] at taken ⊢
      split at taken
      case isTrue children =>
        obtain ⟨⟨u, ref⟩, alloc, rfl⟩ := Option.map_eq_some_iff.mp taken
        obtain ⟨arenas, first, rfl, last, -⟩ := objAlloc_allocator alloc
        have set : (objAlloc solo.heap (worlds thread) v).isSome :=
          objAlloc_isSome (by rw [agrees.allocator, first]; rfl)
        obtain ⟨⟨solo_u, solo_ref⟩, solo_alloc⟩ := Option.isSome_iff_exists.mp set
        obtain ⟨solo_arenas, solo_first, rfl, solo_last, -⟩ := objAlloc_allocator solo_alloc
        rw [agrees.allocator, first] at solo_first
        obtain rfl := Option.some.inj solo_first
        refine ⟨rfl, _, by rw [if_pos (agrees.held ▸ children), solo_alloc]; rfl, ?_⟩
        refine agrees.change (objAlloc_replaces separate.wellFormed alloc).2.2
          (objAlloc_replaces separate_solo.wellFormed solo_alloc).2.2 (fun start member => ?_) children
          (holds _) (solo_last.trans last.symm)
        simpa only [hold, Function.update_self, List.singleton_append, List.mem_cons] using member
      case isFalse => cases taken
  | write ref v =>
      simp only [step] at taken ⊢
      split at taken
      case isTrue guard =>
        obtain ⟨u, stores, rfl⟩ := Option.map_eq_some_iff.mp taken
        have same := agrees.values ref (.of_mem guard.1)
        obtain ⟨world, index, before, rfl, found, -⟩ := store_eq_some_iff.mp stores
        have solo_stores : store solo.heap (.slot world index) v =
            some (solo.heap.setSlot world index (some v)) :=
          store_eq_some_iff.mpr ⟨world, index, before, rfl, same.trans found, rfl⟩
        refine ⟨rfl, { solo with heap := solo.heap.setSlot world index (some v) }, ?_, ?_⟩
        · rw [agrees.held, agrees.classClass, same, if_pos guard, solo_stores]
          rfl
        · refine agrees.change (store_replaces stores) (store_replaces solo_stores)
            (fun start member => .inr member) guard.2.1 agrees.held ?_
          rw [store_allocator stores, store_allocator solo_stores, agrees.allocator]
      case isFalse => cases taken
  | keep refs =>
      simp only [step] at taken ⊢
      split at taken
      case isTrue subset =>
        cases taken
        refine ⟨rfl, _, if_pos (agrees.held ▸ subset), by simp only [Function.update_self],
          agrees.classClass, fun target reaches => ?_, agrees.arena, agrees.allocator⟩
        simp only [Function.update_self] at reaches
        exact agrees.values target (reaches.mono subset)
      case isFalse => cases taken
  | collect others =>
      obtain rfl := Option.some.inj taken
      have frees := sweep_dead s thread (worlds thread) others
      have solo_frees := sweep_dead solo thread (worlds thread) others
      have solo_taken : solo.step worlds (thread, .collect others) = some { solo with
          heap := sweep solo.heap (worlds thread) (s.dead thread (worlds thread) others) } := by
        rw [← agrees.dead]
        rfl
      rw [agrees.dead] at solo_frees
      refine ⟨rfl, _, solo_taken, agrees.held, ?_, fun target reaches => ?_, fun index => ?_, ?_⟩
      · exact solo_frees.classClass.trans (agrees.classClass.trans frees.classClass.symm)
      · have kept (target : Ref) (reaches : Sharing.Reaches (sharing s.heap.classClass) s.heap.value
            (s.held thread) target) :=
          separate.sweep_agrees frees
            (fun index member => (mem_dead_iff.mp member).imp_right And.left) reaches
        simp only [frees.classClass, Sharing.reaches_iff_of_agree kept] at reaches
        rw [frees.value, solo_frees.value, agrees.values target reaches]
      · rw [frees.value, solo_frees.value, agrees.arena]
      · rw [frees.allocator, solo_frees.allocator, agrees.allocator]

omit [DecidableEq τ] in
theorem Agrees.refl : Agrees worlds thread s s :=
  ⟨rfl, rfl, fun _ _ => rfl, fun _ => rfl, rfl⟩

/-- A thread can do by itself all that it does in a run, and it reads the same. -/
theorem Agrees.run (distinct : worlds.Injective) {labels : List (τ × Act κ)} {final : Threads τ κ}
    (agrees : Agrees worlds thread s solo) (separate : s.Separate worlds)
    (separate_solo : solo.Separate worlds)
    (executed : Execution.run (step worlds) s labels = some final) :
    s.reads worlds thread labels =
      solo.reads worlds thread (labels.filter fun label => label.1 = thread) := by
  induction labels generalizing s solo with
  | nil => rfl
  | cons label labels ih =>
      obtain ⟨next, taken, rest⟩ := Execution.run_cons_iff.mp executed
      obtain ⟨other, act⟩ := label
      have separate_next := separate_step distinct separate taken
      simp only [reads, taken]
      by_cases here : other = thread
      · subst here
        obtain ⟨same, solo', solo_taken, agrees'⟩ := agrees.step_own separate separate_solo taken
        rw [List.filter_cons_of_pos (by simp), if_pos rfl]
        simp only [reads, solo_taken, if_true]
        rw [same, ih agrees' separate_next (separate_step distinct separate_solo solo_taken) rest]
      · rw [List.filter_cons_of_neg (by simpa using here), if_neg here]
        exact ih (agrees.step_other separate distinct (Ne.symm here) taken) separate_next separate_solo
          rest

/-- Threads that are apart and have a world each do not interfere. -/
theorem nonInterfering_of_separate (distinct : worlds.Injective) (separate : s.Separate worlds) :
    s.NonInterfering worlds := by
  intro thread left right leftFinal rightFinal same left_run right_run
  rw [Agrees.refl.run distinct separate separate left_run,
    Agrees.refl.run distinct separate separate right_run, same]

end Threads

end Threads

end Heap
end Pone
