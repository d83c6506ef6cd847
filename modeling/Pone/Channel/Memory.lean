import Mathlib.Data.List.Basic
import Mathlib.Data.List.GetD

/-!
# The world of a channel

`chan->world` is a world of its own, whose arenas hold the buffer and the copies in it.  Every value in
it is on its `tmpstack`, which nothing rewinds, or is its `lex`; a collection marks all of these, and
what they point to adds nothing.
-/

namespace Pone
namespace Channel

/-- What a slot of the arenas holds: what `pone_world_new` and `pone_chan_new` allocate, or a value. -/
inductive Content (α : Type*) where
  | lex
  | callerStack
  | buffer
  | val (v : α)
  deriving DecidableEq

def Content.isBuffer {α : Type*} : Content α → Bool
  | .buffer => true
  | .lex | .callerStack | .val _ => false

/-- A slot of an arena. -/
structure Slot (α : Type*) where
  /-- `none` after `pone_val_free`. -/
  content : Option (Content α)
  /-- `PONE_FLAGS_GC_MARK`. -/
  marked : Bool
  /-- The slot is on `tmpstack`. -/
  saved : Bool
  deriving DecidableEq

/-- The sweep frees the slot. -/
def Slot.Dead {α : Type*} (slot : Slot α) : Prop := slot.content.isSome ∧ slot.marked = false

instance {α : Type*} (slot : Slot α) : Decidable slot.Dead := inferInstanceAs (Decidable (_ ∧ _))

/-- A `pone_val*` in the buffer. -/
inductive Ref (α : Type*) where
  | slot (index : Nat)
  /-- `nil` or a boolean, which all worlds share. -/
  | static (v : α)
  deriving DecidableEq

/-- `chan->world`; its `lex` is in the slot 0. -/
structure World (α : Type*) where
  slots : List (Slot α)
  freelist : List Nat
  gcRequested : Bool
  deriving DecidableEq

/-- `PONE_ARENA_SIZE`. -/
def arenaSize : Nat := 1024

namespace World

variable {α : Type*}

/-- `pone_world_new`, and the `pone_ary_new` of `pone_chan_new`.  The entry of the lex on `tmpstack` is
dropped. -/
def worldNew : World α where
  slots := [⟨some .lex, false, false⟩, ⟨some .callerStack, false, true⟩, ⟨some .buffer, false, true⟩]
  freelist := []
  gcRequested := false

/-- `pone_obj_alloc` and the initialisation of the value.  Where the last arena is full a new one is made
and a collection requested. -/
def objAlloc (w : World α) (v : α) : World α × Nat :=
  match w.freelist with
  | index :: rest =>
      ({ w with slots := w.slots.set index ⟨some (.val v), false, true⟩, freelist := rest }, index)
  | [] =>
      let index := w.slots.length
      let full := index ≠ 0 ∧ index % arenaSize = 0
      ({ w with
          slots := w.slots ++ [⟨some (.val v), false, true⟩]
          gcRequested := w.gcRequested || full }, index)

/-- The `pone_val_copy` of a value into this world, once it is known what it copies to.  `inner` tells
what the values are that the copy contains, each in a slot of its own, in the order in which they are
allocated; it is `none` for the values that have no slot. -/
def valCopy (inner : α → Option (List α)) (w : World α) (copied : α) : World α × Ref α :=
  match inner copied with
  | none => (w, .static copied)
  | some values =>
      let allocated := w.objAlloc copied
      (values.foldl (fun w v => (w.objAlloc v).1) allocated.1, .slot allocated.2)

/-- What `pone_val_copy` finds behind a pointer; it aborts on a value that has been freed. -/
def read (w : World α) : Ref α → Option α
  | .static v => some v
  | .slot index =>
      match w.slots[index]? with
      | some ⟨some (.val v), _, _⟩ => some v
      | _ => none

/-- The buffer has not been freed. -/
def HoldsBuffer (w : World α) : Prop :=
  ((w.slots[2]?).bind Slot.content).any Content.isBuffer = true

instance (w : World α) : Decidable w.HoldsBuffer := inferInstanceAs (Decidable (_ = true))

/-- `pone_save_tmp`. -/
def saveTmp (w : World α) : Ref α → World α
  | .static _ => w
  | .slot index => { w with slots := w.slots.modify index fun slot => { slot with saved := true } }

/-- What `pone_world_mark` marks: the lex, and what is on `tmpstack`. -/
def markSlots : List (Slot α) → List (Slot α)
  | [] => []
  | lex :: rest =>
      { lex with marked := true } ::
        rest.map fun slot => if slot.saved then { slot with marked := true } else slot

/-- `pone_gc_mark`. -/
def gcMark (w : World α) : World α := { w with slots := markSlots w.slots }

/-- One slot in `pone_gc_collect`. -/
def sweepSlot (slot : Slot α) : Slot α :=
  if slot.content.isNone then slot
  else if slot.marked then { slot with marked := false }
  else { slot with content := none }

/-- The freed slots, from `index` on. -/
def dead : Nat → List (Slot α) → List Nat
  | _, [] => []
  | index, slot :: rest => if slot.Dead then index :: dead (index + 1) rest else dead (index + 1) rest

/-- `pone_gc_collect`, and the assignment to `gc_requested` after it.  What is freed first is last on
the freelist. -/
def gcCollect (w : World α) : World α where
  slots := w.slots.map sweepSlot
  freelist := (dead 0 w.slots).reverse ++ w.freelist
  gcRequested := false

/-- The values of one world are found in the other. -/
def Keeps (w w' : World α) : Prop :=
  ∀ (index : Nat) (slot : Slot α), w.slots[index]? = some slot →
    ∃ slot' : Slot α, w'.slots[index]? = some slot' ∧ slot'.content = slot.content

/-- Nothing has been freed, and a collection would mark everything. -/
structure Whole (w : World α) : Prop where
  freelist : w.freelist = []
  saved : ∀ (index : Nat) (slot : Slot α), w.slots[index]? = some slot →
    index = 0 ∨ slot.saved = true
  buffer : w.HoldsBuffer

/-- The sweep frees nothing. -/
def AllMarked (w : World α) : Prop := ∀ slot ∈ w.slots, slot.marked = true

section Lemmas

variable {w w' w'' : World α} {v : α}

theorem Keeps.refl (w : World α) : Keeps w w := fun _ slot found => ⟨slot, found, rfl⟩

theorem Keeps.trans (first : Keeps w w') (second : Keeps w' w'') : Keeps w w'' := by
  intro index slot found
  obtain ⟨slot', found', same⟩ := first index slot found
  obtain ⟨slot'', found'', same'⟩ := second index slot' found'
  exact ⟨slot'', found'', same'.trans same⟩

theorem read_slot {index : Nat} :
    w.read (.slot index) = some v ↔ (w.slots[index]?).bind Slot.content = some (.val v) := by
  simp only [read]
  cases w.slots[index]? with
  | none => simp
  | some slot =>
      obtain ⟨content, marked, saved⟩ := slot
      cases content with
      | none => simp
      | some content => cases content <;> simp

theorem Keeps.content (keeps : Keeps w w') {index : Nat} {content : Content α}
    (held : (w.slots[index]?).bind Slot.content = some content) :
    (w'.slots[index]?).bind Slot.content = some content := by
  obtain ⟨slot, found, same⟩ := Option.bind_eq_some_iff.mp held
  obtain ⟨slot', found', same'⟩ := keeps index slot found
  exact Option.bind_eq_some_iff.mpr ⟨slot', found', same'.trans same⟩

theorem holdsBuffer_iff : w.HoldsBuffer ↔ (w.slots[2]?).bind Slot.content = some .buffer := by
  unfold HoldsBuffer
  cases (w.slots[2]?).bind Slot.content with
  | none => simp
  | some content => cases content <;> simp [Content.isBuffer]

theorem Keeps.holdsBuffer (keeps : Keeps w w') (holds : w.HoldsBuffer) : w'.HoldsBuffer :=
  holdsBuffer_iff.mpr (keeps.content (holdsBuffer_iff.mp holds))

theorem Keeps.read (keeps : Keeps w w') {ref : Ref α} (found : w.read ref = some v) :
    w'.read ref = some v := by
  cases ref with
  | static v' => exact found
  | slot index => exact read_slot.mpr (keeps.content (read_slot.mp found))

theorem worldNew_whole : (worldNew : World α).Whole where
  freelist := rfl
  saved := by
    intro index slot found
    rcases index with _ | _ | _ | index
    · exact .inl rfl
    · cases found
      exact .inr rfl
    · cases found
      exact .inr rfl
    · cases found
  buffer := rfl

/-- While nothing is on the freelist, an allocation takes a new slot. -/
theorem Whole.objAlloc (whole : w.Whole) (v : α) :
    (w.objAlloc v).1.Whole ∧ Keeps w (w.objAlloc v).1 ∧
      (w.objAlloc v).1.read (.slot (w.objAlloc v).2) = some v := by
  have allocated : w.objAlloc v = ({ w with
      slots := w.slots ++ [⟨some (.val v), false, true⟩]
      gcRequested := w.gcRequested || (w.slots.length ≠ 0 ∧ w.slots.length % arenaSize = 0 : Bool) },
      w.slots.length) := by
    simp [World.objAlloc, whole.freelist]
  have keeps : Keeps w (w.objAlloc v).1 := by
    intro index slot found
    rw [allocated]
    obtain ⟨low, -⟩ := List.getElem?_eq_some_iff.mp found
    exact ⟨slot, by simp only; rwa [List.getElem?_append_left low], rfl⟩
  refine ⟨⟨?_, ?_, keeps.holdsBuffer whole.buffer⟩, keeps, ?_⟩
  · rw [allocated]
    exact whole.freelist
  · intro index slot found
    rw [allocated] at found
    rcases List.mem_append.mp (List.mem_of_getElem? found) with old | new
    · by_cases low : index < w.slots.length
      · simp only [List.getElem?_append_left low] at found
        exact whole.saved index slot found
      · simp only [List.getElem?_append_right (Nat.le_of_not_lt low)] at found
        obtain rfl := List.mem_singleton.mp (List.mem_of_getElem? found)
        exact .inr rfl
    · obtain rfl := List.mem_singleton.mp new
      exact .inr rfl
  · rw [allocated, read_slot]
    simp

/-- A value that is copied into the world is found behind the pointer to the copy. -/
theorem Whole.valCopy (whole : w.Whole) (inner : α → Option (List α)) (copied : α) :
    (w.valCopy inner copied).1.Whole ∧ Keeps w (w.valCopy inner copied).1 ∧
      (w.valCopy inner copied).1.read (w.valCopy inner copied).2 = some copied := by
  have further (values : List α) {w₁ : World α} (whole₁ : w₁.Whole) :
      (values.foldl (fun w v => (w.objAlloc v).1) w₁).Whole ∧
        Keeps w₁ (values.foldl (fun w v => (w.objAlloc v).1) w₁) := by
    induction values generalizing w₁ with
    | nil => exact ⟨whole₁, .refl w₁⟩
    | cons value rest ih =>
        obtain ⟨whole₂, keeps, -⟩ := whole₁.objAlloc value
        obtain ⟨whole₃, keeps'⟩ := ih whole₂
        exact ⟨whole₃, keeps.trans keeps'⟩
  unfold World.valCopy
  cases inner copied with
  | none => exact ⟨whole, .refl w, rfl⟩
  | some values =>
      obtain ⟨whole₁, keeps, found⟩ := whole.objAlloc copied
      obtain ⟨whole₂, keeps'⟩ := further values whole₁
      exact ⟨whole₂, keeps.trans keeps', keeps'.read found⟩

theorem Whole.saveTmp (whole : w.Whole) (ref : Ref α) :
    (w.saveTmp ref).Whole ∧ Keeps w (w.saveTmp ref) ∧ (w.AllMarked → (w.saveTmp ref).AllMarked) := by
  cases ref with
  | static v => exact ⟨whole, .refl w, id⟩
  | slot index =>
      have keeps : Keeps w (w.saveTmp (.slot index)) := by
        intro other slot found
        refine ⟨if index = other then { slot with saved := true } else slot, ?_, ?_⟩
        · simp only [World.saveTmp, List.getElem?_modify, found]
          split <;> simp [*]
        · split <;> rfl
      refine ⟨⟨whole.freelist, ?_, keeps.holdsBuffer whole.buffer⟩, keeps, ?_⟩
      · intro other slot found
        simp only [World.saveTmp, List.getElem?_modify, Option.map_eq_map, Option.map_eq_some_iff] at found
        obtain ⟨slot', found', rfl⟩ := found
        split
        · exact .inr rfl
        · exact whole.saved other slot' found'
      · intro all slot among
        obtain ⟨other, found⟩ := List.mem_iff_getElem?.mp among
        simp only [World.saveTmp, List.getElem?_modify, Option.map_eq_map, Option.map_eq_some_iff] at found
        obtain ⟨slot', found', rfl⟩ := found
        have marked := all slot' (List.mem_of_getElem? found')
        split <;> exact marked

theorem getElem?_markSlots {slots : List (Slot α)}
    (saved : ∀ (index : Nat) (slot : Slot α), slots[index]? = some slot →
      index = 0 ∨ slot.saved = true) (index : Nat) :
    (markSlots slots)[index]? = (slots[index]?).map fun slot => { slot with marked := true } := by
  cases slots with
  | nil => rfl
  | cons lex rest =>
      cases index with
      | zero => rfl
      | succ index =>
          simp only [markSlots, List.getElem?_cons_succ, List.getElem?_map]
          cases found : rest[index]? with
          | none => rfl
          | some slot =>
              have on_stack := (saved (index + 1) slot found).resolve_left (Nat.succ_ne_zero index)
              simp only [Option.map_some, if_pos on_stack]

/-- A mark reaches everything. -/
theorem Whole.gcMark (whole : w.Whole) :
    w.gcMark.Whole ∧ Keeps w w.gcMark ∧ w.gcMark.AllMarked := by
  have found_iff {index : Nat} {slot : Slot α} (found : w.gcMark.slots[index]? = some slot) :
      ∃ slot', w.slots[index]? = some slot' ∧ slot = { slot' with marked := true } := by
    simp only [World.gcMark, getElem?_markSlots whole.saved, Option.map_eq_some_iff] at found
    obtain ⟨slot', found', rfl⟩ := found
    exact ⟨slot', found', rfl⟩
  have keeps : Keeps w w.gcMark := by
    intro index slot found
    refine ⟨{ slot with marked := true }, ?_, rfl⟩
    simp only [World.gcMark, getElem?_markSlots whole.saved, found, Option.map_some]
  refine ⟨⟨whole.freelist, ?_, keeps.holdsBuffer whole.buffer⟩, keeps, ?_⟩
  · intro index slot found
    obtain ⟨slot', found', rfl⟩ := found_iff found
    exact whole.saved index slot' found'
  · intro slot among
    obtain ⟨index, found⟩ := List.mem_iff_getElem?.mp among
    obtain ⟨slot', -, rfl⟩ := found_iff found
    rfl

theorem dead_of_marked {slots : List (Slot α)} (all : ∀ slot ∈ slots, slot.marked = true) :
    ∀ index, dead index slots = [] := by
  induction slots with
  | nil => exact fun _ => rfl
  | cons slot rest ih =>
      intro index
      have alive : ¬ slot.Dead := by simp [Slot.Dead, all slot List.mem_cons_self]
      rw [dead, if_neg alive]
      exact ih (fun other among => all other (List.mem_cons_of_mem _ among)) (index + 1)

/-- A sweep behind an undisturbed mark frees nothing. -/
theorem Whole.gcCollect (whole : w.Whole) (all : w.AllMarked) :
    w.gcCollect.Whole ∧ Keeps w w.gcCollect := by
  have swept {slot : Slot α} (among : slot ∈ w.slots) :
      (sweepSlot slot).content = slot.content ∧ (sweepSlot slot).saved = slot.saved := by
    have marked := all slot among
    unfold sweepSlot
    rw [if_pos marked]
    split <;> exact ⟨rfl, rfl⟩
  have keeps : Keeps w w.gcCollect := by
    intro index slot found
    refine ⟨sweepSlot slot, ?_, (swept (List.mem_of_getElem? found)).1⟩
    simp [World.gcCollect, found]
  refine ⟨⟨?_, ?_, keeps.holdsBuffer whole.buffer⟩, keeps⟩
  · simp [World.gcCollect, dead_of_marked all, whole.freelist]
  · intro index slot found
    simp only [World.gcCollect, List.getElem?_map, Option.map_eq_some_iff] at found
    obtain ⟨slot', found', rfl⟩ := found
    rw [(swept (List.mem_of_getElem? found')).2]
    exact whole.saved index slot' found'

end Lemmas

end World

end Channel
end Pone
