import Mathlib.Data.List.Infix
import Mathlib.Data.List.TakeDrop

/-!
# Blocks of memory that hold pointers

An allocated block as the pointers, or as the bytes, that fit into it.  Every access to one of them
names a signed index and fails outside the block.  What a program keeps at the front of a block is a
list, and the accesses in the block are the list operations.
-/

/-- What stands in the place of a pointer, or of a byte, which is never `null`. -/
inductive Cell (α : Type*) where
  | garbage
  | null
  | ptr (a : α)
  deriving DecidableEq

abbrev Block (α : Type*) := List (Cell α)

namespace Block

variable {α : Type*}

/-- A fresh block for `count` pointers. -/
def fresh (count : Nat) : Block α := List.replicate count .garbage

def read (b : Block α) (i : Int) : Option (Cell α) :=
  if 0 ≤ i then b[i.toNat]? else none

def write (b : Block α) (i : Int) (c : Cell α) : Option (Block α) :=
  if 0 ≤ i ∧ i < b.length then some (b.set i.toNat c) else none

/-- The same pointers, as far as they fit, in a block for `count` pointers. -/
def resize (b : Block α) (count : Nat) : Block α :=
  b.take count ++ fresh (count - b.length)

/-- `memmove` of `count` pointers; both ranges lie in the block unless they are empty. -/
def move (b : Block α) (dst src count : Nat) : Option (Block α) :=
  if count = 0 then some b
  else if src + count ≤ b.length ∧ dst + count ≤ b.length then
    some (b.take dst ++ (b.drop src).take count ++ b.drop (dst + count))
  else none

/-- `memcpy` of items into the block from position `i` on. -/
def store (b : Block α) (i : Nat) (items : List α) : Option (Block α) :=
  if i + items.length ≤ b.length then
    some (b.take i ++ items.map Cell.ptr ++ b.drop (i + items.length))
  else none

/-- The content of `count` places from position `i` on is lost. -/
def forget (b : Block α) (i count : Nat) : Option (Block α) :=
  if i + count ≤ b.length then some (b.take i ++ fresh count ++ b.drop (i + count)) else none

/-- The pointers to the items stand at the front of the block, in order. -/
def Holds (b : Block α) (items : List α) : Prop := items.map Cell.ptr <+: b

@[simp]
theorem length_fresh (count : Nat) : (fresh count : Block α).length = count :=
  List.length_replicate

@[simp]
theorem length_resize (b : Block α) (count : Nat) : (b.resize count).length = count := by
  simp only [resize, List.length_append, List.length_take, length_fresh]
  omega

theorem read_neg (b : Block α) {i : Int} (negative : i < 0) : b.read i = none :=
  if_neg (by omega)

theorem write_eq_none {b : Block α} {i : Int} (outside : i < 0 ∨ (b.length : Int) ≤ i)
    (c : Cell α) : b.write i c = none :=
  if_neg (by omega)

theorem length_of_write {b b' : Block α} {i : Int} {c : Cell α} (written : b.write i c = some b') :
    b'.length = b.length := by
  unfold write at written
  split at written
  · cases written
    exact List.length_set ..
  · cases written

theorem length_of_move {b b' : Block α} {dst src count : Nat}
    (moved : b.move dst src count = some b') : b'.length = b.length := by
  unfold move at moved
  split at moved
  · cases moved
    rfl
  · split at moved
    · next within =>
        cases moved
        simp only [List.length_append, List.length_take, List.length_drop]
        omega
    · cases moved

theorem length_of_store {b b' : Block α} {i : Nat} {items : List α}
    (stored : b.store i items = some b') : b'.length = b.length := by
  unfold store at stored
  split at stored
  · next within =>
      cases stored
      simp only [List.length_append, List.length_take, List.length_map, List.length_drop]
      omega
  · cases stored

theorem store_eq_none {b : Block α} {i : Nat} {items : List α}
    (outside : b.length < i + items.length) : b.store i items = none :=
  if_neg (by omega)

/-- A fresh block holds no items. -/
theorem not_holds_fresh (count : Nat) (item : α) (items : List α) :
    ¬ (fresh count).Holds (item :: items) := by
  intro holds
  have found : Cell.ptr item ∈ fresh count := holds.subset (List.mem_cons_self ..)
  cases List.eq_of_mem_replicate found

namespace Holds

variable {b : Block α} {items : List α}

theorem nil (b : Block α) : b.Holds [] := List.nil_prefix

theorem length_le (holds : b.Holds items) : items.length ≤ b.length := by
  simpa using List.IsPrefix.length_le holds

theorem read (holds : b.Holds items) {i : Nat} {item : α} (found : items[i]? = some item) :
    b.read i = some (.ptr item) := by
  obtain ⟨rest, rfl⟩ := holds
  obtain ⟨inside, rfl⟩ := List.getElem?_eq_some_iff.mp found
  simp [Block.read, List.getElem?_append, inside]

theorem of_append {more : List α} (holds : b.Holds (items ++ more)) : b.Holds items := by
  rw [Holds, List.map_append] at holds
  exact (List.prefix_append _ _).trans holds

/-- A pointer written behind the items is one more item. -/
theorem write_end (holds : b.Holds items) (room : items.length < b.length) (item : α) :
    ∃ b', b.write items.length (.ptr item) = some b' ∧ b'.Holds (items ++ [item]) := by
  obtain ⟨rest, rfl⟩ := holds
  cases rest with
  | nil => simp at room
  | cons c rest =>
      refine ⟨_, if_pos ⟨by omega, by omega⟩, rest, ?_⟩
      simp

/-- Items copied behind the items are further items. -/
theorem store_end {more : List α} (holds : b.Holds items)
    (room : items.length + more.length ≤ b.length) :
    ∃ b', b.store items.length more = some b' ∧ b'.Holds (items ++ more) := by
  obtain ⟨rest, rfl⟩ := holds
  refine ⟨_, if_pos room, rest.drop more.length, ?_⟩
  have front : (items.map Cell.ptr ++ rest).take items.length = items.map Cell.ptr := by
    rw [List.take_append_of_le_length (by simp), List.take_of_length_le (by simp)]
  have back : (items.map Cell.ptr ++ rest).drop (items.length + more.length) =
      rest.drop more.length := by
    simp [List.drop_append]
  rw [front, back, List.map_append]

/-- A pointer written among the items replaces one of them. -/
theorem write_among (holds : b.Holds items) {i : Nat} (inside : i < items.length) (item : α) :
    ∃ b', b.write i (.ptr item) = some b' ∧ b'.Holds (items.set i item) := by
  have room := holds.length_le
  obtain ⟨rest, rfl⟩ := holds
  refine ⟨_, if_pos ⟨by omega, by omega⟩, rest, ?_⟩
  simp [inside, List.map_set]

/-- Whatever is written at the last item, the items before it stay. -/
theorem write_last {item : α} (holds : b.Holds (items ++ [item])) (c : Cell α) :
    ∃ b', b.write items.length c = some b' ∧ b'.Holds items := by
  obtain ⟨rest, rfl⟩ := holds
  have inside : (items.length : Int) < (((items ++ [item]).map Cell.ptr) ++ rest).length := by
    rw [List.length_append, List.length_map, List.length_append, List.length_singleton]
    omega
  refine ⟨_, if_pos ⟨by omega, inside⟩, c :: rest, ?_⟩
  simp

/-- A block that is no smaller than the items keeps them when it is resized. -/
theorem resize (holds : b.Holds items) {count : Nat} (covers : items.length ≤ count) :
    (b.resize count).Holds items := by
  obtain ⟨rest, rfl⟩ := holds
  refine ⟨rest.take (count - items.length) ++
    fresh (count - (items.map Cell.ptr ++ rest).length), ?_⟩
  simp [Block.resize, List.take_append, List.take_of_length_le, covers]

/-- The items moved up by one place and a pointer written before them. -/
theorem move_up (holds : b.Holds items) (room : items.length < b.length) (item : α) :
    ∃ b' b'', b.move 1 0 items.length = some b' ∧ b'.write 0 (.ptr item) = some b'' ∧
      b''.Holds (item :: items) := by
  obtain ⟨rest, rfl⟩ := holds
  cases rest with
  | nil => simp at room
  | cons c rest =>
      have within : 0 + items.length ≤ (items.map Cell.ptr ++ c :: rest).length ∧
          1 + items.length ≤ (items.map Cell.ptr ++ c :: rest).length := by
        simp only [List.length_append, List.length_map, List.length_cons]
        omega
      by_cases none_moved : items.length = 0
      · rw [List.length_eq_zero_iff] at none_moved
        subst none_moved
        exact ⟨_, _, rfl, if_pos ⟨by omega, by simp⟩, rest, by simp⟩
      · refine ⟨_, _, (if_neg none_moved).trans (if_pos within), if_pos ⟨by omega, ?_⟩,
          (items.map Cell.ptr ++ c :: rest).drop (1 + items.length), ?_⟩
        · simp
          omega
        · cases items with
          | nil => simp at none_moved
          | cons head tail => simp [List.take_append]

/-- The items behind the first one moved down by one place. -/
theorem move_down {item : α} (holds : b.Holds (item :: items)) :
    ∃ b', b.move 0 1 items.length = some b' ∧ b'.Holds items := by
  obtain ⟨rest, rfl⟩ := holds
  by_cases none_moved : items.length = 0
  · rw [List.length_eq_zero_iff] at none_moved
    subst none_moved
    exact ⟨_, rfl, nil _⟩
  · have within : 1 + items.length ≤ ((item :: items).map Cell.ptr ++ rest).length ∧
        0 + items.length ≤ ((item :: items).map Cell.ptr ++ rest).length := by
      simp only [List.length_append, List.length_map, List.length_cons]
      omega
    refine ⟨_, (if_neg none_moved).trans (if_pos within),
      ((item :: items).map Cell.ptr ++ rest).drop (0 + items.length), ?_⟩
    simp

end Holds

end Block
