import Pone.Simulation
import Pone.Str.Cells

/-!
# Value semantics of strings

Appending detaches a copy from its source, but nothing detaches the copies of a string that is
itself written.  The strings behave as values exactly as long as no string with a copy changes, no
string is appended to itself through a buffer that moves, and no copy is truncated.
-/

namespace Pone
namespace Str

open Cow (Backward Unshared Holds)
open Simulation (Agrees Follows Always Within not_agrees_error)
open Simulation (orHalt)

/-- A string as a value. -/
structure Text where
  isConst : Bool
  bytes : List UInt8

/-- The value of a string. -/
def bytesAt (texts : List Text) (i : Nat) : List UInt8 := ((texts[i]?).map Text.bytes).getD []

def constAt (texts : List Text) (i : Nat) : Bool := ((texts[i]?).map Text.isConst).getD false

def setBytes (texts : List Text) (i : Nat) (bytes : List UInt8) : List Text :=
  texts.set i { isConst := constAt texts i, bytes }

def specAppend (texts : List Text) (i : Nat) (p : List UInt8) : List Text × Answer :=
  if constAt texts i then (texts, .throws "You can't modify immutable string")
  else (setBytes texts i (bytesAt texts i ++ p), .done)

/-- The operations on values. -/
def specStep (texts : List Text) : Op → List Text × Answer
  | .newStrdup p | .newMalloc p | .newVprintf p =>
      (texts ++ [{ isConst := false, bytes := p }], .done)
  | .newAllocd block len => (texts ++ [{ isConst := false, bytes := block.take len }], .done)
  | .newConst block len => (texts ++ [{ isConst := true, bytes := block.take len }], .done)
  | .copy val => (texts ++ [{ isConst := false, bytes := bytesAt texts val }], .done)
  | .concat v1 v2 =>
      (texts ++ [{ isConst := false, bytes := bytesAt texts v1 ++ bytesAt texts v2 }], .done)
  | .truncate val len => (setBytes texts val ((bytesAt texts val).take len), .done)
  | .appendC val p => specAppend texts val p
  | .append str v => specAppend texts str (bytesAt texts v)
  | .appendf str text => specAppend (texts ++ [{ isConst := false, bytes := text }]) str text

/-- The operation is on strings that exist and does not lengthen a string by truncation. -/
def Op.InDomain (texts : List Text) : Op → Prop
  | .newStrdup _ | .newMalloc _ | .newVprintf _ => True
  | .newAllocd block len | .newConst block len => len ≤ block.length
  | .copy val | .appendC val _ | .appendf val _ => val < texts.length
  | .concat v1 v2 | .append v1 v2 => v1 < texts.length ∧ v2 < texts.length
  | .truncate val len => val < texts.length ∧ len ≤ (bytesAt texts val).length

/-- The strings show these values. -/
structure Shows (s : State) (texts : List Text) : Prop where
  bytes : ∀ i, content s i = (texts[i]?).map Text.bytes
  consts : s.strs.map PoneString.isConst = texts.map Text.isConst

/-- The string is a copy. -/
def IsCopy (s : State) (i : Nat) : Prop := ∃ v source, s.strs[i]? = some v ∧ v.source = .val source

/-- The string has no copy. -/
def NoCopies (s : State) (i : Nat) : Prop :=
  ∀ (j : Nat) (v : PoneString), s.strs[j]? = some v → v.source ≠ .val i

/-- An operation that changes a string changes one without copies, does not append a string to
itself in a buffer that moves, and does not truncate a copy. -/
def Allowed (s : State) (texts : List Text) (moved : Bool) : Op → Prop
  | .appendC val p => constAt texts val = true ∨ p = [] ∨ NoCopies s val
  | .append str v =>
      constAt texts str = true ∨ bytesAt texts v = [] ∨
        NoCopies s str ∧ (str = v → moved = true → IsCopy s str)
  | .appendf str text => constAt texts str = true ∨ text = [] ∨ NoCopies s str
  | .truncate val len =>
      (IsCopy s val → len = 0 ∧ bytesAt texts val = []) ∧
        (len = (bytesAt texts val).length ∨ NoCopies s val)
  | _ => True

theorem Shows.holds_iff {s : State} (sane : Sane s) (texts : List Text) :
    (∀ i, content s i = (texts[i]?).map Text.bytes) ↔ Holds (cells s) (texts.map Text.bytes) := by
  apply forall_congr'
  intro i
  rw [sane.content_eq, List.getElem?_map]

/-- What stands in a list may be put there once more. -/
theorem set_same {β : Type} {l : List β} {i : Nat} {b : β} (found : l[i]? = some b) :
    l.set i b = l := by
  obtain ⟨inside, rfl⟩ := List.getElem?_eq_some_iff.mp found
  exact List.set_getElem_self inside

theorem length_cells (s : State) : (cells s).length = s.strs.length := List.length_map ..

/-- What `realloc` does to the memory. -/
theorem realloc_spec {s : State} (moved : Bool) {a n : Nat} {block : List UInt8}
    (in_mem : s.mem a = some block) (below : a < s.next) :
    ∃ s' a', realloc moved s a n = some (s', a') ∧ s'.strs = s.strs ∧ s.next ≤ s'.next ∧
      a' < s'.next ∧ s'.mem a' = some (block.take n ++ List.replicate (n - block.length) 0) ∧
      (∀ b, b < s.next → b ≠ a → b ≠ a' ∧ s'.mem b = s.mem b) ∧
      (if moved = true then s'.mem a = none else a' = a) := by
  cases moved with
  | false =>
      have done : realloc false s a n = some ({ s with
          mem := Function.update s.mem a
            (some (block.take n ++ List.replicate (n - block.length) 0)) }, a) := by
        simp [realloc, in_mem]
      exact ⟨_, a, done, rfl, Nat.le_refl _, below, Function.update_self ..,
        fun b _ other => ⟨other, Function.update_of_ne other ..⟩, rfl⟩
  | true =>
      have done : realloc true s a n = some
          (({ s with mem := Function.update s.mem a none } : State).alloc
            (block.take n ++ List.replicate (n - block.length) 0), s.next) := by
        simp [realloc, in_mem]
      refine ⟨_, s.next, done, rfl, Nat.le_succ _, Nat.lt_succ_self _, Function.update_self ..,
        fun b below' other => ⟨Nat.ne_of_lt below', ?_⟩, ?_⟩
      · simp only [State.alloc]
        rw [Function.update_of_ne (Nat.ne_of_lt below'), Function.update_of_ne other]
      · simp only [State.alloc, if_true]
        rw [Function.update_of_ne (Nat.ne_of_lt below), Function.update_self]

/-- The bytes that are appended have been read after `realloc`. -/
theorem appendMutable_spec {s : State} (sane : Sane s) {i a : Nat} {v : PoneString}
    (found : s.strs[i]? = some v) (own : v.source = .p a) {old bytes : List UInt8}
    (shown : (cells s)[i]? = some (Cow.Cell.own old)) (length_eq : old.length = v.len) (moved : Bool)
    (p : CharPtr)
    (reads : ∀ s' a', realloc moved s a (v.len + bytes.length) = some (s', a') →
      p.read s'.mem bytes.length = some bytes) :
    ∃ s', appendMutable moved s i p bytes.length = .ok s' ∧ Sane s' ∧
      cells s' = (cells s).set i (.own (old ++ bytes)) ∧
      s'.strs.map PoneString.isConst = s.strs.map PoneString.isConst := by
  obtain ⟨isConst, source, len⟩ := v
  cases own
  obtain ⟨below, block, in_mem, long⟩ := sane.allocated i _ a found rfl
  simp only at length_eq long reads
  have old_eq : block.take len = old := by
    rw [cells_getElem?, found] at shown
    simpa [cellOf, in_mem] using shown
  have consts (n address : Nat) :
      (s.strs.set i { isConst, source := .p address, len := n }).map PoneString.isConst =
        s.strs.map PoneString.isConst := by
    rw [List.map_set]
    apply set_same
    rw [List.getElem?_map, found]
    rfl
  by_cases positive : 0 < len + bytes.length
  · obtain ⟨s', a', grown, strs, next, below', in_mem', kept, -⟩ :=
      realloc_spec moved (n := len + bytes.length) in_mem below
    have read := reads s' a' grown
    have front : (block.take (len + bytes.length) ++
        List.replicate (len + bytes.length - block.length) 0).take len = old := by
      rw [List.take_append_of_le_length (by rw [List.length_take]; omega), List.take_take,
        ← old_eq]
      congr 1
      omega
    have behind : (block.take (len + bytes.length) ++
        List.replicate (len + bytes.length - block.length) 0).drop (len + bytes.length) = [] := by
      apply List.drop_eq_nil_of_le
      rw [List.length_append, List.length_take, List.length_replicate]
      omega
    let written : State := { s' with
      mem := Function.update s'.mem a' (some (old ++ bytes))
      strs := s.strs.set i { isConst, source := .p a', len := len + bytes.length } }
    have done : appendMutable moved s i p bytes.length = .ok written := by
      simp [appendMutable, found, positive, grown, read, in_mem', orHalt, bind, Except.bind, pure,
        Except.pure, front, behind, strs, written]
    obtain ⟨sane', cells_eq⟩ := sane.write written (old ++ bytes) found rfl next below'
      (Function.update_self ..) (by rw [List.length_append]; omega) fun j w b other at_j own => by
        have apart : b ≠ a := by
          rintro rfl
          exact other (sane.owned j i w _ b at_j found own rfl)
        obtain ⟨other', same⟩ := kept b (sane.allocated j w b at_j own).1 apart
        exact ⟨other', (Function.update_of_ne other' ..).trans same⟩
    refine ⟨written, done, sane', cells_eq.trans ?_, consts _ _⟩
    rw [← length_eq, ← List.length_append, List.take_length]
  · have nothing : old = [] ∧ bytes = [] :=
      ⟨List.eq_nil_of_length_eq_zero (by omega), List.eq_nil_of_length_eq_zero (by omega)⟩
    refine ⟨s, by simp [appendMutable, found, positive], sane, ?_, rfl⟩
    rw [nothing.1] at shown
    rw [nothing.1, nothing.2]
    exact (set_same shown).symm

/-- `mutable` gives a string that is no constant a buffer of its own and changes nothing else. -/
theorem mutable_spec {s : State} (sane : Sane s) {i : Nat} {v : PoneString} {old : List UInt8}
    (found : s.strs[i]? = some v) (writable : v.isConst = false)
    (shown : Cow.value (cells s) i = some old) :
    ∃ s' a, mutable s i = .ok (some s') ∧ Sane s' ∧
      s'.strs[i]? = some { v with source := .p a, len := old.length } ∧
      cells s' = (cells s).set i (.own old) ∧ s.next ≤ s'.next ∧
      (∀ b < s.next, s'.mem b = s.mem b) ∧
      s'.strs.map PoneString.isConst = s.strs.map PoneString.isConst ∧
      (v.source = .p a ∨ IsCopy s i ∧ a = s.next) := by
  obtain ⟨isConst, source, len⟩ := v
  simp only at writable
  subst writable
  cases source with
  | p a =>
      obtain ⟨below, block, in_mem, long⟩ := sane.allocated i _ a found rfl
      have cell : (cells s)[i]? = some (Cow.Cell.own (block.take len)) := by
        rw [cells_getElem?, found]
        simp [cellOf, in_mem]
      have old_eq : block.take len = old := by
        rw [Cow.value_of_own cell] at shown
        exact Option.some.inj shown
      simp only at long
      have length_eq : old.length = len := by rw [← old_eq, List.length_take_of_le long]
      refine ⟨s, a, by simp [mutable, found], sane, ?_, ?_, Nat.le_refl _, fun _ _ => rfl, rfl,
        .inl rfl⟩
      · rw [found, length_eq]
      · rw [← old_eq]
        exact (set_same cell).symm
  | val source =>
      have bytes : content s source = some old := by
        rw [sane.content_eq, ← shown]
        refine (sane.backward.value_of_ref ?_).symm
        rw [cells_getElem?, found]
        rfl
      let detached : State := { s.alloc (old ++ [0]) with
        strs := s.strs.set i { isConst := false, source := .p s.next, len := old.length } }
      have done : mutable s i = .ok (some detached) := by
        simp [detached, mutable, found, bytes, orHalt, bind, Except.bind, pure, Except.pure]
      have inside : i < s.strs.length := (List.getElem?_eq_some_iff.mp found).1
      obtain ⟨sane', cells_eq⟩ := sane.write detached (old ++ [0]) found rfl (Nat.le_succ _)
        (Nat.lt_succ_self _) (Function.update_self ..) (by simp) fun j w b _ at_j own => by
          have apart := Nat.ne_of_lt (sane.allocated j w b at_j own).1
          exact ⟨apart, Function.update_of_ne apart ..⟩
      refine ⟨detached, s.next, done, sane', List.getElem?_set_self inside, ?_, Nat.le_succ _,
        fun b below => Function.update_of_ne (Nat.ne_of_lt below) .., ?_, .inr ⟨?_, rfl⟩⟩
      · rw [cells_eq, List.take_left]
      · rw [List.map_set]
        apply set_same
        rw [List.getElem?_map, found]
        rfl
      · exact ⟨_, source, found, rfl⟩

theorem strAppendC_const {s : State} (sane : Sane s) {i : Nat} {v : PoneString}
    (found : s.strs[i]? = some v) (const : v.isConst = true) (moved : Bool) (p : CharPtr)
    (sLen : Nat) :
    strAppendC moved s i p sLen = .ok (s, .throws "You can't modify immutable string") := by
  obtain ⟨a, own⟩ := sane.const_own i v found const
  have refused : mutable s i = .ok none := by
    simp [mutable, found, own, const]
  rw [strAppendC, refused]
  rfl

/-- What is appended is there if it can still be read when it is copied. -/
theorem strAppendC_spec {s : State} (sane : Sane s) {i : Nat} {v : PoneString}
    {old : List UInt8} (bytes : List UInt8) (found : s.strs[i]? = some v) (writable : v.isConst = false)
    (shown : Cow.value (cells s) i = some old) (moved : Bool) (p : CharPtr)
    (reads : ∀ s₁ a s' a', (∀ b < s.next, s₁.mem b = s.mem b) →
      (v.source = .p a ∨ a = s.next) → s.next ≤ s₁.next → a < s₁.next → (s₁.mem a).isSome →
      realloc moved s₁ a (old.length + bytes.length) = some (s', a') →
      p.read s'.mem bytes.length = some bytes) :
    ∃ s', strAppendC moved s i p bytes.length = .ok (s', .done) ∧ Sane s' ∧
      cells s' = (cells s).set i (.own (old ++ bytes)) ∧
      s'.strs.map PoneString.isConst = s.strs.map PoneString.isConst := by
  obtain ⟨s₁, a, writes, sane₁, found₁, cells₁, next, kept, consts₁, source⟩ :=
    mutable_spec sane found writable shown
  have inside : i < (cells s).length := by
    rw [length_cells]
    exact (List.getElem?_eq_some_iff.mp found).1
  have shown₁ : (cells s₁)[i]? = some (Cow.Cell.own old) := by
    rw [cells₁, List.getElem?_set_self inside]
  obtain ⟨below, block, in_mem, -⟩ := sane₁.allocated i _ a found₁ rfl
  obtain ⟨s', appended, sane', cells', consts'⟩ :=
    appendMutable_spec sane₁ found₁ rfl shown₁ rfl moved p fun s' a' =>
      reads s₁ a s' a' kept (source.imp_right And.right) next below (by simp [in_mem])
  refine ⟨s', ?_, sane', ?_, consts'.trans consts₁⟩
  · simp [strAppendC, writes, appended, bind, Except.bind, pure, Except.pure]
  · rw [cells', cells₁, List.set_set]

/-- Bytes in a block that `realloc` does not move away can be read behind it. -/
theorem read_after_realloc {s s₁ s' : State} {a a' b n : Nat} {moved : Bool}
    {bytes : List UInt8} (read : readMem s.mem b bytes.length = some bytes) (below : b < s.next)
    (kept : ∀ b < s.next, s₁.mem b = s.mem b) (next : s.next ≤ s₁.next) (below' : a < s₁.next)
    (in_mem : (s₁.mem a).isSome)
    (grown : realloc moved s₁ a (n + bytes.length) = some (s', a'))
    (apart : b = a → moved = false ∨ bytes = []) :
    (CharPtr.block b).read s'.mem bytes.length = some bytes := by
  obtain ⟨block, in_mem⟩ := Option.isSome_iff_exists.mp in_mem
  obtain ⟨s'', a'', grown', -, -, -, in_mem', kept', where_to⟩ :=
    realloc_spec moved (n := n + bytes.length) in_mem below'
  rw [grown] at grown'
  cases grown'
  by_cases empty : bytes = []
  · simp [empty, CharPtr.read]
  · have positive : bytes.length ≠ 0 := by
      rw [Ne, List.length_eq_zero_iff]
      exact empty
    rw [CharPtr.read, if_neg positive]
    by_cases same : b = a
    · subst same
      have unmoved : moved = false := (apart rfl).resolve_right empty
      rw [if_neg (by simp [unmoved])] at where_to
      subst where_to
      rw [readMem, ← kept _ below, in_mem] at read
      simp only at read
      split at read
      · next long =>
          rw [readMem, in_mem']
          simp only
          rw [if_pos (by rw [List.length_append, List.length_take, List.length_replicate]; omega),
            List.take_append_of_le_length (by rw [List.length_take]; omega), List.take_take,
            Nat.min_eq_left (by omega)]
          exact read
      · cases read
    · rw [readMem, (kept' b (by omega) same).2, kept b below]
      exact read

/-- A block that has been moved away cannot be read. -/
theorem strAppendC_wild {s : State} (sane : Sane s) {i a sLen : Nat} {v : PoneString}
    (found : s.strs[i]? = some v) (writable : v.isConst = false) (own : v.source = .p a)
    (some_bytes : sLen ≠ 0) : strAppendC true s i (.block a) sLen = .error .wild := by
  obtain ⟨below, block, in_mem, -⟩ := sane.allocated i v a found own
  obtain ⟨s', a', grown, -, -, -, -, -, freed⟩ :=
    realloc_spec true (n := v.len + sLen) in_mem below
  have writes : mutable s i = .ok (some s) := by
    simp [mutable, found, own, writable]
  have unread : (CharPtr.block a).read s'.mem sLen = none := by
    simp only [if_true] at freed
    rw [CharPtr.read, if_neg some_bytes, readMem, freed]
  obtain ⟨isConst, source, len⟩ := v
  cases own
  have positive : 0 < len + sLen := by omega
  simp only at grown
  simp [strAppendC, writes, appendMutable, found, positive, grown, unread, orHalt, bind,
    Except.bind]

theorem bytesAt_eq {texts : List Text} {i : Nat} {t : Text} (found : texts[i]? = some t) :
    bytesAt texts i = t.bytes := by
  simp [bytesAt, found]

theorem constAt_eq {texts : List Text} {i : Nat} {t : Text} (found : texts[i]? = some t) :
    constAt texts i = t.isConst := by
  simp [constAt, found]

theorem map_bytes_setBytes (texts : List Text) (i : Nat) (bytes : List UInt8) :
    (setBytes texts i bytes).map Text.bytes = (texts.map Text.bytes).set i bytes :=
  List.map_set

theorem map_isConst_setBytes (texts : List Text) (i : Nat) (bytes : List UInt8) :
    (setBytes texts i bytes).map Text.isConst = texts.map Text.isConst := by
  rw [setBytes, List.map_set]
  by_cases inside : i < texts.length
  · apply set_same
    have found : texts[i]? = some texts[i] := List.getElem?_eq_getElem inside
    rw [List.getElem?_map, constAt_eq found, found]
    rfl
  · exact List.set_eq_of_length_le (by rw [List.length_map]; omega)

namespace Shows

variable {s : State} {texts : List Text}

theorem holds (shows : Shows s texts) (sane : Sane s) :
    Holds (cells s) (texts.map Text.bytes) :=
  (holds_iff sane texts).mp shows.bytes

theorem length_eq (shows : Shows s texts) : s.strs.length = texts.length := by
  simpa using congrArg List.length shows.consts

/-- A string and its value. -/
theorem get (shows : Shows s texts) (sane : Sane s) {i : Nat} (inside : i < texts.length) :
    ∃ v t, s.strs[i]? = some v ∧ texts[i]? = some t ∧ v.isConst = t.isConst ∧
      Cow.value (cells s) i = some t.bytes := by
  have inside' : i < s.strs.length := by
    rw [shows.length_eq]
    exact inside
  have found : s.strs[i]? = some s.strs[i] := List.getElem?_eq_getElem inside'
  have found' : texts[i]? = some texts[i] := List.getElem?_eq_getElem inside
  have const : (s.strs.map PoneString.isConst)[i]? = (texts.map Text.isConst)[i]? := by
    rw [shows.consts]
  rw [List.getElem?_map, List.getElem?_map, found, found'] at const
  refine ⟨_, _, found, found', Option.some.inj const, ?_⟩
  rw [shows.holds sane i, List.getElem?_map, found']
  rfl

/-- One more cell with the bytes of the new value. -/
theorem add (shows : Shows s texts) {s' : State} (sane' : Sane s')
    {cell : Cow.Cell (List UInt8)} {t : Text} (cells_eq : cells s' = cells s ++ [cell])
    (strs : s'.strs.map PoneString.isConst = s.strs.map PoneString.isConst ++ [t.isConst])
    (holds : Holds (cells s ++ [cell]) (texts.map Text.bytes ++ [t.bytes])) :
    Shows s' (texts ++ [t]) where
  bytes := by
    rw [holds_iff sane', cells_eq, List.map_append]
    exact holds
  consts := by rw [strs, shows.consts, List.map_append, List.map_singleton]

/-- A written cell shows the new value and no other cell does exactly when nothing has changed or
the string has no copies. -/
theorem write_iff (shows : Shows s texts) (sane : Sane s) {s' : State} (sane' : Sane s') {i : Nat}
    {t : Text} {bytes : List UInt8} (found : texts[i]? = some t)
    (cells_eq : cells s' = (cells s).set i (.own bytes))
    (strs : s'.strs.map PoneString.isConst = s.strs.map PoneString.isConst) :
    Shows s' (setBytes texts i bytes) ↔ bytes = t.bytes ∨ NoCopies s i := by
  have found' : (texts.map Text.bytes)[i]? = some t.bytes := by
    rw [List.getElem?_map, found]
    rfl
  rw [NoCopies, ← unshared_iff, ← (shows.holds sane).set_iff sane.backward found' bytes]
  constructor
  · intro shows'
    have holds' := shows'.holds sane'
    rwa [cells_eq, map_bytes_setBytes] at holds'
  · intro holds'
    refine ⟨?_, by rw [strs, shows.consts, map_isConst_setBytes]⟩
    rw [holds_iff sane', cells_eq, map_bytes_setBytes]
    exact holds'

end Shows

theorem agrees_iff_shows {s : State} {texts : List Text} {answer : Answer} :
    Agrees Shows (texts, answer) (.ok (s, answer) : Except Halt (State × Answer)) ↔
      Shows s texts :=
  Simulation.agrees_ok_iff.trans (and_iff_right rfl)

/-- What the operation leaves is sane again. -/
def LeavesSane {β : Type} (outcome : Except Halt (State × β)) : Prop :=
  ∀ s answer, outcome = .ok (s, answer) → Sane s

theorem leavesSane_ok {β : Type} {s : State} (sane : Sane s) (answer : β) :
    LeavesSane (.ok (s, answer)) := by
  intro s' answer' same
  cases same
  exact sane

theorem agrees_specAppend_iff {s s' : State} {texts : List Text} (shows : Shows s texts)
    (sane : Sane s) (sane' : Sane s') {i : Nat} {t : Text} {p : List UInt8}
    (found : texts[i]? = some t) (writable : t.isConst = false)
    (cells_eq : cells s' = (cells s).set i (.own (t.bytes ++ p)))
    (strs : s'.strs.map PoneString.isConst = s.strs.map PoneString.isConst) :
    Agrees Shows (specAppend texts i p)
        (.ok (s', Answer.done) : Except Halt (State × Answer)) ↔
      p = [] ∨ NoCopies s i := by
  have spec : specAppend texts i p = (setBytes texts i (t.bytes ++ p), .done) := by
    simp [specAppend, constAt_eq found, writable, bytesAt_eq found]
  rw [spec, agrees_iff_shows, shows.write_iff sane sane' found cells_eq strs]
  simp

/-- Bytes from outside may be appended unless they are seen in a copy. -/
theorem strAppendC_iff {s : State} {texts : List Text} (shows : Shows s texts) (sane : Sane s)
    {i : Nat} (inside : i < texts.length) (p : List UInt8) (moved : Bool) :
    (Agrees Shows (specAppend texts i p)
        (strAppendC moved s i (.outside p) p.length) ↔
      constAt texts i = true ∨ p = [] ∨ NoCopies s i) ∧
    LeavesSane (strAppendC moved s i (.outside p) p.length) := by
  obtain ⟨v, t, found, found', const, shown⟩ := shows.get sane inside
  rw [constAt_eq found', ← const]
  cases constant : v.isConst with
  | true =>
      rw [strAppendC_const sane found constant]
      have spec : specAppend texts i p = (texts, .throws "You can't modify immutable string") := by
        simp [specAppend, constAt_eq found', ← const, constant]
      refine ⟨?_, leavesSane_ok sane _⟩
      rw [spec, agrees_iff_shows]
      simp [shows]
  | false =>
      obtain ⟨s', done, sane', cells_eq, strs⟩ := strAppendC_spec sane p found constant shown moved
        (.outside p) (fun _ _ _ _ _ _ _ _ _ _ => by simp [CharPtr.read])
      rw [done, agrees_specAppend_iff shows sane sane' found' (const ▸ constant) cells_eq strs]
      exact ⟨by simp, leavesSane_ok sane' _⟩

/-- A string is appended to one that may be written, unless its bytes move away before they are
read; this happens where a string without copies that is no copy is appended to itself. -/
theorem strAppend_writable {s : State} (sane : Sane s) {i w : Nat} {v : PoneString}
    {old bytes : List UInt8} (found : s.strs[i]? = some v) (writable : v.isConst = false)
    (shown : Cow.value (cells s) i = some old) (shown_w : Cow.value (cells s) w = some bytes)
    (moved : Bool) :
    (∃ s', strAppend moved s i w = .ok (s', .done) ∧ Sane s' ∧
      cells s' = (cells s).set i (.own (old ++ bytes)) ∧
      s'.strs.map PoneString.isConst = s.strs.map PoneString.isConst ∧
      (i = w → moved = true → bytes ≠ [] → IsCopy s i)) ∨
    strAppend moved s i w = .error .wild ∧ bytes ≠ [] ∧
      (NoCopies s i → i = w ∧ moved = true ∧ ¬ IsCopy s i) := by
  obtain ⟨b, len, ptr, below, read, len_eq, r, u, at_r, own_r, -, root⟩ :=
    sane.strPtrLen_spec shown_w
  rw [strAppend, ptr, ← len_eq]
  rw [← len_eq] at read
  simp only [orHalt, bind, Except.bind]
  by_cases aliased : v.source = .p b ∧ moved = true ∧ bytes ≠ []
  · obtain ⟨own, rfl, some_bytes⟩ := aliased
    have positive : bytes.length ≠ 0 := by
      rw [Ne, List.length_eq_zero_iff]
      exact some_bytes
    refine .inr ⟨strAppendC_wild sane found writable own positive, some_bytes, fun alone => ?_⟩
    -- the bytes are those of the string itself
    obtain rfl : r = i := sane.owned r i u v b at_r found own_r own
    rcases root with rfl | shared
    · refine ⟨rfl, rfl, ?_⟩
      rintro ⟨v', source, found', refers⟩
      rw [found] at found'
      cases found'
      rw [own] at refers
      cases refers
    · exact absurd ((unshared_iff s r).mpr alone) shared
  · obtain ⟨s', done, sane', cells_eq, strs⟩ := strAppendC_spec sane bytes found writable
      shown moved (.block b) fun s₁ a s' a' kept source next below' in_mem grown =>
        read_after_realloc read below kept next below' in_mem grown fun same => by
          subst same
          rcases source with own | fresh
          · rw [not_and, not_and] at aliased
            cases moved with
            | false => exact .inl rfl
            | true => exact .inr (not_not.mp (aliased own rfl))
          · omega
    refine .inl ⟨s', done, sane', cells_eq, strs, fun same is_moved some_bytes => ?_⟩
    subst same
    have other : v.source ≠ .p b := fun own => aliased ⟨own, is_moved, some_bytes⟩
    cases source : v.source with
    | val source' => exact ⟨v, source', found, source⟩
    | p a =>
        rw [strPtrLen] at ptr
        obtain ⟨isConst, _, _⟩ := v
        cases source
        rw [found] at ptr
        cases ptr
        exact absurd rfl other

/-- A string may be appended unless that is seen in a copy, or the bytes move away before they are
read. -/
theorem strAppend_iff {s : State} {texts : List Text} (shows : Shows s texts) (sane : Sane s)
    {i w : Nat} (inside : i < texts.length) (inside' : w < texts.length) (moved : Bool) :
    (Agrees Shows (specAppend texts i (bytesAt texts w))
        (strAppend moved s i w) ↔
      constAt texts i = true ∨ bytesAt texts w = [] ∨
        NoCopies s i ∧ (i = w → moved = true → IsCopy s i)) ∧
    LeavesSane (strAppend moved s i w) := by
  obtain ⟨v, t, found, found', const, shown⟩ := shows.get sane inside
  obtain ⟨v', t', -, found_w, -, shown_w⟩ := shows.get sane inside'
  rw [bytesAt_eq found_w, constAt_eq found', ← const]
  cases constant : v.isConst with
  | true =>
      obtain ⟨a, len, ptr, -⟩ := sane.strPtrLen_spec shown_w
      have throws : strAppend moved s i w =
          .ok (s, .throws "You can't modify immutable string") := by
        rw [strAppend, ptr]
        exact strAppendC_const sane found constant moved _ _
      have spec : specAppend texts i t'.bytes =
          (texts, .throws "You can't modify immutable string") := by
        simp [specAppend, constAt_eq found', ← const, constant]
      rw [throws, spec, agrees_iff_shows]
      exact ⟨by simp [shows], leavesSane_ok sane _⟩
  | false =>
      rcases strAppend_writable sane found constant shown shown_w moved with
        ⟨s', done, sane', cells_eq, strs, detached⟩ | ⟨wild, some_bytes, aliased⟩
      · have writable : t.isConst = false := const ▸ constant
        rw [done, agrees_specAppend_iff shows sane sane' found' writable cells_eq strs]
        refine ⟨?_, leavesSane_ok sane' _⟩
        by_cases empty : t'.bytes = []
        · simp [empty]
        · simp only [empty, false_or, Bool.false_eq_true]
          exact (and_iff_left fun same is_moved => detached same is_moved empty).symm
      · rw [wild]
        refine ⟨iff_of_false not_agrees_error ?_, nofun⟩
        rintro (no | empty | ⟨alone, detached⟩)
        · cases no
        · exact some_bytes empty
        · obtain ⟨same, is_moved, own⟩ := aliased alone
          exact own (detached same is_moved)

/-- A new string with a buffer of its own is a new value. -/
theorem Shows.new {s : State} {texts : List Text} (shows : Shows s texts) (sane : Sane s)
    (isConst : Bool) (block : List UInt8) (len : Nat) (long : len ≤ block.length) :
    Sane (s.add isConst block len) ∧
      Shows (s.add isConst block len) (texts ++ [{ isConst, bytes := block.take len }]) := by
  obtain ⟨sane', cells_eq⟩ := sane.add isConst long
  exact ⟨sane', shows.add sane' cells_eq List.map_append
    ((shows.holds sane).append_own sane.backward _)⟩

/-- Truncation works on the length of the string itself. -/
theorem bytesTruncate_iff {s : State} {texts : List Text} (shows : Shows s texts) (sane : Sane s)
    {i len : Nat} (inside : i < texts.length) (shorter : len ≤ (bytesAt texts i).length) :
    (Agrees Shows (setBytes texts i ((bytesAt texts i).take len), Answer.done)
        (do return (← bytesTruncate s i len, .done)) ↔
      (IsCopy s i → len = 0 ∧ bytesAt texts i = []) ∧
        (len = (bytesAt texts i).length ∨ NoCopies s i)) ∧
    LeavesSane (do return (← bytesTruncate s i len, Answer.done)) := by
  obtain ⟨v, t, found, found', const, shown⟩ := shows.get sane inside
  rw [bytesAt_eq found'] at shorter ⊢
  obtain ⟨isConst, source, n⟩ := v
  have whole : t.bytes.take len = t.bytes ↔ len = t.bytes.length := by
    constructor
    · intro same
      have length_eq := congrArg List.length same
      rw [List.length_take] at length_eq
      omega
    · rintro rfl
      exact List.take_length
  cases source with
  | p a =>
      obtain ⟨below, block, in_mem, long⟩ := sane.allocated i _ a found rfl
      simp only at long
      have cell : (cells s)[i]? = some (Cow.Cell.own (block.take n)) := by
        rw [cells_getElem?, found]
        simp [cellOf, in_mem]
      have bytes_eq : block.take n = t.bytes := by
        rw [Cow.value_of_own cell] at shown
        exact Option.some.inj shown
      have within : len ≤ n := by
        rw [← bytes_eq, List.length_take] at shorter
        omega
      let cut : State := { s with strs := s.strs.set i { isConst, source := .p a, len } }
      have done : bytesTruncate s i len = .ok cut := by
        simp [bytesTruncate, found, within, cut]
      obtain ⟨sane', cells_eq⟩ := sane.write cut block found rfl (Nat.le_refl _) below in_mem
        (by omega) fun j w b other at_j own => by
          refine ⟨?_, rfl⟩
          rintro rfl
          exact other (sane.owned j i w _ b at_j found own rfl)
      have cut_eq : block.take len = t.bytes.take len := by
        rw [← bytes_eq, List.take_take, Nat.min_eq_left within]
      rw [cut_eq] at cells_eq
      have consts : cut.strs.map PoneString.isConst = s.strs.map PoneString.isConst := by
        rw [List.map_set]
        apply set_same
        rw [List.getElem?_map, found]
        rfl
      have own : ¬ IsCopy s i := by
        rintro ⟨v, source, found'', refers⟩
        rw [found] at found''
        cases found''
        cases refers
      rw [done]
      refine ⟨agrees_iff_shows.trans ?_, leavesSane_ok sane' _⟩
      rw [shows.write_iff sane sane' found' cells_eq consts, whole]
      simp [own]
  | val source =>
      have no_len : n = 0 := sane.copy_len i _ source found rfl
      subst no_len
      have copy : IsCopy s i := ⟨_, source, found, rfl⟩
      by_cases zero : len = 0
      · subst zero
        have done : bytesTruncate s i 0 = .ok s := by
          simp [bytesTruncate, found, set_same found]
        rw [done]
        refine ⟨agrees_iff_shows.trans ?_, leavesSane_ok sane _⟩
        have unchanged : Shows s (setBytes texts i (t.bytes.take 0)) ↔ t.bytes = [] := by
          constructor
          · intro shows'
            have same : (texts[i]?).map Text.bytes =
                ((setBytes texts i (t.bytes.take 0))[i]?).map Text.bytes :=
              (shows.bytes i).symm.trans (shows'.bytes i)
            rw [setBytes, List.getElem?_set_self inside, found'] at same
            exact Option.some.inj same
          · intro empty
            have same : setBytes texts i (t.bytes.take 0) = texts := by
              apply set_same
              rw [found', constAt_eq found', empty, List.take_nil, ← empty]
            rwa [same]
        rw [unchanged]
        constructor
        · intro empty
          exact ⟨fun _ => ⟨rfl, empty⟩, .inl (by simp [empty])⟩
        · rintro ⟨trivially, -⟩
          exact (trivially copy).2
      · have fails : bytesTruncate s i len = .error .assertion := by
          simp [bytesTruncate, found, zero]
        rw [fails]
        refine ⟨iff_of_false not_agrees_error ?_, fun _ _ same => by cases same⟩
        rintro ⟨trivially, -⟩
        exact zero (trivially copy).1

theorem Shows.copy {s : State} {texts : List Text} (shows : Shows s texts) (sane : Sane s) {i : Nat}
    (inside : i < texts.length) :
    Sane (strCopy s i) ∧
      Shows (strCopy s i) (texts ++ [{ isConst := false, bytes := bytesAt texts i }]) := by
  obtain ⟨v, t, found, found', -⟩ := shows.get sane inside
  obtain ⟨sane', cells_eq⟩ := sane.copy (List.getElem?_eq_some_iff.mp found).1
  refine ⟨sane', shows.add sane' cells_eq List.map_append
    ((shows.holds sane).append_ref sane.backward ?_)⟩
  rw [List.getElem?_map, found', bytesAt_eq found']
  rfl

theorem content_bytesAt {s : State} {texts : List Text} (shows : Shows s texts) {i : Nat}
    (inside : i < texts.length) : content s i = some (bytesAt texts i) := by
  have found : texts[i]? = some texts[i] := List.getElem?_eq_getElem inside
  rw [shows.bytes, bytesAt_eq found, found]
  rfl

/-- The formatted text is a string of its own, which is then appended. -/
theorem strAppendf_iff {s : State} {texts : List Text} (shows : Shows s texts) (sane : Sane s)
    {i : Nat} (inside : i < texts.length) (text : List UInt8) (moved : Bool) :
    (Agrees Shows (specAppend (texts ++ [{ isConst := false, bytes := text }]) i text)
        (strAppendf moved s i text) ↔
      constAt texts i = true ∨ text = [] ∨ NoCopies s i) ∧
    LeavesSane (strAppendf moved s i text) := by
  obtain ⟨sane', shows'⟩ := shows.new sane false (text ++ [0]) text.length (by simp)
  rw [List.take_left] at shows'
  have last : (texts ++ [{ isConst := false, bytes := text }])[texts.length]? =
      some { isConst := false, bytes := text } := by simp
  have bytes_last := bytesAt_eq last
  have const_eq : constAt (texts ++ [{ isConst := false, bytes := text }]) i = constAt texts i := by
    rw [constAt, constAt, List.getElem?_append_left inside]
  have no_copies : NoCopies (strNewVprintf s text) i ↔ NoCopies s i := by
    constructor
    · intro alone j v found
      refine alone j v ?_
      change (s.strs ++ _)[j]? = some v
      rw [List.getElem?_append_left (List.getElem?_eq_some_iff.mp found).1, found]
    · intro alone j v found
      change (s.strs ++ [{ isConst := false, source := .p s.next, len := text.length }])[j]? =
        some v at found
      by_cases old : j < s.strs.length
      · rw [List.getElem?_append_left old] at found
        exact alone j v found
      · rw [List.getElem?_append_right (by omega), List.getElem?_singleton] at found
        split at found
        · cases found
          nofun
        · cases found
  obtain ⟨agrees, leaves⟩ := strAppend_iff shows' sane' (i := i) (w := texts.length)
    (by simp; omega) (by simp) moved
  rw [bytes_last, const_eq, ← strNewVprintf, no_copies] at agrees
  rw [strAppendf, shows.length_eq]
  refine ⟨agrees.trans (or_congr_right (or_congr_right (and_iff_left ?_))), leaves⟩
  intro same
  omega

/-- One operation has the effect that it has on values exactly when it is allowed. -/
theorem step_iff (s : State) (texts : List Text) (op : Op × Bool) (sane : Sane s)
    (shows : Shows s texts) (valid : op.1.InDomain texts) :
    (Agrees Shows (specStep texts op.1) (step s op.2 op.1) ↔ Allowed s texts op.2 op.1) ∧
      ∀ s' answer, step s op.2 op.1 = .ok (s', answer) → Sane s' := by
  obtain ⟨op, moved⟩ := op
  have made (isConst : Bool) (block : List UInt8) (len : Nat) (bytes : List UInt8)
      (long : len ≤ block.length) (front : block.take len = bytes) :
      (Agrees Shows (texts ++ [{ isConst, bytes := bytes }], Answer.done)
        (.ok (s.add isConst block len, Answer.done) : Except Halt (State × Answer)) ↔ True) ∧
      LeavesSane (.ok (s.add isConst block len, Answer.done)) := by
    subst front
    obtain ⟨sane', shows'⟩ := shows.new sane isConst block len long
    exact ⟨iff_of_true (agrees_iff_shows.mpr shows') trivial, leavesSane_ok sane' _⟩
  cases op with
  | newStrdup p => exact made false (p ++ [0]) p.length p (by simp) (by simp)
  | newMalloc garbage => exact made false garbage _ _ (Nat.le_refl _) List.take_length
  | newAllocd block len => exact made false block len _ valid rfl
  | newConst block len => exact made true block len _ valid rfl
  | newVprintf text => exact made false (text ++ [0]) text.length text (by simp) (by simp)
  | copy val =>
      obtain ⟨sane', shows'⟩ := shows.copy sane valid
      exact ⟨iff_of_true (agrees_iff_shows.mpr shows') trivial, leavesSane_ok sane' _⟩
  | concat v1 v2 =>
      have joined : step s moved (.concat v1 v2) =
          .ok (s.add false (bytesAt texts v1 ++ bytesAt texts v2)
            ((bytesAt texts v1).length + (bytesAt texts v2).length), .done) := by
        simp [step, strConcat, content_bytesAt shows valid.1, content_bytesAt shows valid.2, orHalt,
          bind, Except.bind, pure, Except.pure]
      rw [joined]
      exact made false _ _ _ (by simp) (by rw [← List.length_append, List.take_length])
  | truncate val len => exact bytesTruncate_iff shows sane valid.1 valid.2
  | appendC val p => exact strAppendC_iff shows sane valid p moved
  | append str v => exact strAppend_iff shows sane valid.1 valid.2 moved
  | appendf str text => exact strAppendf_iff shows sane valid text moved

/-- A program that has no strings yet. -/
def start : State := { mem := fun _ => none, next := 0, strs := [] }

theorem sane_start : Sane start where
  earlier := nofun
  allocated := nofun
  owned := nofun
  const_own := nofun
  copy_len := nofun

theorem shows_start : Shows start [] where
  bytes _ := rfl
  consts := rfl

/-- The strings of a program behave as values through all its operations. -/
def ValueSemantics (ops : List (Op × Bool)) : Prop :=
  Follows (fun s op => step s op.2 op.1) (fun texts op => specStep texts op.1) Shows start [] ops

/-- Strings have value semantics exactly when no string with a copy is changed, none is appended to
itself in a buffer that moves and no copy is truncated. -/
theorem valueSemantics_iff {ops : List (Op × Bool)}
    (valid : Within (fun texts op => specStep texts op.1) (fun texts op => op.1.InDomain texts)
      [] ops) :
    ValueSemantics ops ↔
      Always (fun s op => step s op.2 op.1) (fun texts op => specStep texts op.1)
        (fun s texts op => Allowed s texts op.2 op.1) start [] ops :=
  Simulation.follows_iff Sane _ step_iff sane_start shows_start valid

/-- A copy of a constant is appended to. -/
theorem valueSemantics_iff_copy :
    ValueSemantics [(.newConst [97, 98] 2, false), (.copy 0, false), (.appendC 1 [99], true)] := by
  refine Iff.mpr (valueSemantics_iff ?_) ⟨trivial, ?_⟩
  · exact ⟨Nat.le_refl 2, Nat.zero_lt_one, Nat.one_lt_two, trivial⟩
  · intro s' answer done
    cases done
    refine ⟨trivial, ?_⟩
    intro s'' answer' done'
    cases done'
    refine ⟨.inr (.inr ?_), fun _ _ _ => trivial⟩
    intro j v found refers
    match j with
    | 0 =>
        cases found
        cases refers
    | 1 =>
        cases found
        cases refers
    | j + 2 => cases found

/-- The copy of a string shows what has been appended to the string. -/
theorem copy_shows_append :
    ¬ ∀ ops : List (Op × Bool), Within (fun texts op => specStep texts op.1)
      (fun texts op => op.1.InDomain texts) [] ops → ValueSemantics ops := by
  intro holds
  have follows := holds
    [(.newStrdup [97], false), (.copy 0, false), (.appendC 0 [98], false)]
    ⟨trivial, Nat.zero_lt_one, Nat.zero_lt_two, trivial⟩
  obtain ⟨s, done, shows⟩ := follows 3
  cases done
  have copy := shows.bytes 1
  revert copy
  decide

end Str
end Pone
