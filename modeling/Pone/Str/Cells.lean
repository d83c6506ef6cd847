import Pone.Cow
import Pone.Str.Model

/-!
# Strings as copies by reference

Under the ownership of buffers, the strings are cells that hold their bytes or refer to an earlier
cell.  Each operation of `str.c` adds one cell or writes one.
-/

namespace Pone
namespace Str

open Cow (Backward Unshared Holds)

/-- References go to earlier strings, every other string has a buffer of its own that is allocated
and long enough, a constant is no copy, and a copy has no length of its own. -/
structure Sane (s : State) : Prop where
  earlier : ∀ (i : Nat) (v : PoneString) source, s.strs[i]? = some v → v.source = .val source → source < i
  allocated : ∀ (i : Nat) (v : PoneString) a, s.strs[i]? = some v → v.source = .p a →
    a < s.next ∧ ∃ block, s.mem a = some block ∧ v.len ≤ block.length
  owned : ∀ (i j : Nat) (v w : PoneString) a, s.strs[i]? = some v → s.strs[j]? = some w →
    v.source = .p a → w.source = .p a → i = j
  const_own : ∀ (i : Nat) (v : PoneString), s.strs[i]? = some v → v.isConst = true → ∃ a, v.source = .p a
  copy_len : ∀ (i : Nat) (v : PoneString) source, s.strs[i]? = some v → v.source = .val source →
    v.len = 0

/-- A string without its place in memory. -/
def cellOf (mem : Nat → Option (List UInt8)) (v : PoneString) : Cow.Cell (List UInt8) :=
  match v.source with
  | .val source => .ref source
  | .p a => .own (((mem a).getD []).take v.len)

def cells (s : State) : List (Cow.Cell (List UInt8)) := s.strs.map (cellOf s.mem)

theorem cells_getElem? (s : State) (i : Nat) :
    (cells s)[i]? = (s.strs[i]?).map (cellOf s.mem) :=
  List.getElem?_map ..

theorem cellOf_eq_ref {mem : Nat → Option (List UInt8)} {v : PoneString} {source : Nat} :
    cellOf mem v = .ref source ↔ v.source = .val source := by
  unfold cellOf
  cases v.source <;> simp

/-- No string is a copy of this one. -/
theorem unshared_iff (s : State) (i : Nat) :
    Unshared (cells s) i ↔ ∀ (j : Nat) (v : PoneString), s.strs[j]? = some v → v.source ≠ .val i := by
  unfold Unshared
  apply forall_congr'
  intro j
  rw [cells_getElem?]
  cases s.strs[j]? with
  | none => simp
  | some v => simp [cellOf_eq_ref]

/-- The pointer and the length of a new string -/
theorem strPtrLen_add (s : State) (isConst : Bool) (block : List UInt8) (len : Nat) :
    strPtrLen (s.add isConst block len).strs (s.strs.length + 1) s.strs.length =
      some (s.next, len) := by
  rw [strPtrLen]
  simp [State.add]

theorem mem_add (s : State) (isConst : Bool) (block : List UInt8) (len : Nat) :
    (s.add isConst block len).mem s.next = some block :=
  Function.update_self ..

namespace Sane

variable {s : State}

theorem backward (sane : Sane s) : Backward (cells s) := by
  intro i source found
  rw [cells_getElem?, Option.map_eq_some_iff] at found
  obtain ⟨v, at_i, refers⟩ := found
  exact sane.earlier i v source at_i (cellOf_eq_ref.mp refers)

/-- The pointer and the length lead to the bytes of the cell, and to a buffer of the string itself
or of one that has a copy. -/
theorem strPtrLen_spec (sane : Sane s) {fuel i : Nat} {bytes : List UInt8}
    (shown : Cow.resolve (cells s) fuel i = some bytes) :
    ∃ a len, strPtrLen s.strs fuel i = some (a, len) ∧ a < s.next ∧
      readMem s.mem a len = some bytes ∧ bytes.length = len ∧
      ∃ (r : Nat) (v : PoneString), s.strs[r]? = some v ∧ v.source = .p a ∧ v.len = len ∧
        (r = i ∨ ¬ Unshared (cells s) r) := by
  induction fuel generalizing i with
  | zero => cases shown
  | succ fuel ih =>
      rw [Cow.resolve, cells_getElem?] at shown
      rw [strPtrLen]
      cases found : s.strs[i]? with
      | none =>
          rw [found] at shown
          cases shown
      | some v =>
          obtain ⟨isConst, source, len⟩ := v
          rw [found] at shown
          cases source with
          | p a =>
              obtain ⟨below, block, in_mem, long⟩ := sane.allocated i _ a found rfl
              simp only [cellOf, Option.map_some, in_mem, Option.getD_some, Option.some.injEq]
                at shown long
              subst shown
              refine ⟨a, len, rfl, below, ?_, List.length_take_of_le long, i, _, found, rfl, rfl, .inl rfl⟩
              rw [readMem, in_mem]
              exact if_pos long
          | val source =>
              simp only [cellOf, Option.map_some] at shown
              obtain ⟨a, len', ptr, below, read, length_eq, r, v, at_r, own, len_eq, reached⟩ :=
                ih shown
              refine ⟨a, len', ptr, below, read, length_eq, r, v, at_r, own, len_eq, .inr ?_⟩
              rcases reached with rfl | shared
              · intro unshared
                exact (unshared_iff s r).mp unshared i _ found rfl
              · exact shared

theorem resolve_of_strPtrLen (sane : Sane s) {fuel i a len : Nat}
    (ptr : strPtrLen s.strs fuel i = some (a, len)) :
    Cow.resolve (cells s) fuel i = readMem s.mem a len := by
  induction fuel generalizing i with
  | zero => cases ptr
  | succ fuel ih =>
      rw [strPtrLen] at ptr
      rw [Cow.resolve, cells_getElem?]
      cases found : s.strs[i]? with
      | none =>
          rw [found] at ptr
          cases ptr
      | some v =>
          obtain ⟨isConst, source, len'⟩ := v
          rw [found] at ptr
          cases source with
          | p a' =>
              cases ptr
              obtain ⟨-, block, in_mem, long⟩ := sane.allocated i _ a found rfl
              simp only [Option.map_some, cellOf, readMem, in_mem, Option.getD_some]
              rw [if_pos long]
          | val source => exact ih ptr

theorem content_eq (sane : Sane s) (i : Nat) : content s i = Cow.value (cells s) i := by
  unfold content Cow.value
  cases ptr : strPtrLen s.strs (i + 1) i with
  | some found =>
      obtain ⟨a, len⟩ := found
      exact (sane.resolve_of_strPtrLen ptr).symm
  | none =>
      cases shown : Cow.resolve (cells s) (i + 1) i with
      | none => rfl
      | some bytes =>
          obtain ⟨a, len, ptr', -⟩ := sane.strPtrLen_spec shown
          rw [ptr] at ptr'
          cases ptr'

/-- A new string with a buffer of its own is one more cell. -/
theorem add (sane : Sane s) (isConst : Bool) {block : List UInt8} {len : Nat}
    (long : len ≤ block.length) :
    Sane (s.add isConst block len) ∧
      cells (s.add isConst block len) = cells s ++ [.own (block.take len)] := by
  have kept (a : Nat) (below : a < s.next) : (s.add isConst block len).mem a = s.mem a :=
    Function.update_of_ne (by omega) ..
  have split (i : Nat) (v : PoneString) (found : (s.add isConst block len).strs[i]? = some v) :
      s.strs[i]? = some v ∨
        i = s.strs.length ∧ v = { isConst, source := .p s.next, len } := by
    have found' : (s.strs ++ [{ isConst, source := .p s.next, len }])[i]? = some v := found
    by_cases inside : i < s.strs.length
    · rw [List.getElem?_append_left inside] at found'
      exact .inl found'
    · rw [List.getElem?_append_right (by omega), List.getElem?_singleton] at found'
      split at found'
      · exact .inr ⟨by omega, (Option.some.inj found').symm⟩
      · cases found'
  have fresh (i : Nat) (v : PoneString) (a : Nat) (found : s.strs[i]? = some v)
      (own : v.source = .p a) : a ≠ s.next :=
    Nat.ne_of_lt (sane.allocated i v a found own).1
  refine ⟨⟨?_, ?_, ?_, ?_, ?_⟩, ?_⟩
  · intro i v source found refers
    rcases split i v found with found | ⟨-, rfl⟩
    · exact sane.earlier i v source found refers
    · cases refers
  · intro i v a found own
    rcases split i v found with found | ⟨-, rfl⟩
    · obtain ⟨below, in_mem⟩ := sane.allocated i v a found own
      rw [kept a below]
      exact ⟨Nat.lt_succ_of_lt below, in_mem⟩
    · cases own
      exact ⟨Nat.lt_succ_self _, block, Function.update_self .., long⟩
  · intro i j v w a found found' own own'
    rcases split i v found with found | ⟨rfl, rfl⟩ <;>
      rcases split j w found' with found' | ⟨rfl, rfl⟩
    · exact sane.owned i j v w a found found' own own'
    · cases own'
      exact absurd rfl (fresh i v _ found own)
    · cases own
      exact absurd rfl (fresh j w _ found' own')
    · rfl
  · intro i v found const
    rcases split i v found with found | ⟨-, rfl⟩
    · exact sane.const_own i v found const
    · exact ⟨_, rfl⟩
  · intro i v source found refers
    rcases split i v found with found | ⟨-, rfl⟩
    · exact sane.copy_len i v source found refers
    · cases refers
  · have old : s.strs.map (cellOf (s.add isConst block len).mem) = cells s := by
      apply List.map_congr_left
      intro v among
      obtain ⟨i, found⟩ := List.getElem?_of_mem among
      obtain ⟨c, source, n⟩ := v
      cases source with
      | val source => rfl
      | p a =>
          simp only [cellOf]
          rw [kept a (sane.allocated i _ a found rfl).1]
    have new : cellOf (s.add isConst block len).mem { isConst, source := .p s.next, len } =
        .own (block.take len) := by
      simp [cellOf, State.add, State.alloc]
    calc
      cells (s.add isConst block len) =
          s.strs.map (cellOf (s.add isConst block len).mem) ++
            [cellOf (s.add isConst block len).mem { isConst, source := .p s.next, len }] :=
        List.map_append
      _ = cells s ++ [.own (block.take len)] := by rw [old, new]

/-- A copy is one more cell, which refers to the string. -/
theorem copy (sane : Sane s) {val : Nat} (inside : val < s.strs.length) :
    Sane (strCopy s val) ∧ cells (strCopy s val) = cells s ++ [.ref val] := by
  have split (i : Nat) (v : PoneString) (found : (strCopy s val).strs[i]? = some v) :
      s.strs[i]? = some v ∨
        i = s.strs.length ∧ v = { isConst := false, source := .val val, len := 0 } := by
    have found' : (s.strs ++ [{ isConst := false, source := .val val, len := 0 }])[i]? = some v :=
      found
    by_cases old : i < s.strs.length
    · rw [List.getElem?_append_left old] at found'
      exact .inl found'
    · rw [List.getElem?_append_right (by omega), List.getElem?_singleton] at found'
      split at found'
      · exact .inr ⟨by omega, (Option.some.inj found').symm⟩
      · cases found'
  refine ⟨⟨?_, ?_, ?_, ?_, ?_⟩, List.map_append⟩
  · intro i v source found refers
    rcases split i v found with found | ⟨rfl, rfl⟩
    · exact sane.earlier i v source found refers
    · cases refers
      exact inside
  · intro i v a found own
    rcases split i v found with found | ⟨-, rfl⟩
    · exact sane.allocated i v a found own
    · cases own
  · intro i j v w a found found' own own'
    rcases split i v found with found | ⟨-, rfl⟩
    · rcases split j w found' with found' | ⟨-, rfl⟩
      · exact sane.owned i j v w a found found' own own'
      · cases own'
    · cases own
  · intro i v found const
    rcases split i v found with found | ⟨-, rfl⟩
    · exact sane.const_own i v found const
    · cases const
  · intro i v source found refers
    rcases split i v found with found | ⟨-, rfl⟩
    · exact sane.copy_len i v source found refers
    · rfl

/-- A string whose buffer, perhaps a new one, has been written is a cell of its own, and the buffers
of the other strings have been left alone. -/
theorem write (sane : Sane s) (s' : State) (block : List UInt8) {i a n : Nat} {v : PoneString}
    (found : s.strs[i]? = some v)
    (strs : s'.strs = s.strs.set i { v with source := .p a, len := n })
    (next : s.next ≤ s'.next) (below : a < s'.next) (in_mem : s'.mem a = some block)
    (long : n ≤ block.length)
    (others : ∀ (j : Nat) (w : PoneString) b, j ≠ i → s.strs[j]? = some w → w.source = .p b →
      b ≠ a ∧ s'.mem b = s.mem b) :
    Sane s' ∧ cells s' = (cells s).set i (.own (block.take n)) := by
  have inside : i < s.strs.length := (List.getElem?_eq_some_iff.mp found).1
  have split (j : Nat) (w : PoneString) (found' : s'.strs[j]? = some w) :
      j ≠ i ∧ s.strs[j]? = some w ∨ j = i ∧ w = { v with source := .p a, len := n } := by
    rw [strs] at found'
    by_cases here : j = i
    · subst here
      rw [List.getElem?_set_self inside] at found'
      exact .inr ⟨rfl, (Option.some.inj found').symm⟩
    · rw [List.getElem?_set_ne (Ne.symm here)] at found'
      exact .inl ⟨here, found'⟩
  refine ⟨⟨?_, ?_, ?_, ?_, ?_⟩, ?_⟩
  · intro j w source found' refers
    rcases split j w found' with ⟨-, found'⟩ | ⟨-, rfl⟩
    · exact sane.earlier j w source found' refers
    · cases refers
  · intro j w b found' own
    rcases split j w found' with ⟨other, found'⟩ | ⟨-, rfl⟩
    · obtain ⟨below', in_mem'⟩ := sane.allocated j w b found' own
      rw [(others j w b other found' own).2]
      exact ⟨by omega, in_mem'⟩
    · cases own
      exact ⟨below, block, in_mem, long⟩
  · intro j k w w' b found₁ found₂ own own'
    rcases split j w found₁ with ⟨other, found₁⟩ | ⟨rfl, rfl⟩ <;>
      rcases split k w' found₂ with ⟨other', found₂⟩ | ⟨rfl, rfl⟩
    · exact sane.owned j k w w' b found₁ found₂ own own'
    · exact absurd (Source.p.inj own').symm (others j w b other found₁ own).1
    · exact absurd (Source.p.inj own).symm (others k w' b other' found₂ own').1
    · rfl
  · intro j w found' const
    rcases split j w found' with ⟨-, found'⟩ | ⟨-, rfl⟩
    · exact sane.const_own j w found' const
    · exact ⟨_, rfl⟩
  · intro j w source found' refers
    rcases split j w found' with ⟨-, found'⟩ | ⟨-, rfl⟩
    · exact sane.copy_len j w source found' refers
    · cases refers
  · apply List.ext_getElem?
    intro j
    rw [cells_getElem?, strs]
    by_cases here : j = i
    · subst here
      rw [List.getElem?_set_self inside, List.getElem?_set_self (by simpa [cells] using inside)]
      simp [cellOf, in_mem]
    · rw [List.getElem?_set_ne (Ne.symm here), List.getElem?_set_ne (Ne.symm here), cells_getElem?]
      cases found' : s.strs[j]? with
      | none => rfl
      | some w =>
          obtain ⟨c, source, len⟩ := w
          cases source with
          | val source => rfl
          | p b => simp [cellOf, (others j _ b here found' rfl).2]

end Sane

end Str
end Pone
