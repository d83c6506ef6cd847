import Pone.Separated
import Pone.Str.Number

/-!
# Smart matches of arrays

An array has no `ACCEPTS` method, so `pone_smart_match` compares string forms.  `Array#Str` writes the
string form of each element with a comma behind it, between brackets, whatever the element is.
-/

namespace Pone
namespace SmartMatch

open Str

/-- Strings, by their numbers among the strings, integers, and arrays of these. -/
inductive Value where
  | string (i : Nat)
  | int (i : Int)
  | ary (elems : List Value)

/-- Why there is no result. -/
inductive Stop where
  | halt (halt : Halt)
  | throws (message : String)

/-- What comes after a write to a string. -/
def written : Except Halt (State × Answer) → Except Stop State
  | .error halt => .error (.halt halt)
  | .ok (s, .done) => .ok s
  | .ok (_, .throws message) => .error (.throws message)

mutual

/-- `pone_stringify`, with `Str#Str`, `Int#Str` and `meth_ary_str` -/
def stringifyValue (moves : Moves) (s : State) : Value → Except Stop (State × Nat)
  | .string i => .ok (stringify s (.copyOf i))
  | .int i => .ok (stringify s (intForm i))
  | .ary elems => do
      let v := s.strs.length
      let s := strNewStrdup s []
      let s ← written (strAppendC (moves s) s v (.outside (ascii "[")) 1)
      let s ← appendElems moves v s elems
      let s ← written (strAppendC (moves s) s v (.outside (ascii "]")) 1)
      return (s, v)

/-- The loop of `meth_ary_str` -/
def appendElems (moves : Moves) (v : Nat) (s : State) : List Value → Except Stop State
  | [] => .ok s
  | elem :: elems => do
      let (s, w) ← stringifyValue moves s elem
      let s ← written (strAppend (moves s) s v w)
      let s ← written (strAppendC (moves s) s v (.outside (ascii ",")) 1)
      appendElems moves v s elems

end

/-- `pone_str_eq` -/
def strEqValues (moves : Moves) (s : State) (v1 v2 : Value) : Except Stop (State × Bool) := do
  let (s, s1) ← stringifyValue moves s v1
  let (s, s2) ← stringifyValue moves s v2
  match content s s1, content s s2 with
  | some b1, some b2 => return (s, cmpBytes b1 b2 = 0)
  | _, _ => throw (.halt .wild)

/-- `pone_smart_match` with an array on the right, of which `pone_find_method` finds no `ACCEPTS`. -/
def smartMatch (moves : Moves) (s : State) (v1 : Value) (elems : List Value) :
    Except Stop (State × Bool) :=
  strEqValues moves s v1 (.ary elems)

/-! ## String forms -/

def comma : UInt8 := 44

mutual

/-- The string form of a value, over the values of the strings. -/
def Value.text (texts : List Text) : Value → List UInt8
  | .string i => bytesAt texts i
  | .int i => fromIntBytes i
  | .ary elems => 91 :: Separated.ended comma (elemTexts texts elems) ++ [93]

def elemTexts (texts : List Text) : List Value → List (List UInt8)
  | [] => []
  | elem :: elems => elem.text texts :: elemTexts texts elems

end

mutual

/-- The strings that a value is made of exist. -/
def Value.InScope (count : Nat) : Value → Prop
  | .string i => i < count
  | .int _ => True
  | .ary elems => ElemsInScope count elems

def ElemsInScope (count : Nat) : List Value → Prop
  | [] => True
  | elem :: elems => elem.InScope count ∧ ElemsInScope count elems

end

mutual

/-- Arrays are the same if they have the same length and their elements are, and other values if they
have the same string form. -/
def Same (texts : List Text) : Value → Value → Prop
  | .ary elems1, .ary elems2 => SameElems texts elems1 elems2
  | v1, v2 => v1.text texts = v2.text texts

def SameElems (texts : List Text) : List Value → List Value → Prop
  | [], [] => True
  | elem1 :: elems1, elem2 :: elems2 => Same texts elem1 elem2 ∧ SameElems texts elems1 elems2
  | _, _ => False

end

mutual

/-- Arrays have the commas of their string forms at the same places. -/
def Aligned (texts : List Text) : Value → Value → Prop
  | .ary elems1, .ary elems2 => AlignedElems texts elems1 elems2
  | _, _ => True

def AlignedElems (texts : List Text) : List Value → List Value → Prop
  | [], [] => True
  | elem1 :: elems1, elem2 :: elems2 =>
      (elem1.text texts).count comma = (elem2.text texts).count comma ∧
        Aligned texts elem1 elem2 ∧ AlignedElems texts elems1 elems2
  | _, _ => False

end

/-- The string forms of the elements, cut at their commas. -/
def pieces (texts : List Text) (elems : List Value) : List (List UInt8) :=
  Separated.pieces comma (elemTexts texts elems)

/-! ## The string forms are what is stored -/

mutual

theorem Value.text_append {base extra : List Text} {k : Nat} (le : k ≤ base.length) (v : Value)
    (scope : v.InScope k) : v.text (base ++ extra) = v.text base := by
  cases v with
  | string i => exact bytesAt_append (Nat.lt_of_lt_of_le scope le)
  | int i => rfl
  | ary elems => rw [Value.text, Value.text, elemTexts_append le elems scope]

theorem elemTexts_append {base extra : List Text} {k : Nat} (le : k ≤ base.length)
    (elems : List Value) (scope : ElemsInScope k elems) :
    elemTexts (base ++ extra) elems = elemTexts base elems := by
  cases elems with
  | nil => rfl
  | cons elem elems =>
      rw [elemTexts, elemTexts, Value.text_append le elem scope.1, elemTexts_append le elems scope.2]

end

/-- The strings from `k` on of which there are no copies still have none. -/
def KeepsAlone (k : Nat) (s s' : State) : Prop := ∀ n, k ≤ n → NoCopies s n → NoCopies s' n

theorem KeepsAlone.trans {k : Nat} {s s₁ s₂ : State} (first : KeepsAlone k s s₁)
    (second : KeepsAlone k s₁ s₂) : KeepsAlone k s s₂ :=
  fun n above alone => second n above (first n above alone)

/-- The string form of a string or an integer is a new string. -/
theorem stringify_alone {k : Nat} (s : State) {form : Form} (scope : form.InScope k)
    (fresh : form.Fresh) : KeepsAlone k s (stringify s form).1 := by
  intro n above alone
  cases form with
  | copyOf string =>
      refine alone.push rfl ?_
      rintro ⟨⟩
      exact absurd scope (Nat.not_lt.mpr above)
  | stored string => exact fresh.elim
  | made isConst text => exact alone.push rfl (by rintro ⟨⟩)

/-- A constant text is written behind a string. -/
theorem write_spec {base : List Text} {s : State} {n : Nat} {bytes : List UInt8}
    (temp : Temp base s n bytes) (moves : Moves) (p : List UInt8) :
    ∃ s', written (strAppendC (moves s) s n (.outside p) p.length) = .ok s' ∧
      Temp base s' n (bytes ++ p) ∧ ∀ k, KeepsAlone k s s' := by
  obtain ⟨s', done, temp'⟩ := temp.appendC (moves s) p
  exact ⟨s', by rw [done, written], temp', fun k n _ alone => alone.strAppendC done⟩

/-- Another string is written behind a string. -/
theorem writeString_spec {base : List Text} {s : State} {n w : Nat} {bytes p : List UInt8}
    (temp : Temp base s n bytes) {texts : List Text} (longer : base <+: texts)
    (shows : Shows s texts) (found : texts[n]? = some { isConst := false, bytes })
    (given : texts[w]? = some { isConst := false, bytes := p }) (other : n ≠ w) (moves : Moves) :
    ∃ s', written (strAppend (moves s) s n w) = .ok s' ∧ Temp base s' n (bytes ++ p) ∧
      ∀ k, KeepsAlone k s s' := by
  obtain ⟨extra, rfl⟩ := longer
  obtain ⟨s', done, temp'⟩ :=
    temp.append shows found (moves s) (List.getElem?_eq_some_iff.mp given).1 other
  rw [bytesAt_eq given] at temp'
  exact ⟨s', by rw [done, written], temp', fun k n _ alone => alone.strAppend done⟩

mutual

theorem stringifyValue_spec (moves : Moves) {base : List Text} {s : State} {k : Nat}
    (le : k ≤ base.length) (keeps : Keeps base s) (v : Value) (scope : v.InScope k) :
    ∃ s' w, stringifyValue moves s v = .ok (s', w) ∧ Temp base s' w (v.text base) ∧
      KeepsAlone k s s' := by
  cases v with
  | string i =>
      have scope' : (Form.copyOf i).InScope base.length := Nat.lt_of_lt_of_le scope le
      obtain ⟨s', w, done, temp⟩ := keeps.stringify scope' trivial
      have alone : KeepsAlone k s (stringify s (.copyOf i)).1 := stringify_alone s scope trivial
      rw [done] at alone
      exact ⟨s', w, by rw [stringifyValue, done], temp, alone⟩
  | int i =>
      obtain ⟨s', w, done, temp⟩ := keeps.stringify (inScope_intForm i _) rfl
      have alone : KeepsAlone k s (stringify s (intForm i)).1 := stringify_alone s trivial rfl
      rw [done] at alone
      exact ⟨s', w, by rw [stringifyValue, done], temp, alone⟩
  | ary elems =>
      have scope' : (Form.made false []).InScope base.length := trivial
      obtain ⟨s₀, v, made, temp⟩ := keeps.stringify scope' rfl
      have alone : KeepsAlone k s (stringify s (.made false [])).1 :=
        stringify_alone s trivial rfl
      rw [made] at alone
      cases made
      obtain ⟨s₁, done₁, temp₁, alone₁⟩ := write_spec temp moves (ascii "[")
      obtain ⟨s₂, done₂, temp₂, alone₂⟩ := appendElems_spec moves le temp₁ elems scope
      obtain ⟨s₃, done₃, temp₃, alone₃⟩ := write_spec temp₂ moves (ascii "]")
      refine ⟨s₃, s.strs.length, ?_, ?_, ((alone.trans (alone₁ k)).trans alone₂).trans (alone₃ k)⟩
      · simp only [stringifyValue, bind, Except.bind, pure, Except.pure]
        rw [strNewStrdup, show 1 = (ascii "[").length from rfl, done₁]
        simp only [done₂]
        rw [show (ascii "[").length = (ascii "]").length from rfl, done₃]
      · rw [Value.text]
        exact temp₃

theorem appendElems_spec (moves : Moves) {base : List Text} {s : State} {k n : Nat}
    {bytes : List UInt8} (le : k ≤ base.length) (temp : Temp base s n bytes) (elems : List Value)
    (scope : ElemsInScope k elems) :
    ∃ s', appendElems moves n s elems = .ok s' ∧
      Temp base s' n (bytes ++ Separated.ended comma (elemTexts base elems)) ∧ KeepsAlone k s s' := by
  cases elems with
  | nil =>
      refine ⟨s, rfl, ?_, fun _ _ alone => alone⟩
      rwa [elemTexts, Separated.ended, List.append_nil]
  | cons elem elems =>
      obtain ⟨extra, shows, found⟩ := temp.shows
      have le' : k ≤ (base ++ extra).length := Nat.le_trans le (by simp)
      obtain ⟨s₁, w, done₁, temp₁, alone₁⟩ :=
        stringifyValue_spec moves le' ⟨temp.sane, [], by simpa using shows⟩ elem scope.1
      obtain ⟨extra', shows₁, given⟩ := temp₁.shows
      rw [elem.text_append le scope.1] at given
      have inside := (List.getElem?_eq_some_iff.mp found).1
      have found₁ : ((base ++ extra) ++ extra')[n]? = some { isConst := false, bytes } := by
        rw [List.getElem?_append_left inside, found]
      have longer : base <+: (base ++ extra) ++ extra' := by simp [List.append_assoc]
      have own : Temp base s₁ n bytes :=
        ⟨temp₁.sane, ⟨extra ++ extra', by rwa [← List.append_assoc],
          by rwa [← List.append_assoc]⟩, temp.later,
          alone₁ n (Nat.le_trans le temp.later) temp.alone⟩
      obtain ⟨s₂, done₂, temp₂, alone₂⟩ := writeString_spec own longer shows₁ found₁ given
        (Nat.ne_of_lt (Nat.lt_of_lt_of_le inside temp₁.later)) moves
      obtain ⟨s₃, done₃, temp₃, alone₃⟩ := write_spec temp₂ moves (ascii ",")
      obtain ⟨s₄, done₄, temp₄, alone₄⟩ := appendElems_spec moves le temp₃ elems scope.2
      refine ⟨s₄, ?_, ?_, ((alone₁.trans (alone₂ k)).trans (alone₃ k)).trans alone₄⟩
      · simp only [appendElems, done₁, done₂, bind, Except.bind]
        rw [show 1 = (ascii ",").length from rfl, done₃]
        exact done₄
      · rw [List.append_assoc, List.append_assoc] at temp₄
        rw [elemTexts, Separated.ended]
        exact temp₄

end

theorem smartMatch_eq (moves : Moves) {s : State} {texts : List Text} (shows : Shows s texts)
    (sane : Sane s) (v1 : Value) (elems : List Value) (scope1 : v1.InScope texts.length)
    (scope2 : ElemsInScope texts.length elems) :
    ∃ s', smartMatch moves s v1 elems =
      .ok (s', v1.text texts = (Value.ary elems).text texts) := by
  have keeps : Keeps texts s := ⟨sane, [], by rwa [List.append_nil]⟩
  obtain ⟨s₁, n₁, done₁, temp₁, -⟩ :=
    stringifyValue_spec moves (Nat.le_refl _) keeps v1 scope1
  obtain ⟨extra, shows₁, found₁⟩ := temp₁.shows
  have le : texts.length ≤ (texts ++ extra).length := by simp
  have keeps₁ : Keeps (texts ++ extra) s₁ := ⟨temp₁.sane, [], by rwa [List.append_nil]⟩
  obtain ⟨s₂, n₂, done₂, temp₂, -⟩ := stringifyValue_spec moves le keeps₁ (.ary elems) scope2
  obtain ⟨extra', shows₂, found₂⟩ := temp₂.shows
  rw [Value.text_append (Nat.le_refl _) (.ary elems) scope2] at found₂
  have bytes₁ : content s₂ n₁ = some (v1.text texts) := by
    rw [shows₂.bytes, List.getElem?_append_left (List.getElem?_eq_some_iff.mp found₁).1, found₁]
    rfl
  have bytes₂ : content s₂ n₂ = some ((Value.ary elems).text texts) := by
    rw [shows₂.bytes, found₂]
    rfl
  refine ⟨s₂, ?_⟩
  simp only [smartMatch, strEqValues, done₁, done₂, bytes₁, bytes₂, bind, Except.bind, pure,
    Except.pure, cmpBytes_eq_zero_iff]

/-! ## When equal string forms mean the same -/

section

variable {texts : List Text}

mutual

theorem Same.text_eq {v1 v2 : Value} (same : Same texts v1 v2) : v1.text texts = v2.text texts := by
  cases v1 with
  | ary elems1 =>
      cases v2 with
      | ary elems2 =>
          rw [Value.text, Value.text, SameElems.texts_eq same]
      | string i => exact same
      | int i => exact same
  | string i => exact same
  | int i => exact same

theorem SameElems.texts_eq {elems1 elems2 : List Value} (same : SameElems texts elems1 elems2) :
    elemTexts texts elems1 = elemTexts texts elems2 := by
  cases elems1 with
  | nil =>
      cases elems2 with
      | nil => rfl
      | cons => exact same.elim
  | cons elem1 elems1 =>
      cases elems2 with
      | nil => exact same.elim
      | cons elem2 elems2 =>
          rw [elemTexts, elemTexts, Same.text_eq same.1, SameElems.texts_eq same.2]

end

theorem ended_of_text_eq {elems1 elems2 : List Value}
    (equal : (Value.ary elems1).text texts = (Value.ary elems2).text texts) :
    Separated.ended comma (elemTexts texts elems1) =
      Separated.ended comma (elemTexts texts elems2) := by
  rw [Value.text, Value.text] at equal
  exact List.append_left_injective [93] (List.cons.inj equal).2

mutual

/-- Values with equal string forms are the same exactly if their commas are at the same places. -/
theorem same_iff_aligned (v1 v2 : Value) (equal : v1.text texts = v2.text texts) :
    Same texts v1 v2 ↔ Aligned texts v1 v2 := by
  cases v1 with
  | ary elems1 =>
      cases v2 with
      | ary elems2 => exact sameElems_iff_aligned elems1 elems2 (ended_of_text_eq equal)
      | string i => exact iff_of_true equal trivial
      | int i => exact iff_of_true equal trivial
  | string i => exact iff_of_true equal trivial
  | int i => exact iff_of_true equal trivial

theorem sameElems_iff_aligned (elems1 elems2 : List Value)
    (equal : Separated.ended comma (elemTexts texts elems1) =
      Separated.ended comma (elemTexts texts elems2)) :
    SameElems texts elems1 elems2 ↔ AlignedElems texts elems1 elems2 := by
  cases elems1 with
  | nil => cases elems2 <;> exact Iff.rfl
  | cons elem1 elems1 =>
      cases elems2 with
      | nil => exact Iff.rfl
      | cons elem2 elems2 =>
          rw [elemTexts, elemTexts, Separated.ended, Separated.ended] at equal
          rw [SameElems, AlignedElems]
          constructor
          · rintro ⟨same, rest⟩
            have count := congrArg (List.count comma) same.text_eq
            obtain ⟨equal', rest'⟩ := Separated.append_cons_inj equal count
            exact ⟨count, (same_iff_aligned elem1 elem2 equal').mp same,
              (sameElems_iff_aligned elems1 elems2 rest').mp rest⟩
          · rintro ⟨count, aligned, rest⟩
            obtain ⟨equal', rest'⟩ := Separated.append_cons_inj equal count
            exact ⟨(same_iff_aligned elem1 elem2 equal').mpr aligned,
              (sameElems_iff_aligned elems1 elems2 rest').mpr rest⟩

end

theorem text_eq_iff {elems1 elems2 : List Value} :
    (Value.ary elems1).text texts = (Value.ary elems2).text texts ↔
      pieces texts elems1 = pieces texts elems2 := by
  rw [pieces, pieces, ← Separated.ended_eq_iff]
  refine ⟨ended_of_text_eq, fun equal => ?_⟩
  rw [Value.text, Value.text, equal]

end

/-- `~~` answers whether two arrays are the same, unless the string forms of their elements, cut at
the commas, are the same pieces with the commas at other places. -/
theorem smartMatch_iff (moves : Moves) {s : State} {texts : List Text} (shows : Shows s texts)
    (sane : Sane s) {elems1 elems2 : List Value} (scope1 : ElemsInScope texts.length elems1)
    (scope2 : ElemsInScope texts.length elems2) :
    (∃ s' answer, smartMatch moves s (.ary elems1) elems2 = .ok (s', answer) ∧
        (answer = true ↔ Same texts (.ary elems1) (.ary elems2))) ↔
      (pieces texts elems1 = pieces texts elems2 → AlignedElems texts elems1 elems2) := by
  obtain ⟨s', matched⟩ := smartMatch_eq moves shows sane (.ary elems1) elems2 scope1 scope2
  rw [matched]
  constructor
  · rintro ⟨-, answer, ⟨⟩, same_iff⟩ equal
    have equal' := text_eq_iff.mpr equal
    exact (same_iff_aligned _ _ equal').mp (same_iff.mp (decide_eq_true equal'))
  · intro aligned
    refine ⟨s', _, rfl, decide_eq_true_iff.trans ⟨fun equal => ?_, Same.text_eq⟩⟩
    exact (same_iff_aligned _ _ equal).mpr (aligned (text_eq_iff.mp equal))

/-- `[[1], 2] ~~ [[1], 2]` -/
theorem smartMatch_iff_nested :
    ∃ s' answer,
      smartMatch (fun _ => true) start (.ary [.ary [.int 1], .int 2]) [.ary [.int 1], .int 2] =
        .ok (s', answer) ∧
      (answer = true ↔ Same [] (.ary [.ary [.int 1], .int 2]) (.ary [.ary [.int 1], .int 2])) :=
  have scope : ElemsInScope 0 [.ary [.int 1], .int 2] := ⟨⟨trivial, trivial⟩, trivial, trivial⟩
  (smartMatch_iff _ shows_start sane_start scope scope).mpr
    fun _ => ⟨rfl, ⟨rfl, trivial, trivial⟩, rfl, trivial, trivial⟩

/-- `["a,b"] ~~ ["a", "b"]` is `True`. -/
theorem not_smartMatch_comma :
    ∃ s texts, Shows s texts ∧ Sane s ∧
      texts.map Text.bytes = [ascii "a,b", ascii "a", ascii "b"] ∧
      (∃ s', smartMatch (fun _ => true) s (.ary [.string 0]) [.string 1, .string 2] =
        .ok (s', true)) ∧
      ¬ Same texts (.ary [.string 0]) (.ary [.string 1, .string 2]) := by
  obtain ⟨sane, shows⟩ := shows_start.new sane_start false (ascii "a,b" ++ [0]) 3 (by decide)
  obtain ⟨sane, shows⟩ := shows.new sane false (ascii "a" ++ [0]) 1 (by decide)
  obtain ⟨sane, shows⟩ := shows.new sane false (ascii "b" ++ [0]) 1 (by decide)
  refine ⟨_, _, shows, sane, rfl, ?_, fun same => same.2⟩
  have scope : (0 : Nat) < 3 := by decide
  have scope' : 1 < 3 ∧ 2 < 3 := by decide
  obtain ⟨s', matched⟩ := smartMatch_eq (fun _ => true) shows sane (.ary [.string 0])
    [.string 1, .string 2] ⟨scope, trivial⟩ ⟨scope'.1, scope'.2, trivial⟩
  exact ⟨s', matched⟩

end SmartMatch
end Pone
