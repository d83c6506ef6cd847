import Pone.Greg.Input
import Pone.Greg.Lookahead
import Pone.Greg.Thunk

/-!
# The text that a node matches

Strings and repeated character classes in a word: which characters they match, where they stop, and
that they change nothing but the position.
-/

namespace Greg

/-- The characters from `p` to `q` in two pieces. -/
theorem yyText_append {w : List UInt8} {p q r : Nat} (first : p ≤ q) (second : q ≤ r) :
    yyText w p r = yyText w p q ++ yyText w q r := by
  have whole : r - p = (q - p) + (r - q) := by omega
  simp only [yyText, whole, List.take_add, List.drop_drop, Nat.add_sub_cancel' first]

theorem yyText_self {w : List UInt8} {p : Nat} : yyText w p p = [] := by simp [yyText]

theorem yyText_succ {w : List UInt8} {p : Nat} {b : UInt8} (here : w[p]? = some b) :
    yyText w p (p + 1) = [b] := by
  obtain ⟨inside, rfl⟩ := List.getElem?_eq_some_iff.mp here
  rw [yyText, Nat.add_sub_cancel_left, List.drop_eq_getElem_cons inside]
  rfl

theorem length_yyText {w : List UInt8} {p q : Nat} (inside : q ≤ w.length) :
    (yyText w p q).length = q - p := by
  simp only [yyText, List.length_take, List.length_drop]
  omega

theorem mem_yyText {w : List UInt8} {p q i : Nat} {b : UInt8} (here : w[i]? = some b) (first : p ≤ i)
    (last : i < q) : b ∈ yyText w p q := by
  rw [yyText_append first (Nat.le_of_lt last), yyText_append (Nat.le_succ i) last, yyText_succ here]
  simp

variable {ρ α : Type} {rules : ρ → Rule ρ α} {w : List UInt8} {c c' : Cursor α} {s s' : Nat}

namespace Run

theorem cclass_word {bits : UInt8 → Bool} {ok : Bool}
    (run : Run (lookWord w) rules (.cclass bits) c s ok c' s') :
    match w[c.pos]? with
    | some b => ok = bits b ∧ c' = if bits b then c.advance else c
    | none => ok = false ∧ c' = c := by
  cases run with
  | cclass step =>
      have looked : lookWord w c.pos s = (w[c.pos]?, max s (c.pos + 1)) := rfl
      simp only [matchClass, looked] at step
      cases here : w[c.pos]? with
      | none =>
          rw [here] at step
          cases step
          exact ⟨rfl, rfl⟩
      | some b =>
          rw [here] at step
          cases inside : bits b <;> simp only [inside] at step <;> cases step <;> simp [inside]

theorem cclass_passes {bits : UInt8 → Bool} (run : Run (lookWord w) rules (.cclass bits) c s true c' s') :
    ∃ b, w[c.pos]? = some b ∧ bits b = true ∧ c' = c.advance := by
  have answer := run.cclass_word
  cases here : w[c.pos]? with
  | none =>
      rw [here] at answer
      cases answer.1
  | some b =>
      rw [here] at answer
      obtain ⟨inClass, moved⟩ := answer
      rw [if_pos inClass.symm] at moved
      exact ⟨b, rfl, inClass.symm, moved⟩

theorem cclass_fails {bits : UInt8 → Bool} (run : Run (lookWord w) rules (.cclass bits) c s false c' s') :
    c' = c ∧ ∀ b, w[c.pos]? = some b → bits b = false := by
  have answer := run.cclass_word
  cases here : w[c.pos]? with
  | none =>
      rw [here] at answer
      exact ⟨answer.2, fun b found => nomatch found⟩
  | some b =>
      rw [here] at answer
      obtain ⟨outside, moved⟩ := answer
      rw [← outside, if_neg Bool.false_ne_true] at moved
      exact ⟨moved, fun b' found => Option.some.inj found ▸ outside.symm⟩

private theorem matchString_word {saved : Nat} {chars : List UInt8}
    (step : matchString (lookWord w) saved chars c s = (true, c', s')) :
    c' = { c with pos := c.pos + chars.length } ∧ yyText w c.pos (c.pos + chars.length) = chars := by
  induction chars generalizing c s with
  | nil =>
      cases step
      exact ⟨rfl, yyText_self⟩
  | cons x rest ih =>
      have here : w[c.pos]? = some x := head_of_matchString step
      have looked : lookWord w c.pos s = (some x, max s (c.pos + 1)) := by rw [lookWord, here]
      rw [matchString, looked] at step
      simp only [if_true] at step
      obtain ⟨rfl, text⟩ := ih step
      have count : c.pos + (x :: rest).length = c.pos + 1 + rest.length := by
        rw [List.length_cons]
        omega
      rw [Cursor.advance_pos] at text
      refine ⟨by rw [count]; rfl, ?_⟩
      rw [count, yyText_append (Nat.le_succ _) (Nat.le_add_right _ _), yyText_succ here, text]
      rfl

/-- Nothing but the position has changed, over the text. -/
structure Passed (w : List UInt8) (c c' : Cursor α) (text : List UInt8) : Prop where
  moved : c' = { c with pos := c'.pos }
  forward : c.pos ≤ c'.pos
  text : yyText w c.pos c'.pos = text

theorem string_word {chars : List UInt8}
    (run : Run (lookWord w) rules (.string chars) c s true c' s') : Passed w c c' chars := by
  cases run with
  | string step =>
      obtain ⟨rfl, text⟩ := matchString_word step
      exact ⟨rfl, Nat.le_add_right _ _, text⟩

/-- A match that holds the match of one character holds that character. -/
theorem mem_of_char {x : UInt8} {p q : Nat} (run : Run (lookWord w) rules (.string [x]) c s true c' s')
    (first : p ≤ c.pos) (last : c'.pos ≤ q) : x ∈ yyText w p q := by
  cases run with
  | string step =>
      have moved : c'.pos = c.pos + 1 := matchString_pos step
      exact mem_yyText (head_of_matchString step) first (by omega)

/-- A repeated class reads all characters that follow and are in the class. -/
structure Spanned (w : List UInt8) (bits : UInt8 → Bool) (c c' : Cursor α) : Prop where
  moved : c' = { c with pos := c'.pos }
  forward : c.pos ≤ c'.pos
  inside : c'.pos ≤ max c.pos w.length
  all : ∀ b ∈ yyText w c.pos c'.pos, bits b = true
  stops : ∀ b, w[c'.pos]? = some b → bits b = false

theorem star_word {bits : UInt8 → Bool} {ok : Bool}
    (run : Run (lookWord w) rules (.star (.cclass bits)) c s ok c' s') :
    Spanned w bits c c' := by
  obtain ⟨node, same⟩ : ∃ node, node = Node.star (.cclass bits : Node ρ α) := ⟨_, rfl⟩
  rw [← same] at run
  induction run with
  | @star_end element c s c' s' failed =>
      cases same
      obtain ⟨rfl, stops⟩ := failed.cclass_fails
      exact ⟨rfl, Nat.le_refl _, Nat.le_max_left _ _, by simp [yyText_self], stops⟩
  | @star element c s c₁ s₁ ok c₂ s₂ passed again _ ih =>
      cases same
      obtain ⟨b, here, inClass, rfl⟩ := passed.cclass_passes
      obtain ⟨moved, forward, inside, all, stops⟩ := ih rfl
      obtain ⟨short, -⟩ := List.getElem?_eq_some_iff.mp here
      rw [Cursor.advance_pos] at forward inside all
      refine ⟨moved.trans rfl, by omega, by omega, ?_, stops⟩
      rw [yyText_append (Nat.le_succ c.pos) forward, yyText_succ here]
      intro b' member
      rcases List.mem_cons.mp member with rfl | later
      · exact inClass
      · exact all b' later
  | _ => cases same

/-- A class repeated once or more. -/
theorem plus_word {bits : UInt8 → Bool} (run : Run (lookWord w) rules (.plus (.cclass bits)) c s true c' s') :
    Spanned w bits c c' ∧ c.pos < c'.pos ∧ c'.pos ≤ w.length := by
  cases run with
  | plus passed again =>
      have spanned := (Run.star passed again).star_word
      have forward := again.forward again.star_matches
      obtain ⟨b, here, -, rfl⟩ := passed.cclass_passes
      rw [Cursor.advance_pos] at forward
      obtain ⟨short, -⟩ := List.getElem?_eq_some_iff.mp here
      have bounded := spanned.inside
      exact ⟨spanned, by omega, by omega⟩

/-- Texts one behind the other. -/
theorem Passed.append {c₁ c₂ : Cursor α} {front back : List UInt8} (first : Passed w c c₁ front)
    (second : Passed w c₁ c₂ back) : Passed w c c₂ (front ++ back) where
  moved := by rw [second.moved, first.moved]
  forward := Nat.le_trans first.forward second.forward
  text := by rw [yyText_append first.forward second.forward, first.text, second.text]

theorem Passed.self : Passed w c c [] := ⟨rfl, Nat.le_refl _, yyText_self⟩

/-- A class repeated once or more, as a text. -/
theorem plus_passed {bits : UInt8 → Bool}
    (run : Run (lookWord w) rules (.plus (.cclass bits)) c s true c' s') :
    ∃ text, Passed w c c' text ∧ text ≠ [] ∧ ∀ b ∈ text, bits b = true := by
  obtain ⟨spanned, further, inside⟩ := run.plus_word
  refine ⟨_, ⟨spanned.moved, spanned.forward, rfl⟩, fun empty => ?_, spanned.all⟩
  have count := length_yyText (p := c.pos) inside
  rw [empty, List.length_nil] at count
  omega

end Run

/-- A node without actions, marks and calls. -/
def Node.Plain : Node ρ α → Prop
  | .dot | .cclass _ | .string _ => True
  | .action _ | .textBegin | .textEnd | .name _ | .named _ _ => False
  | .alternate first second | .sequence first second => first.Plain ∧ second.Plain
  | .peekFor element | .peekNot element | .query element | .star element | .plus element =>
      element.Plain

theorem matchString_moved {look : Nat → Nat → Option UInt8 × Nat} {saved : Nat} {chars : List UInt8}
    {ok : Bool} (step : matchString look saved chars c s = (ok, c', s')) :
    c' = { c with pos := c'.pos } := by
  induction chars generalizing c s with
  | nil =>
      cases step
      rfl
  | cons b rest ih =>
      rw [matchString] at step
      split at step
      · cases step
        rfl
      · split at step
        · exact (ih step).trans rfl
        · cases step
          rfl

theorem matchClass_moved {look : Nat → Nat → Option UInt8 × Nat} {bits : UInt8 → Bool} {ok : Bool}
    (step : matchClass look bits c s = (ok, c', s')) : c' = { c with pos := c'.pos } := by
  unfold matchClass at step
  split at step
  · cases step
    rfl
  · split at step <;> cases step <;> rfl

/-- Such a node changes nothing but the position, whether it matches or not. -/
theorem Run.plain_moved {look : Nat → Nat → Option UInt8 × Nat} {node : Node ρ α} {ok : Bool}
    (run : Run look rules node c s ok c' s') (plain : node.Plain) :
    c' = { c with pos := c'.pos } := by
  induction run with
  | dot step => exact matchClass_moved step
  | cclass step => exact matchClass_moved step
  | string step => exact matchString_moved step
  | action | textBegin | textEnd => exact plain.elim
  | name | name_fail | named | named_fail => exact plain.elim
  | alternate _ ih => exact ih plain.1
  | alternate_next _ _ ih ih' =>
      rw [ih' plain.2, ih plain.1]
      rfl
  | sequence _ _ ih ih' => rw [ih' plain.2, ih plain.1]
  | sequence_fail _ ih => exact ih plain.1
  | peekFor _ ih | peekNot _ ih | query_skip _ ih | star_end _ ih =>
      rw [ih plain]
      rfl
  | peekFor_fail _ ih | peekNot_fail _ ih | query _ ih | plus_fail _ ih => exact ih plain
  | star _ _ ih ih' | plus _ _ ih ih' => rw [ih' plain, ih plain]

/-- An optional node that is not there. -/
theorem Run.restore_plain {look : Nat → Nat → Option UInt8 × Nat} {node : Node ρ α} {ok : Bool}
    (run : Run look rules node c s ok c' s') (plain : node.Plain) : c'.restore c = c := by
  rw [run.plain_moved plain]
  rfl

end Greg
