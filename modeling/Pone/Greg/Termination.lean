import Mathlib.Logic.Relation
import Pone.Greg.Simulation

/-!
# Grammars on which every parse ends

A grammar is well founded where a table tells which rules may match the empty word, no rule enters a
rule of the same or a higher rank before a byte is consumed, and no body of a repetition may match
the empty word.  A parse by such a grammar of an input that ends, ends.
-/

namespace Greg

section Tables

variable {ρ α : Type}

/-- Whether a node may match without consuming, by a table of the rules that may. -/
def Node.mayBeEmpty (empty : ρ → Bool) : Node ρ α → Bool
  | .dot | .cclass _ => false
  | .string chars => chars.isEmpty
  | .name rule | .named _ rule => empty rule
  | .action _ | .textBegin | .textEnd | .peekFor _ | .peekNot _ | .query _ | .star _ => true
  | .alternate first second => first.mayBeEmpty empty || second.mayBeEmpty empty
  | .sequence first second => first.mayBeEmpty empty && second.mayBeEmpty empty
  | .plus element => element.mayBeEmpty empty

/-- The rules that a node may enter before it has consumed a byte have a rank below the limit. -/
def Node.ranked (empty : ρ → Bool) (rank : ρ → Nat) (limit : Nat) : Node ρ α → Bool
  | .dot | .cclass _ | .string _ | .action _ | .textBegin | .textEnd => true
  | .name rule | .named _ rule => rank rule < limit
  | .alternate first second => first.ranked empty rank limit && second.ranked empty rank limit
  | .sequence first second =>
      first.ranked empty rank limit && (!first.mayBeEmpty empty || second.ranked empty rank limit)
  | .peekFor element | .peekNot element | .query element | .star element | .plus element =>
      element.ranked empty rank limit

/-- No repetition has a body that may match without consuming. -/
def Node.loopsConsume (empty : ρ → Bool) : Node ρ α → Bool
  | .dot | .cclass _ | .string _ | .action _ | .textBegin | .textEnd | .name _ | .named _ _ => true
  | .alternate first second | .sequence first second =>
      first.loopsConsume empty && second.loopsConsume empty
  | .peekFor element | .peekNot element | .query element => element.loopsConsume empty
  | .star element | .plus element => !element.mayBeEmpty empty && element.loopsConsume empty

/-- The bodies of the repetitions in a node. -/
def Node.bodies : Node ρ α → List (Node ρ α)
  | .dot | .cclass _ | .string _ | .action _ | .textBegin | .textEnd | .name _ | .named _ _ => []
  | .alternate first second | .sequence first second => first.bodies ++ second.bodies
  | .peekFor element | .peekNot element | .query element => element.bodies
  | .star element | .plus element => element :: element.bodies

/-- The tables fit the rules. -/
structure WellFounded (rules : ρ → Rule ρ α) where
  empty : ρ → Bool
  rank : ρ → Nat
  closed : ∀ r, (rules r).expression.mayBeEmpty empty = true → empty r = true
  descends : ∀ r, (rules r).expression.ranked empty rank (rank r) = true
  loops : ∀ r, (rules r).expression.loopsConsume empty = true

theorem Node.ranked_mono {empty : ρ → Bool} {rank : ρ → Nat} {node : Node ρ α} {low high : Nat}
    (ranked : node.ranked empty rank low = true) (higher : low ≤ high) :
    node.ranked empty rank high = true := by
  induction node with
  | dot | cclass | string | action | textBegin | textEnd => rfl
  | name rule | named var rule =>
      simp only [Node.ranked, decide_eq_true_eq] at ranked ⊢
      exact Nat.lt_of_lt_of_le ranked higher
  | alternate first second ih ih' =>
      simp only [Node.ranked, Bool.and_eq_true] at ranked ⊢
      exact ⟨ih ranked.1, ih' ranked.2⟩
  | sequence first second ih ih' =>
      simp only [Node.ranked, Bool.and_eq_true, Bool.or_eq_true] at ranked ⊢
      exact ⟨ih ranked.1, ranked.2.imp_right ih'⟩
  | peekFor element ih | peekNot element ih | query element ih | star element ih
  | plus element ih => exact ih ranked

theorem Node.exists_ranked (empty : ρ → Bool) (rank : ρ → Nat) (node : Node ρ α) :
    ∃ limit, node.ranked empty rank limit = true := by
  induction node with
  | dot | cclass | string | action | textBegin | textEnd => exact ⟨0, rfl⟩
  | name rule | named var rule => exact ⟨rank rule + 1, by simp [Node.ranked]⟩
  | alternate first second ih ih' | sequence first second ih ih' =>
      obtain ⟨low, first_ranked⟩ := ih
      obtain ⟨high, second_ranked⟩ := ih'
      refine ⟨max low high, ?_⟩
      simp only [Node.ranked, Node.ranked_mono first_ranked (Nat.le_max_left _ _),
        Node.ranked_mono second_ranked (Nat.le_max_right _ _), Bool.or_true, Bool.and_true]
  | peekFor element ih | peekNot element ih | query element ih | star element ih
  | plus element ih => exact ih

theorem Node.mayBeEmpty_of_mem_bodies {empty : ρ → Bool} {node body : Node ρ α}
    (loops : node.loopsConsume empty = true) (member : body ∈ node.bodies) :
    body.mayBeEmpty empty = false := by
  induction node with
  | dot | cclass | string | action | textBegin | textEnd | name | named => cases member
  | alternate first second ih ih' | sequence first second ih ih' =>
      simp only [Node.loopsConsume, Bool.and_eq_true] at loops
      rcases List.mem_append.mp member with inside | inside
      · exact ih loops.1 inside
      · exact ih' loops.2 inside
  | peekFor element ih | peekNot element ih | query element ih => exact ih loops member
  | star element ih | plus element ih =>
      simp only [Node.loopsConsume, Bool.and_eq_true, Bool.not_eq_true'] at loops
      rcases List.mem_cons.mp member with rfl | inside
      · exact loops.1
      · exact ih loops.2 inside

end Tables

section Runs

variable {ρ α σ : Type} {look : Nat → σ → Option UInt8 × σ} {rules : ρ → Rule ρ α}
  {c c' : Cursor α} {s s' : σ}

theorem matchClass_pos {bits : UInt8 → Bool}
    (matched : matchClass look bits c s = (true, c', s')) : c'.pos = c.pos + 1 := by
  simp only [matchClass] at matched
  split at matched
  · cases matched
  · split at matched <;> cases matched
    rfl

theorem matchString_pos {saved : Nat} {chars : List UInt8}
    (matched : matchString look saved chars c s = (true, c', s')) :
    c'.pos = c.pos + chars.length := by
  induction chars generalizing c s with
  | nil =>
      cases matched
      rfl
  | cons b rest ih =>
      rw [matchString] at matched
      split at matched
      · cases matched
      · split at matched
        · rw [ih matched, Cursor.advance_pos, List.length_cons]
          omega
        · cases matched

variable {node : Node ρ α}

/-- A node that matches goes forward. -/
theorem Run.forward {ok : Bool} (run : Run look rules node c s ok c' s') (matched : ok = true) :
    c.pos ≤ c'.pos := by
  induction run with
  | dot step | cclass step =>
      subst matched
      exact Nat.le_trans (Nat.le_succ _) (Nat.le_of_eq (matchClass_pos step).symm)
  | string step =>
      subst matched
      exact Nat.le_trans (Nat.le_add_right _ _) (Nat.le_of_eq (matchString_pos step).symm)
  | action | textBegin | textEnd => exact Nat.le_refl _
  | name _ ih => simpa using ih matched
  | named _ ih | alternate _ ih | query _ ih => exact ih matched
  | name_fail | named_fail | sequence_fail | peekFor_fail | peekNot_fail | plus_fail => cases matched
  | alternate_next _ _ _ ih => simpa using ih matched
  | sequence _ _ ih ih' | star _ _ ih ih' | plus _ _ ih ih' =>
      exact Nat.le_trans (ih rfl) (ih' matched)
  | peekFor | peekNot | query_skip | star_end => exact Nat.le_refl _

/-- An input that ends: there is nothing at `last` and behind it, wherever the parser may look. -/
structure Ending (look : Nat → σ → Option UInt8 × σ) (last : Nat) extends Kept look where
  ended : ∀ {p s}, holds p s → last ≤ p → (look p s).1 = none

namespace Ending

variable {last : Nat} (ending : Ending look last)

theorem looked {p : Nat} {b : UInt8} (looks : look p s = (some b, s')) (now : ending.holds p s) :
    p < last := by
  by_contra beyond
  have nothing := ending.ended now (Nat.le_of_not_lt beyond)
  rw [looks] at nothing
  cases nothing

theorem matchString {saved : Nat} {chars : List UInt8}
    (matched : matchString look saved chars c s = (true, c', s')) (now : ending.holds c.pos s)
    (start : c.pos ≤ last) : c'.pos ≤ last := by
  induction chars generalizing c s with
  | nil =>
      cases matched
      exact start
  | cons b rest ih =>
      rw [Greg.matchString] at matched
      split at matched
      · cases matched
      · next looks =>
          have next := ending.next now (congrArg Prod.fst looks)
          rw [looks] at next
          split at matched
          · exact ih matched next (ending.looked looks now)
          · cases matched

/-- A match stays before the end of the input. -/
theorem inside {ok : Bool} (run : Run look rules node c s ok c' s') (matched : ok = true)
    (now : ending.holds c.pos s) (start : c.pos ≤ last) : c'.pos ≤ last := by
  induction run with
  | dot step | cclass step =>
      subst matched
      have moved := matchClass_pos step
      simp only [matchClass] at step
      split at step
      · cases step
      · next looks =>
          have before := ending.looked looks now
          omega
  | string step =>
      subst matched
      exact ending.matchString step now start
  | action | textBegin | textEnd => exact start
  | name _ ih => simpa using ih matched (by simpa using now) (by simpa using start)
  | named _ ih | alternate _ ih | query _ ih => exact ih matched now start
  | name_fail | named_fail | sequence_fail | peekFor_fail | peekNot_fail | plus_fail => cases matched
  | peekFor | peekNot | query_skip | star_end => exact start
  | alternate_next failed _ _ ih =>
      exact ih matched ((ending.run failed now).2 _ now) start
  | sequence passed _ ih ih' | star passed _ ih ih' | plus passed _ ih ih' =>
      exact ih' matched (ending.run passed now).1 (ih rfl now start)

end Ending

namespace WellFounded

variable (wf : WellFounded rules)

/-- A node that matches consumes, unless the table allows that it does not. -/
theorem consumes {ok : Bool} (run : Run look rules node c s ok c' s') (matched : ok = true)
    (stays : c'.pos = c.pos) : node.mayBeEmpty wf.empty = true := by
  induction run with
  | dot step | cclass step =>
      subst matched
      have := matchClass_pos step
      omega
  | @string chars c s ok c' s' step =>
      subst matched
      have moved := matchString_pos step
      have none_read : chars.length = 0 := by omega
      simp [Node.mayBeEmpty, List.length_eq_zero_iff.mp none_read]
  | action | textBegin | textEnd | peekFor | peekNot | query | query_skip | star | star_end => rfl
  | name _ ih => exact wf.closed _ (ih matched (by simpa using stays))
  | named _ ih => exact ih matched stays
  | name_fail | named_fail | sequence_fail | peekFor_fail | peekNot_fail | plus_fail => cases matched
  | alternate _ ih => simp [Node.mayBeEmpty, ih matched stays]
  | alternate_next _ _ _ ih => simp [Node.mayBeEmpty, ih matched (by simpa using stays)]
  | sequence first second ih ih' =>
      have := first.forward rfl
      have := second.forward matched
      simp only [Node.mayBeEmpty, Bool.and_eq_true]
      exact ⟨ih rfl (by omega), ih' matched (by omega)⟩
  | plus first second ih _ =>
      have := first.forward rfl
      have := second.forward matched
      exact ih rfl (by omega)

/-- A parse from a cursor ends. -/
def Ends (look : Nat → σ → Option UInt8 × σ) (rules : ρ → Rule ρ α) (node : Node ρ α) (c : Cursor α)
    (s : σ) : Prop :=
  ∃ ok c' s', Run look rules node c s ok c' s'

/-- Where all parses from further on end, those from here end.  The induction is on the rank of the
rules that may still be entered before a byte is consumed, and then on the node. -/
private theorem ends_here {last here limit : Nat} (ending : Ending look last)
    (further : ∀ {node : Node ρ α} {c : Cursor α} {s : σ}, node.loopsConsume wf.empty = true →
      here < c.pos → c.pos ≤ last → ending.holds c.pos s → Ends look rules node c s)
    (ranked : node.ranked wf.empty wf.rank limit = true)
    (loops : node.loopsConsume wf.empty = true) (start : c.pos = here) (inside : here ≤ last)
    (now : ending.holds c.pos s) : Ends look rules node c s := by
  induction limit using Nat.strongRecOn generalizing node c s with
  | ind limit lower =>
  -- a repetition goes on behind its body
  have again {element : Node ρ α} {c c' : Cursor α} {s s' : σ} (start : c.pos = here)
      (now : ending.holds c.pos s) (loops : (Node.star element).loopsConsume wf.empty = true)
      (passed : Run look rules element c s true c' s') : Ends look rules (.star element) c' s' := by
    have forward := passed.forward rfl
    have kept := (ending.run passed now).1
    have nonempty : element.mayBeEmpty wf.empty = false := by
      simpa using (Bool.and_eq_true_iff.mp loops).1
    refine further loops ?_ (ending.inside passed rfl now (by omega)) kept
    by_contra stays
    rw [wf.consumes passed rfl (by omega)] at nonempty
    cases nonempty
  induction node generalizing c s with
  | dot => exact ⟨_, _, _, .dot rfl⟩
  | cclass bits => exact ⟨_, _, _, .cclass rfl⟩
  | string chars => exact ⟨_, _, _, .string rfl⟩
  | action act => exact ⟨_, _, _, .action⟩
  | textBegin => exact ⟨_, _, _, .textBegin⟩
  | textEnd => exact ⟨_, _, _, .textEnd⟩
  | name rule =>
      obtain ⟨ok, c', s', body⟩ := lower (wf.rank rule) (by simpa [Node.ranked] using ranked)
        (wf.descends rule) (wf.loops rule)
        ((Cursor.enter_pos c (rules rule).varCount).trans start) (by simpa using now)
      cases ok with
      | true => exact ⟨_, _, _, .name body⟩
      | false => exact ⟨_, _, _, .name_fail body⟩
  | named var rule =>
      obtain ⟨ok, c', s', body⟩ := lower (wf.rank rule) (by simpa [Node.ranked] using ranked)
        (wf.descends rule) (wf.loops rule)
        ((Cursor.enter_pos c (rules rule).varCount).trans start) (by simpa using now)
      cases ok with
      | true => exact ⟨_, _, _, .named (.name body)⟩
      | false => exact ⟨_, _, _, .named_fail (.name_fail body)⟩
  | alternate first second ih ih' =>
      simp only [Node.ranked, Node.loopsConsume, Bool.and_eq_true] at ranked loops
      obtain ⟨ok, c', s', one⟩ := ih ranked.1 loops.1 start now
      cases ok with
      | true => exact ⟨_, _, _, .alternate one⟩
      | false =>
          obtain ⟨_, _, _, other⟩ := ih' ranked.2 loops.2
            ((Cursor.restore_pos c' c).trans start) ((ending.run one now).2 _ now)
          exact ⟨_, _, _, .alternate_next one other⟩
  | sequence first second ih ih' =>
      simp only [Node.ranked, Node.loopsConsume, Bool.and_eq_true, Bool.or_eq_true,
        Bool.not_eq_true'] at ranked loops
      obtain ⟨ok, c', s', one⟩ := ih ranked.1 loops.1 start now
      cases ok with
      | false => exact ⟨_, _, _, .sequence_fail one⟩
      | true =>
          have forward := one.forward rfl
          have kept := (ending.run one now).1
          have next : Ends look rules second c' s' := by
            by_cases stays : c'.pos = here
            · have behind := ranked.2.resolve_left (by simp [wf.consumes one rfl (by omega)])
              exact ih' behind loops.2 stays kept
            · exact further loops.2 (by omega) (ending.inside one rfl now (by omega)) kept
          obtain ⟨_, _, _, next⟩ := next
          exact ⟨_, _, _, .sequence one next⟩
  | peekFor element ih =>
      obtain ⟨ok, c', s', one⟩ := ih ranked loops start now
      cases ok with
      | true => exact ⟨_, _, _, .peekFor one⟩
      | false => exact ⟨_, _, _, .peekFor_fail one⟩
  | peekNot element ih =>
      obtain ⟨ok, c', s', one⟩ := ih ranked loops start now
      cases ok with
      | true => exact ⟨_, _, _, .peekNot_fail one⟩
      | false => exact ⟨_, _, _, .peekNot one⟩
  | query element ih =>
      obtain ⟨ok, c', s', one⟩ := ih ranked loops start now
      cases ok with
      | true => exact ⟨_, _, _, .query one⟩
      | false => exact ⟨_, _, _, .query_skip one⟩
  | star element ih =>
      obtain ⟨ok, c', s', one⟩ := ih ranked (Bool.and_eq_true_iff.mp loops).2 start now
      cases ok with
      | false => exact ⟨_, _, _, .star_end one⟩
      | true =>
          obtain ⟨_, _, _, next⟩ := again start now loops one
          exact ⟨_, _, _, .star one next⟩
  | plus element ih =>
      obtain ⟨ok, c', s', one⟩ := ih ranked (Bool.and_eq_true_iff.mp loops).2 start now
      cases ok with
      | false => exact ⟨_, _, _, .plus_fail one⟩
      | true =>
          obtain ⟨_, _, _, next⟩ := again start now loops one
          exact ⟨_, _, _, .plus one next⟩

/-- Every parse of an input that ends, ends. -/
theorem ends {last : Nat} (ending : Ending look last) (loops : node.loopsConsume wf.empty = true)
    (inside : c.pos ≤ last) (now : ending.holds c.pos s) : Ends look rules node c s := by
  obtain ⟨left, bytes_left⟩ : ∃ left, last - c.pos = left := ⟨_, rfl⟩
  induction left using Nat.strongRecOn generalizing node c s with
  | ind left later =>
  obtain ⟨limit, ranked⟩ := node.exists_ranked wf.empty wf.rank
  refine wf.ends_here ending (fun loops beyond inside now => ?_) ranked loops rfl inside now
  exact later _ (by omega) loops inside now rfl

end WellFounded

/-! ## Rules that enter each other -/

/-- Running a node comes to a call of a rule. -/
inductive Enters (look : Nat → σ → Option UInt8 × σ) (rules : ρ → Rule ρ α) :
    Node ρ α → Cursor α → σ → ρ → Cursor α → σ → Prop where
  | name {rule c s} : Enters look rules (.name rule) c s rule c s
  | named {var rule c s} : Enters look rules (.named var rule) c s rule c s
  | alternate {first second c s rule c' s'} (enters : Enters look rules first c s rule c' s') :
      Enters look rules (.alternate first second) c s rule c' s'
  | alternate_next {first second c s c₁ s₁ rule c' s'}
      (failed : Run look rules first c s false c₁ s₁)
      (enters : Enters look rules second (c₁.restore c) s₁ rule c' s') :
      Enters look rules (.alternate first second) c s rule c' s'
  | sequence {first second c s rule c' s'} (enters : Enters look rules first c s rule c' s') :
      Enters look rules (.sequence first second) c s rule c' s'
  | sequence_next {first second c s c₁ s₁ rule c' s'}
      (passed : Run look rules first c s true c₁ s₁)
      (enters : Enters look rules second c₁ s₁ rule c' s') :
      Enters look rules (.sequence first second) c s rule c' s'
  | peekFor {element c s rule c' s'} (enters : Enters look rules element c s rule c' s') :
      Enters look rules (.peekFor element) c s rule c' s'
  | peekNot {element c s rule c' s'} (enters : Enters look rules element c s rule c' s') :
      Enters look rules (.peekNot element) c s rule c' s'
  | query {element c s rule c' s'} (enters : Enters look rules element c s rule c' s') :
      Enters look rules (.query element) c s rule c' s'
  | star {element c s rule c' s'} (enters : Enters look rules element c s rule c' s') :
      Enters look rules (.star element) c s rule c' s'
  | star_again {element c s c₁ s₁ rule c' s'} (passed : Run look rules element c s true c₁ s₁)
      (enters : Enters look rules (.star element) c₁ s₁ rule c' s') :
      Enters look rules (.star element) c s rule c' s'
  | plus {element c s rule c' s'} (enters : Enters look rules element c s rule c' s') :
      Enters look rules (.plus element) c s rule c' s'
  | plus_again {element c s c₁ s₁ rule c' s'} (passed : Run look rules element c s true c₁ s₁)
      (enters : Enters look rules (.star element) c₁ s₁ rule c' s') :
      Enters look rules (.plus element) c s rule c' s'

/-- A call of a rule: the rule, and the cursor and the input where it is called. -/
structure Call (ρ α σ : Type) where
  rule : ρ
  cursor : Cursor α
  input : σ

/-- While the first call runs, it makes the second. -/
def Call.Makes (look : Nat → σ → Option UInt8 × σ) (rules : ρ → Rule ρ α) (outer inner : Call ρ α σ) :
    Prop :=
  Enters look rules (rules outer.rule).expression (outer.cursor.enter (rules outer.rule).varCount)
    outer.input inner.rule inner.cursor inner.input

theorem Enters.forward {r : ρ} (enters : Enters look rules node c s r c' s') : c.pos ≤ c'.pos := by
  induction enters with
  | name | named => exact Nat.le_refl _
  | alternate _ ih | sequence _ ih | peekFor _ ih | peekNot _ ih | query _ ih | star _ ih
  | plus _ ih => exact ih
  | alternate_next _ _ ih => simpa using ih
  | sequence_next passed _ ih | star_again passed _ ih | plus_again passed _ ih =>
      exact Nat.le_trans (passed.forward rfl) ih

namespace WellFounded

variable (wf : WellFounded rules)

theorem enters_rank {r : ρ} {limit : Nat} (enters : Enters look rules node c s r c' s')
    (ranked : node.ranked wf.empty wf.rank limit = true) (here : c'.pos = c.pos) :
    wf.rank r < limit := by
  induction enters with
  | name | named => simpa [Node.ranked] using ranked
  | alternate _ ih =>
      simp only [Node.ranked, Bool.and_eq_true] at ranked
      exact ih ranked.1 here
  | alternate_next _ _ ih =>
      simp only [Node.ranked, Bool.and_eq_true] at ranked
      exact ih ranked.2 here
  | sequence _ ih =>
      simp only [Node.ranked, Bool.and_eq_true] at ranked
      exact ih ranked.1 here
  | sequence_next passed enters ih =>
      have forward := passed.forward rfl
      have behind := enters.forward
      simp only [Node.ranked, Bool.and_eq_true, Bool.or_eq_true, Bool.not_eq_true'] at ranked
      exact ih (ranked.2.resolve_left (by simp [wf.consumes passed rfl (by omega)]))
        (by omega)
  | peekFor _ ih | peekNot _ ih | query _ ih | star _ ih | plus _ ih => exact ih ranked here
  | star_again passed enters ih | plus_again passed enters ih =>
      have forward := passed.forward rfl
      have behind := enters.forward
      exact ih ranked (by omega)

/-- The calls that a call makes are further on, or of a lower rank. -/
theorem descends_of_nested {outer inner : Call ρ α σ}
    (nested : Relation.TransGen (Call.Makes look rules) outer inner) :
    outer.cursor.pos ≤ inner.cursor.pos ∧
      (inner.cursor.pos = outer.cursor.pos → wf.rank inner.rule < wf.rank outer.rule) := by
  have step {outer inner : Call ρ α σ} (makes : outer.Makes look rules inner) :
      outer.cursor.pos ≤ inner.cursor.pos ∧
        (inner.cursor.pos = outer.cursor.pos → wf.rank inner.rule < wf.rank outer.rule) := by
    have forward := makes.forward
    rw [Cursor.enter_pos] at forward
    exact ⟨forward, fun here => wf.enters_rank makes (wf.descends _) (by simpa using here)⟩
  induction nested with
  | single makes => exact step makes
  | tail _ makes ih =>
      obtain ⟨forward, lower⟩ := step makes
      refine ⟨Nat.le_trans ih.1 forward, fun here => ?_⟩
      exact Nat.lt_trans (lower (by omega)) (ih.2 (by omega))

end WellFounded

/-- A rule that is entered again while it runs is entered further on. -/
theorem reentered_behind (wf : WellFounded rules) {outer inner : Call ρ α σ}
    (nested : Relation.TransGen (Call.Makes look rules) outer inner)
    (same : outer.rule = inner.rule) : outer.cursor.pos < inner.cursor.pos := by
  obtain ⟨forward, lower⟩ := wf.descends_of_nested nested
  refine Nat.lt_of_le_of_ne forward fun here => ?_
  have descends := lower here.symm
  rw [same] at descends
  exact Nat.lt_irrefl _ descends

end Runs

end Greg
