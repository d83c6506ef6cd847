import Pone.Greg.Termination

/-!
# What a node does in front of a byte

Where an input gives each position one answer, whether a node matches and where it stops depend on the
position only.  A table of what the rules may do in front of one byte tells it for every node.
-/

namespace Greg

section Positions

variable {ρ α σ : Type} {look : Nat → σ → Option UInt8 × σ} {rules : ρ → Rule ρ α}
  {node : Node ρ α} {c c' d d' : Cursor α} {s s' t t' : σ}

/-- The answer at a position is always the same. -/
def Steady (look : Nat → σ → Option UInt8 × σ) : Prop := ∀ p s t, (look p s).1 = (look p t).1

theorem matchClass_steady (steady : Steady look) {bits : UInt8 → Bool} {ok ok' : Bool}
    (one : matchClass look bits c s = (ok, c', s')) (other : matchClass look bits d t = (ok', d', t'))
    (here : c.pos = d.pos) : ok = ok' ∧ c'.pos = d'.pos := by
  have same : (look c.pos s).1 = (look d.pos t).1 := here ▸ steady c.pos s t
  simp only [matchClass] at one other
  rcases looked : look c.pos s with ⟨b | b, s₁⟩ <;> rcases looked' : look d.pos t with ⟨b' | b', t₁⟩ <;>
    simp only [looked, looked'] at same one other
  · cases one
    cases other
    exact ⟨rfl, here⟩
  · cases same
  · cases same
  · obtain rfl := Option.some.inj same
    split at one <;> cases one <;> split at other <;> cases other
    · exact ⟨rfl, congrArg (· + 1) here⟩
    · contradiction
    · contradiction
    · exact ⟨rfl, here⟩

theorem matchString_steady (steady : Steady look) {saved : Nat} {chars : List UInt8} {ok ok' : Bool}
    (one : matchString look saved chars c s = (ok, c', s'))
    (other : matchString look saved chars d t = (ok', d', t'))
    (here : c.pos = d.pos) : ok = ok' ∧ c'.pos = d'.pos := by
  induction chars generalizing c d s t with
  | nil =>
      cases one
      cases other
      exact ⟨rfl, here⟩
  | cons b rest ih =>
      have same : (look c.pos s).1 = (look d.pos t).1 := here ▸ steady c.pos s t
      simp only [matchString] at one other
      rcases looked : look c.pos s with ⟨x | x, s₁⟩ <;> rcases looked' : look d.pos t with ⟨y | y, t₁⟩ <;>
        simp only [looked, looked'] at same one other
      · cases one
        cases other
        exact ⟨rfl, here⟩
      · cases same
      · cases same
      · obtain rfl := Option.some.inj same
        by_cases equal : x = b
        · simp only [equal, if_true] at one other
          exact ih one other (congrArg (· + 1) here)
        · simp only [equal, if_false] at one other
          cases one
          cases other
          exact ⟨rfl, rfl⟩

/-- Whether a node matches and where it stops depend on the position only. -/
theorem Run.steady (steady : Steady look) {ok ok' : Bool} (one : Run look rules node c s ok c' s')
    (other : Run look rules node d t ok' d' t') (here : c.pos = d.pos) :
    ok = ok' ∧ c'.pos = d'.pos := by
  induction one generalizing d t ok' d' t' with
  | dot step => cases other with | dot step' => exact matchClass_steady steady step step' here
  | cclass step => cases other with | cclass step' => exact matchClass_steady steady step step' here
  | string step =>
      cases other with
      | string step' =>
          rw [here] at step
          exact matchString_steady steady step step' here
  | action => cases other with | action => exact ⟨rfl, here⟩
  | textBegin => cases other with | textBegin => exact ⟨rfl, here⟩
  | textEnd => cases other with | textEnd => exact ⟨rfl, here⟩
  | name _ ih =>
      cases other with
      | name body => simpa using ih body (by simpa using here)
      | name_fail body => cases (ih body (by simpa using here)).1
  | name_fail _ ih =>
      cases other with
      | name body => cases (ih body (by simpa using here)).1
      | name_fail body => exact ⟨rfl, here⟩
  | named _ ih =>
      cases other with
      | named call => exact ⟨rfl, (ih call here).2⟩
      | named_fail call => cases (ih call here).1
  | named_fail _ ih =>
      cases other with
      | named call => cases (ih call here).1
      | named_fail call => exact ⟨rfl, (ih call here).2⟩
  | alternate _ ih =>
      cases other with
      | alternate passed => exact ih passed here
      | alternate_next failed next => cases (ih failed here).1
  | alternate_next _ _ ih ih' =>
      cases other with
      | alternate passed => cases (ih passed here).1
      | alternate_next failed next => exact ih' next here
  | sequence _ _ ih ih' =>
      cases other with
      | sequence passed next => exact ih' next (ih passed here).2
      | sequence_fail failed => cases (ih failed here).1
  | sequence_fail _ ih =>
      cases other with
      | sequence passed next => cases (ih passed here).1
      | sequence_fail failed => exact ih failed here
  | peekFor _ ih =>
      cases other with
      | peekFor passed => exact ⟨rfl, here⟩
      | peekFor_fail failed => cases (ih failed here).1
  | peekFor_fail _ ih =>
      cases other with
      | peekFor passed => cases (ih passed here).1
      | peekFor_fail failed => exact ih failed here
  | peekNot _ ih =>
      cases other with
      | peekNot failed => exact ⟨rfl, here⟩
      | peekNot_fail passed => cases (ih passed here).1
  | peekNot_fail _ ih =>
      cases other with
      | peekNot failed => cases (ih failed here).1
      | peekNot_fail passed => exact ⟨rfl, (ih passed here).2⟩
  | query _ ih =>
      cases other with
      | query passed => exact ih passed here
      | query_skip failed => cases (ih failed here).1
  | query_skip _ ih =>
      cases other with
      | query passed => cases (ih passed here).1
      | query_skip failed => exact ⟨rfl, here⟩
  | star_end _ ih =>
      cases other with
      | star_end failed => exact ⟨rfl, here⟩
      | star passed again => cases (ih passed here).1
  | star _ _ ih ih' =>
      cases other with
      | star_end failed => cases (ih failed here).1
      | star passed again => exact ih' again (ih passed here).2
  | plus _ _ ih ih' =>
      cases other with
      | plus passed again => exact ih' again (ih passed here).2
      | plus_fail failed => cases (ih failed here).1
  | plus_fail _ ih =>
      cases other with
      | plus passed again => cases (ih passed here).1
      | plus_fail failed => exact ih failed here

/-- A repetition never fails. -/
theorem Run.star_matches {element : Node ρ α} {ok : Bool}
    (run : Run look rules (.star element) c s ok c' s') : ok = true := by
  obtain ⟨node, same⟩ : ∃ node, node = Node.star element := ⟨_, rfl⟩
  rw [← same] at run
  induction run with
  | star_end => rfl
  | star _ _ _ ih => exact ih same
  | _ => cases same

end Positions

/-! ## In front of a byte -/

/-- Whether a node may match without consuming, and whether it may match and consume. -/
structure Ahead where
  stays : Bool
  moves : Bool

section Ahead

variable {ρ α σ : Type} {look : Nat → σ → Option UInt8 × σ} {rules : ρ → Rule ρ α}
  {node : Node ρ α} {c c' : Cursor α} {s s' : σ}

/-- What a node may do in front of the byte `b`, by a table of the rules. -/
def Node.ahead (b : UInt8) (table : ρ → Ahead) : Node ρ α → Ahead
  | .dot => ⟨false, true⟩
  | .cclass bits => ⟨false, bits b⟩
  | .string [] => ⟨true, false⟩
  | .string (x :: _) => ⟨false, x == b⟩
  | .name rule | .named _ rule => table rule
  | .peekNot (.string [x]) => ⟨x != b, false⟩
  | .action _ | .textBegin | .textEnd | .peekFor _ | .peekNot _ => ⟨true, false⟩
  | .alternate first second =>
      ⟨(first.ahead b table).stays || (second.ahead b table).stays,
        (first.ahead b table).moves || (second.ahead b table).moves⟩
  | .sequence first second =>
      ⟨(first.ahead b table).stays && (second.ahead b table).stays,
        (first.ahead b table).moves || (first.ahead b table).stays && (second.ahead b table).moves⟩
  | .query element | .star element => ⟨true, (element.ahead b table).moves⟩
  | .plus element => element.ahead b table

/-- The table covers what the rules do. -/
def Covers (b : UInt8) (table : ρ → Ahead) (rules : ρ → Rule ρ α) : Prop :=
  ∀ r, (((rules r).expression.ahead b table).stays = true → (table r).stays = true) ∧
    (((rules r).expression.ahead b table).moves = true → (table r).moves = true)

theorem head_of_matchString {saved : Nat} {x : UInt8} {rest : List UInt8}
    (step : matchString look saved (x :: rest) c s = (true, c', s')) : (look c.pos s).1 = some x := by
  rw [matchString] at step
  split at step
  · cases step
  · next looked =>
      rw [looked]
      split at step
      · next equal => exact congrArg some equal
      · cases step

theorem differs_of_matchString {saved : Nat} {x b : UInt8}
    (step : matchString look saved [x] c s = (false, c', s')) (next : (look c.pos s).1 = some b) :
    x ≠ b := by
  simp only [matchString] at step
  split at step
  · next looked =>
      rw [looked] at next
      cases next
  · next looked =>
      rw [looked] at next
      cases next
      rintro rfl
      simp at step

/-- A node that matches in front of a byte does what its table allows. -/
theorem Run.ahead {b : UInt8} {table : ρ → Ahead} (covers : Covers b table rules) {ok : Bool}
    (run : Run look rules node c s ok c' s') (matched : ok = true)
    (next : ∀ s, (look c.pos s).1 = some b) :
    (c'.pos = c.pos → (node.ahead b table).stays = true) ∧
      (c'.pos ≠ c.pos → (node.ahead b table).moves = true) := by
  induction run with
  | dot step =>
      subst matched
      have moved := matchClass_pos step
      exact ⟨by omega, fun _ => rfl⟩
  | @cclass bits c s ok c' s' step =>
      subst matched
      have moved := matchClass_pos step
      refine ⟨by omega, fun _ => ?_⟩
      have here := next s
      simp only [matchClass] at step
      split at step
      · cases step
      · next looked =>
          rw [looked] at here
          obtain rfl := Option.some.inj here
          split at step
          · assumption
          · cases step
  | @string chars c s ok c' s' step =>
      subst matched
      have moved := matchString_pos step
      cases chars with
      | nil => exact ⟨fun _ => rfl, fun different => absurd moved different⟩
      | cons x rest =>
          rw [List.length_cons] at moved
          refine ⟨by omega, fun _ => ?_⟩
          have here := head_of_matchString step
          rw [next s] at here
          exact beq_iff_eq.mpr (Option.some.inj here).symm
  | action | textBegin | textEnd => exact ⟨fun _ => rfl, fun different => absurd rfl different⟩
  | peekFor => exact ⟨fun _ => rfl, fun different => absurd rfl different⟩
  | @peekNot element c s c' s' failed _ =>
      refine ⟨fun _ => ?_, fun different => absurd rfl different⟩
      unfold Node.ahead
      split <;> try first | rfl | contradiction
      next x same =>
        cases same
        cases failed with
        | string step => exact bne_iff_ne.mpr (differs_of_matchString step (next s))
  | query_skip | star_end => exact ⟨fun _ => rfl, fun different => absurd rfl different⟩
  | @name r c s c' s' _ ih =>
      obtain ⟨stays, moves⟩ := ih matched (by simpa using next)
      rw [Cursor.enter_pos] at stays moves
      rw [Cursor.leave_pos]
      exact ⟨fun same => (covers r).1 (stays same), fun different => (covers r).2 (moves different)⟩
  | named _ ih => exact ih matched next
  | name_fail | named_fail | sequence_fail | peekFor_fail | peekNot_fail | plus_fail => cases matched
  | alternate _ ih =>
      obtain ⟨stays, moves⟩ := ih matched next
      exact ⟨fun same => by simp [Node.ahead, stays same],
        fun different => by simp [Node.ahead, moves different]⟩
  | alternate_next _ _ _ ih =>
      obtain ⟨stays, moves⟩ := ih matched next
      exact ⟨fun same => by simp [Node.ahead, stays same],
        fun different => by simp [Node.ahead, moves different]⟩
  | @sequence first second c s c₁ s₁ ok c₂ s₂ passed following ih ih' =>
      have forward := passed.forward rfl
      have forward' := following.forward matched
      obtain ⟨stays, moves⟩ := ih rfl next
      by_cases here : c₁.pos = c.pos
      · obtain ⟨stays', moves'⟩ := ih' matched (here ▸ next)
        refine ⟨fun same => ?_, fun different => ?_⟩
        · simp [Node.ahead, stays here, stays' (by omega)]
        · simp [Node.ahead, stays here, moves' (by omega)]
      · exact ⟨by omega, fun _ => by simp [Node.ahead, moves here]⟩
  | query _ ih =>
      obtain ⟨-, moves⟩ := ih matched next
      exact ⟨fun _ => rfl, moves⟩
  | @star element c s c₁ s₁ ok c₂ s₂ passed again ih ih' =>
      obtain ⟨-, moves⟩ := ih rfl next
      refine ⟨fun _ => rfl, fun different => ?_⟩
      by_cases here : c₁.pos = c.pos
      · exact (ih' matched (here ▸ next)).2 (here ▸ different)
      · exact moves here
  | @plus element c s c₁ s₁ ok c₂ s₂ passed again ih ih' =>
      have forward := passed.forward rfl
      have forward' := again.forward matched
      obtain ⟨stays, moves⟩ := ih rfl next
      refine ⟨fun same => stays (by omega), fun different => ?_⟩
      by_cases here : c₁.pos = c.pos
      · exact (ih' matched (here ▸ next)).2 (here ▸ different)
      · exact moves here

/-- A node that may do nothing in front of a byte fails there. -/
theorem Run.fails {b : UInt8} {table : ρ → Ahead} (covers : Covers b table rules) {ok : Bool}
    (run : Run look rules node c s ok c' s') (next : ∀ s, (look c.pos s).1 = some b)
    (nothing : (node.ahead b table).stays = false ∧ (node.ahead b table).moves = false) :
    ok = false := by
  cases ok with
  | false => rfl
  | true =>
      obtain ⟨stays, moves⟩ := run.ahead covers rfl next
      rw [nothing.1] at stays
      rw [nothing.2] at moves
      by_cases here : c'.pos = c.pos
      · cases stays here
      · cases moves here

end Ahead

end Greg
