import Pone.Greg.Engine

/-!
# Runs over different inputs

A run depends on its input only through the answers to `look`.  What holds of the position and the
input and is kept by every look holds through the whole run, and two inputs that give the same
answers give the same run.
-/

namespace Greg

variable {ρ α σ τ : Type} {rules : ρ → Rule ρ α}

@[simp]
theorem Cursor.enter_pos (c : Cursor α) (count : Nat) : (c.enter count).pos = c.pos := by
  unfold Cursor.enter
  split <;> rfl

@[simp]
theorem Cursor.leave_pos (c : Cursor α) (count : Nat) : (c.leave count).pos = c.pos := by
  unfold Cursor.leave
  split <;> rfl

@[simp]
theorem Cursor.yyDo_pos (c : Cursor α) (thunk : Thunk α) : (c.yyDo thunk).pos = c.pos := rfl

@[simp]
theorem Cursor.restore_pos (c saved : Cursor α) : (c.restore saved).pos = saved.pos := rfl

@[simp]
theorem Cursor.advance_pos (c : Cursor α) : c.advance.pos = c.pos + 1 := rfl

/-- What looking keeps: `holds` of a position, wherever else the parser looks, and of the position
after a character that was found. -/
structure Kept (look : Nat → σ → Option UInt8 × σ) where
  holds : Nat → σ → Prop
  keep : ∀ {p q s}, holds p s → holds q s → holds q (look p s).2
  next : ∀ {p s b}, holds p s → (look p s).1 = some b → holds (p + 1) (look p s).2

namespace Kept

variable {look : Nat → σ → Option UInt8 × σ} (kept : Kept look)

theorem matchClass {bits : UInt8 → Bool} {c c' : Cursor α} {s s' : σ} {ok : Bool}
    (matched : matchClass look bits c s = (ok, c', s')) (start : kept.holds c.pos s) :
    kept.holds c'.pos s' ∧ ∀ q, kept.holds q s → kept.holds q s' := by
  have stays : ∀ q, kept.holds q s → kept.holds q (look c.pos s).2 := fun q => kept.keep start
  unfold Greg.matchClass at matched
  split at matched
  · next looked =>
      cases matched
      rw [looked] at stays
      exact ⟨stays _ start, stays⟩
  · next b s₁ looked =>
      have next := kept.next start (congrArg Prod.fst looked)
      rw [looked] at stays next
      split at matched
      · cases matched
        exact ⟨next, stays⟩
      · cases matched
        exact ⟨stays _ start, stays⟩

theorem matchString {saved : Nat} {chars : List UInt8} {c c' : Cursor α} {s s' : σ} {ok : Bool}
    (matched : matchString look saved chars c s = (ok, c', s')) (start : kept.holds c.pos s)
    (back : kept.holds saved s) :
    kept.holds c'.pos s' ∧ ∀ q, kept.holds q s → kept.holds q s' := by
  induction chars generalizing c s with
  | nil =>
      cases matched
      exact ⟨start, fun _ => id⟩
  | cons b rest ih =>
      have stays : ∀ q, kept.holds q s → kept.holds q (look c.pos s).2 := fun q => kept.keep start
      rw [Greg.matchString] at matched
      split at matched
      · next looked =>
          cases matched
          rw [looked] at stays
          exact ⟨stays _ start, stays⟩
      · next b' s₁ looked =>
          have next := kept.next start (congrArg Prod.fst looked)
          rw [looked] at stays next
          split at matched
          · obtain ⟨there, further⟩ := ih matched next (stays _ back)
            exact ⟨there, fun q here => further q (stays q here)⟩
          · cases matched
            exact ⟨stays _ back, stays⟩

/-- Through a whole run. -/
theorem run {node : Node ρ α} {c c' : Cursor α} {s s' : σ} {ok : Bool}
    (run : Run look rules node c s ok c' s') (start : kept.holds c.pos s) :
    kept.holds c'.pos s' ∧ ∀ q, kept.holds q s → kept.holds q s' := by
  induction run with
  | dot matched | cclass matched => exact kept.matchClass matched start
  | string matched => exact kept.matchString matched start start
  | action | textBegin | textEnd => exact ⟨start, fun _ => id⟩
  | name _ ih | named _ ih | named_fail _ ih | alternate _ ih | sequence_fail _ ih
  | peekFor_fail _ ih | peekNot_fail _ ih | query _ ih | plus_fail _ ih =>
      simpa using ih (by simpa using start)
  | name_fail _ ih | peekFor _ ih | peekNot _ ih | query_skip _ ih | star_end _ ih =>
      obtain ⟨-, stays⟩ := ih (by simpa using start)
      exact ⟨stays _ start, stays⟩
  | alternate_next _ _ ih ih' =>
      obtain ⟨-, stays⟩ := ih start
      obtain ⟨there, further⟩ := ih' (stays _ start)
      exact ⟨there, fun q here => further q (stays q here)⟩
  | sequence _ _ ih ih' | star _ _ ih ih' | plus _ _ ih ih' =>
      obtain ⟨next, stays⟩ := ih start
      obtain ⟨there, further⟩ := ih' next
      exact ⟨there, fun q here => further q (stays q here)⟩

end Kept

/-- A relation between two inputs that give the same answers, as long as the state of the second is
`good`; a state that is good at the end was good all along. -/
structure Simulation (look : Nat → σ → Option UInt8 × σ) (look' : Nat → τ → Option UInt8 × τ)
    extends Kept look' where
  rel : σ → τ → Prop
  good : τ → Prop
  before : ∀ {p t}, good (look' p t).2 → good t
  step : ∀ {p s t}, rel s t → holds p t → good (look' p t).2 →
    (look p s).1 = (look' p t).1 ∧ rel (look p s).2 (look' p t).2

namespace Simulation

variable {look : Nat → σ → Option UInt8 × σ} {look' : Nat → τ → Option UInt8 × τ}
  (sim : Simulation look look')

theorem before_matchString {saved : Nat} {chars : List UInt8} {c c' : Cursor α} {t t' : τ}
    {ok : Bool} (matched : Greg.matchString look' saved chars c t = (ok, c', t'))
    (good : sim.good t') : sim.good t := by
  induction chars generalizing c t with
  | nil =>
      cases matched
      exact good
  | cons b rest ih =>
      apply sim.before (p := c.pos)
      rw [Greg.matchString] at matched
      split at matched
      · next looked =>
          cases matched
          rwa [looked]
      · next looked =>
          rw [looked]
          split at matched
          · exact ih matched
          · cases matched
            exact good

theorem before_matchClass {bits : UInt8 → Bool} {c c' : Cursor α} {t t' : τ} {ok : Bool}
    (matched : Greg.matchClass look' bits c t = (ok, c', t')) (good : sim.good t') :
    sim.good t := by
  apply sim.before (p := c.pos)
  unfold Greg.matchClass at matched
  split at matched
  · next looked =>
      cases matched
      rwa [looked]
  · next looked =>
      rw [looked]
      split at matched <;>
        · cases matched
          exact good

theorem before_run {node : Node ρ α} {c c' : Cursor α} {t t' : τ} {ok : Bool}
    (run : Run look' rules node c t ok c' t') (good : sim.good t') : sim.good t := by
  induction run with
  | dot matched | cclass matched => exact sim.before_matchClass matched good
  | string matched => exact sim.before_matchString matched good
  | action | textBegin | textEnd => exact good
  | name _ ih | named _ ih | named_fail _ ih | alternate _ ih | sequence_fail _ ih
  | peekFor_fail _ ih | peekNot_fail _ ih | query _ ih | plus_fail _ ih
  | name_fail _ ih | peekFor _ ih | peekNot _ ih | query_skip _ ih | star_end _ ih =>
      exact ih good
  | alternate_next _ _ ih ih' | sequence _ _ ih ih' | star _ _ ih ih' | plus _ _ ih ih' =>
      exact ih (ih' good)

theorem look_eq {p : Nat} {s : σ} {t t' : τ} {answer : Option UInt8}
    (looked : look' p t = (answer, t')) (good : sim.good t') (start : sim.holds p t)
    (related : sim.rel s t) : ∃ s', look p s = (answer, s') ∧ sim.rel s' t' := by
  obtain ⟨same, related⟩ := sim.step related start (by rwa [looked])
  rw [looked] at same related
  exact ⟨(look p s).2, Prod.ext same rfl, related⟩

theorem matchClass {bits : UInt8 → Bool} {c c' : Cursor α} {s : σ} {t t' : τ} {ok : Bool}
    (matched : Greg.matchClass look' bits c t = (ok, c', t')) (good : sim.good t')
    (start : sim.holds c.pos t) (related : sim.rel s t) :
    ∃ s', Greg.matchClass look bits c s = (ok, c', s') ∧ sim.rel s' t' := by
  unfold Greg.matchClass at matched ⊢
  split at matched
  · next looked =>
      cases matched
      obtain ⟨s', there, related⟩ := sim.look_eq looked good start related
      exact ⟨s', by rw [there], related⟩
  · next b t₁ looked =>
      have last : t₁ = t' := by split at matched <;> cases matched <;> rfl
      subst last
      obtain ⟨s', there, related⟩ := sim.look_eq looked good start related
      refine ⟨s', ?_, related⟩
      rw [there]
      split at matched
      · next inside =>
          cases matched
          simp [inside]
      · next outside =>
          cases matched
          simp [outside]

theorem matchString {saved : Nat} {chars : List UInt8} {c c' : Cursor α} {s : σ} {t t' : τ}
    {ok : Bool} (matched : Greg.matchString look' saved chars c t = (ok, c', t'))
    (good : sim.good t') (start : sim.holds c.pos t) (related : sim.rel s t) :
    ∃ s', Greg.matchString look saved chars c s = (ok, c', s') ∧ sim.rel s' t' := by
  induction chars generalizing c s t with
  | nil =>
      cases matched
      exact ⟨s, rfl, related⟩
  | cons b rest ih =>
      rw [Greg.matchString] at matched ⊢
      split at matched
      · next looked =>
          cases matched
          obtain ⟨s', there, related⟩ := sim.look_eq looked good start related
          exact ⟨s', by rw [there], related⟩
      · next b' t₁ looked =>
          have fine : sim.good t₁ := by
            split at matched
            · exact sim.before_matchString matched good
            · cases matched
              exact good
          obtain ⟨s', there, related⟩ := sim.look_eq looked fine start related
          have next := sim.next start (congrArg Prod.fst looked)
          rw [looked] at next
          rw [there]
          split at matched
          · next equal =>
              obtain ⟨s'', second, related⟩ := ih matched next related
              exact ⟨s'', by simpa [equal] using second, related⟩
          · next different =>
              cases matched
              exact ⟨s', by simp [different], related⟩

/-- A run over the second input is one over the first. -/
theorem run {node : Node ρ α} {c c' : Cursor α} {s : σ} {t t' : τ} {ok : Bool}
    (run : Run look' rules node c t ok c' t') (good : sim.good t') (start : sim.holds c.pos t)
    (related : sim.rel s t) :
    ∃ s', Run look rules node c s ok c' s' ∧ sim.rel s' t' := by
  induction run generalizing s with
  | dot matched =>
      obtain ⟨s', there, related⟩ := sim.matchClass matched good start related
      exact ⟨s', .dot there, related⟩
  | cclass matched =>
      obtain ⟨s', there, related⟩ := sim.matchClass matched good start related
      exact ⟨s', .cclass there, related⟩
  | string matched =>
      obtain ⟨s', there, related⟩ := sim.matchString matched good start related
      exact ⟨s', .string there, related⟩
  | action => exact ⟨s, .action, related⟩
  | textBegin => exact ⟨s, .textBegin, related⟩
  | textEnd => exact ⟨s, .textEnd, related⟩
  | name _ ih =>
      obtain ⟨s', body, related⟩ := ih good (by simpa using start) related
      exact ⟨s', .name body, related⟩
  | name_fail _ ih =>
      obtain ⟨s', body, related⟩ := ih good (by simpa using start) related
      exact ⟨s', .name_fail body, related⟩
  | named _ ih =>
      obtain ⟨s', call, related⟩ := ih good start related
      exact ⟨s', .named call, related⟩
  | named_fail _ ih =>
      obtain ⟨s', call, related⟩ := ih good start related
      exact ⟨s', .named_fail call, related⟩
  | alternate _ ih =>
      obtain ⟨s', passed, related⟩ := ih good start related
      exact ⟨s', .alternate passed, related⟩
  | alternate_next failed next ih ih' =>
      obtain ⟨s', first, related⟩ := ih (sim.before_run next good) start related
      obtain ⟨-, stays⟩ := sim.toKept.run failed start
      obtain ⟨s'', second, related⟩ := ih' good (stays _ start) related
      exact ⟨s'', .alternate_next first second, related⟩
  | sequence passed next ih ih' =>
      obtain ⟨s', first, related⟩ := ih (sim.before_run next good) start related
      obtain ⟨there, -⟩ := sim.toKept.run passed start
      obtain ⟨s'', second, related⟩ := ih' good there related
      exact ⟨s'', .sequence first second, related⟩
  | sequence_fail _ ih =>
      obtain ⟨s', failed, related⟩ := ih good start related
      exact ⟨s', .sequence_fail failed, related⟩
  | peekFor _ ih =>
      obtain ⟨s', passed, related⟩ := ih good start related
      exact ⟨s', .peekFor passed, related⟩
  | peekFor_fail _ ih =>
      obtain ⟨s', failed, related⟩ := ih good start related
      exact ⟨s', .peekFor_fail failed, related⟩
  | peekNot _ ih =>
      obtain ⟨s', failed, related⟩ := ih good start related
      exact ⟨s', .peekNot failed, related⟩
  | peekNot_fail _ ih =>
      obtain ⟨s', passed, related⟩ := ih good start related
      exact ⟨s', .peekNot_fail passed, related⟩
  | query _ ih =>
      obtain ⟨s', passed, related⟩ := ih good start related
      exact ⟨s', .query passed, related⟩
  | query_skip _ ih =>
      obtain ⟨s', failed, related⟩ := ih good start related
      exact ⟨s', .query_skip failed, related⟩
  | star_end _ ih =>
      obtain ⟨s', failed, related⟩ := ih good start related
      exact ⟨s', .star_end failed, related⟩
  | star passed again ih ih' =>
      obtain ⟨s', first, related⟩ := ih (sim.before_run again good) start related
      obtain ⟨there, -⟩ := sim.toKept.run passed start
      obtain ⟨s'', second, related⟩ := ih' good there related
      exact ⟨s'', .star first second, related⟩
  | plus passed again ih ih' =>
      obtain ⟨s', first, related⟩ := ih (sim.before_run again good) start related
      obtain ⟨there, -⟩ := sim.toKept.run passed start
      obtain ⟨s'', second, related⟩ := ih' good there related
      exact ⟨s'', .plus first second, related⟩
  | plus_fail _ ih =>
      obtain ⟨s', failed, related⟩ := ih good start related
      exact ⟨s', .plus_fail failed, related⟩

end Simulation

end Greg
