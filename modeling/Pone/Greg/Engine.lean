import Mathlib.Data.List.Basic

/-!
# Parsers generated by greg

A grammar is compiled to one C function for each rule, which reads characters at `G->pos`, saves the
position and the number of pending thunks before everything that may be given up, and restores them
where it is.  The actions of a rule are pushed as thunks and run after the whole parse.

`exec` is that code for any grammar, over a function `look` that answers the character at a position
or that there is none; reading ahead may change the state `σ` of the input.  A failing node leaves
the position and the thunks wherever they are, and the node that catches the failure restores them;
the marks of `<` and `>` are never restored.
-/

namespace Greg

/-- A node of a grammar, over the names of its rules and its actions. -/
inductive Node (ρ α : Type) where
  | dot
  | name (rule : ρ)
  /-- `v:rule`, with the number of the variable. -/
  | named (var : Nat) (rule : ρ)
  /-- A character or a string. -/
  | string (chars : List UInt8)
  | cclass (bits : UInt8 → Bool)
  | action (act : α)
  /-- `<`. -/
  | textBegin
  /-- `>`. -/
  | textEnd
  | alternate (first second : Node ρ α)
  | sequence (first second : Node ρ α)
  | peekFor (element : Node ρ α)
  | peekNot (element : Node ρ α)
  | query (element : Node ρ α)
  | star (element : Node ρ α)
  | plus (element : Node ρ α)

/-- A rule, with the number of its variables. -/
structure Rule (ρ α : Type) where
  varCount : Nat
  expression : Node ρ α

inductive Thunk (α : Type) where
  | yyPush (count : Nat)
  | yyPop (count : Nat)
  | yySet (var : Nat)
  | action (act : α) (first last : Nat)
  deriving DecidableEq

/-- The position, the marks of `<` and `>`, and the pending thunks, the latest first. -/
structure Cursor (α : Type) where
  pos : Nat
  first : Nat
  last : Nat
  thunks : List (Thunk α)
  deriving DecidableEq

namespace Cursor

variable {α : Type}

def start : Cursor α := ⟨0, 0, 0, []⟩

def advance (c : Cursor α) : Cursor α := { c with pos := c.pos + 1 }

def yyDo (c : Cursor α) (thunk : Thunk α) : Cursor α := { c with thunks := thunk :: c.thunks }

/-- Back to the position and the thunks of `saved`. -/
def restore (c saved : Cursor α) : Cursor α := { c with pos := saved.pos, thunks := saved.thunks }

/-- At the start of a rule. -/
def enter (c : Cursor α) (count : Nat) : Cursor α :=
  if count = 0 then c else c.yyDo (.yyPush count)

/-- At the end of a rule. -/
def leave (c : Cursor α) (count : Nat) : Cursor α :=
  if count = 0 then c else c.yyDo (.yyPop count)

end Cursor

section Exec

variable {ρ α σ : Type} (look : Nat → σ → Option UInt8 × σ) (rules : ρ → Rule ρ α)

/-- `yymatchString`; the position is not restored where the input ends. -/
def matchString (saved : Nat) : List UInt8 → Cursor α → σ → Bool × Cursor α × σ
  | [], c, s => (true, c, s)
  | b :: rest, c, s =>
      match look c.pos s with
      | (none, s') => (false, c, s')
      | (some b', s') =>
          if b' = b then matchString saved rest c.advance s'
          else (false, { c with pos := saved }, s')

/-- `yymatchDot` and `yymatchClass`. -/
def matchClass (bits : UInt8 → Bool) (c : Cursor α) (s : σ) : Bool × Cursor α × σ :=
  match look c.pos s with
  | (none, s') => (false, c, s')
  | (some b, s') => if bits b then (true, c.advance, s') else (false, c, s')

/-- What the code generated for a node does: whether it succeeds, and where it leaves the cursor and
the input. -/
def exec : Nat → Node ρ α → Cursor α → σ → Option (Bool × Cursor α × σ)
  | 0, _, _, _ => none
  | fuel + 1, node, c, s =>
      match node with
      | .dot => some (matchClass look (fun _ => true) c s)
      | .cclass bits => some (matchClass look bits c s)
      | .string chars => some (matchString look c.pos chars c s)
      | .action act => some (true, c.yyDo (.action act c.first c.last), s)
      | .textBegin => some (true, { c with first := c.pos }, s)
      | .textEnd => some (true, { c with last := c.pos }, s)
      | .name rule =>
          match exec fuel (rules rule).expression (c.enter (rules rule).varCount) s with
          | some (true, c', s') => some (true, c'.leave (rules rule).varCount, s')
          | some (false, c', s') => some (false, c'.restore c, s')
          | none => none
      | .named var rule =>
          match exec fuel (.name rule) c s with
          | some (true, c', s') => some (true, c'.yyDo (.yySet var), s')
          | failed => failed
      | .alternate first second =>
          match exec fuel first c s with
          | some (false, c', s') => exec fuel second (c'.restore c) s'
          | passed => passed
      | .sequence first second =>
          match exec fuel first c s with
          | some (true, c', s') => exec fuel second c' s'
          | failed => failed
      | .peekFor element =>
          match exec fuel element c s with
          | some (true, c', s') => some (true, c'.restore c, s')
          | failed => failed
      | .peekNot element =>
          match exec fuel element c s with
          | some (true, c', s') => some (false, c', s')
          | some (false, c', s') => some (true, c'.restore c, s')
          | none => none
      | .query element =>
          match exec fuel element c s with
          | some (false, c', s') => some (true, c'.restore c, s')
          | passed => passed
      | .star element =>
          match exec fuel element c s with
          | some (true, c', s') => exec fuel (.star element) c' s'
          | some (false, c', s') => some (true, c'.restore c, s')
          | none => none
      | .plus element =>
          match exec fuel element c s with
          | some (true, c', s') => exec fuel (.star element) c' s'
          | failed => failed

/-- The runs of a node that end, as a relation. -/
inductive Run : Node ρ α → Cursor α → σ → Bool → Cursor α → σ → Prop where
  | dot {c s ok c' s'} (matched : matchClass look (fun _ => true) c s = (ok, c', s')) :
      Run .dot c s ok c' s'
  | cclass {bits c s ok c' s'} (matched : matchClass look bits c s = (ok, c', s')) :
      Run (.cclass bits) c s ok c' s'
  | string {chars c s ok c' s'} (matched : matchString look c.pos chars c s = (ok, c', s')) :
      Run (.string chars) c s ok c' s'
  | action {act c s} : Run (.action act) c s true (c.yyDo (.action act c.first c.last)) s
  | textBegin {c s} : Run .textBegin c s true { c with first := c.pos } s
  | textEnd {c s} : Run .textEnd c s true { c with last := c.pos } s
  | name {rule c s c' s'}
      (body : Run (rules rule).expression (c.enter (rules rule).varCount) s true c' s') :
      Run (.name rule) c s true (c'.leave (rules rule).varCount) s'
  | name_fail {rule c s c' s'}
      (body : Run (rules rule).expression (c.enter (rules rule).varCount) s false c' s') :
      Run (.name rule) c s false (c'.restore c) s'
  | named {var rule c s c' s'} (call : Run (.name rule) c s true c' s') :
      Run (.named var rule) c s true (c'.yyDo (.yySet var)) s'
  | named_fail {var rule c s c' s'} (call : Run (.name rule) c s false c' s') :
      Run (.named var rule) c s false c' s'
  | alternate {first second c s c' s'} (passed : Run first c s true c' s') :
      Run (.alternate first second) c s true c' s'
  | alternate_next {first second c s c' s' ok c'' s''} (failed : Run first c s false c' s')
      (next : Run second (c'.restore c) s' ok c'' s'') :
      Run (.alternate first second) c s ok c'' s''
  | sequence {first second c s c' s' ok c'' s''} (passed : Run first c s true c' s')
      (next : Run second c' s' ok c'' s'') : Run (.sequence first second) c s ok c'' s''
  | sequence_fail {first second c s c' s'} (failed : Run first c s false c' s') :
      Run (.sequence first second) c s false c' s'
  | peekFor {element c s c' s'} (passed : Run element c s true c' s') :
      Run (.peekFor element) c s true (c'.restore c) s'
  | peekFor_fail {element c s c' s'} (failed : Run element c s false c' s') :
      Run (.peekFor element) c s false c' s'
  | peekNot {element c s c' s'} (failed : Run element c s false c' s') :
      Run (.peekNot element) c s true (c'.restore c) s'
  | peekNot_fail {element c s c' s'} (passed : Run element c s true c' s') :
      Run (.peekNot element) c s false c' s'
  | query {element c s c' s'} (passed : Run element c s true c' s') :
      Run (.query element) c s true c' s'
  | query_skip {element c s c' s'} (failed : Run element c s false c' s') :
      Run (.query element) c s true (c'.restore c) s'
  | star_end {element c s c' s'} (failed : Run element c s false c' s') :
      Run (.star element) c s true (c'.restore c) s'
  | star {element c s c' s' ok c'' s''} (passed : Run element c s true c' s')
      (again : Run (.star element) c' s' ok c'' s'') : Run (.star element) c s ok c'' s''
  | plus {element c s c' s' ok c'' s''} (passed : Run element c s true c' s')
      (again : Run (.star element) c' s' ok c'' s'') : Run (.plus element) c s ok c'' s''
  | plus_fail {element c s c' s'} (failed : Run element c s false c' s') :
      Run (.plus element) c s false c' s'

variable {look rules}

theorem Run.of_exec {fuel : Nat} {node : Node ρ α} {c c' : Cursor α} {s s' : σ} {ok : Bool}
    (executed : exec look rules fuel node c s = some (ok, c', s')) :
    Run look rules node c s ok c' s' := by
  induction fuel generalizing node c s ok c' s' with
  | zero => cases executed
  | succ fuel ih =>
      cases node with
      | dot => exact .dot (Option.some.inj executed)
      | cclass bits => exact .cclass (Option.some.inj executed)
      | string chars => exact .string (Option.some.inj executed)
      | action act => cases executed; exact .action
      | textBegin => cases executed; exact .textBegin
      | textEnd => cases executed; exact .textEnd
      | name rule =>
          simp only [exec] at executed
          split at executed
          · next body => cases executed; exact .name (ih body)
          · next body => cases executed; exact .name_fail (ih body)
          · cases executed
      | named var rule =>
          simp only [exec] at executed
          split at executed
          · next call => cases executed; exact .named (ih call)
          · next other =>
              cases ok with
              | true => exact (other _ _ executed).elim
              | false => exact .named_fail (ih executed)
      | alternate first second =>
          simp only [exec] at executed
          split at executed
          · next failed => exact .alternate_next (ih failed) (ih executed)
          · next other =>
              cases ok with
              | true => exact .alternate (ih executed)
              | false => exact (other _ _ executed).elim
      | sequence first second =>
          simp only [exec] at executed
          split at executed
          · next passed => exact .sequence (ih passed) (ih executed)
          · next other =>
              cases ok with
              | true => exact (other _ _ executed).elim
              | false => exact .sequence_fail (ih executed)
      | peekFor element =>
          simp only [exec] at executed
          split at executed
          · next passed => cases executed; exact .peekFor (ih passed)
          · next other =>
              cases ok with
              | true => exact (other _ _ executed).elim
              | false => exact .peekFor_fail (ih executed)
      | peekNot element =>
          simp only [exec] at executed
          split at executed
          · next passed => cases executed; exact .peekNot_fail (ih passed)
          · next failed => cases executed; exact .peekNot (ih failed)
          · cases executed
      | query element =>
          simp only [exec] at executed
          split at executed
          · next failed => cases executed; exact .query_skip (ih failed)
          · next other =>
              cases ok with
              | true => exact .query (ih executed)
              | false => exact (other _ _ executed).elim
      | star element =>
          simp only [exec] at executed
          split at executed
          · next passed => exact .star (ih passed) (ih executed)
          · next failed => cases executed; exact .star_end (ih failed)
          · cases executed
      | plus element =>
          simp only [exec] at executed
          split at executed
          · next passed => exact .plus (ih passed) (ih executed)
          · next other =>
              cases ok with
              | true => exact (other _ _ executed).elim
              | false => exact .plus_fail (ih executed)

/-- More fuel changes nothing. -/
theorem exec_succ {fuel : Nat} {node : Node ρ α} {c : Cursor α} {s : σ}
    {result : Bool × Cursor α × σ} (executed : exec look rules fuel node c s = some result) :
    exec look rules (fuel + 1) node c s = some result := by
  induction fuel generalizing node c s result with
  | zero => cases executed
  | succ fuel ih =>
      cases node with
      | dot => exact executed
      | cclass bits => exact executed
      | string chars => exact executed
      | action act => exact executed
      | textBegin => exact executed
      | textEnd => exact executed
      | name rule =>
          rw [exec] at executed ⊢
          cases body : exec look rules fuel (rules rule).expression
              (c.enter (rules rule).varCount) s with
          | none => rw [body] at executed; cases executed
          | some r => rw [body] at executed; rw [ih body]; exact executed
      | named var rule =>
          rw [exec] at executed ⊢
          cases call : exec look rules fuel (.name rule) c s with
          | none => rw [call] at executed; cases executed
          | some r => rw [call] at executed; rw [ih call]; exact executed
      | alternate first second =>
          rw [exec] at executed ⊢
          cases one : exec look rules fuel first c s with
          | none => rw [one] at executed; cases executed
          | some r =>
              rw [one] at executed
              rw [ih one]
              obtain ⟨_ | _, c', s'⟩ := r
              · exact ih executed
              · exact executed
      | sequence first second =>
          rw [exec] at executed ⊢
          cases one : exec look rules fuel first c s with
          | none => rw [one] at executed; cases executed
          | some r =>
              rw [one] at executed
              rw [ih one]
              obtain ⟨_ | _, c', s'⟩ := r
              · exact executed
              · exact ih executed
      | peekFor element =>
          rw [exec] at executed ⊢
          cases one : exec look rules fuel element c s with
          | none => rw [one] at executed; cases executed
          | some r => rw [one] at executed; rw [ih one]; exact executed
      | peekNot element =>
          rw [exec] at executed ⊢
          cases one : exec look rules fuel element c s with
          | none => rw [one] at executed; cases executed
          | some r => rw [one] at executed; rw [ih one]; exact executed
      | query element =>
          rw [exec] at executed ⊢
          cases one : exec look rules fuel element c s with
          | none => rw [one] at executed; cases executed
          | some r => rw [one] at executed; rw [ih one]; exact executed
      | star element =>
          rw [exec] at executed ⊢
          cases one : exec look rules fuel element c s with
          | none => rw [one] at executed; cases executed
          | some r =>
              rw [one] at executed
              rw [ih one]
              obtain ⟨_ | _, c', s'⟩ := r
              · exact executed
              · exact ih executed
      | plus element =>
          rw [exec] at executed ⊢
          cases one : exec look rules fuel element c s with
          | none => rw [one] at executed; cases executed
          | some r =>
              rw [one] at executed
              rw [ih one]
              obtain ⟨_ | _, c', s'⟩ := r
              · exact executed
              · exact ih executed

theorem exec_mono {fuel fuel' : Nat} {node : Node ρ α} {c : Cursor α} {s : σ}
    {result : Bool × Cursor α × σ} (executed : exec look rules fuel node c s = some result)
    (more : fuel ≤ fuel') : exec look rules fuel' node c s = some result := by
  induction more with
  | refl => exact executed
  | step _ ih => exact exec_succ ih

/-- Two runs, with the fuel of the longer. -/
private theorem exec_both {node next : Node ρ α} {c d : Cursor α} {s t : σ}
    {result result' : Bool × Cursor α × σ}
    (first : ∃ fuel, exec look rules fuel node c s = some result)
    (second : ∃ fuel, exec look rules fuel next d t = some result') :
    ∃ fuel, exec look rules fuel node c s = some result ∧
      exec look rules fuel next d t = some result' := by
  obtain ⟨fuel, first⟩ := first
  obtain ⟨fuel', second⟩ := second
  exact ⟨max fuel fuel', exec_mono first (Nat.le_max_left _ _),
    exec_mono second (Nat.le_max_right _ _)⟩

theorem Run.exists_exec {node : Node ρ α} {c c' : Cursor α} {s s' : σ} {ok : Bool}
    (run : Run look rules node c s ok c' s') :
    ∃ fuel, exec look rules fuel node c s = some (ok, c', s') := by
  induction run with
  | dot matched => exact ⟨1, congrArg some matched⟩
  | cclass matched => exact ⟨1, congrArg some matched⟩
  | string matched => exact ⟨1, congrArg some matched⟩
  | action => exact ⟨1, rfl⟩
  | textBegin => exact ⟨1, rfl⟩
  | textEnd => exact ⟨1, rfl⟩
  | name _ ih | name_fail _ ih | named _ ih | named_fail _ ih | alternate _ ih
  | sequence_fail _ ih | peekFor _ ih | peekFor_fail _ ih | peekNot _ ih | peekNot_fail _ ih
  | query _ ih | query_skip _ ih | star_end _ ih | plus_fail _ ih =>
      obtain ⟨fuel, ih⟩ := ih
      exact ⟨fuel + 1, by simp only [exec, ih]⟩
  | alternate_next _ _ ih ih' | sequence _ _ ih ih' | star _ _ ih ih' | plus _ _ ih ih' =>
      obtain ⟨fuel, first, second⟩ := exec_both ih ih'
      exact ⟨fuel + 1, by simp only [exec, first, second]⟩

theorem run_iff_exec {node : Node ρ α} {c c' : Cursor α} {s s' : σ} {ok : Bool} :
    Run look rules node c s ok c' s' ↔
      ∃ fuel, exec look rules fuel node c s = some (ok, c', s') :=
  ⟨Run.exists_exec, fun ⟨_, executed⟩ => .of_exec executed⟩

theorem Run.unique {node : Node ρ α} {c c₁ c₂ : Cursor α} {s s₁ s₂ : σ} {ok₁ ok₂ : Bool}
    (one : Run look rules node c s ok₁ c₁ s₁) (other : Run look rules node c s ok₂ c₂ s₂) :
    ok₁ = ok₂ ∧ c₁ = c₂ ∧ s₁ = s₂ := by
  obtain ⟨fuel, one, other⟩ := exec_both one.exists_exec other.exists_exec
  rw [one] at other
  cases other
  exact ⟨rfl, rfl, rfl⟩

end Exec

end Greg
