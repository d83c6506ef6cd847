import Pone.Greg.Text

/-!
# Matches of given texts

A node and a text that it matches, wherever in a word the text stands: how such matches are put
together, and what they leave pending.
-/

namespace Greg

variable {ρ α : Type} (rules : ρ → Rule ρ α) (w : List UInt8)

/-- From `p` the node matches up to `q` and changes nothing else. -/
def Moves (node : Node ρ α) (p q : Nat) : Prop :=
  ∀ (c : Cursor α) (seen : Nat), c.pos = p →
    ∃ seen', Run (lookWord w) rules node c seen true { c with pos := q } seen'

/-- From `p` the node matches up to `q`, with pending thunks that have the property. -/
def Fits (node : Node ρ α) (p q : Nat) (pending : List (Thunk α) → Prop) : Prop :=
  ∀ (c : Cursor α) (seen : Nat), c.pos = p →
    ∃ c' seen' added, Run (lookWord w) rules node c seen true c' seen' ∧ c'.pos = q ∧
      c'.thunks = added ++ c.thunks ∧ pending added

/-- From `p` the node does not match. -/
def Misses (node : Node ρ α) (p : Nat) : Prop :=
  ∀ (c : Cursor α) (seen : Nat), c.pos = p →
    ∃ c' seen', Run (lookWord w) rules node c seen false c' seen'

variable {rules w} {node first second : Node ρ α} {p q r : Nat}
  {pending pending' whole : List (Thunk α) → Prop}

/-! ## Characters -/

theorem head_of_drop {b : UInt8} {rest : List UInt8} (here : w.drop p = b :: rest) :
    w[p]? = some b := by
  have found : (w.drop p)[0]? = w[p + 0]? := List.getElem?_drop
  rw [here, Nat.add_zero] at found
  exact found.symm

theorem tail_of_drop {b : UInt8} {rest : List UInt8} (here : w.drop p = b :: rest) :
    w.drop (p + 1) = rest := by
  rw [← List.tail_drop, here]
  rfl

theorem drop_of_append {text rest : List UInt8} (here : w.drop p = text ++ rest) :
    w.drop (p + text.length) = rest := by
  rw [← List.drop_drop, here, List.drop_left]

theorem yyText_of_drop {text rest : List UInt8} (here : w.drop p = text ++ rest) :
    yyText w p (p + text.length) = text := by
  rw [yyText, here, Nat.add_sub_cancel_left, List.take_left]

private theorem matchString_of_drop (saved : Nat) {chars rest : List UInt8} {c : Cursor α}
    (seen : Nat) (here : w.drop c.pos = chars ++ rest) :
    ∃ seen', matchString (lookWord w) saved chars c seen =
      (true, { c with pos := c.pos + chars.length }, seen') := by
  induction chars generalizing c seen with
  | nil => exact ⟨seen, rfl⟩
  | cons b chars ih =>
      obtain ⟨seen', matched⟩ := ih (c := c.advance) (max seen (c.pos + 1)) (tail_of_drop here)
      refine ⟨seen', ?_⟩
      rw [matchString, lookWord, head_of_drop here]
      rw [List.length_cons, Nat.add_comm chars.length, ← Nat.add_assoc]
      simp only [if_true]
      exact matched

theorem moves_string {chars rest : List UInt8} (here : w.drop p = chars ++ rest) :
    Moves rules w (.string chars) p (p + chars.length) := by
  rintro c seen rfl
  obtain ⟨seen', matched⟩ := matchString_of_drop c.pos seen here
  exact ⟨seen', .string matched⟩

theorem misses_string {chars : List UInt8} (other : ¬ chars <+: w.drop p) :
    Misses rules w (.string chars) p := by
  rintro c seen rfl
  obtain ⟨ok, c', seen', matched⟩ : ∃ ok c' seen',
    matchString (lookWord w) c.pos chars c seen = (ok, c', seen') := ⟨_, _, _, rfl⟩
  have run : Run (lookWord w) rules (.string chars) c seen ok c' seen' := .string matched
  cases ok with
  | false => exact ⟨c', seen', run⟩
  | true =>
      refine absurd ?_ other
      rw [← run.string_word.text, yyText]
      exact List.take_prefix _ _

theorem moves_class {bits : UInt8 → Bool} {b : UInt8} {rest : List UInt8}
    (here : w.drop p = b :: rest) (inClass : bits b = true) : Moves rules w (.cclass bits) p (p + 1) := by
  rintro c seen rfl
  have matched : matchClass (lookWord w) bits c seen = (true, c.advance, max seen (c.pos + 1)) := by
    simp only [matchClass, lookWord, head_of_drop here, inClass, if_true]
  exact ⟨_, .cclass matched⟩

theorem moves_dot {b : UInt8} {rest : List UInt8} (here : w.drop p = b :: rest) :
    Moves rules w .dot p (p + 1) := by
  rintro c seen rfl
  have matched : matchClass (lookWord w) (fun _ => true) c seen =
      (true, c.advance, max seen (c.pos + 1)) := by
    simp only [matchClass, lookWord, head_of_drop here, if_true]
  exact ⟨_, .dot matched⟩

theorem misses_class {bits : UInt8 → Bool} (outside : ∀ b, w[p]? = some b → bits b = false) :
    Misses rules w (.cclass bits) p := by
  rintro c seen rfl
  have failed : ∃ seen', matchClass (lookWord w) bits c seen = (false, c, seen') := by
    cases here : w[c.pos]? with
    | none => exact ⟨_, by simp only [matchClass, lookWord, here]; rfl⟩
    | some b => exact ⟨_, by simp only [matchClass, lookWord, here, outside b here]; rfl⟩
  obtain ⟨seen', matched⟩ := failed
  exact ⟨c, seen', .cclass matched⟩

/-! ## Sequences, choices and loops -/

theorem Moves.sequence (one : Moves rules w first p q) (other : Moves rules w second q r) :
    Moves rules w (.sequence first second) p r := by
  intro c seen here
  obtain ⟨seen₁, run⟩ := one c seen here
  obtain ⟨seen₂, run'⟩ := other { c with pos := q } seen₁ rfl
  exact ⟨seen₂, .sequence run run'⟩

theorem Moves.fits (moves : Moves rules w node p q) : Fits rules w node p q (· = []) := by
  intro c seen here
  obtain ⟨seen', run⟩ := moves c seen here
  exact ⟨_, seen', [], run, rfl, rfl, rfl⟩

theorem Fits.mono (fits : Fits rules w node p q pending)
    (weaker : ∀ added, pending added → pending' added) : Fits rules w node p q pending' := by
  intro c seen here
  obtain ⟨c', seen', added, run, there, thunks, kept⟩ := fits c seen here
  exact ⟨c', seen', added, run, there, thunks, weaker added kept⟩

theorem Fits.sequence (one : Fits rules w first p q pending)
    (other : Fits rules w second q r pending')
    (both : ∀ front back, pending front → pending' back → whole (back ++ front)) :
    Fits rules w (.sequence first second) p r whole := by
  intro c seen here
  obtain ⟨c₁, seen₁, front, run, there, thunks, kept⟩ := one c seen here
  obtain ⟨c₂, seen₂, back, run', there', thunks', kept'⟩ := other c₁ seen₁ there
  refine ⟨c₂, seen₂, back ++ front, .sequence run run', there', ?_, both front back kept kept'⟩
  rw [thunks', thunks, List.append_assoc]

/-- Behind a node that leaves nothing pending. -/
theorem Moves.sequence_fits (one : Moves rules w first p q)
    (other : Fits rules w second q r pending) : Fits rules w (.sequence first second) p r pending :=
  one.fits.sequence other fun front back none_left kept => by
    rw [none_left, List.append_nil]
    exact kept

theorem Misses.sequence (misses : Misses rules w first p) :
    Misses rules w (.sequence first second) p := by
  intro c seen here
  obtain ⟨c', seen', run⟩ := misses c seen here
  exact ⟨c', seen', .sequence_fail run⟩

theorem Moves.sequence_misses (moves : Moves rules w first p q) (misses : Misses rules w second q) :
    Misses rules w (.sequence first second) p := by
  intro c seen here
  obtain ⟨seen₁, run⟩ := moves c seen here
  obtain ⟨c', seen', run'⟩ := misses { c with pos := q } seen₁ rfl
  exact ⟨c', seen', .sequence run run'⟩

theorem Fits.alternate (fits : Fits rules w first p q pending) :
    Fits rules w (.alternate first second) p q pending := by
  intro c seen here
  obtain ⟨c', seen', added, run, rest⟩ := fits c seen here
  exact ⟨c', seen', added, .alternate run, rest⟩

theorem Misses.alternate_fits (misses : Misses rules w first p)
    (fits : Fits rules w second p q pending) :
    Fits rules w (.alternate first second) p q pending := by
  intro c seen here
  obtain ⟨c₁, seen₁, failed⟩ := misses c seen here
  obtain ⟨c', seen', added, run, rest⟩ := fits (c₁.restore c) seen₁ here
  exact ⟨c', seen', added, .alternate_next failed run, rest⟩

theorem Misses.alternate (misses : Misses rules w first p) (misses' : Misses rules w second p) :
    Misses rules w (.alternate first second) p := by
  intro c seen here
  obtain ⟨c₁, seen₁, failed⟩ := misses c seen here
  obtain ⟨c', seen', failed'⟩ := misses' (c₁.restore c) seen₁ here
  exact ⟨c', seen', .alternate_next failed failed'⟩

theorem Misses.star (misses : Misses rules w node p) : Fits rules w (.star node) p p (· = []) := by
  intro c seen here
  obtain ⟨c', seen', failed⟩ := misses c seen here
  exact ⟨_, seen', [], .star_end failed, here, rfl, rfl⟩

theorem Fits.star (fits : Fits rules w node p q pending)
    (again : Fits rules w (.star node) q r pending')
    (both : ∀ front back, pending front → pending' back → whole (back ++ front)) :
    Fits rules w (.star node) p r whole := by
  intro c seen here
  obtain ⟨c₁, seen₁, front, run, there, thunks, kept⟩ := fits c seen here
  obtain ⟨c₂, seen₂, back, run', there', thunks', kept'⟩ := again c₁ seen₁ there
  refine ⟨c₂, seen₂, back ++ front, .star run run', there', ?_, both front back kept kept'⟩
  rw [thunks', thunks, List.append_assoc]

/-- A repeated class matches the text up to the first character outside. -/
theorem moves_star_class {bits : UInt8 → Bool} {text rest : List UInt8}
    (here : w.drop p = text ++ rest) (all : ∀ b ∈ text, bits b = true)
    (stops : ∀ b ∈ rest.head?, bits b = false) :
    Moves rules w (.star (.cclass bits)) p (p + text.length) := by
  induction text generalizing p with
  | nil =>
      rintro c seen rfl
      obtain ⟨c', seen', failed⟩ : ∃ c' seen',
          Run (lookWord w) rules (.cclass bits) c seen false c' seen' := by
        refine misses_class (fun b found => stops b ?_) c seen rfl
        have head : (w.drop c.pos)[0]? = w[c.pos + 0]? := List.getElem?_drop
        rw [here, Nat.add_zero, found, List.nil_append] at head
        rw [List.head?_eq_getElem?, head]
        rfl
      obtain ⟨rfl, -⟩ := failed.cclass_fails
      exact ⟨seen', .star_end failed⟩
  | cons b text ih =>
      intro c seen there
      have one : Moves rules w (.cclass bits) p (p + 1) :=
        moves_class here (all b List.mem_cons_self)
      obtain ⟨seen₁, run⟩ := one c seen there
      obtain ⟨seen₂, again⟩ := ih (tail_of_drop here)
        (fun b member => all b (List.mem_cons_of_mem _ member)) { c with pos := p + 1 } seen₁ rfl
      refine ⟨seen₂, ?_⟩
      rw [List.length_cons, Nat.add_comm text.length, ← Nat.add_assoc]
      exact .star run again

theorem moves_plus_class {bits : UInt8 → Bool} {text rest : List UInt8}
    (here : w.drop p = text ++ rest) (nonempty : text ≠ []) (all : ∀ b ∈ text, bits b = true)
    (stops : ∀ b ∈ rest.head?, bits b = false) :
    Moves rules w (.plus (.cclass bits)) p (p + text.length) := by
  cases text with
  | nil => exact absurd rfl nonempty
  | cons b text =>
      intro c seen there
      have one : Moves rules w (.cclass bits) p (p + 1) :=
        moves_class here (all b List.mem_cons_self)
      have others : Moves rules w (.star (.cclass bits)) (p + 1) (p + 1 + text.length) :=
        moves_star_class (tail_of_drop here)
          (fun b member => all b (List.mem_cons_of_mem _ member)) stops
      obtain ⟨seen₁, run⟩ := one c seen there
      obtain ⟨seen₂, again⟩ := others { c with pos := p + 1 } seen₁ rfl
      refine ⟨seen₂, ?_⟩
      rw [List.length_cons, Nat.add_comm text.length, ← Nat.add_assoc]
      exact .plus run again

theorem Misses.plus (misses : Misses rules w node p) : Misses rules w (.plus node) p := by
  intro c seen here
  obtain ⟨c', seen', failed⟩ := misses c seen here
  exact ⟨c', seen', .plus_fail failed⟩

/-! ## Actions, marks and rules -/

/-- An action that does not look at the marked text. -/
theorem fits_action (act : α) :
    Fits rules w (.action act) p p fun added => ∃ a b, added = [.action act a b] := by
  intro c seen here
  exact ⟨_, seen, _, .action, here, rfl, c.first, c.last, rfl⟩

/-- An action on the text of a node between marks. -/
theorem Moves.marked (moves : Moves rules w node p q) (act : α) :
    Fits rules w (.sequence (.sequence .textBegin (.sequence node .textEnd)) (.action act)) p q
      (· = [.action act p q]) := by
  rintro c seen rfl
  obtain ⟨seen', run⟩ := moves { c with first := c.pos } seen rfl
  exact ⟨_, seen', _, .sequence (.sequence .textBegin (.sequence run .textEnd)) .action,
    rfl, rfl, rfl⟩

theorem Misses.marked (misses : Misses rules w node p) :
    Misses rules w (.sequence .textBegin (.sequence node second)) p := by
  rintro c seen rfl
  obtain ⟨c', seen', failed⟩ := misses { c with first := c.pos } seen rfl
  exact ⟨c', seen', .sequence .textBegin (.sequence_fail failed)⟩

variable {rule : ρ}

/-- A rule without variables. -/
theorem Moves.name (plain : (rules rule).varCount = 0)
    (moves : Moves rules w (rules rule).expression p q) : Moves rules w (.name rule) p q := by
  intro c seen here
  have entered : c.enter (rules rule).varCount = c := by
    rw [plain]
    rfl
  obtain ⟨seen', run⟩ := moves c seen here
  rw [← entered] at run
  have called := Run.name run
  rw [entered, plain] at called
  exact ⟨seen', called⟩

theorem Fits.name (plain : (rules rule).varCount = 0)
    (fits : Fits rules w (rules rule).expression p q pending) :
    Fits rules w (.name rule) p q pending := by
  intro c seen here
  have entered : c.enter (rules rule).varCount = c := by
    rw [plain]
    rfl
  obtain ⟨c', seen', added, run, rest⟩ := fits c seen here
  rw [← entered] at run
  have called := Run.name run
  rw [plain] at called
  exact ⟨c', seen', added, called, rest⟩

theorem Misses.name (misses : Misses rules w (rules rule).expression p) :
    Misses rules w (.name rule) p := by
  intro c seen here
  have same : (c.enter (rules rule).varCount).pos = p := by
    unfold Cursor.enter
    split <;> exact here
  obtain ⟨c', seen', failed⟩ := misses _ seen same
  exact ⟨_, seen', .name_fail failed⟩

/-- Two matches from one place leave the same pending. -/
theorem Fits.unique {q' : Nat} (one : Fits rules w node p q pending)
    (other : Fits rules w node p q' pending') :
    ∃ added, pending added ∧ pending' added ∧ q = q' := by
  obtain ⟨c₁, seen₁, added, run, there, thunks, kept⟩ := one ⟨p, 0, 0, []⟩ 0 rfl
  obtain ⟨c₂, seen₂, added', run', there', thunks', kept'⟩ := other ⟨p, 0, 0, []⟩ 0 rfl
  obtain ⟨-, rfl, -⟩ := run.unique run'
  rw [thunks, List.append_nil, List.append_nil] at thunks'
  exact ⟨added, kept, thunks' ▸ kept', there.symm.trans there'⟩

end Greg
