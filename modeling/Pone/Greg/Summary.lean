import Mathlib.Logic.Relation
import Pone.Greg.Invariant

/-!
# What the actions of a run do

The thunks that a run pushes are run later, and those of a rule are run with those of the rules that
it calls.  A summary says for each rule what its thunks do to the machine; `Node.Does` extends it to
the nodes, and it is right where every body does what the summary says.  `Within` is the summary
that a rule leaves the variables below its own alone.
-/

namespace Greg

variable {ρ V D σ : Type}

/-- What the thunks of a node may do, given what those of the rules do. -/
def Node.Does (summary : ρ → Machine V D → Machine V D → Prop) :
    Node ρ (Action V D) → Machine V D → Machine V D → Prop
  | .action act, m, m' => ∃ yytext, act yytext m = some m'
  | .name rule, m, m' => summary rule m m'
  | .named var rule, m, m' => ∃ m₁, summary rule m m₁ ∧ m₁.setVar var m₁.ss = m'
  | .alternate first second, m, m' => first.Does summary m m' ∨ second.Does summary m m'
  | .sequence first second, m, m' => ∃ m₁, first.Does summary m m₁ ∧ second.Does summary m₁ m'
  | .query element, m, m' => m = m' ∨ element.Does summary m m'
  | .star element, m, m' => Relation.ReflTransGen (element.Does summary) m m'
  | .plus element, m, m' =>
      ∃ m₁, element.Does summary m m₁ ∧ Relation.ReflTransGen (element.Does summary) m₁ m'
  | .dot, m, m' | .string _, m, m' | .cclass _, m, m' | .textBegin, m, m' | .textEnd, m, m'
  | .peekFor _, m, m' | .peekNot _, m, m' => m = m'

/-- The machine inside a rule with `count` variables. -/
def Machine.push (m : Machine V D) (count : Nat) : Machine V D := { m with val := m.val + count }

def Machine.pop (m : Machine V D) (count : Nat) : Machine V D := { m with val := m.val - count }

/-- Every body does what the summary says of its rule. -/
def Summarizes (rules : ρ → Rule ρ (Action V D))
    (summary : ρ → Machine V D → Machine V D → Prop) : Prop :=
  ∀ r m m', (rules r).expression.Does summary (m.push (rules r).varCount) m' →
    summary r m (m'.pop (rules r).varCount)

/-- A node without actions and calls. -/
def Node.Silent {α : Type} : Node ρ α → Prop
  | .action _ | .name _ | .named _ _ => False
  | .alternate first second | .sequence first second => first.Silent ∧ second.Silent
  | .query element | .star element | .plus element => element.Silent
  | .dot | .string _ | .cclass _ | .textBegin | .textEnd | .peekFor _ | .peekNot _ => True

/-- A node that stores nothing in `$$` or a variable, if the rules that it calls do not. -/
def Node.Blank (blank : ρ → Prop) : Node ρ (Action V D) → Prop
  | .action act => ∀ yytext m m', act yytext m = some m' → m'.ss = m.ss
  | .name rule => blank rule
  | .named _ _ => False
  | .alternate first second | .sequence first second => first.Blank blank ∧ second.Blank blank
  | .query element | .star element | .plus element => element.Blank blank
  | .dot | .string _ | .cclass _ | .textBegin | .textEnd | .peekFor _ | .peekNot _ => True

section Nodes

variable {summary : ρ → Machine V D → Machine V D → Prop} {node element : Node ρ (Action V D)}
  {m m' : Machine V D}

theorem Node.Does.star_keeps {P : Machine V D → Prop}
    (again : (Node.star element).Does summary m m') (now : P m)
    (keeps : ∀ {m m'}, P m → element.Does summary m m' → P m') : P m' := by
  have steps : Relation.ReflTransGen (element.Does summary) m m' := again
  induction steps with
  | refl => exact now
  | tail done last ih => exact keeps (ih done) last

theorem Node.Silent.does (silent : node.Silent) (does : node.Does summary m m') : m = m' := by
  induction node generalizing m m' with
  | action | name | named => exact silent.elim
  | dot | string | cclass | textBegin | textEnd | peekFor | peekNot => exact does
  | alternate first second ih ih' => exact does.elim (ih silent.1) (ih' silent.2)
  | sequence first second ih ih' =>
      obtain ⟨m₁, does, does'⟩ := does
      exact (ih silent.1 does).trans (ih' silent.2 does')
  | query element ih => exact does.elim id (ih silent)
  | star element ih => exact does.star_keeps rfl fun same next => same.trans (ih silent next)
  | plus element ih =>
      obtain ⟨m₁, first, again⟩ := does
      exact (ih silent first).trans
        (Node.Does.star_keeps again rfl fun same next => same.trans (ih silent next))

theorem Node.Blank.does {blank : ρ → Prop} (calls : ∀ {r m m'}, blank r → summary r m m' → m'.ss = m.ss)
    (blanks : node.Blank blank) (does : node.Does summary m m') : m'.ss = m.ss := by
  induction node generalizing m m' with
  | action act =>
      obtain ⟨yytext, ran⟩ := does
      exact blanks yytext m m' ran
  | name rule => exact calls blanks does
  | named => exact blanks.elim
  | dot | string | cclass | textBegin | textEnd | peekFor | peekNot => exact congrArg _ does.symm
  | alternate first second ih ih' => exact does.elim (ih blanks.1) (ih' blanks.2)
  | sequence first second ih ih' =>
      obtain ⟨m₁, does, does'⟩ := does
      exact (ih' blanks.2 does').trans (ih blanks.1 does)
  | query element ih =>
      rcases does with rfl | does
      · rfl
      · exact ih blanks does
  | star element ih =>
      exact does.star_keeps (P := fun m₁ => m₁.ss = m.ss) rfl fun same next =>
        (ih blanks next).trans same
  | plus element ih =>
      obtain ⟨m₁, first, again⟩ := does
      exact Node.Does.star_keeps (P := fun m₂ => m₂.ss = m.ss) again (ih blanks first)
        fun same next => (ih blanks next).trans same

end Nodes

section Runs

variable {look : Nat → σ → Option UInt8 × σ} {rules : ρ → Rule ρ (Action V D)}
  {summary : ρ → Machine V D → Machine V D → Prop} {node : Node ρ (Action V D)}
  {c c' : Cursor (Action V D)} {s s' : σ} {buf : List UInt8} {m m' : Machine V D}

/-- The thunks that a run has pushed do what its node may do. -/
def Pushes (summary : ρ → Machine V D → Machine V D → Prop) (node : Node ρ (Action V D))
    (c c' : Cursor (Action V D)) : Prop :=
  ∃ new, c'.thunks = new ++ c.thunks ∧
    ∀ {buf m m'}, yyDone buf new m = some m' → node.Does summary m m'

private theorem pushes_nothing (idle : ∀ m, node.Does summary m m) (same : c'.thunks = c.thunks) :
    Pushes summary node c c' := by
  refine ⟨[], same, fun ran => ?_⟩
  cases ran
  exact idle _

private theorem Pushes.imp {other : Node ρ (Action V D)} (pushes : Pushes summary node c c')
    (does : ∀ {m m'}, node.Does summary m m' → other.Does summary m m') :
    Pushes summary other c c' := by
  obtain ⟨new, pushed, done⟩ := pushes
  exact ⟨new, pushed, fun ran => does (done ran)⟩

private theorem Pushes.trans {first second both : Node ρ (Action V D)} {c₁ : Cursor (Action V D)}
    (before : Pushes summary first c c₁) (after : Pushes summary second c₁ c')
    (does : ∀ {m m₁ m'}, first.Does summary m m₁ → second.Does summary m₁ m' →
      both.Does summary m m') : Pushes summary both c c' := by
  obtain ⟨new, pushed, done⟩ := before
  obtain ⟨new', pushed', done'⟩ := after
  refine ⟨new' ++ new, by rw [pushed', pushed, List.append_assoc], fun ran => ?_⟩
  rw [yyDone_append] at ran
  obtain ⟨m₁, ran, ran'⟩ := Option.bind_eq_some_iff.mp ran
  exact does (done ran) (done' ran')

private theorem pushes_rule {rule : ρ} (summarizes : Summarizes rules summary)
    (body : Pushes summary (rules rule).expression (c.enter (rules rule).varCount) c') :
    Pushes summary (.name rule) c (c'.leave (rules rule).varCount) := by
  obtain ⟨new, pushed, done⟩ := body
  by_cases none : (rules rule).varCount = 0
  · refine ⟨new, ?_, fun ran => ?_⟩
    · rwa [Cursor.leave, if_pos none, Cursor.enter, if_pos none] at *
    · have summarized := summarizes rule _ _ (done (by rwa [none]))
      rwa [none] at summarized
  · refine ⟨.yyPop (rules rule).varCount :: (new ++ [.yyPush (rules rule).varCount]), ?_, ?_⟩
    · rw [Cursor.enter, if_neg none] at pushed
      rw [Cursor.leave, if_neg none]
      simp [Cursor.yyDo, pushed]
    · intro buf m m' ran
      rw [yyDone_cons, yyDone_append] at ran
      obtain ⟨m₁, inside, popped⟩ := Option.bind_eq_some_iff.mp ran
      obtain ⟨m₀, entered, inside⟩ := Option.bind_eq_some_iff.mp inside
      cases entered
      cases popped
      exact summarizes rule m m₁ (done inside)

/-- The thunks of a run that matches do what its node may do. -/
theorem Run.pushes {ok : Bool} (summarizes : Summarizes rules summary)
    (run : Run look rules node c s ok c' s') (matched : ok = true) : Pushes summary node c c' := by
  induction run with
  | dot step | cclass step => exact pushes_nothing (fun _ => rfl) (matchClass_thunks step)
  | string step => exact pushes_nothing (fun _ => rfl) (matchString_thunks step)
  | textBegin | textEnd => exact pushes_nothing (fun _ => rfl) rfl
  | @action act c s =>
      refine ⟨[.action act c.first c.last], rfl, fun {buf m m'} ran => ?_⟩
      rw [yyDone_cons] at ran
      exact ⟨_, ran⟩
  | name _ ih => exact pushes_rule summarizes (ih rfl)
  | @named var rule c s c' s' _ ih =>
      obtain ⟨new, pushed, done⟩ := ih rfl
      refine ⟨.yySet var :: new, by rw [Cursor.yyDo, pushed, List.cons_append], fun ran => ?_⟩
      rw [yyDone_cons] at ran
      obtain ⟨m₁, ran, set⟩ := Option.bind_eq_some_iff.mp ran
      exact ⟨m₁, done ran, Option.some.inj set⟩
  | alternate _ ih => exact (ih rfl).imp .inl
  | alternate_next _ _ _ ih => exact (ih matched).imp .inr
  | sequence _ _ ih ih' => exact (ih rfl).trans (ih' matched) fun first second => ⟨_, first, second⟩
  | peekFor | peekNot => exact pushes_nothing (fun _ => rfl) rfl
  | query _ ih => exact (ih rfl).imp .inr
  | query_skip => exact pushes_nothing (fun _ => .inl rfl) rfl
  | star_end => exact pushes_nothing (fun _ => .refl) rfl
  | star _ _ ih ih' => exact (ih rfl).trans (ih' matched) fun first again => .head first again
  | plus _ _ ih ih' => exact (ih rfl).trans (ih' matched) fun first again => ⟨_, first, again⟩
  | name_fail | named_fail | sequence_fail | peekFor_fail | peekNot_fail | plus_fail => cases matched

/-- What the thunks of a rule did is what the summary says. -/
theorem Run.does {rule : ρ} {new : List (Thunk (Action V D))}
    (summarizes : Summarizes rules summary) (run : Run look rules (.name rule) c s true c' s')
    (pushed : c'.thunks = new ++ c.thunks) (ran : yyDone buf new m = some m') :
    summary rule m m' := by
  obtain ⟨new', pushed', done⟩ := run.pushes summarizes rfl
  rw [pushed, List.append_left_inj] at pushed'
  subst pushed'
  exact done ran

end Runs

/-! ## The least summary -/

/-- What the thunks of a rule can do: what every right summary says. -/
def Did (rules : ρ → Rule ρ (Action V D)) (r : ρ) (m m' : Machine V D) : Prop :=
  ∀ summary, Summarizes rules summary → summary r m m'

/-- The rules that a node calls. -/
def Node.Calls {α : Type} (called : ρ → Prop) : Node ρ α → Prop
  | .name rule | .named _ rule => called rule
  | .alternate first second | .sequence first second => first.Calls called ∧ second.Calls called
  | .peekFor element | .peekNot element | .query element | .star element | .plus element =>
      element.Calls called
  | .dot | .string _ | .cclass _ | .action _ | .textBegin | .textEnd => True

/-- Only the summaries of the rules that it calls matter for a node. -/
theorem Node.Calls.does {called : ρ → Prop} {summary summary' : ρ → Machine V D → Machine V D → Prop}
    {node : Node ρ (Action V D)} (calls : node.Calls called)
    (less : ∀ {r m m'}, called r → summary r m m' → summary' r m m') {m m' : Machine V D}
    (does : node.Does summary m m') : node.Does summary' m m' := by
  induction node generalizing m m' with
  | action act => exact does
  | name rule => exact less calls does
  | named var rule =>
      obtain ⟨m₁, made, set⟩ := does
      exact ⟨m₁, less calls made, set⟩
  | alternate first second ih ih' => exact does.imp (ih calls.1) (ih' calls.2)
  | sequence first second ih ih' =>
      obtain ⟨m₁, does, does'⟩ := does
      exact ⟨m₁, ih calls.1 does, ih' calls.2 does'⟩
  | query element ih => exact does.imp_right (ih calls)
  | star element ih => exact Relation.ReflTransGen.mono (fun _ _ => ih calls) _ _ does
  | plus element ih =>
      obtain ⟨m₁, first, again⟩ := does
      exact ⟨m₁, ih calls first, Relation.ReflTransGen.mono (fun _ _ => ih calls) _ _ again⟩
  | dot | string | cclass | textBegin | textEnd | peekFor | peekNot => exact does

theorem Node.calls_all {α : Type} (node : Node ρ α) : node.Calls fun _ => True := by
  induction node with
  | alternate _ _ ih ih' | sequence _ _ ih ih' => exact ⟨ih, ih'⟩
  | peekFor _ ih | peekNot _ ih | query _ ih | star _ ih | plus _ ih => exact ih
  | name | named | action | dot | string | cclass | textBegin | textEnd => trivial

theorem Node.Does.mono {summary summary' : ρ → Machine V D → Machine V D → Prop}
    (less : ∀ {r m m'}, summary r m m' → summary' r m m') {node : Node ρ (Action V D)}
    {m m' : Machine V D} (does : node.Does summary m m') : node.Does summary' m m' :=
  node.calls_all.does (fun _ => less) does

theorem did_summarizes (rules : ρ → Rule ρ (Action V D)) : Summarizes rules (Did rules) :=
  fun r m m' does summary right =>
    right r m m' (does.mono fun {_ _ _} did => did summary right)

/-! ## The variables of the callers -/

variable {Q : D → Prop} {n k : Nat} {m m' m'' : Machine V D}

/-- Only the `n` variables on the top of the stack have changed, and the data are still fine. -/
structure Within (Q : D → Prop) (n : Nat) (m m' : Machine V D) : Prop where
  val_eq : m'.val = m.val
  below : ∀ i, i < m.val - n → m'.vals i = m.vals i
  data : Q m.data → Q m'.data

namespace Within

theorem refl (m : Machine V D) : Within Q n m m := ⟨rfl, fun _ _ => rfl, id⟩

theorem trans (first : Within Q n m m') (second : Within Q n m' m'') : Within Q n m m'' where
  val_eq := second.val_eq.trans first.val_eq
  below i low := (second.below i (by rwa [first.val_eq])).trans (first.below i low)
  data fine := second.data (first.data fine)

theorem mono {n' : Nat} (within : Within Q n m m') (more : n ≤ n') : Within Q n' m m' where
  val_eq := within.val_eq
  below i low := within.below i (by omega)
  data := within.data

theorem keeping {Q' : D → Prop} (within : Within Q n m m') (keeps : Q' m.data → Q' m'.data) :
    Within Q' n m m' :=
  ⟨within.val_eq, within.below, keeps⟩

theorem setVar (m : Machine V D) (own : k < n) (v : V) : Within Q n m (m.setVar k v) where
  val_eq := rfl
  below i low := Function.update_of_ne (by omega) ..
  data := id

theorem setSs (m : Machine V D) (v : V) : Within Q n m { m with ss := v } :=
  ⟨rfl, fun _ _ => rfl, id⟩

theorem setData {d : D} (m : Machine V D) (fine : Q m.data → Q d) :
    Within Q n m { m with data := d } :=
  ⟨rfl, fun _ _ => rfl, fine⟩

/-- What a rule does to its own variables is nothing to its callers. -/
theorem pop {count : Nat} (within : Within Q count (m.push count) m') :
    Within Q 0 m (m'.pop count) where
  val_eq := by
    rw [Machine.pop, within.val_eq]
    exact Nat.add_sub_cancel ..
  below i low := within.below i (by simpa [Machine.push] using low)
  data := within.data

/-- A call leaves the variables of its caller alone. -/
theorem var (within : Within Q 0 m m') (own : k < m.val) : m'.var k = m.var k := by
  rw [Machine.var, within.val_eq]
  exact within.below _ (by omega)

end Within

/-- An action that changes no variables but the first `n`. -/
def Local (Q : D → Prop) (n : Nat) (act : Action V D) : Prop :=
  ∀ yytext m m', act yytext m = some m' → Within Q n m m'

/-- The actions and the calls of a node store in the first `n` variables only. -/
def Node.Confined (Q : D → Prop) (n : Nat) : Node ρ (Action V D) → Prop
  | .action act => Local Q n act
  | .named var _ => var < n
  | .alternate first second | .sequence first second => first.Confined Q n ∧ second.Confined Q n
  | .peekFor element | .peekNot element | .query element | .star element | .plus element =>
      element.Confined Q n
  | .dot | .name _ | .string _ | .cclass _ | .textBegin | .textEnd => True

theorem Local.keeps {act : Action V D} (stays : Local Q n act) : Keeps (fun _ => True) Q act :=
  fun yytext m m' fine ran =>
    ⟨trivial, fun _ => trivial, (stays yytext m m' ran).data fine.data⟩

theorem Node.Confined.each {node : Node ρ (Action V D)} (confined : node.Confined Q n) :
    node.Each (Local Q n) := by
  induction node with
  | action => exact confined
  | alternate _ _ ih ih' | sequence _ _ ih ih' => exact ⟨ih confined.1, ih' confined.2⟩
  | peekFor _ ih | peekNot _ ih | query _ ih | star _ ih | plus _ ih => exact ih confined
  | dot | name | named | string | cclass | textBegin | textEnd => trivial

theorem Node.Confined.within {summary : ρ → Machine V D → Machine V D → Prop}
    (calls : ∀ {r m m'}, summary r m m' → Within Q 0 m m') {node : Node ρ (Action V D)}
    (confined : node.Confined Q n) (does : node.Does summary m m') : Within Q n m m' := by
  induction node generalizing m m' with
  | action act =>
      obtain ⟨yytext, ran⟩ := does
      exact confined yytext m m' ran
  | name rule => exact (calls does).mono (Nat.zero_le n)
  | named var rule =>
      obtain ⟨m₁, called, rfl⟩ := does
      exact ((calls called).mono (Nat.zero_le n)).trans (.setVar m₁ confined m₁.ss)
  | alternate first second ih ih' =>
      rcases does with does | does
      · exact ih confined.1 does
      · exact ih' confined.2 does
  | sequence first second ih ih' =>
      obtain ⟨m₁, does, does'⟩ := does
      exact (ih confined.1 does).trans (ih' confined.2 does')
  | query element ih =>
      rcases does with rfl | does
      · exact .refl m
      · exact ih confined does
  | star element ih => exact does.star_keeps (.refl m) fun earlier next => earlier.trans (ih confined next)
  | plus element ih =>
      obtain ⟨m₁, first, again⟩ := does
      exact (ih confined first).trans
        (Node.Does.star_keeps again (.refl m₁) fun earlier next => earlier.trans (ih confined next))
  | dot | string | cclass | textBegin | textEnd | peekFor | peekNot =>
      subst does
      exact .refl m

/-- A summary of rules that are confined has to be checked for what it says further only. -/
theorem summarizes_within {rules : ρ → Rule ρ (Action V D)}
    {further : ρ → Machine V D → Machine V D → Prop}
    (confined : ∀ r, (rules r).expression.Confined Q (rules r).varCount)
    (checked : ∀ r m m', (rules r).expression.Does (fun r m m' => Within Q 0 m m' ∧ further r m m')
      (m.push (rules r).varCount) m' → further r m (m'.pop (rules r).varCount)) :
    Summarizes rules fun r m m' => Within Q 0 m m' ∧ further r m m' := by
  intro r m m' does
  exact ⟨.pop ((confined r).within (fun called => called.1) does), checked r m m' does⟩

end Greg
