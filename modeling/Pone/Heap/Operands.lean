import Pone.Heap.Expressions
import Pone.Heap.Safety

/-!
# Operands in C temporaries

While the later operands of an expression are evaluated, or the sub that it calls, or the body of
the loop whose iterator it is, the values of the earlier ones live only in temporaries of the C
stack.  A value that was allocated or popped keeps its entry on `tmpstack` as long as it is an
operand, since the scopes that are popped meanwhile were all pushed meanwhile.  Any other value must
still be where it was got from.
-/

namespace Pone
namespace Heap

open Compile (Cmd Name compileProgram)

section Tracing

variable {κ : Type} {u : Universe κ} {world : Nat} {ref lex : Ref}

/-- The lexes from one on outwards, as far as their marks are not set. -/
def Universe.outwards (u : Universe κ) : Nat → Ref → List Ref
  | 0, _ => []
  | fuel + 1, lex =>
      lex :: if u.marked lex then [] else (u.lexParent lex).elim [] (u.outwards fuel)

/-- The lexes that enclose the running code and, by their entries on `tmpstack`, the code that
called it or that it has called. -/
def Universe.enclosing (u : Universe κ) (world : Nat) : List Ref :=
  (((u.worlds[world]?).bind World.lex).toList ++ u.tmpstack world).flatMap
    (u.outwards (u.slots.length + 1))

/-- What a traced value without a mark leads to is traced. -/
theorem Traced.step {holder : Ref} (traced : Traced u world holder)
    (unset : u.marked holder = false) (inside : ref ∈ u.children holder) : Traced u world ref := by
  cases set : u.marked ref with
  | true => exact .inl set
  | false =>
      rcases traced with marked | ⟨root, held, clear⟩
      · cases unset.symm.trans marked
      · exact .inr ⟨root, held, clear.1, clear.2.tail ⟨inside, set⟩⟩

theorem traced_of_mem_gcRoots (root : ref ∈ u.gcRoots world) : Traced u world ref := by
  cases set : u.marked ref with
  | true => exact .inl set
  | false => exact .inr ⟨ref, root, set, .refl⟩

theorem tmpstack_subset_gcRoots : u.tmpstack world ⊆ u.gcRoots world := by
  intro ref entry
  simp only [Universe.tmpstack, Universe.gcRoots] at entry ⊢
  cases found : u.worlds[world]? with
  | none => simp [found] at entry
  | some w =>
      rw [found, Option.map_some, Option.getD_some] at entry
      exact List.mem_append_right _ (List.mem_append_right _ entry)

theorem lexParent_mem_children {parent : Ref} (link : u.lexParent lex = some parent) :
    parent ∈ u.children lex := by
  simp only [Universe.lexParent] at link
  split at link
  case h_1 bindings found => simp [Universe.children, found, Value.children, link]
  case h_2 => cases link

theorem bound_mem_children (bound : ref ∈ (u.bindings lex).entries.map Sigma.snd) :
    ref ∈ u.children lex := by
  simp only [Universe.bindings] at bound
  split at bound
  case h_1 parent bindings found =>
    simp only [Universe.children, found, Option.elim_some, Value.children]
    exact List.mem_append_left _ bound
  case h_2 => cases bound

theorem outwards_traced {fuel : Nat} {start : Ref} (traced : Traced u world start)
    (member : lex ∈ u.outwards fuel start) : Traced u world lex := by
  induction fuel generalizing start with
  | zero => cases member
  | succ fuel ih =>
      rcases List.mem_cons.mp member with rfl | outer
      · exact traced
      · split at outer
        · cases outer
        case isFalse unset =>
          cases link : u.lexParent start with
          | none => simp [link] at outer
          | some parent =>
              rw [link, Option.elim_some] at outer
              exact ih (traced.step (by simpa using unset) (lexParent_mem_children link)) outer

theorem enclosing_traced (member : lex ∈ u.enclosing world) : Traced u world lex := by
  obtain ⟨start, held, outer⟩ := List.mem_flatMap.mp member
  refine outwards_traced (traced_of_mem_gcRoots ?_) outer
  rcases List.mem_append.mp held with running | entry
  · cases found : u.worlds[world]? with
    | none => simp [found] at running
    | some w =>
        rw [found, Option.bind_some] at running
        simp [Universe.gcRoots, found, World.markedRoots, Option.mem_toList.mp running]
  · exact tmpstack_subset_gcRoots entry

end Tracing

section Operands

variable {ν : Type}

/-! ## Operands and where they were got from -/

/-- The values that a C function holds while its other operands are evaluated, the function that it
calls or the body of its loop runs. -/
def Frame.pending : Frame ν → List Operand
  | .operands _ done _ => done
  | .forLoop iter _ => [iter]
  | .function _ args => args
  | .stmts _ _ | .whileLoop _ _ => []

/-- These, and the value that a function of the runtime has got last. -/
def Frame.held : Frame ν → List Operand
  | .operands (.native latest) done _ => latest.toList ++ done
  | frame => frame.pending

def Machine.pending (m : Machine ν) : List Operand := m.stack.flatMap Frame.pending

/-- The heap after the collection of a `pone_code_vcall`. -/
def Machine.collected (world : Nat) (m : Machine ν) : Label ν → Option (Universe (Name ν))
  | .native (.call _ _ _) =>
      if ((m.heap.worlds[world]?).map World.gcRequested).getD false then gcRun m.heap world else none
  | _ => none

/-- The collection of a `pone_code_vcall` frees no operand. -/
def SafeOperands (world : Nat) (m : Machine ν) (label : Label ν) : Prop :=
  ∀ after ∈ m.collected world label, ∀ operand ∈ m.pending, ¬ Freed m.heap after operand.ref

/-- A value is still where it was got from: a variable of an enclosing lex has it, or the value that it
was taken out of has it and is itself still where it was got from, or it is in a field that the
collector marks. -/
def Source.Leads (u : Universe (Name ν)) (world : Nat) : Source → Ref → Prop
  | .saved, _ => True
  | .lexical, ref => ∃ lex ∈ u.enclosing world,
      u.marked lex = false ∧ ref ∈ (u.bindings lex).entries.map Sigma.snd
  | .stored holder source, ref =>
      source.Leads u world holder ∧ u.marked holder = false ∧ ref ∈ u.children holder
  | .elsewhere, ref => ref ∈ u.gcRoots world

instance Source.decidableLeads (u : Universe (Name ν)) (world : Nat) :
    ∀ (source : Source) (ref : Ref), Decidable (source.Leads u world ref)
  | .saved, _ => .isTrue trivial
  | .lexical, ref => inferInstanceAs (Decidable (∃ lex ∈ u.enclosing world,
      u.marked lex = false ∧ ref ∈ (u.bindings lex).entries.map Sigma.snd))
  | .stored holder source, ref =>
      have := Source.decidableLeads u world source holder
      inferInstanceAs (Decidable
        (source.Leads u world holder ∧ u.marked holder = false ∧ ref ∈ u.children holder))
  | .elsewhere, ref => inferInstanceAs (Decidable (ref ∈ u.gcRoots world))

def Ref.livesIn (world : Nat) : Ref → Bool
  | .slot place _ => place = world
  | .nil | .bool _ | .constInt _ => false

/-- At the collection of a `pone_code_vcall`, the operands that live in the collected world are still
where they were got from. -/
def HeldOperands (world : Nat) (m : Machine ν) (label : Label ν) : Prop :=
  (m.collected world label).isSome → ∀ operand ∈ m.pending, operand.ref.livesIn world = true →
    operand.source.Leads m.heap world operand.ref

instance HeldOperands.decidable (world : Nat) (m : Machine ν) (label : Label ν) :
    Decidable (HeldOperands world m label) :=
  inferInstanceAs (Decidable ((m.collected world label).isSome → ∀ operand ∈ m.pending,
    operand.ref.livesIn world = true → operand.source.Leads m.heap world operand.ref))

/-! ## Entries on `tmpstack` -/

/-- A value has an entry on `tmpstack` that a number of `pone_pop_scope` leave there. -/
def Entry (u : Universe (Name ν)) (world pops : Nat) (ref : Ref) : Prop :=
  ∃ i, (u.tmpstack world)[i]? = some ref ∧ ∀ mark ∈ (u.savestack world).take pops, i < mark

/-- A value that was saved has an entry, and so has one that others were taken out of. -/
def Source.HasEntry (u : Universe (Name ν)) (world pops : Nat) : Source → Ref → Prop
  | .saved, ref => Entry u world pops ref
  | .stored holder source, _ => source.HasEntry u world pops holder
  | .lexical, _ | .elsewhere, _ => True

/-- The scopes that the end of a frame pops. -/
def Frame.scopes : Frame ν → Nat
  | .stmts scope _ => scope.toNat
  | _ => 0

/-- The entries of the values that the C stack holds outlast a number of `pone_pop_scope`, and those
of the frames above. -/
def Outlasts (u : Universe (Name ν)) (world : Nat) : Nat → List (Frame ν) → Prop
  | _, [] => True
  | pops, frame :: rest =>
      (∀ operand ∈ frame.held, operand.source.HasEntry u world pops operand.ref) ∧
        Outlasts u world (pops + frame.scopes) rest

variable {u u' : Universe (Name ν)} {world pops pops' : Nat} {ref : Ref} {source : Source}
  {v : Operand} {frame : Frame ν} {stack rest : List (Frame ν)} {m m' : Machine ν}

theorem Entry.appends (entry : Entry u world pops ref) (appends : Appends world u u') :
    Entry u' world pops ref := by
  obtain ⟨i, found, outlasts⟩ := entry
  obtain ⟨extra, same⟩ := appends.tmpstack
  have bound := (List.getElem?_eq_some_iff.mp found).1
  refine ⟨i, ?_, ?_⟩
  · rw [← same, List.getElem?_append_left bound, found]
  · rwa [appends.savestack]

theorem Entry.mono (entry : Entry u world pops ref) (fewer : pops' ≤ pops) :
    Entry u world pops' ref := by
  obtain ⟨i, found, outlasts⟩ := entry
  exact ⟨i, found, fun mark member => outlasts mark (List.take_subset_take_left _ fewer member)⟩

/-- A scope that is pushed does not cut an entry when it is popped. -/
theorem Entry.push (entry : Entry u world pops ref) (executed : pushScope u world = some u') :
    Entry u' world (pops + 1) ref := by
  obtain ⟨i, found, outlasts⟩ := entry
  obtain ⟨⟨extra, same⟩, mark, high, stack⟩ := pushScope_stacks executed
  have bound := (List.getElem?_eq_some_iff.mp found).1
  refine ⟨i, ?_, ?_⟩
  · rw [← same, List.getElem?_append_left bound, found]
  · rw [stack, List.take_succ_cons]
    intro other member
    rcases List.mem_cons.mp member with rfl | below
    · exact Nat.lt_of_lt_of_le bound high
    · exact outlasts other below

theorem Entry.pop (entry : Entry u world (pops + 1) ref) (executed : popScope u world = some u') :
    Entry u' world pops ref := by
  obtain ⟨i, found, outlasts⟩ := entry
  obtain ⟨mark, stack, cut⟩ := popScope_stacks executed
  rw [stack, List.take_succ_cons] at outlasts
  refine ⟨i, ?_, fun other member => outlasts other (List.mem_cons_of_mem mark member)⟩
  rw [cut, List.getElem?_take_of_lt (outlasts mark List.mem_cons_self), found]

theorem entry_of_mem (member : ref ∈ u.tmpstack world) : Entry u world 0 ref := by
  obtain ⟨i, found⟩ := List.mem_iff_getElem?.mp member
  exact ⟨i, found, fun mark none => by cases none⟩

theorem Source.HasEntry.imp (moves : ∀ ref, Entry u world pops ref → Entry u' world pops' ref)
    (entry : source.HasEntry u world pops ref) : source.HasEntry u' world pops' ref := by
  induction source generalizing ref with
  | saved => exact moves ref entry
  | stored holder source ih => exact ih entry
  | lexical | elsewhere => trivial

theorem Outlasts.imp
    (moves : ∀ below ref, Entry u world (pops + below) ref → Entry u' world (pops' + below) ref)
    (outlasts : Outlasts u world pops stack) : Outlasts u' world pops' stack := by
  induction stack generalizing pops pops' with
  | nil => trivial
  | cons frame rest ih =>
      refine ⟨fun operand held => (outlasts.1 operand held).imp (moves 0), ?_⟩
      refine ih (fun below ref entry => ?_) outlasts.2
      rw [Nat.add_assoc] at entry ⊢
      exact moves _ ref entry

theorem Outlasts.appends (outlasts : Outlasts u world pops stack) (appends : Appends world u u') :
    Outlasts u' world pops stack :=
  outlasts.imp fun _ _ entry => entry.appends appends

theorem Outlasts.mono (outlasts : Outlasts u world pops stack) (fewer : pops' ≤ pops) :
    Outlasts u world pops' stack :=
  outlasts.imp fun below _ entry => entry.mono (Nat.add_le_add_right fewer below)

theorem Outlasts.push (outlasts : Outlasts u world pops stack)
    (executed : pushScope u world = some u') : Outlasts u' world (pops + 1) stack :=
  outlasts.imp fun below _ entry => Nat.add_right_comm pops below 1 ▸ entry.push executed

theorem Outlasts.pop (outlasts : Outlasts u world (pops + 1) stack)
    (executed : popScope u world = some u') : Outlasts u' world pops stack :=
  outlasts.imp fun below _ entry => Entry.pop (Nat.add_right_comm pops 1 below ▸ entry) executed

theorem Outlasts.tail (outlasts : Outlasts u world pops (frame :: rest)) :
    Outlasts u world pops rest :=
  outlasts.2.mono (Nat.le_add_right _ _)

/-- A frame without values and scopes. -/
theorem Outlasts.cons_empty (outlasts : Outlasts u world pops rest) (held : frame.held = [])
    (scopes : frame.scopes = 0) : Outlasts u world pops (frame :: rest) := by
  refine ⟨fun operand member => ?_, ?_⟩
  · rw [held] at member
    cases member
  · rwa [scopes]

theorem Outlasts.cons_stmts {scope : Bool} {todo : List (Cmd ν)}
    (outlasts : Outlasts u world (pops + scope.toNat) rest) :
    Outlasts u world pops (.stmts scope todo :: rest) :=
  ⟨List.forall_mem_nil _, outlasts⟩

/-! ## What the collector finds -/

theorem leads_traced (entry : source.HasEntry u world pops ref) (leads : source.Leads u world ref) :
    Traced u world ref := by
  induction source generalizing ref with
  | saved =>
      obtain ⟨i, found, -⟩ := entry
      exact traced_of_mem_gcRoots (tmpstack_subset_gcRoots (List.mem_of_getElem? found))
  | lexical =>
      obtain ⟨lex, enclosing, unset, bound⟩ := leads
      exact (enclosing_traced enclosing).step unset (bound_mem_children bound)
  | stored holder source ih =>
      obtain ⟨leads, unset, inside⟩ := leads
      exact (ih entry leads).step unset inside
  | elsewhere => exact traced_of_mem_gcRoots leads

theorem pending_subset_held (frame : Frame ν) : frame.pending ⊆ frame.held := by
  intro operand member
  cases frame with
  | operands head done todo =>
      cases head with
      | native latest => exact List.mem_append_right _ member
      | _ => exact member
  | stmts | forLoop | whileLoop | function => exact member

theorem pending_hasEntry (outlasts : Outlasts u world 0 stack) :
    ∀ operand ∈ stack.flatMap Frame.pending, operand.source.HasEntry u world 0 operand.ref := by
  induction stack with
  | nil => exact fun operand member => by cases member
  | cons frame rest ih =>
      intro operand member
      rw [List.flatMap_cons, List.mem_append] at member
      rcases member with own | below
      · exact outlasts.1 operand (pending_subset_held frame own)
      · exact ih outlasts.tail operand below

theorem collected_eq_some {label : Label ν} {after : Universe (Name ν)}
    (collected : m.collected world label = some after) : gcRun m.heap world = some after := by
  simp only [Machine.collected] at collected
  split at collected
  · exact (Option.ite_none_right_eq_some.mp collected).2
  · cases collected

/-! ## Steps keep the entries -/

theorem mem_held_cons {head : Head ν} {done : List Operand} {todo' : List (Cmd ν)}
    {operand : Operand} (todo : List (Cmd ν))
    (held : operand ∈ (Frame.operands head (v :: done) todo').held) :
    operand = v ∨ operand ∈ (Frame.operands head done todo).held := by
  cases head with
  | native latest =>
      simp only [Frame.held, List.mem_append, List.mem_cons] at held ⊢
      exact or_left_comm.mp held
  | _ => exact List.mem_cons.mp held

theorem outlasts_deliver (outlasts : Outlasts u world 0 stack)
    (entry : v.source.HasEntry u world 0 v.ref) (delivered : deliver world u v stack = some m) :
    Outlasts m.heap world 0 m.stack := by
  simp only [deliver] at delivered
  split at delivered
  case h_1 head done e todo rest =>
    cases delivered
    refine ⟨fun operand held => ?_, outlasts.2⟩
    rcases mem_held_cons (e :: todo) held with rfl | before
    · exact entry
    · exact outlasts.1 operand before
  case h_2 =>
    cases delivered
    exact outlasts
  case h_3 origLex args latest done rest =>
    obtain ⟨u', returned, rfl⟩ := Option.map_eq_some_iff.mp delivered
    have appends : Appends world u u' := appends_codeReturn returned
    refine ⟨fun operand held => ?_, outlasts.tail.tail.appends appends⟩
    rcases List.mem_cons.mp held with rfl | before
    · exact entry.imp fun _ entry => entry.appends appends
    · exact (outlasts.tail.1 operand (List.mem_append_right _ before)).imp fun _ entry =>
        entry.appends appends
  case h_4 => cases delivered

theorem outlasts_leaveFunction (outlasts : Outlasts u world 0 stack) :
    Outlasts u world 0 (leaveFunction stack) := by
  induction stack with
  | nil => exact outlasts
  | cons frame rest ih =>
      cases frame with
      | function => exact outlasts
      | operands | stmts | forLoop | whileLoop => exact ih outlasts.tail

theorem outlasts_leaveLoop {count : Nat} (outlasts : Outlasts u world 0 stack)
    (left : leaveLoop world stack count u = some m) : Outlasts m.heap world 0 m.stack := by
  induction stack generalizing count u with
  | nil => simp [leaveLoop] at left
  | cons frame rest ih =>
      cases frame with
      | stmts scope todo =>
          cases scope with
          | false => exact ih outlasts.tail left
          | true =>
              cases count with
              | zero => exact ih outlasts.tail left
              | succ count =>
                  obtain ⟨u', popped, left⟩ := Option.bind_eq_some_iff.mp left
                  exact ih (outlasts.2.pop popped) left
      | forLoop | whileLoop =>
          cases count with
          | zero =>
              cases left
              exact outlasts
          | succ count => simp [leaveLoop] at left
      | operands | function => simp [leaveLoop] at left

/-- A frame for an expression has no values yet. -/
theorem expression_empty {e : Cmd ν} (opened : expression e = some frame) :
    frame.held = [] ∧ frame.scopes = 0 := by
  simp only [expression] at opened
  split at opened <;> cases opened <;> exact ⟨rfl, rfl⟩

theorem outlasts_decideTruth {holds : Bool} (outlasts : Outlasts u world 0 stack)
    (decided : decideTruth holds stack = some rest) : Outlasts u world 0 rest := by
  simp only [decideTruth] at decided
  split at decided
  case h_1 | h_2 | h_3 =>
    cases decided
    exact outlasts.tail.cons_empty rfl rfl
  case h_4 =>
    cases decided
    split
    · exact outlasts.tail.cons_empty rfl rfl
    · exact outlasts.tail.tail
  case h_5 =>
    cases decided
    split
    · exact ⟨outlasts.1, outlasts.2⟩
    · exact outlasts.tail.tail.tail
  case h_6 =>
    cases decided
    refine Outlasts.cons_empty ?_ rfl rfl
    exact ⟨outlasts.1, outlasts.2⟩
  case h_7 => cases decided

theorem arguments_hasEntry {args : List Operand} (outlasts : Outlasts u world 0 stack)
    (found : stack.findSome? Frame.arguments = some args) :
    ∀ operand ∈ args, operand.source.HasEntry u world 0 operand.ref := by
  induction stack with
  | nil => cases found
  | cons frame rest ih =>
      cases frame with
      | function origLex args' =>
          cases found
          exact outlasts.1
      | operands | stmts | forLoop | whileLoop => exact ih outlasts.tail found

/-- What a function of the runtime gets has the entries of what it holds. -/
theorem access_hasEntry {latest : Option Operand} {done : List Operand} {a : Access}
    (outlasts : Outlasts u world 0 (.operands (.native latest) done [] :: rest))
    (got : a.get u latest done rest = some v) : v.source.HasEntry u world 0 v.ref := by
  induction a generalizing v with
  | latest => exact outlasts.1 v (List.mem_append_left _ (Option.mem_toList.mpr got))
  | operand i => exact outlasts.1 v (List.mem_append_right _ (List.mem_of_getElem? got))
  | argument i =>
      obtain ⟨args, found, got⟩ := Option.bind_eq_some_iff.mp got
      exact arguments_hasEntry outlasts.tail found v (List.mem_of_getElem? got)
  | inside holder child ih =>
      obtain ⟨outer, held, got⟩ := Option.bind_eq_some_iff.mp got
      split at got
      · cases got
        have taken_out_of : outer.source.HasEntry u world 0 outer.ref := ih held
        exact taken_out_of
      · cases got
  | elsewhere ref =>
      cases got
      trivial

private theorem mem_of_mapM {α β : Type} {f : α → Option β} {xs : List α} {ys : List β} {y : β}
    (all : xs.mapM f = some ys) (member : y ∈ ys) : ∃ x ∈ xs, f x = some y := by
  induction xs generalizing ys with
  | nil =>
      cases all
      cases member
  | cons x xs ih =>
      simp only [List.mapM_cons, Option.bind_eq_bind, Option.bind_eq_some_iff] at all
      obtain ⟨first, head, others, tail, same⟩ := all
      cases same
      rcases List.mem_cons.mp member with rfl | later
      · exact ⟨x, List.mem_cons_self, head⟩
      · obtain ⟨other, among, reads⟩ := ih tail later
        exact ⟨other, List.mem_cons_of_mem x among, reads⟩

theorem outlasts_nativeStep {latest : Option Operand} {done : List Operand} {act : Native ν}
    (outlasts : Outlasts u world 0 (.operands (.native latest) done [] :: rest))
    (taken : nativeStep world u latest done rest act = some m) :
    Outlasts m.heap world 0 m.stack := by
  -- The function gets another value, which has an entry.
  have gets {u' : Universe (Name ν)} {v : Operand} (appends : Appends world u u')
      (entry : v.source.HasEntry u' world 0 v.ref) :
      Outlasts u' world 0 (.operands (.native (some v)) done [] :: rest) := by
    have after := outlasts.appends appends
    refine ⟨fun operand held => ?_, after.2⟩
    rcases List.mem_cons.mp held with rfl | before
    · exact entry
    · exact after.1 operand (List.mem_append_right _ before)
  cases act with
  | fresh v =>
      obtain ⟨⟨u', ref⟩, allocated, rfl⟩ := Option.map_eq_some_iff.mp taken
      exact gets (appends_objAlloc allocated) (entry_of_mem (mem_tmpstack_objAlloc allocated))
  | save a =>
      simp only [nativeStep, Option.bind_eq_bind, Option.bind_eq_some_iff] at taken
      obtain ⟨w, found, v, -, saved⟩ := taken
      cases saved
      refine gets (appends_saveTmp v.ref) (entry_of_mem ?_)
      rw [tmpstack_saveTmp (by simp [found])]
      exact List.mem_append_right _ List.mem_cons_self
  | result a =>
      obtain ⟨v, got, delivered⟩ := Option.bind_eq_some_iff.mp taken
      exact outlasts_deliver outlasts.tail (access_hasEntry outlasts got) delivered
  | call code args body =>
      simp only [nativeStep, Option.bind_eq_bind, Option.bind_eq_some_iff] at taken
      obtain ⟨callee, -, operands, got, called, calls, entered⟩ := taken
      have passed : ∀ operand ∈ operands, operand.source.HasEntry u world 0 operand.ref := by
        intro operand member
        obtain ⟨a, -, accessed⟩ := mem_of_mapM got member
        exact access_hasEntry outlasts accessed
      have appends : Appends world u called := appends_codeVcall calls
      have below : Outlasts called world 0 (.function (origLex u world callee.ref) operands ::
          .operands (.native latest) done [] :: rest) :=
        ⟨fun operand member => (passed operand member).imp fun _ entry => entry.appends appends,
          outlasts.appends appends⟩
      cases body with
      | none =>
          cases entered
          exact ⟨below.1, below⟩
      | some body =>
          obtain ⟨pushed, pushes, entered⟩ := Option.bind_eq_some_iff.mp entered
          cases entered
          exact (below.push pushes).cons_stmts

theorem outlasts_drop (count : Nat) (outlasts : Outlasts u world 0 stack) :
    Outlasts u world 0 (stack.drop count) := by
  induction count generalizing stack with
  | zero => exact outlasts
  | succ count ih =>
      cases stack with
      | nil => exact outlasts
      | cons frame rest => exact ih outlasts.tail

variable [DecidableEq ν]

/-- What is read from a variable needs no entry. -/
theorem getVariable_hasEntry {x : Name ν} (got : getVariable u world x = some v) :
    v.source.HasEntry u world 0 v.ref := by
  simp only [getVariable, Option.bind_eq_bind, Option.bind_eq_some_iff] at got
  obtain ⟨w, -, found, -, got⟩ := got
  split at got
  · cases got
    trivial
  · obtain ⟨val, -, rfl⟩ := Option.map_eq_some_iff.mp got
    trivial

theorem outlasts_evaluate {e : Cmd ν} (outlasts : Outlasts u world 0 stack)
    (evaluated : evaluate world u stack e = some m) : Outlasts m.heap world 0 m.stack := by
  simp only [evaluate] at evaluated
  split at evaluated
  · obtain ⟨v, got, delivered⟩ := Option.bind_eq_some_iff.mp evaluated
    exact outlasts_deliver outlasts (getVariable_hasEntry got) delivered
  · obtain ⟨frame, opened, rfl⟩ := Option.map_eq_some_iff.mp evaluated
    obtain ⟨held, scopes⟩ := expression_empty opened
    exact outlasts.cons_empty held scopes

theorem outlasts_assignVariable {up : Nat} {x : Name ν} {val : Ref}
    (outlasts : Outlasts u world 0 stack) (assigned : assignVariable u world up x val = some u') :
    Outlasts u' world 0 stack := by
  simp only [assignVariable, Option.bind_eq_bind, Option.bind_eq_some_iff] at assigned
  obtain ⟨w, -, lex, -, target, -, assigned⟩ := assigned
  split at assigned
  · exact outlasts.appends (appends_store assigned)
  · cases assigned

theorem outlasts_execute {scope : Bool} {todo : List (Cmd ν)} {s : Cmd ν}
    (outlasts : Outlasts u world 0 (.stmts scope (s :: todo) :: rest))
    (executed : execute world u scope todo rest s = some m) : Outlasts m.heap world 0 m.stack := by
  have below : Outlasts u world 0 (.stmts scope todo :: rest) := ⟨outlasts.1, outlasts.2⟩
  simp only [execute] at executed
  split at executed
  case h_1 =>
    cases executed
    exact below
  case h_2 => exact outlasts_evaluate below executed
  case h_3 =>
    cases executed
    exact ⟨outlasts.1, outlasts.2⟩
  case h_4 =>
    obtain ⟨u', pushed, rfl⟩ := Option.map_eq_some_iff.mp executed
    exact (below.push pushed).cons_stmts
  case h_5 | h_6 | h_7 | h_8 =>
    cases executed
    exact below.cons_empty rfl rfl
  case h_9 => exact outlasts_leaveLoop below executed
  case h_10 =>
    obtain ⟨looping, left, rfl⟩ := Option.map_eq_some_iff.mp executed
    have outlasts := outlasts_leaveLoop below left
    cases frames : looping.stack with
    | nil => trivial
    | cons frame rest =>
        rw [frames] at outlasts
        exact outlasts.tail
  case h_11 => exact outlasts_evaluate below executed

theorem outlasts_advance (outlasts : Outlasts u world 0 stack)
    (advanced : advance world u stack = some m) : Outlasts m.heap world 0 m.stack := by
  simp only [advance] at advanced
  split at advanced
  case h_1 => exact outlasts_evaluate outlasts advanced
  case h_2 up x v rest =>
    obtain ⟨u', assigned, delivered⟩ := Option.bind_eq_some_iff.mp advanced
    have after := outlasts_assignVariable outlasts assigned
    exact outlasts_deliver after.tail (after.1 v List.mem_cons_self) delivered
  case h_3 v values rest =>
    exact outlasts_deliver outlasts.tail (outlasts.1 v List.mem_cons_self) advanced
  case h_4 body iter rest =>
    cases advanced
    exact ⟨outlasts.1, outlasts.2⟩
  case h_5 v rest =>
    exact outlasts_deliver (outlasts_leaveFunction outlasts.tail)
      (outlasts.1 v List.mem_cons_self) advanced
  case h_6 rest =>
    obtain ⟨u', popped, rfl⟩ := Option.map_eq_some_iff.mp advanced
    exact outlasts.2.pop popped
  case h_7 rest =>
    cases advanced
    exact outlasts.tail
  case h_8 => exact outlasts_execute outlasts advanced
  case h_9 iter body rest =>
    obtain ⟨u', pushed, rfl⟩ := Option.map_eq_some_iff.mp advanced
    have iterator : ∀ operand ∈ [iter], operand.source.HasEntry u' world 0 operand.ref :=
      fun operand member => (outlasts.push pushed).mono (Nat.zero_le _) |>.1 operand member
    refine ⟨iterator, Outlasts.cons_empty ?_ rfl rfl⟩
    exact (outlasts.push pushed).cons_stmts
  case h_10 =>
    cases advanced
    exact outlasts.cons_empty rfl rfl
  case h_11 => exact outlasts_deliver (v := ⟨.nil, .elsewhere⟩) outlasts trivial advanced
  case h_12 => cases advanced

theorem outlasts_step {label : Label ν} (outlasts : Outlasts m.heap world 0 m.stack)
    (taken : m.step world label = some m') : Outlasts m'.heap world 0 m'.stack := by
  cases label with
  | op op =>
      obtain ⟨keeps, stepped⟩ := Option.ite_none_right_eq_some.mp taken
      obtain ⟨u', executed, rfl⟩ := Option.map_eq_some_iff.mp stepped
      exact outlasts.appends (appends_step keeps executed)
  | advance => exact outlasts_advance outlasts taken
  | truth holds =>
      obtain ⟨stack, decided, rfl⟩ := Option.map_eq_some_iff.mp taken
      exact outlasts_decideTruth outlasts decided
  | native act =>
      simp only [Machine.step] at taken
      split at taken
      case h_1 latest done rest frames =>
        rw [frames] at outlasts
        exact outlasts_nativeStep outlasts taken
      case h_2 => cases taken
  | throw val rows frames =>
      simp only [Machine.step] at taken
      split at taken
      case h_1 latest done rest left =>
        obtain ⟨u', thrown, rfl⟩ := Option.map_eq_some_iff.mp taken
        have below := outlasts_drop frames outlasts
        rw [left] at below
        have after := below.appends (appends_excThrow thrown)
        exact ⟨fun operand held => after.1 operand (List.mem_append_right _ held), after.2⟩
      case h_2 => cases taken

/-! ## Executions -/

/-- In every execution of emitted code, whatever the functions of the runtime and the other threads
do: where at each collection of a call the operands are still where they were got from, none of these
collections frees an operand. -/
theorem operands_safe (world : Nat) (heap : Universe (Name ν)) (labels : List (Label ν))
    (held : Execution.Along (Machine.step world) (HeldOperands world) (.start heap) labels) :
    Execution.Along (Machine.step world) (SafeOperands world) (.start heap) labels := by
  refine held.of_invariant
    (fun outlasts _ taken => outlasts_step outlasts taken) ?_ ?_
  · intro m label outlasts held after collected operand pending freed
    have executed := collected_eq_some (Option.mem_def.mp collected)
    obtain ⟨⟨index, here⟩, -, untraced⟩ := (gcRun_freed executed).mp freed
    have leads := held (Option.isSome_of_mem collected) operand pending (by
      rw [here]
      exact decide_eq_true rfl)
    exact untraced (leads_traced (pending_hasEntry outlasts operand pending) leads)
  · exact Outlasts.cons_empty trivial rfl rfl

end Operands

/-- A job in a new world, as far as the call of its sub.  `gc_request` is the global 9. -/
def jobBegun : Universe (Name Nat) :=
  (Execution.run step universeInit [.worldNew, .alloc 0 (.ary []), .setInc (.slot 0 2),
    .alloc 0 (.ary []), .setArgs (.slot 0 3), .alloc 0 (.code none), .setGlobal (.user 9) (.slot 0 4),
    .worldNew, .alloc 1 (.code none), .alloc 1 (.lex none ∅),
    .store (.slot 1 2) (.code (some (.slot 1 3))), .setCode 1 (.slot 1 2), .threadStart 1,
    .pushScope 1]).getD universeInit

def callOfJob (body : Cmd Nat) : Label Nat := .native (.call (.elsewhere (.slot 1 2)) [] (some body))

/-- A function of the runtime returns a constant. -/
def returnsConst (ref : Ref) : Label Nat := .native (.result (.elsewhere ref))

/-- It returns a new value. -/
def returnsNew (v : Value (Name Nat)) : List (Label Nat) :=
  [.native (.fresh v), .native (.result .latest)]

/-- `gc_request()` is called and returns. -/
def requestsGc : List (Label Nat) :=
  [.native (.call (.operand 0) [] none), .op (.gcRequest 1), returnsConst .nil,
    .native (.result .latest)]

/-- `[[7], gc_request(), gc_request()]`, where the second call collects. -/
def arrayOfNew : Cmd Nat :=
  .seq (.seq (.seq (.seq .atom .atom) .native)
    (.seq (.codeCall (.getLex (.user 9)) .atom) (.seq (.codeCall (.getLex (.user 9)) .atom) .atom)))
    .native

def callsAfterNew : List (Label Nat) :=
  callOfJob arrayOfNew :: List.replicate 3 .advance ++ returnsConst (.constInt 7) ::
    returnsNew (.ary [.constInt 7]) ++ List.replicate 2 .advance ++ requestsGc ++
    List.replicate 2 .advance ++ requestsGc

theorem operands_safe_arrayOfNew :
    (Execution.run (Machine.step 1) (.start jobBegun) callsAfterNew).isSome = true ∧
      Execution.Along (Machine.step 1) (SafeOperands 1) (.start jobBegun) callsAfterNew :=
  ⟨by decide +kernel, operands_safe 1 jobBegun callsAfterNew (by decide +kernel)⟩

/-- The bodies of `sub g() { 1 }` and `sub f() { $x = 0; gc_request(); g(); 1 }`; the variables `$x`,
`g` and `f` are 0, 1 and 2. -/
def bodyOfG : Cmd Nat := .seq (.seq .arity .atom) (.inScope (.seq (.ret .atom) .atom))
def bodyOfF : Cmd Nat :=
  .seq (.seq .arity .atom) <| .inScope <| .seq (.assign 2 (.outer 2 false) (.user 0) .atom) <|
    .seq (.codeCall (.getLex (.user 9)) .atom) <| .seq (.codeCall (.getLex (.user 1)) .atom) <|
    .seq (.ret .atom) .atom

/-- `my $x; sub g() { 1 }; sub f() { $x = 0; gc_request(); g(); 1 }; { $x = [7] }; [$x, f()]`. -/
def arrayOfOverwritten : Compile.Node Nat :=
  .statements (.my (.user 0)) <|
    .statements (.func (some (.user 1)) (.params .done) (.block (.statements .atom .done))) <|
    .statements (.func (some (.user 2)) (.params .done) (.block
      (.statements (.assign (.user 0) .atom) (.statements (.funcall (.user 9) .done)
        (.statements (.funcall (.user 1) .done) (.statements .atom .done)))))) <|
    .statements (.block (.statements (.assign (.user 0) (.op (.statements .atom .done))) .done)) <|
    .statements (.op (.statements (.var (.user 0)) (.statements (.funcall (.user 2) .done) .done)))
      .done

/-- The body of `sub () { … }` with these statements. -/
def bodyOfJob : Cmd Nat :=
  .seq (.seq .arity .atom) <| .inScope <| .seq (.assign 0 .declares (.user 0) .atom) <|
    .seq (.assign 0 .declares (.user 1) (.codeNew 0 bodyOfG)) <|
    .seq (.assign 0 .declares (.user 2) (.codeNew 0 bodyOfF)) <|
    .seq (.inScope (.seq (.assign 1 (.outer 1 false) (.user 0) (.seq (.seq .atom .atom) .native))
      .atom)) <|
    .seq (.ret (.seq (.seq (.getLex (.user 0)) (.seq (.codeCall (.getLex (.user 2)) .atom) .atom))
      .native)) .atom

/-- The run of the job up to the call of `g`. -/
def untilG : List (Label Nat) :=
  callOfJob bodyOfJob :: List.replicate 3 .advance ++ returnsConst .nil ::
    List.replicate 5 .advance ++ returnsConst .nil ::
    List.replicate 4 .advance ++ returnsNew (.code (some (.slot 1 10))) ++
    List.replicate 4 .advance ++ returnsNew (.code (some (.slot 1 10))) ++
    List.replicate 7 .advance ++ returnsConst (.constInt 7) :: returnsNew (.ary [.constInt 7]) ++
    -- `$x` is read, then `f` is called.
    List.replicate 9 .advance ++ .native (.call (.operand 0) [] (some bodyOfF)) ::
    List.replicate 3 .advance ++ returnsConst .nil ::
    List.replicate 5 .advance ++ returnsConst (.constInt 0) ::
    List.replicate 4 .advance ++ requestsGc ++ List.replicate 3 .advance

def operandHeld : Machine Nat :=
  (Execution.run (Machine.step 1) (.start jobBegun) untilG).getD (.start jobBegun)

def callOfG : Label Nat := .native (.call (.operand 0) [] (some bodyOfG))

def operandCollected : Universe (Name Nat) := (operandHeld.collected 1 callOfG).getD jobBegun

set_option maxRecDepth 10000 in
/-- The scope that allocated the array has dropped its entry, `f` has overwritten the variable, and
the collection at the call of `g` frees the array, which is the first operand of the literal. -/
theorem collection_frees_operand :
    compileProgram (.func none (.params .done) (.block arrayOfOverwritten)) =
        some (.codeNew 0 bodyOfJob) ∧
      Execution.run (Machine.step 1) (.start jobBegun) untilG = some operandHeld ∧
      ¬ SafeOperands 1 operandHeld callOfG := by
  have runs : (Execution.run (Machine.step 1) (.start jobBegun) untilG).isSome = true := by
    decide +kernel
  have collects : (operandHeld.collected 1 callOfG).isSome = true := by decide +kernel
  have pending : ⟨.slot 1 14, .lexical⟩ ∈ operandHeld.pending := by
    decide +kernel
  have freed : Freed operandHeld.heap operandCollected (.slot 1 14) := by decide +kernel
  refine ⟨by decide +kernel, eq_some_getD runs _, fun safe => ?_⟩
  exact safe operandCollected (eq_some_getD collects _) _ pending freed

end Heap
end Pone
