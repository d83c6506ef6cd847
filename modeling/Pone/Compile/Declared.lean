import Mathlib.Data.List.Forall2
import Mathlib.Data.List.Nodup
import Pone.Compile.Names

/-!
# When the names in the C file are in order

The text that is printed for a tree refers to the same names as what is printed for its skeleton,
the locals of functions and loops apart, which are always declared.  For a skeleton, the references
to anonymous subs are declared by their prototypes; a method needs its class around it in the same
function, and a try needs its function above it in the file.
-/

namespace Pone
namespace Compile
namespace Names

section Texts

variable {env env' : List String}

@[simp]
theorem covered_all_cons (t : Text) (ts : List Text) :
    (Text.all (t :: ts)).Covered env ↔ t.Covered env ∧ (Text.all ts).Covered (t.scope env) :=
  Iff.rfl

@[simp]
theorem covered_all_nil : (Text.all []).Covered env ↔ True := Iff.rfl

@[simp]
theorem scope_all_cons (t : Text) (ts : List Text) :
    (Text.all (t :: ts)).scope env = (Text.all ts).scope (t.scope env) := rfl

@[simp]
theorem scope_all_nil : (Text.all []).scope env = env := rfl

theorem scope_uses (names : List String) :
    (Text.uses names).scope env = env := by
  induction names with
  | nil => rfl
  | cons x names ih => exact ih

theorem covered_uses {names : List String} :
    (Text.uses names).Covered env ↔ names ⊆ env := by
  induction names with
  | nil => exact iff_of_true trivial (List.nil_subset _)
  | cons x names ih =>
      rw [Text.uses, List.map_cons, covered_all_cons, Text.scope, List.cons_subset]
      exact and_congr_right fun _ => ih

/-- The names that are in scope in the body of every printed function. -/
def locals : List String := "FUNC_NAME" :: parameters

/-- The same names, but for the locals of a for loop. -/
def Agree (env env' : List String) : Prop :=
  ∀ x, x ≠ "iter" → x ≠ "next" → (x ∈ env ↔ x ∈ env')

theorem Agree.refl (env : List String) : Agree env env := fun _ _ _ => Iff.rfl

theorem Agree.cons (agree : Agree env env') (x : String) : Agree (x :: env) (x :: env') := by
  intro y not_iter not_next
  rw [List.mem_cons, List.mem_cons, agree y not_iter not_next]

theorem Agree.loop {x : String} (agree : Agree env env') (loop : x = "iter" ∨ x = "next") :
    Agree (x :: env) env' := by
  intro y not_iter not_next
  have other : y ≠ x := by
    rcases loop with rfl | rfl
    · exact not_iter
    · exact not_next
  rw [List.mem_cons, agree y not_iter not_next, or_iff_right other]

end Texts

section Same

/-- Two texts that stand in a function are covered in the same places. -/
structure SameText (t u : Text) : Prop where
  covered : ∀ env env', locals ⊆ env → Agree env env' → (t.Covered env ↔ u.Covered env')
  flat : ∀ env, t.scope env = env
  flat_right : ∀ env, u.scope env = env

structure SameFunction (f g : Function) : Prop where
  name : f.name = g.name
  covered : ∀ env env', parameters ⊆ env → Agree env env' →
    (f.body.Covered env ↔ g.body.Covered env')

structure SamePrinted (p q : Printed) : Prop where
  text : SameText p.text q.text
  functions : List.Forall₂ SameFunction p.functions q.functions
  prototypes : p.prototypes = q.prototypes

/-- Two printers name the same functions, and their texts are covered in the same places. -/
structure Same (p q : Printer) : Prop where
  printed : ∀ st, SamePrinted (p st).1 (q st).1
  naming : ∀ st, (p st).2 = (q st).2

variable {p p' q q' : Printer}

theorem SameText.seq {t t' u u' : Text} (first : SameText t t') (second : SameText u u') :
    SameText (.seq t u) (.seq t' u') where
  covered env env' inside agree := by
    simp only [Text.Covered, first.flat, first.flat_right]
    rw [first.covered env env' inside agree, second.covered env env' inside agree]
  flat env := by rw [Text.scope, first.flat, second.flat]
  flat_right env := by rw [Text.scope, first.flat_right, second.flat_right]

theorem Same.followedBy (first : Same p p') (second : Same q q') :
    Same (p.followedBy q) (p'.followedBy q') where
  printed st := by
    have earlier := first.printed st
    have later := second.printed (p st).2
    rw [first.naming st] at later
    simp only [Printer.followedBy]
    rw [first.naming st]
    exact ⟨earlier.text.seq later.text, List.rel_append earlier.functions later.functions,
      by rw [earlier.prototypes, later.prototypes]⟩
  naming st := by
    simp only [Printer.followedBy]
    rw [first.naming st, second.naming]

theorem Same.braced (same : Same p q) : Same p.braced q where
  printed st := by
    obtain ⟨text, functions, prototypes⟩ := same.printed st
    exact ⟨⟨text.covered, fun _ => rfl, text.flat_right⟩, functions, prototypes⟩
  naming := same.naming

/-- Locals are always declared. -/
theorem Same.uses_left {names : List String} (known : names ⊆ locals) (same : Same p q) :
    Same ((Printer.uses names).followedBy p) q where
  printed st := by
    obtain ⟨text, functions, prototypes⟩ := same.printed st
    refine ⟨⟨fun env env' inside agree => ?_, fun env => ?_, text.flat_right⟩, functions,
      prototypes⟩
    · simp only [Printer.followedBy, Printer.uses, Printer.write, Text.Covered, scope_uses]
      rw [text.covered env env' inside agree, covered_uses]
      exact and_iff_right (List.Subset.trans known inside)
    · simp only [Printer.followedBy, Printer.uses, Printer.write, Text.scope, scope_uses]
      exact text.flat env
  naming := same.naming

theorem Same.uses_braced_left {names : List String} (known : names ⊆ locals) (same : Same p q) :
    Same ((Printer.uses names).braced.followedBy p) q where
  printed st := by
    obtain ⟨text, functions, prototypes⟩ := same.printed st
    refine ⟨⟨fun env env' inside agree => ?_, text.flat, text.flat_right⟩, functions, prototypes⟩
    simp only [Printer.followedBy, Printer.braced, Printer.uses, Printer.write, Text.Covered,
      Text.scope]
    rw [text.covered env env' inside agree, covered_uses]
    exact and_iff_right (List.Subset.trans known inside)
  naming := same.naming

theorem Same.uses {names : List String} (known : names ⊆ locals) :
    Same (.uses names) (.uses []) where
  printed st := by
    refine ⟨⟨fun env env' inside _ => ?_, fun env => scope_uses names, fun _ => rfl⟩, .nil, rfl⟩
    simp only [Printer.uses, Printer.write]
    rw [covered_uses, covered_uses]
    exact ⟨fun _ => List.nil_subset _, fun _ => List.Subset.trans known inside⟩
  naming _ := rfl

theorem SameText.functionBody {t u : Text} {name : String} (same : SameText t u) :
    SameFunction ⟨name, functionBody t⟩ ⟨name, functionBody u⟩ where
  name := rfl
  covered env env' inside agree := by
    have known : locals ⊆ "FUNC_NAME" :: env := List.cons_subset_cons _ inside
    have body := same.covered ("FUNC_NAME" :: env) _ known (agree.cons "FUNC_NAME")
    have world : "world" ∈ env ↔ "world" ∈ env' := agree "world" (by decide) (by decide)
    simp only [Names.functionBody, covered_all_cons, Text.Covered, Text.scope, body, world,
      same.flat, same.flat_right, List.mem_cons, covered_all_nil]

/-- References to functions and to `klass`. -/
theorem SameText.uses {names : List String} (global : ∀ x ∈ names, x ≠ "iter" ∧ x ≠ "next") :
    SameText (.uses names) (.uses names) where
  covered env env' _ agree := by
    rw [covered_uses, covered_uses]
    exact forall₂_congr fun x member => agree x (global x member).1 (global x member).2
  flat _ := scope_uses names
  flat_right _ := scope_uses names

/-- The names of printed functions begin with `pone_`. -/
theorem global_of_head {x : String} (first : x.toList.head? = some 'p') :
    x ≠ "iter" ∧ x ≠ "next" := by
  constructor
  all_goals
    rintro rfl
    simp at first

theorem subName_none (no : Nat) : subName none no = "pone_user_func_anon_" ++ no.repr := rfl

theorem subName_some (x : String) (no : Nat) : subName (some x) no = "pone_user_func_" ++ x := rfl

theorem head_subName (name : Option String) (no : Nat) :
    (subName name no).toList.head? = some 'p' := by
  cases name with
  | none =>
      rw [subName_none, String.toList_append]
      simp only [String.reduceToList, List.cons_append, List.head?_cons]
  | some x =>
      rw [subName_some, String.toList_append]
      simp only [String.reduceToList, List.cons_append, List.head?_cons]

theorem head_tryName (no : Nat) : (tryName no).toList.head? = some 'p' := by
  rw [tryName, String.toList_append]
  simp only [String.reduceToList, List.cons_append, List.head?_cons]

theorem head_function (d : Definition String) : d.function.toList.head? = some 'p' := by
  cases d with
  | named x => exact head_subName _ _
  | anonymous no => exact head_subName _ _
  | attempt no => exact head_tryName no

theorem Same.printSub (name : Option String) (same : Same p q) :
    Same (printSub name p) (printSub name q) where
  printed st := by
    simp only [Names.printSub]
    obtain ⟨text, functions, prototypes⟩ := same.printed (Naming.enter name st)
    rw [same.naming]
    refine ⟨.uses fun x member => ?_, .cons text.functionBody functions, by rw [prototypes]⟩
    rcases List.mem_cons.mp member with rfl | member
    · decide
    rcases List.mem_cons.mp member with rfl | owner
    · exact global_of_head (head_function _)
    · split at owner
      · obtain rfl := List.mem_singleton.mp owner
        decide
      · cases owner
  naming st := same.naming _

theorem Same.printTry (same : Same p q) : Same (printTry p) (printTry q) where
  printed st := by
    simp only [Names.printTry]
    obtain ⟨text, functions, prototypes⟩ := same.printed st.enterTry
    rw [same.naming]
    refine ⟨.uses fun x member => ?_, .cons text.functionBody functions, prototypes⟩
    rcases List.mem_cons.mp member with rfl | member
    · decide
    · obtain rfl := List.mem_singleton.mp member
      exact global_of_head (head_function _)
  naming st := same.naming _

theorem Same.printClass (same : Same p q) : Same (printClass p) (printClass q) where
  printed st := by
    obtain ⟨text, functions, prototypes⟩ := same.printed { st with inClass := true }
    refine ⟨⟨fun env env' inside agree => ?_, fun _ => rfl, fun _ => rfl⟩, functions, prototypes⟩
    have body := text.covered ("klass" :: env) _
      (List.Subset.trans inside (List.subset_cons_self _ _)) (agree.cons "klass")
    have world : "world" ∈ env ↔ "world" ∈ env' := agree "world" (by decide) (by decide)
    simp only [Names.printClass, Text.Covered, covered_all_cons, Text.scope, world, body,
      List.mem_cons, covered_all_nil, true_or, true_and, and_true]
  naming st := by
    simp only [Names.printClass]
    rw [same.naming]

/-- The locals of a for loop are declared where they are used. -/
theorem Same.printFor (iter : Same p p') (body : Same q q') :
    Same (printFor p q) (p'.followedBy q') where
  printed st := by
    have iter_printed := iter.printed st
    have body_printed := body.printed (p st).2
    rw [iter.naming st] at body_printed
    simp only [Names.printFor, Printer.followedBy, Printer.braced, Printer.uses, Printer.write,
      List.nil_append]
    rw [iter.naming st]
    refine ⟨⟨fun env env' inside agree => ?_, fun _ => rfl, fun env => ?_⟩,
      List.rel_append iter_printed.functions body_printed.functions,
      by rw [iter_printed.prototypes, body_printed.prototypes]⟩
    · have iter_known : locals ⊆ "iter" :: env :=
        List.Subset.trans inside (List.subset_cons_self _ _)
      have body_known : locals ⊆ "next" :: "iter" :: env :=
        List.Subset.trans iter_known (List.subset_cons_self _ _)
      have iter_agree : Agree ("iter" :: env) env' := agree.loop (.inl rfl)
      have world : "world" ∈ env := inside (by decide)
      simp only [Text.Covered, Text.scope, scope_uses, covered_uses, iter_printed.text.flat,
        iter_printed.text.flat_right,
        iter_printed.text.covered _ _ iter_known iter_agree,
        body_printed.text.covered _ _ body_known (iter_agree.loop (.inr rfl))]
      simp [world]
    · simp only [Text.scope, iter_printed.text.flat_right, body_printed.text.flat_right]
  naming st := by
    simp only [Names.printFor, Printer.followedBy, Printer.braced, Printer.uses, Printer.write]
    rw [iter.naming st, body.naming]

end Same

section Skeletons

/-- What is printed for a skeleton. -/
def Skeleton.print : Skeleton → Printer
  | leaf => .uses []
  | seq first second => first.print.followedBy second.print
  | klass body => printClass body.print
  | func name body => printSub name body.print
  | attempt body => printTry body.print

theorem print_same (node : Node String) : Same (print node) (skeleton node).print := by
  induction node with
  | atom | var _ | my _ | next | last | nop | done => exact .uses (by decide)
  | myAssign _ _ ih | myList _ _ ih | assign _ _ ih | inplace _ _ ih | op _ ih | funcall _ _ ih
  | params _ ih => exact .uses_left (by decide) ih
  | conditional _ _ _ cond yes no => exact cond.followedBy (yes.followedBy no)
  | logicalOp _ _ left right => exact .uses_left (by decide) (left.followedBy right)
  | func _ _ _ params body => exact (params.followedBy body).printSub _
  | param _ _ ih =>
      refine .uses_left (by decide) ?_
      exact .uses_braced_left (by decide) (Same.uses_left (by decide) ih).braced
  | attempt _ ih => exact ih.printTry
  | klass _ _ ih => exact ih.printClass
  | block _ ih => exact (Same.uses_left (by decide) ih).braced
  | statements _ _ head rest => exact head.followedBy rest
  | ifThen _ _ _ cond body rest | elsif _ _ _ cond body rest =>
      exact cond.followedBy (body.braced.followedBy rest)
  | otherwise _ ih => exact ih.braced
  | forLoop _ _ iter body => exact iter.printFor body
  | whileLoop _ _ cond body => exact cond.followedBy body.braced
  | ret _ ih => exact ih

variable (s : Skeleton) (st : Naming)

theorem Skeleton.print_naming :
    (s.print st).2 = ⟨st.anonSubNo + s.numbered, st.inClass && !s.hasClass⟩ := by
  induction s generalizing st with
  | leaf => simp [print, Printer.uses, Printer.write, numbered, hasClass]
  | seq first second first_ih second_ih =>
      simp only [print, Printer.followedBy, first_ih, second_ih, numbered, hasClass]
      simp [Nat.add_assoc, Bool.and_assoc]
  | klass body ih => simp [print, printClass, ih, numbered, hasClass]
  | func name body ih =>
      cases name with
      | none => simp [print, printSub, Naming.enter, ih, numbered, hasClass]; omega
      | some x => simp [print, printSub, Naming.enter, ih, numbered, hasClass]
  | attempt body ih => simp [print, printTry, Naming.enterTry, ih, numbered, hasClass]; omega

theorem Skeleton.print_names :
    (s.print st).1.functions.map Function.name =
      (s.definitions st.anonSubNo).map Definition.function := by
  induction s generalizing st with
  | leaf => rfl
  | seq first second first_ih second_ih =>
      simp only [print, Printer.followedBy, print_naming, List.map_append, first_ih, second_ih,
        definitions]
  | klass body ih => exact ih _
  | func name body ih =>
      cases name with
      | none => exact congrArg (_ :: ·) (ih _)
      | some x => exact congrArg (_ :: ·) (ih _)
  | attempt body ih => exact congrArg (_ :: ·) (ih _)

theorem Skeleton.print_prototypes :
    (s.print st).1.prototypes =
      ((s.definitions st.anonSubNo).filter Definition.isSub).map Definition.function := by
  induction s generalizing st with
  | leaf => rfl
  | seq first second first_ih second_ih =>
      simp only [print, Printer.followedBy, print_naming, List.filter_append, List.map_append,
        first_ih, second_ih, definitions]
  | klass body ih => exact ih _
  | func name body ih =>
      cases name with
      | none => exact congrArg (_ :: ·) (ih _)
      | some x => exact congrArg (_ :: ·) (ih _)
  | attempt body ih => exact ih _

theorem Skeleton.print_flat (env : List String) : (s.print st).1.text.scope env = env := by
  induction s generalizing st with
  | leaf => rfl
  | seq first second first_ih second_ih =>
      simp only [print, Printer.followedBy, Text.scope, first_ih, second_ih]
  | klass body ih => rfl
  | func name body ih => exact scope_uses _
  | attempt body ih => exact scope_uses _

/-! ## Numbers -/

theorem Skeleton.numbers (no : Nat) :
    (s.definitions no).filterMap Definition.number = List.range' (no + 1) s.numbered := by
  induction s generalizing no with
  | leaf => rfl
  | seq first second first_ih second_ih =>
      rw [definitions, List.filterMap_append, first_ih, second_ih, numbered,
        ← List.range'_append_1, Nat.add_right_comm]
  | klass body ih => exact ih no
  | func name body ih =>
      cases name with
      | none => exact congrArg (_ :: ·) (ih (no + 1))
      | some x => exact ih no
  | attempt body ih => exact congrArg (_ :: ·) (ih (no + 1))

variable {s}

theorem Skeleton.number_bounds {no k : Nat} {d : Definition String} (member : d ∈ s.definitions no)
    (numbered : d.number = some k) : no < k ∧ k ≤ no + s.numbered := by
  have inside : k ∈ (s.definitions no).filterMap Definition.number :=
    List.mem_filterMap.mpr ⟨d, member, numbered⟩
  rw [s.numbers, List.mem_range'_1] at inside
  omega

theorem Skeleton.TriesApart.no_attempt (apart : s.TriesApart false) (no k : Nat) :
    .attempt k ∉ s.definitions no := by
  induction s generalizing no with
  | leaf => exact List.not_mem_nil
  | seq first second first_ih second_ih =>
      rw [definitions, List.mem_append, not_or]
      exact ⟨first_ih apart.1 no, second_ih apart.2 _⟩
  | klass body ih => exact ih apart no
  | func name body ih =>
      cases name with
      | none =>
          rw [definitions, List.mem_cons, not_or]
          exact ⟨nofun, ih apart _⟩
      | some x =>
          rw [definitions, List.mem_cons, not_or]
          exact ⟨nofun, ih apart _⟩
  | attempt body ih => cases apart.1

theorem Skeleton.triesApart_of_numbered (none_ : s.numbered = 0) : s.TriesApart false := by
  induction s with
  | leaf => trivial
  | seq first second first_ih second_ih =>
      rw [numbered, Nat.add_eq_zero_iff] at none_
      exact ⟨first_ih none_.1, second_ih none_.2⟩
  | klass body ih => exact ih none_
  | func name body ih =>
      cases name with
      | none => cases none_
      | some x => exact ih none_
  | attempt body ih => cases none_

end Skeletons

section Coverage

variable {s t : Skeleton} {no : Nat} {outside here : Bool}
  {env declared : List String}

theorem functionsCovered_append (fs gs : List Function) :
    FunctionsCovered declared (fs ++ gs) ↔ FunctionsCovered declared fs ∧
      FunctionsCovered ((fs.map Function.name).reverse ++ declared) gs := by
  induction fs generalizing declared with
  | nil => exact (true_and _).symm ▸ Iff.rfl
  | cons f fs ih =>
      rw [List.cons_append, FunctionsCovered, FunctionsCovered, ih, List.map_cons,
        List.reverse_cons, List.append_assoc, List.singleton_append, and_assoc]

theorem tryName_injective {j k : Nat} (same : tryName j = tryName k) : j = k := by
  have digits : j.repr = k.repr := by simpa [tryName] using same
  simpa using congrArg (fun text => Nat.ofDigitChars 10 text.toList 0) digits

theorem function_ne_tryName {d : Definition String} {k : Nat} (other : d ≠ .attempt k) :
    d.function ≠ tryName k := by
  have fifth : (tryName k).toList[5]? = some 't' := by
    rw [tryName, String.toList_append]
    simp
  intro same
  have first : d.function.toList[5]? = some 't' := same ▸ fifth
  cases d with
  | named x =>
      rw [Definition.function, subName_some, String.toList_append] at first
      simp at first
  | anonymous no =>
      rw [Definition.function, subName_none, String.toList_append] at first
      simp at first
  | attempt no => exact other (congrArg _ (tryName_injective same))

/-- No function is named like a local. -/
theorem not_local {x : String} (first : x.toList.head? = some 'p') :
    x ≠ "klass" ∧ x ∉ locals := by
  constructor
  · rintro rfl
    simp at first
  · intro member
    simp only [locals, parameters, List.mem_cons, List.not_mem_nil, or_false] at member
    rcases member with rfl | rfl | rfl | rfl | rfl
    all_goals simp at first

/-- Where the text of a skeleton stands: `outside` of all functions or not, with a class body `here`
or not, with the names `declared` before its functions. -/
structure Setting (s : Skeleton) (no : Nat) (outside here : Bool) (env declared : List String) :
    Prop where
  locals : locals ⊆ env
  klass : "klass" ∈ env ↔ here = true
  noKlass : "klass" ∉ declared
  subs : ∀ d ∈ s.definitions no, d.isSub = true → d.function ∈ env ∧ d.function ∈ declared
  tries : ∀ k, no < k → k ≤ no + s.numbered →
    (tryName k ∈ env ↔ outside = true ∧ .attempt k ∈ s.definitions no)
  later : ∀ k, no < k → tryName k ∉ declared

theorem Setting.first (setting : Setting (.seq s t) no outside here env declared) :
    Setting s no outside here env declared where
  locals := setting.locals
  klass := setting.klass
  noKlass := setting.noKlass
  subs d member := setting.subs d (List.mem_append_left _ member)
  tries k above below := by
    have whole : k ≤ no + (Skeleton.seq s t).numbered := by
      rw [Skeleton.numbered]
      omega
    have elsewhere : .attempt k ∉ t.definitions (no + s.numbered) := fun member => by
      have := Skeleton.number_bounds member rfl
      omega
    rw [setting.tries k above whole, Skeleton.definitions, List.mem_append,
      or_iff_left elsewhere]
  later := setting.later

theorem Setting.second (setting : Setting (.seq s t) no outside here env declared) :
    Setting t (no + s.numbered) outside here env
      (((s.definitions no).map Definition.function).reverse ++ declared) where
  locals := setting.locals
  klass := setting.klass
  noKlass := by
    simp only [List.mem_append, List.mem_reverse, List.mem_map, not_or, not_exists, not_and]
    exact ⟨fun d _ => (not_local (head_function d)).1, setting.noKlass⟩
  subs d member isSub := by
    obtain ⟨known, declared⟩ := setting.subs d (List.mem_append_right _ member) isSub
    exact ⟨known, List.mem_append_right _ declared⟩
  tries k above below := by
    have whole : k ≤ no + (Skeleton.seq s t).numbered := by
      rw [Skeleton.numbered]
      omega
    have elsewhere : .attempt k ∉ s.definitions no := fun member => by
      have := Skeleton.number_bounds member rfl
      omega
    rw [setting.tries k (by omega) whole, Skeleton.definitions, List.mem_append,
      or_iff_right elsewhere]
  later k above := by
    simp only [List.mem_append, List.mem_reverse, List.mem_map, not_or, not_exists, not_and]
    refine ⟨fun d member => function_ne_tryName ?_, setting.later k (by omega)⟩
    rintro rfl
    have := Skeleton.number_bounds member rfl
    omega

/-- A class body. -/
theorem Setting.inside (setting : Setting (.klass s) no outside here env declared) :
    Setting s no outside true ("klass" :: env) declared where
  locals := List.Subset.trans setting.locals (List.subset_cons_self _ _)
  klass := iff_of_true List.mem_cons_self rfl
  noKlass := setting.noKlass
  subs d member isSub := by
    obtain ⟨known, declared⟩ := setting.subs d member isSub
    exact ⟨List.mem_cons_of_mem _ known, declared⟩
  tries k above below := by
    rw [List.mem_cons, or_iff_right (not_local (head_tryName k)).1]
    exact setting.tries k above below
  later := setting.later

/-- The body of a function that is begun where the given names are declared. -/
theorem Setting.body {d : Definition String} (noKlass : "klass" ∉ declared)
    (subs : ∀ e ∈ s.definitions no, e.isSub = true → e.function ∈ declared)
    (later : ∀ k, no < k → tryName k ∉ declared) (own : ∀ k, no < k → d ≠ .attempt k) :
    Setting s no false false ("FUNC_NAME" :: (parameters ++ d.function :: declared))
      (d.function :: declared) := by
  have class_ : "klass" ∉ d.function :: declared := by
    rw [List.mem_cons, not_or]
    exact ⟨(not_local (head_function d)).1.symm, noKlass⟩
  have tries {k : Nat} (above : no < k) : tryName k ∉ d.function :: declared := by
    rw [List.mem_cons, not_or]
    exact ⟨(function_ne_tryName (own k above)).symm, later k above⟩
  refine ⟨fun x member => ?_, ?_, class_, fun e member isSub => ?_, fun k above _ => ?_,
    fun k above => tries above⟩
  · have append : x ∈ Names.locals ++ d.function :: declared := List.mem_append_left _ member
    exact append
  · refine iff_of_false ?_ nofun
    rw [← List.cons_append, List.mem_append, not_or]
    exact ⟨by decide, class_⟩
  · have known := List.mem_cons_of_mem d.function (subs e member isSub)
    exact ⟨List.mem_cons_of_mem _ (List.mem_append_right _ known), known⟩
  · refine iff_of_false ?_ fun impossible => nomatch impossible.1
    rw [← List.cons_append, List.mem_append, not_or]
    exact ⟨(not_local (head_tryName k)).2, tries above⟩

theorem functionBody_covered {d : Definition String} {printed : Text}
    (flat : ∀ env, printed.scope env = env) :
    (functionBody printed).Covered (parameters ++ d.function :: declared) ↔
      printed.Covered ("FUNC_NAME" :: (parameters ++ d.function :: declared)) := by
  have world : "world" ∈ parameters ++ d.function :: declared :=
    List.mem_append_left _ (by decide)
  simp only [functionBody, covered_all_cons, Text.Covered, Text.scope, flat, world, true_and,
    List.mem_cons, or_true, covered_all_nil, and_true]

theorem Skeleton.exists_number {k : Nat} (above : no < k) (below : k ≤ no + s.numbered) :
    ∃ d ∈ s.definitions no, d.number = some k := by
  have inside : k ∈ (s.definitions no).filterMap Definition.number := by
    rw [s.numbers, List.mem_range'_1]
    omega
  exact List.mem_filterMap.mp inside

/-- The number that a sub refers to belongs to an anonymous sub where there is no try. -/
theorem Skeleton.TriesApart.anonymous {k : Nat} (apart : s.TriesApart false) (above : no < k)
    (below : k ≤ no + s.numbered) : .anonymous k ∈ s.definitions no := by
  obtain ⟨d, member, numbered⟩ := exists_number above below
  cases d with
  | named x => cases numbered
  | anonymous j =>
      obtain rfl := Option.some.inj numbered
      exact member
  | attempt j => exact absurd member (apart.no_attempt no j)

/-- The functions of a body are begun after its own. -/
theorem Skeleton.body_covered (st : Naming) {d : Definition String}
    (ih : ∀ {outside here : Bool} {env declared : List String} (st : Naming),
      Setting s st.anonSubNo outside here env declared →
      ((s.print st).1.text.Covered env ∧ FunctionsCovered declared (s.print st).1.functions ↔
        s.TriesApart outside ∧ s.MethodsInClass st.inClass here))
    (noKlass : "klass" ∉ declared)
    (subs : ∀ e ∈ s.definitions st.anonSubNo, e.isSub = true → e.function ∈ declared)
    (later : ∀ k, st.anonSubNo < k → tryName k ∉ declared)
    (own : ∀ k, st.anonSubNo < k → d ≠ .attempt k) :
    FunctionsCovered declared
        (⟨d.function, functionBody (s.print st).1.text⟩ :: (s.print st).1.functions) ↔
      s.TriesApart false ∧ s.MethodsInClass st.inClass false := by
  rw [← ih st (.body noKlass subs later own), FunctionsCovered,
    functionBody_covered (s.print_flat st)]

theorem Skeleton.covered_iff (st : Naming)
    (setting : Setting s st.anonSubNo outside here env declared) :
    (s.print st).1.text.Covered env ∧ FunctionsCovered declared (s.print st).1.functions ↔
      s.TriesApart outside ∧ s.MethodsInClass st.inClass here := by
  induction s generalizing st outside here env declared with
  | leaf => exact iff_of_true ⟨covered_uses.mpr (List.nil_subset _), trivial⟩ ⟨trivial, trivial⟩
  | seq first second first_ih second_ih =>
      have earlier := first_ih st setting.first
      have later := second_ih ⟨st.anonSubNo + first.numbered, st.inClass && !first.hasClass⟩
        setting.second
      rw [← first.print_names st, ← first.print_naming st] at later
      simp only [print, Printer.followedBy, Text.Covered, functionsCovered_append, first.print_flat,
        TriesApart, MethodsInClass]
      rw [and_and_and_comm, earlier, later, first.print_naming st, and_and_and_comm]
  | klass body ih =>
      have inside := ih { st with inClass := true } setting.inside
      have world : "world" ∈ env := setting.locals (by decide)
      simp only [print, printClass, Text.Covered, covered_all_cons, Text.scope, List.mem_cons,
        covered_all_nil, true_or, true_and, and_true, TriesApart, MethodsInClass, ← inside, world,
        or_true]
  | func name body ih =>
      have world : "world" ∈ env := setting.locals (by decide)
      cases name with
      | none =>
          have inside := body_covered (Naming.enter (none : Option String) st)
            (d := .anonymous (st.anonSubNo + 1)) ih setting.noKlass
            (fun e member isSub => (setting.subs e (List.mem_cons_of_mem _ member) isSub).2)
            (fun k above => setting.later k (Nat.lt_of_succ_lt above)) nofun
          refine Iff.trans ⟨fun covered => inside.mp covered.2, fun placed => ⟨?_, inside.mpr placed⟩⟩
            Iff.rfl
          have member : Definition.anonymous (st.anonSubNo + 1 + body.numbered) ∈
              (func none body).definitions st.anonSubNo := by
            refine TriesApart.anonymous (s := func none body) placed.1 ?_ ?_
            · omega
            · rw [numbered]
              omega
          have known := (setting.subs _ member rfl).1
          refine covered_uses.mpr ?_
          rw [print_naming]
          exact List.cons_subset.mpr ⟨world, List.cons_subset.mpr ⟨known, List.nil_subset _⟩⟩
      | some x =>
          have inside := body_covered st (d := .named x) ih setting.noKlass
            (fun e member isSub => (setting.subs e (List.mem_cons_of_mem _ member) isSub).2)
            setting.later nofun
          have known : subName (some x) 0 ∈ env := (setting.subs _ List.mem_cons_self rfl).1
          have owner : ((if (st.inClass && !body.hasClass) = true then ["klass"] else []) ⊆ env) ↔
              ((st.inClass && !body.hasClass) = true → here = true) := by
            rw [← setting.klass]
            split
            case isTrue method => simp [method]
            case isFalse plain => simp [plain]
          have refs : (printSub (some x) body.print st).1.text.Covered env ↔
              ((st.inClass && !body.hasClass) = true → here = true) := by
            refine covered_uses.trans ?_
            rw [List.cons_subset, List.cons_subset, ← owner]
            simp only [Naming.enter, print_naming, Option.isSome_some, Bool.true_and]
            exact (and_iff_right world).trans (and_iff_right known)
          calc _ ↔ _ ∧ _ := and_congr refs inside
            _ ↔ _ := and_comm
            _ ↔ _ := and_assoc
  | attempt body ih =>
      have world : "world" ∈ env := setting.locals (by decide)
      have inside := body_covered st.enterTry
        (d := .attempt (st.anonSubNo + 1)) ih setting.noKlass
        (fun e member isSub => (setting.subs e (List.mem_cons_of_mem _ member) isSub).2)
        (fun k above => setting.later k (Nat.lt_of_succ_lt above))
        (fun k above same => by
          obtain rfl := Definition.attempt.inj same
          exact Nat.lt_irrefl _ above)
      have refs : (printTry body.print st).1.text.Covered env ↔ outside = true ∧
          .attempt (st.anonSubNo + 1 + body.numbered) ∈
            (Skeleton.attempt body).definitions st.anonSubNo := by
        refine covered_uses.trans ?_
        rw [List.cons_subset, List.cons_subset, print_naming]
        refine Iff.trans ?_ (setting.tries _ ?_ ?_)
        · exact (and_iff_right world).trans (and_iff_left (List.nil_subset _))
        · omega
        · rw [numbered]
          omega
      -- Inside of the try there is no other, so that its reference takes the number of an
      -- anonymous sub if there is any.
      have own (apart : body.TriesApart false) :
          .attempt (st.anonSubNo + 1 + body.numbered) ∈
            (Skeleton.attempt body).definitions st.anonSubNo ↔ body.numbered = 0 := by
        rw [definitions, List.mem_cons, or_iff_left (apart.no_attempt _ _), Definition.attempt.injEq]
        omega
      constructor
      · rintro ⟨reference, covered⟩
        obtain ⟨apart, methods⟩ := inside.mp covered
        obtain ⟨top, member⟩ := refs.mp reference
        exact ⟨⟨top, (own apart).mp member⟩, methods⟩
      · rintro ⟨⟨top, none_⟩, methods⟩
        have apart := triesApart_of_numbered none_
        exact ⟨refs.mpr ⟨top, (own apart).mpr none_⟩, inside.mpr ⟨apart, methods⟩⟩

end Coverage

section Functions

variable {s : Skeleton} {no : Nat}

theorem isIdentifier_append {x y : String} (first : x.toList.head? = some 'p')
    (fine : x.toList.all identifierChar = true) :
    IsIdentifier (x ++ y) ↔ ∀ c ∈ y.toList, identifierChar c := by
  have letter : ((x ++ y).toList.head?.any fun c => c.isAlpha || c == '_') = true := by
    rw [String.toList_append, List.head?_append, first]
    rfl
  rw [IsIdentifier, and_iff_left letter, String.toList_append]
  constructor
  · exact fun all c member => all c (List.mem_append_right _ member)
  · intro all c member
    rcases List.mem_append.mp member with before | after
    · exact List.all_eq_true.mp fine c before
    · exact all c after

theorem identifierChar_repr (no : Nat) : ∀ c ∈ no.repr.toList, identifierChar c := by
  intro c member
  rw [Nat.toList_repr] at member
  have digit : c.isDigit = true := Nat.isDigit_of_mem_toDigits (by decide) (by decide) member
  simp [identifierChar, Char.isAlphanum, digit]

/-- Only the name that the program gives to a sub can fail to be an identifier. -/
theorem isIdentifier_function (d : Definition String) :
    IsIdentifier d.function ↔ ∀ x, d = .named x → ∀ c ∈ x.toList, identifierChar c := by
  cases d with
  | named x =>
      rw [Definition.function, subName_some]
      refine (isIdentifier_append (by simp) (by simp; decide)).trans ?_
      constructor
      · rintro all y same
        obtain rfl := Definition.named.inj same
        exact all
      · intro all
        exact all x rfl
  | anonymous no =>
      refine iff_of_true ?_ nofun
      exact (isIdentifier_append (by simp) (by simp; decide)).mpr
        (identifierChar_repr no)
  | attempt no =>
      refine iff_of_true ?_ nofun
      exact (isIdentifier_append (by simp) (by simp; decide)).mpr
        (identifierChar_repr no)

theorem mem_subNames {ds : List (Definition String)} {x : String} : x ∈ subNames ds ↔ .named x ∈ ds := by
  rw [subNames, List.mem_filterMap]
  constructor
  · rintro ⟨d, member, same⟩
    cases d with
    | named y =>
        obtain rfl := Option.some.inj same
        exact member
    | anonymous no | attempt no => cases same
  · exact fun member => ⟨_, member, rfl⟩

/-- Two definitions print one function where a sub is named like an anonymous one. -/
theorem function_eq {d e : Definition String} (same : d.function = e.function) (different : d ≠ e) :
    ∃ no, (d = .anonymous no ∧ e = .named ("anon_" ++ no.repr)) ∨
      (e = .anonymous no ∧ d = .named ("anon_" ++ no.repr)) := by
  have split (no : Nat) : subName none no = "pone_user_func_" ++ ("anon_" ++ no.repr) := by
    rw [subName_none, ← String.append_assoc]
    rfl
  cases d with
  | attempt j => exact absurd same.symm (function_ne_tryName different.symm)
  | named x =>
      cases e with
      | attempt k => exact absurd same (function_ne_tryName different)
      | named y =>
          have equal : x = y := by simpa [Definition.function, subName_some] using same
          exact absurd (congrArg _ equal) different
      | anonymous k =>
          rw [Definition.function, Definition.function, split, subName_some] at same
          have equal : x = "anon_" ++ k.repr := by simpa using same
          exact ⟨k, .inr ⟨rfl, congrArg _ equal⟩⟩
  | anonymous j =>
      cases e with
      | attempt k => exact absurd same (function_ne_tryName different)
      | named y =>
          rw [Definition.function, Definition.function, split, subName_some] at same
          have equal : "anon_" ++ j.repr = y := by simpa using same
          exact ⟨j, .inl ⟨rfl, congrArg _ equal.symm⟩⟩
      | anonymous k =>
          have digits : j.repr = k.repr := by
            simpa [Definition.function, subName_none] using same
          have equal : j = k := by
            simpa using congrArg (fun text => Nat.ofDigitChars 10 text.toList 0) digits
          exact absurd (congrArg _ equal) different

theorem Skeleton.definitions_nodup_iff :
    (s.definitions no).Nodup ↔ (subNames (s.definitions no)).Nodup := by
  constructor
  · refine fun nodup => nodup.filterMap fun d e x first second => ?_
    cases d <;> cases e <;> simp_all
  · intro named
    have numbered : ((s.definitions no).filterMap Definition.number).Nodup := by
      rw [s.numbers]
      exact List.nodup_range'
    rw [List.Nodup, subNames, List.pairwise_filterMap] at named
    rw [List.Nodup, List.pairwise_filterMap] at numbered
    refine (named.and numbered).imp ?_
    rintro d e ⟨names, numbers⟩ rfl
    cases d with
    | named x => exact names x rfl x rfl rfl
    | anonymous k | attempt k => exact numbers k rfl k rfl rfl

theorem Skeleton.functions_nodup_iff :
    ((s.definitions no).map Definition.function).Nodup ↔
      (subNames (s.definitions no)).Nodup ∧ ∀ k, .anonymous k ∈ s.definitions no →
        "anon_" ++ k.repr ∉ subNames (s.definitions no) := by
  constructor
  · intro nodup
    refine ⟨definitions_nodup_iff.mp nodup.of_map, fun k anonymous named => ?_⟩
    have same := List.inj_on_of_nodup_map nodup anonymous (mem_subNames.mp named) <| by
      rw [Definition.function, Definition.function, subName_none, subName_some,
        ← String.append_assoc]
      rfl
    cases same
  · rintro ⟨named, apart⟩
    refine (List.nodup_map_iff_inj_on (definitions_nodup_iff.mpr named)).mpr ?_
    intro d d_mem e e_mem same
    by_contra different
    obtain ⟨k, ⟨rfl, rfl⟩ | ⟨rfl, rfl⟩⟩ := function_eq same different
    · exact apart k d_mem (mem_subNames.mpr e_mem)
    · exact apart k e_mem (mem_subNames.mpr d_mem)

end Functions

section File

variable {fs gs : List Function} {declared : List String}

theorem sameFunctions_names (same : List.Forall₂ SameFunction fs gs) :
    fs.map Function.name = gs.map Function.name := by
  induction same with
  | nil => rfl
  | cons head _ ih => rw [List.map_cons, List.map_cons, head.name, ih]

theorem sameFunctions_covered (same : List.Forall₂ SameFunction fs gs) :
    FunctionsCovered declared fs ↔ FunctionsCovered declared gs := by
  induction same generalizing declared with
  | nil => rfl
  | cons head _ ih =>
      rw [FunctionsCovered, FunctionsCovered, head.name, ih,
        head.covered _ _ (List.subset_append_left _ _) (.refl _)]

theorem skeleton_injectReturn (node : Node String) :
    skeleton (injectReturn node) = skeleton node := by
  fun_induction injectReturn node with
  | case1 cond body rest body_ih final =>
      rw [skeleton, skeleton, body_ih]
      cases rest with
      | otherwise e => exact congrArg (fun t => Skeleton.seq (skeleton cond) (.seq (skeleton body) t)) final
      | _ => rfl
  | _ => simp_all [skeleton]

theorem skeleton_withReturns (node : Node String) :
    skeleton (withReturns node) = skeleton node := by
  induction node <;> simp_all [withReturns, skeleton, skeleton_injectReturn]

/-- What is printed for the file of a skeleton stands where everything is declared. -/
theorem Skeleton.setting_file (s : Skeleton) :
    Setting s 0 true false
      (locals ++ (((s.definitions 0).map Definition.function).reverse ++
        ((s.definitions 0).filter Definition.isSub).map Definition.function))
      (((s.definitions 0).filter Definition.isSub).map Definition.function) := by
  have noKlass (ds : List (Definition String)) : "klass" ∉ ds.map Definition.function := by
    simp only [List.mem_map, not_exists, not_and]
    exact fun d _ => (not_local (head_function d)).1
  have noTry (k : Nat) (ds : List (Definition String)) (other : .attempt k ∉ ds) :
      tryName k ∉ ds.map Definition.function := by
    simp only [List.mem_map, not_exists, not_and]
    refine fun d member => function_ne_tryName ?_
    rintro rfl
    exact other member
  have subs (k : Nat) : .attempt k ∉ (s.definitions 0).filter Definition.isSub := fun member =>
    Bool.noConfusion (List.mem_filter.mp member).2
  refine ⟨fun x member => ?_, ?_, noKlass _, fun d member isSub => ?_, fun k above below => ?_,
    fun k _ => noTry k _ (subs k)⟩
  · exact List.mem_append_left _ member
  · refine iff_of_false ?_ nofun
    rw [List.mem_append, List.mem_append, List.mem_reverse, not_or, not_or]
    exact ⟨by decide, noKlass _, noKlass _⟩
  · have known := List.mem_map_of_mem (f := Definition.function)
      (List.mem_filter.mpr ⟨member, isSub⟩)
    refine ⟨?_, known⟩
    exact List.mem_append_right _ (List.mem_append_right _ known)
  · rw [List.mem_append, List.mem_append, List.mem_reverse,
      or_iff_right (not_local (head_tryName k)).2, or_iff_left (noTry k _ (subs k))]
    constructor
    · intro declared
      refine ⟨rfl, ?_⟩
      by_contra missing
      exact noTry k _ missing declared
    · exact fun found => List.mem_map_of_mem found.2

theorem valid_iff {ds : List (Definition String)}
    (names : fs.map Function.name = ds.map Definition.function) :
    (∀ f ∈ fs, IsIdentifier f.name) ↔
      ∀ x ∈ subNames ds, ∀ c ∈ x.toList, identifierChar c := by
  have along : (∀ f ∈ fs, IsIdentifier f.name) ↔ ∀ d ∈ ds, IsIdentifier d.function := by
    rw [← List.forall_mem_map (P := IsIdentifier), names, List.forall_mem_map]
  rw [along]
  constructor
  · intro valid x member
    have named := mem_subNames.mp member
    exact (isIdentifier_function _).mp (valid _ named) x rfl
  · rintro letters d member
    refine (isIdentifier_function d).mpr ?_
    rintro x rfl
    exact letters x (mem_subNames.mpr member)

/-- The function of the file begins with `FUNC_NAME`. -/
theorem loader_covered {t u : Text} (same : SameText t u) :
    (Text.all [.declare "FUNC_NAME", t, .refer "world"]).Covered (parameters ++ declared) ↔
      u.Covered (locals ++ declared) := by
  have known : locals ⊆ locals ++ declared := List.subset_append_left _ _
  have world : "world" ∈ locals ++ declared := known (by decide)
  have whole : t.Covered (locals ++ declared) ↔ u.Covered (locals ++ declared) :=
    same.covered _ _ known (.refl _)
  simp only [covered_all_cons, Text.Covered, Text.scope, same.flat, true_and, covered_all_nil,
    and_true]
  exact (and_iff_left world).trans whole

end File

section IllNamed

/-- `sub foo-bar() { }`. -/
def hyphenated : Node String :=
  .statements (.func (some (.user "foo-bar")) (.params .done) (.block .done)) .done

/-- `class A { sub x() { } }; class B { sub x() { } }`. -/
def sameMethods : Node String :=
  .statements (.klass (.user "A") (.block (.statements
    (.func (some (.user "x")) (.params .done) (.block .done)) .done)))
  (.statements (.klass (.user "B") (.block (.statements
    (.func (some (.user "x")) (.params .done) (.block .done)) .done))) .done)

/-- `sub f() { try { 1 } }`. -/
def tryInSub : Node String :=
  .statements (.func (some (.user "f")) (.params .done) (.block (.statements
    (.attempt (.block (.statements .atom .done))) .done))) .done

/-- `class A { sub x() { sub y() { } } }`. -/
def subInMethod : Node String :=
  .statements (.klass (.user "A") (.block (.statements
    (.func (some (.user "x")) (.params .done) (.block (.statements
      (.func (some (.user "y")) (.params .done) (.block .done)) .done))) .done))) .done

/-- The function of the sub comes before that of its try. -/
theorem tryInSub_uncovered :
    ¬ FunctionsCovered (compileFile tryInSub).prototypes (compileFile tryInSub).functions := by
  rintro ⟨covered, -⟩
  have reference : tryName 1 ∈ locals ++ [subName (some "f") 0, subName (some "f") 0] :=
    covered.2.2.1.2.2.1.2.1
  have other : subName (some "f") 0 ≠ tryName 1 := function_ne_tryName (d := .named "f") nofun
  rw [List.mem_append, or_iff_right (not_local (head_tryName 1)).2] at reference
  simp [other.symm] at reference

/-- The sub in a method is added to a class that its function does not know. -/
theorem subInMethod_uncovered :
    ¬ FunctionsCovered (compileFile subInMethod).prototypes
      (compileFile subInMethod).functions := by
  rintro ⟨covered, -⟩
  have reference : "klass" ∈ locals ++ [subName (some "x") 0, subName (some "x") 0,
      subName (some "y") 0] := covered.2.2.1.2.2.1.2.2.1
  have other (x : String) : subName (some x) 0 ≠ "klass" := (not_local (head_subName _ _)).1
  rw [List.mem_append, or_iff_right (by decide)] at reference
  simp [(other _).symm] at reference

end IllNamed

end Names
end Compile
end Pone
