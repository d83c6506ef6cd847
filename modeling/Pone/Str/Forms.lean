import Pone.Str.Snapshots
import Pone.Str.Stringify

/-!
# String forms

What the `Str` methods give stays as it is where the callers of `pone_stringify` append to a string
that nobody else has: a copy, or a new string that is no constant.
-/

namespace Pone
namespace Str

open Simulation (Agrees Follows)
open Simulation (orHalt)

/-- The states that the operations on strings lead to. -/
inductive Reachable : State → Prop where
  | start : Reachable start
  | step {s s' : State} {texts : List Text} {op : Op} {moved : Bool} {answer : Answer} :
      Reachable s → Shows s texts → op.InDomain texts → step s moved op = .ok (s', answer) →
      Reachable s'

theorem Reachable.sane {s : State} (reach : Reachable s) : Sane s := by
  induction reach with
  | start => exact sane_start
  | @step s s' texts op moved answer _ shows valid done sane =>
      exact (step_iff s texts (op, moved) sane shows valid).2 s' answer done

/-- Every string of a sane state shows a value. -/
theorem Sane.shows {s : State} (sane : Sane s) : ∃ texts, Shows s texts := by
  have shown (i : Nat) (inside : i < s.strs.length) : ∃ bytes, content s i = some bytes := by
    induction i using Nat.strongRecOn with
    | ind i ih =>
        have found : s.strs[i]? = some s.strs[i] := List.getElem?_eq_getElem inside
        cases source : s.strs[i].source with
        | p a =>
            refine ⟨((s.mem a).getD []).take s.strs[i].len, ?_⟩
            rw [sane.content_eq]
            apply Cow.value_of_own
            rw [cells_getElem?, found, Option.map_some, cellOf, source]
        | val source' =>
            have earlier := sane.earlier i _ source' found source
            obtain ⟨bytes, shown⟩ := ih source' earlier (Nat.lt_trans earlier inside)
            refine ⟨bytes, ?_⟩
            rw [sane.content_eq] at shown ⊢
            rw [← shown]
            apply sane.backward.value_of_ref
            rw [cells_getElem?, found, Option.map_some, cellOf, source]
  let texts : List Text := (List.range s.strs.length).map fun i =>
    { isConst := ((s.strs[i]?).map PoneString.isConst).getD false
      bytes := (content s i).getD [] }
  refine ⟨texts, ?_, ?_⟩
  · intro i
    by_cases inside : i < s.strs.length
    · obtain ⟨bytes, is_shown⟩ := shown i inside
      simp [texts, inside, is_shown]
    · rw [sane.content_eq, Cow.value, Cow.resolve, cells_getElem?,
        List.getElem?_eq_none (by omega)]
      simp [texts, inside]
  · apply List.ext_getElem?
    intro i
    by_cases inside : i < s.strs.length
    · simp [texts, inside]
    · simp [texts, inside]

/-- The last string has no copies. -/
theorem Sane.noCopies_last {s : State} (sane : Sane s) {n : Nat} (last : s.strs.length ≤ n + 1) :
    NoCopies s n := by
  intro j v found refers
  have earlier := sane.earlier j v n found refers
  have inside := (List.getElem?_eq_some_iff.mp found).1
  omega

/-- A string with a buffer of its own is no copy. -/
theorem NoCopies.set {s s' : State} {n i a : Nat} {v : PoneString} (alone : NoCopies s n)
    (strs : s'.strs = s.strs.set i v) (own : v.source = .p a) : NoCopies s' n := by
  intro j w found refers
  rw [strs, List.getElem?_set] at found
  split at found
  · split at found
    · cases found
      rw [own] at refers
      cases refers
    · cases found
  · exact alone j w found refers

theorem NoCopies.push {s s' : State} {n : Nat} {v : PoneString} (alone : NoCopies s n)
    (strs : s'.strs = s.strs ++ [v]) (other : v.source ≠ .val n) : NoCopies s' n := by
  intro j w found
  rw [strs] at found
  by_cases inside : j < s.strs.length
  · rw [List.getElem?_append_left inside] at found
    exact alone j w found
  · rw [List.getElem?_append_right (by omega), List.getElem?_singleton] at found
    split at found
    · cases found
      exact other
    · cases found

theorem NoCopies.mutable {s s' : State} {n i : Nat} (alone : NoCopies s n)
    (done : mutable s i = .ok (some s')) : NoCopies s' n := by
  unfold Str.mutable at done
  cases found : s.strs[i]? with
  | none =>
      rw [found] at done
      cases done
  | some v =>
      obtain ⟨isConst, source, len⟩ := v
      rw [found] at done
      cases source with
      | p a =>
          cases isConst with
          | true => cases done
          | false =>
              cases done
              exact alone
      | val source =>
          cases shown : content s source with
          | none =>
              simp [shown, orHalt, bind, Except.bind] at done
          | some bytes =>
              simp only [shown, orHalt, bind, Except.bind, pure, Except.pure, Except.ok.injEq,
                Option.some.injEq] at done
              subst done
              exact alone.set rfl rfl

theorem NoCopies.appendMutable {s s' : State} {n i sLen : Nat} {moved : Bool} {p : CharPtr}
    (alone : NoCopies s n) (done : appendMutable moved s i p sLen = .ok s') : NoCopies s' n := by
  unfold Str.appendMutable at done
  cases found : s.strs[i]? with
  | none =>
      rw [found] at done
      cases done
  | some v =>
      obtain ⟨isConst, source, len⟩ := v
      rw [found] at done
      cases source with
      | val source => cases done
      | p a =>
          simp only at done
          split at done
          · cases grown : realloc moved s a (len + sLen) with
            | none => simp [grown, orHalt, bind, Except.bind] at done
            | some result =>
                obtain ⟨s₁, a'⟩ := result
                have strs : s₁.strs = s.strs := by
                  unfold realloc at grown
                  split at grown
                  · cases grown
                  · split at grown <;> cases grown <;> rfl
                simp only [grown, orHalt, bind, Except.bind] at done
                cases read : p.read s₁.mem sLen with
                | none => simp [read] at done
                | some bytes =>
                    cases in_mem : s₁.mem a' with
                    | none => simp [read, in_mem] at done
                    | some block =>
                        simp only [read, in_mem, pure, Except.pure, Except.ok.injEq] at done
                        subst done
                        exact alone.set (congrArg (List.set · i _) strs) rfl
          · cases done
            exact alone

/-- An append makes no copies. -/
theorem NoCopies.strAppendC {s s' : State} {n i sLen : Nat} {moved : Bool} {p : CharPtr}
    {answer : Answer} (alone : NoCopies s n)
    (done : strAppendC moved s i p sLen = .ok (s', answer)) : NoCopies s' n := by
  unfold Str.strAppendC at done
  cases writes : Str.mutable s i with
  | error halt => simp [writes, bind, Except.bind] at done
  | ok result =>
      cases result with
      | none =>
          simp only [writes, bind, Except.bind, pure, Except.pure] at done
          cases done
          exact alone
      | some s₁ =>
          cases appended : Str.appendMutable moved s₁ i p sLen with
          | error halt => simp [writes, appended, bind, Except.bind] at done
          | ok s₂ =>
              simp only [writes, appended, bind, Except.bind, pure, Except.pure] at done
              cases done
              exact (alone.mutable writes).appendMutable appended

theorem NoCopies.strAppend {s s' : State} {n i w : Nat} {moved : Bool} {answer : Answer}
    (alone : NoCopies s n) (done : strAppend moved s i w = .ok (s', answer)) : NoCopies s' n := by
  unfold Str.strAppend at done
  cases ptr : strPtrLen s.strs (w + 1) w with
  | none => simp [ptr, orHalt, bind, Except.bind] at done
  | some found =>
      simp only [ptr, orHalt, bind, Except.bind] at done
      exact alone.strAppendC done

/-- The strings that a value is made of exist. -/
def Form.InScope (count : Nat) : Form → Prop
  | .copyOf string | .stored string => string < count
  | .made _ _ => True

/-- The string form of a value. -/
def formText (s : State) : Form → List UInt8
  | .copyOf string | .stored string => (content s string).getD []
  | .made _ text => text

/-- The string form over values of strings. -/
def Form.text (texts : List Text) : Form → List UInt8
  | .copyOf string | .stored string => bytesAt texts string
  | .made _ text => text

/-- Whether the string that the value gives is a constant. -/
def Form.isConst (texts : List Text) : Form → Bool
  | .copyOf _ => false
  | .stored string => constAt texts string
  | .made isConst _ => isConst

/-- The strings of the beginning show what they did. -/
structure Keeps (base : List Text) (s : State) : Prop where
  sane : Sane s
  shows : ∃ extra, Shows s (base ++ extra)

/-- A string behind those of the beginning that may be written and that nobody else has. -/
structure Temp (base : List Text) (s : State) (n : Nat) (bytes : List UInt8) : Prop where
  sane : Sane s
  shows : ∃ extra, Shows s (base ++ extra) ∧ (base ++ extra)[n]? = some { isConst := false, bytes }
  later : base.length ≤ n
  alone : NoCopies s n

theorem bytesAt_append {base extra : List Text} {i : Nat} (inside : i < base.length) :
    bytesAt (base ++ extra) i = bytesAt base i := by
  rw [bytesAt, bytesAt, List.getElem?_append_left inside]

theorem Form.text_append {base extra : List Text} {form : Form}
    (scope : form.InScope base.length) : form.text (base ++ extra) = form.text base := by
  cases form with
  | copyOf string => exact bytesAt_append scope
  | stored string => exact bytesAt_append scope
  | made isConst text => rfl

theorem Form.isConst_append {base extra : List Text} {form : Form}
    (scope : form.InScope base.length) : form.isConst (base ++ extra) = form.isConst base := by
  cases form with
  | copyOf string => rfl
  | stored string => rw [Form.isConst, Form.isConst, constAt, constAt, List.getElem?_append_left scope]
  | made isConst text => rfl

theorem Form.InScope.mono {form : Form} {m n : Nat} (scope : form.InScope m) (le : m ≤ n) :
    form.InScope n := by
  cases form with
  | copyOf string => exact Nat.lt_of_lt_of_le scope le
  | stored string => exact Nat.lt_of_lt_of_le scope le
  | made isConst text => trivial

theorem Shows.formText {s : State} {texts : List Text} (shows : Shows s texts) {form : Form}
    (scope : form.InScope texts.length) : formText s form = form.text texts := by
  cases form with
  | copyOf string => simp [Str.formText, Form.text, content_bytesAt shows scope]
  | stored string => simp [Str.formText, Form.text, content_bytesAt shows scope]
  | made isConst text => rfl

theorem Keeps.formText {base : List Text} {s : State} (keeps : Keeps base s) {form : Form}
    (scope : form.InScope base.length) : formText s form = form.text base := by
  obtain ⟨extra, shows⟩ := keeps.shows
  rw [shows.formText (scope.mono (by simp)), Form.text_append scope]

namespace Temp

variable {base : List Text} {s s' : State} {n : Nat} {bytes p : List UInt8}

theorem keeps (temp : Temp base s n bytes) : Keeps base s where
  sane := temp.sane
  shows := temp.shows.imp fun _ => And.left

/-- A new string behind the others. -/
theorem new {texts : List Text} (sane : Sane s) (longer : base <+: texts)
    (shows : Shows s (texts ++ [{ isConst := false, bytes }])) :
    Temp base s texts.length bytes := by
  obtain ⟨extra, rfl⟩ := longer
  refine ⟨sane, ⟨extra ++ [{ isConst := false, bytes }], ?_, ?_⟩, by simp, ?_⟩
  · rwa [← List.append_assoc]
  · rw [← List.append_assoc, List.getElem?_append_right (Nat.le_refl _), Nat.sub_self]
    rfl
  · apply sane.noCopies_last
    rw [shows.length_eq]
    simp [Nat.add_assoc]

/-- An append to the string that agrees with the one to the value. -/
theorem of_agrees {extra : List Text} {outcome : Except Halt (State × Answer)}
    (later : base.length ≤ n)
    (found : (base ++ extra)[n]? = some { isConst := false, bytes })
    (agrees : Agrees Shows (specAppend (base ++ extra) n p) outcome)
    (sane : ∀ s' answer, outcome = .ok (s', answer) → Sane s')
    (alone : ∀ s' answer, outcome = .ok (s', answer) → NoCopies s' n) :
    ∃ s', outcome = .ok (s', .done) ∧ Temp base s' n (bytes ++ p) := by
  have spec : specAppend (base ++ extra) n p = (base ++ extra.set (n - base.length)
      { isConst := false, bytes := bytes ++ p }, .done) := by
    simp [specAppend, constAt_eq found, bytesAt_eq found, setBytes,
      List.set_append_right _ _ later]
  rw [spec] at agrees
  obtain ⟨s', rfl, shows'⟩ := agrees
  refine ⟨s', rfl, sane s' _ rfl, ⟨_, shows', ?_⟩, later, alone s' _ rfl⟩
  rw [List.getElem?_append_right later] at found ⊢
  rw [List.getElem?_set_self (List.getElem?_eq_some_iff.mp found).1]

theorem appendC (temp : Temp base s n bytes) (moved : Bool) (p : List UInt8) :
    ∃ s', strAppendC moved s n (.outside p) p.length = .ok (s', .done) ∧
      Temp base s' n (bytes ++ p) := by
  obtain ⟨extra, shows, found⟩ := temp.shows
  obtain ⟨agrees, leaves⟩ := strAppendC_iff shows temp.sane
    (List.getElem?_eq_some_iff.mp found).1 p moved
  exact of_agrees temp.later found (agrees.mpr (.inr (.inr temp.alone))) leaves
    fun _ _ done => temp.alone.strAppendC done

/-- Another string is appended. -/
theorem append (temp : Temp base s n bytes) {extra : List Text} (shows : Shows s (base ++ extra))
    (found : (base ++ extra)[n]? = some { isConst := false, bytes }) (moved : Bool) {w : Nat}
    (inside : w < (base ++ extra).length) (other : n ≠ w) :
    ∃ s', strAppend moved s n w = .ok (s', .done) ∧
      Temp base s' n (bytes ++ bytesAt (base ++ extra) w) := by
  obtain ⟨agrees, leaves⟩ := strAppend_iff shows temp.sane
    (List.getElem?_eq_some_iff.mp found).1 inside moved
  refine of_agrees temp.later found
    (agrees.mpr (.inr (.inr ⟨temp.alone, fun same => absurd same other⟩))) leaves
    fun _ _ done => temp.alone.strAppend done

theorem appendAll (temp : Temp base s n bytes) (moves : Moves) (texts : List (List UInt8)) :
    ∃ s', appendAll moves s n texts = .ok (s', .done) ∧
      Temp base s' n (bytes ++ texts.flatten) := by
  induction texts generalizing s bytes with
  | nil => exact ⟨s, rfl, by simpa using temp⟩
  | cons p rest ih =>
      obtain ⟨s₁, done, temp₁⟩ := temp.appendC (moves s) p
      obtain ⟨s₂, done', temp₂⟩ := ih temp₁
      refine ⟨s₂, ?_, by simpa using temp₂⟩
      rw [Str.appendAll, done]
      exact done'

end Temp

/-- What the value gives is new and may be written. -/
def Form.Fresh : Form → Prop
  | .copyOf _ => True
  | .stored _ => False
  | .made isConst _ => isConst = false

theorem Keeps.stringify {base : List Text} {s : State} (keeps : Keeps base s) {form : Form}
    (scope : form.InScope base.length) (fresh : form.Fresh) :
    ∃ s' n, stringify s form = (s', n) ∧ Temp base s' n (form.text base) := by
  obtain ⟨extra, shows⟩ := keeps.shows
  cases form with
  | copyOf string =>
      obtain ⟨sane', shows'⟩ := shows.copy keeps.sane
        (Nat.lt_of_lt_of_le scope (by simp))
      rw [bytesAt_append scope] at shows'
      exact ⟨_, _, rfl, shows.length_eq ▸ Temp.new sane' (List.prefix_append ..) shows'⟩
  | stored string => exact fresh.elim
  | made isConst text =>
      cases fresh
      obtain ⟨sane', shows'⟩ := shows.new keeps.sane false (text ++ [0]) text.length (by simp)
      rw [List.take_left] at shows'
      exact ⟨_, _, rfl, shows.length_eq ▸ Temp.new sane' (List.prefix_append ..) shows'⟩

theorem getElem?_eq_stored {texts : List Text} {string : Nat}
    (scope : (Form.stored string).InScope texts.length) :
    texts[string]? = some { isConst := (Form.stored string).isConst texts
                            bytes := (Form.stored string).text texts } := by
  have found : texts[string]? = some (texts.get ⟨string, scope⟩) := List.getElem?_eq_getElem scope
  rw [Form.isConst, Form.text, constAt_eq found, bytesAt_eq found]
  exact found

/-- Any value gives a string with its string form, possibly behind all others. -/
theorem Shows.stringify {s : State} {texts : List Text} (shows : Shows s texts) (sane : Sane s)
    {form : Form} (scope : form.InScope texts.length) :
    ∃ s' n extra, stringify s form = (s', n) ∧ Sane s' ∧ Shows s' (texts ++ extra) ∧
      (texts ++ extra)[n]? =
        some { isConst := form.isConst texts, bytes := form.text texts } := by
  have last (t : Text) : (texts ++ [t])[s.strs.length]? = some t := by
    simp [shows.length_eq]
  cases form with
  | copyOf string =>
      obtain ⟨sane', shows'⟩ := shows.copy sane scope
      exact ⟨_, _, _, rfl, sane', shows', last _⟩
  | stored string =>
      refine ⟨s, string, [], rfl, sane, ?_⟩
      rw [List.append_nil]
      exact ⟨shows, getElem?_eq_stored scope⟩
  | made isConst text =>
      obtain ⟨sane', shows'⟩ := shows.new sane isConst (text ++ [0]) text.length (by simp)
      rw [List.take_left] at shows'
      exact ⟨_, _, _, rfl, sane', shows', last _⟩

theorem Shows.text_eq {s : State} {texts : List Text} (shows : Shows s texts) {i : Nat}
    {isConst : Bool} {bytes : List UInt8} (shown : content s i = some bytes)
    (const : (s.strs.map PoneString.isConst)[i]? = some isConst) :
    texts[i]? = some { isConst, bytes := bytes } := by
  rw [shows.bytes] at shown
  rw [shows.consts, List.getElem?_map] at const
  cases found : texts[i]? with
  | none =>
      rw [found] at shown
      cases shown
  | some t =>
      rw [found] at shown const
      cases shown
      cases const
      rfl

/-- Bytes from outside appended to a string, whoever else has it. -/
theorem Shows.appendC_own {s : State} {texts : List Text} (shows : Shows s texts) (sane : Sane s)
    {i : Nat} {bytes : List UInt8} (found : texts[i]? = some { isConst := false, bytes })
    (moved : Bool) (p : List UInt8) :
    ∃ s' texts', strAppendC moved s i (.outside p) p.length = .ok (s', .done) ∧ Sane s' ∧
      Shows s' texts' ∧ texts'.length = texts.length ∧
      texts'[i]? = some { isConst := false, bytes := bytes ++ p } := by
  have inside := (List.getElem?_eq_some_iff.mp found).1
  obtain ⟨v, t, found_v, found_t, const, shown⟩ := shows.get sane inside
  rw [found] at found_t
  cases found_t
  obtain ⟨s', done, sane', cells_eq, consts⟩ := strAppendC_spec sane p found_v const shown moved
    (.outside p) (fun _ _ _ _ _ _ _ _ _ _ => by simp [CharPtr.read])
  obtain ⟨texts', shows'⟩ := sane'.shows
  have count : s'.strs.length = s.strs.length := by simpa using congrArg List.length consts
  refine ⟨s', texts', done, sane', shows', ?_, shows'.text_eq ?_ ?_⟩
  · rw [← shows'.length_eq, count, shows.length_eq]
  · rw [sane'.content_eq, cells_eq]
    apply Cow.value_of_own
    rw [List.getElem?_set_self]
    rwa [length_cells, shows.length_eq]
  · rw [consts, shows.consts, List.getElem?_map, found]
    rfl

theorem Shows.appendAll_own {s : State} {texts : List Text} (shows : Shows s texts) (sane : Sane s)
    {i : Nat} {bytes : List UInt8} (found : texts[i]? = some { isConst := false, bytes })
    (moves : Moves) (parts : List (List UInt8)) :
    ∃ s' texts', appendAll moves s i parts = .ok (s', .done) ∧ Sane s' ∧ Shows s' texts' ∧
      texts'[i]? = some { isConst := false, bytes := bytes ++ parts.flatten } := by
  induction parts generalizing s texts bytes with
  | nil => exact ⟨s, texts, rfl, sane, shows, by simpa using found⟩
  | cons p rest ih =>
      obtain ⟨s₁, texts₁, done, sane₁, shows₁, -, found₁⟩ := shows.appendC_own sane found (moves s) p
      obtain ⟨s₂, texts₂, done', sane₂, shows₂, found₂⟩ := ih shows₁ sane₁ found₁
      refine ⟨s₂, texts₂, ?_, sane₂, shows₂, by simpa using found₂⟩
      rw [appendAll, done]
      exact done'

/-- What stands behind a string after an append, whoever else has it. -/
theorem Shows.appendForm_own {s s' : State} {texts : List Text} (shows : Shows s texts)
    (sane : Sane s) {i : Nat} {bytes : List UInt8}
    (found : texts[i]? = some { isConst := false, bytes }) {moves : Moves} {form : Form}
    (scope : form.InScope texts.length) {answer : Answer}
    (done : Str.appendForm moves s i form = .ok (s', answer)) :
    ∃ p, content s' i = some (bytes ++ p) := by
  obtain ⟨s₁, w, extra, given, sane₁, shows₁, found_w⟩ := shows.stringify sane scope
  have inside := (List.getElem?_eq_some_iff.mp found).1
  have inside_w := (List.getElem?_eq_some_iff.mp found_w).1
  have found₁ : (texts ++ extra)[i]? = some { isConst := false, bytes } := by
    rw [List.getElem?_append_left inside, found]
  obtain ⟨v, t, found_v, found_t, const, shown⟩ :=
    shows₁.get sane₁ (List.getElem?_eq_some_iff.mp found₁).1
  obtain ⟨-, t', -, -, -, shown_w⟩ := shows₁.get sane₁ inside_w
  rw [found₁] at found_t
  cases found_t
  simp only [Str.appendForm, given] at done
  rcases strAppend_writable sane₁ found_v const shown shown_w (moves s₁) with
    ⟨s₂, appended, sane₂, cells_eq, -⟩ | ⟨wild, -⟩
  · rw [appended] at done
    cases done
    refine ⟨t'.bytes, ?_⟩
    rw [sane₂.content_eq, cells_eq]
    apply Cow.value_of_own
    rw [List.getElem?_set_self]
    rw [length_cells]
    exact (List.getElem?_eq_some_iff.mp found_v).1
  · rw [wild] at done
    cases done

theorem Keeps.printf {base : List Text} {s : State} (keeps : Keeps base s) (text : List UInt8) :
    Temp base (strNewVprintf s text) s.strs.length text := by
  have scope : (Form.made false text).InScope base.length := trivial
  obtain ⟨s', n, printed, temp⟩ := keeps.stringify scope rfl
  cases printed
  exact temp

/-- The string form of any value may be appended to a string that nobody else has. -/
theorem Temp.appendForm {base : List Text} {s : State} {n : Nat} {bytes : List UInt8}
    (temp : Temp base s n bytes) (moves : Moves) {form : Form}
    (scope : form.InScope base.length) :
    ∃ s', appendForm moves s n form = .ok (s', .done) ∧
      Temp base s' n (bytes ++ form.text base) := by
  obtain ⟨extra, shows, found⟩ := temp.shows
  have inside := (List.getElem?_eq_some_iff.mp found).1
  have appendNew (s₁ : State) (t : Text) (sane₁ : Sane s₁)
      (shows₁ : Shows s₁ (base ++ (extra ++ [t]))) (alone : NoCopies s₁ n) :
      ∃ s', strAppend (moves s₁) s₁ n s.strs.length = .ok (s', .done) ∧
        Temp base s' n (bytes ++ t.bytes) := by
    have found₁ : (base ++ (extra ++ [t]))[n]? = some { isConst := false, bytes } := by
      rw [← List.append_assoc, List.getElem?_append_left inside, found]
    have last : (base ++ (extra ++ [t]))[s.strs.length]? = some t := by
      rw [← List.append_assoc, shows.length_eq, List.getElem?_append_right (Nat.le_refl _),
        Nat.sub_self]
      rfl
    have temp₁ : Temp base s₁ n bytes := ⟨sane₁, ⟨_, shows₁, found₁⟩, temp.later, alone⟩
    rw [← bytesAt_eq last]
    apply temp₁.append shows₁ found₁ _ (List.getElem?_eq_some_iff.mp last).1
    rw [shows.length_eq]
    exact Nat.ne_of_lt inside
  cases form with
  | copyOf string =>
      have scope' : string < (base ++ extra).length := Nat.lt_of_lt_of_le scope (by simp)
      obtain ⟨sane', shows'⟩ := shows.copy temp.sane scope'
      rw [bytesAt_append scope, List.append_assoc] at shows'
      refine appendNew _ _ sane' shows' (temp.alone.push rfl ?_)
      intro same
      cases same
      exact absurd temp.later (Nat.not_le.mpr scope)
  | stored string =>
      have scope' : string < (base ++ extra).length := Nat.lt_of_lt_of_le scope (by simp)
      have same : bytesAt (base ++ extra) string = bytesAt base string := bytesAt_append scope
      rw [Form.text, ← same]
      exact temp.append shows found _ scope' (Nat.ne_of_gt (Nat.lt_of_lt_of_le scope temp.later))
  | made isConst text =>
      obtain ⟨sane', shows'⟩ := shows.new temp.sane isConst (text ++ [0]) text.length (by simp)
      rw [List.take_left, List.append_assoc] at shows'
      exact appendNew _ _ sane' shows' (temp.alone.push rfl nofun)

theorem cText_append_nul {bytes : List UInt8} (no_nul : 0 ∉ bytes) : cText (bytes ++ [0]) = bytes := by
  rw [cText, List.takeWhile_append_of_pos]
  · simp
  · intro b found
    simp only [decide_eq_true_eq]
    rintro rfl
    exact no_nul found

theorem Shows.last {s : State} {texts : List Text} {t : Text} (shows : Shows s (texts ++ [t])) :
    content s (s.strs.length - 1) = some t.bytes := by
  rw [shows.bytes, shows.length_eq]
  simp

/-- The C string of a string without a NUL. -/
theorem Shows.strCStr {s : State} {texts : List Text} (shows : Shows s texts) (sane : Sane s)
    {n : Nat} {t : Text} (found : texts[n]? = some t) (no_nul : 0 ∉ t.bytes) :
    ∃ s' extra, strCStr s n = .ok (s', some t.bytes) ∧ Sane s' ∧ Shows s' (texts ++ extra) := by
  have shown : content s n = some t.bytes := by
    rw [shows.bytes, found]
    rfl
  -- the terminating NUL is a string of its own, which is then appended
  obtain ⟨sane₁, shows₁⟩ := shows.new sane false ([0] ++ [0]) 1 (by simp)
  let s₁ := s.add false ([0] ++ [0]) 1
  have shown₁ : content s₁ n = some t.bytes := by
    rw [shows₁.bytes, List.getElem?_append_left (List.getElem?_eq_some_iff.mp found).1, found]
    rfl
  have nul : content s₁ (s₁.strs.length - 1) = some [0] := shows₁.last
  obtain ⟨sane₂, shows₂⟩ := shows₁.new sane₁ false (t.bytes ++ [0]) (t.bytes.length + 1) (by simp)
  let s₂ := s₁.add false (t.bytes ++ [0]) (t.bytes.length + 1)
  have joined : content s₂ (s₂.strs.length - 1) = some (t.bytes ++ [0]) := by
    rw [shows₂.last]
    exact congrArg some (List.take_of_length_le (by simp))
  rw [List.append_assoc] at shows₂
  refine ⟨s₂, _, ?_, sane₂, shows₂⟩
  have clean : (0 : UInt8) ∉ t.bytes.dropLast :=
    fun found => no_nul (List.dropLast_subset _ found)
  have concat : strConcat s₁ n (s₁.strs.length - 1) = .ok s₂ := by
    rw [strConcat, shown₁, nul]
    rfl
  have concat' : strConcat (strNewStrdup s [0]) n ((strNewStrdup s [0]).strs.length - 1) = .ok s₂ :=
    concat
  rw [Str.strCStr, shown]
  simp only [orHalt, bind, Except.bind]
  rw [if_neg clean]
  simp only [concat', joined, pure, Except.pure, cText_append_nul no_nul]

theorem Shows.strCStr_nul {s : State} {texts : List Text} (shows : Shows s texts) {n : Nat}
    {t : Text} (found : texts[n]? = some t) (nul : 0 ∈ t.bytes.dropLast) :
    Str.strCStr s n = .ok (s, none) := by
  have shown : content s n = some t.bytes := by
    rw [shows.bytes, found]
    rfl
  rw [Str.strCStr, shown]
  simp only [orHalt, bind, Except.bind]
  rw [if_pos nul]
  rfl

theorem Temp.strCStr {base : List Text} {s : State} {n : Nat} {bytes : List UInt8}
    (temp : Temp base s n bytes) (no_nul : 0 ∉ bytes) :
    ∃ s', strCStr s n = .ok (s', some bytes) ∧ Keeps base s' := by
  obtain ⟨extra, shows, found⟩ := temp.shows
  obtain ⟨s', extra', taken, sane', shows'⟩ := shows.strCStr temp.sane found no_nul
  rw [List.append_assoc] at shows'
  exact ⟨s', taken, sane', _, shows'⟩

end Str
end Pone
