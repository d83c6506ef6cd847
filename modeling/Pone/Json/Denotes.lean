import Mathlib.Data.List.Forall2
import Pone.Json.Stringify
import Pone.Map.Refine

/-!
# What the text of `json.stringify` denotes

A text is written for every value without a foreign one, and a reader of JSON gets a value of the same
shape.  Each string in it is the one that was written, or a heavier one, which tells the two values
apart even though the entries of an object have no order.
-/

open Binary64 (Double nearest)

namespace Pone
namespace Json

open JsonText (Reads Ascii intercalate_cons)
open Str (ascii)

variable {onig : Onigmo}

/-! ## What a value denotes -/

mutual

/-- The text denotes the value: the same number, or the one nearest to it, the same code points, the
same elements, and the same entries in any order. -/
inductive Decoded : Value → JsonText.Json → Prop
  | nil : Decoded .nil .null
  | int {i : Int} {fits : CLong.Fits i} {negative : Bool} {magnitude : ℚ}
      (same : (if negative then -magnitude else magnitude) = i) :
      Decoded (.int i fits) (.number negative magnitude)
  | num {negative : Bool} {n : Double} {magnitude : ℚ} (nonneg : 0 ≤ magnitude)
      (nearest_one : nearest magnitude nonneg = some n) :
      Decoded (.num (.finite negative n)) (.number negative magnitude)
  | bool (b : Bool) : Decoded (.bool b) (.bool b)
  | string (chars : List Char) :
      Decoded (.string (utf8Bytes chars) true) (.string (chars.map Char.toNat))
  | array {elems : List Value} {js : List JsonText.Json} (each : List.Forall₂ Decoded elems js) :
      Decoded (.array elems) (.array js)
  | map {entries : List (Value × Value)} {len : Nat} {members members' : List (List ℕ × JsonText.Json)}
      (order : members.Perm members') (each : List.Forall₂ DecodedEntry entries members') :
      Decoded (.map entries len) (.object members)

inductive DecodedEntry : Value × Value → List ℕ × JsonText.Json → Prop
  | mk {k x : Value} {points : List ℕ} {j : JsonText.Json} (key : Decoded k (.string points))
      (entry : Decoded x j) : DecodedEntry (k, x) (points, j)

end

namespace Value

/-- A value and what stands in it, at any depth. -/
inductive Contains : Value → Value → Prop
  | self (v : Value) : Contains v v
  | elem {elems : List Value} {e p : Value} (among : e ∈ elems) (inside : Contains e p) :
      Contains (.array elems) p
  | key {entries : List (Value × Value)} {len : Nat} {e : Value × Value} {p : Value}
      (among : e ∈ entries) (inside : Contains e.1 p) : Contains (.map entries len) p
  | entry {entries : List (Value × Value)} {len : Nat} {e : Value × Value} {p : Value}
      (among : e ∈ entries) (inside : Contains e.2 p) : Contains (.map entries len) p

def All (P : Value → Prop) (v : Value) : Prop := ∀ p, v.Contains p → P p

def IsString : Value → Prop
  | .string _ _ => True
  | _ => False

/-- A finite number, a string in UTF-8, and a map whose keys are strings and whose `len` is zero only
without entries; of other values nothing is asked. -/
def Sound : Value → Prop
  | .num (.finite _ _) => True
  | .num _ => False
  | .string bytes true => ∃ chars, bytes = utf8Bytes chars
  | .map entries len => (0 < len ↔ entries ≠ []) ∧ ∀ e ∈ entries, e.1.IsString
  | _ => True

/-- `Bytes`, code, an object or an opaque value. -/
def Foreign : Value → Prop
  | .string _ false => True
  | .code => True
  | .obj => True
  | .lex => True
  | .opaqueObj => True
  | _ => False

/-- An integer of which `pone_str_from_int` does not cut off the last digit. -/
def Complete : Value → Prop
  | .int i _ => -10 ^ 18 < i
  | _ => True

/-- A string all of whose characters come back. -/
def Readable : Value → Prop
  | .string bytes true => ∀ chars, bytes = utf8Bytes chars → ∀ c ∈ chars, Survives c
  | _ => True

variable {P : Value → Prop}

theorem all_array {elems : List Value} :
    (Value.array elems).All P ↔ P (.array elems) ∧ ∀ e ∈ elems, e.All P := by
  constructor
  · exact fun all => ⟨all _ (.self _), fun e among p inside => all p (.elem among inside)⟩
  · rintro ⟨own, each⟩ p inside
    cases inside with
    | self => exact own
    | elem among inside => exact each _ among p inside

theorem all_map {entries : List (Value × Value)} {len : Nat} :
    (Value.map entries len).All P ↔
      P (.map entries len) ∧ ∀ e ∈ entries, e.1.All P ∧ e.2.All P := by
  constructor
  · exact fun all => ⟨all _ (.self _), fun e among =>
      ⟨fun p inside => all p (.key among inside), fun p inside => all p (.entry among inside)⟩⟩
  · rintro ⟨own, each⟩ p inside
    cases inside with
    | self => exact own
    | key among inside => exact (each _ among).1 p inside
    | entry among inside => exact (each _ among).2 p inside

/-- A map that has been made by assignments, as `stringify` finds it. -/
theorem sound_of_assigned {τ : Type} {vals : Map.Vals Value}
    (strings : ∀ v, (vals.str v).isSome → v.IsString) {table : HashTable τ vals.bytes Value}
    {pairs : List (Value × Value)} {body : Map.HashBody τ}
    (assigned : Map.mapAssignKeys vals table (Map.mapNew vals table) pairs = .ok body) :
    (Value.map (table.entries body.h) body.len.toNat).Sound := by
  obtain ⟨nonneg, counted⟩ := Map.mapAssignKeys_sized assigned
  refine ⟨Int.lt_toNat.trans counted, fun e among => strings _ ?_⟩
  have hashes := (Map.mapAssignKeys_spec assigned).1
  obtain ⟨body', assigned', -, reads⟩ :=
    Map.mapAssignKeys_reads (Map.mapNew vals table) (HashTable.Reads.init table) hashes
  cases assigned.symm.trans assigned'
  have same : Map.pairs [.assignKeys pairs] = pairs := by simp [Map.pairs]
  have reads' : table.Reads body.h (Map.finiteMap vals [.assignKeys pairs]) := by
    rwa [Map.finiteMap, same]
  obtain ⟨s, found⟩ := Map.str_of_mem_entries reads' (by rwa [same]) among
  exact Option.isSome_iff_exists.mpr ⟨s, found⟩

/-- Neither an array nor a map. -/
def Leaf : Value → Prop
  | .array _ => False
  | .map _ _ => False
  | _ => True

theorem all_leaf {v : Value} (leaf : v.Leaf) : v.All P ↔ P v := by
  refine ⟨fun all => all v (.self v), fun own p inside => ?_⟩
  cases inside with
  | self => exact own
  | elem => exact leaf.elim
  | key => exact leaf.elim
  | entry => exact leaf.elim

/-- A fact about values, by the facts about what stands in them. -/
theorem induction {motive : Value → Prop} (leaf : ∀ v : Value, v.Leaf → motive v)
    (array : ∀ elems, (∀ e ∈ elems, motive e) → motive (.array elems))
    (map : ∀ entries len, (∀ e ∈ entries, motive e.1 ∧ motive e.2) → motive (.map entries len))
    (v : Value) : motive v :=
  @Value.rec motive (fun elems => ∀ e ∈ elems, motive e)
    (fun entries => ∀ e ∈ entries, motive e.1 ∧ motive e.2) (fun e => motive e.1 ∧ motive e.2)
    (leaf _ trivial) (fun _ _ => leaf _ trivial) (fun _ => leaf _ trivial)
    (fun _ _ => leaf _ trivial) array (fun _ => leaf _ trivial) map (leaf _ trivial)
    (leaf _ trivial) (leaf _ trivial) (leaf _ trivial) nofun
    (fun _ _ one others => List.forall_mem_cons.mpr ⟨one, others⟩) nofun
    (fun _ _ one others => List.forall_mem_cons.mpr ⟨one, others⟩) (fun _ _ => And.intro) v

end Value

/-! ## The weight of what is read -/

mutual

/-- The weight of all the strings. -/
def weight : JsonText.Json → Nat
  | .string points => pointsWeight points
  | .array elems => weightElems elems
  | .object members => weightMembers members
  | _ => 0

def weightElems : List JsonText.Json → Nat
  | [] => 0
  | j :: js => weight j + weightElems js

def weightMembers : List (List Nat × JsonText.Json) → Nat
  | [] => 0
  | (key, j) :: members => pointsWeight key + weight j + weightMembers members

end

def memberWeight (m : List Nat × JsonText.Json) : Nat := pointsWeight m.1 + weight m.2

theorem weightElems_eq (js : List JsonText.Json) : weightElems js = (js.map weight).sum := by
  induction js with
  | nil => rfl
  | cons j js ih => rw [weightElems, ih, List.map_cons, List.sum_cons]

theorem weightMembers_eq (members : List (List Nat × JsonText.Json)) :
    weightMembers members = (members.map memberWeight).sum := by
  induction members with
  | nil => rfl
  | cons m members ih => rw [weightMembers, ih, List.map_cons, List.sum_cons, memberWeight]

/-! ## What is written -/

/-- A text, what it denotes, and what it should denote: the reader gets the former, unless a NUL
stands in the text, and it is heavier than the latter, unless it is the same. -/
structure Written {α : Type} (item : Nat → JsonText.Parser α) (weight : α → Nat)
    (denotes : α → Prop) (complete readable : Prop) (text : List UInt8) (image original : α) :
    Prop where
  ascii : Ascii text
  reads : complete → ∀ depth, text.length ≤ depth + 1 → Reads (item (depth + 1)) text image
  cut : ¬ complete → 0 ∈ text
  meant : denotes original
  same : readable → image = original
  lighter : weight original ≤ weight image
  heavier : ¬ readable → weight original < weight image
  weighed : ∀ x, denotes x → weight x = weight original

section Lists

variable {A α : Type} (item : Nat → JsonText.Parser α) (weight : α → Nat) (denotes : A → α → Prop)
  (complete readable : A → Prop)

/-- The same of all the items of a list. -/
structure WrittenAll (as : List A) (texts : List (List UInt8)) (images originals : List α) :
    Prop where
  ascii : ∀ text ∈ texts, Ascii text
  reads : (∀ a ∈ as, complete a) → ∀ depth, (∀ text ∈ texts, text.length ≤ depth + 1) →
    List.Forall₂ (Reads (item (depth + 1))) texts images
  cut : ¬ (∀ a ∈ as, complete a) → ∃ text ∈ texts, 0 ∈ text
  meant : List.Forall₂ denotes as originals
  same : (∀ a ∈ as, readable a) → images = originals
  lighter : (originals.map weight).sum ≤ (images.map weight).sum
  heavier : ¬ (∀ a ∈ as, readable a) → (originals.map weight).sum < (images.map weight).sum
  weighed : ∀ xs, List.Forall₂ denotes as xs → (xs.map weight).sum = (originals.map weight).sum

variable {item weight denotes complete readable}

theorem WrittenAll.nil : WrittenAll item weight denotes complete readable [] [] [] [] where
  ascii := nofun
  reads := fun _ _ _ => .nil
  cut := fun short => (short nofun).elim
  meant := .nil
  same := fun _ => rfl
  lighter := le_rfl
  heavier := fun changed => (changed nofun).elim
  weighed := by
    rintro xs ⟨⟩
    rfl

theorem WrittenAll.cons {a : A} {as : List A} {text : List UInt8} {texts : List (List UInt8)}
    {image original : α} {images originals : List α}
    (first : Written item weight (denotes a) (complete a) (readable a) text image original)
    (others : WrittenAll item weight denotes complete readable as texts images originals) :
    WrittenAll item weight denotes complete readable (a :: as) (text :: texts) (image :: images)
      (original :: originals) where
  ascii := List.forall_mem_cons.mpr ⟨first.ascii, others.ascii⟩
  reads := by
    intro all depth short
    rw [List.forall_mem_cons] at all short
    exact .cons (first.reads all.1 depth short.1) (others.reads all.2 depth short.2)
  cut := by
    intro short
    rw [List.forall_mem_cons, not_and_or] at short
    rcases short with short | short
    · exact ⟨text, List.mem_cons_self, first.cut short⟩
    · obtain ⟨text', among, nul⟩ := others.cut short
      exact ⟨text', List.mem_cons_of_mem text among, nul⟩
  meant := .cons first.meant others.meant
  same := by
    intro all
    rw [List.forall_mem_cons] at all
    rw [first.same all.1, others.same all.2]
  lighter := by
    simp only [List.map_cons, List.sum_cons]
    exact Nat.add_le_add first.lighter others.lighter
  heavier := by
    intro changed
    rw [List.forall_mem_cons, not_and_or] at changed
    simp only [List.map_cons, List.sum_cons]
    rcases changed with changed | changed
    · exact Nat.add_lt_add_of_lt_of_le (first.heavier changed) others.lighter
    · exact Nat.add_lt_add_of_le_of_lt first.lighter (others.heavier changed)
  weighed := by
    rintro xs (_ | ⟨one, rest⟩)
    simp only [List.map_cons, List.sum_cons]
    rw [first.weighed _ one, others.weighed _ rest]

/-- The items of a list, each with its text. -/
theorem exists_writtenAll {write : A → List UInt8 → Prop} {as : List A}
    (each : ∀ a ∈ as, ∃ text image original, write a text ∧
      Written item weight (denotes a) (complete a) (readable a) text image original) :
    ∃ texts images originals, List.Forall₂ write as texts ∧
      WrittenAll item weight denotes complete readable as texts images originals := by
  induction as with
  | nil => exact ⟨[], [], [], .nil, .nil⟩
  | cons a as ih =>
      rw [List.forall_mem_cons] at each
      obtain ⟨⟨text, image, original, wrote, first⟩, rest⟩ := each
      obtain ⟨texts, images, originals, wrote', others⟩ := ih rest
      exact ⟨_, _, _, .cons wrote wrote', .cons first others⟩

end Lists

/-- `stringify` appends this text. -/
def Writes (onig : Onigmo) (v : Value) (text : List UInt8) : Prop :=
  ∀ buffer, stringify onig buffer v = .ok (buffer ++ text)

abbrev WrittenValue (v : Value) : List UInt8 → JsonText.Json → JsonText.Json → Prop :=
  Written JsonText.value weight (Decoded v) (v.All Value.Complete) (v.All Value.Readable)

/-- A value without strings. -/
theorem written_weightless {v : Value} {text : List UInt8} {j : JsonText.Json} (ascii : Ascii text)
    (reads : v.All Value.Complete → ∀ depth, Reads (JsonText.value (depth + 1)) text j)
    (cut : ¬ v.All Value.Complete → 0 ∈ text) (meant : Decoded v j) (readable : v.All Value.Readable)
    (none : ∀ x, Decoded v x → weight x = 0) : WrittenValue v text j j where
  ascii := ascii
  reads := fun complete depth _ => reads complete depth
  cut := cut
  meant := meant
  same := fun _ => rfl
  lighter := le_rfl
  heavier := fun changed => (changed readable).elim
  weighed := fun x other => (none x other).trans (none j meant).symm

/-- The words, signs and brackets that `stringify` appends. -/
theorem ascii_words : Ascii (ascii "null") ∧
    (∀ b : Bool, Ascii (if b then ascii "true" else ascii "false")) ∧
    (∀ negative : Bool, Ascii (if negative then [45] else [])) ∧ Ascii [93] ∧ Ascii [125] := by
  decide +kernel

theorem written_nil : WrittenValue .nil (ascii "null") .null .null := by
  refine written_weightless ascii_words.1 (fun _ => JsonText.reads_null) (fun short => ?_) .nil
    ((Value.all_leaf (by trivial)).mpr trivial) ?_
  · exact (short ((Value.all_leaf (by trivial)).mpr trivial)).elim
  · rintro x ⟨⟩
    rfl

theorem written_bool (b : Bool) :
    WrittenValue (.bool b) (if b then ascii "true" else ascii "false") (.bool b) (.bool b) := by
  refine written_weightless (ascii_words.2.1 b) (fun _ depth => ?_) (fun short => ?_) (.bool b)
    ((Value.all_leaf (by trivial)).mpr trivial) ?_
  · cases b with
    | false => exact JsonText.reads_false depth
    | true => exact JsonText.reads_true depth
  · exact (short ((Value.all_leaf (by trivial)).mpr trivial)).elim
  · rintro x ⟨⟩
    rfl

theorem ascii_sign (negative : Bool) : Ascii (if negative then [45] else []) :=
  ascii_words.2.2.1 negative

theorem ascii_append {front back : List UInt8} (one : Ascii front) (other : Ascii back) :
    Ascii (front ++ back) :=
  fun b among => (List.mem_append.mp among).elim (one b) (other b)

theorem intText_eq (i : Int) :
    Str.intText i = (if decide (i < 0) then [45] else []) ++ (wholeNotation i.natAbs).text := by
  rw [Str.intText, text_wholeNotation]
  simp only [decide_eq_true_eq]

theorem ascii_fromIntBytes (i : Int) : Ascii (Str.fromIntBytes i) := by
  have whole : Ascii (Str.intText i) := by
    rw [intText_eq, text_wholeNotation]
    exact ascii_append (ascii_sign _) (ascii_digits (Decimal.natText_digits _))
  intro b among
  rcases List.mem_append.mp (List.mem_of_mem_take among) with inner | nul
  · exact whole b (List.mem_of_mem_take inner)
  · rw [List.mem_singleton.mp nul]
    decide

theorem written_int (i : Int) (fits : CLong.Fits i) : ∃ j,
    WrittenValue (.int i fits) (Str.fromIntBytes i) j j := by
  have short : (Value.int i fits).All Value.Complete ↔ (Str.intText i).length ≤ 19 :=
    (Value.all_leaf (by trivial)).trans (Str.length_intText fits).2.symm
  refine ⟨.number (decide (i < 0)) (wholeNotation i.natAbs).value, ?_⟩
  refine written_weightless (ascii_fromIntBytes i) (fun complete depth => ?_) (fun long => ?_) (.int ?_)
    ((Value.all_leaf (by trivial)).mpr trivial) ?_
  · rw [Str.fromIntBytes_of_short (short.mp complete), intText_eq]
    exact JsonText.reads_number (wholeNotation_wellFormed _) _ depth
  · exact Str.nul_mem_fromIntBytes fits (short.not.mp long)
  · rw [value_wholeNotation]
    simp only [decide_eq_true_eq]
    split
    · rw [← Int.cast_natCast (R := ℚ), ← Int.cast_neg]
      exact congrArg _ (by omega)
    · rw [← Int.cast_natCast (R := ℚ)]
      exact congrArg _ (by omega)
  · rintro x ⟨⟩
    rfl

theorem ascii_text {n : Decimal.Notation} (wellFormed : n.WellFormed) : Ascii n.text := by
  refine ascii_append (ascii_append (ascii_digits wellFormed.whole_digits) ?_) ?_
  · unfold Decimal.Notation.pointText
    split
    · exact nofun
    · exact List.forall_mem_cons.mpr ⟨by decide, ascii_digits wellFormed.fraction_digits⟩
  · have digits := wellFormed.exponent_digits
    unfold Decimal.Notation.exponentText
    rcases found : n.exponent with _ | ⟨negative, ds⟩
    · exact nofun
    · refine List.forall_mem_cons.mpr ⟨by decide, List.forall_mem_cons.mpr ⟨?_, ?_⟩⟩
      · cases negative <;> decide
      · exact ascii_digits (digits _ found).2

theorem written_num (negative : Bool) (n : Double) : ∃ j,
    WrittenValue (.num (.finite negative n)) (fromNumBytes (.finite negative n)) j j := by
  obtain ⟨shown, text, wellFormed, nearest_one⟩ := exists_numText negative n
  refine ⟨.number negative shown.value, ?_⟩
  rw [text]
  refine written_weightless (ascii_append (ascii_sign negative) (ascii_text wellFormed))
    (fun _ depth => JsonText.reads_number wellFormed negative depth) (fun short => ?_)
    (.num shown.value_nonneg nearest_one) ((Value.all_leaf (by trivial)).mpr trivial) ?_
  · exact (short ((Value.all_leaf (by trivial)).mpr trivial)).elim
  · rintro x ⟨⟩
    rfl

theorem utf8Bytes_injective : Function.Injective utf8Bytes := by
  intro chars chars' same
  have encoded : chars.utf8Encode = chars'.utf8Encode := congrArg List.toByteArray same
  have decoded := List.utf8Decode?_utf8Encode (l := chars)
  rw [encoded, List.utf8Decode?_utf8Encode] at decoded
  exact (Array.toList_inj.mpr (Option.some.inj decoded)).symm

theorem writes_string (chars : List Char) :
    Writes onig (.string (utf8Bytes chars) true) (quoted chars) := by
  intro buffer
  simp only [stringify, if_true, stringifyChars_utf8 _ le_rfl, bind, Except.bind, pure, Except.pure,
    quoted, List.append_assoc]
  rfl

theorem written_string (chars : List Char) :
    WrittenValue (.string (utf8Bytes chars) true) (quoted chars) (.string (chars.flatMap reread))
      (.string (chars.map Char.toNat)) := by
  have readable : (Value.string (utf8Bytes chars) true).All Value.Readable ↔ ∀ c ∈ chars, Survives c :=
    (Value.all_leaf (by trivial)).trans
      ⟨fun all => all chars rfl, fun all chars' same => utf8Bytes_injective same ▸ all⟩
  have weights := pointsWeight_spec chars
  exact {
    ascii := ascii_quoted chars
    reads := fun _ depth _ => (readsString_quoted chars).reads depth
    cut := fun short => (short ((Value.all_leaf (by trivial)).mpr trivial)).elim
    meant := .string chars
    same := fun all => congrArg _ (points_of_survives (readable.mp all))
    lighter := weights.1
    heavier := fun changed => weights.2 (readable.not.mp changed)
    weighed := by
      intro x other
      generalize same : utf8Bytes chars = bytes at other
      cases other with
      | string chars' =>
          cases utf8Bytes_injective same
          rfl }

/-! ## Arrays and maps -/

theorem mem_intercalate {texts : List (List UInt8)} {b : UInt8} :
    b ∈ List.intercalate [44] texts → b = 44 ∨ ∃ text ∈ texts, b ∈ text := by
  cases texts with
  | nil => exact nofun
  | cons text texts =>
      rw [intercalate_cons, List.mem_append, List.mem_flatMap]
      rintro (first | ⟨text', among, inside⟩)
      · exact .inr ⟨text, List.mem_cons_self, first⟩
      · rcases List.mem_cons.mp inside with comma | inside
        · exact .inl comma
        · exact .inr ⟨text', List.mem_cons_of_mem text among, inside⟩

theorem sublist_intercalate {texts : List (List UInt8)} {text : List UInt8} (among : text ∈ texts) :
    text.Sublist (List.intercalate [44] texts) := by
  cases texts with
  | nil => cases among
  | cons first texts =>
      rw [intercalate_cons]
      rcases List.mem_cons.mp among with rfl | among
      · exact List.sublist_append_left _ _
      · refine .trans ?_ (List.sublist_append_right _ _)
        rw [List.flatMap_def]
        exact .trans (List.sublist_cons_self 44 text)
          (List.sublist_flatten_of_mem (List.mem_map.mpr ⟨text, among, rfl⟩))

theorem entries_intercalate (text : List UInt8) (texts : List (List UInt8)) :
    (text :: texts).flatMap (· ++ [44]) = List.intercalate [44] (text :: texts) ++ [44] := by
  rw [intercalate_cons]
  induction texts generalizing text with
  | nil => simp
  | cons text' texts ih =>
      rw [List.flatMap_cons, ih, List.flatMap_cons]
      simp

theorem ascii_intercalate {texts : List (List UInt8)} (all : ∀ text ∈ texts, Ascii text) :
    Ascii (List.intercalate [44] texts) := by
  intro b among
  rcases mem_intercalate among with rfl | ⟨text, among, inside⟩
  · decide
  · exact all text among b inside

theorem writes_rest {elems : List Value} {texts : List (List UInt8)}
    (each : List.Forall₂ (Writes onig) elems texts) (buffer : List UInt8) :
    stringifyRest onig buffer elems = .ok (buffer ++ texts.flatMap (44 :: ·)) := by
  induction each generalizing buffer with
  | nil => simp [stringifyRest]
  | cons first others ih =>
      have comma : ascii "," = [44] := by decide
      simp only [stringifyRest, comma, first _, bind, Except.bind, ih, List.flatMap_cons,
        List.append_assoc, List.singleton_append]

theorem writes_array {elems : List Value} {texts : List (List UInt8)}
    (each : List.Forall₂ (Writes onig) elems texts) :
    Writes onig (.array elems) (91 :: List.intercalate [44] texts ++ [93]) := by
  intro buffer
  have bracket : ascii "[" = [91] := by decide
  have bracket' : ascii "]" = [93] := by decide
  cases each with
  | nil => simp [stringify, bracket, bracket']
  | cons first others =>
      simp only [stringify, bracket, bracket', first _, writes_rest others, bind, Except.bind, pure,
        Except.pure, intercalate_cons]
      simp

/-- `stringify` appends this text for the key, the colon and the value of an entry. -/
def WritesEntry (onig : Onigmo) (e : Value × Value) (text : List UInt8) : Prop :=
  ∃ key entry, text = key ++ 58 :: entry ∧ Writes onig e.1 key ∧ Writes onig e.2 entry

theorem writes_entries {entries : List (Value × Value)} {texts : List (List UInt8)}
    (each : List.Forall₂ (WritesEntry onig) entries texts) (buffer : List UInt8) :
    stringifyEntries onig buffer entries = .ok (buffer ++ texts.flatMap (· ++ [44])) := by
  induction each generalizing buffer with
  | nil => simp [stringifyEntries]
  | @cons e text entries texts first others ih =>
      obtain ⟨k, x⟩ := e
      obtain ⟨key, entry, rfl, wrote, wrote'⟩ := first
      have colon : ascii ":" = [58] := by decide
      have comma : ascii "," = [44] := by decide
      simp only [stringifyEntries, comma, colon, wrote _, wrote' _, bind, Except.bind, ih,
        List.flatMap_cons, List.append_assoc, List.cons_append, List.nil_append]

theorem writes_map {entries : List (Value × Value)} {len : Nat} {texts : List (List UInt8)}
    (sized : 0 < len ↔ entries ≠ []) (each : List.Forall₂ (WritesEntry onig) entries texts) :
    Writes onig (.map entries len) (123 :: List.intercalate [44] texts ++ [125]) := by
  intro buffer
  have brace : ascii "\x7b" = [123] := by decide
  have brace' : ascii "\x7d" = [125] := by decide
  have wrote := writes_entries each (buffer ++ [123])
  cases each with
  | nil =>
      have none : ¬ len > 0 := fun positive => sized.mp positive rfl
      simp [stringify, stringifyEntries, brace, brace', none, bind, Except.bind, pure, Except.pure]
  | cons first others =>
      have some_entry : len > 0 := sized.mpr (List.cons_ne_nil _ _)
      rw [entries_intercalate, ← List.append_assoc] at wrote
      simp only [stringify, brace, brace', wrote, if_pos some_entry, bind, Except.bind, pure,
        Except.pure, List.dropLast_concat]
      simp

theorem written_array {elems : List Value} {texts : List (List UInt8)}
    {images originals : List JsonText.Json}
    (all : WrittenAll JsonText.value weight Decoded (Value.All Value.Complete)
      (Value.All Value.Readable) elems texts images originals) :
    WrittenValue (.array elems) (91 :: List.intercalate [44] texts ++ [93]) (.array images)
      (.array originals) where
  ascii := ascii_append (List.forall_mem_cons.mpr ⟨by decide, ascii_intercalate all.ascii⟩)
    ascii_words.2.2.2.1
  reads := by
    intro complete depth short
    simp only [List.length_append, List.length_cons, List.length_nil] at short
    obtain ⟨depth, rfl⟩ : ∃ d, depth = d + 1 := ⟨depth - 1, by omega⟩
    refine JsonText.reads_array (all.reads (Value.all_array.mp complete).2 depth fun text among => ?_)
    have := (sublist_intercalate among).length_le
    omega
  cut := by
    intro short
    have each : ¬ ∀ e ∈ elems, e.All Value.Complete := fun each =>
      short (Value.all_array.mpr ⟨trivial, each⟩)
    obtain ⟨text, among, nul⟩ := all.cut each
    simp [(sublist_intercalate among).subset nul]
  meant := .array all.meant
  same := fun readable => congrArg _ (all.same (Value.all_array.mp readable).2)
  lighter := by
    simp only [weight, weightElems_eq]
    exact all.lighter
  heavier := by
    intro changed
    simp only [weight, weightElems_eq]
    exact all.heavier fun each => changed (Value.all_array.mpr ⟨trivial, each⟩)
  weighed := by
    intro x other
    cases other with
    | array each =>
        simp only [weight, weightElems_eq]
        exact all.weighed _ each

/-- Both the key and the value of an entry. -/
def AllEntry (P : Value → Prop) (e : Value × Value) : Prop := e.1.All P ∧ e.2.All P

abbrev WrittenEntry (e : Value × Value) :
    List UInt8 → List Nat × JsonText.Json → List Nat × JsonText.Json → Prop :=
  Written (fun depth => JsonText.member (JsonText.value depth)) memberWeight (DecodedEntry e)
    (AllEntry Value.Complete e) (AllEntry Value.Readable e)

theorem written_entry (chars : List Char) {x : Value} {text : List UInt8}
    {image original : JsonText.Json} (written : WrittenValue x text image original) :
    WrittenEntry (.string (utf8Bytes chars) true, x) (quoted chars ++ 58 :: text)
      (chars.flatMap reread, image) (chars.map Char.toNat, original) := by
  have key := written_string chars
  have complete_key : (Value.string (utf8Bytes chars) true).All Value.Complete :=
    (Value.all_leaf (by trivial)).mpr trivial
  exact {
    ascii := ascii_append key.ascii (List.forall_mem_cons.mpr ⟨by decide, written.ascii⟩)
    reads := by
      intro complete depth short
      rw [List.length_append, List.length_cons] at short
      exact (readsString_quoted chars).member (written.reads complete.2 depth (by omega))
    cut := by
      intro short
      have nul := written.cut fun complete => short ⟨complete_key, complete⟩
      simp [nul]
    meant := .mk key.meant written.meant
    same := by
      intro readable
      have points : chars.flatMap reread = chars.map Char.toNat :=
        JsonText.Json.string.inj (key.same readable.1)
      rw [points, written.same readable.2]
    lighter := Nat.add_le_add key.lighter written.lighter
    heavier := by
      intro changed
      rw [AllEntry, not_and_or] at changed
      rcases changed with changed | changed
      · exact Nat.add_lt_add_of_lt_of_le (key.heavier changed) written.lighter
      · exact Nat.add_lt_add_of_le_of_lt key.lighter (written.heavier changed)
    weighed := by
      rintro m ⟨one, other⟩
      exact congrArg₂ (· + ·) (key.weighed _ one) (written.weighed _ other) }

theorem written_map {entries : List (Value × Value)} {len : Nat} {texts : List (List UInt8)}
    {images originals : List (List Nat × JsonText.Json)}
    (all : WrittenAll (fun depth => JsonText.member (JsonText.value depth)) memberWeight DecodedEntry
      (AllEntry Value.Complete) (AllEntry Value.Readable) entries texts images originals) :
    WrittenValue (.map entries len) (123 :: List.intercalate [44] texts ++ [125]) (.object images)
      (.object originals) where
  ascii := ascii_append (List.forall_mem_cons.mpr ⟨by decide, ascii_intercalate all.ascii⟩)
    ascii_words.2.2.2.2
  reads := by
    intro complete depth short
    simp only [List.length_append, List.length_cons, List.length_nil] at short
    obtain ⟨depth, rfl⟩ : ∃ d, depth = d + 1 := ⟨depth - 1, by omega⟩
    refine JsonText.reads_object (all.reads (Value.all_map.mp complete).2 depth fun text among => ?_)
    have := (sublist_intercalate among).length_le
    omega
  cut := by
    intro short
    have each : ¬ ∀ e ∈ entries, AllEntry Value.Complete e := fun each =>
      short (Value.all_map.mpr ⟨trivial, each⟩)
    obtain ⟨text, among, nul⟩ := all.cut each
    simp [(sublist_intercalate among).subset nul]
  meant := .map (.refl _) all.meant
  same := fun readable => congrArg _ (all.same (Value.all_map.mp readable).2)
  lighter := by
    simp only [weight, weightMembers_eq]
    exact all.lighter
  heavier := by
    intro changed
    simp only [weight, weightMembers_eq]
    exact all.heavier fun each => changed (Value.all_map.mpr ⟨trivial, each⟩)
  weighed := by
    intro x other
    cases other with
    | map order each =>
        simp only [weight, weightMembers_eq]
        rw [(order.map memberWeight).sum_eq]
        exact all.weighed _ each

/-! ## Every value -/

theorem exists_string {v : Value} (string : v.IsString) (sound : v.Sound) (native : ¬ v.Foreign) :
    ∃ chars, v = .string (utf8Bytes chars) true := by
  cases v with
  | string bytes utf8 =>
      cases utf8 with
      | false => exact (native trivial).elim
      | true =>
          obtain ⟨chars, rfl⟩ := sound
          exact ⟨chars, rfl⟩
  | _ => exact string.elim

variable (onig) in
theorem exists_written (v : Value) (sound : v.All Value.Sound) (native : v.All fun p => ¬ p.Foreign) :
    ∃ text image original, Writes onig v text ∧ WrittenValue v text image original := by
  induction v using Value.induction with
  | leaf v leaf =>
      replace sound := (Value.all_leaf leaf).mp sound
      replace native := (Value.all_leaf leaf).mp native
      cases v with
      | nil => exact ⟨_, _, _, fun buffer => by rw [stringify], written_nil⟩
      | int i fits =>
          obtain ⟨j, written⟩ := written_int i fits
          exact ⟨_, _, _, fun buffer => by rw [stringify], written⟩
      | num n =>
          cases n with
          | finite negative n =>
              obtain ⟨j, written⟩ := written_num negative n
              exact ⟨_, _, _, fun buffer => by rw [stringify], written⟩
          | infinite => exact sound.elim
          | nan => exact sound.elim
      | string bytes utf8 =>
          obtain ⟨chars, same⟩ := exists_string (by trivial) sound native
          rw [same]
          exact ⟨_, _, _, writes_string chars, written_string chars⟩
      | bool b => exact ⟨_, _, _, fun buffer => by rw [stringify], written_bool b⟩
      | array => exact leaf.elim
      | map => exact leaf.elim
      | _ => exact (native trivial).elim
  | array elems ih =>
      obtain ⟨texts, images, originals, wrote, all⟩ := exists_writtenAll fun e among =>
        ih e among ((Value.all_array.mp sound).2 e among) ((Value.all_array.mp native).2 e among)
      exact ⟨_, _, _, writes_array wrote, written_array all⟩
  | map entries len ih =>
      have each : ∀ e ∈ entries, ∃ text image original, WritesEntry onig e text ∧
          WrittenEntry e text image original := by
        rintro ⟨k, x⟩ among
        obtain ⟨own, sound_each⟩ := Value.all_map.mp sound
        obtain ⟨sound_key, sound_entry⟩ := sound_each _ among
        obtain ⟨native_key, native_entry⟩ := (Value.all_map.mp native).2 _ among
        obtain ⟨text, image, original, wrote, written⟩ := (ih _ among).2 sound_entry native_entry
        obtain ⟨chars, rfl⟩ := exists_string (own.2 _ among) (sound_key _ (.self _))
          (native_key _ (.self _))
        exact ⟨_, _, _, ⟨_, _, rfl, writes_string chars, wrote⟩, written_entry chars written⟩
      obtain ⟨texts, images, originals, wrote, all⟩ := exists_writtenAll each
      exact ⟨_, _, _, writes_map (sound _ (.self _)).1 wrote, written_map all⟩

/-- `stringify` throws. -/
def Throws (onig : Onigmo) (v : Value) : Prop :=
  ∀ buffer, ∃ message, stringify onig buffer v = .error (.throws message)

/-- No `Bytes`, code, object or opaque value stands in the value. -/
def Value.Native (v : Value) : Prop := v.All fun p => ¬ p.Foreign

/-- A value is written or throws, as a foreign one stands in it or not. -/
structure Fate (onig : Onigmo) (v : Value) : Prop where
  native : v.Native → ∃ text, Writes onig v text
  foreign : ¬ v.Native → Throws onig v

theorem Fate.cases {v : Value} (fate : Fate onig v) :
    v.Native ∧ (∃ text, Writes onig v text) ∨ ¬ v.Native ∧ Throws onig v :=
  (em v.Native).imp (fun native => ⟨native, fate.native native⟩)
    fun foreign => ⟨foreign, fate.foreign foreign⟩

theorem throws_rest {elems : List Value} (fates : ∀ e ∈ elems, Fate onig e)
    (foreign : ¬ ∀ e ∈ elems, e.Native) (buffer : List UInt8) :
    ∃ message, stringifyRest onig buffer elems = .error (.throws message) := by
  induction elems generalizing buffer with
  | nil => exact (foreign nofun).elim
  | cons e elems ih =>
      rw [List.forall_mem_cons] at fates foreign
      rcases fates.1.cases with ⟨native, text, writes⟩ | ⟨-, throws⟩
      · obtain ⟨message, thrown⟩ := ih fates.2 (fun all => foreign ⟨native, all⟩)
          (buffer ++ ascii "," ++ text)
        exact ⟨message, by simp only [stringifyRest, writes _, bind, Except.bind, thrown]⟩
      · obtain ⟨message, thrown⟩ := throws (buffer ++ ascii ",")
        exact ⟨message, by simp only [stringifyRest, thrown, bind, Except.bind]⟩

theorem throws_array {elems : List Value} (fates : ∀ e ∈ elems, Fate onig e)
    (foreign : ¬ ∀ e ∈ elems, e.Native) : Throws onig (.array elems) := by
  intro buffer
  cases elems with
  | nil => exact (foreign nofun).elim
  | cons e elems =>
      rw [List.forall_mem_cons] at fates foreign
      rcases fates.1.cases with ⟨native, text, writes⟩ | ⟨-, throws⟩
      · obtain ⟨message, thrown⟩ := throws_rest fates.2 (fun all => foreign ⟨native, all⟩)
          (buffer ++ ascii "[" ++ text)
        exact ⟨message, by simp only [stringify, writes _, bind, Except.bind, thrown]⟩
      · obtain ⟨message, thrown⟩ := throws (buffer ++ ascii "[")
        exact ⟨message, by simp only [stringify, thrown, bind, Except.bind]⟩

theorem throws_entries {entries : List (Value × Value)}
    (fates : ∀ e ∈ entries, Fate onig e.1 ∧ Fate onig e.2)
    (foreign : ¬ ∀ e ∈ entries, e.1.Native ∧ e.2.Native) (buffer : List UInt8) :
    ∃ message, stringifyEntries onig buffer entries = .error (.throws message) := by
  induction entries generalizing buffer with
  | nil => exact (foreign nofun).elim
  | cons e entries ih =>
      obtain ⟨k, x⟩ := e
      rw [List.forall_mem_cons] at fates foreign
      rcases fates.1.1.cases with ⟨native, key, writes⟩ | ⟨-, throws⟩
      · rcases fates.1.2.cases with ⟨native', text, writes'⟩ | ⟨-, throws⟩
        · obtain ⟨message, thrown⟩ := ih fates.2 (fun all => foreign ⟨⟨native, native'⟩, all⟩)
            (buffer ++ key ++ ascii ":" ++ text ++ ascii ",")
          exact ⟨message, by
            simp only [stringifyEntries, writes _, writes' _, bind, Except.bind, thrown]⟩
        · obtain ⟨message, thrown⟩ := throws (buffer ++ key ++ ascii ":")
          exact ⟨message, by simp only [stringifyEntries, writes _, thrown, bind, Except.bind]⟩
      · obtain ⟨message, thrown⟩ := throws buffer
        exact ⟨message, by simp only [stringifyEntries, thrown, bind, Except.bind]⟩

theorem throws_map {entries : List (Value × Value)} {len : Nat}
    (fates : ∀ e ∈ entries, Fate onig e.1 ∧ Fate onig e.2)
    (foreign : ¬ ∀ e ∈ entries, e.1.Native ∧ e.2.Native) : Throws onig (.map entries len) := by
  intro buffer
  obtain ⟨message, thrown⟩ := throws_entries fates foreign (buffer ++ ascii "\x7b")
  exact ⟨message, by simp only [stringify, thrown, bind, Except.bind]⟩

theorem fate (v : Value) (sound : v.All Value.Sound) : Fate onig v := by
  induction v using Value.induction with
  | leaf v leaf =>
      refine ⟨fun native => ?_, fun foreign => ?_⟩
      · obtain ⟨text, image, original, writes, -⟩ := exists_written onig v sound native
        exact ⟨text, writes⟩
      · replace foreign := not_not.mp ((Value.all_leaf leaf).not.mp foreign)
        intro buffer
        cases v with
        | string bytes utf8 =>
            cases utf8 with
            | false => exact ⟨_, by simp only [stringify, Bool.false_eq_true, if_false]; rfl⟩
            | true => exact foreign.elim
        | code => exact ⟨_, by rw [stringify]⟩
        | obj => exact ⟨_, by rw [stringify]⟩
        | lex => exact ⟨_, by rw [stringify]⟩
        | opaqueObj => exact ⟨_, by rw [stringify]⟩
        | _ => exact foreign.elim
  | array elems ih =>
      have fates : ∀ e ∈ elems, Fate onig e := fun e among =>
        ih e among ((Value.all_array.mp sound).2 e among)
      refine ⟨fun native => ?_, fun foreign => ?_⟩
      · obtain ⟨text, image, original, writes, -⟩ := exists_written onig _ sound native
        exact ⟨text, writes⟩
      · exact throws_array fates fun all => foreign (Value.all_array.mpr ⟨nofun, all⟩)
  | map entries len ih =>
      have fates : ∀ e ∈ entries, Fate onig e.1 ∧ Fate onig e.2 := fun e among =>
        ⟨(ih e among).1 ((Value.all_map.mp sound).2 e among).1,
          (ih e among).2 ((Value.all_map.mp sound).2 e among).2⟩
      refine ⟨fun native => ?_, fun foreign => ?_⟩
      · obtain ⟨text, image, original, writes, -⟩ := exists_written onig _ sound native
        exact ⟨text, writes⟩
      · exact throws_map fates fun all => foreign (Value.all_map.mpr ⟨nofun, all⟩)

/-- A value without a foreign one is written as a JSON text that denotes it, and any other one
throws. -/
structure Serializes (onig : Onigmo) (v : Value) : Prop where
  denotes : v.Native → ∃ text j,
    methStringify onig v = .ok text ∧ JsonText.decode text = some j ∧ Decoded v j
  throws : ¬ v.Native → ∃ message, methStringify onig v = .error (.throws message)

theorem denotes_iff {v : Value} (sound : v.All Value.Sound) (native : v.Native) :
    (∃ text j, methStringify onig v = .ok text ∧ JsonText.decode text = some j ∧ Decoded v j) ↔
      v.All Value.Complete ∧ v.All Value.Readable := by
  obtain ⟨text, image, original, writes, written⟩ := exists_written onig v sound native
  have wrote : methStringify onig v = .ok text := (writes []).trans (by rw [List.nil_append])
  have read (complete : v.All Value.Complete) : JsonText.decode text = some image := by
    have reads := written.reads complete (text.length - 1) (by omega)
    obtain ⟨b, first, -⟩ := reads.begins
    obtain ⟨rest, same⟩ := List.head?_eq_some_iff.mp first
    have positive : 1 ≤ text.length := by
      rw [same, List.length_cons]
      exact Nat.le_add_left 1 _
    rw [Nat.sub_add_cancel positive] at reads
    exact reads.decode written.ascii
  constructor
  · rintro ⟨text', j, wrote', decoded, meant⟩
    cases Except.ok.inj (wrote.symm.trans wrote')
    by_cases complete : v.All Value.Complete
    · refine ⟨complete, ?_⟩
      cases Option.some.inj ((read complete).symm.trans decoded)
      by_contra changed
      exact absurd (written.weighed image meant) (written.heavier changed).ne'
    · rw [JsonText.decode_eq_none written.ascii (written.cut complete)] at decoded
      cases decoded
  · rintro ⟨complete, readable⟩
    exact ⟨text, image, wrote, read complete, written.same readable ▸ written.meant⟩

/-- `stringify` keeps a value exactly when no integer in it is as small as -10^18, and every character
of a string or a key is an ASCII letter or digit, or one of the first ten. -/
theorem serializes_iff (onig : Onigmo) {v : Value} (sound : v.All Value.Sound) :
    Serializes onig v ↔ (v.Native → v.All Value.Complete ∧ v.All Value.Readable) := by
  constructor
  · exact fun serializes native => (denotes_iff sound native).mp (serializes.denotes native)
  · intro kept
    refine ⟨fun native => (denotes_iff sound native).mpr (kept native), fun foreign => ?_⟩
    exact (fate v sound).foreign foreign []

theorem utf8Len_ofNat {n : Nat} (byte : n < 256) : Str.utf8Len (UInt8.ofNat n) =
    if n < 194 then 1 else if n < 224 then 2 else if n < 240 then 3 else if n < 245 then 4 else 1 := by
  simp only [Str.utf8Len, UInt8.lt_iff_toNat_lt, UInt8.toNat_ofNat', Nat.mod_eq_of_lt byte]
  rfl

theorem utf8Len_char (c : Char) : ∀ b ∈ (String.utf8EncodeChar c).head?,
    Str.utf8Len b = (String.utf8EncodeChar c).length := by
  have below : c.val.toNat < 0x110000 := toNat_lt c
  simp only [String.utf8EncodeChar]
  generalize c.val.toNat = v at below ⊢
  split
  · rintro b ⟨⟩
    rw [utf8Len_ofNat (by omega), if_pos (by omega)]
    rfl
  split
  · rintro b ⟨⟩
    rw [utf8Len_ofNat (by omega), if_neg (by omega), if_pos (by omega)]
    rfl
  split
  · rintro b ⟨⟩
    rw [utf8Len_ofNat (by omega), if_neg (by omega), if_neg (by omega), if_pos (by omega)]
    rfl
  · rintro b ⟨⟩
    rw [utf8Len_ofNat (by omega), if_neg (by omega), if_neg (by omega), if_neg (by omega),
      if_pos (by omega)]
    rfl

/-- Onigmo for UTF-8, with the decoder of strings. -/
def utf8Onigmo : Onigmo where
  toOnigmo := Str.utf8
  mbcToCode bytes := ((bytes.toByteArray.utf8DecodeChar? 0).map Char.toNat).getD 0
  encLen_char := utf8Len_char
  mbcToCode_char c rest := by
    have first := ByteArray.utf8DecodeChar?_utf8EncodeChar_append (b := rest.toByteArray) (c := c)
    rw [List.toByteArray_append, first]
    rfl

/-- A string with a zero byte behind it as a key. -/
def keyStr : Value → Option Map.Str
  | .string bytes _ => some { bytes, behind := some 0 }
  | _ => none

/-- `pone_stringify` of the strings; no other value is a key in what follows. -/
def keyStringify : Value → Value
  | .string bytes utf8 => .string bytes utf8
  | _ => .string [] true

theorem keyStr_isSome (v : Value) : (keyStr (keyStringify v)).isSome := by
  cases v <;> rfl

theorem keyStringify_str (v : Value) (s : Map.Str) (found : keyStr v = some s) :
    keyStr (keyStringify v) = some s := by
  cases v <;> first | exact found | cases found

def keyVals : Map.Vals Value where
  str := keyStr
  stringify := keyStringify
  str_stringify := keyStr_isSome
  stringify_str := keyStringify_str

/-- The map `{"a" => nil}`. -/
def letterMap : Value := .map [(.string [97] true, .nil)] 1

theorem letterMap_sound : letterMap.All Value.Sound := by
  refine Value.all_map.mpr ⟨?_, List.forall_mem_singleton.mpr ⟨?_, ?_⟩⟩
  · have assigned : Map.mapAssignKeys keyVals (HashTable.assoc keyVals.bytes Value)
        (Map.mapNew keyVals (HashTable.assoc keyVals.bytes Value)) [(.string [97] true, .nil)] =
          .ok ⟨⟨[(.string [97] true, .nil)], List.nodup_singleton _⟩, 1⟩ := rfl
    exact Value.sound_of_assigned (fun v string => by cases v <;> trivial) assigned
  · exact (Value.all_leaf (by trivial)).mpr ⟨['a'], by decide⟩
  · exact (Value.all_leaf (by trivial)).mpr trivial

/-- The array `[nil, {"a" => nil}]`. -/
theorem serializes_iff_letter :
    Serializes utf8Onigmo (.array [.nil, letterMap]) ↔
      ((Value.array [.nil, letterMap]).Native →
        (Value.array [.nil, letterMap]).All Value.Complete ∧
          (Value.array [.nil, letterMap]).All Value.Readable) :=
  serializes_iff utf8Onigmo <| Value.all_array.mpr ⟨trivial, List.forall_mem_cons.mpr
    ⟨(Value.all_leaf (by trivial)).mpr trivial, List.forall_mem_singleton.mpr letterMap_sound⟩⟩

/-- The text of `"!"` is `"\u0033"`, a `3`. -/
theorem not_serializes : ¬ Serializes utf8Onigmo (.string [33] true) := by
  intro serializes
  have leaf : (Value.string [33] true).Leaf := trivial
  have sound : (Value.string [33] true).All Value.Sound :=
    (Value.all_leaf leaf).mpr ⟨['!'], by decide⟩
  have native : (Value.string [33] true).Native := (Value.all_leaf leaf).mpr not_false
  have readable := ((denotes_iff sound native).mp (serializes.denotes native)).2
  have survives := (Value.all_leaf leaf).mp readable ['!'] (by decide) '!' List.mem_cons_self
  revert survives
  decide

end Json
end Pone
