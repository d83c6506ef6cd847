import Mathlib.Data.Set.Disjoint
import Mathlib.Data.Set.Lattice
import Mathlib.Order.CompletePartialOrder
import Pone.Heap.Isolation

/-!
# The shape of a copy

`pone_val_copy` goes through arrays and maps and makes a new value at every position that it comes to.
On a value that does not contain itself it ends, and the copy has the shape of the source; each
position of the copy has a value of its own.
-/

namespace Pone
namespace Heap

/-! ## Texts -/

section Text

variable {κ : Type} {u u' : Universe κ} {ref : Ref} {bytes : List UInt8} {fuel fuel' : Nat}

/-- The string has the text, whatever chain of `PONE_FLAGS_STR_COPY` leads to it. -/
def HasText (u : Universe κ) (ref : Ref) (bytes : List UInt8) : Prop :=
  ∃ fuel, strBytes u fuel ref = some bytes

theorem HasText.unique {other : List UInt8} (left : HasText u ref bytes)
    (right : HasText u ref other) : bytes = other := by
  obtain ⟨fuel, left⟩ := left
  obtain ⟨fuel', right⟩ := right
  exact strBytes_unique left right

/-- More fuel, and a heap with more values, give the same text. -/
theorem strBytes_mono (text : strBytes u fuel ref = some bytes)
    (kept : Sharing.Kept u.value u'.value) (more : fuel ≤ fuel') :
    strBytes u' fuel' ref = some bytes := by
  induction fuel generalizing ref fuel' with
  | zero => cases text
  | succ fuel ih =>
      obtain ⟨fuel', rfl⟩ := Nat.exists_eq_add_of_lt more
      simp only [strBytes] at text ⊢
      cases found : u.value ref with
      | none =>
          rw [found] at text
          cases text
      | some v =>
          rw [kept ref (by simp [found])]
          rw [found] at text ⊢
          cases v with
          | str utf8 content =>
              cases content with
              | own => exact text
              | copyOf source => exact ih text (by omega)
          | int | num | ary | map | code | obj | lex | opaqueRef => cases text

theorem HasText.kept (text : HasText u ref bytes) (kept : Sharing.Kept u.value u'.value) :
    HasText u' ref bytes := by
  obtain ⟨fuel, text⟩ := text
  exact ⟨fuel, strBytes_mono text kept (Nat.le_refl _)⟩

theorem HasText.own {utf8 : Bool} (found : u.value ref = some (.str utf8 (.own bytes))) :
    HasText u ref bytes :=
  ⟨1, strBytes_own found⟩

theorem HasText.isStr (text : HasText u ref bytes) :
    ∃ utf8 content, u.value ref = some (.str utf8 content) := by
  obtain ⟨fuel, text⟩ := text
  cases fuel with
  | zero => cases text
  | succ fuel =>
      simp only [strBytes] at text
      split at text
      next utf8 _ found => exact ⟨utf8, _, found⟩
      next utf8 source found => exact ⟨utf8, _, found⟩
      next => cases text

end Text

section Shape

variable {κ : Type}

/-! ## Values that can be copied -/

/-- No two keys of a map have one text. -/
def Keyed (u : Universe κ) (entries : List (Ref × Ref)) : Prop :=
  entries.Pairwise fun entry other =>
    ∀ bytes, HasText u entry.1 bytes → ¬ HasText u other.1 bytes

/-- The value is alive and of a type that `pone_val_copy` copies. -/
inductive Sendable (u : Universe κ) (ref : Ref) : Prop where
  | nil (same : ref = .nil)
  | bool (truth : Bool) (same : ref = .bool truth)
  | int (i : Int) (found : u.value ref = some (.int i))
  | num (bits : UInt64) (found : u.value ref = some (.num bits))
  | str (bytes : List UInt8) (text : HasText u ref bytes)
  | ary (items : List Ref) (found : u.value ref = some (.ary items))
  | map (entries : List (Ref × Ref)) (found : u.value ref = some (.map entries))
      (texts : ∀ entry ∈ entries, ∃ bytes, HasText u entry.1 bytes) (keyed : Keyed u entries)
  | obj (klass : Ref) (ivars : Bindings κ) (found : u.value ref = some (.obj klass ivars))
      (isObj : ∃ metaklass fields, u.value klass = some (.obj metaklass fields))
  | opaqueRef (body : Nat) (found : u.value ref = some (.opaqueRef body))

/-- The values that are copied with an array or a map. -/
def Contains (u : Universe κ) (parent child : Ref) : Prop :=
  (∃ items, u.value parent = some (.ary items) ∧ child ∈ items) ∨
    ∃ entries entry, u.value parent = some (.map entries) ∧ entry ∈ entries ∧
      (child = entry.1 ∨ child = entry.2)

/-- A finite value: going into arrays and maps comes to an end. -/
inductive Unfolds (u : Universe κ) : Ref → Prop where
  | intro {ref : Ref} (sendable : Sendable u ref)
      (parts : ∀ child, Contains u ref child → Unfolds u child) : Unfolds u ref

theorem Unfolds.leaf {u : Universe κ} {ref : Ref} (sendable : Sendable u ref)
    (notAry : ∀ items, u.value ref ≠ some (.ary items))
    (notMap : ∀ entries, u.value ref ≠ some (.map entries)) : Unfolds u ref := by
  refine .intro sendable fun child contained => ?_
  rcases contained with ⟨items, found, -⟩ | ⟨entries, entry, found, -⟩
  · exact absurd found (notAry items)
  · exact absurd found (notMap entries)

/-! ## Mirrors -/

/-- A new string with the text and the kind of another one. -/
def TextCopied (base u : Universe κ) (own : Set Ref) (source copy : Ref) : Prop :=
  ∃ utf8 content bytes, base.value source = some (.str utf8 content) ∧ HasText base source bytes ∧
    u.value copy = some (.str utf8 (.own bytes)) ∧ copy ∈ own

/-- The values of a container and those of its parts do not overlap. -/
structure Split (own : Set Ref) (copy : Ref) (parts : Nat → Set Ref) : Prop where
  mine : copy ∈ own
  inside : ∀ i, parts i ⊆ own
  outside : ∀ i, copy ∉ parts i
  disjoint : ∀ i j, i ≠ j → Disjoint (parts i) (parts j)

/-- Types, kinds of strings, numbers, texts, lengths, the order of arrays and the entries of maps are
the same; each position of the copy has a value of its own in the set.  The order of the entries of a
map does not matter.  Objects have the same class and instance variables, opaques the same body. -/
inductive Mirrors (base u : Universe κ) : Set Ref → Ref → Ref → Prop where
  | constant {own ref} (constant : ref = .nil ∨ ∃ truth, ref = .bool truth) : Mirrors base u own ref ref
  | int {own source copy} (i : Int) (found : base.value source = some (.int i))
      (found' : u.value copy = some (.int i)) (mine : copy ∈ own) : Mirrors base u own source copy
  | num {own source copy} (bits : UInt64) (found : base.value source = some (.num bits))
      (found' : u.value copy = some (.num bits)) (mine : copy ∈ own) : Mirrors base u own source copy
  | str {own source copy} (copied : TextCopied base u own source copy) : Mirrors base u own source copy
  | ary {own source copy} (parts : Nat → Set Ref) {items items' : List Ref}
      (found : base.value source = some (.ary items)) (found' : u.value copy = some (.ary items'))
      (split : Split own copy parts) (length : items'.length = items.length)
      (each : ∀ (i : Nat) (item item' : Ref), items[i]? = some item → items'[i]? = some item' →
        Mirrors base u (parts i) item item') : Mirrors base u own source copy
  | map {own source copy} (parts : Nat → Set Ref) {entries images entries' : List (Ref × Ref)}
      (found : base.value source = some (.map entries)) (found' : u.value copy = some (.map entries'))
      (split : Split own copy parts) (order : entries'.Perm images)
      (length : images.length = entries.length)
      (keys : ∀ (i : Nat) (entry image : Ref × Ref), entries[i]? = some entry →
        images[i]? = some image → TextCopied base u own entry.1 image.1)
      (vals : ∀ (i : Nat) (entry image : Ref × Ref), entries[i]? = some entry →
        images[i]? = some image → Mirrors base u (parts i) entry.2 image.2) :
      Mirrors base u own source copy
  | obj {own source copy} (klass : Ref) {ivars ivars' : Bindings κ}
      (found : base.value source = some (.obj klass ivars))
      (found' : u.value copy = some (.obj klass ivars'))
      (same : ∀ entry, entry ∈ ivars'.entries ↔ entry ∈ ivars.entries) (mine : copy ∈ own) :
      Mirrors base u own source copy
  | opaqueRef {own source copy} (body : Nat) (found : base.value source = some (.opaqueRef body))
      (found' : u.value copy = some (.opaqueRef body)) (mine : copy ∈ own) :
      Mirrors base u own source copy

variable {base u u' u₁ : Universe κ} {own own' : Set Ref} {source copy ref retval result : Ref}
  {world fuel : Nat} {parts : Nat → Set Ref}

theorem TextCopied.frame (copied : TextCopied base u own source copy)
    (same : ∀ target ∈ own, u'.value target = u.value target) :
    TextCopied base u' own source copy := by
  obtain ⟨utf8, content, bytes, found, text, found', mine⟩ := copied
  exact ⟨utf8, content, bytes, found, text, (same copy mine).trans found', mine⟩

theorem TextCopied.mono (copied : TextCopied base u own source copy) (more : own ⊆ own') :
    TextCopied base u own' source copy := by
  obtain ⟨utf8, content, bytes, found, text, found', mine⟩ := copied
  exact ⟨utf8, content, bytes, found, text, found', more mine⟩

theorem TextCopied.found {bytes : List UInt8} (copied : TextCopied base u own source copy)
    (text : HasText base source bytes) : ∃ utf8, u.value copy = some (.str utf8 (.own bytes)) := by
  obtain ⟨utf8, content, bytes', -, text', found, -⟩ := copied
  rw [text.unique text']
  exact ⟨utf8, found⟩

theorem Split.mono (split : Split own copy parts) (more : own ⊆ own') : Split own' copy parts :=
  ⟨more split.mine, fun i => (split.inside i).trans more, split.outside, split.disjoint⟩

/-- What is outside the values of the copy does not matter. -/
theorem Mirrors.frame (mirrors : Mirrors base u own source copy)
    (same : ∀ target ∈ own, u'.value target = u.value target) :
    Mirrors base u' own source copy := by
  induction mirrors with
  | constant constant => exact .constant constant
  | int i found found' mine => exact .int i found ((same _ mine).trans found') mine
  | num bits found found' mine => exact .num bits found ((same _ mine).trans found') mine
  | str copied => exact .str (copied.frame same)
  | ary parts found found' split length _ ih =>
      exact .ary parts found ((same _ split.mine).trans found') split length
        fun i item item' here here' => ih i item item' here here' fun target member =>
          same target (split.inside i member)
  | map parts found found' split order length keys _ ih =>
      exact .map parts found ((same _ split.mine).trans found') split order length
        (fun i entry image here here' => (keys i entry image here here').frame same)
        fun i entry image here here' => ih i entry image here here' fun target member =>
          same target (split.inside i member)
  | obj klass found found' same' mine =>
      exact .obj klass found ((same _ mine).trans found') same' mine
  | opaqueRef body found found' mine => exact .opaqueRef body found ((same _ mine).trans found') mine

theorem Mirrors.mono (mirrors : Mirrors base u own source copy) (more : own ⊆ own') :
    Mirrors base u own' source copy := by
  cases mirrors with
  | constant constant => exact .constant constant
  | int i found found' mine => exact .int i found found' (more mine)
  | num bits found found' mine => exact .num bits found found' (more mine)
  | str copied => exact .str (copied.mono more)
  | ary parts found found' split length each =>
      exact .ary parts found found' (split.mono more) length each
  | map parts found found' split order length keys vals =>
      exact .map parts found found' (split.mono more) order length
        (fun i entry image here here' => (keys i entry image here here').mono more) vals
  | obj klass found found' same mine => exact .obj klass found found' same (more mine)
  | opaqueRef body found found' mine => exact .opaqueRef body found found' (more mine)

/-- What mirrors a string is a string. -/
theorem Mirrors.textCopied {bytes : List UInt8} (mirrors : Mirrors base u own source copy)
    (text : HasText base source bytes) : TextCopied base u own source copy := by
  obtain ⟨utf8, content, isStr⟩ := text.isStr
  cases mirrors with
  | str copied => exact copied
  | constant constant =>
      obtain rfl | ⟨truth, rfl⟩ := constant <;> cases isStr
  | int _ found | num _ found | ary _ found | map _ found | obj _ found | opaqueRef _ found =>
      cases isStr.symm.trans found

/-! ## Copying makes mirrors -/

/-- The values that are there in the second universe only. -/
def newRefs (u u' : Universe κ) : Set Ref := {target | Sharing.New u.value u'.value target}

/-- Copying goes on: the source is as it was, and the world can allocate. -/
structure Ongoing (base : Universe κ) (world : Nat) (u : Universe κ) : Prop where
  grown : Grown base u
  arenas : (u.allocator world).isSome = true

/-- The target is behind the value, which the values of a set lead to. -/
def Behind (u : Universe κ) (own : Set Ref) (ref target : Ref) : Prop :=
  Relation.ReflTransGen (fun parent child => parent ∈ own ∧ child ∈ u.children parent) ref target

/-- What the copying of one value has made: a mirror of the source and nothing besides. -/
structure Produced (base u u' : Universe κ) (source result : Ref) : Prop where
  kept : Sharing.Kept u.value u'.value
  mirrors : Mirrors base u' (newRefs u u') source result
  complete : ∀ target ∈ newRefs u u', Behind u' (newRefs u u') result target

/-- Whenever the source is copied, a mirror of it comes into being. -/
def Duplicated (base : Universe κ) (world : Nat)
    (copy : Universe κ → Ref → Option (Universe κ × Ref)) (source : Ref) : Prop :=
  ∀ u, Ongoing base world u → ∃ u' result, copy u source = some (u', result) ∧
    Ongoing base world u' ∧ Produced base u u' source result

theorem Behind.frame {target : Ref} (behind : Behind u own ref target)
    (same : ∀ parent ∈ own, u'.value parent = u.value parent) (more : own ⊆ own') :
    Behind u' own' ref target := by
  refine Relation.ReflTransGen.mono ?_ _ _ behind
  rintro parent child ⟨inside, pointer⟩
  refine ⟨more inside, ?_⟩
  rwa [Universe.children, same parent inside]

/-- One value has come into being. -/
theorem mem_newRefs_update {v : Value κ} {target : Ref} (same : u'.value = Function.update u.value result v)
    (new : target ∈ newRefs u u') : target = result := by
  by_contra other
  obtain ⟨unset, set⟩ := new
  rw [same, Function.update_of_ne other] at set
  exact set unset

/-- No value has gone. -/
def Present (u u' : Universe κ) : Prop := ∀ target, u.value target ≠ none → u'.value target ≠ none

theorem Present.of_kept (kept : Sharing.Kept u.value u'.value) : Present u u' := fun target set =>
  kept target set ▸ set

theorem Present.trans (first : Present u u₁) (second : Present u₁ u') : Present u u' :=
  fun target set => second target (first target set)

theorem newRefs_mono (first : Present u u₁) (second : Present u₁ u') :
    newRefs u u₁ ⊆ newRefs u u' ∧ newRefs u₁ u' ⊆ newRefs u u' := by
  refine ⟨fun target new => ⟨new.1, second target new.2⟩, fun target new => ⟨?_, new.2⟩⟩
  by_contra set
  exact first target set new.1

/-- What is made later is not what was made before. -/
theorem newRefs_disjoint : Disjoint (newRefs u u₁) (newRefs u₁ u') :=
  Set.disjoint_left.mpr fun _ earlier later => earlier.2 later.1

/-- New values, apart for apart positions. -/
structure Parted (u u' : Universe κ) (parts : Nat → Set Ref) : Prop where
  inside : ∀ i, parts i ⊆ newRefs u u'
  disjoint : ∀ i j, i ≠ j → Disjoint (parts i) (parts j)

/-- A first part and those made after it. -/
def consPart (first : Set Ref) (parts : Nat → Set Ref) : Nat → Set Ref
  | 0 => first
  | i + 1 => parts i

theorem Parted.cons (parted : Parted u₁ u' parts) (first : own ⊆ newRefs u u₁)
    (before : Present u u₁) (after : Present u₁ u') : Parted u u' (consPart own parts) := by
  have ⟨earlier, later⟩ := newRefs_mono before after
  have apart (i : Nat) : Disjoint own (parts i) :=
    (newRefs_disjoint.mono_left first).mono_right (parted.inside i)
  constructor
  · intro i
    cases i with
    | zero => exact first.trans earlier
    | succ i => exact (parted.inside i).trans later
  · intro i j different
    cases i with
    | zero =>
        cases j with
        | zero => exact absurd rfl different
        | succ j => exact apart j
    | succ i =>
        cases j with
        | zero => exact (apart i).symm
        | succ j => exact parted.disjoint i j fun same => different (congrArg _ same)

/-- What is new after a container was made has its place under the container. -/
theorem Parted.split (parted : Parted u₁ u' parts) (first : Present u u₁) (second : Present u₁ u')
    (free : u.value retval = none) (made : u₁.value retval ≠ none) :
    Split (newRefs u u') retval parts := by
  refine ⟨⟨free, second retval made⟩, fun i => (parted.inside i).trans (newRefs_mono first second).2,
    fun i member => made (parted.inside i member).1, parted.disjoint⟩

theorem Ongoing.alloc (ongoing : Ongoing base world u) (v : Value κ) :
    ∃ u' index, objAlloc u world v = some (u', .slot world index) ∧ Ongoing base world u' ∧
      u.value (.slot world index) = none ∧
        u'.value = Function.update u.value (.slot world index) (some v) := by
  obtain ⟨⟨u', ref⟩, alloc⟩ := Option.isSome_iff_exists.mp (objAlloc_isSome (v := v) ongoing.arenas)
  obtain ⟨grown, free, same⟩ := ongoing.grown.alloc alloc
  obtain ⟨_, _, rfl, after, _⟩ := objAlloc_allocator alloc
  exact ⟨u', _, alloc, ⟨grown, by rw [after, Option.isSome_some]⟩, free, same⟩

/-- A new value has a place of its own among what is made. -/
theorem Ongoing.replace {world' index : Nat} {v : Value κ} (ongoing : Ongoing base world u)
    (content : u.value (.slot world' index) = some v)
    (free : base.value (.slot world' index) = none) (v' : Value κ) :
    ∃ u', store u (.slot world' index) v' = some u' ∧ Ongoing base world u' ∧
      u'.value = Function.update u.value (.slot world' index) (some v') := by
  have stores : store u (.slot world' index) v' = some (u.setSlot world' index (some v')) := by
    simp only [store, content]
  obtain ⟨grown, same⟩ := ongoing.grown.store stores free
  exact ⟨_, stores, ⟨grown, by rw [store_allocator stores]; exact ongoing.arenas⟩, same⟩

/-- A value without parts is made at once. -/
theorem Ongoing.leaf (ongoing : Ongoing base world u) (v : Value κ)
    (mirrors : ∀ {u' : Universe κ} {result}, u'.value result = some v → result ∈ newRefs u u' →
      Mirrors base u' (newRefs u u') source result) :
    ∃ u' result, objAlloc u world v = some (u', result) ∧ Ongoing base world u' ∧
      Produced base u u' source result := by
  obtain ⟨u', index, alloc, ongoing', free, same⟩ := ongoing.alloc v
  have content : u'.value (.slot world index) = some v := by rw [same, Function.update_self]
  refine ⟨u', _, alloc, ongoing', kept_of_update same free, mirrors content ⟨free, by simp [content]⟩,
    fun target new => ?_⟩
  rw [mem_newRefs_update same new]
  exact .refl

theorem keptBut_kept (first : Sharing.Kept u.value u₁.value) (second : KeptBut retval u₁ u')
    (free : u.value retval = none) : Sharing.Kept u.value u'.value := fun target set => by
  rw [second target (fun same => set (same ▸ free)) (first target set ▸ set), first target set]

/-- What `pone_val_copy` does with a value that is not `nil` or a boolean. -/
theorem valCopy_succ [DecidableEq κ] {v : Value κ} (found : u.value source = some v) :
    valCopy world (fuel + 1) u source = match v with
      | .int i => objAlloc u world (.int i)
      | .num bits => objAlloc u world (.num bits)
      | .str utf8 _ => (strBytes u (fuel + 1) source).bind fun bytes =>
          objAlloc u world (.str utf8 (.own bytes))
      | .ary items => aryCopy (valCopy world fuel) u world items
      | .map entries => mapCopy (valCopy world fuel) (fuel + 1) u world entries
      | .opaqueRef body => opaqueCopy u world body
      | .obj klass ivars => objCopy u world klass ivars
      | .code _ | .lex _ _ => none := by
  cases source with
  | nil | bool => cases found
  | constInt | slot =>
      simp only [valCopy, found]
      cases v <;> rfl

/-- Further parts of an array are copied into it. -/
theorem aryCopy_fills {copy : Universe κ → Ref → Option (Universe κ × Ref)} {place index : Nat}
    {items acc : List Ref} (each : ∀ item ∈ items, Duplicated base world copy item)
    (ongoing : Ongoing base world u) (free : base.value (.slot place index) = none)
    (content : u.value (.slot place index) = some (.ary acc)) :
    ∃ u' news parts, (items.foldlM (fun u item => do
        let (u, item) ← copy u item
        aryPush u (.slot place index) item) u) = some u' ∧
      Ongoing base world u' ∧ KeptBut (.slot place index) u u' ∧
      u'.value (.slot place index) = some (.ary (acc ++ news)) ∧ news.length = items.length ∧
      Parted u u' parts ∧ (∀ (i : Nat) (item item' : Ref), items[i]? = some item →
        news[i]? = some item' → Mirrors base u' (parts i) item item') ∧
      ∀ target ∈ newRefs u u', ∃ item ∈ news, Behind u' (newRefs u u') item target := by
  induction items generalizing u acc with
  | nil =>
      refine ⟨u, [], fun _ => ∅, rfl, ongoing, .refl, by simpa using content, rfl,
        ⟨fun _ => Set.empty_subset _, fun _ _ _ => Set.disjoint_empty _⟩, fun i item item' here => ?_,
        fun target new => absurd new.1 new.2⟩
      cases here
  | cons item items ih =>
      obtain ⟨u₁, new, copies, ongoing₁, kept₁, mirrors, complete⟩ :=
        each item (List.mem_cons_self ..) u ongoing
      have content₁ : u₁.value (.slot place index) = some (.ary acc) := by
        rw [kept₁ _ (by simp [content]), content]
      obtain ⟨u₂, stores, ongoing₂, same₂⟩ := ongoing₁.replace content₁ free (.ary (acc ++ [new]))
      have content₂ : u₂.value (.slot place index) = some (.ary (acc ++ [new])) := by
        rw [same₂, Function.update_self]
      have kept₂ : KeptBut (.slot place index) u₁ u₂ := .update same₂
      obtain ⟨u', news, parts, rest, ongoing', kept', content', length, parted, mirrors', complete'⟩ :=
        ih (fun other member => each other (List.mem_cons_of_mem _ member)) ongoing₂ content₂
      have present₂ : Present u₁ u₂ := present_of_keptBut content₂ kept₂
      have present' := present_of_keptBut content' kept'
      have kept : KeptBut (.slot place index) u₁ u' := kept₂.trans kept'
      have first : Present u u₂ := (Present.of_kept kept₁).trans present₂
      have steady (target : Ref) (mine : target ∈ newRefs u u₁) :
          u'.value target = u₁.value target := by
        refine kept target ?_ mine.2
        rintro rfl
        simp [mine.1] at content
      refine ⟨u', new :: news, consPart (newRefs u u₁) parts, ?_, ongoing',
        (KeptBut.of_kept kept₁).trans kept, by simpa using content', by simp [length],
        parted.cons (newRefs_mono (.of_kept kept₁) present₂).1 first present', ?_, ?_⟩
      · simp only [List.foldlM_cons, Option.bind_eq_bind, copies, Option.bind_some, aryPush, content₁,
          stores]
        exact rest
      · intro i item₁ item₁' here here'
        cases i with
        | zero =>
            cases here
            cases here'
            exact mirrors.frame steady
        | succ i => exact mirrors' i item₁ item₁' here here'
      · intro target made
        by_cases early : u₁.value target = none
        · have late : target ∈ newRefs u₂ u' := by
            refine ⟨?_, made.2⟩
            rw [same₂, Function.update_of_ne ?_, early]
            rintro rfl
            simp [made.1] at content
          obtain ⟨item', member, behind⟩ := complete' target late
          exact ⟨item', List.mem_cons_of_mem _ member,
            behind.frame (fun _ _ => rfl) (newRefs_mono first present').2⟩
        · exact ⟨new, List.mem_cons_self .., (complete target ⟨made.1, early⟩).frame steady
            (newRefs_mono (.of_kept kept₁) (present₂.trans present')).1⟩

/-- The keys that are in a new map are new strings, and none has the text of a key to come. -/
def KeysOf (base u : Universe κ) (acc rest : List (Ref × Ref)) : Prop :=
  ∀ entry ∈ acc, ∃ utf8 bytes, u.value entry.1 = some (.str utf8 (.own bytes)) ∧
    ∀ other ∈ rest, ¬ HasText base other.1 bytes

/-- A key that is not there is put behind the others. -/
theorem mapAssignKey_fresh {acc : List (Ref × Ref)} {hv key val : Ref} {utf8 : Bool}
    {bytes : List UInt8} (content : u.value hv = some (.map acc))
    (found : u.value key = some (.str utf8 (.own bytes)))
    (others : ∀ entry ∈ acc, ∃ utf8' bytes', u.value entry.1 = some (.str utf8' (.own bytes')) ∧
      bytes' ≠ bytes) :
    mapAssignKey (fuel + 1) u hv key val = store u hv (.map (acc ++ [(key, val)])) := by
  have absent : (acc.any fun entry => decide (strBytes u (fuel + 1) entry.1 =
      strBytes u (fuel + 1) key)) = false := by
    rw [List.any_eq_false]
    intro entry member
    obtain ⟨utf8', bytes', found', different⟩ := others entry member
    rw [strBytes_own found', strBytes_own found, decide_eq_true_iff, Option.some.injEq]
    exact different
  simp only [mapAssignKey, found, content, mapPut, absent]
  rfl

/-- Further entries of a map are copied into it. -/
theorem mapCopy_fills {copy : Universe κ → Ref → Option (Universe κ × Ref)} {place index : Nat}
    {entries acc : List (Ref × Ref)}
    (each : ∀ entry ∈ entries, Duplicated base world copy entry.1 ∧ Duplicated base world copy entry.2)
    (texts : ∀ entry ∈ entries, ∃ bytes, HasText base entry.1 bytes) (keyed : Keyed base entries)
    (ongoing : Ongoing base world u) (free : base.value (.slot place index) = none)
    (content : u.value (.slot place index) = some (.map acc)) (before : KeysOf base u acc entries) :
    ∃ u' news parts, (entries.foldlM (fun u entry => do
        let (u, key) ← copy u entry.1
        let (u, val) ← copy u entry.2
        mapAssignKey (fuel + 1) u (.slot place index) key val) u) = some u' ∧
      Ongoing base world u' ∧ KeptBut (.slot place index) u u' ∧
      u'.value (.slot place index) = some (.map (acc ++ news)) ∧ news.length = entries.length ∧
      Parted u u' parts ∧
      (∀ (i : Nat) (entry image : Ref × Ref), entries[i]? = some entry → news[i]? = some image →
        TextCopied base u' (newRefs u u') entry.1 image.1) ∧
      (∀ (i : Nat) (entry image : Ref × Ref), entries[i]? = some entry → news[i]? = some image →
        Mirrors base u' (parts i) entry.2 image.2) ∧
      ∀ target ∈ newRefs u u', ∃ image ∈ news, ∃ part ∈ [image.1, image.2],
        Behind u' (newRefs u u') part target := by
  induction entries generalizing u acc with
  | nil =>
      refine ⟨u, [], fun _ => ∅, rfl, ongoing, .refl, by simpa using content, rfl,
        ⟨fun _ => Set.empty_subset _, fun _ _ _ => Set.disjoint_empty _⟩,
        fun i entry image here => ?_, fun i entry image here => ?_,
        fun target new => absurd new.1 new.2⟩ <;> cases here
  | cons entry entries ih =>
      obtain ⟨copiesKey, copiesVal⟩ := each entry (List.mem_cons_self ..)
      obtain ⟨u₁, key, madeKey, ongoing₁, kept₁, mirrorsKey, completeKey⟩ := copiesKey u ongoing
      obtain ⟨u₂, val, madeVal, ongoing₂, kept₂, mirrorsVal, completeVal⟩ := copiesVal u₁ ongoing₁
      obtain ⟨bytes, text⟩ := texts entry (List.mem_cons_self ..)
      have copiedKey := mirrorsKey.textCopied text
      obtain ⟨utf8, found₁⟩ := copiedKey.found text
      have found₂ : u₂.value key = some (.str utf8 (.own bytes)) := by
        rw [kept₂ key (by simp [found₁]), found₁]
      have content₂ : u₂.value (.slot place index) = some (.map acc) := by
        rw [kept₂ _ (by simp [kept₁ _, content]), kept₁ _ (by simp [content]), content]
      have earlier (old : Ref × Ref) (member : old ∈ acc) : ∃ utf8' bytes',
          u₂.value old.1 = some (.str utf8' (.own bytes')) ∧
            ∀ other ∈ entry :: entries, ¬ HasText base other.1 bytes' := by
        obtain ⟨utf8', bytes', there, unlike⟩ := before old member
        refine ⟨utf8', bytes', ?_, unlike⟩
        rw [kept₂ _ (by simp [kept₁ _, there]), kept₁ _ (by simp [there]), there]
      obtain ⟨u₃, stores, ongoing₃, same₃⟩ :=
        ongoing₂.replace content₂ free (.map (acc ++ [(key, val)]))
      have content₃ : u₃.value (.slot place index) = some (.map (acc ++ [(key, val)])) := by
        rw [same₃, Function.update_self]
      have kept₃ : KeptBut (.slot place index) u₂ u₃ := .update same₃
      have text₃ {target : Ref} {utf8' : Bool} {bytes' : List UInt8}
          (there : u₂.value target = some (.str utf8' (.own bytes'))) :
          u₃.value target = some (.str utf8' (.own bytes')) := by
        rw [kept₃ target ?_ (by simp [there]), there]
        rintro rfl
        cases content₂.symm.trans there
      have further : KeysOf base u₃ (acc ++ [(key, val)]) entries := by
        intro old member
        rcases List.mem_append.mp member with member | last
        · obtain ⟨utf8', bytes', there, unlike⟩ := earlier old member
          exact ⟨utf8', bytes', text₃ there, fun other later =>
            unlike other (List.mem_cons_of_mem _ later)⟩
        · rw [List.mem_singleton.mp last]
          exact ⟨utf8, bytes, text₃ found₂, fun other later =>
            (List.pairwise_cons.mp keyed).1 other later bytes text⟩
      obtain ⟨u', news, parts, rest, ongoing', kept', content', length, parted, keys, vals, complete'⟩ :=
        ih (fun other member => each other (List.mem_cons_of_mem _ member))
          (fun other member => texts other (List.mem_cons_of_mem _ member))
          (List.pairwise_cons.mp keyed).2 ongoing₃ content₃ further
      have present₂ : Present u₁ u₃ := (Present.of_kept kept₂).trans
        (present_of_keptBut content₃ kept₃)
      have present' := present_of_keptBut content' kept'
      have first : KeptBut (.slot place index) u u₃ :=
        ((KeptBut.of_kept kept₁).trans (.of_kept kept₂)).trans kept₃
      have later : KeptBut (.slot place index) u₂ u' := kept₃.trans kept'
      have steadyKey (target : Ref) (mine : target ∈ newRefs u u₁) :
          u'.value target = u₁.value target := by
        rw [later target ?_ (by simp [kept₂ _ mine.2, mine.2]), kept₂ target mine.2]
        rintro rfl
        simp [mine.1] at content
      have steadyVal (target : Ref) (mine : target ∈ newRefs u₁ u₂) :
          u'.value target = u₂.value target := by
        refine later target ?_ mine.2
        rintro rfl
        have unset := mine.1
        rw [kept₁ _ (by simp [content]), content] at unset
        cases unset
      have present₁ : Present u u₃ := (Present.of_kept kept₁).trans present₂
      have insideVal : newRefs u₁ u₂ ⊆ newRefs u u₃ :=
        ((newRefs_mono (.of_kept kept₁) (.of_kept kept₂)).2).trans
          (newRefs_mono ((Present.of_kept kept₁).trans (.of_kept kept₂))
            (present_of_keptBut content₃ kept₃)).1
      refine ⟨u', (key, val) :: news, consPart (newRefs u₁ u₂) parts, ?_, ongoing', first.trans kept',
        by simpa using content', by simp [length], parted.cons insideVal present₁ present', ?_, ?_, ?_⟩
      · simp only [List.foldlM_cons, Option.bind_eq_bind, madeKey, madeVal, Option.bind_some]
        rw [mapAssignKey_fresh content₂ found₂ fun old member => ?_, stores, Option.bind_some]
        · exact rest
        · obtain ⟨utf8', bytes', there, unlike⟩ := earlier old member
          refine ⟨utf8', bytes', there, ?_⟩
          rintro rfl
          exact unlike entry (List.mem_cons_self ..) text
      · intro i entry₁ image here here'
        cases i with
        | zero =>
            cases here
            cases here'
            exact (copiedKey.frame steadyKey).mono
              (newRefs_mono (.of_kept kept₁) (present₂.trans present')).1
        | succ i =>
            exact (keys i entry₁ image here here').mono (newRefs_mono present₁ present').2
      · intro i entry₁ image here here'
        cases i with
        | zero =>
            cases here
            cases here'
            exact mirrorsVal.frame steadyVal
        | succ i => exact vals i entry₁ image here here'
      · intro target made
        by_cases early : u₁.value target = none
        · by_cases middle : u₂.value target = none
          · have late : target ∈ newRefs u₃ u' := by
              refine ⟨?_, made.2⟩
              rw [same₃, Function.update_of_ne ?_, middle]
              rintro rfl
              simp [made.1] at content
            obtain ⟨image, member, part, own, behind⟩ := complete' target late
            exact ⟨image, List.mem_cons_of_mem _ member, part, own,
              behind.frame (fun _ _ => rfl) (newRefs_mono present₁ present').2⟩
          · exact ⟨(key, val), List.mem_cons_self .., val, by simp,
              (completeVal target ⟨early, middle⟩).frame steadyVal
                (insideVal.trans (newRefs_mono present₁ present').1)⟩
        · exact ⟨(key, val), List.mem_cons_self .., key, by simp,
            (completeKey target ⟨made.1, early⟩).frame steadyKey
              (newRefs_mono (.of_kept kept₁) (present₂.trans present')).1⟩

/-- What is behind the parts of a new container is behind the container. -/
theorem behind_container {v : Value κ}
    (same : u₁.value = Function.update u.value retval (some v)) (present : Present u₁ u')
    (made : retval ∈ newRefs u u')
    (parts : ∀ target ∈ newRefs u₁ u', ∃ part ∈ u'.children retval,
      Behind u' (newRefs u₁ u') part target) :
    ∀ target ∈ newRefs u u', Behind u' (newRefs u u') retval target := by
  intro target new
  by_cases here : target = retval
  · rw [here]
    exact .refl
  · obtain ⟨part, member, behind⟩ := parts target
      ⟨by rw [same, Function.update_of_ne here]; exact new.1, new.2⟩
    have kept := kept_of_update same made.1
    exact .head ⟨made, member⟩
      (behind.frame (fun _ _ => rfl) (newRefs_mono (.of_kept kept) present).2)

theorem aryCopy_duplicates {copy : Universe κ → Ref → Option (Universe κ × Ref)} {items : List Ref}
    (each : ∀ item ∈ items, Duplicated base world copy item)
    (found : base.value source = some (.ary items)) (ongoing : Ongoing base world u) :
    ∃ u' result, aryCopy copy u world items = some (u', result) ∧ Ongoing base world u' ∧
      Produced base u u' source result := by
  obtain ⟨u₁, index, alloc, ongoing₁, unset, same⟩ := ongoing.alloc (.ary [])
  have content : u₁.value (.slot world index) = some (.ary []) := by rw [same, Function.update_self]
  obtain ⟨u', news, parts, loop, ongoing', kept', content', length, parted, mirrors, complete⟩ :=
    aryCopy_fills each ongoing₁ (ongoing.grown.free unset) content
  have kept₁ := kept_of_update same unset
  have present' := present_of_keptBut content' kept'
  have split := parted.split (.of_kept kept₁) present' unset (by simp [content])
  refine ⟨u', .slot world index, ?_, ongoing', keptBut_kept kept₁ kept' unset, ?_, ?_⟩
  · exact Option.bind_eq_some_iff.mpr ⟨_, alloc, Option.bind_eq_some_iff.mpr ⟨_, loop, rfl⟩⟩
  · exact .ary parts found content' split length mirrors
  · refine behind_container same present' split.mine fun target late => ?_
    obtain ⟨item, member, behind⟩ := complete target late
    refine ⟨item, ?_, behind⟩
    simpa only [Universe.children, content', Option.elim_some, Value.children, List.nil_append]
      using member

theorem mapCopy_duplicates {copy : Universe κ → Ref → Option (Universe κ × Ref)}
    {entries : List (Ref × Ref)}
    (each : ∀ entry ∈ entries, Duplicated base world copy entry.1 ∧ Duplicated base world copy entry.2)
    (texts : ∀ entry ∈ entries, ∃ bytes, HasText base entry.1 bytes) (keyed : Keyed base entries)
    (found : base.value source = some (.map entries)) (ongoing : Ongoing base world u) :
    ∃ u' result, mapCopy copy (fuel + 1) u world entries = some (u', result) ∧
      Ongoing base world u' ∧ Produced base u u' source result := by
  obtain ⟨u₁, index, alloc, ongoing₁, unset, same⟩ := ongoing.alloc (.map [])
  have content : u₁.value (.slot world index) = some (.map []) := by rw [same, Function.update_self]
  obtain ⟨u', news, parts, loop, ongoing', kept', content', length, parted, keys, vals, complete⟩ :=
    mapCopy_fills each texts keyed ongoing₁ (ongoing.grown.free unset) content
      fun entry member => by cases member
  have kept₁ := kept_of_update same unset
  have present' := present_of_keptBut content' kept'
  have split := parted.split (.of_kept kept₁) present' unset (by simp [content])
  refine ⟨u', .slot world index, ?_, ongoing', keptBut_kept kept₁ kept' unset, ?_, ?_⟩
  · exact Option.bind_eq_some_iff.mpr ⟨_, alloc, Option.bind_eq_some_iff.mpr ⟨_, loop, rfl⟩⟩
  · exact .map parts found content' split (.refl _) length
      (fun i entry image here here' => (keys i entry image here here').mono
        (newRefs_mono (.of_kept kept₁) present').2) vals
  · refine behind_container same present' split.mine fun target late => ?_
    obtain ⟨image, member, part, own, behind⟩ := complete target late
    refine ⟨part, ?_, behind⟩
    simp only [Universe.children, content', Option.elim_some, Value.children, List.nil_append]
    exact List.mem_flatMap.mpr ⟨image, member, own⟩

theorem opaqueCopy_duplicates {body : Nat} (found : base.value source = some (.opaqueRef body))
    (ongoing : Ongoing base world u) :
    ∃ u' result, opaqueCopy u world body = some (u', result) ∧ Ongoing base world u' ∧
      Produced base u u' source result := by
  have made : ∃ u₁ result, objAlloc u world (.opaqueRef body) = some (u₁, result) ∧
      Ongoing base world u₁ ∧ Produced base u u₁ source result :=
    ongoing.leaf _ fun content mine => .opaqueRef body found content mine
  obtain ⟨u₁, result, alloc, ongoing₁, kept, mirrors, complete⟩ := made
  -- the count of references is no part of what values hold
  refine ⟨_, result, Option.map_eq_some_iff.mpr ⟨_, alloc, rfl⟩, ⟨⟨ongoing₁.grown.wellFormed,
    ongoing₁.grown.classClass, ongoing₁.grown.kept⟩, ongoing₁.arenas⟩, kept, ?_,
    fun target new => (complete target new).frame (fun _ _ => rfl) subset_rfl⟩
  exact mirrors.frame fun _ _ => rfl

section Objects

variable [DecidableEq κ]

theorem objSetIvar_fills {klass : Ref} {place index : Nat} {acc : Bindings κ}
    (entries : List (Sigma fun _ : κ => Ref)) (ongoing : Ongoing base world u)
    (free : base.value (.slot place index) = none)
    (content : u.value (.slot place index) = some (.obj klass acc)) :
    ∃ u', (entries.foldlM (fun u entry => objSetIvar u (.slot place index) entry.1 entry.2) u) =
      some u' ∧ Ongoing base world u' ∧
        ∀ target, target ≠ .slot place index → u'.value target = u.value target := by
  induction entries generalizing u acc with
  | nil => exact ⟨u, rfl, ongoing, fun _ _ => rfl⟩
  | cons entry entries ih =>
      obtain ⟨u₁, stores, ongoing₁, same⟩ :=
        ongoing.replace content free (.obj klass (acc.insert entry.1 entry.2))
      obtain ⟨u', rest, ongoing', others⟩ := ih ongoing₁ (by rw [same, Function.update_self])
      refine ⟨u', ?_, ongoing', fun target elsewhere => by
        rw [others target elsewhere, same, Function.update_of_ne elsewhere]⟩
      simp only [List.foldlM_cons, Option.bind_eq_bind, objSetIvar, content, stores, Option.bind_some]
      exact rest

theorem objCopy_duplicates {klass : Ref} {ivars : Bindings κ}
    (found : base.value source = some (.obj klass ivars))
    (isObj : ∃ metaklass fields, base.value klass = some (.obj metaklass fields))
    (ongoing : Ongoing base world u) :
    ∃ u' result, objCopy u world klass ivars = some (u', result) ∧ Ongoing base world u' ∧
      Produced base u u' source result := by
  obtain ⟨metaklass, fields, isObj⟩ := isObj
  have isObj' : u.value klass = some (.obj metaklass fields) := by
    rw [ongoing.grown.kept klass (by simp [isObj]), isObj]
  obtain ⟨u₁, index, alloc, ongoing₁, unset, same⟩ := ongoing.alloc (.obj klass ∅)
  have content : u₁.value (.slot world index) = some (.obj klass ∅) := by
    rw [same, Function.update_self]
  have free := ongoing.grown.free unset
  obtain ⟨u', loop, ongoing', others⟩ :=
    objSetIvar_fills ivars.entries ongoing₁ free content
  obtain ⟨-, kept', content'⟩ := objSetIvar_loop ongoing₁.grown free content loop
  refine ⟨u', .slot world index, ?_, ongoing', keptBut_kept (kept_of_update same unset) kept' unset,
    .obj klass found content' (fun _ => mem_putAll_iff) ⟨unset, by simp [content']⟩, ?_⟩
  · simp only [objCopy, objNew, isObj', Option.bind_eq_bind, alloc, Option.bind_some, loop]
    rfl
  · intro target new
    have here : target = .slot world index := by
      by_contra elsewhere
      refine new.2 ?_
      rw [others target elsewhere, same, Function.update_of_ne elsewhere, new.1]
    rw [here]
    exact .refl

/-- The fuel that is enough for all parts. -/
private theorem exists_enough {α : Type} {p : Nat → α → Prop} {l : List α}
    (each : ∀ x ∈ l, ∃ enough, ∀ fuel ≥ enough, p fuel x) :
    ∃ enough, ∀ fuel ≥ enough, ∀ x ∈ l, p fuel x := by
  induction l with
  | nil => exact ⟨0, fun _ _ _ member => by cases member⟩
  | cons x xs ih =>
      obtain ⟨first, holds⟩ := each x (List.mem_cons_self ..)
      obtain ⟨others, hold⟩ := ih fun y member => each y (List.mem_cons_of_mem _ member)
      refine ⟨max first others, fun fuel enough y member => ?_⟩
      rcases List.mem_cons.mp member with rfl | later
      · exact holds fuel (by omega)
      · exact hold fuel (by omega) y later

/-- A finite value is copied. -/
theorem valCopy_duplicates (unfolds : Unfolds base source) :
    ∃ enough, ∀ fuel ≥ enough, Duplicated base world (valCopy world fuel) source := by
  induction unfolds with
  | @intro source sendable _ ih =>
  have slotted {v : Value κ} (found : base.value source = some v) {u : Universe κ}
      (ongoing : Ongoing base world u) : u.value source = some v := by
    rw [ongoing.grown.kept source (by simp [found]), found]
  cases sendable with
  | nil same =>
      subst same
      refine ⟨1, fun fuel enough u ongoing => ?_⟩
      obtain ⟨fuel, rfl⟩ := Nat.exists_eq_add_of_le' enough
      exact ⟨u, .nil, rfl, ongoing, fun _ _ => rfl, .constant (.inl rfl),
        fun _ new => absurd new.1 new.2⟩
  | bool truth same =>
      subst same
      refine ⟨1, fun fuel enough u ongoing => ?_⟩
      obtain ⟨fuel, rfl⟩ := Nat.exists_eq_add_of_le' enough
      exact ⟨u, _, rfl, ongoing, fun _ _ => rfl, .constant (.inr ⟨truth, rfl⟩),
        fun _ new => absurd new.1 new.2⟩
  | int i found =>
      refine ⟨1, fun fuel enough u ongoing => ?_⟩
      obtain ⟨fuel, rfl⟩ := Nat.exists_eq_add_of_le' enough
      rw [valCopy_succ (slotted found ongoing)]
      exact ongoing.leaf _ fun content mine => .int i found content mine
  | num bits found =>
      refine ⟨1, fun fuel enough u ongoing => ?_⟩
      obtain ⟨fuel, rfl⟩ := Nat.exists_eq_add_of_le' enough
      rw [valCopy_succ (slotted found ongoing)]
      exact ongoing.leaf _ fun content mine => .num bits found content mine
  | str bytes text =>
      obtain ⟨utf8, content, found⟩ := text.isStr
      obtain ⟨least, read⟩ := text
      refine ⟨least + 1, fun fuel enough u ongoing => ?_⟩
      obtain ⟨fuel, rfl⟩ := Nat.exists_eq_add_of_le' (Nat.le_trans (Nat.le_add_left 1 least) enough)
      rw [valCopy_succ (slotted found ongoing)]
      simp only [strBytes_mono read ongoing.grown.kept (Nat.le_trans (Nat.le_succ _) enough),
        Option.bind_some]
      exact ongoing.leaf _ fun content' mine =>
        .str ⟨utf8, content, bytes, found, ⟨least, read⟩, content', mine⟩
  | ary items found =>
      obtain ⟨least, each⟩ := exists_enough fun item member => ih item (.inl ⟨items, found, member⟩)
      refine ⟨least + 1, fun fuel enough u ongoing => ?_⟩
      obtain ⟨fuel, rfl⟩ := Nat.exists_eq_add_of_le' (Nat.le_trans (Nat.le_add_left 1 least) enough)
      rw [valCopy_succ (slotted found ongoing)]
      exact aryCopy_duplicates (each fuel (Nat.le_of_succ_le_succ enough)) found ongoing
  | map entries found texts keyed =>
      obtain ⟨least, each⟩ := exists_enough
        (p := fun fuel (entry : Ref × Ref) => Duplicated base world (valCopy world fuel) entry.1 ∧
          Duplicated base world (valCopy world fuel) entry.2) (l := entries) fun entry member => by
        obtain ⟨key, hold⟩ := ih entry.1 (.inr ⟨entries, entry, found, member, .inl rfl⟩)
        obtain ⟨val, hold'⟩ := ih entry.2 (.inr ⟨entries, entry, found, member, .inr rfl⟩)
        exact ⟨max key val, fun fuel enough => ⟨hold fuel (by omega), hold' fuel (by omega)⟩⟩
      refine ⟨least + 1, fun fuel enough u ongoing => ?_⟩
      obtain ⟨fuel, rfl⟩ := Nat.exists_eq_add_of_le' (Nat.le_trans (Nat.le_add_left 1 least) enough)
      rw [valCopy_succ (slotted found ongoing)]
      exact mapCopy_duplicates (each fuel (Nat.le_of_succ_le_succ enough)) texts keyed found ongoing
  | obj klass ivars found isObj =>
      refine ⟨1, fun fuel enough u ongoing => ?_⟩
      obtain ⟨fuel, rfl⟩ := Nat.exists_eq_add_of_le' enough
      rw [valCopy_succ (slotted found ongoing)]
      exact objCopy_duplicates found isObj ongoing
  | opaqueRef body found =>
      refine ⟨1, fun fuel enough u ongoing => ?_⟩
      obtain ⟨fuel, rfl⟩ := Nat.exists_eq_add_of_le' enough
      rw [valCopy_succ (slotted found ongoing)]
      exact opaqueCopy_duplicates found ongoing

end Objects

/-! ## Looking up a key -/

/-- `pone_map_at_key`. -/
def mapAtKey (fuel : Nat) (u : Universe κ) (self key : Ref) : Option Ref :=
  match u.value key, u.value self with
  | some (.str _ _), some (.map entries) =>
      let found := entries.find? fun entry => strBytes u fuel entry.1 = strBytes u fuel key
      some (found.elim .nil Prod.snd)
  | _, _ => none

/-- What a map holds under a text: the value of an entry, or `nil` where no key has the text. -/
def Holds (u : Universe κ) (entries : List (Ref × Ref)) (bytes : List UInt8) (val : Ref) : Prop :=
  (∃ entry ∈ entries, HasText u entry.1 bytes ∧ entry.2 = val) ∨
    (∀ entry ∈ entries, ¬ HasText u entry.1 bytes) ∧ val = .nil

theorem mapAtKey_holds {self key : Ref} {entries : List (Ref × Ref)} {bytes : List UInt8}
    (found : u.value self = some (.map entries))
    (texts : ∀ entry ∈ entries, ∃ bytes, HasText u entry.1 bytes) (text : HasText u key bytes) :
    ∃ enough, ∀ fuel ≥ enough, ∃ val, mapAtKey fuel u self key = some val ∧
      Holds u entries bytes val := by
  obtain ⟨utf8, content, isStr⟩ := text.isStr
  obtain ⟨keyFuel, read⟩ := text
  obtain ⟨least, each⟩ := exists_enough
    (p := fun fuel (entry : Ref × Ref) => ∃ bytes, strBytes u fuel entry.1 = some bytes)
    fun entry member => by
      obtain ⟨bytes', fuel, read'⟩ := texts entry member
      exact ⟨fuel, fun _ enough => ⟨bytes', strBytes_mono read' (fun _ _ => rfl) enough⟩⟩
  refine ⟨max keyFuel least, fun fuel enough => ⟨_, by rw [mapAtKey, isStr, found], ?_⟩⟩
  have read' : strBytes u fuel key = some bytes := strBytes_mono read (fun _ _ => rfl) (by omega)
  rw [read']
  cases search : entries.find? fun entry => decide (strBytes u fuel entry.1 = some bytes) with
  | some entry =>
      exact .inl ⟨entry, List.mem_of_find?_eq_some search,
        ⟨fuel, by simpa using List.find?_some search⟩, rfl⟩
  | none =>
      refine .inr ⟨fun entry member text => ?_, rfl⟩
      obtain ⟨bytes', own⟩ := each fuel (by omega) entry member
      have different := List.find?_eq_none.mp search entry member
      rw [own, text.unique ⟨fuel, own⟩] at different
      simp at different

/-- The entries of a map and of its mirror, by their texts. -/
structure Matched (base u : Universe κ) (entries held : List (Ref × Ref)) (parts : Nat → Set Ref) :
    Prop where
  image : ∀ (i : Nat) (entry : Ref × Ref) (bytes : List UInt8), entries[i]? = some entry →
    HasText base entry.1 bytes → ∃ image ∈ held, HasText u image.1 bytes ∧
      Mirrors base u (parts i) entry.2 image.2 ∧
        ∀ other ∈ held, HasText u other.1 bytes → other = image
  origin : ∀ image ∈ held, ∃ entry ∈ entries, ∃ bytes, HasText base entry.1 bytes ∧
    HasText u image.1 bytes

/-- A text stands at one position. -/
theorem Keyed.position {entries : List (Ref × Ref)} {entry other : Ref × Ref} {bytes : List UInt8}
    {i j : Nat} (keyed : Keyed u entries) (here : entries[i]? = some entry)
    (there : entries[j]? = some other) (left : HasText u entry.1 bytes)
    (right : HasText u other.1 bytes) : i = j := by
  obtain ⟨inside, rfl⟩ := List.getElem?_eq_some_iff.mp here
  obtain ⟨inside', rfl⟩ := List.getElem?_eq_some_iff.mp there
  rcases Nat.lt_trichotomy i j with before | same | after
  · exact absurd right (List.pairwise_iff_getElem.mp keyed i j inside inside' before _ left)
  · exact same
  · exact absurd left (List.pairwise_iff_getElem.mp keyed j i inside' inside after _ right)

theorem Mirrors.matched {entries : List (Ref × Ref)} (mirrors : Mirrors base u own source copy)
    (found : base.value source = some (.map entries))
    (texts : ∀ entry ∈ entries, ∃ bytes, HasText base entry.1 bytes) (keyed : Keyed base entries) :
    ∃ held parts, u.value copy = some (.map held) ∧ Split own copy parts ∧
      Matched base u entries held parts := by
  cases mirrors with
  | constant constant => obtain rfl | ⟨truth, rfl⟩ := constant <;> cases found
  | str copied =>
      obtain ⟨_, _, _, found', -⟩ := copied
      cases found.symm.trans found'
  | int _ found' | num _ found' | ary _ found' | obj _ found' | opaqueRef _ found' =>
      cases found.symm.trans found'
  | @map _ _ _ parts _ images held found' content split order length keys vals =>
  cases found.symm.trans found'
  have entry_of {image : Ref × Ref} (member : image ∈ held) : ∃ (j : Nat) (entry : Ref × Ref),
      entries[j]? = some entry ∧ images[j]? = some image := by
    obtain ⟨j, there⟩ := List.mem_iff_getElem?.mp (order.mem_iff.mp member)
    have inside : j < entries.length := length ▸ (List.getElem?_eq_some_iff.mp there).1
    exact ⟨j, _, List.getElem?_eq_getElem inside, there⟩
  have text_of {j : Nat} {entry image : Ref × Ref} (here : entries[j]? = some entry)
      (there : images[j]? = some image) : ∃ bytes, HasText base entry.1 bytes ∧
        HasText u image.1 bytes := by
    obtain ⟨bytes, text⟩ := texts entry (List.mem_of_getElem? here)
    obtain ⟨_, own⟩ := (keys j entry image here there).found text
    exact ⟨bytes, text, .own own⟩
  refine ⟨held, parts, content, split, fun i entry bytes here text => ?_, fun image member => ?_⟩
  · have inside : i < images.length := length ▸ (List.getElem?_eq_some_iff.mp here).1
    have there := List.getElem?_eq_getElem inside
    refine ⟨images[i], order.mem_iff.mpr (List.getElem_mem inside), ?_, vals i entry _ here there,
      fun other member text' => ?_⟩
    · obtain ⟨_, own⟩ := (keys i entry _ here there).found text
      exact .own own
    · obtain ⟨j, entry', here', there'⟩ := entry_of member
      obtain ⟨bytes', left, right⟩ := text_of here' there'
      obtain rfl := text'.unique right
      obtain rfl := keyed.position here here' text left
      exact Option.some.inj (there'.symm.trans there)
  · obtain ⟨j, entry, here, there⟩ := entry_of member
    obtain ⟨bytes, left, right⟩ := text_of here there
    exact ⟨entry, List.mem_of_getElem? here, bytes, left, right⟩

theorem Mirrors.items {items : List Ref} (mirrors : Mirrors base u own source copy)
    (found : base.value source = some (.ary items)) :
    ∃ items' parts, u.value copy = some (.ary items') ∧ Split own copy parts ∧
      items'.length = items.length ∧ ∀ (i : Nat) (item item' : Ref), items[i]? = some item →
        items'[i]? = some item' → Mirrors base u (parts i) item item' := by
  cases mirrors with
  | ary parts found' content split length each =>
      cases found.symm.trans found'
      exact ⟨_, parts, content, split, length, each⟩
  | constant constant => obtain rfl | ⟨truth, rfl⟩ := constant <;> cases found
  | str copied =>
      obtain ⟨_, _, _, found', -⟩ := copied
      cases found.symm.trans found'
  | int _ found' | num _ found' | map _ found' | obj _ found' | opaqueRef _ found' =>
      cases found.symm.trans found'

/-- The copy of a map holds the copy of each value, under the same text. -/
theorem Mirrors.lookup {entries : List (Ref × Ref)} {key key' : Ref} {bytes : List UInt8}
    (mirrors : Mirrors base u own source copy) (found : base.value source = some (.map entries))
    (texts : ∀ entry ∈ entries, ∃ bytes, HasText base entry.1 bytes) (keyed : Keyed base entries)
    (text : HasText base key bytes) (text' : HasText u key' bytes) :
    ∃ enough, ∀ fuel ≥ enough, ∃ val val' part, mapAtKey fuel base source key = some val ∧
      mapAtKey fuel u copy key' = some val' ∧ Mirrors base u part val val' := by
  obtain ⟨held, parts, found', -, matched⟩ := mirrors.matched found texts keyed
  have texts' (image : Ref × Ref) (member : image ∈ held) : ∃ bytes, HasText u image.1 bytes := by
    obtain ⟨_, -, bytes', -, right⟩ := matched.origin image member
    exact ⟨bytes', right⟩
  obtain ⟨least, search⟩ := mapAtKey_holds found texts text
  obtain ⟨least', search'⟩ := mapAtKey_holds found' texts' text'
  refine ⟨max least least', fun fuel enough => ?_⟩
  obtain ⟨val, looked, holds⟩ := search fuel (by omega)
  obtain ⟨val', looked', holds'⟩ := search' fuel (by omega)
  rcases holds with ⟨entry, member, left, rfl⟩ | ⟨absent, rfl⟩
  · obtain ⟨i, here⟩ := List.mem_iff_getElem?.mp member
    obtain ⟨image, listed, right, mirrors', only⟩ := matched.image i entry bytes here left
    rcases holds' with ⟨other, member', right', rfl⟩ | ⟨absent, -⟩
    · obtain rfl := only other member' right'
      exact ⟨_, _, _, looked, looked', mirrors'⟩
    · exact absurd right (absent image listed)
  · rcases holds' with ⟨image, member', right', rfl⟩ | ⟨-, rfl⟩
    · obtain ⟨entry, member, bytes', left, right⟩ := matched.origin image member'
      rw [right'.unique right] at absent
      exact absurd left (absent entry member)
    · exact ⟨_, _, ∅, looked, looked', .constant (.inl rfl)⟩

/-! ## The copy of a finite value -/

/-- The copy has the shape of the source, which is as it was, and each map in it answers as its
source does. -/
structure CopyEqual (u u' : Universe κ) (source copy : Ref) : Prop where
  unchanged : Sharing.Kept u.value u'.value
  mirrors : Mirrors u u' (newRefs u u') source copy
  lookups : ∀ {own : Set Ref} {map map' key key' : Ref} {entries : List (Ref × Ref)}
    {bytes : List UInt8}, Mirrors u u' own map map' → Sendable u map →
    u.value map = some (.map entries) → HasText u key bytes → HasText u' key' bytes →
    ∃ enough, ∀ fuel ≥ enough, ∃ val val' part, mapAtKey fuel u map key = some val ∧
      mapAtKey fuel u' map' key' = some val' ∧ Mirrors u u' part val val'

theorem Sendable.map_texts {entries : List (Ref × Ref)} (sendable : Sendable u source)
    (found : u.value source = some (.map entries)) :
    (∀ entry ∈ entries, ∃ bytes, HasText u entry.1 bytes) ∧ Keyed u entries := by
  cases sendable with
  | map entries' found' texts keyed =>
      cases found.symm.trans found'
      exact ⟨texts, keyed⟩
  | nil same | bool _ same =>
      subst same
      cases found
  | str bytes text =>
      obtain ⟨_, _, isStr⟩ := text.isStr
      cases found.symm.trans isStr
  | int _ found' | num _ found' | ary _ found' | obj _ _ found' | opaqueRef _ found' =>
      cases found.symm.trans found'

theorem ongoing_of_reached [DecidableEq κ] (reached : Reached u) (inside : world < u.worlds.length) :
    Ongoing u world u :=
  ⟨⟨reached.wellFormed, rfl, fun _ _ => rfl⟩, by
    simp [Universe.allocator, List.getElem?_eq_getElem inside]⟩

/-- A finite value is copied to a value of the same shape. -/
theorem valCopy_equal [DecidableEq κ] (reached : Reached u) (inside : world < u.worlds.length)
    (unfolds : Unfolds u source) :
    ∃ enough, ∀ fuel ≥ enough, ∃ u' copy, valCopy world fuel u source = some (u', copy) ∧
      CopyEqual u u' source copy := by
  obtain ⟨enough, duplicates⟩ : ∃ enough, ∀ fuel ≥ enough,
      Duplicated u world (valCopy world fuel) source := valCopy_duplicates unfolds
  refine ⟨enough, fun fuel more => ?_⟩
  obtain ⟨u', copy, copied, -, kept, mirrors, -⟩ :=
    duplicates fuel more u (ongoing_of_reached reached inside)
  refine ⟨u', copy, copied, kept, mirrors, fun mirrors' sendable found text text' => ?_⟩
  obtain ⟨texts, keyed⟩ := sendable.map_texts found
  exact mirrors'.lookup found texts keyed text text'

end Shape

/-! ## A map with a list -/

/-- The map `{"a" => [1, "a"]}` as 4 in the first world, and a second world. -/
def nestedMap : List (Op Nat) :=
  [.worldNew, .alloc 0 (.str true (.own [97])), .alloc 0 (.ary [.constInt 1, .slot 0 2]),
    .alloc 0 (.map [(.slot 0 2, .slot 0 3)]), .worldNew]

def beforeCopy : Universe Nat := (Execution.run step universeInit nestedMap).getD universeInit

set_option maxRecDepth 10000 in
theorem reached_beforeCopy : Reached beforeCopy := by
  have runs : (Execution.run step universeInit nestedMap).isSome = true := by decide +kernel
  exact Reached.init.run (eq_some_getD runs _)

set_option maxRecDepth 10000 in
theorem unfolds_beforeCopy : Unfolds beforeCopy (.slot 0 4) := by
  have key : beforeCopy.value (.slot 0 2) = some (.str true (.own [97])) := by decide +kernel
  have items : beforeCopy.value (.slot 0 3) = some (.ary [.constInt 1, .slot 0 2]) := by
    decide +kernel
  have map : beforeCopy.value (.slot 0 4) = some (.map [(.slot 0 2, .slot 0 3)]) := by decide +kernel
  have unfoldsKey : Unfolds beforeCopy (.slot 0 2) := .leaf (.str [97] (.own key))
    (by simp [key]) (by simp [key])
  have unfoldsInt : Unfolds beforeCopy (.constInt 1) := .leaf (.int 1 rfl)
    (by simp [Universe.value]) (by simp [Universe.value])
  have unfoldsItems : Unfolds beforeCopy (.slot 0 3) := by
    refine .intro (.ary _ items) fun child contained => ?_
    rcases contained with ⟨items', same, member⟩ | ⟨entries, entry, same, -⟩
    · cases items.symm.trans same
      rcases List.mem_pair.mp member with rfl | rfl
      · exact unfoldsInt
      · exact unfoldsKey
    · cases items.symm.trans same
  refine .intro (.map _ map ?_ (List.pairwise_singleton ..)) fun child contained => ?_
  · rintro entry member
    rw [List.mem_singleton.mp member]
    exact ⟨[97], .own key⟩
  · rcases contained with ⟨items', same, -⟩ | ⟨entries, entry, same, member, part⟩
    · cases map.symm.trans same
    · cases map.symm.trans same
      obtain rfl := List.mem_singleton.mp member
      rcases part with rfl | rfl
      · exact unfoldsKey
      · exact unfoldsItems

set_option maxRecDepth 10000 in
theorem valCopy_equal_nested :
    ∃ enough, ∀ fuel ≥ enough, ∃ u' copy,
      valCopy 1 fuel beforeCopy (.slot 0 4) = some (u', copy) ∧
        CopyEqual beforeCopy u' (.slot 0 4) copy :=
  valCopy_equal reached_beforeCopy (by decide +kernel) unfolds_beforeCopy

end Heap
end Pone
