import Pone.Heap.Leaks

/-!
# What `pone_val_copy` makes

A copy is new, keeps every value that was there, and carries exactly the leaks of its source.
-/

namespace Pone
namespace Heap

section Deep

variable {κ : Type} {base start u u' u₁ u₂ : Universe κ} {world fuel : Nat}
  {source result retval leak : Ref} {v : Value κ}
  {copy : Universe κ → Ref → Option (Universe κ × Ref)}

/-- What one copy does to the universe. -/
structure Copied (base u u' : Universe κ) (source result : Ref) : Prop where
  grown : Grown base u'
  kept : Sharing.Kept u.value u'.value
  new : Sharing.New u.value u'.value result ∨ (sharing (κ := κ) base.classClass).constant result
  settled : Settled base u u' source result
  text : ∀ utf8 text, u'.value result = some (.str utf8 text) →
    ∃ fuel bytes, text = .own bytes ∧ strBytes base fuel source = some bytes

def Copies (base : Universe κ) (copy : Universe κ → Ref → Option (Universe κ × Ref)) : Prop :=
  ∀ ⦃u source u' result⦄, Grown base u →
    Sharing.Live (sharing base.classClass) base.value [source] → copy u source = some (u', result) →
    Copied base u u' source result

/-! ## Texts -/

/-- The text of a string is the same while its copying is in progress. -/
theorem Grown.strBytes_eq (grown : Grown base u)
    (live : Sharing.Live (sharing base.classClass) base.value [source]) :
    strBytes u fuel source = strBytes base fuel source := by
  induction fuel generalizing source with
  | zero => rfl
  | succ fuel ih =>
      rw [strBytes, strBytes, grown.agrees live]
      cases found : base.value source with
      | none => rfl
      | some v =>
          cases v with
          | str utf8 text =>
              cases text with
              | own bytes => rfl
              | copyOf origin => exact ih (live_child live ⟨_, found, List.mem_singleton_self _⟩)
          | int | num | ary | map | code | obj | lex | opaqueRef => rfl

theorem strBytes_own {utf8 : Bool} {bytes : List UInt8} {ref : Ref}
    (found : u.value ref = some (.str utf8 (.own bytes))) : strBytes u (fuel + 1) ref = some bytes := by
  simp only [strBytes, found]

/-- Whatever the fuel, there is one text. -/
theorem strBytes_unique {fuel' : Nat} {ref : Ref} {left right : List UInt8}
    (first : strBytes u fuel ref = some left) (second : strBytes u fuel' ref = some right) :
    left = right := by
  induction fuel generalizing fuel' ref with
  | zero => cases first
  | succ fuel ih =>
      cases fuel' with
      | zero => cases second
      | succ fuel' =>
          simp only [strBytes] at first second
          split at first
          case h_1 found =>
            simp only [found] at second
            exact Option.some.inj (first.symm.trans second)
          case h_2 found =>
            simp only [found] at second
            exact ih first second
          case h_3 => cases first

/-! ## Values without pointers -/

theorem kept_of_update (same : u'.value = Function.update u.value result (some v))
    (free : u.value result = none) : Sharing.Kept u.value u'.value :=
  same ▸ Sharing.Kept.update free

/-- A value that points to nothing leads to itself only. -/
theorem reaches_leaf {target : Ref} (content : u.value result = some v) (leaf : v.children = [])
    (reaches : Sharing.Reaches (sharing base.classClass) u.value [result] target) :
    target = result := by
  rcases Sharing.reaches_singleton_iff.mp reaches with same | ⟨child, ⟨v', found, pointer⟩, -⟩
  · exact same
  · cases content.symm.trans found
    simp only [sharing, leaf, ite_self, List.not_mem_nil] at pointer

theorem copied_leaf (grown : Grown base u) (executed : objAlloc u world v = some (u', result))
    (leaf : v.children = []) (tight : ∀ leak, ¬ Leaks base source leak)
    (text : ∀ utf8 text, v = .str utf8 text →
      ∃ fuel bytes, text = .own bytes ∧ strBytes base fuel source = some bytes) :
    Copied base u u' source result := by
  obtain ⟨grown', free, same⟩ := grown.alloc executed
  have content : u'.value result = some v := by rw [same, Function.update_self]
  have new : Sharing.New u.value u'.value result := ⟨free, by simp [content]⟩
  refine ⟨grown', kept_of_update same free, .inl new, ⟨fun target reaches => .inl ?_,
    fun leak leaking => absurd leaking (tight leak)⟩, fun utf8 t found => text utf8 t ?_⟩
  · exact reaches_leaf content leaf reaches ▸ new
  · exact Option.some.inj (content.symm.trans found)

/-- Values that are neither objects nor containers of copies leak nothing. -/
theorem not_leaks_of_value (found : base.value source = some v)
    (kind : ∀ klass ivars, v ≠ .obj klass ivars) (items : ∀ items, v ≠ .ary items)
    (entries : ∀ entries, v ≠ .map entries) : ¬ Leaks base source leak := by
  intro leaking
  rcases leaks_iff.mp leaking with ⟨klass, ivars, same, -⟩ | ⟨child, copied, -⟩
  · exact kind klass ivars (Option.some.inj (found.symm.trans same))
  · rcases copied with ⟨members, same, -⟩ | ⟨front, key, back, same, -⟩
    · exact items members (Option.some.inj (found.symm.trans same))
    · exact entries _ (Option.some.inj (found.symm.trans same))

theorem opaqueCopy_copied {body : Nat} (grown : Grown base u)
    (found : base.value source = some (.opaqueRef body))
    (executed : opaqueCopy u world body = some (u', result)) : Copied base u u' source result := by
  obtain ⟨⟨u₁, ref⟩, alloc, same⟩ := Option.map_eq_some_iff.mp executed
  cases same
  have copied : Copied base u u₁ source result := copied_leaf grown alloc rfl
    (fun leak => not_leaks_of_value found (by simp) (by simp) (by simp)) (by simp)
  -- the count of references is no part of what values hold
  exact ⟨⟨copied.grown.wellFormed, copied.grown.classClass, copied.grown.kept⟩, copied.kept,
    copied.new, ⟨copied.settled.confined, copied.settled.carries⟩, copied.text⟩

/-- `nil` and the booleans are their own copies. -/
theorem constant_copied (grown : Grown base u)
    (constant : (sharing (κ := κ) base.classClass).constant source) : Copied base u u source source := by
  have unset := constant_value (u := base) constant
  have leaf (target : Ref)
      (reaches : Sharing.Reaches (sharing base.classClass) u.value [source] target) :
      target = source := by
    rcases Sharing.reaches_singleton_iff.mp reaches with same | ⟨child, ⟨v', found, -⟩, -⟩
    · exact same
    · rw [constant_value constant] at found
      cases found
  have tight (leak : Ref) : ¬ Leaks base source leak := by
    intro leaking
    rcases leaks_iff.mp leaking with ⟨klass, ivars, same, -⟩ | ⟨child, copied, -⟩
    · cases unset.symm.trans same
    · rcases copied with ⟨items, same, -⟩ | ⟨front, key, back, same, -⟩ <;>
        cases unset.symm.trans same
  refine ⟨grown, fun _ _ => rfl, .inr constant, ⟨fun target reaches => .inr (.inl ?_),
    fun leak leaking => absurd leaking (tight leak)⟩, fun utf8 text found => ?_⟩
  · exact leaf target reaches ▸ constant
  · rw [constant_value constant] at found
    cases found

/-! ## Containers -/

/-- A value that is made empty and then filled, with pointers that lead where they may and that carry
the leaks of the source. -/
theorem copied_container (grown : Grown base u) (alloc : objAlloc u world v = some (u₁, retval))
    (filled : Grown base u₁ → u₁.value retval = some v → base.value retval = none →
      Grown base u' ∧ KeptBut retval u₁ u' ∧ ∃ v', u'.value retval = some v' ∧
        (∀ utf8 text, v' ≠ .str utf8 text) ∧
        (∀ child ∈ (sharing base.classClass).pointers v',
          Sharing.Confined (sharing base.classClass) (Leaks base source) base.value u.value u'.value
            child) ∧
        ∀ leak, Leaks base source leak → ∃ child ∈ (sharing base.classClass).pointers v',
          Sharing.Reaches (sharing base.classClass) (added u u') [child] leak) :
    Copied base u u' source retval := by
  obtain ⟨grown₁, free, same⟩ := grown.alloc alloc
  obtain ⟨grown', kept, v', content, not_text, confined, carried⟩ :=
    filled grown₁ (by rw [same, Function.update_self]) (grown.free free)
  have new : Sharing.New u.value u'.value retval := ⟨free, by simp [content]⟩
  refine ⟨grown', fun target set => ?_, .inl new, ⟨fun target reaches => ?_, fun leak leaking => ?_⟩,
    fun utf8 text found => ?_⟩
  · have elsewhere : target ≠ retval := by
      rintro rfl
      exact set free
    have first := kept_of_update same free target set
    rw [kept target elsewhere (first ▸ set), first]
  · rcases Sharing.reaches_singleton_iff.mp reaches with rfl | ⟨child, ⟨v'', found, pointer⟩, behind⟩
    · exact .inl new
    · cases content.symm.trans found
      exact confined child pointer target behind
  · obtain ⟨child, pointer, reaches⟩ := carried leak leaking
    refine Sharing.reaches_singleton_iff.mpr (.inr ⟨child, ⟨v', ?_, pointer⟩, reaches⟩)
    rw [added, free, if_neg (by simp), content]
  · exact absurd (Option.some.inj (content.symm.trans found)) (not_text utf8 text)

/-- What settles in a container counts for the container. -/
theorem confined_of_child {child : Ref}
    (confined : Sharing.Confined (sharing base.classClass) (Leaks base child) base.value start.value
      u.value result)
    (copied : CopiedInto base source child) :
    Sharing.Confined (sharing base.classClass) (Leaks base source) base.value start.value u.value
      result := fun target reaches =>
  (confined target reaches).imp_right <| Or.imp_right fun ⟨leak, leaking, behind⟩ =>
    ⟨leak, leaks_iff.mpr (.inr ⟨child, copied, leaking⟩), behind⟩

/-- The universe in which a container has been made and the later ones. -/
theorem present_of_keptBut (content : u'.value retval = some v) (kept : KeptBut retval u u')
    (target : Ref) (set : u.value target ≠ none) : u'.value target ≠ none := by
  by_cases here : target = retval
  · simp [here, content]
  · rw [kept target here set]
    exact set

theorem aryCopy_loop (copies : Copies base copy) {items done acc : List Ref}
    (started : start.value retval ≠ none)
    (present : ∀ target, start.value target ≠ none → u.value target ≠ none)
    (grown : Grown base u) (free : base.value retval = none)
    (content : u.value retval = some (.ary acc))
    (live : ∀ item ∈ done ++ items, Sharing.Live (sharing base.classClass) base.value [item])
    (settled : List.Forall₂ (Settled base start u) done acc)
    (executed : items.foldlM (fun u item => do
      let (u, item) ← copy u item
      aryPush u retval item) u = some u') :
    Grown base u' ∧ KeptBut retval u u' ∧ ∃ acc', u'.value retval = some (.ary acc') ∧
      List.Forall₂ (Settled base start u') (done ++ items) acc' := by
  induction items generalizing u done acc with
  | nil =>
      cases executed
      exact ⟨grown, .refl, acc, content, by rwa [List.append_nil]⟩
  | cons item items ih =>
      simp only [List.foldlM_cons, Option.bind_eq_bind, Option.bind_eq_some_iff, Prod.exists] at executed
      obtain ⟨pushed, ⟨u₁, copied, copies_item, pushes⟩, rest⟩ := executed
      have live_item := live item (by simp)
      have spec := copies grown live_item copies_item
      have content₁ : u₁.value retval = some (.ary acc) := by
        rw [spec.kept retval (by simp [content]), content]
      simp only [aryPush, content₁] at pushes
      obtain ⟨grown₂, same⟩ := spec.grown.store pushes free
      have content₂ : pushed.value retval = some (.ary (acc ++ [copied])) := by
        rw [same, Function.update_self]
      have kept₂ : KeptBut retval u pushed := (KeptBut.of_kept spec.kept).trans (.update same)
      have present₂ (target : Ref) (set : start.value target ≠ none) : pushed.value target ≠ none :=
        present_of_keptBut content₂ kept₂ target (present target set)
      have settled₂ : List.Forall₂ (Settled base start pushed) (done ++ [item]) (acc ++ [copied]) := by
        refine List.rel_append ?_ (.cons ?_ .nil)
        · refine List.forall₂_iff_zip.mpr ⟨settled.length_eq, fun {before after} member => ?_⟩
          exact ((List.forall₂_iff_zip.mp settled).2 member).later grown
            (live before (List.mem_append_left _ (List.of_mem_zip member).1)) started free kept₂
        · exact (spec.settled.earlier present).later spec.grown live_item started free (.update same)
      obtain ⟨grown', kept', acc', content', settled'⟩ := ih present₂ grown₂ content₂
        (fun other member => live other (by simpa using member)) settled₂ rest
      exact ⟨grown', kept₂.trans kept', acc', content', by simpa using settled'⟩

private theorem exists_related {R : Ref → Ref → Prop} {xs ys : List Ref} {x : Ref}
    (related : List.Forall₂ R xs ys) (member : x ∈ xs) : ∃ y ∈ ys, R x y := by
  induction related with
  | nil => cases member
  | cons first _ ih =>
      rcases List.mem_cons.mp member with rfl | member
      · exact ⟨_, List.mem_cons_self, first⟩
      · obtain ⟨y, member_y, holds⟩ := ih member
        exact ⟨y, List.mem_cons_of_mem _ member_y, holds⟩

theorem aryCopy_copied (copies : Copies base copy) {items : List Ref} (grown : Grown base u)
    (live : Sharing.Live (sharing base.classClass) base.value [source])
    (found : base.value source = some (.ary items))
    (executed : aryCopy copy u world items = some (u', result)) :
    Copied base u u' source result := by
  simp only [aryCopy, Option.bind_eq_bind, Option.bind_eq_some_iff, Prod.exists] at executed
  obtain ⟨u₁, retval, alloc, filled, loop, same⟩ := executed
  cases same
  refine copied_container grown alloc fun grown₁ content free => ?_
  have into (item : Ref) (member : item ∈ items) : CopiedInto base source item :=
    .inl ⟨items, found, member⟩
  obtain ⟨-, unset, same⟩ := grown.alloc alloc
  have present (target : Ref) (set : u.value target ≠ none) : u₁.value target ≠ none := by
    rw [kept_of_update same unset target set]
    exact set
  obtain ⟨grown', kept, acc, content', settled⟩ := aryCopy_loop copies (by simp [content])
    (fun _ set => set) grown₁ free content
    (fun item member => live_child live (into item member).points)
    (List.Forall₂.nil : List.Forall₂ (Settled base u₁ u₁) [] []) loop
  refine ⟨grown', kept, .ary acc, content', fun _ _ => by simp, fun child member => ?_,
    fun leak leaking => ?_⟩
  · obtain ⟨item, member_item, settled⟩ := exists_related settled.flip member
    exact confined_of_child (settled.earlier present).confined (into item member_item)
  · rcases leaks_iff.mp leaking with ⟨klass, ivars, same, -⟩ | ⟨child, copied, behind⟩
    · cases found.symm.trans same
    · rcases copied with ⟨items', same, member⟩ | ⟨front, key, back, same, -⟩
      · cases found.symm.trans same
        obtain ⟨c, member_acc, settled⟩ := exists_related settled member
        exact ⟨c, member_acc, (settled.earlier present).carries leak behind⟩
      · cases found.symm.trans same

/-! ## Maps -/

section Put

variable {equal : Ref → Bool} {entries : List (Ref × Ref)} {key val : Ref} {entry : Ref × Ref}

theorem mem_mapPut_of_ne (member : entry ∈ entries) (different : equal entry.1 = false) :
    entry ∈ mapPut equal entries key val := by
  simp only [mapPut]
  split
  · exact List.mem_map.mpr ⟨entry, member, by simp [different]⟩
  · exact List.mem_append_left _ member

theorem exists_mem_mapPut : ∃ other, (other, val) ∈ mapPut equal entries key val ∧
    (other = key ∨ equal other = true ∧ ∃ entry ∈ entries, entry.1 = other) := by
  simp only [mapPut]
  split
  case isTrue found =>
    obtain ⟨entry, member, same⟩ := List.any_eq_true.mp found
    exact ⟨entry.1, List.mem_map.mpr ⟨entry, member, by simp [same]⟩, .inr ⟨same, entry, member, rfl⟩⟩
  case isFalse => exact ⟨key, by simp, .inl rfl⟩

/-- An entry after the put is an old one with another key, or has the new value. -/
theorem mem_mapPut (member : entry ∈ mapPut equal entries key val) :
    (entry ∈ entries ∧ equal entry.1 = false) ∨
      entry.2 = val ∧ (entry.1 = key ∨ equal entry.1 = true ∧ ∃ old ∈ entries, old.1 = entry.1) := by
  simp only [mapPut] at member
  split at member
  · obtain ⟨old, member_old, same⟩ := List.mem_map.mp member
    split at same
    case isTrue same_key =>
      obtain rfl := same
      exact .inr ⟨rfl, .inr ⟨same_key, old, member_old, rfl⟩⟩
    case isFalse other_key =>
      obtain rfl := same
      exact .inl ⟨member_old, by simpa using other_key⟩
  case isFalse absent =>
    rcases List.mem_append.mp member with old | last
    · refine .inl ⟨old, ?_⟩
      by_contra same_key
      exact absent (List.any_eq_true.mpr ⟨entry, old, by simpa using same_key⟩)
    · obtain rfl := List.mem_singleton.mp last
      exact .inr ⟨rfl, .inl rfl⟩

end Put

/-- The last entry of its text. -/
def Survives (base : Universe κ) (entries : List (Ref × Ref)) (key val : Ref) : Prop :=
  ∃ front back, entries = front ++ (key, val) :: back ∧ ∀ entry ∈ back, ¬ SameText base entry.1 key

/-- A new entry is the copy of an old one: its key is a new string with the text of the old key. -/
structure EntryCopied (base start u : Universe κ) (key val : Ref) (entry : Ref × Ref) : Prop where
  text : ∃ utf8 bytes fuel, u.value entry.1 = some (.str utf8 (.own bytes)) ∧
    strBytes base fuel key = some bytes
  newKey : start.value entry.1 = none
  settled : Settled base start u val entry.2

/-- A new map while the entries `done` of its source have been copied into it. -/
structure MapFilled (base start u : Universe κ) (retval : Ref) (done acc : List (Ref × Ref)) :
    Prop where
  content : u.value retval = some (.map acc)
  sound : ∀ entry ∈ acc, ∃ key val, Survives base done key val ∧
    EntryCopied base start u key val entry
  complete : ∀ key val, Survives base done key val → ∃ entry ∈ acc,
    EntryCopied base start u key val entry

theorem survives_append_iff {done : List (Ref × Ref)} {key val key' val' : Ref} :
    Survives base (done ++ [(key, val)]) key' val' ↔
      (key' = key ∧ val' = val) ∨ Survives base done key' val' ∧ ¬ SameText base key key' := by
  constructor
  · rintro ⟨front, back, split, last⟩
    rcases List.eq_nil_or_concat back with rfl | ⟨back, entry, rfl⟩
    · obtain ⟨-, same⟩ := List.append_inj' split rfl
      cases same
      exact .inl ⟨rfl, rfl⟩
    · rw [List.concat_eq_append, ← List.cons_append, ← List.append_assoc] at split
      obtain ⟨rfl, same⟩ := List.append_inj' split rfl
      cases same
      exact .inr ⟨⟨front, back, rfl, fun entry member => last entry (by simp [member])⟩,
        last (key, val) (by simp)⟩
  · rintro (⟨rfl, rfl⟩ | ⟨⟨front, back, rfl, last⟩, different⟩)
    · exact ⟨done, [], rfl, fun _ member => by cases member⟩
    · refine ⟨front, back ++ [(key, val)], by simp, fun entry member => ?_⟩
      rcases List.mem_append.mp member with old | new
      · exact last entry old
      · exact List.mem_singleton.mp new ▸ different

theorem EntryCopied.later {key val : Ref} {entry : Ref × Ref}
    (copied : EntryCopied base start u key val entry) (grown : Grown base u)
    (live : Sharing.Live (sharing base.classClass) base.value [val])
    (started : start.value retval ≠ none) (free : base.value retval = none)
    (kept : KeptBut retval u u') : EntryCopied base start u' key val entry := by
  refine ⟨?_, copied.newKey, copied.settled.later grown live started free kept⟩
  obtain ⟨utf8, bytes, fuel, found, text⟩ := copied.text
  have elsewhere : entry.1 ≠ retval := fun same => started (same ▸ copied.newKey)
  exact ⟨utf8, bytes, fuel, by rw [kept entry.1 elsewhere (by simp [found]), found], text⟩

/-- One more entry is copied. -/
theorem MapFilled.put {done acc : List (Ref × Ref)} {key val copiedKey copiedVal : Ref}
    (filled : MapFilled base start u retval done acc)
    (started : start.value retval ≠ none) (free : base.value retval = none) (grown : Grown base u)
    (present : ∀ target, start.value target ≠ none → u.value target ≠ none)
    (live : ∀ entry ∈ done ++ [(key, val)],
      Sharing.Live (sharing base.classClass) base.value [entry.2])
    (spec_key : Copied base u u₁ key copiedKey) (spec_val : Copied base u₁ u₂ val copiedVal)
    (puts : mapAssignKey (fuel + 1) u₂ retval copiedKey copiedVal = some u') :
    Grown base u' ∧ KeptBut retval u u' ∧ ∃ acc',
      MapFilled base start u' retval (done ++ [(key, val)]) acc' := by
  have kept₂ : Sharing.Kept u.value u₂.value := spec_key.kept.trans spec_val.kept
  have content₂ : u₂.value retval = some (.map acc) := by
    rw [kept₂ retval (by simp [filled.content]), filled.content]
  simp only [mapAssignKey] at puts
  split at puts
  case h_2 => cases puts
  case h_1 utf8 text entries key_found content =>
    cases content₂.symm.trans content
    -- the key and all keys before it are strings with buffers of their own
    have new_key : Sharing.New u.value u₁.value copiedKey := by
      rcases spec_key.new with new | constant
      · exact new
      · rw [constant_value constant] at key_found
        cases key_found
    obtain ⟨keyFuel, bytes, rfl, key_bytes⟩ := spec_key.text utf8 text (by
      rw [← spec_val.kept copiedKey new_key.2, key_found])
    obtain ⟨grown', same⟩ := spec_val.grown.store puts free
    have updated : KeptBut retval u₂ u' := .update same
    have kept : KeptBut retval u u' := (KeptBut.of_kept kept₂).trans updated
    have old_entry {key' val' : Ref} {entry : Ref × Ref} (survives : Survives base done key' val')
        (copied : EntryCopied base start u key' val' entry) :
        EntryCopied base start u' key' val' entry := by
      obtain ⟨front, back, rfl, -⟩ := survives
      exact copied.later grown (live (key', val') (by simp)) started free kept
    have new_entry {ref : Ref} {utf8 : Bool} (found : u₂.value ref = some (.str utf8 (.own bytes)))
        (unset : start.value ref = none) : EntryCopied base start u' key val (ref, copiedVal) := by
      have elsewhere : ref ≠ retval := fun same => started (same ▸ unset)
      refine ⟨⟨utf8, bytes, keyFuel, ?_, key_bytes⟩, unset, ?_⟩
      · rw [same, Function.update_of_ne elsewhere, found]
      · refine (spec_val.settled.earlier fun target set => ?_).later spec_val.grown
          (live (key, val) (by simp)) started free updated
        rw [spec_key.kept target (present target set)]
        exact present target set
    have start_key : start.value copiedKey = none := by
      by_contra set
      exact present copiedKey set new_key.1
    have same_iff {entry : Ref × Ref} {utf8' : Bool} {bytes' : List UInt8}
        (found : u.value entry.1 = some (.str utf8' (.own bytes'))) :
        strBytes u₂ (fuel + 1) entry.1 = strBytes u₂ (fuel + 1) copiedKey ↔ bytes' = bytes := by
      have found₂ : u₂.value entry.1 = some (.str utf8' (.own bytes')) := by
        rw [kept₂ entry.1 (by simp [found]), found]
      rw [strBytes_own found₂, strBytes_own key_found, Option.some.injEq]
    have reused {old : Ref × Ref} (member : old ∈ acc)
        (same_key : strBytes u₂ (fuel + 1) old.1 = strBytes u₂ (fuel + 1) copiedKey) :
        EntryCopied base start u' key val (old.1, copiedVal) := by
      obtain ⟨key', val', -, copied⟩ := filled.sound old member
      obtain ⟨utf8', bytes', fuel', found, own⟩ := copied.text
      obtain rfl := (same_iff found).mp same_key
      exact new_entry (by rw [kept₂ old.1 (by simp [found]), found]) copied.newKey
    refine ⟨grown', kept, _, by rw [same, Function.update_self], ?_, fun key' val' survives => ?_⟩
    · rintro ⟨entryKey, entryVal⟩ member
      rcases mem_mapPut member with ⟨old, different⟩ | ⟨rfl, which⟩
      · obtain ⟨key', val', survives, copied⟩ := filled.sound _ old
        obtain ⟨utf8', bytes', fuel', found, own⟩ := copied.text
        rw [decide_eq_false_iff_not, same_iff found] at different
        refine ⟨key', val', survives_append_iff.mpr (.inr ⟨survives, ?_⟩), old_entry survives copied⟩
        rintro ⟨leftFuel, rightFuel, common, left, right⟩
        exact different ((strBytes_unique own right).trans (strBytes_unique left key_bytes))
      · refine ⟨key, val, survives_append_iff.mpr (.inl ⟨rfl, rfl⟩), ?_⟩
        rcases which with here | ⟨same_key, old, old_member, here⟩
        · obtain rfl : entryKey = copiedKey := here
          exact new_entry key_found start_key
        · obtain rfl : old.1 = entryKey := here
          exact reused old_member (of_decide_eq_true same_key)
    · rcases survives_append_iff.mp survives with ⟨rfl, rfl⟩ | ⟨survives, different⟩
      · obtain ⟨other, member, which⟩ := @exists_mem_mapPut
          (fun other => strBytes u₂ (fuel + 1) other = strBytes u₂ (fuel + 1) copiedKey) acc copiedKey
          copiedVal
        refine ⟨_, member, ?_⟩
        rcases which with rfl | ⟨same_key, old, old_member, rfl⟩
        · exact new_entry key_found start_key
        · exact reused old_member (of_decide_eq_true same_key)
      · obtain ⟨entry, member, copied⟩ := filled.complete key' val' survives
        obtain ⟨utf8', bytes', fuel', found, own⟩ := copied.text
        refine ⟨entry, mem_mapPut_of_ne member ?_, old_entry survives copied⟩
        rw [decide_eq_false_iff_not, same_iff found]
        rintro rfl
        exact different ⟨keyFuel, fuel', bytes', key_bytes, own⟩

theorem mapCopy_loop (copies : Copies base copy) {entries done acc : List (Ref × Ref)}
    (started : start.value retval ≠ none) (free : base.value retval = none)
    (present : ∀ target, start.value target ≠ none → u.value target ≠ none) (grown : Grown base u)
    (filled : MapFilled base start u retval done acc)
    (live : ∀ entry ∈ done ++ entries, ∀ child ∈ [entry.1, entry.2],
      Sharing.Live (sharing base.classClass) base.value [child])
    (executed : entries.foldlM (fun u entry => do
      let (u, key) ← copy u entry.1
      let (u, val) ← copy u entry.2
      mapAssignKey (fuel + 1) u retval key val) u = some u') :
    Grown base u' ∧ KeptBut retval u u' ∧ ∃ acc',
      MapFilled base start u' retval (done ++ entries) acc' := by
  induction entries generalizing u done acc with
  | nil =>
      cases executed
      exact ⟨grown, .refl, acc, by rwa [List.append_nil]⟩
  | cons entry entries ih =>
      obtain ⟨key, val⟩ := entry
      simp only [List.foldlM_cons, Option.bind_eq_bind, Option.bind_eq_some_iff, Prod.exists] at executed
      obtain ⟨next, ⟨u₁, copiedKey, copies_key, u₂, copiedVal, copies_val, puts⟩, rest⟩ := executed
      have live_entry := live (key, val) (by simp)
      have spec_key := copies grown (live_entry key (by simp)) copies_key
      have spec_val := copies spec_key.grown (live_entry val (by simp)) copies_val
      obtain ⟨grown₃, kept₃, acc₃, filled₃⟩ := filled.put started free grown present
        (fun entry member => live entry (by
          rw [List.append_cons]
          exact List.mem_append_left _ member) entry.2 (by simp)) spec_key spec_val puts
      have present₃ (target : Ref) (set : start.value target ≠ none) : next.value target ≠ none :=
        present_of_keptBut filled₃.content kept₃ target (present target set)
      obtain ⟨grown', kept', acc', filled'⟩ := ih present₃ grown₃ filled₃
        (fun other member => live other (by simpa using member)) rest
      exact ⟨grown', kept₃.trans kept', acc', by simpa using filled'⟩

theorem mapCopy_copied (copies : Copies base copy) {entries : List (Ref × Ref)}
    (grown : Grown base u) (live : Sharing.Live (sharing base.classClass) base.value [source])
    (found : base.value source = some (.map entries))
    (executed : mapCopy copy (fuel + 1) u world entries = some (u', result)) :
    Copied base u u' source result := by
  simp only [mapCopy, Option.bind_eq_bind, Option.bind_eq_some_iff, Prod.exists] at executed
  obtain ⟨u₁, retval, alloc, filled, loop, same⟩ := executed
  cases same
  refine copied_container grown alloc fun grown₁ content free => ?_
  have into {key val : Ref} (survives : Survives base entries key val) :
      CopiedInto base source val := by
    obtain ⟨front, back, rfl, last⟩ := survives
    exact .inr ⟨front, key, back, found, last⟩
  obtain ⟨-, unset, same⟩ := grown.alloc alloc
  have kept₁ := kept_of_update same unset
  have present (target : Ref) (set : u.value target ≠ none) : u₁.value target ≠ none := by
    rw [kept₁ target set]
    exact set
  have empty : MapFilled base u₁ u₁ result [] [] := by
    refine ⟨content, fun entry member => absurd member List.not_mem_nil, ?_⟩
    rintro key val ⟨front, back, split, -⟩
    simp at split
  obtain ⟨grown', kept, acc, filled⟩ := mapCopy_loop copies (by simp [content]) free
    (fun _ set => set) grown₁ empty (fun entry member child own => live_child live
      ⟨_, found, List.mem_flatMap.mpr ⟨entry, member, own⟩⟩) loop
  refine ⟨grown', kept, .map acc, filled.content, fun _ _ => by simp, fun child member => ?_,
    fun leak leaking => ?_⟩
  · obtain ⟨entry, member_acc, own⟩ := List.mem_flatMap.mp member
    obtain ⟨key, val, survives, copied⟩ := filled.sound entry member_acc
    rcases List.mem_cons.mp own with rfl | own
    · obtain ⟨utf8, bytes, -, key_found, -⟩ := copied.text
      refine fun target reaches => .inl ?_
      rw [reaches_leaf key_found rfl reaches]
      refine ⟨?_, by simp [key_found]⟩
      by_contra set
      exact present _ set copied.newKey
    · obtain rfl := List.mem_singleton.mp own
      exact confined_of_child (copied.settled.earlier present).confined (into survives)
  · rcases leaks_iff.mp leaking with ⟨klass, ivars, same, -⟩ | ⟨child, copied, behind⟩
    · cases found.symm.trans same
    · rcases copied with ⟨items, same, -⟩ | ⟨front, key, back, same, last⟩
      · cases found.symm.trans same
      · cases found.symm.trans same
        obtain ⟨entry, member, copied⟩ := filled.complete key child ⟨front, back, rfl, last⟩
        exact ⟨entry.2, List.mem_flatMap.mpr ⟨entry, member, by simp⟩,
          (copied.settled.earlier present).carries leak behind⟩

/-! ## Objects -/

section Objects

variable [DecidableEq κ]

/-- `kh_put` of several bindings. -/
def putAll (acc : Bindings κ) (entries : List (Sigma fun _ : κ => Ref)) : Bindings κ :=
  entries.foldl (fun acc entry => acc.insert entry.1 entry.2) acc

theorem lookup_putAll {acc : Bindings κ} {entries : List (Sigma fun _ : κ => Ref)} {name : κ}
    (nodup : entries.NodupKeys) :
    (putAll acc entries).lookup name = (entries.dlookup name).or (acc.lookup name) := by
  induction entries generalizing acc with
  | nil => rfl
  | cons entry entries ih =>
      obtain ⟨key, val⟩ := entry
      obtain ⟨fresh, rest⟩ := List.nodupKeys_cons.mp nodup
      rw [putAll, List.foldl_cons, ← putAll, ih rest]
      by_cases here : name = key
      · obtain rfl := here
        rw [List.dlookup_eq_none.mpr fresh, AList.lookup_insert, List.dlookup_cons_eq]
        rfl
      · rw [AList.lookup_insert_ne here,
          List.dlookup_cons_ne entries (⟨key, val⟩ : Sigma fun _ : κ => Ref) here]

theorem mem_putAll_iff {bindings : Bindings κ} {entry : Sigma fun _ : κ => Ref} :
    entry ∈ (putAll ∅ bindings.entries).entries ↔ entry ∈ bindings.entries := by
  obtain ⟨name, val⟩ := entry
  rw [← AList.mem_lookup_iff, ← AList.mem_lookup_iff, lookup_putAll bindings.nodupKeys,
    AList.lookup_empty, Option.or_none]
  rfl

theorem objSetIvar_loop {klass : Ref} {acc : Bindings κ} {entries : List (Sigma fun _ : κ => Ref)}
    (grown : Grown base u) (free : base.value retval = none)
    (content : u.value retval = some (.obj klass acc))
    (executed : entries.foldlM (fun u entry => objSetIvar u retval entry.1 entry.2) u = some u') :
    Grown base u' ∧ KeptBut retval u u' ∧
      u'.value retval = some (.obj klass (putAll acc entries)) := by
  induction entries generalizing u acc with
  | nil =>
      cases executed
      exact ⟨grown, .refl, content⟩
  | cons entry entries ih =>
      simp only [List.foldlM_cons, Option.bind_eq_bind, Option.bind_eq_some_iff] at executed
      obtain ⟨next, sets, rest⟩ := executed
      simp only [objSetIvar, content] at sets
      obtain ⟨grown₂, same⟩ := grown.store sets free
      obtain ⟨grown', kept', content'⟩ := ih grown₂ (by rw [same, Function.update_self]) rest
      exact ⟨grown', (KeptBut.update same).trans kept', content'⟩

theorem objCopy_copied {klass : Ref} {ivars : Bindings κ} (grown : Grown base u)
    (live : Sharing.Live (sharing base.classClass) base.value [source])
    (found : base.value source = some (.obj klass ivars))
    (executed : objCopy u world klass ivars = some (u', result)) :
    Copied base u u' source result := by
  simp only [objCopy, Option.bind_eq_bind, Option.bind_eq_some_iff, Prod.exists] at executed
  obtain ⟨u₁, retval, alloc, filled, loop, same⟩ := executed
  cases same
  simp only [objNew] at alloc
  split at alloc
  case h_2 => cases alloc
  case h_1 =>
    obtain ⟨grown₁, unset, same⟩ := grown.alloc alloc
    have content : u₁.value result = some (.obj klass ∅) := by rw [same, Function.update_self]
    have free := grown.free unset
    obtain ⟨grown', kept', content'⟩ := objSetIvar_loop grown₁ free content loop
    have kept : Sharing.Kept u.value u'.value := fun target set => by
      have elsewhere : target ≠ result := fun same => set (same ▸ unset)
      have first := kept_of_update same unset target set
      rw [kept' target elsewhere (first ▸ set), first]
    have pointers (child : Ref) : child ∈ (sharing base.classClass).pointers
        (.obj klass (putAll ∅ ivars.entries)) ↔
          child ∈ (sharing base.classClass).pointers (.obj klass ivars) := by
      by_cases isClass : klass = base.classClass ∨ klass = .nil
      · simp [sharing, Value.isClass, isClass]
      · simp [sharing, Value.isClass, Value.children, isClass, mem_putAll_iff]
    have leaks (leak : Ref) : Leaks base source leak ↔
        leak ∈ (sharing base.classClass).pointers (.obj klass ivars) := by
      rw [leaks_iff]
      constructor
      · rintro (⟨klass', ivars', same, pointer⟩ | ⟨child, copied, -⟩)
        · cases found.symm.trans same
          exact pointer
        · rcases copied with ⟨items, same, -⟩ | ⟨front, key, back, same, -⟩ <;>
            cases found.symm.trans same
      · exact fun pointer => .inl ⟨klass, ivars, found, pointer⟩
    have new : Sharing.New u.value u'.value result := ⟨unset, by simp [content']⟩
    refine ⟨grown', kept, .inl new, ⟨fun target reaches => ?_, fun leak leaking => ?_⟩,
      fun utf8 text same => by cases content'.symm.trans same⟩
    · rcases Sharing.reaches_singleton_iff.mp reaches with rfl | ⟨child, ⟨v', same, pointer⟩, behind⟩
      · exact .inl new
      · cases content'.symm.trans same
        have leaking := (leaks child).mpr ((pointers child).mp pointer)
        rw [grown'.kept.reaches_iff (fun _ => constant_value)
          (live.of_leak (fun _ => Leaks.reaches) leaking)] at behind
        exact .inr (.inr ⟨child, leaking, behind⟩)
    · refine (Sharing.Reaches.of_mem (List.mem_singleton_self result)).step ⟨_, ?_,
        (pointers leak).mpr ((leaks leak).mp leaking)⟩
      rw [added, unset, if_neg (by simp), content']

/-- Whatever `pone_val_copy` returns on is copied. -/
theorem valCopy_copies (base : Universe κ) (world fuel : Nat) : Copies base (valCopy world fuel) := by
  induction fuel with
  | zero => exact fun u source u' result _ _ executed => by cases executed
  | succ fuel ih =>
      intro u source u' result grown live executed
      have same := grown.agrees live
      cases source with
      | nil =>
          cases executed
          exact constant_copied grown (.inl rfl)
      | bool truth =>
          cases executed
          exact constant_copied grown (.inr ⟨truth, rfl⟩)
      | constInt | slot =>
          simp only [valCopy] at executed
          rw [same] at executed
          split at executed
          · cases executed
          · exact copied_leaf grown executed rfl
              (fun leak => not_leaks_of_value ‹_› (by simp) (by simp) (by simp)) (by simp)
          · exact copied_leaf grown executed rfl
              (fun leak => not_leaks_of_value ‹_› (by simp) (by simp) (by simp)) (by simp)
          · obtain ⟨bytes, own, alloc⟩ := Option.bind_eq_some_iff.mp executed
            rw [grown.strBytes_eq live] at own
            refine copied_leaf grown alloc rfl
              (fun leak => not_leaks_of_value ‹_› (by simp) (by simp) (by simp)) ?_
            intro utf8 text same_text
            cases same_text
            exact ⟨fuel + 1, bytes, rfl, own⟩
          · exact aryCopy_copied ih grown live ‹_› executed
          · exact mapCopy_copied ih grown live ‹_› executed
          · exact opaqueCopy_copied grown ‹_› executed
          · exact objCopy_copied grown live ‹_› executed
          · cases executed
          · cases executed

end Objects

end Deep

end Heap
end Pone
