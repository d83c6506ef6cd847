import Pone.Heap.Copy

/-!
# What a copy shares with its source

A copy consists of new values, and leads to values of the source only through the leaks: the pointers
of the objects that `pone_val_copy` meets in arrays and maps, and the values of captured variables.
-/

namespace Pone
namespace Heap

section Kinds

variable {κ : Type}

/-- A class: its klass is the class of all classes, or it is that class, which has none. -/
def Value.isClass (classClass : Ref) : Value κ → Bool
  | .obj klass _ => klass = classClass ∨ klass = .nil
  | _ => false

/-- Arrays, maps, strings, lexes, and objects that are not classes. -/
def Value.mutable (classClass : Ref) : Value κ → Bool
  | .ary _ | .map _ | .str _ _ | .lex _ _ => true
  | .obj klass ivars => !(Value.obj klass ivars).isClass classClass
  | .int _ | .num _ | .code _ | .opaqueRef _ => false

/-- `pone_int_incr` changes integers, too, other than the constants of compiled code. -/
def changeable (classClass : Ref) : Ref → Value κ → Bool
  | .slot _ _, .int _ => true
  | _, v => v.mutable classClass

/-- Classes and the bodies of opaques are shared by design: nothing is followed through them. -/
def sharing (classClass : Ref) : Sharing.Kind Ref (Value κ) where
  pointers v := if v.isClass classClass then [] else v.children
  mutable ref v := changeable classClass ref v = true
  constant ref := ref = .nil ∨ ∃ truth, ref = .bool truth

/-- The text of both strings is the same. -/
def SameText (u : Universe κ) (left right : Ref) : Prop :=
  ∃ leftFuel rightFuel bytes,
    strBytes u leftFuel left = some bytes ∧ strBytes u rightFuel right = some bytes

/-- A copy of the parent contains a copy of the child; of the map entries whose keys have one text
the last one counts. -/
def CopiedInto (u : Universe κ) (parent child : Ref) : Prop :=
  (∃ items, u.value parent = some (.ary items) ∧ child ∈ items) ∨
    ∃ front key back, u.value parent = some (.map (front ++ (key, child) :: back)) ∧
      ∀ entry ∈ back, ¬ SameText u entry.1 key

/-- The pointers that `pone_val_copy` copies without what they point to. -/
def Leaks (u : Universe κ) (source leak : Ref) : Prop :=
  ∃ holder klass ivars, Relation.ReflTransGen (CopiedInto u) source holder ∧
    u.value holder = some (.obj klass ivars) ∧
    leak ∈ (sharing u.classClass).pointers (.obj klass ivars)

variable {u u' base : Universe κ} {ref source copy leak child : Ref}

theorem constant_value (constant : (sharing (κ := κ) base.classClass).constant ref) :
    u.value ref = none := by
  obtain rfl | ⟨truth, rfl⟩ := constant <;> rfl

theorem leaks_iff : Leaks u source leak ↔
    (∃ klass ivars, u.value source = some (.obj klass ivars) ∧
      leak ∈ (sharing u.classClass).pointers (.obj klass ivars)) ∨
    ∃ child, CopiedInto u source child ∧ Leaks u child leak := by
  constructor
  · rintro ⟨holder, klass, ivars, path, found, pointer⟩
    rcases Relation.ReflTransGen.cases_head path with rfl | ⟨child, copied, rest⟩
    · exact .inl ⟨klass, ivars, found, pointer⟩
    · exact .inr ⟨child, copied, holder, klass, ivars, rest, found, pointer⟩
  · rintro (⟨klass, ivars, found, pointer⟩ | ⟨child, copied, holder, klass, ivars, path, found, pointer⟩)
    · exact ⟨source, klass, ivars, .refl, found, pointer⟩
    · exact ⟨holder, klass, ivars, path.head copied, found, pointer⟩

theorem CopiedInto.points (copied : CopiedInto u source child) :
    Sharing.Points (sharing u.classClass) u.value source child := by
  rcases copied with ⟨items, found, member⟩ | ⟨front, key, back, found, -⟩
  · exact ⟨_, found, member⟩
  · exact ⟨_, found, List.mem_flatMap.mpr ⟨(key, child), by simp, by simp⟩⟩

/-- What leaks is reached from the source. -/
theorem Leaks.reaches (leaks : Leaks u source leak) :
    Sharing.Reaches (sharing u.classClass) u.value [source] leak := by
  obtain ⟨holder, klass, ivars, path, found, pointer⟩ := leaks
  have reaches : Sharing.Reaches (sharing u.classClass) u.value [source] holder := by
    clear found
    induction path with
    | refl => exact .of_mem (List.mem_singleton_self _)
    | tail _ copied ih => exact ih.step copied.points
  exact reaches.step ⟨_, found, pointer⟩

end Kinds

/-! ## Copying in progress -/

section Grown

variable {κ : Type} {base start middle u u' : Universe κ} {world fuel : Nat}
  {ref retval source copy : Ref} {v : Value κ}

/-- A universe that the copying of values of `base` has led to. -/
structure Grown (base u : Universe κ) : Prop where
  wellFormed : u.WellFormed
  classClass : u.classClass = base.classClass
  kept : Sharing.Kept base.value u.value

/-- The contents of the values that are there in the second universe only. -/
def added (u u' : Universe κ) (ref : Ref) : Option (Value κ) :=
  if (u.value ref).isSome then none else u'.value ref

/-- A finished copy, all of whose values are newer than `start`. -/
structure Settled (base start u : Universe κ) (source copy : Ref) : Prop where
  confined : Sharing.Confined (sharing base.classClass) (Leaks base source) base.value start.value
    u.value copy
  carries : ∀ leak, Leaks base source leak →
    Sharing.Reaches (sharing base.classClass) (added start u) [copy] leak

/-- Values that are there keep their contents, but for the one that is being filled. -/
def KeptBut (retval : Ref) (u u' : Universe κ) : Prop :=
  ∀ target, target ≠ retval → u.value target ≠ none → u'.value target = u.value target

theorem Grown.free (grown : Grown base u) (free : u.value ref = none) : base.value ref = none := by
  by_contra set
  exact set ((grown.kept ref set).symm.trans free)

theorem Grown.alloc (grown : Grown base u) (executed : objAlloc u world v = some (u', ref)) :
    Grown base u' ∧ u.value ref = none ∧ u'.value = Function.update u.value ref (some v) := by
  obtain ⟨-, free, replaces⟩ := objAlloc_replaces grown.wellFormed executed
  refine ⟨⟨replaces.wellFormed grown.wellFormed, replaces.classClass.trans grown.classClass, ?_⟩,
    free, replaces.value⟩
  rw [replaces.value]
  exact grown.kept.trans (.update free)

theorem Grown.store (grown : Grown base u) (executed : store u ref v = some u')
    (free : base.value ref = none) :
    Grown base u' ∧ u'.value = Function.update u.value ref (some v) := by
  have replaces := store_replaces executed
  refine ⟨⟨replaces.wellFormed grown.wellFormed, replaces.classClass.trans grown.classClass, ?_⟩,
    replaces.value⟩
  intro target set
  have elsewhere : target ≠ ref := fun same => set (same ▸ free)
  rw [replaces.value, Function.update_of_ne elsewhere, grown.kept target set]

theorem Grown.agrees (grown : Grown base u)
    (live : Sharing.Live (sharing base.classClass) base.value [source]) :
    u.value source = base.value source :=
  grown.kept.agrees (fun _ => constant_value) live (.of_mem (List.mem_singleton_self _))

theorem live_child {child : Ref} (live : Sharing.Live (sharing base.classClass) base.value [source])
    (points : Sharing.Points (sharing base.classClass) base.value source child) :
    Sharing.Live (sharing base.classClass) base.value [child] :=
  live.of_reaches fun _ member => by
    obtain rfl := List.mem_singleton.mp member
    exact (Sharing.Reaches.of_mem (List.mem_singleton_self _)).step points

theorem KeptBut.refl : KeptBut retval u u := fun _ _ _ => rfl

theorem KeptBut.trans (first : KeptBut retval u middle) (second : KeptBut retval middle u') :
    KeptBut retval u u' := fun target elsewhere set => by
  have same := first target elsewhere set
  rw [second target elsewhere (same ▸ set), same]

theorem KeptBut.of_kept (kept : Sharing.Kept u.value u'.value) : KeptBut retval u u' :=
  fun target _ => kept target

theorem KeptBut.update (same : u'.value = Function.update u.value retval (some v)) :
    KeptBut retval u u' := fun target elsewhere _ => by
  rw [same, Function.update_of_ne elsewhere]

/-- A copy counts from any earlier universe on. -/
theorem Settled.earlier (settled : Settled base middle u source copy)
    (present : ∀ target, start.value target ≠ none → middle.value target ≠ none) :
    Settled base start u source copy := by
  have absent (target : Ref) (free : middle.value target = none) : start.value target = none := by
    by_contra set
    exact present target set free
  refine ⟨fun target reaches => ?_, fun leak leaking => (settled.carries leak leaking).widen ?_⟩
  · exact (settled.confined target reaches).imp_left fun new => ⟨absent target new.1, new.2⟩
  · rintro parent child ⟨content, found, pointer⟩
    simp only [added] at found
    split at found
    · cases found
    case isFalse unset =>
      rw [Option.not_isSome_iff_eq_none] at unset
      exact ⟨content, by rw [added, absent parent unset, if_neg (by simp), found], pointer⟩

/-- A finished copy stays while another value is filled. -/
theorem Settled.later (settled : Settled base start u source copy) (grown : Grown base u)
    (live : Sharing.Live (sharing base.classClass) base.value [source])
    (started : start.value retval ≠ none) (free : base.value retval = none)
    (kept : KeptBut retval u u') : Settled base start u' source copy := by
  have agree (target : Ref)
      (reaches : Sharing.Reaches (sharing base.classClass) u.value [copy] target) :
      u'.value target = u.value target := by
    rcases settled.confined target reaches with new | constant | ⟨leak, leaking, behind⟩
    · exact kept target (fun same => started (same ▸ new.1)) new.2
    · rw [constant_value constant, constant_value constant]
    · have live_leak := live.of_leak (fun _ => Leaks.reaches) leaking
      cases found : base.value target with
      | none =>
          have constant := live_leak target behind found
          rw [constant_value constant, constant_value constant]
      | some content =>
          have set : u.value target ≠ none := by simp [grown.kept target, found]
          refine kept target ?_ set
          rintro rfl
          cases found.symm.trans free
  refine ⟨fun target reaches => ?_, fun leak leaking => (settled.carries leak leaking).widen ?_⟩
  · rw [Sharing.reaches_iff_of_agree agree] at reaches
    refine (settled.confined target reaches).imp_left fun new => ⟨new.1, ?_⟩
    rw [agree target reaches]
    exact new.2
  · rintro parent child ⟨content, found, pointer⟩
    simp only [added] at found
    split at found
    · cases found
    case isFalse unset =>
      rw [Option.not_isSome_iff_eq_none] at unset
      have elsewhere : parent ≠ retval := fun same => started (same ▸ unset)
      refine ⟨content, ?_, pointer⟩
      rw [added, unset, if_neg (by simp), kept parent elsewhere (by simp [found]), found]

end Grown

end Heap
end Pone
