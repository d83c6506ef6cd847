import Pone.Heap.Copy

/-!
# Where copies are made

All that `pone_val_copy` and `copy_code` allocate lies in the arenas of the world for which they copy.
-/

namespace Pone
namespace Heap

section Placement

variable {κ : Type} {u u₁ u' : Universe κ} {world fuel : Nat} {ref result : Ref} {v : Value κ}

/-- What is new lies in the arenas of one world. -/
def Inside (world : Nat) (u u' : Universe κ) : Prop :=
  ∀ target, Sharing.New u.value u'.value target → ∃ index, target = .slot world index

theorem Inside.refl : Inside world u u := fun _ new => absurd new.1 new.2

theorem Inside.trans (first : Inside world u u₁) (second : Inside world u₁ u') :
    Inside world u u' := by
  intro target new
  by_cases unset : u₁.value target = none
  · exact second target ⟨unset, new.2⟩
  · exact first target ⟨new.1, unset⟩

theorem objAlloc_inside (executed : objAlloc u world v = some (u', ref)) : Inside world u u' := by
  intro target new
  cases target with
  | nil | bool | constInt => exact absurd new.1 new.2
  | slot other index =>
      by_contra outside
      have different : world ≠ other := by
        rintro rfl
        exact outside ⟨index, rfl⟩
      have same : u'.worlds[other]? = u.worlds[other]? := by
        simp only [objAlloc] at executed
        split at executed
        · cases executed
        · split at executed <;> cases executed <;>
            simp [saveTmp, Universe.setSlot, getElem?_modifyWorld, different]
      refine new.2 ?_
      rw [Universe.value, same]
      exact new.1

theorem store_inside (executed : store u ref v = some u') : Inside world u u' := by
  intro target new
  obtain ⟨place, index, before, rfl, found, -⟩ := store_eq_some_iff.mp executed
  refine absurd new.1 fun unset => new.2 ?_
  have elsewhere : target ≠ .slot place index := by
    rintro rfl
    cases found.symm.trans unset
  rw [(store_replaces executed).value, Function.update_of_ne elsewhere, unset]

theorem foldlM_inside {α : Type} {change : Universe κ → α → Option (Universe κ)} {items : List α}
    (inside : ∀ u item u', change u item = some u' → Inside world u u')
    (executed : items.foldlM change u = some u') : Inside world u u' := by
  induction items generalizing u with
  | nil =>
      cases executed
      exact .refl
  | cons item items ih =>
      obtain ⟨u₁, first, rest⟩ := Option.bind_eq_some_iff.mp executed
      exact (inside u item u₁ first).trans (ih rest)

theorem aryCopy_inside {copy : Universe κ → Ref → Option (Universe κ × Ref)} {items : List Ref}
    (copies : ∀ u source u' result, copy u source = some (u', result) → Inside world u u')
    (executed : aryCopy copy u world items = some (u', result)) : Inside world u u' := by
  simp only [aryCopy, Option.bind_eq_bind, Option.bind_eq_some_iff, Prod.exists] at executed
  obtain ⟨u₁, retval, alloc, filled, fills, last⟩ := executed
  cases last
  refine (objAlloc_inside alloc).trans (foldlM_inside (fun u item u' pushed => ?_) fills)
  simp only [Option.bind_eq_some_iff, Prod.exists] at pushed
  obtain ⟨u₂, copied, copying, pushes⟩ := pushed
  refine (copies u item u₂ copied copying).trans ?_
  simp only [aryPush] at pushes
  split at pushes
  · exact store_inside pushes
  · cases pushes

theorem mapCopy_inside {copy : Universe κ → Ref → Option (Universe κ × Ref)}
    {entries : List (Ref × Ref)}
    (copies : ∀ u source u' result, copy u source = some (u', result) → Inside world u u')
    (executed : mapCopy copy fuel u world entries = some (u', result)) : Inside world u u' := by
  simp only [mapCopy, Option.bind_eq_bind, Option.bind_eq_some_iff, Prod.exists] at executed
  obtain ⟨u₁, retval, alloc, filled, fills, last⟩ := executed
  cases last
  refine (objAlloc_inside alloc).trans (foldlM_inside (fun u entry u' assigned => ?_) fills)
  simp only [Option.bind_eq_some_iff, Prod.exists] at assigned
  obtain ⟨u₂, key, key_copied, u₃, val, val_copied, assigns⟩ := assigned
  refine ((copies _ _ _ _ key_copied).trans (copies _ _ _ _ val_copied)).trans ?_
  simp only [mapAssignKey] at assigns
  split at assigns
  · exact store_inside assigns
  · cases assigns

theorem opaqueCopy_inside {body : Nat} (executed : opaqueCopy u world body = some (u', result)) :
    Inside world u u' := by
  obtain ⟨⟨u₁, ref⟩, alloc, same⟩ := Option.map_eq_some_iff.mp executed
  cases same
  exact fun target new => objAlloc_inside alloc target new

variable [DecidableEq κ]

theorem objCopy_inside {klass : Ref} {ivars : Bindings κ}
    (executed : objCopy u world klass ivars = some (u', result)) : Inside world u u' := by
  simp only [objCopy, Option.bind_eq_bind, Option.bind_eq_some_iff, Prod.exists] at executed
  obtain ⟨u₁, retval, new, filled, fills, last⟩ := executed
  cases last
  have first : Inside world u u₁ := by
    simp only [objNew] at new
    split at new
    · exact objAlloc_inside new
    · cases new
  refine first.trans (foldlM_inside (fun u entry u' sets => ?_) fills)
  simp only [objSetIvar] at sets
  split at sets
  · exact store_inside sets
  · cases sets

/-- A copy consists of values in the arenas of the world that it is made for. -/
theorem valCopy_inside {source : Ref} (executed : valCopy world fuel u source = some (u', result)) :
    Inside world u u' := by
  induction fuel generalizing u source u' result with
  | zero => cases executed
  | succ fuel ih =>
      have copies (u : Universe κ) (source : Ref) (u' : Universe κ) (result : Ref)
          (executed : valCopy world fuel u source = some (u', result)) : Inside world u u' :=
        ih executed
      cases source with
      | nil | bool =>
          cases executed
          exact .refl
      | constInt | slot =>
          simp only [valCopy] at executed
          split at executed
          · cases executed
          · exact objAlloc_inside executed
          · exact objAlloc_inside executed
          · obtain ⟨bytes, -, alloc⟩ := Option.bind_eq_some_iff.mp executed
            exact objAlloc_inside alloc
          · exact aryCopy_inside copies executed
          · exact mapCopy_inside copies executed
          · exact opaqueCopy_inside executed
          · exact objCopy_inside executed
          · cases executed
          · cases executed

theorem dupLexes_inside {dst : Ref} {start : Option Ref}
    (executed : dupLexes world dst fuel u start = some u') : Inside world u u' := by
  induction fuel generalizing u start with
  | zero =>
      cases start with
      | none =>
          cases executed
          exact .refl
      | some lex => cases executed
  | succ fuel ih =>
      cases start with
      | none =>
          cases executed
          exact .refl
      | some lex =>
          simp only [dupLexes] at executed
          split at executed
          case h_1 parent bindings found =>
            obtain ⟨u₁, first, rest⟩ := Option.bind_eq_some_iff.mp executed
            refine Inside.trans (foldlM_inside (fun u entry u' puts => ?_) first) (ih rest)
            simp only [Option.bind_eq_bind, Option.bind_eq_some_iff, Prod.exists] at puts
            obtain ⟨u₂, key, alloc, puts⟩ := puts
            refine (objAlloc_inside alloc).trans ?_
            simp only [lexPut] at puts
            split at puts
            · exact store_inside puts
            · cases puts
          case h_2 => cases executed

theorem copyCode_inside {code : Ref} (executed : copyCode world fuel u code = some (u', result)) :
    Inside world u u' := by
  simp only [copyCode, dupLexValues, Option.bind_eq_bind, Option.bind_eq_some_iff, Prod.exists] at executed
  obtain ⟨u₁, dst, alloc, u₂, lex, ⟨u₃, inner, alloc_lex, dup⟩, filled, stores, last⟩ := executed
  cases last
  refine ((objAlloc_inside alloc).trans (objAlloc_inside alloc_lex)).trans ?_
  split at dup
  case h_1 start found =>
    obtain ⟨u₄, loop, same⟩ := Option.bind_eq_some_iff.mp dup
    cases same
    exact (dupLexes_inside loop).trans (store_inside stores)
  case h_2 => cases dup

end Placement

end Heap
end Pone
