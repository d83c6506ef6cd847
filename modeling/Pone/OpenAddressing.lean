import Mathlib.Algebra.Group.Nat.Defs
import Mathlib.Data.Finset.Card
import Mathlib.Data.Fintype.EquivFin
import Mathlib.Data.Fintype.Card
import Mathlib.Data.Nat.Count
import Mathlib.Data.Nat.ModEq
import Mathlib.Data.Nat.Prime.Basic
import Mathlib.Logic.Function.Basic
import Mathlib.Tactic.Linarith
import Mathlib.Tactic.Ring

/-!
# Open addressing with triangular numbers

A table with a power of two of slots, and probing by `1, 2, 3, …` slots further.  The first `2 ^ bits`
probes meet every slot once, so a search ends where a slot is empty.  A table is sound when each entry
is met before the first empty slot and no two entries have one key.
-/

namespace OpenAddressing

/-- The slot after `step` steps. -/
def probe (bits start step : Nat) : Nat := (start + step * (step + 1) / 2) % 2 ^ bits

section Probe

variable {bits start step other : Nat}

theorem probe_lt (bits start step : Nat) : probe bits start step < 2 ^ bits :=
  Nat.mod_lt _ (Nat.two_pow_pos bits)

theorem probe_zero (bits start : Nat) : probe bits start 0 = start % 2 ^ bits := by
  simp [probe]

theorem probe_succ (bits start step : Nat) :
    probe bits start (step + 1) = (probe bits start step + (step + 1)) % 2 ^ bits := by
  have next : (step + 1) * (step + 1 + 1) / 2 = step * (step + 1) / 2 + (step + 1) := by
    rw [show (step + 1) * (step + 1 + 1) = step * (step + 1) + (step + 1) * 2 by ring]
    exact Nat.add_mul_div_right _ _ two_pos
  rw [probe, probe, next, Nat.mod_add_mod, Nat.add_assoc]

/-- Two steps further, one of the factors is odd and the other one is too small. -/
theorem probe_ne_of_lt (less : step < other) (bound : other < 2 ^ bits) :
    probe bits start step ≠ probe bits start other := by
  intro same
  have double (n : Nat) : 2 * (n * (n + 1) / 2) = n * (n + 1) :=
    Nat.mul_div_cancel' (even_iff_two_dvd.mp (Nat.even_mul_succ_self n))
  have steps : Nat.ModEq (2 ^ bits) (step * (step + 1) / 2) (other * (other + 1) / 2) :=
    Nat.ModEq.add_left_cancel' start same
  have doubled := steps.mul_left' 2
  rw [double, double, ← Nat.pow_succ'] at doubled
  obtain ⟨d, positive, rfl⟩ : ∃ d, 0 < d ∧ other = step + d := ⟨other - step, by omega, by omega⟩
  have divides : 2 ^ (bits + 1) ∣ d * (2 * step + d + 1) := by
    have far := (Nat.modEq_iff_dvd' (by nlinarith)).mp doubled
    rwa [show (step + d) * (step + d + 1) - step * (step + 1) = d * (2 * step + d + 1) by
      rw [show (step + d) * (step + d + 1) = d * (2 * step + d + 1) + step * (step + 1) by ring]
      exact Nat.add_sub_cancel ..] at far
  have small : d < 2 ^ (bits + 1) := by rw [Nat.pow_succ]; omega
  have small' : 2 * step + d + 1 < 2 ^ (bits + 1) := by rw [Nat.pow_succ]; omega
  rcases Nat.even_or_odd d with even | odd
  · have coprime : Nat.Coprime (2 ^ (bits + 1)) (2 * step + d + 1) := by
      rw [Nat.coprime_pow_left_iff (Nat.succ_pos bits), Nat.coprime_two_left]
      grind
    exact Nat.not_dvd_of_pos_of_lt positive small (coprime.dvd_of_dvd_mul_right divides)
  · have coprime : Nat.Coprime (2 ^ (bits + 1)) d := by
      rw [Nat.coprime_pow_left_iff (Nat.succ_pos bits), Nat.coprime_two_left]
      exact odd
    exact Nat.not_dvd_of_pos_of_lt (Nat.succ_pos _) small' (coprime.dvd_of_dvd_mul_left divides)

theorem probe_injOn (bits start : Nat) :
    Function.Injective fun step : Fin (2 ^ bits) => probe bits start step := by
  intro step other same
  rcases Nat.lt_trichotomy step other with less | equal | less
  · exact absurd same (probe_ne_of_lt less other.2)
  · exact Fin.ext equal
  · exact absurd same.symm (probe_ne_of_lt less step.2)

/-- Every slot is met. -/
theorem exists_probe (bits start : Nat) {i : Nat} (slot : i < 2 ^ bits) :
    ∃ step < 2 ^ bits, probe bits start step = i := by
  let f : Fin (2 ^ bits) → Fin (2 ^ bits) := fun step => ⟨probe bits start step, probe_lt ..⟩
  have injective : Function.Injective f := fun step other same =>
    probe_injOn bits start (Fin.mk.inj same)
  obtain ⟨step, met⟩ := Finite.surjective_of_injective injective ⟨i, slot⟩
  exact ⟨step, step.2, Fin.mk.inj met⟩

end Probe

/-! ## Tables -/

inductive Slot (α : Type*) where
  | empty
  | deleted
  | full (entry : α)

def Slot.isEmpty {α : Type*} : Slot α → Bool
  | .empty => true
  | .deleted | .full _ => false

def Slot.isFull {α : Type*} : Slot α → Bool
  | .full _ => true
  | .empty | .deleted => false

variable {α β : Type*}

/-- Each entry is met before the first empty slot, and no two entries have one key. -/
structure Sound (bits : Nat) (start : β → Nat) (key : α → β) (slots : Nat → Slot α) : Prop where
  met : ∀ i < 2 ^ bits, ∀ e, slots i = .full e → ∃ step, probe bits (start (key e)) step = i ∧
    ∀ before < step, slots (probe bits (start (key e)) before) ≠ .empty
  distinct : ∀ i < 2 ^ bits, ∀ j < 2 ^ bits, ∀ e e', slots i = .full e → slots j = .full e' →
    key e = key e' → i = j

/-- The entry is in one of the slots. -/
def Has (bits : Nat) (slots : Nat → Slot α) (e : α) : Prop := ∃ i < 2 ^ bits, slots i = .full e

/-- A search for the key `b` ends at this slot. -/
def Stops (key : α → β) (slots : Nat → Slot α) (b : β) (i : Nat) : Prop :=
  slots i = .empty ∨ ∃ e, slots i = .full e ∧ key e = b

/-- The search ends after `step` steps. -/
structure Ends (bits : Nat) (start : β → Nat) (key : α → β) (slots : Nat → Slot α) (b : β)
    (step : Nat) : Prop where
  goes : ∀ before < step, ¬ Stops key slots b (probe bits (start b) before)
  stops : Stops key slots b (probe bits (start b) step)

section Tables

variable {bits : Nat} {start : β → Nat} {key : α → β} {slots : Nat → Slot α} {b : β} {e : α}
  {i x step step' : Nat}

/-- Where there is an empty slot, each search ends in time. -/
theorem exists_ends (b : β) (slot : i < 2 ^ bits) (empty : slots i = .empty) :
    ∃ step < 2 ^ bits, Ends bits start key slots b step := by
  classical
  obtain ⟨far, bound, met⟩ := exists_probe bits (start b) slot
  have stops : ∃ step, Stops key slots b (probe bits (start b) step) :=
    ⟨far, .inl (met ▸ empty)⟩
  refine ⟨Nat.find stops, ?_, fun before less => Nat.find_min stops less, Nat.find_spec stops⟩
  exact (Nat.find_min' stops (.inl (met ▸ empty))).trans_lt bound

theorem Ends.nonempty_before (ends : Ends bits start key slots b step) {before : Nat}
    (less : before < step) : slots (probe bits (start b) before) ≠ .empty :=
  fun empty => ends.goes before less (.inl empty)

/-- A search ends at the entry with the key. -/
theorem Sound.finds (sound : Sound bits start key slots) (ends : Ends bits start key slots b step)
    (has : Has bits slots e) (same : key e = b) :
    slots (probe bits (start b) step) = .full e := by
  subst same
  obtain ⟨i, slot, full⟩ := has
  obtain ⟨far, met, nonempty⟩ := sound.met i slot e full
  have within : step ≤ far := by
    by_contra! beyond
    exact ends.goes far beyond (.inr ⟨e, met ▸ full, rfl⟩)
  rcases ends.stops with empty | ⟨e', found, same⟩
  · rcases within.lt_or_eq with less | rfl
    · exact absurd empty (nonempty step less)
    · rw [met, full] at empty
      cases empty
  · rw [sound.distinct _ (probe_lt ..) i slot e' e found full same]
    exact full

/-- A search for a key without an entry ends at an empty slot. -/
theorem Ends.misses (ends : Ends bits start key slots b step)
    (fresh : ∀ e, Has bits slots e → key e ≠ b) :
    slots (probe bits (start b) step) = .empty := by
  rcases ends.stops with empty | ⟨e, found, same⟩
  · exact empty
  · exact absurd same (fresh e ⟨_, probe_lt .., found⟩)

theorem Sound.unique {e' : α} (sound : Sound bits start key slots) (has : Has bits slots e)
    (has' : Has bits slots e') (same : key e = key e') : e = e' := by
  obtain ⟨i, slot, full⟩ := has
  obtain ⟨j, slot', full'⟩ := has'
  cases sound.distinct i slot j slot' e e' full full' same
  rw [full] at full'
  exact Slot.full.inj full'

theorem sound_of_empty (empty : ∀ i < 2 ^ bits, slots i = .empty) : Sound bits start key slots where
  met i slot e full := by
    rw [empty i slot] at full
    cases full
  distinct i slot j _ e e' full := by
    rw [empty i slot] at full
    cases full

/-- A slot without an entry that a search for the key passes, or its end, may take the entry. -/
theorem Sound.insert (sound : Sound bits start key slots)
    (ends : Ends bits start key slots (key e) step)
    (fresh : ∀ e', Has bits slots e' → key e' ≠ key e)
    (within : step' ≤ step) :
    Sound bits start key (Function.update slots (probe bits (start (key e)) step') (.full e)) where
  met i slot e' full := by
    have kept {j : Nat} (nonempty : slots j ≠ .empty) :
        Function.update slots (probe bits (start (key e)) step') (.full e) j ≠ .empty := by
      rw [Function.update_apply]
      split
      · simp
      · exact nonempty
    by_cases here : i = probe bits (start (key e)) step'
    · subst here
      rw [Function.update_self] at full
      cases full
      exact ⟨step', rfl, fun before less => kept (ends.nonempty_before (less.trans_le within))⟩
    · rw [Function.update_of_ne here] at full
      obtain ⟨far, met, nonempty⟩ := sound.met i slot e' full
      exact ⟨far, met, fun before less => kept (nonempty before less)⟩
  distinct i slot j slot' e₁ e₂ full full' same := by
    rw [Function.update_apply] at full full'
    split at full <;> split at full'
    · next here here' => rw [here, here']
    · cases full
      exact absurd same.symm (fresh e₂ ⟨j, slot', full'⟩)
    · cases full'
      exact absurd same (fresh e₁ ⟨i, slot, full⟩)
    · exact sound.distinct i slot j slot' e₁ e₂ full full' same

/-- Another entry with the same key may take the place of an entry. -/
theorem Sound.replace {e' : α} (sound : Sound bits start key slots) (slot : x < 2 ^ bits)
    (full : slots x = .full e) (same : key e' = key e) :
    Sound bits start key (Function.update slots x (.full e')) where
  met i slot' e₁ full₁ := by
    have kept {j : Nat} (nonempty : slots j ≠ .empty) :
        Function.update slots x (.full e') j ≠ .empty := by
      rw [Function.update_apply]
      split
      · simp
      · exact nonempty
    by_cases here : i = x
    · subst here
      rw [Function.update_self] at full₁
      cases full₁
      obtain ⟨far, met, nonempty⟩ := sound.met i slot e full
      rw [same]
      exact ⟨far, met, fun before less => kept (nonempty before less)⟩
    · rw [Function.update_of_ne here] at full₁
      obtain ⟨far, met, nonempty⟩ := sound.met i slot' e₁ full₁
      exact ⟨far, met, fun before less => kept (nonempty before less)⟩
  distinct i slot₁ j slot₂ e₁ e₂ full₁ full₂ equal := by
    rw [Function.update_apply] at full₁ full₂
    split at full₁ <;> split at full₂
    · next here here' => rw [here, here']
    · next here _ =>
        cases full₁
        rw [here]
        exact sound.distinct x slot j slot₂ e e₂ full full₂ (same.symm.trans equal)
    · next _ here =>
        cases full₂
        rw [here]
        exact sound.distinct i slot₁ x slot e₁ e full₁ full (equal.trans same)
    · exact sound.distinct i slot₁ j slot₂ e₁ e₂ full₁ full₂ equal

theorem Sound.delete (sound : Sound bits start key slots) (x : Nat) :
    Sound bits start key (Function.update slots x .deleted) where
  met i slot e full := by
    rw [Function.update_apply] at full
    split at full
    · cases full
    · obtain ⟨far, met, nonempty⟩ := sound.met i slot e full
      refine ⟨far, met, fun before less => ?_⟩
      rw [Function.update_apply]
      split
      · simp
      · exact nonempty before less
  distinct i slot j slot' e e' full full' same := by
    rw [Function.update_apply] at full full'
    split at full
    · cases full
    · split at full'
      · cases full'
      · exact sound.distinct i slot j slot' e e' full full' same

theorem has_update_full {e' : α} (slot : x < 2 ^ bits) (vacant : ∀ e₁, slots x ≠ .full e₁) :
    Has bits (Function.update slots x (.full e)) e' ↔ e' = e ∨ Has bits slots e' := by
  constructor
  · rintro ⟨i, slot', full⟩
    rw [Function.update_apply] at full
    split at full
    · cases full
      exact .inl rfl
    · exact .inr ⟨i, slot', full⟩
  · rintro (rfl | ⟨i, slot', full⟩)
    · exact ⟨x, slot, Function.update_self ..⟩
    · refine ⟨i, slot', ?_⟩
      rwa [Function.update_of_ne]
      rintro rfl
      exact vacant e' full

theorem Sound.has_update {e' : α} (sound : Sound bits start key slots) (slot : x < 2 ^ bits)
    {new : Slot α} (full : slots x = .full e) :
    Has bits (Function.update slots x new) e' ↔
      new = .full e' ∨ key e' ≠ key e ∧ Has bits slots e' := by
  constructor
  · rintro ⟨i, slot', full'⟩
    by_cases here : i = x
    · rw [here, Function.update_self] at full'
      exact .inl full'
    · rw [Function.update_of_ne here] at full'
      exact .inr ⟨fun same => here (sound.distinct i slot' x slot e' e full' full same),
        i, slot', full'⟩
  · rintro (rfl | ⟨other, i, slot', full'⟩)
    · exact ⟨x, slot, Function.update_self ..⟩
    · refine ⟨i, slot', ?_⟩
      rwa [Function.update_of_ne]
      rintro rfl
      rw [full] at full'
      cases full'
      exact other rfl

end Tables

theorem isFull_iff {s : Slot α} : s.isFull = true ↔ ∃ e, s = .full e := by
  cases s <;> simp [Slot.isFull]

theorem isEmpty_iff {s : Slot α} : s.isEmpty = true ↔ s = .empty := by
  cases s <;> simp [Slot.isEmpty]

/-! ## Counting slots -/

/-- The number of slots with the property. -/
def count (p : Nat → Prop) [DecidablePred p] (n : Nat) : Nat := ((Finset.range n).filter p).card

section Count

variable {p q : Nat → Prop} [DecidablePred p] [DecidablePred q] {n x : Nat}

theorem count_le (p : Nat → Prop) [DecidablePred p] (n : Nat) : count p n ≤ n :=
  (Finset.card_filter_le ..).trans_eq (Finset.card_range n)

theorem count_congr (same : ∀ i < n, p i ↔ q i) : count p n = count q n :=
  congrArg Finset.card (Finset.filter_congr fun i member => same i (Finset.mem_range.mp member))

theorem count_eq_countP (p : Nat → Prop) [DecidablePred p] (n : Nat) :
    count p n = (List.range n).countP p := by
  rw [count, ← Nat.count_eq_card_filter_range]
  rfl

theorem exists_not_of_count_lt (less : count p n < n) : ∃ i < n, ¬ p i := by
  by_contra! all
  have everything : (Finset.range n).filter p = Finset.range n :=
    Finset.filter_true_of_mem fun i member => all i (Finset.mem_range.mp member)
  rw [count, everything, Finset.card_range] at less
  exact less.false

theorem count_eq_zero (none : ∀ i < n, ¬ p i) : count p n = 0 := by
  rw [count, Finset.card_eq_zero]
  exact Finset.filter_false_of_mem fun i member => none i (Finset.mem_range.mp member)

/-- One slot more has the property. -/
theorem count_of_added (slot : x < n) (off : ∀ i, i ≠ x → (q i ↔ p i)) (before : ¬ p x) (now : q x) :
    count q n = count p n + 1 := by
  have added : (Finset.range n).filter q = insert x ((Finset.range n).filter p) := by
    ext i
    by_cases here : i = x
    · subst here
      simp [slot, now]
    · simp [here, off i here]
  rw [count, added, Finset.card_insert_of_notMem (by simp [before]), count]

theorem count_of_removed (slot : x < n) (off : ∀ i, i ≠ x → (q i ↔ p i)) (before : p x)
    (now : ¬ q x) : count q n + 1 = count p n :=
  (count_of_added slot (fun i here => (off i here).symm) now before).symm

end Count

/-! ## Moving the entries to another table

The entries of an old table are moved one by one to a new one that lies in the same places.  An entry
that has been taken out of the old table, and is not in the new one yet, is held.  Where it is put, the
entry of the old table that is still there is taken out. -/

/-- The entries of `original` are in the new table, in the old one or held. -/
structure Moving (newBits oldBits : Nat) (start : β → Nat) (key : α → β) (original : α → Prop)
    (size : Nat) (new old : Nat → Slot α) (held : Option α) : Prop where
  sound : Sound newBits start key new
  solid : ∀ i < 2 ^ newBits, new i ≠ .deleted
  distinct : ∀ i < 2 ^ oldBits, ∀ j < 2 ^ oldBits, ∀ e e', old i = .full e → old j = .full e' →
    key e = key e' → i = j
  fresh : ∀ e e', Has newBits new e → Has oldBits old e' → key e ≠ key e'
  held_fresh : ∀ e, held = some e → ∀ e', Has newBits new e' ∨ Has oldBits old e' → key e' ≠ key e
  entries : ∀ e, Has newBits new e ∨ Has oldBits old e ∨ held = some e ↔ original e
  counted : count (fun i => (new i).isFull = true) (2 ^ newBits) +
    count (fun i => (old i).isFull = true) (2 ^ oldBits) + held.toList.length = size

namespace Moving

variable {newBits oldBits : Nat} {start : β → Nat} {key : α → β} {original : α → Prop} {size : Nat}
  {new old : Nat → Slot α} {e e' : α} {i : Nat}

theorem has_deleted {other : α}
    (distinct : ∀ i < 2 ^ oldBits, ∀ j < 2 ^ oldBits, ∀ e e', old i = .full e → old j = .full e' →
      key e = key e' → i = j) (slot : i < 2 ^ oldBits) (full : old i = .full e) :
    Has oldBits (Function.update old i .deleted) other ↔ key other ≠ key e ∧ Has oldBits old other := by
  constructor
  · rintro ⟨j, slot', full'⟩
    by_cases here : j = i
    · rw [here, Function.update_self] at full'
      cases full'
    · rw [Function.update_of_ne here] at full'
      exact ⟨fun same => here (distinct j slot' i slot other e full' full same), j, slot', full'⟩
  · rintro ⟨different, j, slot', full'⟩
    refine ⟨j, slot', ?_⟩
    rwa [Function.update_of_ne]
    rintro rfl
    rw [full] at full'
    cases full'
    exact different rfl

theorem count_deleted (slot : i < 2 ^ oldBits) (full : old i = .full e) :
    count (fun j => (Function.update old i .deleted j).isFull = true) (2 ^ oldBits) + 1 =
      count (fun j => (old j).isFull = true) (2 ^ oldBits) := by
  refine count_of_removed slot (fun j here => ?_) ?_ ?_
  · rw [Function.update_of_ne here]
  · rw [full]
    rfl
  · rw [Function.update_self]
    exact Bool.false_ne_true

theorem distinct_deleted (moving : Moving newBits oldBits start key original size new old held)
    (i : Nat) : ∀ j < 2 ^ oldBits, ∀ k < 2 ^ oldBits, ∀ e e',
      Function.update old i .deleted j = .full e → Function.update old i .deleted k = .full e' →
        key e = key e' → j = k := by
  intro j slot k slot' e e' full full' same
  rw [Function.update_apply] at full full'
  split at full
  · cases full
  · split at full'
    · cases full'
    · exact moving.distinct j slot k slot' e e' full full' same

/-- Only the slots of the old table count. -/
theorem congr_old {held : Option α} {old' : Nat → Slot α}
    (moving : Moving newBits oldBits start key original size new old held)
    (same : ∀ i < 2 ^ oldBits, old' i = old i) :
    Moving newBits oldBits start key original size new old' held := by
  have has (e : α) : Has oldBits old' e ↔ Has oldBits old e := by
    constructor
    · rintro ⟨i, slot, full⟩
      exact ⟨i, slot, (same i slot).symm.trans full⟩
    · rintro ⟨i, slot, full⟩
      exact ⟨i, slot, (same i slot).trans full⟩
  refine ⟨moving.sound, moving.solid, fun i slot j slot' e e' full full' => ?_, fun e e' => ?_,
    fun e held e' => ?_, fun e => ?_, ?_⟩
  · rw [same i slot] at full
    rw [same j slot'] at full'
    exact moving.distinct i slot j slot' e e' full full'
  · rw [has]
    exact moving.fresh e e'
  · rw [has]
    exact moving.held_fresh e held e'
  · rw [has]
    exact moving.entries e
  · have taken : count (fun i => (old' i).isFull = true) (2 ^ oldBits) =
        count (fun i => (old i).isFull = true) (2 ^ oldBits) :=
      count_congr fun i slot => by rw [same i slot]
    rw [taken]
    exact moving.counted

/-- An entry is taken out of the old table. -/
theorem lift (moving : Moving newBits oldBits start key original size new old none)
    (slot : i < 2 ^ oldBits) (full : old i = .full e) :
    Moving newBits oldBits start key original size new (Function.update old i .deleted) (some e) where
  sound := moving.sound
  solid := moving.solid
  distinct := moving.distinct_deleted i
  fresh e₁ e₂ has has' := moving.fresh e₁ e₂ has ((has_deleted moving.distinct slot full).mp has').2
  held_fresh := by
    rintro _ ⟨⟩ e₁ (has | has)
    · exact moving.fresh e₁ e has ⟨i, slot, full⟩
    · exact ((has_deleted moving.distinct slot full).mp has).1
  entries e₁ := by
    rw [← moving.entries e₁, has_deleted moving.distinct slot full]
    by_cases same : key e₁ = key e
    · constructor
      · rintro (has | ⟨different, -⟩ | taken)
        · exact .inl has
        · exact absurd same different
        · cases taken
          exact .inr (.inl ⟨i, slot, full⟩)
      · rintro (has | ⟨j, slot', full'⟩ | none)
        · exact .inl has
        · cases moving.distinct j slot' i slot e₁ e full' full same
          rw [full] at full'
          cases full'
          exact .inr (.inr rfl)
        · cases none
    · have other : e ≠ e₁ := fun equal => same (congrArg key equal.symm)
      simp [same, other]
  counted := by
    have counted := moving.counted
    have taken := count_deleted slot full
    simp only [Option.toList_none, Option.toList_some, List.length_nil, List.length_singleton]
      at counted ⊢
    omega

/-- The first empty slot on the way of a key ends a search for it, where the key is not in the table. -/
theorem ends_at_empty {bits : Nat} {slots : Nat → Slot α} {b : β} {stop : Nat}
    (used : ∀ before < stop, slots (probe bits (start b) before) ≠ .empty)
    (empty : slots (probe bits (start b) stop) = .empty)
    (absent : ∀ e, Has bits slots e → key e ≠ b) : Ends bits start key slots b stop where
  goes before less := by
    rintro (none | ⟨e, full, same⟩)
    · exact used before less none
    · exact absent e ⟨_, probe_lt .., full⟩ same
  stops := .inl empty

/-- There is an empty slot for the entry that is held. -/
theorem exists_empty (moving : Moving newBits oldBits start key original size new old (some e))
    (room : size ≤ 2 ^ newBits) :
    ∃ stop < 2 ^ newBits, (∀ before < stop, new (probe newBits (start (key e)) before) ≠ .empty) ∧
      new (probe newBits (start (key e)) stop) = .empty := by
  have counted := moving.counted
  rw [Option.toList_some, List.length_singleton] at counted
  obtain ⟨i, slot, vacant⟩ := exists_not_of_count_lt
    (p := fun i => (new i).isFull = true) (n := 2 ^ newBits) (by omega)
  have empty : new i = .empty := by
    cases is : new i with
    | empty => rfl
    | deleted => exact absurd is (moving.solid i slot)
    | full e => exact absurd (by rw [is]; rfl) vacant
  obtain ⟨stop, bound, ends⟩ : ∃ stop < 2 ^ newBits, Ends newBits start key new (key e) stop :=
    exists_ends (key e) slot empty
  exact ⟨stop, bound, fun before less => ends.nonempty_before less,
    ends.misses fun e' has => moving.held_fresh e rfl e' (.inl has)⟩

section Place

variable {stop : Nat}

theorem has_put (empty : new (probe newBits (start (key e)) stop) = .empty) (e' : α) :
    Has newBits (Function.update new (probe newBits (start (key e)) stop) (.full e)) e' ↔
      e' = e ∨ Has newBits new e' := by
  refine has_update_full (probe_lt ..) fun e₁ full => ?_
  rw [empty] at full
  cases full

theorem count_put (empty : new (probe newBits (start (key e)) stop) = .empty) :
    count (fun i => (Function.update new (probe newBits (start (key e)) stop) (.full e) i).isFull
      = true) (2 ^ newBits) = count (fun i => (new i).isFull = true) (2 ^ newBits) + 1 := by
  refine count_of_added (probe_lt newBits (start (key e)) stop) (fun i here => ?_) ?_ ?_
  · rw [Function.update_of_ne here]
  · rw [empty]
    exact Bool.false_ne_true
  · rw [Function.update_self]
    rfl

/-- The entry is put where no entry of the old table is. -/
theorem place (moving : Moving newBits oldBits start key original size new old (some e))
    (used : ∀ before < stop, new (probe newBits (start (key e)) before) ≠ .empty)
    (empty : new (probe newBits (start (key e)) stop) = .empty) :
    Moving newBits oldBits start key original size
      (Function.update new (probe newBits (start (key e)) stop) (.full e)) old none where
  sound :=
    moving.sound.insert
      (ends_at_empty used empty fun e' has => moving.held_fresh e rfl e' (.inl has))
      (fun e' has => moving.held_fresh e rfl e' (.inl has)) le_rfl
  solid i slot := by
    rw [Function.update_apply]
    split
    · simp
    · exact moving.solid i slot
  distinct := moving.distinct
  fresh e₁ e₂ has has' := by
    rcases (has_put empty e₁).mp has with rfl | has
    · exact (moving.held_fresh e₁ rfl e₂ (.inr has')).symm
    · exact moving.fresh e₁ e₂ has has'
  held_fresh e₁ none := by cases none
  entries e₁ := by
    rw [← moving.entries e₁, has_put empty]
    simp only [reduceCtorEq, or_false, Option.some.injEq]
    rw [or_assoc, or_comm (a := e₁ = e), eq_comm (a := e), or_assoc]
  counted := by
    have counted := moving.counted
    have put := count_put empty
    simp only [Option.toList_none, Option.toList_some, List.length_nil, List.length_singleton]
      at counted ⊢
    omega

/-- The entry is put in the place of an entry of the old table, which is held then. -/
theorem kick (moving : Moving newBits oldBits start key original size new old (some e))
    (used : ∀ before < stop, new (probe newBits (start (key e)) before) ≠ .empty)
    (empty : new (probe newBits (start (key e)) stop) = .empty)
    (slot : probe newBits (start (key e)) stop < 2 ^ oldBits)
    (full : old (probe newBits (start (key e)) stop) = .full e') :
    Moving newBits oldBits start key original size
      (Function.update new (probe newBits (start (key e)) stop) (.full e))
      (Function.update old (probe newBits (start (key e)) stop) .deleted) (some e') :=
  (moving.place used empty).lift slot full

end Place

end Moving

end OpenAddressing
