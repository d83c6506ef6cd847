import Mathlib.Data.List.Dedup
import Mathlib.Logic.Function.Basic

/-!
# Hash tables

What a correct hash table offers: keys are equal when their contents are, and the entries are listed
in the order of the buckets, each of them once.  A table reads as a finite map when the entries are
those of the map.
-/

/-- Hash tables of type `τ`, from keys compared by their content. -/
structure HashTable (τ : Type*) {κ β : Type*} (content : κ → β) (ν : Type*) where
  init : τ
  nBuckets : τ → Nat
  get : τ → κ → Option ν
  put : τ → κ → ν → τ
  entries : τ → List (κ × ν)
  nBuckets_init : nBuckets init = 0
  nBuckets_put : ∀ t k v, nBuckets (put t k v) ≠ 0
  entries_init : entries init = []
  entries_of_no_buckets : ∀ t, nBuckets t = 0 → entries t = []
  distinct : ∀ t, ((entries t).map fun e => content e.1).Nodup
  get_eq_some : ∀ t k v, get t k = some v ↔ ∃ e ∈ entries t, content e.1 = content k ∧ e.2 = v
  mem_put : ∀ t k v b w, (∃ e ∈ entries (put t k v), content e.1 = b ∧ e.2 = w) ↔
    b = content k ∧ w = v ∨ b ≠ content k ∧ ∃ e ∈ entries t, content e.1 = b ∧ e.2 = w

namespace HashTable

variable {τ κ β ν : Type*} {content : κ → β}

/-- The entries of the table are those of the map. -/
def Reads (h : HashTable τ content ν) (t : τ) (m : β → Option ν) : Prop :=
  ∀ b v, (∃ e ∈ h.entries t, content e.1 = b ∧ e.2 = v) ↔ m b = some v

/-- The map after the assignments, the first one first. -/
def assigned [DecidableEq β] (content : κ → β) (m : β → Option ν) (pairs : List (κ × ν)) :
    β → Option ν :=
  pairs.foldl (fun m e => Function.update m (content e.1) (some e.2)) m

theorem assigned_isSome [DecidableEq β] (m : β → Option ν) (pairs : List (κ × ν)) (b : β) :
    (assigned content m pairs b).isSome ↔
      b ∈ pairs.map (fun e => content e.1) ∨ (m b).isSome := by
  induction pairs generalizing m with
  | nil => simp [assigned]
  | cons e rest ih =>
      have later := ih (Function.update m (content e.1) (some e.2))
      unfold assigned at later ⊢
      rw [List.foldl_cons, later, List.map_cons, List.mem_cons]
      by_cases same : b = content e.1
      · simp [same]
      · simp [same]

/-- Where no two assignments are to one key, all of them stay. -/
theorem assigned_eq_some [DecidableEq β] {m : β → Option ν} {pairs : List (κ × ν)}
    (distinct : (pairs.map fun e => content e.1).Nodup) (b : β) (v : ν)
    (fresh : ∀ e ∈ pairs, m (content e.1) = none) :
    assigned content m pairs b = some v ↔
      (∃ e ∈ pairs, content e.1 = b ∧ e.2 = v) ∨ m b = some v := by
  induction pairs generalizing m with
  | nil => simp [assigned]
  | cons e rest ih =>
      obtain ⟨new, distinct⟩ := List.nodup_cons.mp distinct
      have others (e' : κ × ν) (among : e' ∈ rest) : content e'.1 ≠ content e.1 := by
        intro same
        exact new (List.mem_map.mpr ⟨e', among, same⟩)
      have later := ih (m := Function.update m (content e.1) (some e.2)) distinct fun e' among => by
        rw [Function.update_of_ne (others e' among)]
        exact fresh e' (List.mem_cons_of_mem _ among)
      unfold assigned at later ⊢
      rw [List.foldl_cons, later]
      have unassigned := fresh e (List.mem_cons_self ..)
      by_cases same : b = content e.1
      · subst same
        simp only [Function.update_self, Option.some.injEq, unassigned, reduceCtorEq, or_false,
          List.mem_cons, exists_eq_or_imp, true_and]
        exact or_comm
      · simp [Ne.symm same, same]

namespace Reads

variable {h : HashTable τ content ν} {t : τ} {m : β → Option ν}

theorem get_eq (reads : h.Reads t m) (k : κ) : h.get t k = m (content k) := by
  apply Option.ext
  intro v
  exact (h.get_eq_some t k v).trans (reads (content k) v)

theorem init (h : HashTable τ content ν) : h.Reads h.init fun _ => none := by
  intro b v
  simp [h.entries_init]

theorem put [DecidableEq β] (reads : h.Reads t m) (k : κ) (v : ν) :
    h.Reads (h.put t k v) (Function.update m (content k) (some v)) := by
  intro b w
  rw [h.mem_put]
  by_cases same : b = content k
  · simp [same, eq_comm]
  · simp [same, reads b w]

/-- Every key of the map is that of exactly one entry. -/
theorem contents_iff (reads : h.Reads t m) (b : β) :
    b ∈ (h.entries t).map (fun e => content e.1) ↔ (m b).isSome := by
  rw [Option.isSome_iff_exists, List.mem_map]
  constructor
  · rintro ⟨e, among, same⟩
    exact ⟨e.2, (reads b e.2).mp ⟨e, among, same, rfl⟩⟩
  · rintro ⟨v, found⟩
    obtain ⟨e, among, same, -⟩ := (reads b v).mpr found
    exact ⟨e, among, same⟩

/-- There are as many entries as there are different keys in a list of the keys. -/
theorem length_entries [DecidableEq β] (reads : h.Reads t m) {keys : List β}
    (lists : ∀ b, b ∈ keys ↔ (m b).isSome) : (h.entries t).length = keys.dedup.length := by
  have same : ((h.entries t).map fun e => content e.1).Perm keys.dedup := by
    apply (List.perm_ext_iff_of_nodup (h.distinct t) keys.nodup_dedup).mpr
    intro b
    rw [reads.contents_iff, List.mem_dedup, lists]
  rw [← same.length_eq, List.length_map]

end Reads

section Assoc

variable [DecidableEq β]

/-- The entries with the value put under the key, in the entry of an equal key if there is one. -/
def assocPut (content : κ → β) (k : κ) (v : ν) : List (κ × ν) → List (κ × ν)
  | [] => [(k, v)]
  | e :: rest => if content e.1 = content k then (e.1, v) :: rest else e :: assocPut content k v rest

theorem mem_contents_assocPut (k : κ) (v : ν) (l : List (κ × ν)) (b : β) :
    b ∈ (assocPut content k v l).map (fun e => content e.1) ↔
      b = content k ∨ b ∈ l.map fun e => content e.1 := by
  induction l with
  | nil => simp [assocPut]
  | cons e rest ih =>
      by_cases same : content e.1 = content k
      · simp [assocPut, same]
      · rw [assocPut, if_neg same, List.map_cons, List.mem_cons, ih, List.map_cons, List.mem_cons]
        exact or_left_comm

theorem nodup_assocPut (k : κ) (v : ν) {l : List (κ × ν)}
    (distinct : (l.map fun e => content e.1).Nodup) :
    ((assocPut content k v l).map fun e => content e.1).Nodup := by
  induction l with
  | nil => simp [assocPut]
  | cons e rest ih =>
      obtain ⟨new, distinct⟩ := List.nodup_cons.mp distinct
      by_cases same : content e.1 = content k
      · rw [assocPut, if_pos same]
        exact List.nodup_cons.mpr ⟨new, distinct⟩
      · rw [assocPut, if_neg same]
        refine List.nodup_cons.mpr ⟨fun among => ?_, ih distinct⟩
        rcases (mem_contents_assocPut k v rest _).mp among with equal | among
        · exact same equal
        · exact new among

theorem mem_assocPut (k : κ) (v : ν) {l : List (κ × ν)}
    (distinct : (l.map fun e => content e.1).Nodup) (b : β) (w : ν) :
    (∃ e ∈ assocPut content k v l, content e.1 = b ∧ e.2 = w) ↔
      b = content k ∧ w = v ∨ b ≠ content k ∧ ∃ e ∈ l, content e.1 = b ∧ e.2 = w := by
  induction l with
  | nil =>
      simp [assocPut, eq_comm]
  | cons e rest ih =>
      obtain ⟨new, distinct⟩ := List.nodup_cons.mp distinct
      by_cases same : content e.1 = content k
      · have others (e' : κ × ν) (among : e' ∈ rest) : content e'.1 ≠ content k := by
          intro equal
          exact new (List.mem_map.mpr ⟨e', among, equal.trans same.symm⟩)
        have unfound : ¬ ∃ e ∈ rest, content e.1 = content k ∧ e.2 = w := by
          rintro ⟨e', among, equal, -⟩
          exact others e' among equal
        rw [assocPut, if_pos same]
        simp only [List.mem_cons, exists_eq_or_imp]
        by_cases equal : b = content k
        · subst equal
          rw [or_iff_left unfound]
          simp [same, eq_comm]
        · have apart : content e.1 ≠ b := fun equal' => equal (equal'.symm.trans same)
          simp [equal, apart]
      · simp only [assocPut, if_neg same, List.mem_cons, exists_eq_or_imp, ih distinct]
        by_cases equal : b = content k
        · simp [equal, same]
        · simp [equal]

theorem find_assoc (k : κ) (v : ν) {l : List (κ × ν)}
    (distinct : (l.map fun e => content e.1).Nodup) :
    (l.find? fun e => content e.1 = content k).map Prod.snd = some v ↔
      ∃ e ∈ l, content e.1 = content k ∧ e.2 = v := by
  induction l with
  | nil => simp
  | cons e rest ih =>
      obtain ⟨new, distinct⟩ := List.nodup_cons.mp distinct
      by_cases same : content e.1 = content k
      · have unfound : ¬ ∃ e ∈ rest, content e.1 = content k ∧ e.2 = v := by
          rintro ⟨e', among, equal, -⟩
          exact new (List.mem_map.mpr ⟨e', among, equal.trans same.symm⟩)
        simp [same, unfound]
      · simpa [List.find?_cons, same] using ih distinct

/-- A table as the list of its entries. -/
def assoc (content : κ → β) (ν : Type*) :
    HashTable { l : List (κ × ν) // (l.map fun e => content e.1).Nodup } content ν where
  init := ⟨[], List.nodup_nil⟩
  nBuckets t := t.1.length
  get t k := (t.1.find? fun e => content e.1 = content k).map Prod.snd
  put t k v := ⟨assocPut content k v t.1, nodup_assocPut k v t.2⟩
  entries t := t.1
  nBuckets_init := rfl
  nBuckets_put t k v := by
    obtain ⟨l, distinct⟩ := t
    cases l with
    | nil => simp [assocPut]
    | cons e rest =>
        simp only [assocPut]
        split <;> simp
  entries_init := rfl
  entries_of_no_buckets t := List.length_eq_zero_iff.mp
  distinct t := t.2
  get_eq_some t k v := find_assoc k v t.2
  mem_put t k v b w := mem_assocPut k v t.2 b w

end Assoc

end HashTable
