import Pone.Khash.Refine
import Pone.Map.Refine
import Pone.Simulation

/-!
# The maps of `map.c` on `pone_khash.h`

The functions of maps with the hash table that they are built on, in the place of a table that is taken
to be correct.  Up to `2 ^ 30` assignments, nothing can tell the two apart.
-/

namespace Pone
namespace Khash

open Map (Vals Halt HashBody Op keyOf Hashes valHashFunc)
open Simulation (orHalt)

variable {τ α : Type} (vals : Vals α)

/-- `pone_val_hash_func` of a key that it has ended on before. -/
def valHash (key : α) : UInt32 := (valHashFunc vals key).toOption.getD 0

/-- `kh_get` with `pone_val_hash_func`, and the value. -/
def valFind (h : Kh α α) (key : α) : Except Halt (Option α) :=
  if h.nBuckets = 0 then .ok none
  else do
    let _ ← valHashFunc vals key
    orHalt .wild (khFind (valHash vals) vals.bytes h key)

/-- `kh_put` with `pone_val_hash_func` and the assignment of the value. -/
def valStore (h : Kh α α) (key value : α) : Except Halt (Kh α α) := do
  let _ ← valHashFunc vals key
  orHalt .wild (khStore (valHash vals) vals.bytes h key value)

/-- `pone_map_new` -/
def mapNew : HashBody (Kh α α) := { h := khInit, len := 0 }

/-- `pone_map_at_key` -/
def mapAtKey (nil : α) (self : HashBody (Kh α α)) (key : α) : Except Halt α := do
  match ← valFind vals self.h key with
  | some v => return v
  | none => return nil

/-- `pone_map_exists` -/
def mapExists (self : HashBody (Kh α α)) (key : α) : Except Halt Bool := do
  return (← valFind vals self.h key).isSome

/-- `pone_map_assign_key` -/
def mapAssignKey (hv : HashBody (Kh α α)) (key value : α) : Except Halt (HashBody (Kh α α)) := do
  let key := if (vals.str key).isSome then key else vals.stringify key
  let h ← valStore vals hv.h key value
  return { h, len := hv.len + 1 }

/-- `pone_map_assign_keys` with the pairs of its arguments. -/
def mapAssignKeys (hash : HashBody (Kh α α)) : List (α × α) → Except Halt (HashBody (Kh α α))
  | [] => .ok hash
  | (k, v) :: rest => do mapAssignKeys (← mapAssignKey vals hash k v) rest

/-- The keys and the values in the order of `PONE_MAP_FOREACH`, which `pone_map_keys` and
`pone_map_values` push. -/
def mapEntries (val : HashBody (Kh α α)) : Except Halt (List (α × α)) := orHalt .wild (khEntries val.h)

variable {vals}

/-- Equal keys have equal hash values. -/
def hashOf : Option (List UInt8) → UInt32
  | some (c :: rest) =>
      if c = 0 then 0 else rest.foldl (fun h c => (h <<< 5) - h + Map.charHash c) (Map.charHash c)
  | _ => 0

theorem valHash_eq (key : α) : valHash vals key = hashOf (vals.bytes key) := by
  unfold valHash valHashFunc Vals.bytes
  cases vals.str key with
  | none => rfl
  | some s =>
      obtain ⟨bytes, behind⟩ := s
      cases bytes with
      | nil =>
          simp only [Option.map_some, hashOf]
          split <;> rfl
      | cons c rest =>
          simp only [Option.map_some, hashOf]
          split <;> rfl

def startOf (b : Option (List UInt8)) : Nat := (hashOf b).toNat

theorem valHash_start (key : α) : (valHash vals key).toNat = startOf (vals.bytes key) := by
  rw [valHash_eq, startOf]

/-- The table of a map on `pone_khash.h` reads as the finite map. -/
abbrev ReadsMap (vals : Vals α) (h : Kh α α) (m : Option (List UInt8) → Option α) : Prop :=
  Reads vals.bytes startOf h m

theorem mapAssignKey_reads {hv : HashBody (Kh α α)} {m : Option (List UInt8) → Option α}
    (reads : ReadsMap vals hv.h m) (small : hv.h.size < 2 ^ 30) {key : α}
    (hashes : Hashes vals (keyOf vals key)) (value : α) :
    ∃ h, mapAssignKey vals hv key value = .ok { h, len := hv.len + 1 } ∧ h.nBuckets ≠ 0 ∧
      ReadsMap vals h (Function.update m (vals.bytes (keyOf vals key)) (some value)) ∧
      h.size ≤ hv.h.size + 1 := by
  obtain ⟨n, hashed⟩ := hashes
  obtain ⟨h, stored, reads', size⟩ := reads.store valHash_start small (keyOf vals key) value
  refine ⟨h, ?_, ?_, reads', ?_⟩
  · unfold keyOf at hashed stored
    simp only [mapAssignKey, valStore, hashed]
    rw [stored]
    rfl
  · intro none
    obtain ⟨k, -, i, less, -⟩ := (reads'.entries (vals.bytes (keyOf vals key)) value).mpr
      (Function.update_self ..)
    omega
  · rw [size]
    split <;> omega

/-- Assignments change the table as the finite map, and each one counts. -/
theorem mapAssignKeys_reads {hv : HashBody (Kh α α)} {m : Option (List UInt8) → Option α}
    {pairs : List (α × α)} (reads : ReadsMap vals hv.h m)
    (few : hv.h.size + pairs.length ≤ 2 ^ 30)
    (hashes : ∀ e ∈ pairs, Hashes vals (keyOf vals e.1)) :
    ∃ hv', mapAssignKeys vals hv pairs = .ok hv' ∧ hv'.len = hv.len + pairs.length ∧
      ReadsMap vals hv'.h
        (HashTable.assigned vals.bytes m (pairs.map fun e => (keyOf vals e.1, e.2))) ∧
      (hv'.h.nBuckets = 0 ↔ hv.h.nBuckets = 0 ∧ pairs = []) := by
  induction pairs generalizing hv m with
  | nil => exact ⟨hv, rfl, by simp, reads, by simp⟩
  | cons e rest ih =>
      rw [List.length_cons] at few
      obtain ⟨h, assigned, buckets, reads₁, size⟩ :=
        mapAssignKey_reads reads (by omega) (hashes e List.mem_cons_self) e.2
      obtain ⟨hv', assigned', counted, reads', iff⟩ := @ih { h, len := hv.len + 1 } _ reads₁
        (by simp only; omega) fun e' among => hashes e' (List.mem_cons_of_mem _ among)
      refine ⟨hv', ?_, ?_, reads', ?_⟩
      · simp only [mapAssignKeys, assigned]
        exact assigned'
      · rw [counted, List.length_cons]
        push_cast
        omega
      · rw [iff]
        simp [buckets]

/-- What the table has under a key, whether or not the hash function ends on it. -/
theorem valFind_eq {h : Kh α α} {m : Option (List UInt8) → Option α} (reads : ReadsMap vals h m)
    (key : α) :
    valFind vals h key = if h.nBuckets = 0 then .ok none
      else (valHashFunc vals key).map fun _ => m (vals.bytes key) := by
  unfold valFind
  rw [reads.find valHash_start]
  split
  · rfl
  · cases valHashFunc vals key <;> rfl

theorem khGet_eq (table : HashTable τ vals.bytes α) {h : τ} {m : Option (List UInt8) → Option α}
    (reads : table.Reads h m) (key : α) :
    Map.khGet vals table h key = if table.nBuckets h = 0 then .ok none
      else (valHashFunc vals key).map fun _ => m (vals.bytes key) := by
  unfold Map.khGet
  rw [reads.get_eq]
  split
  · rfl
  · cases valHashFunc vals key <;> rfl

/-- A table has buckets after the first assignment. -/
theorem nBuckets_assigned (table : HashTable τ vals.bytes α) {pairs : List (α × α)}
    {hv hv' : HashBody τ} (assigned : Map.mapAssignKeys vals table hv pairs = .ok hv') :
    table.nBuckets hv'.h = 0 ↔ table.nBuckets hv.h = 0 ∧ pairs = [] := by
  induction pairs generalizing hv with
  | nil =>
      cases assigned
      simp
  | cons e rest ih =>
      simp only [Map.mapAssignKeys] at assigned
      cases first : Map.mapAssignKey vals table hv e.1 e.2 with
      | error =>
          rw [first] at assigned
          cases assigned
      | ok hv₁ =>
          rw [first] at assigned
          rw [ih assigned]
          simp only [Map.mapAssignKey, Map.khPut] at first
          cases hashed : valHashFunc vals
              (if (vals.str e.1).isSome = true then e.1 else vals.stringify e.1) with
          | error =>
              rw [hashed] at first
              cases first
          | ok n =>
              rw [hashed] at first
              cases first
              simp [table.nBuckets_put]

/-- Maps on `pone_khash.h` behave as maps on any correct hash table: after the same assignments, the
same keys are found with the same values, the same keys stop the process, the sizes agree, and the
same entries are listed, each once. -/
theorem maps_agree (nil : α) (table : HashTable τ vals.bytes α) (pairs : List (α × α))
    (hashes : ∀ e ∈ pairs, Hashes vals (keyOf vals e.1)) (few : pairs.length ≤ 2 ^ 30) :
    ∃ body body', Map.mapAssignKeys vals table (Map.mapNew vals table) pairs = .ok body ∧
      mapAssignKeys vals mapNew pairs = .ok body' ∧ body'.len = body.len ∧
      (∀ key, mapAtKey vals nil body' key = Map.mapAtKey vals table nil body key) ∧
      (∀ key, mapExists vals body' key = Map.mapExists vals table body key) ∧
      ∃ entries, mapEntries body' = .ok entries ∧
        (entries.map fun e => (vals.bytes e.1, e.2)).Perm
          (((Map.mapKeys vals table body).zip (Map.mapValues vals table body)).map
            fun e => (vals.bytes e.1, e.2)) := by
  obtain ⟨body, assigned, counted, reads⟩ :=
    Map.mapAssignKeys_reads (Map.mapNew vals table) (HashTable.Reads.init table) hashes
  have reads₀ : ReadsMap vals (mapNew : HashBody (Kh α α)).h fun _ => none := Reads.init vals.bytes _
  obtain ⟨body', assigned', counted', reads', buckets'⟩ :=
    mapAssignKeys_reads reads₀ ((Nat.zero_add _).trans_le few) hashes
  have buckets := nBuckets_assigned table assigned
  have same_buckets : body'.h.nBuckets = 0 ↔ table.nBuckets body.h = 0 := by
    rw [buckets, buckets']
    exact and_congr_left' (iff_of_true rfl table.nBuckets_init)
  have found (key : α) : valFind vals body'.h key = Map.khGet vals table body.h key := by
    rw [valFind_eq reads', khGet_eq table reads]
    simp only [same_buckets]
  obtain ⟨entries, listed, nodup, map, -⟩ := reads'.foreach
  refine ⟨body, body', assigned, assigned', by rw [counted, counted']; rfl, fun key => ?_,
    fun key => ?_, entries, by rw [mapEntries, listed]; rfl, ?_⟩
  · have same := found key
    unfold mapAtKey Map.mapAtKey
    generalize Map.khGet vals table body.h key = result at same ⊢
    subst same
    cases valFind vals body'.h key with
    | error => rfl
    | ok value => cases value <;> rfl
  · unfold mapExists Map.mapExists
    rw [found]
  · -- both lists have the pairs of the finite map, each once
    have once {l : List (α × α)} (nodup : (l.map fun e => vals.bytes e.1).Nodup) :
        (l.map fun e => (vals.bytes e.1, e.2)).Nodup := by
      apply List.Nodup.of_map Prod.fst
      rwa [List.map_map]
    rw [Map.mapKeys, Map.mapValues, List.zip_map']
    refine (List.perm_ext_iff_of_nodup (once nodup) ?_).mpr fun pair => ?_
    · simpa using once (table.distinct body.h)
    · obtain ⟨b, v⟩ := pair
      have left := map b v
      have right := reads b v
      simp only [List.mem_map, Prod.mk.injEq, Prod.mk.eta, List.map_id']
      rw [left, right]

/-- A string, an integer and the string again. -/
def repeated : List (Map.Plain × Map.Plain) :=
  [(Map.strA, .inl 1), (.inl 7, .inl 2), (Map.strA, .inl 3)]

theorem maps_agree_repeated :
    ∃ body body', Map.mapAssignKeys Map.plainVals (HashTable.assoc _ _)
        (Map.mapNew Map.plainVals (HashTable.assoc _ _)) repeated = .ok body ∧
      mapAssignKeys Map.plainVals mapNew repeated = .ok body' ∧ body'.len = body.len ∧
      (∀ key, mapAtKey Map.plainVals (.inl 0) body' key =
        Map.mapAtKey Map.plainVals (HashTable.assoc _ _) (.inl 0) body key) ∧
      (∀ key, mapExists Map.plainVals body' key =
        Map.mapExists Map.plainVals (HashTable.assoc _ _) body key) ∧
      ∃ entries, mapEntries body' = .ok entries ∧
        (entries.map fun e => (Map.plainVals.bytes e.1, e.2)).Perm
          (((Map.mapKeys Map.plainVals (HashTable.assoc _ _) body).zip
            (Map.mapValues Map.plainVals (HashTable.assoc _ _) body)).map
              fun e => (Map.plainVals.bytes e.1, e.2)) := by
  refine maps_agree (.inl 0) (HashTable.assoc _ _) repeated (fun e member => ?_) (by decide)
  simp only [repeated, List.mem_cons, List.not_mem_nil, or_false] at member
  rcases member with rfl | rfl | rfl
  · exact ⟨_, rfl⟩
  · exact ⟨_, rfl⟩
  · exact ⟨_, rfl⟩

end Khash
end Pone
