import Pone.Map.Refine

/-!
# Access to maps by operator and by method

An assignment stringifies its key, and so does `pone_at_key`.  `Map#AT-KEY` and `Map#exists` hand the
key to the hash function as it is.
-/

namespace Pone
namespace Map

variable {τ α : Type} (vals : Vals α) (table : HashTable τ vals.bytes α)

/-- `pone_at_key` on a map -/
def atKey (nil : α) (obj : HashBody τ) (key : α) : Except Halt α :=
  mapAtKey vals table nil obj (vals.stringify key)

/-- `Map#AT-KEY` -/
def methHashAtKey (nil : α) (self : HashBody τ) (key : α) : Except Halt α :=
  mapAtKey vals table nil self key

/-- `Map#exists` -/
def methHashExists (self : HashBody τ) (key : α) : Except Halt Bool :=
  mapExists vals table self key

/-- `Map#ASSIGN-KEY`, which `pone_assign_key` calls. -/
def methHashAssignKey (self : HashBody τ) (key value : α) : Except Halt (HashBody τ × α) := do
  return (← mapAssignKey vals table self key value, value)

/-- A way to assign under keys. -/
inductive Assignment (α : Type) where
  | method (key value : α)
  | literal (pairs : List (α × α))

/-- The assignment, by `methHashAssignKey` or by the code of a literal. -/
def Assignment.run (hv : HashBody τ) : Assignment α → Except Halt (HashBody τ)
  | .method key value => do return (← methHashAssignKey vals table hv key value).1
  | .literal pairs => mapAssignKeys vals table hv pairs

def Assignment.op : Assignment α → Op α
  | .method key value => .assignKey key value
  | .literal pairs => .assignKeys pairs

def assignAll (hv : HashBody τ) : List (Assignment α) → Except Halt (HashBody τ)
  | [] => .ok hv
  | assignment :: rest => do assignAll (← assignment.run vals table hv) rest

/-- The three ways of reading give what the finite map has for the string of the key. -/
structure Agree (nil : α) (body : HashBody τ) (m : Option (List UInt8) → Option α) (key : α) :
    Prop where
  operator : atKey vals table nil body key = .ok ((m (vals.bytes (vals.stringify key))).getD nil)
  at_key : methHashAtKey vals table nil body key =
    .ok ((m (vals.bytes (vals.stringify key))).getD nil)
  exists_eq : methHashExists vals table body key =
    .ok (m (vals.bytes (vals.stringify key))).isSome

variable {vals table}

theorem assignAll_eq (hv : HashBody τ) (assignments : List (Assignment α)) :
    assignAll vals table hv assignments =
      mapAssignKeys vals table hv (pairs (assignments.map Assignment.op)) := by
  rw [← run_eq]
  induction assignments generalizing hv with
  | nil => rfl
  | cons assignment rest ih =>
      rw [assignAll, List.map_cons, Map.run]
      cases assignment with
      | method key value =>
          simp only [Assignment.run, methHashAssignKey, Assignment.op, step]
          cases mapAssignKey vals table hv key value with
          | error => rfl
          | ok hv => exact ih hv
      | literal pairs =>
          simp only [Assignment.run, Assignment.op, step]
          cases mapAssignKeys vals table hv pairs with
          | error => rfl
          | ok hv => exact ih hv

theorem Hashes.stringify {key : α} (hashes : Hashes vals key) :
    Hashes vals (vals.stringify key) ∧ vals.bytes (vals.stringify key) = vals.bytes key := by
  obtain ⟨n, hashed⟩ := hashes
  cases found : vals.str key with
  | none =>
      rw [valHashFunc, found] at hashed
      cases hashed
  | some s =>
      have same := vals.stringify_str key s found
      refine ⟨⟨n, ?_⟩, by rw [Vals.bytes, Vals.bytes, same, found]⟩
      rw [valHashFunc, same, ← found]
      exact hashed

theorem agree_of_reads {body : HashBody τ} {m : Option (List UInt8) → Option α} {key : α}
    (reads : table.Reads body.h m) (nil : α) (hashes : Hashes vals key) :
    Agree vals table nil body m key := by
  obtain ⟨stringified, same⟩ := hashes.stringify
  refine ⟨mapAtKey_eq reads nil (.inr stringified), ?_, ?_⟩
  · rw [same]
    exact mapAtKey_eq reads nil (.inr hashes)
  · rw [same]
    exact mapExists_eq reads (.inr hashes)

theorem agree_empty (nil key : α) :
    Agree vals table nil (mapNew vals table) (fun _ => none) key :=
  have no_buckets : table.nBuckets (mapNew vals table).h = 0 := table.nBuckets_init
  have reads : table.Reads (mapNew vals table).h fun _ => none := HashTable.Reads.init table
  ⟨mapAtKey_eq reads nil (.inl no_buckets), mapAtKey_eq reads nil (.inl no_buckets),
    mapExists_eq reads (.inl no_buckets)⟩

/-- Reading and assigning by operator, by method and by literal agree on a key exactly when the
assignments hash the strings of their keys, and the key is a string that hashes or nothing has been
assigned. -/
theorem access_agrees_iff (nil key : α) (assignments : List (Assignment α)) :
    (∃ body, assignAll vals table (mapNew vals table) assignments = .ok body ∧
      Agree vals table nil body (finiteMap vals (assignments.map Assignment.op)) key) ↔
      (∀ e ∈ pairs (assignments.map Assignment.op), Hashes vals (keyOf vals e.1)) ∧
        (pairs (assignments.map Assignment.op) = [] ∨ Hashes vals key) := by
  rw [assignAll_eq]
  unfold finiteMap
  generalize pairs (assignments.map Assignment.op) = assigned
  constructor
  · rintro ⟨body, done, agree⟩
    obtain ⟨all_hash, buckets⟩ := mapAssignKeys_spec done
    refine ⟨all_hash, or_iff_not_imp_left.mpr fun some => ?_⟩
    exact hashes_of_mapExists (buckets (.inl some)) agree.exists_eq
  · rintro ⟨all_hash, nothing | hashes⟩
    · subst nothing
      exact ⟨mapNew vals table, rfl, agree_empty nil key⟩
    · obtain ⟨body, done, -, reads⟩ :=
        mapAssignKeys_reads (mapNew vals table) (HashTable.Reads.init table) all_hash
      exact ⟨body, done, agree_of_reads reads nil hashes⟩

/-- `AT-KEY` with the integer under which a value has been assigned. -/
theorem at_key_of_int :
    ¬ ∀ (assignments : List (Assignment Plain)) (key : Plain),
      ∃ body, assignAll plainVals (HashTable.assoc plainVals.bytes Plain)
          (mapNew plainVals (HashTable.assoc plainVals.bytes Plain)) assignments = .ok body ∧
        Agree plainVals (HashTable.assoc plainVals.bytes Plain) (.inl 0) body
          (finiteMap plainVals (assignments.map Assignment.op)) key := by
  intro agrees
  obtain ⟨body, done, agree⟩ := agrees [.method (.inl 42) (.inl 7)] (.inl 42)
  cases done
  have at_key := agree.at_key
  cases at_key

end Map
end Pone
