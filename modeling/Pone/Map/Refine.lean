import Pone.Map.Model

/-!
# Maps refine finite maps

The hash table of a map follows every assignment.  The counter `len` counts the assignments, so that
it is the number of keys exactly when no key is assigned twice.
-/

namespace Pone
namespace Map

variable {τ α : Type} (vals : Vals α) (table : HashTable τ vals.bytes α)

/-- The operations that change a map. -/
inductive Op (α : Type) where
  | assignKey (key value : α)
  | assignKeys (pairs : List (α × α))

def step (hv : HashBody τ) : Op α → Except Halt (HashBody τ)
  | .assignKey key value => mapAssignKey vals table hv key value
  | .assignKeys pairs => mapAssignKeys vals table hv pairs

def run (hv : HashBody τ) : List (Op α) → Except Halt (HashBody τ)
  | [] => .ok hv
  | op :: rest => do run (← step vals table hv op) rest

/-- The pairs of a sequence of operations, in order. -/
def pairs (ops : List (Op α)) : List (α × α) :=
  ops.flatMap fun
    | .assignKey key value => [(key, value)]
    | .assignKeys pairs => pairs

/-- The string under which a value is a key. -/
def keyOf (key : α) : α := if (vals.str key).isSome then key else vals.stringify key

/-- The hash function ends on the key. -/
def Hashes (key : α) : Prop := ∃ n, valHashFunc vals key = .ok n

/-- The bytes of the assigned keys, repetitions included. -/
def keys (ops : List (Op α)) : List (Option (List UInt8)) :=
  (pairs ops).map fun e => vals.bytes (keyOf vals e.1)

/-- The finite map that the operations make. -/
def finiteMap (ops : List (Op α)) : Option (List UInt8) → Option α :=
  HashTable.assigned vals.bytes (fun _ => none) ((pairs ops).map fun e => (keyOf vals e.1, e.2))

/-- All that can be observed of a map, with the look-up of `key`, is as in the finite map, whose keys,
each once or more often, are `keys`. -/
structure Refines (nil : α) (body : HashBody τ) (m : Option (List UInt8) → Option α)
    (keys : List (Option (List UInt8))) (key : α) : Prop where
  at_key : mapAtKey vals table nil body key = .ok ((m (vals.bytes key)).getD nil)
  exists_eq : mapExists vals table body key = .ok (m (vals.bytes key)).isSome
  keys_nodup : ((mapKeys vals table body).map vals.bytes).Nodup
  matching : (mapKeys vals table body).length = (mapValues vals table body).length
  listed : ∀ b v, (∃ e ∈ (mapKeys vals table body).zip (mapValues vals table body),
    vals.bytes e.1 = b ∧ e.2 = v) ↔ m b = some v
  size_eq : mapSize body = keys.dedup.length

variable {vals table}

theorem mapAssignKeys_append (hv : HashBody τ) (first rest : List (α × α)) :
    mapAssignKeys vals table hv (first ++ rest) =
      mapAssignKeys vals table hv first >>= fun hv => mapAssignKeys vals table hv rest := by
  induction first generalizing hv with
  | nil => rfl
  | cons e first ih =>
      simp only [List.cons_append, mapAssignKeys]
      cases mapAssignKey vals table hv e.1 e.2 with
      | error => rfl
      | ok hv => exact ih hv

/-- A sequence of operations is one assignment of all the pairs. -/
theorem run_eq (hv : HashBody τ) (ops : List (Op α)) :
    run vals table hv ops = mapAssignKeys vals table hv (pairs ops) := by
  induction ops generalizing hv with
  | nil => rfl
  | cons op rest ih =>
      rw [pairs, List.flatMap_cons, mapAssignKeys_append, run]
      cases op with
      | assignKey key value =>
          simp only [step, mapAssignKeys]
          cases mapAssignKey vals table hv key value with
          | error => rfl
          | ok hv => exact ih hv
      | assignKeys pairs =>
          simp only [step]
          cases mapAssignKeys vals table hv pairs with
          | error => rfl
          | ok hv => exact ih hv

variable (table) in
theorem mapAssignKey_eq (hv : HashBody τ) {key : α} (hashes : Hashes vals (keyOf vals key))
    (value : α) :
    mapAssignKey vals table hv key value =
      .ok { h := table.put hv.h (keyOf vals key) value, len := hv.len + 1 } := by
  obtain ⟨n, hashed⟩ := hashes
  unfold keyOf at hashed ⊢
  simp only [mapAssignKey, khPut, hashed]
  rfl

/-- Assignments change the table as the finite map, and each one counts. -/
theorem mapAssignKeys_reads (hv : HashBody τ) {m : Option (List UInt8) → Option α}
    {pairs : List (α × α)} (reads : table.Reads hv.h m)
    (hashes : ∀ e ∈ pairs, Hashes vals (keyOf vals e.1)) :
    ∃ hv', mapAssignKeys vals table hv pairs = .ok hv' ∧ hv'.len = hv.len + pairs.length ∧
      table.Reads hv'.h
        (HashTable.assigned vals.bytes m (pairs.map fun e => (keyOf vals e.1, e.2))) := by
  induction pairs generalizing hv m with
  | nil => exact ⟨hv, rfl, by simp, reads⟩
  | cons e rest ih =>
      have first := mapAssignKey_eq table hv (hashes e (List.mem_cons_self ..)) e.2
      obtain ⟨hv', assigned, counted, reads'⟩ := ih
        { h := table.put hv.h (keyOf vals e.1) e.2, len := hv.len + 1 }
        (reads.put (keyOf vals e.1) e.2) fun e' among => hashes e' (List.mem_cons_of_mem _ among)
      refine ⟨hv', ?_, ?_, reads'⟩
      · simp only [mapAssignKeys, first]
        exact assigned
      · rw [counted, List.length_cons]
        push_cast
        omega

/-- The counter is zero as long as the map has no entry. -/
def Sized (table : HashTable τ vals.bytes α) (hv : HashBody τ) : Prop :=
  0 ≤ hv.len ∧ (0 < hv.len ↔ table.entries hv.h ≠ [])

theorem mapAssignKey_sized {hv hv' : HashBody τ} (sized : Sized table hv) {key value : α}
    (assigned : mapAssignKey vals table hv key value = .ok hv') : Sized table hv' := by
  simp only [mapAssignKey, khPut] at assigned
  cases hashed : valHashFunc vals (if (vals.str key).isSome = true then key else vals.stringify key) with
  | error =>
      rw [hashed] at assigned
      cases assigned
  | ok n =>
      rw [hashed] at assigned
      cases assigned
      have counted := sized.1
      refine ⟨by simp only; omega, iff_of_true (by simp only; omega) fun none => ?_⟩
      obtain ⟨e, among, -⟩ := (table.mem_put hv.h _ value _ value).mpr (.inl ⟨rfl, rfl⟩)
      rw [none] at among
      cases among

/-- A map that is made by assignments has a `len` that is positive exactly when there are entries. -/
theorem mapAssignKeys_sized {pairs : List (α × α)} {body : HashBody τ}
    (assigned : mapAssignKeys vals table (mapNew vals table) pairs = .ok body) : Sized table body := by
  have empty : Sized table (mapNew vals table) :=
    ⟨Int.le_refl 0, iff_of_false (Int.lt_irrefl 0) (not_not.mpr table.entries_init)⟩
  revert assigned empty
  generalize mapNew vals table = hv
  intro assigned sized
  induction pairs generalizing hv with
  | nil =>
      cases assigned
      exact sized
  | cons e rest ih =>
      simp only [mapAssignKeys] at assigned
      cases first : mapAssignKey vals table hv e.1 e.2 with
      | error =>
          rw [first] at assigned
          cases assigned
      | ok hv' =>
          rw [first] at assigned
          exact ih hv' assigned (mapAssignKey_sized sized first)

/-- An assignment that returns has hashed its key and leaves a table with buckets. -/
theorem mapAssignKey_spec {hv hv' : HashBody τ} {key value : α}
    (assigned : mapAssignKey vals table hv key value = .ok hv') :
    Hashes vals (keyOf vals key) ∧ table.nBuckets hv'.h ≠ 0 := by
  simp only [mapAssignKey, khPut] at assigned
  cases hashed : valHashFunc vals (keyOf vals key) with
  | error halt =>
      unfold keyOf at hashed
      rw [hashed] at assigned
      cases assigned
  | ok n =>
      refine ⟨⟨n, hashed⟩, ?_⟩
      unfold keyOf at hashed
      rw [hashed] at assigned
      cases assigned
      exact table.nBuckets_put _ _ _

theorem mapAssignKeys_spec {hv hv' : HashBody τ} {pairs : List (α × α)}
    (assigned : mapAssignKeys vals table hv pairs = .ok hv') :
    (∀ e ∈ pairs, Hashes vals (keyOf vals e.1)) ∧
      (pairs ≠ [] ∨ table.nBuckets hv.h ≠ 0 → table.nBuckets hv'.h ≠ 0) := by
  induction pairs generalizing hv with
  | nil =>
      cases assigned
      exact ⟨nofun, fun some => some.resolve_left fun no => no rfl⟩
  | cons e rest ih =>
      simp only [mapAssignKeys] at assigned
      cases first : mapAssignKey vals table hv e.1 e.2 with
      | error halt =>
          rw [first] at assigned
          cases assigned
      | ok hv₁ =>
          rw [first] at assigned
          obtain ⟨hashes, buckets⟩ := mapAssignKey_spec first
          obtain ⟨all_hash, later_buckets⟩ := ih assigned
          exact ⟨fun e' among => by
            rcases List.mem_cons.mp among with rfl | among
            · exact hashes
            · exact all_hash e' among, fun _ => later_buckets (.inr buckets)⟩

/-- In a table with buckets, a key that is found or missed has been hashed. -/
theorem hashes_of_khGet {h : τ} {key : α} {result : Option α} (buckets : table.nBuckets h ≠ 0)
    (got : khGet vals table h key = .ok result) : Hashes vals key := by
  rw [khGet, if_neg buckets] at got
  cases hashed : valHashFunc vals key with
  | error halt =>
      rw [hashed] at got
      cases got
  | ok n => exact ⟨n, hashed⟩

theorem hashes_of_mapExists {body : HashBody τ} {key : α} {result : Bool}
    (buckets : table.nBuckets body.h ≠ 0)
    (got : mapExists vals table body key = .ok result) : Hashes vals key := by
  rw [mapExists] at got
  cases looked : khGet vals table body.h key with
  | error halt =>
      rw [looked] at got
      cases got
  | ok found => exact hashes_of_khGet buckets looked

/-- `kh_get` reads the finite map, with a key that hashes or in a table without buckets. -/
theorem khGet_eq {h : τ} {m : Option (List UInt8) → Option α} (reads : table.Reads h m) {key : α}
    (looked : table.nBuckets h = 0 ∨ Hashes vals key) :
    khGet vals table h key = .ok (m (vals.bytes key)) := by
  unfold khGet
  by_cases no_buckets : table.nBuckets h = 0
  · rw [if_pos no_buckets, ← reads.get_eq]
    have unfound : table.get h key = none := by
      apply Option.eq_none_iff_forall_ne_some.mpr
      intro v found
      obtain ⟨e, among, -⟩ := (table.get_eq_some _ _ _).mp found
      simp [table.entries_of_no_buckets _ no_buckets] at among
    rw [unfound]
  · obtain ⟨n, hashed⟩ := looked.resolve_left no_buckets
    rw [if_neg no_buckets, hashed, ← reads.get_eq]
    rfl

theorem mapAtKey_eq {body : HashBody τ} {m : Option (List UInt8) → Option α}
    (reads : table.Reads body.h m) (nil : α) {key : α}
    (looked : table.nBuckets body.h = 0 ∨ Hashes vals key) :
    mapAtKey vals table nil body key = .ok ((m (vals.bytes key)).getD nil) := by
  rw [mapAtKey, khGet_eq reads looked]
  cases m (vals.bytes key) <;> rfl

theorem mapExists_eq {body : HashBody τ} {m : Option (List UInt8) → Option α}
    (reads : table.Reads body.h m) {key : α} (looked : table.nBuckets body.h = 0 ∨ Hashes vals key) :
    mapExists vals table body key = .ok (m (vals.bytes key)).isSome := by
  rw [mapExists, khGet_eq reads looked]
  rfl

/-- A table that reads as the finite map shows it to every observer. -/
theorem refines_of_reads {nil : α} {body : HashBody τ} {m : Option (List UInt8) → Option α}
    {keys : List (Option (List UInt8))} {key : α} (reads : table.Reads body.h m)
    (looked : table.nBuckets body.h = 0 ∨ Hashes vals key)
    (size : mapSize body = keys.dedup.length) : Refines vals table nil body m keys key := by
  refine ⟨mapAtKey_eq reads nil looked, mapExists_eq reads looked, ?_, ?_, ?_, size⟩
  · simpa [mapKeys, Function.comp_def] using table.distinct body.h
  · simp [mapKeys, mapValues]
  · intro b v
    rw [mapKeys, mapValues, List.zip_map']
    simpa using reads b v

/-- The size of a map that has been assigned to from the beginning counts repetitions. -/
theorem dedup_length_eq_iff {β : Type*} [DecidableEq β] (keys : List β) :
    keys.dedup.length = keys.length ↔ keys.Nodup :=
  (List.dedup_sublist keys).length_eq.trans List.dedup_eq_self

theorem finiteMap_isSome (ops : List (Op α)) (b : Option (List UInt8)) :
    b ∈ keys vals ops ↔ (finiteMap vals ops b).isSome := by
  rw [finiteMap, HashTable.assigned_isSome, keys, List.map_map]
  simp [Function.comp_def]

/-- The keys in the table are strings. -/
theorem str_of_mem_entries {h : τ} {ops : List (Op α)}
    (reads : table.Reads h (finiteMap vals ops))
    (hashes : ∀ e ∈ pairs ops, Hashes vals (keyOf vals e.1)) {e : α × α}
    (among : e ∈ table.entries h) : ∃ s, vals.str e.1 = some s := by
  have key : vals.bytes e.1 ∈ keys vals ops := by
    rw [finiteMap_isSome, ← reads.contents_iff]
    exact List.mem_map_of_mem (f := fun e => vals.bytes e.1) among
  obtain ⟨pair, assigned, same⟩ := List.mem_map.mp key
  obtain ⟨n, hashed⟩ := hashes pair assigned
  cases found : vals.str e.1 with
  | some s => exact ⟨s, rfl⟩
  | none =>
      have unknown : vals.str (keyOf vals pair.1) = none := by
        simpa [Vals.bytes, found] using same
      simp [valHashFunc, unknown] at hashed

/-- `pone_val_copy` of a string is a string with the same bytes, which a zero byte follows. -/
def CopiesStr (vals : Vals α) (copy : α → Except Halt α) : Prop :=
  ∀ v s, vals.str v = some s →
    ∃ v', copy v = .ok v' ∧ vals.str v' = some { s with behind := some 0 }

theorem hashes_of_nul {key : α} {bytes : List UInt8}
    (found : vals.str key = some { bytes, behind := some 0 }) : Hashes vals key := by
  unfold Hashes valHashFunc
  rw [found]
  cases bytes with
  | nil => exact ⟨0, rfl⟩
  | cons c rest =>
      by_cases zero : c = 0
      · exact ⟨0, by simp [zero]⟩
      · exact ⟨_, by simp [zero]; rfl⟩

variable (table) in
/-- Copying assigns the copies of the entries, whose keys are equal to those of the entries. -/
theorem mapCopyEntries_eq {copy : α → Except Halt α} (copies_str : CopiesStr vals copy)
    {entries : List (α × α)} (strings : ∀ e ∈ entries, ∃ s, vals.str e.1 = some s)
    (copyable : ∀ e ∈ entries, ∃ v, copy e.2 = .ok v) (retval : HashBody τ) :
    ∃ copied : List (α × α),
      mapCopyEntries vals table copy retval entries = mapAssignKeys vals table retval copied ∧
      (∀ e ∈ copied, Hashes vals (keyOf vals e.1)) ∧
      copied.map (fun e => vals.bytes (keyOf vals e.1)) =
        entries.map (fun e => vals.bytes e.1) ∧
      ∀ b v, (∃ e ∈ copied, vals.bytes (keyOf vals e.1) = b ∧ e.2 = v) ↔
        ∃ e ∈ entries, vals.bytes e.1 = b ∧ copy e.2 = .ok v := by
  induction entries generalizing retval with
  | nil => exact ⟨[], rfl, nofun, rfl, by simp⟩
  | cons e rest ih =>
      obtain ⟨s, found⟩ := strings e (List.mem_cons_self ..)
      obtain ⟨k, copied_key, found'⟩ := copies_str e.1 s found
      obtain ⟨v, copied_value⟩ := copyable e (List.mem_cons_self ..)
      have as_key : keyOf vals k = k := if_pos (by simp [found'])
      have hashes : Hashes vals (keyOf vals k) := by
        rw [as_key]
        exact hashes_of_nul found'
      obtain ⟨copied, assigned, all_hash, same, related⟩ := ih
        (fun e' among => strings e' (List.mem_cons_of_mem _ among))
        (fun e' among => copyable e' (List.mem_cons_of_mem _ among))
        { h := table.put retval.h (keyOf vals k) v, len := retval.len + 1 }
      have same_key : vals.bytes (keyOf vals k) = vals.bytes e.1 := by
        simp [as_key, Vals.bytes, found, found']
      refine ⟨(k, v) :: copied, ?_, ?_, ?_, ?_⟩
      · rw [mapCopyEntries, copied_key, copied_value, mapAssignKeys]
        simp only [bind, Except.bind]
        rw [mapAssignKey_eq table retval hashes v]
        exact assigned
      · intro e' among
        rcases List.mem_cons.mp among with rfl | among
        · exact hashes
        · exact all_hash e' among
      · rw [List.map_cons, List.map_cons, same, same_key]
      · intro b w
        simp only [List.mem_cons, exists_eq_or_imp, related b w, same_key, copied_value,
          Except.ok.injEq]

/-- A copy of a map. -/
theorem mapCopy_refines {nil : α} {copy : α → Except Halt α} (copies_str : CopiesStr vals copy)
    {body : HashBody τ} {ops : List (Op α)} {key : α}
    (looked : pairs ops = [] ∨ Hashes vals key) (reads : table.Reads body.h (finiteMap vals ops))
    (hashes : ∀ e ∈ pairs ops, Hashes vals (keyOf vals e.1))
    (copyable : ∀ v ∈ mapValues vals table body, ∃ v', copy v = .ok v') :
    ∃ copied, mapCopy vals table copy body = .ok copied ∧
      Refines vals table nil copied
        (fun b => (finiteMap vals ops b).bind fun v => (copy v).toOption) (keys vals ops) key := by
  obtain ⟨entries, copied_eq, all_hash, same, related⟩ := mapCopyEntries_eq table
    copies_str (fun e among => str_of_mem_entries reads hashes among)
    (fun e among => copyable e.2 (List.mem_map_of_mem among)) (mapNew vals table)
  obtain ⟨copied, assigned, counted, copied_reads⟩ :=
    mapAssignKeys_reads (mapNew vals table) (HashTable.Reads.init table) all_hash
  have same_map : HashTable.assigned vals.bytes (fun _ => none)
      (entries.map fun e => (keyOf vals e.1, e.2)) =
      fun b => (finiteMap vals ops b).bind fun v => (copy v).toOption := by
    funext b
    apply Option.ext
    intro v
    rw [HashTable.assigned_eq_some _ b v fun _ _ => rfl]
    · rw [Option.bind_eq_some_iff]
      calc
        _ ↔ ∃ e ∈ entries, vals.bytes (keyOf vals e.1) = b ∧ e.2 = v := by simp
        _ ↔ ∃ e ∈ table.entries body.h, vals.bytes e.1 = b ∧ copy e.2 = .ok v := related b v
        _ ↔ ∃ w, finiteMap vals ops b = some w ∧ (copy w).toOption = some v := by
          constructor
          · rintro ⟨e, among, key, copied⟩
            exact ⟨e.2, (reads b e.2).mp ⟨e, among, key, rfl⟩, by rw [copied]; rfl⟩
          · rintro ⟨w, found, copied⟩
            obtain ⟨e, among, key, rfl⟩ := (reads b w).mpr found
            refine ⟨e, among, key, ?_⟩
            cases outcome : copy e.2 with
            | error => simp [outcome, Except.toOption] at copied
            | ok v' => simpa [outcome, Except.toOption] using copied
    · rw [List.map_map]
      simpa [Function.comp_def, same] using table.distinct body.h
  have length_eq : entries.length = (table.entries body.h).length := by
    simpa using congrArg List.length same
  have looked' : table.nBuckets copied.h = 0 ∨ Hashes vals key := by
    refine looked.imp_left fun nothing => ?_
    -- without assignments there is no entry to copy
    have none_listed : (table.entries body.h).length = 0 := by
      rw [reads.length_entries (finiteMap_isSome ops), keys, nothing]
      rfl
    rw [List.length_eq_zero_iff.mp (length_eq.trans none_listed)] at assigned
    cases assigned
    exact table.nBuckets_init
  refine ⟨copied, copied_eq.trans assigned, refines_of_reads (same_map ▸ copied_reads) looked' ?_⟩
  rw [mapSize, counted, length_eq, reads.length_entries (finiteMap_isSome ops)]
  simp [mapNew]

/-- A map with the assignments of a sequence of operations is the finite map, and so is its copy, also
where `key` is looked up. -/
def RunRefines (vals : Vals α) (table : HashTable τ vals.bytes α) (nil : α)
    (copy : α → Except Halt α) (ops : List (Op α)) (key : α) : Prop :=
  ∃ body, run vals table (mapNew vals table) ops = .ok body ∧
    Refines vals table nil body (finiteMap vals ops) (keys vals ops) key ∧
    ((∀ v ∈ mapValues vals table body, ∃ v', copy v = .ok v') →
      ∃ copied, mapCopy vals table copy body = .ok copied ∧
        Refines vals table nil copied
          (fun b => (finiteMap vals ops b).bind fun v => (copy v).toOption) (keys vals ops) key)

/-- A map refines the finite map exactly when its keys hash, none is assigned twice, and the key that is
looked up hashes or nothing has been assigned. -/
theorem map_refines_iff (nil : α) {copy : α → Except Halt α} (copies_str : CopiesStr vals copy)
    (ops : List (Op α)) (key : α) :
    RunRefines vals table nil copy ops key ↔
      (∀ e ∈ pairs ops, Hashes vals (keyOf vals e.1)) ∧ (keys vals ops).Nodup ∧
        (pairs ops = [] ∨ Hashes vals key) := by
  have size_eq {body : HashBody τ} (counted : body.len = (mapNew vals table).len + (pairs ops).length) :
      mapSize body = (keys vals ops).length := by
    rw [mapSize, counted]
    simp [mapNew, keys]
  rw [← dedup_length_eq_iff]
  constructor
  · rintro ⟨body, ran, refines, -⟩
    rw [run_eq] at ran
    obtain ⟨hashes, buckets⟩ := mapAssignKeys_spec ran
    obtain ⟨body', assigned, counted, -⟩ :=
      mapAssignKeys_reads (mapNew vals table) (HashTable.Reads.init table) hashes
    rw [assigned] at ran
    cases ran
    refine ⟨hashes, ?_, or_iff_not_imp_left.mpr fun some => ?_⟩
    · have size := refines.size_eq
      rw [size_eq counted] at size
      exact_mod_cast size.symm
    · exact hashes_of_mapExists (buckets (.inl some)) refines.exists_eq
  · rintro ⟨hashes, distinct, looked⟩
    obtain ⟨body, assigned, counted, reads⟩ :=
      mapAssignKeys_reads (mapNew vals table) (HashTable.Reads.init table) hashes
    have looked' : table.nBuckets body.h = 0 ∨ Hashes vals key := by
      refine looked.imp_left fun nothing => ?_
      rw [nothing] at assigned
      cases assigned
      exact table.nBuckets_init
    refine ⟨body, by rw [run_eq, assigned], refines_of_reads reads looked' ?_,
      mapCopy_refines copies_str looked reads hashes⟩
    rw [size_eq counted, distinct]

/-- `pone_val_copy` of the integers and the strings -/
def plainCopy : Plain → Except Halt Plain
  | .inl i => .ok (.inl i)
  | .inr s => .ok (.inr { s with behind := some 0 })

/-- The string `a`. -/
def strA : Plain := .inr { bytes := [97], behind := some 0 }

/-- The keys `1`, `a` and 2, and a look-up of `a`. -/
theorem map_refines_iff_plain :
    RunRefines plainVals (HashTable.assoc plainVals.bytes Plain) (.inl 0) plainCopy
      [.assignKey (.inl 1) strA, .assignKeys [(strA, .inl 7), (.inl 2, .inl 8)]] strA := by
  refine Iff.mpr (map_refines_iff _ ?_ _ _) ⟨?_, by decide, .inr ⟨_, rfl⟩⟩
  · intro v s found
    cases v with
    | inl i => cases found
    | inr s' =>
        cases found
        exact ⟨_, rfl, rfl⟩
  · intro e among
    simp only [pairs, List.flatMap_cons, List.flatMap_nil, List.cons_append, List.nil_append,
      List.append_nil, List.mem_cons, List.not_mem_nil, or_false] at among
    rcases among with rfl | rfl | rfl <;> exact ⟨_, rfl⟩

/-- The second assignment to a key is counted as a second key, although all keys hash. -/
theorem size_of_repeated_key :
    ¬ ∀ (ops : List (Op Plain)) (key : Plain),
      (∀ e ∈ pairs ops, Hashes plainVals (keyOf plainVals e.1)) → Hashes plainVals key →
        RunRefines plainVals (HashTable.assoc plainVals.bytes Plain) (.inl 0) plainCopy ops key := by
  intro refines
  have hashes : ∀ e ∈ pairs [.assignKey strA (.inl 1), .assignKey strA (.inl 2)],
      Hashes plainVals (keyOf plainVals e.1) := by
    intro e among
    simp only [pairs, List.flatMap_cons, List.flatMap_nil, List.cons_append, List.nil_append,
      List.append_nil, List.mem_cons, List.not_mem_nil, or_false] at among
    rcases among with rfl | rfl <;> exact ⟨_, rfl⟩
  obtain ⟨body, ran, refines, -⟩ := refines _ strA hashes ⟨_, rfl⟩
  cases ran
  have size := refines.size_eq
  revert size
  decide

end Map
end Pone
