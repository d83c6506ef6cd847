import Pone.Heap.Exact

/-!
# Names imported into a lex

The hash table of a lex holds pointers to its keys.  Those that `export_module` puts there for
`use . pkg` are the keys of the instance variables of the module, which `pone_obj_free` frees with
the module; the others are literals of compiled code.
-/

namespace Pone
namespace Heap
namespace Imports

section Keys

variable {κ : Type} [DecidableEq κ]

/-- Where the bytes of a key are. -/
inductive Storage where
  | literal
  /-- a key of the instance variables of an object, which `pone_strdup` has made -/
  | ivarKey (obj : Ref)
  | freed
  deriving DecidableEq

/-- A heap and where the keys of the tables of each lex are. -/
structure Keyed (κ : Type) where
  heap : Universe κ
  lexKeys : Ref → κ → Storage

/-- `kh_put` and `kh_val` on the table of a lex: an equal key that is there stays. -/
def lexPut (s : Keyed κ) (lex : Ref) (key : κ) (storage : Storage) (val : Ref) :
    Option (Keyed κ) :=
  match s.heap.value lex with
  | some (.lex parent bindings) =>
      (store s.heap lex (.lex parent (bindings.insert key val))).map fun heap =>
        { heap
          lexKeys := if key ∈ bindings then s.lexKeys
            else Function.update s.lexKeys lex (Function.update (s.lexKeys lex) key storage) }
  | _ => none

/-- `pone_assign` to the innermost scope of a world, which the thread of that world has made. -/
def assign (s : Keyed κ) (world : Nat) (key : κ) (storage : Storage) (val : Ref) :
    Option (Keyed κ) := do
  let w ← s.heap.worlds[world]?
  let lex ← w.lex
  lexPut s lex key storage val

/-- `export_module`; `as` is `none` for `.`. -/
def exportModule (s : Keyed κ) (world : Nat) (as : Option κ) (module : Ref) : Option (Keyed κ) :=
  match as with
  | some name => assign s world name .literal module
  | none =>
      match s.heap.value module with
      | some (.obj _ ivars) =>
          ivars.entries.foldlM (fun s e => assign s world e.1 (.ivarKey module) e.2) s
      | _ => none

/-- `pone_gc_run`, with `pone_obj_free` of the objects that it frees. -/
def collect (s : Keyed κ) (world : Nat) : Option (Keyed κ) :=
  (gcRun s.heap world).map fun heap =>
    { heap
      lexKeys := fun lex key =>
        match s.lexKeys lex key with
        | .ivarKey obj =>
            if (s.heap.value obj).isSome ∧ (heap.value obj).isNone then .freed else .ivarKey obj
        | storage => storage }

/-- What happens behind an import. -/
inductive Later where
  | popScope (world : Nat)
  | collect (world : Nat)
  deriving DecidableEq

def laterStep (s : Keyed κ) : Later → Option (Keyed κ)
  | .popScope world => (popScope s.heap world).map fun heap => { s with heap }
  | .collect world => collect s world

/-- How a look-up fails: freed memory is read, or an exception says that there is no such name. -/
inductive Miss (κ : Type) where
  | wild
  | unknown (key : κ)
  deriving DecidableEq

/-- `pone_get_lex` from a lex.  A search in a table compares the key with those in some of the
buckets, `compared`; the fuel is a bound on the number of scopes. -/
def getLex (compared : Ref → κ → List κ) (s : Keyed κ) (key : κ) :
    Nat → Option Ref → Except (Miss κ) Ref
  | _, none =>
      match s.heap.globals.lookup key with
      | some val => .ok val
      | none => .error (.unknown key)
  | 0, some _ => .error .wild
  | fuel + 1, some lex =>
      match s.heap.value lex with
      | some (.lex parent bindings) =>
          if ∃ k ∈ compared lex key, s.lexKeys lex k = .freed then .error .wild
          else
            match bindings.lookup key with
            | some val => .ok val
            | none => getLex compared s key fuel parent
      | _ => .error .wild

/-- What a correct search compares with: only keys that are there, and an equal one if there is. -/
structure Searches (compared : κ → List κ) (bindings : Bindings κ) : Prop where
  within : ∀ key, ∀ k ∈ compared key, k ∈ bindings
  finds : ∀ key ∈ bindings, key ∈ compared key

/-- Every exported name leads from the lex to what the module exports. -/
def StaysBound (compared : Ref → κ → List κ) (s : Keyed κ) (lex : Ref) (ivars : Bindings κ) :
    Prop :=
  ∀ key val, ivars.lookup key = some val → ∀ fuel,
    getLex compared s key (fuel + 1) (some lex) = .ok val

/-- A collection does not free the value. -/
def SparedBy (ref : Ref) (s : Keyed κ) : Later → Prop
  | .popScope _ => True
  | .collect world =>
      (∃ index, ref = .slot world index) → s.heap.value ref ≠ none → Traced s.heap world ref

/-- The bytes of a key stay through what happens later. -/
def Lasts (s : Keyed κ) (later : List Later) : Storage → Prop
  | .literal => True
  | .ivarKey obj => Execution.Along laterStep (SparedBy obj) s later
  | .freed => False

/-- Where a key of the lex is behind the import. -/
def storageBehind (s : Keyed κ) (lex module : Ref) (bindings : Bindings κ) (key : κ) : Storage :=
  if key ∈ bindings then s.lexKeys lex key else .ivarKey module

/-! ## The import -/

variable {s s' s₁ s₂ : Keyed κ} {world : Nat} {lex module : Ref} {parent : Option Ref}
  {bindings ivars : Bindings κ}

/-- One assignment changes the lex of the world alone. -/
theorem assign_spec {key : κ} {storage : Storage} {val : Ref}
    (scope : (s.heap.worlds[world]?).bind World.lex = some lex)
    (found : s.heap.value lex = some (.lex parent bindings))
    (done : assign s world key storage val = some s') :
    (s'.heap.worlds[world]?).bind World.lex = some lex ∧
      s'.heap.value lex = some (.lex parent (bindings.insert key val)) ∧
      ∀ k, s'.lexKeys lex k =
        if k ∈ bindings then s.lexKeys lex k else if k = key then storage else s.lexKeys lex k := by
  obtain ⟨w, world_found, w_lex⟩ := Option.bind_eq_some_iff.mp scope
  simp only [assign, world_found, w_lex, Option.bind_eq_bind, Option.bind_some, lexPut, found] at done
  obtain ⟨heap, stored, rfl⟩ := Option.map_eq_some_iff.mp done
  refine ⟨?_, ?_, fun k => ?_⟩
  · obtain ⟨place, index, before, rfl, -, rfl⟩ := store_eq_some_iff.mp stored
    rw [Universe.setSlot, getElem?_modifyWorld, world_found]
    split
    · exact w_lex
    · exact w_lex
  · rw [(store_replaces stored).value, Function.update_self]
  · simp only
    by_cases old : key ∈ bindings
    · rw [if_pos old]
      by_cases same : k = key
      · rw [if_pos (same ▸ old)]
      · rw [if_neg same, ite_self]
    · rw [if_neg old, Function.update_self]
      by_cases same : k = key
      · subst same
        rw [Function.update_self, if_neg old, if_pos rfl]
      · rw [Function.update_of_ne same, if_neg same, ite_self]

/-- The assignments of all instance variables in turn. -/
theorem foldlM_assign {entries : List (Sigma fun _ : κ => Ref)} (nodup : entries.NodupKeys)
    (scope : (s.heap.worlds[world]?).bind World.lex = some lex)
    (found : s.heap.value lex = some (.lex parent bindings))
    (done : entries.foldlM (fun s e => assign s world e.1 (.ivarKey module) e.2) s = some s₁) :
    ∃ bindings₁, s₁.heap.value lex = some (.lex parent bindings₁) ∧
      (∀ k, bindings₁.lookup k = (entries.dlookup k).or (bindings.lookup k)) ∧
      ∀ k, s₁.lexKeys lex k =
        if k ∈ bindings then s.lexKeys lex k
        else if k ∈ entries.keys then .ivarKey module else s.lexKeys lex k := by
  induction entries generalizing s bindings with
  | nil =>
      cases done
      exact ⟨bindings, found, fun k => by simp, fun k => by simp⟩
  | cons e rest ih =>
      obtain ⟨key, val⟩ := e
      obtain ⟨new, nodup_rest⟩ := List.nodupKeys_cons.mp nodup
      rw [List.foldlM_cons] at done
      obtain ⟨s', first, others⟩ := Option.bind_eq_some_iff.mp done
      obtain ⟨scope', found', keys'⟩ := assign_spec scope found first
      obtain ⟨bindings₁, found₁, lookups, keys₁⟩ := ih nodup_rest scope' found' others
      refine ⟨bindings₁, found₁, fun k => ?_, fun k => ?_⟩
      · rw [lookups]
        by_cases same : k = key
        · subst same
          have missing : rest.dlookup k = none := List.dlookup_eq_none.mpr new
          rw [missing, AList.lookup_insert, List.dlookup_cons_eq]
          rfl
        · rw [AList.lookup_insert_ne same, List.dlookup_cons_ne _ _ same]
      · rw [keys₁, keys']
        by_cases old : k ∈ bindings
        · simp [AList.mem_insert, old]
        · by_cases same : k = key
          · simp [AList.mem_insert, same]
          · simp [AList.mem_insert, old, same]

/-- The lex behind the import. -/
theorem exportModule_spec {klass : Ref} (obj : s.heap.value module = some (.obj klass ivars))
    (scope : (s.heap.worlds[world]?).bind World.lex = some lex)
    (found : s.heap.value lex = some (.lex parent bindings))
    (imported : exportModule s world none module = some s₁) :
    ∃ bindings₁, s₁.heap.value lex = some (.lex parent bindings₁) ∧
      (∀ k, bindings₁.lookup k = (ivars.lookup k).or (bindings.lookup k)) ∧
      ∀ k ∈ bindings₁, s₁.lexKeys lex k = storageBehind s lex module bindings k := by
  simp only [exportModule, obj] at imported
  obtain ⟨bindings₁, found₁, lookups, keys⟩ :=
    foldlM_assign ivars.nodupKeys scope found imported
  refine ⟨bindings₁, found₁, lookups, fun k among => ?_⟩
  rw [keys, storageBehind]
  by_cases old : k ∈ bindings
  · rw [if_pos old, if_pos old]
  · have exported : k ∈ ivars := by
      rw [← AList.lookup_isSome, lookups] at among
      rw [← AList.lookup_isSome, Option.not_isSome_iff_eq_none] at old
      rw [old, Option.or_none] at among
      exact AList.lookup_isSome.mp among
    rw [if_neg old, if_neg old]
    exact if_pos exported

/-! ## What happens later -/

omit [DecidableEq κ] in
theorem popScope_value {u u' : Universe κ} {ref : Ref} (done : popScope u world = some u') :
    u'.value ref = u.value ref := by
  simp only [popScope, Option.bind_eq_bind, Option.bind_eq_some_iff] at done
  obtain ⟨w, -, inner, -, saved, -, done⟩ := done
  split at done
  · cases done
    exact value_modifyWorld (by exact fun _ => rfl)
  · cases done

omit [DecidableEq κ] in
/-- A value is freed or stays, and it is freed exactly when a collection does not spare it. -/
theorem laterStep_value {op : Later} (done : laterStep s op = some s') (ref : Ref) :
    (s'.heap.value ref = none ∨ s'.heap.value ref = s.heap.value ref) ∧
      (Freed s.heap s'.heap ref ↔ ¬ SparedBy ref s op) := by
  cases op with
  | popScope place =>
      obtain ⟨heap, popped, rfl⟩ := Option.map_eq_some_iff.mp done
      have same : heap.value ref = s.heap.value ref := popScope_value popped
      refine ⟨.inr same, iff_of_false ?_ (not_not.mpr trivial)⟩
      rintro ⟨allocated, freed⟩
      exact allocated (same.symm.trans freed)
  | collect place =>
      obtain ⟨heap, collected, rfl⟩ := Option.map_eq_some_iff.mp done
      refine ⟨gcRun_value collected, (gcRun_freed collected).trans ?_⟩
      simp only [SparedBy, Classical.not_imp]

theorem laterStep_key {op : Later} (done : laterStep s op = some s') (lex : Ref) (k : κ) :
    (s.lexKeys lex k = .literal → s'.lexKeys lex k = .literal) ∧
      (s.lexKeys lex k = .freed → s'.lexKeys lex k = .freed) ∧
      ∀ obj, s.lexKeys lex k = .ivarKey obj →
        (SparedBy obj s op ∧ s'.lexKeys lex k = .ivarKey obj) ∨
          ¬ SparedBy obj s op ∧ s'.lexKeys lex k = .freed := by
  cases op with
  | popScope place =>
      obtain ⟨heap, popped, rfl⟩ := Option.map_eq_some_iff.mp done
      exact ⟨id, id, fun obj at_obj => .inl ⟨trivial, at_obj⟩⟩
  | collect place =>
      have spared (obj : Ref) := (laterStep_value done obj).2
      obtain ⟨heap, collected, rfl⟩ := Option.map_eq_some_iff.mp done
      refine ⟨fun at_k => by simp [at_k], fun at_k => by simp [at_k], fun obj at_k => ?_⟩
      simp only [at_k]
      by_cases freed : Freed s.heap heap obj
      · refine .inr ⟨(spared obj).mp freed, if_pos ?_⟩
        exact ⟨Option.isSome_iff_ne_none.mpr freed.1, Option.isNone_iff_eq_none.mpr freed.2⟩
      · refine .inl ⟨not_not.mp (mt (spared obj).mpr freed), if_neg ?_⟩
        rintro ⟨allocated, gone⟩
        exact freed ⟨Option.isSome_iff_ne_none.mp allocated, Option.isNone_iff_eq_none.mp gone⟩

omit [DecidableEq κ] in
theorem run_value {later : List Later} (ran : Execution.run laterStep s later = some s₂)
    (ref : Ref) :
    s₂.heap.value ref = none ∨ s₂.heap.value ref = s.heap.value ref := by
  induction later generalizing s with
  | nil =>
      cases ran
      exact .inr rfl
  | cons op rest ih =>
      obtain ⟨s', done, rest_ran⟩ := Execution.run_cons_iff.mp ran
      rcases ih rest_ran with freed | same
      · exact .inl freed
      · rw [same]
        exact (laterStep_value done ref).1

/-- A key can still be read exactly when its owner is spared throughout. -/
theorem run_key {later : List Later} {k : κ} (ran : Execution.run laterStep s later = some s₂) :
    s₂.lexKeys lex k ≠ .freed ↔ Lasts s later (s.lexKeys lex k) := by
  induction later generalizing s with
  | nil =>
      cases ran
      cases s₂.lexKeys lex k <;> simp [Lasts]
  | cons op rest ih =>
      obtain ⟨s', done, rest_ran⟩ := Execution.run_cons_iff.mp ran
      rw [ih rest_ran]
      obtain ⟨literal, freed, owned⟩ := laterStep_key done lex k
      cases at_k : s.lexKeys lex k with
      | literal => rw [literal at_k, Lasts, Lasts]
      | freed => rw [freed at_k, Lasts, Lasts]
      | ivarKey obj =>
          rcases owned obj at_k with ⟨spared, at_k'⟩ | ⟨unspared, at_k'⟩
          · rw [at_k', Lasts, Lasts, Execution.Along]
            constructor
            · intro along
              refine ⟨spared, fun next taken => ?_⟩
              rw [done] at taken
              cases taken
              exact along
            · rintro ⟨-, along⟩
              exact along s' done
          · rw [at_k', Lasts, Lasts]
            exact iff_of_false id fun along => unspared along.1

/-- Behind a collection that starts from clean arenas, what a lex of the same arenas binds is there
as long as the lex is. -/
theorem run_bound {later : List Later} {place i j : Nat} {key : κ}
    (lex_eq : lex = .slot place i) (found : s.heap.value lex = some (.lex parent bindings))
    (bound : bindings.lookup key = some (.slot place j))
    (clean : Execution.Along laterStep (fun s op => ∀ world, op = .collect world → Clean s.heap)
      s later)
    (ran : Execution.run laterStep s later = some s₂) (alive : s₂.heap.value lex ≠ none) :
    s₂.heap.value (.slot place j) = s.heap.value (.slot place j) := by
  induction later generalizing s with
  | nil =>
      cases ran
      rfl
  | cons op rest ih =>
      obtain ⟨s', done, rest_ran⟩ := Execution.run_cons_iff.mp ran
      obtain ⟨kept, freed_iff⟩ := laterStep_value done lex
      have alive' : s'.heap.value lex ≠ none := fun gone => by
        rcases run_value rest_ran lex with freed | same
        · exact alive freed
        · exact alive (same.trans gone)
      have found' := kept.resolve_left alive'
      rw [found] at found'
      rw [ih found' (clean.2 s' done) rest_ran]
      obtain ⟨kept_val, freed_val⟩ := laterStep_value done (.slot place j)
      rcases kept_val with gone | same
      · by_contra changed
        have freed : Freed s.heap s'.heap (.slot place j) :=
          ⟨fun free => changed (gone.trans free.symm), gone⟩
        have lex_spared : SparedBy lex s op := by
          by_contra unspared
          exact alive' (freed_iff.mpr unspared).2
        apply freed_val.mp freed
        cases op with
        | popScope world => trivial
        | collect world =>
            rintro ⟨index, same⟩ allocated
            cases same
            have allocated_lex : s.heap.value lex ≠ none := by simp [found]
            have traced := lex_spared ⟨i, lex_eq⟩ allocated_lex
            have clean_s := clean.1 _ rfl
            obtain ⟨root, held, path⟩ :=
              (clean_traced clean_s ⟨_, _, lex_eq⟩ allocated_lex).mp traced
            refine (clean_traced clean_s ⟨_, _, rfl⟩ allocated).mpr ⟨root, held, path.tail ?_⟩
            rw [Universe.children, found]
            refine List.mem_append_left _ (List.mem_map.mpr ⟨⟨key, .slot place j⟩, ?_, rfl⟩)
            exact List.of_mem_dlookup bound
      · exact same

/-! ## The names stay bound -/

theorem getLex_eq {compared : Ref → κ → List κ} {key : κ} {val : Ref} {fuel : Nat}
    (found : s.heap.value lex = some (.lex parent bindings))
    (bound : bindings.lookup key = some val) :
    getLex compared s key (fuel + 1) (some lex) = .ok val ↔
      ∀ k ∈ compared lex key, s.lexKeys lex k ≠ .freed := by
  rw [getLex, found]
  simp only [bound]
  split
  · next dangling =>
      refine iff_of_false nofun fun sound => ?_
      obtain ⟨k, among, freed⟩ := dangling
      exact sound k among freed
  · next sound =>
      refine iff_of_true rfl fun k among freed => sound ⟨k, among, freed⟩

/-- Imported names stay bound exactly when every collection spares the objects to which the keys
belong that their look-ups read. -/
theorem imports_stay_iff {klass : Ref} {later : List Later}
    (obj : s.heap.value module = some (.obj klass ivars))
    (scope : (s.heap.worlds[world]?).bind World.lex = some lex)
    (found : s.heap.value lex = some (.lex parent bindings))
    (imported : exportModule s world none module = some s₁)
    (ran : Execution.run laterStep s₁ later = some s₂) (alive : s₂.heap.value lex ≠ none)
    (compared : Ref → κ → List κ)
    (searches : ∀ bindings₁, s₁.heap.value lex = some (.lex parent bindings₁) →
      Searches (compared lex) bindings₁) :
    (StaysBound compared s₂ lex ivars ↔
      ∀ key ∈ ivars, ∀ k ∈ compared lex key,
        Lasts s₁ later (storageBehind s lex module bindings k)) ∧
    (∀ key ∈ ivars, key ∉ bindings → StaysBound compared s₂ lex ivars →
      Execution.Along laterStep (SparedBy module) s₁ later) ∧
    (Execution.Along laterStep (fun s op => ∀ world, op = .collect world → Clean s.heap) s₁ later →
      ∀ key place i j, lex = .slot place i → ivars.lookup key = some (.slot place j) →
        s₂.heap.value (.slot place j) = s₁.heap.value (.slot place j)) := by
  obtain ⟨bindings₁, found₁, lookups, keys⟩ := exportModule_spec obj scope found imported
  have same := (run_value ran lex).resolve_left alive
  have searches₁ := searches bindings₁ found₁
  have bound {key : κ} {val : Ref} (exported : ivars.lookup key = some val) :
      bindings₁.lookup key = some val := by
    rw [lookups, exported]
    rfl
  have stays : StaysBound compared s₂ lex ivars ↔
      ∀ key ∈ ivars, ∀ k ∈ compared lex key,
        Lasts s₁ later (storageBehind s lex module bindings k) := by
    constructor
    · intro stays key exported k among
      obtain ⟨val, at_key⟩ := Option.isSome_iff_exists.mp (AList.lookup_isSome.mpr exported)
      have read := (getLex_eq (same.trans found₁) (bound at_key)).mp (stays key val at_key 0) k
        among
      rw [run_key ran, keys k (searches₁.within key k among)] at read
      exact read
    · intro lasts key val at_key fuel
      refine (getLex_eq (same.trans found₁) (bound at_key)).mpr fun k among => ?_
      rw [run_key ran, keys k (searches₁.within key k among)]
      exact lasts key (AList.lookup_isSome.mp (by simp [at_key])) k among
  refine ⟨stays, fun key exported new holds => ?_, fun clean key place i j lex_eq at_key => ?_⟩
  · obtain ⟨val, at_key⟩ := Option.isSome_iff_exists.mp (AList.lookup_isSome.mpr exported)
    have among : key ∈ bindings₁ := AList.lookup_isSome.mp (by simp [bound at_key])
    have lasts := stays.mp holds key exported key (searches₁.finds key among)
    rwa [storageBehind, if_neg new, Lasts] at lasts
  · exact run_bound lex_eq found₁ (bound at_key) clean ran alive

end Keys

/-- A function keeps the scope into which the module is imported. -/
def importerOps : List (Op Nat) :=
  [.worldNew, .pushScope 0, .alloc 0 (.code (some (.slot 0 2))),
    .store (.slot 0 0) (.lex none (AList.singleton 7 (.slot 0 3))),
    .alloc 0 (.obj .nil (AList.singleton 5 (.constInt 1)))]

def importer : Keyed Nat where
  heap := (Execution.run step universeInit importerOps).getD universeInit
  lexKeys := fun _ _ => .literal

/-- The module is the value in slot 4. -/
def imported : Keyed Nat := (exportModule importer 0 none (.slot 0 4)).getD importer

def popped : Keyed Nat := (Execution.run laterStep imported [.popScope 0]).getD importer
def collected : Keyed Nat :=
  (Execution.run laterStep imported [.popScope 0, .collect 0]).getD importer

/-- A search that compares a key with itself alone. -/
def comparedAlone (_ : Ref) (key : Nat) : List Nat := if key = 5 then [5] else []

set_option maxRecDepth 10000 in
theorem imports_stay_iff_popped :
    StaysBound comparedAlone popped (.slot 0 2) (AList.singleton 5 (.constInt 1)) := by
  have module : importer.heap.value (.slot 0 4) =
      some (.obj .nil (AList.singleton 5 (.constInt 1))) := rfl
  have scope : (importer.heap.worlds[0]?).bind World.lex = some (.slot 0 2) := rfl
  have table : importer.heap.value (.slot 0 2) = some (.lex (some (.slot 0 0)) ∅) := rfl
  have exports : (exportModule importer 0 none (.slot 0 4)).isSome = true := by decide +kernel
  have runs : (Execution.run laterStep imported [.popScope 0]).isSome = true := by decide +kernel
  have alive : popped.heap.value (.slot 0 2) ≠ none := by decide +kernel
  have table' : imported.heap.value (.slot 0 2) =
      some (.lex (some (.slot 0 0)) (AList.singleton 5 (.constInt 1))) := rfl
  refine (imports_stay_iff module scope table (eq_some_getD exports _) (eq_some_getD runs _) alive
    comparedAlone ?_).1.mpr ?_
  · intro bindings₁ found
    obtain rfl : AList.singleton 5 (Ref.constInt 1) = bindings₁ := by
      injection table'.symm.trans found with same
      injection same
    constructor
    · intro key k among
      unfold comparedAlone at among
      split at among
      · rw [List.mem_singleton.mp among]
        decide
      · cases among
    · intro key exported
      rw [AList.mem_keys, AList.keys_singleton, List.mem_singleton] at exported
      rw [exported]
      decide
  · intro key exported k among
    exact ⟨trivial, fun _ _ => trivial⟩

set_option maxRecDepth 10000 in
/-- The module is freed with the key of its name, which is still in the table of the scope. -/
theorem imported_name_dangles :
    Execution.run step universeInit importerOps = some importer.heap ∧
      exportModule importer 0 none (.slot 0 4) = some imported ∧
      Execution.run laterStep imported [.popScope 0, .collect 0] = some collected ∧
      collected.heap.value (.slot 0 2) ≠ none ∧
      getLex comparedAlone collected 5 1 (some (.slot 0 2)) = .error .wild := by
  have starts : (Execution.run step universeInit importerOps).isSome = true := by decide +kernel
  have exports : (exportModule importer 0 none (.slot 0 4)).isSome = true := by decide +kernel
  have runs : (Execution.run laterStep imported [.popScope 0, .collect 0]).isSome = true := by
    decide +kernel
  refine ⟨eq_some_getD starts universeInit, eq_some_getD exports importer,
    eq_some_getD runs importer, ?_, rfl⟩
  decide +kernel

end Imports
end Heap
end Pone
