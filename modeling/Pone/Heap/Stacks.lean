import Pone.Heap.Alloc

/-!
# The stacks of a world

`tmpstack` holds the values that C code still uses, and `savestack` the heights to which
`pone_pop_scope` cuts it.  Scopes and the ends of jobs apart, the runtime only appends to
`tmpstack`.
-/

namespace Pone
namespace Heap

section Stacks

variable {κ : Type} {u u' u'' : Universe κ} {world other : Nat} {ref : Ref} {v : Value κ}

def Universe.tmpstack (u : Universe κ) (world : Nat) : List Ref :=
  ((u.worlds[world]?).map World.tmpstack).getD []

/-- The heights on `savestack`, the top first. -/
def Universe.savestack (u : Universe κ) (world : Nat) : List Nat :=
  (((u.worlds[world]?).map World.savestack).getD []).reverse

/-- No scope of the world is pushed or popped, and the entries of its `tmpstack` stay. -/
structure Appends (world : Nat) (u u' : Universe κ) : Prop where
  savestack : u'.savestack world = u.savestack world
  tmpstack : u.tmpstack world <+: u'.tmpstack world

theorem Appends.refl (world : Nat) (u : Universe κ) : Appends world u u :=
  ⟨rfl, List.prefix_rfl⟩

theorem Appends.trans (first : Appends world u u') (second : Appends world u' u'') :
    Appends world u u'' :=
  ⟨second.savestack.trans first.savestack, first.tmpstack.trans second.tmpstack⟩

/-! ## Worlds -/

theorem appends_of_world (same : u'.worlds[world]? = u.worlds[world]?) : Appends world u u' := by
  have entries : u'.tmpstack world = u.tmpstack world := by
    rw [Universe.tmpstack, same, Universe.tmpstack]
  exact ⟨by rw [Universe.savestack, same, Universe.savestack], entries ▸ List.prefix_rfl⟩

theorem appends_of_worlds (same : u'.worlds = u.worlds) : Appends world u u' :=
  appends_of_world (by rw [same])

theorem tmpstack_modifyWorld {change : World κ → World κ} :
    (u.modifyWorld world change).tmpstack world =
      ((u.worlds[world]?).map fun w => (change w).tmpstack).getD [] := by
  rw [Universe.tmpstack, getElem?_modifyWorld, if_pos rfl, Option.map_map]
  rfl

theorem savestack_modifyWorld {change : World κ → World κ} :
    (u.modifyWorld world change).savestack world =
      (((u.worlds[world]?).map fun w => (change w).savestack).getD []).reverse := by
  rw [Universe.savestack, getElem?_modifyWorld, if_pos rfl, Option.map_map]
  rfl

theorem appends_other {change : World κ → World κ} (elsewhere : other ≠ world) :
    Appends world u (u.modifyWorld other change) :=
  appends_of_world (by rw [getElem?_modifyWorld, if_neg elsewhere])

theorem appends_modifyWorld {change : World κ → World κ}
    (appends : ∀ w, (change w).savestack = w.savestack ∧ w.tmpstack <+: (change w).tmpstack) :
    Appends world u (u.modifyWorld other change) := by
  by_cases here : other = world
  · obtain rfl := here
    constructor
    · rw [savestack_modifyWorld, Universe.savestack]
      simp only [appends]
    · rw [tmpstack_modifyWorld, Universe.tmpstack]
      cases u.worlds[other]? with
      | none => exact List.prefix_rfl
      | some w => exact (appends w).2
  · exact appends_other here

/-! ## The operations that append -/

theorem appends_saveTmp (ref : Ref) : Appends world u (saveTmp u other ref) :=
  appends_modifyWorld fun _ => ⟨rfl, List.prefix_append _ _⟩

theorem appends_objAlloc (executed : objAlloc u other v = some (u', ref)) : Appends world u u' := by
  simp only [objAlloc] at executed
  split at executed
  · cases executed
  case h_2 w found =>
    -- The mark of the slot is cleared, and the slot is taken.
    have unmarks (index : Nat) : Appends world u
        { u with marked := Function.update u.marked (.slot other index) false } :=
      appends_of_worlds rfl
    split at executed
    case h_1 index rest free =>
      cases executed
      refine ((unmarks index).trans ?_).trans (appends_saveTmp _)
      refine .trans (appends_modifyWorld ?_) (appends_modifyWorld ?_) <;>
        exact fun _ => ⟨rfl, List.prefix_rfl⟩
    case h_2 =>
      cases executed
      refine ((unmarks w.slots.length).trans (appends_modifyWorld ?_)).trans (appends_saveTmp _)
      exact fun _ => ⟨rfl, List.prefix_rfl⟩

theorem appends_store (executed : store u ref v = some u') : Appends world u u' := by
  obtain ⟨place, index, before, rfl, found, rfl⟩ := store_eq_some_iff.mp executed
  exact appends_modifyWorld fun _ => ⟨rfl, List.prefix_rfl⟩

theorem appends_aryPush {item : Ref} (executed : aryPush u ref item = some u') :
    Appends world u u' := by
  simp only [aryPush] at executed
  split at executed
  · exact appends_store executed
  · cases executed

theorem appends_aryPop (executed : aryPop u other ref = some u') : Appends world u u' := by
  simp only [aryPop] at executed
  split at executed
  · split at executed
    · exact (appends_saveTmp _).trans (appends_store executed)
    · cases executed
  · cases executed

theorem appends_pushCaller (executed : pushCaller u other = some u') : Appends world u u' := by
  simp only [pushCaller, Option.bind_eq_bind, Option.bind_eq_some_iff, Prod.exists] at executed
  obtain ⟨w, -, callerStack, -, u₁, filename, first, u₂, lineno, second, u₃, sub, third, u₄, row,
    fourth, pushed⟩ := executed
  exact (appends_objAlloc first).trans <| (appends_objAlloc second).trans <|
    (appends_objAlloc third).trans <| (appends_objAlloc fourth).trans <| appends_aryPush pushed

theorem appends_popCaller (executed : popCaller u other = some u') : Appends world u u' := by
  simp only [popCaller, Option.bind_eq_bind, Option.bind_eq_some_iff] at executed
  obtain ⟨w, -, callerStack, -, popped⟩ := executed
  exact appends_aryPop popped

theorem appends_sweepSlot {index : Nat} (swept : sweepSlot other u index = some u') :
    Appends world u u' := by
  obtain ⟨-, rfl⟩ | ⟨-, -, rfl⟩ | ⟨bodies, -, -, rfl⟩ := sweepSlot_cases swept
  · exact .refl world _
  · exact appends_of_worlds rfl
  · have freed : Appends world u ({ u with bodies } : Universe κ) := appends_of_worlds rfl
    refine freed.trans (.trans (appends_modifyWorld ?_) (appends_modifyWorld ?_)) <;>
      exact fun _ => ⟨rfl, List.prefix_rfl⟩

theorem appends_gcRun (executed : gcRun u other = some u') : Appends world u u' := by
  obtain ⟨marked, swept, marking, sweeping, rfl⟩ := gcRun_eq_some_iff.mp executed
  have marks : Appends world u marked :=
    appends_of_worlds ((congrArg Universe.worlds (gcMark_marked marking).1).trans rfl)
  have sweeps : Appends world marked swept :=
    foldlM_rel (Appends.refl world) Appends.trans appends_sweepSlot sweeping
  exact (marks.trans sweeps).trans (appends_modifyWorld fun _ => ⟨rfl, List.prefix_rfl⟩)

theorem appends_codeVcall {code : Ref} (executed : codeVcall u other code = some u') :
    Appends world u u' := by
  simp only [codeVcall, Option.bind_eq_bind, Option.bind_eq_some_iff] at executed
  obtain ⟨w, -, executed⟩ := executed
  split at executed
  all_goals
    obtain ⟨collected, collects, executed⟩ := Option.bind_eq_some_iff.mp executed
    obtain ⟨pushed, pushes, called⟩ := Option.bind_eq_some_iff.mp executed
    have collecting : Appends world u collected := by
      first
      | exact appends_gcRun collects
      | exact Option.some.inj collects ▸ .refl world u
    have pushing : Appends world u pushed := collecting.trans (appends_pushCaller pushes)
    split at called
    · cases called
      refine pushing.trans (.trans ?_ (appends_modifyWorld fun _ => ⟨rfl, List.prefix_rfl⟩))
      split
      · exact appends_saveTmp _
      · exact .refl world pushed
    · cases called
      exact pushing
    · cases called

theorem appends_codeReturn {origLex : Option (Option Ref)}
    (executed : codeReturn u other origLex = some u') : Appends world u u' := by
  refine .trans ?_ (appends_popCaller executed)
  exact appends_modifyWorld fun _ => ⟨rfl, List.prefix_rfl⟩

theorem appends_excThrow {val : Ref} {rows : Nat} (executed : excThrow u other val rows = some u') :
    Appends world u u' := by
  simp only [excThrow, Option.bind_eq_bind, Option.bind_eq_some_iff] at executed
  obtain ⟨w, -, callerStack, -, handler, -, thrown⟩ := executed
  split at thrown
  case h_1 items found =>
    obtain ⟨truncated, truncates, unwound⟩ := Option.bind_eq_some_iff.mp thrown
    have saved (tmps : List Ref) (before : Universe κ) :
        Appends world before (tmps.foldl (saveTmp · other ·) before) := by
      induction tmps generalizing before with
      | nil => exact .refl world before
      | cons tmp tmps ih => exact (appends_saveTmp tmp).trans (ih _)
    have truncating : Appends world u truncated := (saved _ u).trans (appends_store truncates)
    split at unwound
    · cases unwound
      exact truncating.trans (appends_modifyWorld fun _ => ⟨rfl, List.prefix_rfl⟩)
    · cases unwound
  · cases thrown

theorem appends_worldNew : Appends world u (worldNew u) := by
  by_cases bound : world < u.worlds.length
  · exact appends_of_world (by rw [worldNew, List.getElem?_append_left bound])
  · have missing : u.worlds[world]? = none := List.getElem?_eq_none (Nat.le_of_not_lt bound)
    constructor
    · simp only [Universe.savestack, worldNew, missing,
        List.getElem?_append_right (Nat.le_of_not_lt bound), List.getElem?_singleton]
      split <;> rfl
    · rw [Universe.tmpstack, missing]
      exact List.nil_prefix

/-! ## Scopes -/

theorem tmpstack_saveTmp (found : (u.worlds[world]?).isSome) (ref : Ref) :
    (saveTmp u world ref).tmpstack world = u.tmpstack world ++ [ref] := by
  obtain ⟨w, found⟩ := Option.isSome_iff_exists.mp found
  rw [saveTmp, tmpstack_modifyWorld, Universe.tmpstack, found]
  rfl

/-- A new value has an entry. -/
theorem mem_tmpstack_objAlloc (executed : objAlloc u world v = some (u', ref)) :
    ref ∈ u'.tmpstack world := by
  simp only [objAlloc] at executed
  split at executed
  · cases executed
  case h_2 w found =>
    split at executed
    all_goals
      cases executed
      rw [tmpstack_saveTmp]
      · exact List.mem_append_right _ List.mem_cons_self
      · simp [Universe.setSlot, getElem?_modifyWorld, found]

/-- `pone_push_scope` appends to `tmpstack` and puts a height on `savestack` that cuts none of the
old entries. -/
theorem pushScope_stacks (executed : pushScope u world = some u') :
    u.tmpstack world <+: u'.tmpstack world ∧
      ∃ mark, (u.tmpstack world).length ≤ mark ∧
        u'.savestack world = mark :: u.savestack world := by
  simp only [pushScope, Option.bind_eq_bind, Option.bind_eq_some_iff, Prod.exists] at executed
  obtain ⟨w, -, u₁, lex, allocated, pushed⟩ := executed
  have appends : Appends world u u₁ := appends_objAlloc allocated
  have entry : lex ∈ u₁.tmpstack world := mem_tmpstack_objAlloc allocated
  cases found : u₁.worlds[world]? with
  | none => simp [Universe.tmpstack, found] at entry
  | some w₁ =>
      obtain rfl := Option.some.inj pushed
      have tmpstack : u₁.tmpstack world = w₁.tmpstack := by simp [Universe.tmpstack, found]
      have savestack : u₁.savestack world = w₁.savestack.reverse := by
        simp [Universe.savestack, found]
      refine ⟨?_, w₁.tmpstack.length, ?_, ?_⟩
      · have front := appends.tmpstack
        rw [tmpstack] at front
        rw [tmpstack_modifyWorld, found]
        exact front
      · exact tmpstack ▸ appends.tmpstack.length_le
      · rw [savestack_modifyWorld, found, ← appends.savestack, savestack]
        simp

/-- `pone_pop_scope` cuts `tmpstack` to the height on the top of `savestack`. -/
theorem popScope_stacks (executed : popScope u world = some u') :
    ∃ mark, u.savestack world = mark :: u'.savestack world ∧
      u'.tmpstack world = (u.tmpstack world).take mark := by
  simp only [popScope, Option.bind_eq_bind, Option.bind_eq_some_iff] at executed
  obtain ⟨w, found, lex, -, mark, top, popped⟩ := executed
  split at popped
  case h_1 parent bindings content =>
    obtain rfl := Option.some.inj popped
    refine ⟨mark, ?_, ?_⟩
    · rw [savestack_modifyWorld, Universe.savestack, found]
      obtain ⟨marks, stack⟩ := List.getLast?_eq_some_iff.mp top
      simp [stack]
    · rw [tmpstack_modifyWorld, Universe.tmpstack, found]
      rfl
  case h_2 => cases popped

/-! ## All operations -/

/-- What a function of the runtime, or another thread, does beside the calls of `pone_push_scope`
and `pone_pop_scope` in the emitted code of the world, the calls of code values there and the end of
the job. -/
def Op.keeps (world : Nat) : Op κ → Bool
  | .pushScope other | .popScope other | .codeVcall other _ | .codeReturn other _
  | .throw other _ _ | .release other => other ≠ world
  | _ => true

theorem appends_pushScope (elsewhere : other ≠ world) (executed : pushScope u other = some u') :
    Appends world u u' := by
  simp only [pushScope, Option.bind_eq_bind, Option.bind_eq_some_iff, Prod.exists] at executed
  obtain ⟨w, -, u₁, lex, allocated, pushed⟩ := executed
  cases pushed
  exact (appends_objAlloc allocated).trans (appends_other elsewhere)

theorem appends_popScope (elsewhere : other ≠ world) (executed : popScope u other = some u') :
    Appends world u u' := by
  simp only [popScope, Option.bind_eq_bind, Option.bind_eq_some_iff] at executed
  obtain ⟨w, -, lex, -, saved, -, popped⟩ := executed
  split at popped
  · cases popped
    exact appends_other elsewhere
  · cases popped

theorem appends_worldRelease (elsewhere : other ≠ world)
    (executed : worldRelease u other = some u') : Appends world u u' := by
  have reset : Appends world u (worldReset u other) := appends_other elsewhere
  simp only [worldRelease, Option.bind_eq_bind, Option.bind_eq_some_iff] at executed
  obtain ⟨w, -, released⟩ := executed
  split at released
  · exact reset.trans (appends_gcRun released)
  · cases released
    exact reset

theorem appends_step {op : Op κ} (keeps : op.keeps world = true) (executed : step u op = some u') :
    Appends world u u' := by
  cases op with
  | worldNew =>
      cases executed
      exact appends_worldNew
  | alloc place v =>
      obtain ⟨⟨u', ref⟩, allocated, rfl⟩ := Option.map_eq_some_iff.mp executed
      exact appends_objAlloc allocated
  | store ref v => exact appends_store executed
  | saveTmp place ref =>
      cases executed
      exact appends_saveTmp ref
  | threadStart | setCode | setLex | setErrvar | handlerPush | handlerPop | gcRequest =>
      cases executed
      exact appends_modifyWorld fun _ => ⟨rfl, List.prefix_rfl⟩
  | bodyNew | setInc | setArgs | setClassClass | setGlobal | signalNotify =>
      cases executed
      exact appends_of_worlds rfl
  | pushScope other => exact appends_pushScope (by simpa [Op.keeps] using keeps) executed
  | popScope other => exact appends_popScope (by simpa [Op.keeps] using keeps) executed
  | codeVcall other code => exact appends_codeVcall executed
  | codeReturn other origLex => exact appends_codeReturn executed
  | throw other val rows => exact appends_excThrow executed
  | gcRun other => exact appends_gcRun executed
  | release other => exact appends_worldRelease (by simpa [Op.keeps] using keeps) executed

end Stacks

end Heap
end Pone
