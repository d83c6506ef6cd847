import Pone.Heap.Environment
import Pone.Heap.Exact

/-!
# Jobs in one worker

A worker runs one job after another in its world: `thread_start` pushes a scope, calls the code that
another thread has copied, and releases the world.  Nothing pops the scope, and the release empties
`tmpstack` down to the entry that keeps the caller stack.
-/

namespace Pone
namespace Heap

section Worker

variable {κ : Type} {u u' : Universe κ} {world other : Nat} {body : List (Op κ)}

/-- One round of the loop of `thread_start` whose code returns normally.  The body is what happens in
all worlds while the code runs. -/
def runJob (u : Universe κ) (world : Nat) (body : List (Op κ)) : Option (Universe κ) := do
  let u ← pushScope u world
  let w ← u.worlds[world]?
  let code ← w.code
  match u.value code with
  | some (.code (some _)) =>
      let u ← codeVcall u world code
      let u ← Execution.run step u body
      let u ← codeReturn u world (some w.lex)
      worldRelease u world
  | _ => none

/-- A worker runs a job, or anything else happens. -/
inductive WorkerEvent (κ : Type) where
  | op (op : Op κ)
  | job (body : List (Op κ))
  deriving DecidableEq

def reuse (world : Nat) (u : Universe κ) : WorkerEvent κ → Option (Universe κ)
  | .op op => step u op
  | .job body => runJob u world body

/-- The next job finds the world `w'` in `u'` as a new worker would, and as `w` was in `u` before the
last job. -/
structure AsNew (u u' : Universe κ) (world : Nat) (w w' : World κ) : Prop where
  /-- The caller stack is empty, and a collection keeps it. -/
  callerStack : ∃ rows, w'.callerStack = some rows ∧ u'.value rows = some (.ary []) ∧
    GcReached u' world rows
  depth : ∃ chain chain', LexChain u w.lex chain ∧ LexChain u' w'.lex chain' ∧
    chain'.length = chain.length
  /-- The only entry of a new `tmpstack` is the caller stack. -/
  tmpstack : w'.tmpstack = w'.callerStack.toList
  savestack : w'.savestack = []
  errHandlerIdx : w'.errHandlerLexs.length = 1
  /-- Nothing that the job has allocated is reachable from the world. -/
  forgotten : ∀ ref, u.value ref = none → u'.value ref ≠ none → ∀ root ∈ w'.roots,
    ¬ Relation.ReflTransGen (fun parent child => child ∈ u'.pointers parent) root ref

/-- The job that the worker runs leaves its world as new. -/
def LeavesAsNew (world : Nat) (u : Universe κ) : WorkerEvent κ → Prop
  | .op _ => True
  | .job body => ∀ u' w w', runJob u world body = some u' → u.worlds[world]? = some w →
      u'.worlds[world]? = some w' → AsNew u u' world w w'

/-- The worker runs no job, or one that does not end. -/
def EndsNoJob (world : Nat) (u : Universe κ) : WorkerEvent κ → Prop
  | .op _ => True
  | .job body => runJob u world body = none

/-! ## The fields of a world -/

theorem modifyWorld_observes {α : Type} (observe : World κ → α) {change : World κ → World κ}
    (same : ∀ w, observe (change w) = observe w) :
    ((u.modifyWorld world change).worlds[other]?).map observe =
      (u.worlds[other]?).map observe := by
  rw [getElem?_modifyWorld]
  split
  · cases u.worlds[other]? with
    | none => rfl
    | some w => exact congrArg some (same w)
  · rfl

theorem store_observes {α : Type} (observe : World κ → α) {ref : Ref} {v : Value κ}
    (slots : ∀ w slots, observe { w with slots := slots } = observe w)
    (executed : store u ref v = some u') :
    (u'.worlds[other]?).map observe = (u.worlds[other]?).map observe := by
  obtain ⟨place, index, before, rfl, found, rfl⟩ := store_eq_some_iff.mp executed
  exact modifyWorld_observes observe fun w => slots w _

/-- A collection changes the slots, the freelist and the request of a world. -/
theorem gcRun_observes {α : Type} (observe : World κ → α)
    (slots : ∀ w slots, observe { w with slots := slots } = observe w)
    (freelist : ∀ w freelist, observe { w with freelist := freelist } = observe w)
    (requested : ∀ w, observe { w with gcRequested := false } = observe w)
    (executed : gcRun u world = some u') :
    (u'.worlds[other]?).map observe = (u.worlds[other]?).map observe := by
  obtain ⟨marked, swept, marking, sweeping, rfl⟩ := gcRun_eq_some_iff.mp executed
  have worlds : marked.worlds = u.worlds := by rw [(gcMark_marked marking).1]
  rw [modifyWorld_observes observe requested, ← worlds]
  rw [gcCollect] at sweeping
  revert sweeping
  generalize List.range _ = indices
  intro sweeping
  clear marking executed worlds
  induction indices generalizing marked with
  | nil =>
      cases sweeping
      rfl
  | cons index indices ih =>
      obtain ⟨next, first, rest⟩ := Option.bind_eq_some_iff.mp sweeping
      rw [ih next rest]
      obtain ⟨-, rfl⟩ | ⟨-, -, rfl⟩ | ⟨bodies, -, -, rfl⟩ := sweepSlot_cases first
      · rfl
      · rfl
      · rw [valFree, modifyWorld_observes observe fun w => freelist w _, Universe.setSlot,
          modifyWorld_observes observe fun w => slots w _]

/-- What `pone_world_release` leaves. -/
theorem worldRelease_world (executed : worldRelease u world = some u') :
    ∃ w w', u.worlds[world]? = some w ∧ u'.worlds[world]? = some w' ∧ w'.tmpstack = [] ∧
      w'.savestack = [] ∧ w'.code = none ∧ w'.lex = w.lex ∧
      w'.errHandlerLexs = w.errHandlerLexs := by
  simp only [worldRelease, Option.bind_eq_bind, Option.bind_eq_some_iff] at executed
  obtain ⟨w, found, executed⟩ := executed
  let observe (w : World κ) := (w.tmpstack, w.savestack, w.code, w.lex, w.errHandlerLexs)
  have reset : ((worldReset u world).worlds[world]?).map observe =
      some ([], [], none, w.lex, w.errHandlerLexs) := by
    rw [worldReset, getElem?_modifyWorld, if_pos rfl, found]
    rfl
  have released : (u'.worlds[world]?).map observe =
      some ([], [], none, w.lex, w.errHandlerLexs) := by
    split at executed
    · rw [gcRun_observes observe (fun _ _ => rfl) (fun _ _ => rfl) (fun _ => rfl) executed, reset]
    · obtain rfl := Option.some.inj executed
      exact reset
  obtain ⟨w', found', same⟩ := Option.map_eq_some_iff.mp released
  simp only [observe, Prod.mk.injEq] at same
  exact ⟨w, w', found, found', same.1, same.2.1, same.2.2.1, same.2.2.2.1, same.2.2.2.2⟩

/-- The lex in which a call returns is the one that the C stack has kept. -/
theorem codeReturn_lex {origLex : Option Ref}
    (executed : codeReturn u world (some origLex) = some u') :
    ∃ w', u'.worlds[world]? = some w' ∧ w'.lex = origLex := by
  simp only [codeReturn, popCaller, Option.bind_eq_bind, Option.bind_eq_some_iff] at executed
  obtain ⟨w, found, rows, -, popped⟩ := executed
  rw [getElem?_modifyWorld, if_pos rfl] at found
  obtain ⟨before, found, -⟩ := Option.map_eq_some_iff.mp found
  simp only [aryPop] at popped
  split at popped
  case h_1 items _ =>
    split at popped
    case h_1 item _ =>
      have left : (u'.worlds[world]?).map World.lex = some origLex := by
        rw [store_observes World.lex (fun _ _ => rfl) popped, saveTmp, getElem?_modifyWorld,
          if_pos rfl, getElem?_modifyWorld, if_pos rfl, found]
        rfl
      exact Option.map_eq_some_iff.mp left
    case h_2 => cases popped
  case h_2 => cases popped

/-- What a job leaves in its world. -/
theorem runJob_world (ended : runJob u world body = some u') :
    ∃ u₁ w₁ w', pushScope u world = some u₁ ∧ u₁.worlds[world]? = some w₁ ∧
      u'.worlds[world]? = some w' ∧ w'.tmpstack = [] ∧ w'.savestack = [] ∧ w'.lex = w₁.lex := by
  simp only [runJob, Option.bind_eq_bind, Option.bind_eq_some_iff] at ended
  obtain ⟨u₁, pushed, w₁, found₁, code, held, ended⟩ := ended
  split at ended
  case h_1 =>
    simp only [Option.bind_eq_some_iff] at ended
    obtain ⟨u₂, called, u₃, ran, u₄, returned, released⟩ := ended
    obtain ⟨w₄, found₄, lex⟩ := codeReturn_lex returned
    obtain ⟨w, w', found, found', tmpstack, savestack, -, same, -⟩ := worldRelease_world released
    obtain rfl : w₄ = w := Option.some.inj (found₄.symm.trans found)
    exact ⟨u₁, w₁, w', pushed, found₁, found', tmpstack, savestack, same.trans lex⟩
  case h_2 => cases ended

/-- The scope that `thread_start` has pushed for a job, in a slot that was free, stays after it. -/
theorem runJob_scope (wellFormed : u.WellFormed) (ended : runJob u world body = some u') :
    ∃ w' index, u'.worlds[world]? = some w' ∧ w'.lex = some (.slot world index) ∧
      u.value (.slot world index) = none := by
  obtain ⟨u₁, w₁, w', pushed, found₁, found', -, -, lex⟩ := runJob_world ended
  simp only [pushScope, Option.bind_eq_bind, Option.bind_eq_some_iff] at pushed
  obtain ⟨w, found, ⟨middle, scope⟩, alloc, pushed⟩ := pushed
  obtain ⟨⟨index, rfl⟩, free, -⟩ := objAlloc_replaces wellFormed alloc
  obtain rfl := Option.some.inj pushed
  rw [getElem?_modifyWorld, if_pos rfl] at found₁
  obtain ⟨before, -, rfl⟩ := Option.map_eq_some_iff.mp found₁
  exact ⟨w', index, found', lex, free⟩

/-- No job leaves the world of its worker as new. -/
theorem not_asNew {w w' : World κ} (ended : runJob u world body = some u')
    (found : u'.worlds[world]? = some w') : ¬ AsNew u u' world w w' := by
  obtain ⟨-, -, left, -, -, found_left, tmpstack, -, -⟩ := runJob_world ended
  obtain rfl : left = w' := Option.some.inj (found_left.symm.trans found)
  intro asNew
  obtain ⟨rows, callerStack, -, -⟩ := asNew.callerStack
  have kept := asNew.tmpstack
  rw [tmpstack, callerStack] at kept
  cases kept

theorem runJob_found (ended : runJob u world body = some u') :
    ∃ w w', u.worlds[world]? = some w ∧ u'.worlds[world]? = some w' := by
  obtain ⟨u₁, w₁, w', pushed, -, found', -⟩ := runJob_world ended
  simp only [pushScope, Option.bind_eq_bind, Option.bind_eq_some_iff] at pushed
  obtain ⟨w, found, -⟩ := pushed
  exact ⟨w, w', found, found'⟩

/-- A worker stays as new exactly as long as it ends no job. -/
theorem worker_asNew_iff (world : Nat) (u : Universe κ) (events : List (WorkerEvent κ)) :
    Execution.Along (reuse world) (LeavesAsNew world) u events ↔
      Execution.Along (reuse world) (EndsNoJob world) u events := by
  have same (u : Universe κ) (event : WorkerEvent κ) :
      LeavesAsNew world u event ↔ EndsNoJob world u event := by
    cases event with
    | op op => exact .rfl
    | job body =>
        simp only [LeavesAsNew, EndsNoJob]
        constructor
        · intro leaves
          by_contra ends
          obtain ⟨u', ended⟩ := Option.ne_none_iff_exists'.mp ends
          obtain ⟨w, w', found, found'⟩ := runJob_found ended
          exact not_asNew ended found' (leaves u' w w' ended found found')
        · intro ends u' w w' ended
          cases ends.symm.trans ended
  exact ⟨fun asNew => asNew.mono fun u event => (same u event).mp,
    fun idle => idle.mono fun u event => (same u event).mpr⟩

/-- The world of a worker that has run no job. -/
def newWorker (u : Universe κ) : Universe κ := threadStart (worldNew u) u.worlds.length

theorem newWorker_asNew (u : Universe κ) :
    ∃ w, (newWorker u).worlds[u.worlds.length]? = some w ∧
      AsNew (newWorker u) (newWorker u) u.worlds.length w w := by
  let w : World κ := {
    slots := [some (.lex none ∅), some (.ary [])], freelist := [], code := none
    lex := some (.slot u.worlds.length 0), errvar := some .nil
    callerStack := some (.slot u.worlds.length 1)
    errHandlerLexs := [some (.slot u.worlds.length 0)], tmpstack := [.slot u.worlds.length 1]
    savestack := [], gcRequested := false }
  have found : (newWorker u).worlds[u.worlds.length]? = some w := by
    simp [newWorker, threadStart, worldNew, getElem?_modifyWorld, w]
  have scope : (newWorker u).value (.slot u.worlds.length 0) = some (.lex none ∅) := by
    simp [Universe.value, found, w]
  have rows : (newWorker u).value (.slot u.worlds.length 1) = some (.ary []) := by
    simp [Universe.value, found, w]
  have chain : LexChain (newWorker u) w.lex [.slot u.worlds.length 0] := by
    refine ⟨⟨rfl, ?_⟩, fun lex member => ?_⟩
    · simp [ScopeChain.IsChain, Universe.lexParent, scope]
    · obtain rfl := List.mem_singleton.mp member
      exact ⟨none, ∅, scope⟩
  refine ⟨w, found, ⟨_, rfl, rows, .slot u.worlds.length 1, ?_, .refl⟩, ⟨_, _, chain, chain, rfl⟩,
    rfl, rfl, rfl, fun ref free used => absurd free used⟩
  simp [Universe.gcRoots, found, World.markedRoots, w]

end Worker

/-- A worker for `async(sub () { 1 })`. -/
def startedWorker : Universe Nat :=
  (Execution.run step universeInit
    [.worldNew, .alloc 0 (.ary []), .setInc (.slot 0 2), .alloc 0 (.ary []), .setArgs (.slot 0 3),
      .worldNew, .alloc 1 (.code none), .alloc 1 (.lex none ∅),
      .store (.slot 1 2) (.code (some (.slot 1 3))), .setCode 1 (.slot 1 2),
      .threadStart 1]).getD universeInit

/-- The worker when the job has ended; the sub has returned from its scope. -/
def reusedWorker : Universe Nat := (runJob startedWorker 1 [.pushScope 1]).getD universeInit

set_option maxRecDepth 10000 in
/-- The job was asked of a new world.  Afterwards the world is one scope deeper, and nothing keeps
the caller stack. -/
theorem job_leaves_scope :
    runJob startedWorker 1 [.pushScope 1] = some reusedWorker ∧
      LexChain startedWorker ((startedWorker.worlds[1]?).bind World.lex) [.slot 1 0] ∧
      LexChain reusedWorker ((reusedWorker.worlds[1]?).bind World.lex) [.slot 1 4, .slot 1 0] ∧
      (reusedWorker.worlds[1]?).bind World.callerStack = some (.slot 1 1) ∧
      ¬ GcReached reusedWorker 1 (.slot 1 1) ∧
      ¬ Execution.Along (reuse 1) (LeavesAsNew 1) startedWorker [.job [.pushScope 1]] := by
  have ends : (runJob startedWorker 1 [.pushScope 1]).isSome = true := by decide +kernel
  have ended : runJob startedWorker 1 [.pushScope 1] = some reusedWorker :=
    eq_some_getD ends _
  have inner : reusedWorker.lexParent (.slot 1 4) = some (.slot 1 0) := by decide +kernel
  have outer : reusedWorker.lexParent (.slot 1 0) = none := by decide +kernel
  have first : startedWorker.lexParent (.slot 1 0) = none := by decide +kernel
  refine ⟨ended, ⟨⟨by decide +kernel, first⟩, fun lex member => ?_⟩,
    ⟨⟨by decide +kernel, inner, outer⟩, fun lex member => ?_⟩, by decide +kernel, ?_, fun asNew => ?_⟩
  · obtain rfl := List.mem_singleton.mp member
    exact ⟨none, ∅, rfl⟩
  · simp only [List.mem_cons, List.not_mem_nil, or_false] at member
    rcases member with rfl | rfl
    · exact ⟨some (.slot 1 0), ∅, rfl⟩
    · exact ⟨none, ∅, rfl⟩
  · intro reached
    have inside := reached.mem_of_closed
      [.slot 0 2, .slot 0 3, .slot 1 4, .slot 1 0, .nil] (by decide +kernel) (by decide +kernel)
    simp at inside
  · obtain ⟨w, w', found, found'⟩ := runJob_found ended
    exact not_asNew ended found' (asNew.1 reusedWorker w w' ended found found')

end Heap
end Pone
