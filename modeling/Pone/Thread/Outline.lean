import Pone.Thread.Model

/-!
# A proof outline of the worker threads

`CallerOk` and `WorkerOk` annotate the program points of `pone_thread_start` and of `thread_start`.
One lemma for each operation says when it keeps the annotations of all threads, and every step is
a composition of operations.
-/

namespace Pone
namespace Thread

variable {τ : Type*}

/-- The job of the current call of a thread is in no history yet. -/
def Unassigned (s : State τ) (t : τ) : Prop := s.job t ∉ s.assigned.map Prod.fst

/-- No thread runs in the new world yet, and nobody else is about to create one there. -/
def Spawner (s : State τ) (t : τ) (w : Nat) : Prop :=
  s.worker w = .unborn ∧ ∀ u, s.caller u = .spawning w → u = t

/-- What a thread knows at a point of `pone_thread_start`. -/
def CallerOk (s : State τ) (t : τ) : Caller → Prop
  | .idle => True
  | .called => Unassigned s t
  | .scanning world => Unassigned s t ∧ ∀ w, world = some w → w < s.count
  | .tested w => Unassigned s t ∧ w < s.count
  | .locked w => Unassigned s t ∧ w < s.count ∧ s.mutex w = some (.caller t) ∧ s.code w = none
  | .stored w | .signalled w => w < s.count ∧ s.mutex w = some (.caller t)
  | .spawning w => w < s.count ∧ Spawner s t w

/-- What the thread of a world knows at a point of `thread_start`. -/
def WorkerOk (s : State τ) (w : Nat) : Worker (τ × Nat) → Prop
  | .unborn | .starting | .woken | .ended => True
  | .waiting => s.code w ≠ none → ∃ t, s.caller t = .stored w
  | .loopHead | .running _ | .releasing | .finishing => s.mutex w = some .worker

/-- The annotations hold, and addresses and calls are in use as counted. -/
structure Coherent (s : State τ) : Prop where
  callers : ∀ t, CallerOk s t (s.caller t)
  workers : ∀ w, WorkerOk s w (s.worker w)
  head_lt : ∀ w, s.workerWorlds = some w → w < s.count
  next_lt : ∀ v w, s.next v = some w → w < s.count
  unused : ∀ w, s.count ≤ w → s.worker w = .unborn ∧ s.mutex w = none ∧ s.code w = none
  numbered : ∀ t k w, ((t, k), w) ∈ s.assigned → k ≤ s.calls t

theorem initial_coherent : Coherent (initial : State τ) where
  callers := fun _ => trivial
  workers := fun _ => trivial
  head_lt := nofun
  next_lt := nofun
  unused := fun _ _ => ⟨rfl, rfl, rfl⟩
  numbered := nofun

/-- A thread keeps what it knows when the others leave its mutexes and its job alone. -/
theorem callerOk_stable {s s' : State τ} {t : τ} {caller : Caller} (ok : CallerOk s t caller)
    (count : s.count ≤ s'.count)
    (mutex : ∀ w, s.mutex w = some (.caller t) → s'.mutex w = some (.caller t))
    (code : ∀ w, caller = .locked w → s.code w = none → s'.code w = none)
    (unassigned : Unassigned s t → Unassigned s' t)
    (spawner : ∀ w, caller = .spawning w → Spawner s t w → Spawner s' t w) :
    CallerOk s' t caller := by
  cases caller with
  | idle => trivial
  | called => exact unassigned ok
  | scanning world => exact ⟨unassigned ok.1, fun w at_w => Nat.lt_of_lt_of_le (ok.2 w at_w) count⟩
  | tested w => exact ⟨unassigned ok.1, Nat.lt_of_lt_of_le ok.2 count⟩
  | locked w =>
      obtain ⟨fresh, bound, holds, empty⟩ := ok
      exact ⟨unassigned fresh, Nat.lt_of_lt_of_le bound count, mutex w holds, code w rfl empty⟩
  | stored w | signalled w => exact ⟨Nat.lt_of_lt_of_le ok.1 count, mutex w ok.2⟩
  | spawning w => exact ⟨Nat.lt_of_lt_of_le ok.1 count, spawner w rfl ok.2⟩

theorem workerOk_stable {s s' : State τ} {w : Nat} {worker : Worker (τ × Nat)}
    (ok : WorkerOk s w worker) (mutex : s.mutex w = some .worker → s'.mutex w = some .worker)
    (waits : worker = .waiting → (s.code w ≠ none → ∃ t, s.caller t = .stored w) →
      s'.code w ≠ none → ∃ t, s'.caller t = .stored w) : WorkerOk s' w worker := by
  cases worker with
  | unborn | starting | woken | ended => trivial
  | waiting => exact waits rfl ok
  | loopHead | running job | releasing | finishing => exact mutex ok

theorem workerOk_condSignal {s : State τ} {w : Nat} {worker : Worker (τ × Nat)}
    (ok : WorkerOk s w worker) : WorkerOk s w (condSignal worker) := by
  cases worker with
  | waiting => trivial
  | unborn | starting | loopHead | woken | running | releasing | finishing | ended => exact ok

theorem Coherent.worker_lt {s : State τ} (coherent : Coherent s) {w : Nat}
    (born : s.worker w ≠ .unborn) : w < s.count := by
  by_contra beyond
  exact born (coherent.unused w (by omega)).1

theorem Coherent.setWorker {s : State τ} (coherent : Coherent s) (w : Nat)
    (worker : Worker (τ × Nat)) (bound : w < s.count) (ok : WorkerOk s w worker)
    (unspawned : ∀ t, s.caller t = .spawning w → worker = .unborn) :
    Coherent (s.setWorker w worker) where
  callers := fun t => by
    refine callerOk_stable (coherent.callers t) (Nat.le_refl _) (fun _ locked => locked)
      (fun _ _ empty => empty) id ?_
    rintro v at_v ⟨unborn, alone⟩
    refine ⟨?_, alone⟩
    by_cases same : v = w
    · subst same
      exact (Function.update_self ..).trans (unspawned t at_v)
    · exact (Function.update_of_ne same ..).trans unborn
  workers := (Function.forall_update_iff s.worker fun v => WorkerOk s v).mpr
    ⟨ok, fun v _ => coherent.workers v⟩
  head_lt := coherent.head_lt
  next_lt := coherent.next_lt
  unused := fun v beyond => by
    have different : v ≠ w := by
      rintro rfl
      exact absurd bound (Nat.not_lt.mpr beyond)
    refine ⟨?_, (coherent.unused v beyond).2⟩
    exact (Function.update_of_ne different ..).trans (coherent.unused v beyond).1
  numbered := coherent.numbered

theorem Coherent.moveWorker {s : State τ} (coherent : Coherent s) (w : Nat)
    (worker : Worker (τ × Nat)) (born : s.worker w ≠ .unborn) (ok : WorkerOk s w worker) :
    Coherent (s.setWorker w worker) := by
  refine coherent.setWorker w worker (coherent.worker_lt born) ok ?_
  intro t spawning
  have spawner := coherent.callers t
  rw [spawning] at spawner
  exact absurd spawner.2.1 born

/-- A mutex that nobody uses may be locked or unlocked. -/
theorem Coherent.setMutex {s : State τ} (coherent : Coherent s) {w : Nat}
    {holder : Option (Holder τ)} (bound : w < s.count)
    (callers : ∀ t, s.mutex w = some (.caller t) → s.caller t = .idle)
    (worker : s.mutex w = some .worker → WorkerOk (s.setMutex w holder) w (s.worker w)) :
    Coherent (s.setMutex w holder) where
  callers := fun t => by
    by_cases mine : s.mutex w = some (.caller t)
    · have idle := callers t mine
      show CallerOk _ t (s.caller t)
      rw [idle]
      trivial
    · refine callerOk_stable (coherent.callers t) (Nat.le_refl _) ?_ (fun _ _ empty => empty) id
        fun _ _ spawner => spawner
      intro v locked
      have different : v ≠ w := by
        rintro rfl
        exact mine locked
      exact (Function.update_of_ne different ..).trans locked
  workers := fun v => by
    by_cases same : v = w ∧ s.mutex w = some .worker
    · obtain ⟨rfl, locked⟩ := same
      exact worker locked
    · refine workerOk_stable (coherent.workers v) ?_ fun _ => id
      intro locked
      have different : v ≠ w := by
        rintro rfl
        exact same ⟨rfl, locked⟩
      exact (Function.update_of_ne different ..).trans locked
  head_lt := coherent.head_lt
  next_lt := coherent.next_lt
  unused := fun v beyond => by
    have different : v ≠ w := by
      rintro rfl
      exact absurd bound (Nat.not_lt.mpr beyond)
    obtain ⟨unborn, free, empty⟩ := coherent.unused v beyond
    exact ⟨unborn, (Function.update_of_ne different ..).trans free, empty⟩
  numbered := coherent.numbered

/-- A slot may be written when no caller counts on its being empty. -/
theorem Coherent.setCode {s : State τ} (coherent : Coherent s) {w : Nat}
    {code : Option (τ × Nat)} (bound : w < s.count)
    (callers : code = none ∨ ∀ t, s.caller t ≠ .locked w)
    (waits : code = none ∨ s.worker w ≠ .waiting ∨ ∃ t, s.caller t = .stored w) :
    Coherent (s.setCode w code) where
  callers := fun t => by
    refine callerOk_stable (coherent.callers t) (Nat.le_refl _) (fun _ locked => locked) ?_ id
      fun _ _ spawner => spawner
    intro v at_v empty
    by_cases same : v = w
    · subst same
      rcases callers with rfl | absent
      · exact Function.update_self ..
      · exact absurd at_v (absent t)
    · exact (Function.update_of_ne same ..).trans empty
  workers := fun v => by
    refine workerOk_stable (coherent.workers v) id ?_
    intro waiting before full
    by_cases same : v = w
    · subst same
      rcases waits with rfl | awake | stored
      · exact absurd (Function.update_self ..) full
      · exact absurd waiting awake
      · exact stored
    · refine before fun empty => full ?_
      exact (Function.update_of_ne same ..).trans empty
  head_lt := coherent.head_lt
  next_lt := coherent.next_lt
  unused := fun v beyond => by
    have different : v ≠ w := by
      rintro rfl
      exact absurd bound (Nat.not_lt.mpr beyond)
    obtain ⟨unborn, free, empty⟩ := coherent.unused v beyond
    exact ⟨unborn, free, (Function.update_of_ne different ..).trans empty⟩
  numbered := coherent.numbered

variable [DecidableEq τ]

theorem Coherent.setCaller {s : State τ} (coherent : Coherent s) {t : τ} {caller : Caller}
    (ok : CallerOk s t caller) (awake : ∀ w, s.caller t = .stored w → s.worker w ≠ .waiting) :
    Coherent (s.setCaller t caller) where
  callers := by
    refine (Function.forall_update_iff s.caller fun u => CallerOk _ u).mpr ⟨?_, ?_⟩
    · refine callerOk_stable ok (Nat.le_refl _) (fun _ locked => locked) (fun _ _ empty => empty)
        id ?_
      rintro w - ⟨unborn, alone⟩
      refine ⟨unborn, fun u spawning => ?_⟩
      by_cases same : u = t
      · exact same
      · exact alone u ((Function.update_of_ne same ..).symm.trans spawning)
    · intro u different
      refine callerOk_stable (coherent.callers u) (Nat.le_refl _) (fun _ locked => locked)
        (fun _ _ empty => empty) id ?_
      rintro w at_w ⟨unborn, alone⟩
      refine ⟨unborn, fun v spawning => ?_⟩
      by_cases same : v = t
      · -- the new point of the thread would have to be alone with the same world
        subst same
        obtain rfl : caller = .spawning w := (Function.update_self ..).symm.trans spawning
        exact absurd (ok.2.2 u at_w) different
      · exact alone v ((Function.update_of_ne same ..).symm.trans spawning)
  workers := fun w => by
    refine workerOk_stable (coherent.workers w) id ?_
    intro waiting before full
    obtain ⟨u, stored⟩ := before full
    have different : u ≠ t := by
      rintro rfl
      exact awake w stored waiting
    exact ⟨u, (Function.update_of_ne different ..).trans stored⟩
  head_lt := coherent.head_lt
  next_lt := coherent.next_lt
  unused := coherent.unused
  numbered := coherent.numbered

omit [DecidableEq τ] in
theorem Coherent.assign {s : State τ} (coherent : Coherent s) (t : τ) (w : Nat)
    (ok : CallerOk (s.assign t w) t (s.caller t)) : Coherent (s.assign t w) where
  callers := fun u => by
    by_cases same : u = t
    · subst same
      exact ok
    · refine callerOk_stable (coherent.callers u) (Nat.le_refl _) (fun _ locked => locked)
        (fun _ _ empty => empty) ?_ fun _ _ spawner => spawner
      -- the job that is recorded belongs to another thread
      intro fresh member
      have split : s.job u ∈ s.assigned.map Prod.fst ++ [s.job t] := by
        simpa [State.assign, State.job] using member
      rcases List.mem_append.mp split with old | new
      · exact fresh old
      · exact same (congrArg Prod.fst (List.mem_singleton.mp new))
  workers := coherent.workers
  head_lt := coherent.head_lt
  next_lt := coherent.next_lt
  unused := coherent.unused
  numbered := fun u k v member => by
    rcases List.mem_append.mp member with old | new
    · exact coherent.numbered u k v old
    · obtain ⟨⟨rfl, rfl⟩, -⟩ : (u = t ∧ k = s.calls t) ∧ v = w := by simpa [State.job] using new
      exact Nat.le_refl _

theorem Coherent.nextCall {s : State τ} (coherent : Coherent s) {t : τ}
    (idle : s.caller t = .idle) : Coherent (s.nextCall t) where
  callers := fun u => by
    by_cases same : u = t
    · subst same
      show CallerOk _ u (s.caller u)
      rw [idle]
      trivial
    · refine callerOk_stable (coherent.callers u) (Nat.le_refl _) (fun _ locked => locked)
        (fun _ _ empty => empty) ?_ fun _ _ spawner => spawner
      intro fresh
      have job_eq : (s.nextCall t).job u = s.job u := by
        simp [State.job, State.nextCall, Function.update_of_ne same]
      rw [Unassigned, job_eq]
      exact fresh
  workers := coherent.workers
  head_lt := coherent.head_lt
  next_lt := coherent.next_lt
  unused := coherent.unused
  numbered := fun u k w member => by
    have bound := coherent.numbered u k w member
    simp only [State.nextCall]
    by_cases same : u = t
    · subst same
      rw [Function.update_self]
      omega
    · rwa [Function.update_of_ne same]

theorem Coherent.nextCall_unassigned {s : State τ} (coherent : Coherent s) (t : τ) :
    Unassigned (s.nextCall t) t := by
  intro member
  obtain ⟨⟨⟨u, k⟩, w⟩, known, same⟩ := List.mem_map.mp member
  have bound := coherent.numbered u k w known
  simp only [State.job, State.nextCall, Function.update_self, Prod.mk.injEq] at same
  obtain ⟨rfl, rfl⟩ := same
  omega

omit [DecidableEq τ] in
theorem Coherent.newWorld {s : State τ} (coherent : Coherent s) : Coherent s.newWorld where
  callers := fun t => callerOk_stable (coherent.callers t) (Nat.le_succ _)
    (fun _ locked => locked) (fun _ _ empty => empty) id fun _ _ spawner => spawner
  workers := coherent.workers
  head_lt := fun w head => by
    obtain rfl : s.count = w := Option.some.inj head
    exact Nat.lt_succ_self _
  next_lt := fun v w linked => by
    by_cases same : v = s.count
    · subst same
      have head : s.workerWorlds = some w := by simpa [State.newWorld] using linked
      exact Nat.lt_succ_of_lt (coherent.head_lt w head)
    · have old : s.next v = some w := (Function.update_of_ne same ..).symm.trans linked
      exact Nat.lt_succ_of_lt (coherent.next_lt v w old)
  unused := fun w beyond => coherent.unused w (Nat.le_of_succ_le beyond)
  numbered := coherent.numbered

/-- A caller whose `pthread_mutex_trylock` succeeds finds `world->code` still `NULL`. -/
def FindsNull (s : State τ) : Event τ → Prop
  | .trylock t =>
      match s.caller t with
      | .tested w => s.mutex w = none → s.code w = none
      | _ => True
  | _ => True

omit [DecidableEq τ] in
/-- A caller holds the mutexes of its annotations alone. -/
theorem Coherent.not_locked {s : State τ} (coherent : Coherent s) {t u : τ} {w : Nat}
    (locked : s.mutex w = some (.caller t)) (different : u ≠ t) : s.caller u ≠ .locked w := by
  intro at_lock
  have ok := coherent.callers u
  rw [at_lock] at ok
  have same := locked.symm.trans ok.2.2.1
  cases same
  exact different rfl

private theorem trylock_coherent {s : State τ} (coherent : Coherent s) {t : τ} {w : Nat}
    (before : s.caller t = .tested w) (finds : s.mutex w = none → s.code w = none) :
    Coherent (trylock s t w) := by
  have ok := coherent.callers t
  rw [before] at ok
  obtain ⟨fresh, bound⟩ := ok
  cases free : s.mutex w with
  | none =>
      simp only [trylock, free]
      have taken : Coherent (s.setMutex w (some (.caller t))) :=
        coherent.setMutex bound (by simp [free]) (by simp [free])
      refine taken.setCaller ⟨fresh, bound, Function.update_self .., finds free⟩ ?_
      intro v stored
      cases before.symm.trans stored
  | some holder =>
      simp only [trylock, free]
      refine coherent.setCaller ⟨fresh, coherent.next_lt w⟩ ?_
      intro v stored
      cases before.symm.trans stored

private theorem store_coherent {s : State τ} (coherent : Coherent s) {t : τ} {w : Nat}
    (before : s.caller t = .locked w) :
    Coherent (((s.setCode w (some (s.job t))).assign t w).setCaller t (.stored w)) := by
  have ok := coherent.callers t
  rw [before] at ok
  obtain ⟨-, bound, locked, -⟩ := ok
  -- the caller moves first, so that nobody counts on the slot being empty
  have moved : Coherent (s.setCaller t (.stored w)) := by
    refine coherent.setCaller ⟨bound, locked⟩ ?_
    intro v stored
    cases before.symm.trans stored
  have caller_eq : (s.setCaller t (.stored w)).caller t = .stored w := Function.update_self ..
  have written : Coherent ((s.setCaller t (.stored w)).setCode w (some (s.job t))) := by
    refine moved.setCode bound (.inr ?_) (.inr (.inr ⟨t, caller_eq⟩))
    intro u
    by_cases same : u = t
    · subst same
      rw [caller_eq]
      nofun
    · exact moved.not_locked locked same
  refine written.assign t w ?_
  show CallerOk _ t ((s.setCaller t (.stored w)).caller t)
  rw [caller_eq]
  exact ⟨bound, locked⟩

private theorem create_coherent {s : State τ} (coherent : Coherent s) {t : τ}
    (before : s.caller t = .scanning none) :
    Coherent (((s.newWorld.setCode s.count (some (s.job t))).assign t s.count).setCaller t
      (.spawning s.count)) := by
  have bound : s.count < s.newWorld.count := Nat.lt_succ_self _
  have unborn := (coherent.unused s.count (Nat.le_refl _)).1
  have unknown (u : τ) : s.caller u ≠ .spawning s.count ∧ s.caller u ≠ .locked s.count := by
    have ok := coherent.callers u
    constructor <;> intro at_count <;> rw [at_count] at ok
    · exact Nat.lt_irrefl _ ok.1
    · exact Nat.lt_irrefl _ ok.2.1
  have caller_eq : (s.newWorld.setCaller t (.spawning s.count)).caller t = .spawning s.count :=
    Function.update_self ..
  have moved : Coherent (s.newWorld.setCaller t (.spawning s.count)) := by
    refine coherent.newWorld.setCaller ⟨bound, unborn, fun u spawning => ?_⟩ ?_
    · exact absurd spawning (unknown u).1
    · intro v stored
      cases before.symm.trans stored
  have written :
      Coherent ((s.newWorld.setCaller t (.spawning s.count)).setCode s.count (some (s.job t))) := by
    refine moved.setCode bound (.inr ?_) (.inr (.inl ?_))
    · intro u
      by_cases same : u = t
      · subst same
        rw [caller_eq]
        nofun
      · intro at_lock
        exact (unknown u).2 ((Function.update_of_ne same ..).symm.trans at_lock)
    · show s.worker s.count ≠ .waiting
      rw [unborn]
      nofun
  refine written.assign t s.count ?_
  have settled := written.callers t
  change CallerOk _ t ((s.newWorld.setCaller t (.spawning s.count)).caller t) at settled
  show CallerOk _ t ((s.newWorld.setCaller t (.spawning s.count)).caller t)
  rw [caller_eq] at settled ⊢
  exact settled

omit [DecidableEq τ] in
/-- The thread of a world acquires its mutex. -/
private theorem acquire_coherent {s : State τ} (coherent : Coherent s) {w : Nat}
    (born : s.worker w ≠ .unborn) (free : s.mutex w = none) :
    Coherent ((s.setMutex w (some .worker)).setWorker w .loopHead) := by
  have locked : Coherent (s.setMutex w (some .worker)) :=
    coherent.setMutex (coherent.worker_lt born) (by simp [free]) (by simp [free])
  exact locked.moveWorker w .loopHead born (Function.update_self ..)

omit [DecidableEq τ] in
/-- The thread of a world unlocks its mutex. -/
private theorem leave_coherent {s : State τ} (coherent : Coherent s) {w : Nat}
    {worker : Worker (τ × Nat)} (born : s.worker w ≠ .unborn) (locked : s.mutex w = some .worker)
    (ok : WorkerOk s w worker) (ok_free : WorkerOk (s.setMutex w none) w worker) :
    Coherent ((s.setMutex w none).setWorker w worker) := by
  have moved := coherent.moveWorker w worker born ok
  refine moved.setMutex (coherent.worker_lt born) ?_ fun _ => ?_
  · intro t other
    cases locked.symm.trans other
  · show WorkerOk _ w ((s.setWorker w worker).worker w)
    rw [show (s.setWorker w worker).worker w = worker from Function.update_self ..]
    exact ok_free

omit [DecidableEq τ] in
private theorem check_coherent {s : State τ} (coherent : Coherent s) {w : Nat}
    (before : s.worker w = .loopHead) : Coherent (check s w) := by
  have locked := coherent.workers w
  rw [before] at locked
  have born : s.worker w ≠ .unborn := by
    rw [before]
    nofun
  unfold check
  split
  · exact leave_coherent coherent born locked trivial trivial
  · split
    · rename_i empty
      exact leave_coherent coherent born locked (absurd empty) (absurd empty)
    · rename_i job full
      obtain ⟨callers, workers, head_lt, next_lt, unused, numbered⟩ :=
        coherent.moveWorker w (.running job) born locked
      exact ⟨callers, workers, head_lt, next_lt, unused, numbered⟩

theorem coherent_step {s s' : State τ} {e : Event τ} (coherent : Coherent s) (finds : FindsNull s e)
    (taken : step s e = some s') : Coherent s' := by
  cases e with
  | async t =>
      simp only [step] at taken
      split at taken
      · rename_i before
        obtain rfl := Option.some.inj taken
        refine (coherent.nextCall before).setCaller (coherent.nextCall_unassigned t) ?_
        intro w stored
        cases before.symm.trans stored
      · cases taken
  | read t =>
      simp only [step] at taken
      split at taken
      · rename_i before
        obtain rfl := Option.some.inj taken
        have fresh := coherent.callers t
        rw [before] at fresh
        refine coherent.setCaller ⟨fresh, coherent.head_lt⟩ ?_
        intro w stored
        cases before.symm.trans stored
      · cases taken
  | test t =>
      simp only [step] at taken
      split at taken
      · rename_i w before
        have ok := coherent.callers t
        rw [before] at ok
        have awake (v : Nat) : s.caller t = .stored v → s.worker v ≠ .waiting := by
          intro stored
          cases before.symm.trans stored
        split at taken
        · obtain rfl := Option.some.inj taken
          exact coherent.setCaller ⟨ok.1, ok.2 w rfl⟩ awake
        · obtain rfl := Option.some.inj taken
          exact coherent.setCaller ⟨ok.1, coherent.next_lt w⟩ awake
      · cases taken
  | trylock t =>
      simp only [step] at taken
      split at taken
      · rename_i w before
        obtain rfl := Option.some.inj taken
        simp only [FindsNull, before] at finds
        exact trylock_coherent coherent before finds
      · cases taken
  | store t =>
      simp only [step] at taken
      split at taken
      · rename_i w before
        obtain rfl := Option.some.inj taken
        exact store_coherent coherent before
      · cases taken
  | signal t =>
      simp only [step] at taken
      split at taken
      · rename_i w before
        obtain rfl := Option.some.inj taken
        have ok := coherent.callers t
        rw [before] at ok
        have woken : Coherent (s.setWorker w (condSignal (s.worker w))) := by
          refine coherent.setWorker w _ ok.1 (workerOk_condSignal (coherent.workers w)) ?_
          intro u spawning
          have spawner := coherent.callers u
          rw [spawning] at spawner
          rw [spawner.2.1]
          rfl
        refine woken.setCaller ok ?_
        intro v stored
        obtain rfl : w = v := Caller.stored.inj (before.symm.trans stored)
        show Function.update s.worker w (condSignal (s.worker w)) w ≠ .waiting
        rw [Function.update_self]
        cases s.worker w <;> nofun
      · cases taken
  | unlock t =>
      simp only [step] at taken
      split at taken
      · rename_i w before
        obtain rfl := Option.some.inj taken
        have ok := coherent.callers t
        rw [before] at ok
        have moved : Coherent (s.setCaller t .idle) := by
          refine coherent.setCaller trivial ?_
          intro v stored
          cases before.symm.trans stored
        refine moved.setMutex ok.1 ?_ ?_
        · intro u locked
          obtain rfl : t = u := by
            have same : some (Holder.caller t) = some (Holder.caller u) := ok.2.symm.trans locked
            cases same
            rfl
          exact Function.update_self ..
        · intro locked
          cases ok.2.symm.trans locked
      · cases taken
  | create t =>
      simp only [step] at taken
      split at taken
      · rename_i before
        obtain rfl := Option.some.inj taken
        exact create_coherent coherent before
      · cases taken
  | spawn t =>
      simp only [step] at taken
      split at taken
      · rename_i w before
        obtain rfl := Option.some.inj taken
        have ok := coherent.callers t
        rw [before] at ok
        obtain ⟨bound, -, alone⟩ := ok
        have moved : Coherent (s.setCaller t .idle) := by
          refine coherent.setCaller trivial ?_
          intro v stored
          cases before.symm.trans stored
        refine moved.setWorker w .starting bound trivial ?_
        intro u spawning
        by_cases same : u = t
        · subst same
          cases (Function.update_self ..).symm.trans spawning
        · exact absurd (alone u ((Function.update_of_ne same ..).symm.trans spawning)) same
      · cases taken
  | acquire w =>
      simp only [step] at taken
      split at taken
      · rename_i before free
        obtain rfl := Option.some.inj taken
        exact acquire_coherent coherent (by rw [before]; nofun) free
      · rename_i before free
        obtain rfl := Option.some.inj taken
        exact acquire_coherent coherent (by rw [before]; nofun) free
      · cases taken
  | check w =>
      simp only [step] at taken
      split at taken
      · rename_i before
        obtain rfl := Option.some.inj taken
        exact check_coherent coherent before
      · cases taken
  | spurious w =>
      simp only [step] at taken
      split at taken
      · rename_i before
        obtain rfl := Option.some.inj taken
        exact coherent.moveWorker w .woken (by rw [before]; nofun) trivial
      · cases taken
  | finish w =>
      simp only [step] at taken
      split at taken
      · rename_i before
        obtain rfl := Option.some.inj taken
        have locked := coherent.workers w
        rw [before] at locked
        exact coherent.moveWorker w .releasing (by rw [before]; nofun) locked
      · cases taken
  | release w =>
      simp only [step] at taken
      split at taken
      · rename_i before
        obtain rfl := Option.some.inj taken
        have locked := coherent.workers w
        rw [before] at locked
        have born : s.worker w ≠ .unborn := by
          rw [before]
          nofun
        have emptied : Coherent (s.setCode w none) :=
          coherent.setCode (coherent.worker_lt born) (.inl rfl) (.inl rfl)
        exact emptied.moveWorker w .finishing born locked
      · cases taken
  | fin w =>
      simp only [step] at taken
      split at taken
      · rename_i before
        obtain rfl := Option.some.inj taken
        have locked := coherent.workers w
        rw [before] at locked
        exact coherent.moveWorker w .loopHead (by rw [before]; nofun) locked
      · cases taken
  | destroy =>
      obtain rfl := Option.some.inj taken
      obtain ⟨callers, workers, head_lt, next_lt, unused, numbered⟩ := coherent
      exact ⟨callers, workers, head_lt, next_lt, unused, numbered⟩

end Thread
end Pone
