import Pone.Thread.Sane

/-!
# Waiting for the workers

When `pone_universe_wait_threads` returns, no job runs and none is stored, as long as the scan of
`pone_count_alive_threads` does not miss a job.  It can: it reads one world at a time, and the reuse
of a world does not lock `worker_worlds_mutex`.  A job may be stored in a world that the scan has
passed, and the job that stored it may be released before the scan comes to its world.
-/

namespace Pone
namespace Thread
namespace Program

/-- What holds of a program at every step. -/
structure Steady (p : Program) : Prop where
  sane : Sane p.threads
  /-- The main thread is in one function at a time. -/
  main_idle : p.main ≠ .running → p.threads.caller none = .idle
  world_lt : ∀ w, p.main.world = some w → w < p.threads.count

theorem initial_steady : Steady initial where
  sane := initial_sane
  main_idle := fun _ => rfl
  world_lt := nofun

theorem notify_world (main : Main) (e : Event (Option Nat)) : (notify main e).world = main.world := by
  cases e <;> cases main <;> rfl

theorem notify_running {main : Main} {e : Event (Option Nat)} (away : notify main e ≠ .running) :
    main ≠ .running := by
  rintro rfl
  cases e <;> exact away rfl

theorem count_le {s s' : State (Option Nat)} {e : Event (Option Nat)}
    (taken : Thread.step s e = some s') : s.count ≤ s'.count := by
  cases slot_step taken with
  | keep _ _ _ count | store _ _ _ _ _ count | release _ _ _ _ count => exact count ▸ Nat.le_refl _
  | create _ _ _ count => omega

theorem steady_thread {p p' : Program} {e : Event (Option Nat)} (steady : Steady p)
    (taken : p.step (.thread e) = some p') : Steady p' := by
  obtain ⟨enabled, threads, thread_taken, rfl⟩ := step_thread taken
  refine ⟨sane_thread steady.sane enabled thread_taken, fun away => ?_, fun w at_world => ?_⟩
  · have away_before := notify_running away
    refine caller_idle (steady.main_idle away_before) ?_ thread_taken
    rintro rfl
    exact away_before enabled
  · rw [notify_world] at at_world
    exact Nat.lt_of_lt_of_le (steady.world_lt w at_world) (count_le thread_taken)

theorem Steady.leaveLoop {p : Program} (steady : Steady p) {w : Nat}
    {worker : Worker (Option Nat × Nat)} (at_loop : p.threads.worker w = .loopHead)
    (idle : ¬ Busy worker) : Steady (p.leaveLoop w worker) where
  sane := by
    have freed : Sane (p.threads.setMutex w none) := steady.sane.congr rfl
    have born : p.threads.worker w ≠ .unborn := by rw [at_loop]; nofun
    refine freed.moveWorker born (absurd · idle) fun active => ?_
    have runs := steady.sane.working w active
    rw [at_loop] at runs
    exact absurd runs not_false
  main_idle := steady.main_idle
  world_lt := steady.world_lt

theorem steady_loop {p p' : Program} {w : Nat} (steady : Steady p)
    (taken : p.step (.loop w) = some p') : Steady p' := by
  simp only [step] at taken
  split at taken
  · rename_i at_loop
    have moved (loop : Loop) : Steady (p.setLoop w loop) :=
      ⟨steady.sane, steady.main_idle, steady.world_lt⟩
    unfold loopStep at taken
    split at taken
    · cases taken
      split
      · exact steady.leaveLoop at_loop not_false
      · exact moved .code
    · cases taken
      exact moved _
    · cases taken
      exact moved _
    · cases taken
      exact steady.leaveLoop at_loop not_false
    · split at taken
      · cases taken
        exact steady.leaveLoop at_loop not_false
      · split at taken
        · cases taken
        · rename_i job full
          cases taken
          refine ⟨?_, steady.main_idle, steady.world_lt⟩
          have runs : Sane (p.threads.setWorker w (.running job)) := by
            refine steady.sane.moveWorker (by simp [at_loop]) (fun _ => ?_) fun _ => trivial
            simp [full]
          exact runs.congr rfl
  · cases taken

theorem below_lt {v w : Nat} (at_below : below v = some w) : w < v := by
  cases v with
  | zero => cases at_below
  | succ v =>
      cases at_below
      exact Nat.lt_succ_self _

theorem Steady.setMain {p : Program} (steady : Steady p) {main : Main}
    (idle : p.threads.caller none = .idle)
    (world_lt : ∀ w, main.world = some w → w < p.threads.count) : Steady (p.setMain main) where
  sane := steady.sane
  main_idle := fun _ => idle
  world_lt := world_lt

theorem steady_main {p p' : Program} (steady : Steady p) (taken : p.step .main = some p') :
    Steady p' := by
  have idle (away : p.main ≠ .running) := steady.main_idle away
  have head (w : Nat) (first : p.threads.workerWorlds = some w) : w < p.threads.count := by
    rw [steady.sane.head] at first
    exact below_lt first
  have next (v w : Nat) (bound : v < p.threads.count) (after : p.threads.next v = some w) :
      w < p.threads.count := by
    rw [steady.sane.next v bound] at after
    exact Nat.lt_trans (below_lt after) bound
  have nowhere {main : Main} (none : main.world = none) (w : Nat) (at_world : main.world = some w) :
      w < p.threads.count := by
    rw [none] at at_world
    cases at_world
  simp only [step, mainStep] at taken
  split at taken <;> rename_i at_main
  · cases taken
  · cases taken
  · cases taken
  · cases taken
    exact steady.setMain (idle (by simp [at_main])) (nowhere rfl)
  · cases taken
    exact steady.setMain (idle (by simp [at_main])) (nowhere rfl)
  · cases taken
    refine steady.setMain (idle (by simp [at_main])) fun w => ?_
    split
    · exact nowhere rfl w
    · exact head w
  · rename_i v alive
    cases taken
    have bound := steady.world_lt v (by rw [at_main]; rfl)
    exact steady.setMain (idle (by simp [at_main])) fun w => next v w bound
  · cases taken
    refine steady.setMain (idle (by simp [at_main])) fun w => ?_
    split <;> exact nowhere rfl w
  · cases taken
    exact steady.setMain (idle (by simp [at_main])) (nowhere rfl)
  · cases taken
    exact ⟨steady.sane.congr rfl, fun _ => idle (by simp [at_main]), nowhere rfl⟩
  · cases taken
    exact steady.setMain (idle (by simp [at_main])) head
  · cases taken
    exact steady.setMain (idle (by simp [at_main])) (nowhere rfl)
  · rename_i v
    cases taken
    have bound := steady.world_lt v (by rw [at_main]; rfl)
    refine ⟨steady.sane.signalWorker bound, fun _ => idle (by simp [at_main]), ?_⟩
    rintro w ⟨⟩
    exact bound
  · rename_i v
    split at taken <;> cases taken
    have bound := steady.world_lt v (by rw [at_main]; rfl)
    exact steady.setMain (idle (by simp [at_main])) fun w => next v w bound

theorem steady_step {p p' : Program} {a : Action} (steady : Steady p)
    (taken : p.step a = some p') : Steady p' := by
  cases a with
  | thread e => exact steady_thread steady taken
  | loop w => exact steady_loop steady taken
  | main => exact steady_main steady taken
  | callWait | callDestroy =>
      simp only [step, callMain] at taken
      split at taken <;> cases taken
      rename_i outside
      exact steady.setMain outside.2 fun w at_world => by cases at_world
  | spurious =>
      simp only [step] at taken
      split at taken <;> cases taken
      rename_i at_main
      refine steady.setMain (steady.main_idle (by simp [at_main])) fun w at_world => ?_
      cases at_world

/-- The worker of the world has still to signal `worker_fin_cond`. -/
def Pending (s : State (Option Nat)) (w : Nat) : Prop :=
  s.code w ≠ none ∨ s.worker w = .finishing

/-- The scan has not read the slot of `w` yet. -/
def Unread (world : Option Nat) (w : Nat) : Prop := ∃ v, world = some v ∧ w ≤ v

/-- The invariant of the scan. -/
structure Scan (p : Program) : Prop where
  /-- A scan that has counted nothing has still to meet a job, if there is one. -/
  unread : ∀ world, p.main = .counting world 0 → ∀ u, p.threads.code u ≠ none →
    ∃ v, Unread world v ∧ p.threads.code v ≠ none
  counted : ∀ world alive, p.main = .counting world alive → alive ≠ 0 →
    ∃ w, Pending p.threads w
  waiting : p.main = .waiting → p.threads.workerWorlds ≠ none → ∃ w, Pending p.threads w
  finished : p.main = .returned → ∀ w, p.threads.code w = none

/-- The scan has still a job to meet when `w` is released: if it has counted nothing and has not
reached `w`, and a world that it has passed holds a job, then another world that it has not reached
holds one too. -/
def LeavesJobFor (s : State (Option Nat)) (w : Nat) : Main → Prop
  | .counting (some v) 0 =>
      w ≤ v → (∃ u < s.count, v < u ∧ s.code u ≠ none) → ∃ u < v + 1, u ≠ w ∧ s.code u ≠ none
  | _ => True

/-- No release hides a job from the scan. -/
def LeavesJob (p : Program) : Action → Prop
  | .thread (.release w) => LeavesJobFor p.threads w p.main
  | _ => True

/-- Who is in `pone_thread_start` while the main thread waits is a job, and its slot is full. -/
theorem Steady.exists_full {p : Program} (steady : Steady p) (away : p.main ≠ .running)
    {t : Option Nat} (active : p.threads.caller t ≠ .idle) : ∃ w, p.threads.code w ≠ none := by
  cases t with
  | none => exact absurd (steady.main_idle away) active
  | some w =>
      refine ⟨w, steady.sane.busy_code w ?_⟩
      have runs := steady.sane.working w active
      cases at_w : p.threads.worker w with
      | running job => trivial
      | unborn | starting | loopHead | waiting | woken | releasing | finishing | ended =>
          rw [at_w] at runs
          exact absurd runs not_false

/-- Jobs come from jobs. -/
theorem Steady.full_before {p : Program} (steady : Steady p) (away : p.main ≠ .running)
    {s : State (Option Nat)} {e : Event (Option Nat)} (taken : Thread.step p.threads e = some s)
    {u : Nat} (full : s.code u ≠ none) : ∃ w, p.threads.code w ≠ none := by
  cases slot_step taken with
  | keep _ code =>
      rw [code] at full
      exact ⟨u, full⟩
  | store t w active | create t active => exact steady.exists_full away active
  | release w _ code =>
      rw [code] at full
      by_cases same : u = w
      · subst same
        simp at full
      · rw [Function.update_of_ne same] at full
        exact ⟨u, full⟩

/-- Only a release empties a slot. -/
theorem full_after {s s' : State (Option Nat)} {e : Event (Option Nat)} {u : Nat}
    (full : s.code u ≠ none) (unreleased : e ≠ .release u)
    (taken : Thread.step s e = some s') : s'.code u ≠ none := by
  have written {w : Nat} {job : Option Nat × Nat} :
      Function.update s.code w (some job) u ≠ none := by
    by_cases same : u = w
    · subst same
      simp
    · rwa [Function.update_of_ne same]
  cases slot_step taken with
  | keep _ code => rwa [code]
  | store t w active code =>
      rw [code]
      exact written
  | create t active code =>
      rw [code]
      exact written
  | release w _ code =>
      have different : u ≠ w := fun same => unreleased (by rw [same])
      rwa [code, Function.update_of_ne different]

theorem pending_step {s s' : State (Option Nat)} {e : Event (Option Nat)} {w : Nat}
    (sane : Sane s) (pending : Pending s w) (unsignalled : e ≠ .fin w)
    (taken : Thread.step s e = some s') : Pending s' w := by
  rcases pending with full | finishing
  · by_cases released : e = .release w
    · subst released
      cases slot_step taken with
      | keep _ code => exact .inl (by rwa [code])
      | release _ finishing => exact .inr finishing
    · exact .inl (full_after full released taken)
  · exact .inr (finishing_step sane finishing unsignalled taken)

theorem initial_scan : Scan initial where
  unread := nofun
  counted := nofun
  waiting := nofun
  finished := nofun

theorem scan_thread {p p' : Program} {e : Event (Option Nat)} (steady : Steady p) (scan : Scan p)
    (leaves : LeavesJob p (.thread e)) (taken : p.step (.thread e) = some p') : Scan p' := by
  obtain ⟨enabled, threads, thread_taken, rfl⟩ := step_thread taken
  -- while the main thread scans or waits, no worker has signalled it
  have unsignalled {w : Nat} (holds : p.main.HoldsWorlds) : e ≠ .fin w := by
    rintro rfl
    exact enabled holds
  refine ⟨?_, ?_, ?_, ?_⟩
  · intro world at_main u full
    have before := notify_eq at_main nofun
    obtain ⟨v, full_v⟩ := steady.full_before (by rw [before]; nofun) thread_taken full
    obtain ⟨x, unread, full_x⟩ := scan.unread world before v full_v
    by_cases released : e = .release x
    · subst released
      obtain ⟨last, rfl, x_le⟩ := unread
      simp only [LeavesJob, before, LeavesJobFor] at leaves
      have code : threads.code = Function.update p.threads.code x none := by
        cases slot_step thread_taken with
        | keep quiet => exact absurd rfl (quiet x)
        | release _ _ code => exact code
      have different : u ≠ x := by
        rintro rfl
        rw [code, Function.update_self] at full
        exact full rfl
      have full_before : p.threads.code u ≠ none := by
        rwa [code, Function.update_of_ne different] at full
      by_cases unread : u ≤ last
      · exact ⟨u, ⟨last, rfl, unread⟩, full⟩
      · have used := steady.sane.code_lt u full_before
        obtain ⟨y, y_lt, y_ne, full_y⟩ := leaves x_le ⟨u, used, by omega, full_before⟩
        refine ⟨y, ⟨last, rfl, by omega⟩, ?_⟩
        rwa [code, Function.update_of_ne y_ne]
    · exact ⟨x, unread, full_after full_x released thread_taken⟩
  · intro world alive at_main counted
    have before := notify_eq at_main nofun
    obtain ⟨w, pending⟩ := scan.counted world alive before counted
    exact ⟨w, pending_step steady.sane pending (unsignalled (by rw [before]; trivial)) thread_taken⟩
  · intro at_main worlds
    have before := notify_eq at_main nofun
    have unsignalled {w : Nat} : e ≠ .fin w := by
      rintro rfl
      rw [before] at at_main
      cases at_main
    have pending : ∃ w, Pending p.threads w := by
      by_cases known : p.threads.workerWorlds = none
      · cases slot_step thread_taken with
        | keep _ _ same | store _ _ _ _ same | release _ _ _ same => exact absurd (same.trans known) worlds
        | create t active =>
            obtain ⟨w, full⟩ := steady.exists_full (by rw [before]; nofun) active
            exact ⟨w, .inl full⟩
      · exact scan.waiting before known
    obtain ⟨w, pending⟩ := pending
    exact ⟨w, pending_step steady.sane pending unsignalled thread_taken⟩
  · intro at_main w
    have before := notify_eq at_main nofun
    by_contra full
    obtain ⟨v, full_v⟩ := steady.full_before (by rw [before]; nofun) thread_taken full
    exact full_v (scan.finished before v)

/-- The main thread is in `pone_universe_wait_threads` with a count, or has returned from it. -/
def Scans : Main → Prop
  | .counting _ _ | .waiting | .returned => True
  | _ => False

theorem Scan.away {p : Program} (outside : ¬ Scans p.main) : Scan p where
  unread := fun _ at_main => absurd (at_main ▸ trivial) outside
  counted := fun _ _ at_main => absurd (at_main ▸ trivial) outside
  waiting := fun at_main => absurd (at_main ▸ trivial) outside
  finished := fun at_main => absurd (at_main ▸ trivial) outside

/-- A worker moves inside its loops. -/
theorem Scan.congr {p p' : Program} (scan : Scan p) (code : p'.threads.code = p.threads.code)
    (worlds : p'.threads.workerWorlds = p.threads.workerWorlds) (main : p'.main = p.main)
    (finishing : ∀ w, p.threads.worker w = .finishing → p'.threads.worker w = .finishing) :
    Scan p' := by
  have pending {w : Nat} (before : Pending p.threads w) : Pending p'.threads w := by
    rw [Pending, code]
    exact before.imp_right (finishing w)
  refine ⟨?_, ?_, ?_, ?_⟩
  · rw [main, code]
    exact scan.unread
  · rw [main]
    intro world alive at_main counted
    obtain ⟨w, before⟩ := scan.counted world alive at_main counted
    exact ⟨w, pending before⟩
  · rw [main, worlds]
    intro at_main known
    obtain ⟨w, before⟩ := scan.waiting at_main known
    exact ⟨w, pending before⟩
  · rw [main, code]
    exact scan.finished

theorem scan_loop {p p' : Program} {w : Nat} (scan : Scan p)
    (taken : p.step (.loop w) = some p') : Scan p' := by
  simp only [step] at taken
  split at taken
  · rename_i at_loop
    have moved {worker : Worker (Option Nat × Nat)} (v : Nat)
        (finishing : p.threads.worker v = .finishing) :
        Function.update p.threads.worker w worker v = .finishing := by
      have different : v ≠ w := by
        rintro rfl
        rw [at_loop] at finishing
        cases finishing
      exact (Function.update_of_ne different ..).trans finishing
    unfold loopStep at taken
    split at taken
    · cases taken
      split
      · exact scan.congr rfl rfl rfl moved
      · exact scan.congr rfl rfl rfl fun _ => id
    · cases taken
      exact scan.congr rfl rfl rfl fun _ => id
    · cases taken
      exact scan.congr rfl rfl rfl fun _ => id
    · cases taken
      exact scan.congr rfl rfl rfl moved
    · split at taken
      · cases taken
        exact scan.congr rfl rfl rfl moved
      · split at taken <;> cases taken
        exact scan.congr rfl rfl rfl moved
  · cases taken

/-- The scan begins: it has read no slot. -/
private theorem testing_scan {p : Program} (steady : Steady p) :
    Scan (p.setMain (if p.threads.workerWorlds = none then .waiting
      else .counting p.threads.workerWorlds 0)) := by
  split
  · rename_i unknown
    refine ⟨nofun, nofun, fun _ known => absurd unknown known, nofun⟩
  · refine ⟨?_, ?_, nofun, nofun⟩
    · rintro _ ⟨⟩ u full
      have used := steady.sane.code_lt u full
      refine ⟨u, ?_, full⟩
      rw [steady.sane.head]
      cases count_eq : p.threads.count with
      | zero => omega
      | succ last => exact ⟨last, rfl, by omega⟩
    · rintro _ _ ⟨⟩ counted
      exact absurd rfl counted

/-- The scan reads one slot. -/
private theorem count_scan {p : Program} (steady : Steady p) (scan : Scan p) {w alive : Nat}
    (at_main : p.main = .counting (some w) alive) :
    Scan (p.setMain (.counting (p.threads.next w)
      (if p.threads.code w = none then alive else alive + 1))) := by
  have next := steady.sane.next w (steady.world_lt w (by rw [at_main]; rfl))
  split
  · rename_i empty
    refine ⟨?_, ?_, nofun, nofun⟩
    · rintro _ ⟨⟩ u full
      obtain ⟨v, ⟨_, ⟨⟩, v_le⟩, full_v⟩ := scan.unread (some w) at_main u full
      have different : v ≠ w := by
        rintro rfl
        exact full_v empty
      refine ⟨v, ?_, full_v⟩
      rw [next]
      cases w with
      | zero => omega
      | succ w => exact ⟨w, rfl, by omega⟩
    · rintro _ _ ⟨⟩ counted
      exact scan.counted (some w) alive at_main counted
  · rename_i full
    refine ⟨?_, ?_, nofun, nofun⟩
    · intro _ none_counted
      cases none_counted
    · intro _ _ _ _
      exact ⟨w, .inl full⟩

/-- The scan ends. -/
private theorem counted_scan {p : Program} (scan : Scan p) {alive : Nat}
    (at_main : p.main = .counting none alive) :
    Scan (p.setMain (if alive = 0 then .returned else .waiting)) := by
  split
  · rename_i nothing
    subst nothing
    refine ⟨nofun, nofun, nofun, fun _ u => ?_⟩
    by_contra full
    obtain ⟨v, ⟨last, at_last, -⟩, -⟩ := scan.unread none at_main u full
    cases at_last
  · rename_i counted
    exact ⟨nofun, nofun, fun _ _ => scan.counted none alive at_main counted, nofun⟩

theorem scan_main {p p' : Program} (steady : Steady p) (scan : Scan p)
    (taken : p.step .main = some p') : Scan p' := by
  simp only [step, mainStep] at taken
  split at taken <;> rename_i at_main
  · cases taken
  · cases taken
  · cases taken
  · cases taken
    exact .away not_false
  · cases taken
    exact .away not_false
  · cases taken
    exact testing_scan steady
  · cases taken
    exact count_scan steady scan at_main
  · cases taken
    exact counted_scan scan at_main
  · cases taken
    exact .away not_false
  · cases taken
    exact .away not_false
  · cases taken
    exact .away not_false
  · cases taken
    exact .away not_false
  · cases taken
    exact .away not_false
  · split at taken <;> cases taken
    exact .away not_false

theorem scan_step {p p' : Program} {a : Action} (steady : Steady p) (scan : Scan p)
    (leaves : LeavesJob p a) (taken : p.step a = some p') : Scan p' := by
  cases a with
  | thread e => exact scan_thread steady scan leaves taken
  | loop w => exact scan_loop scan taken
  | main => exact scan_main steady scan taken
  | callWait | callDestroy | spurious =>
      simp only [step, callMain] at taken
      split at taken <;> cases taken
      exact .away not_false

/-- When `pone_universe_wait_threads` returns, no job runs and none is stored; while it waits, a
worker has still to signal it. -/
structure WaitSound (p : Program) : Prop where
  finished : p.main = .returned → ∀ w, p.threads.code w = none ∧ ¬ (p.threads.worker w).Runs
  idle : p.main = .returned → ∀ t, p.threads.caller t = .idle
  awake : p.main = .waiting → p.threads.workerWorlds ≠ none → ∃ w, Pending p.threads w

theorem runs_busy {κ : Type*} {worker : Worker κ} (runs : worker.Runs) : Busy worker := by
  cases worker with
  | running job => trivial
  | unborn | starting | loopHead | waiting | woken | releasing | finishing | ended => cases runs

theorem WaitSound.of_scan {p : Program} (steady : Steady p) (scan : Scan p) : WaitSound p where
  finished := fun at_main w => by
    have empty := scan.finished at_main w
    exact ⟨empty, fun runs => steady.sane.busy_code w (runs_busy runs) empty⟩
  idle := fun at_main t => by
    by_contra active
    obtain ⟨w, full⟩ := steady.exists_full (by rw [at_main]; nofun) active
    exact full (scan.finished at_main w)
  awake := scan.waiting

/-- In every interleaving of the main thread, the workers and the jobs in which no release hides a
job from a scan, `pone_universe_wait_threads` returns only when no job runs and none is stored, and
never waits when no worker is left to signal it. -/
theorem wait_finishes (events : List Action)
    (leaves : Execution.Along step LeavesJob initial events) :
    Execution.Always step WaitSound initial events := by
  have preserved {p p' : Program} {a : Action} (both : Steady p ∧ Scan p) (leaves : LeavesJob p a)
      (taken : p.step a = some p') : Steady p' ∧ Scan p' :=
    ⟨steady_step both.1 taken, scan_step both.1 both.2 leaves taken⟩
  exact .of_invariant preserved (fun both => .of_scan both.1 both.2)
    ⟨initial_steady, initial_scan⟩ leaves

instance (s : State (Option Nat)) (w : Nat) : (main : Main) → Decidable (LeavesJobFor s w main)
  | .counting (some v) 0 => inferInstanceAs (Decidable (w ≤ v →
      (∃ u < s.count, v < u ∧ s.code u ≠ none) → ∃ u < v + 1, u ≠ w ∧ s.code u ≠ none))
  | .counting none _ | .counting (some _) (_ + 1) | .running | .waitCalled | .testing | .waiting
  | .woken | .returned | .destroying | .ending | .visiting _ | .joining _ | .exited =>
      .isTrue trivial

instance (p : Program) : (a : Action) → Decidable (LeavesJob p a)
  | .thread (.release w) => inferInstanceAs (Decidable (LeavesJobFor p.threads w p.main))
  | .thread (.async _) | .thread (.read _) | .thread (.test _) | .thread (.trylock _)
  | .thread (.store _) | .thread (.signal _) | .thread (.unlock _) | .thread (.create _)
  | .thread (.spawn _) | .thread (.acquire _) | .thread (.check _) | .thread (.spurious _)
  | .thread (.finish _) | .thread (.fin _) | .thread .destroy | .loop _ | .callWait
  | .callDestroy | .main | .spurious => .isTrue trivial

/-- The main thread starts a job, whose worker begins it. -/
def firstWorker : List Action :=
  [.thread (.async none), .thread (.read none), .thread (.create none), .thread (.spawn none),
    .thread (.acquire 0), .loop 0, .loop 0, .loop 0]

/-- The main thread counts the job, waits and is woken by the worker. -/
def waitForOne : List Action :=
  firstWorker ++ [.callWait, .main, .main, .main, .main, .thread (.finish 0), .thread (.release 0),
    .thread (.fin 0), .main, .main, .main, .main]

theorem wait_finishes_one : Execution.Always step WaitSound initial waitForOne :=
  wait_finishes waitForOne (by decide)

/-- The first job starts a second one, which ends.  The scan passes the second world; then the
first job starts a third one there and ends before the scan reads its own world. -/
def hiddenJob : List Action :=
  firstWorker ++ [.thread (.async (some 0)), .thread (.read (some 0)), .thread (.test (some 0)),
    .thread (.create (some 0)), .thread (.spawn (some 0)), .thread (.acquire 1), .loop 1, .loop 1,
    .loop 1, .thread (.finish 1), .thread (.release 1), .thread (.fin 1), .loop 1, .loop 1, .loop 1,
    .loop 1, .callWait, .main, .main, .main, .thread (.async (some 0)), .thread (.read (some 0)),
    .thread (.test (some 0)), .thread (.trylock (some 0)), .thread (.store (some 0)),
    .thread (.signal (some 0)), .thread (.unlock (some 0)), .thread (.acquire 1), .loop 1, .loop 1,
    .thread (.finish 0), .thread (.release 0), .main, .main]

/-- The wait returns while the third job runs. -/
theorem wait_returns_early :
    ∃ p, Execution.run step initial hiddenJob = some p ∧ p.main = .returned ∧
      p.threads.worker 1 = .running (some 0, 2) ∧ ¬ WaitSound p := by
  refine ⟨_, rfl, rfl, rfl, fun sound => ?_⟩
  exact (sound.finished rfl 1).2 trivial

/-- A scan that has counted nothing and has no job to meet returns. -/
theorem scan_returns {p : Program} (steady : Steady p) {v : Nat} (used : v ≤ p.threads.count)
    (at_main : p.main = .counting (below v) 0) (empty : ∀ u < v, p.threads.code u = none) :
    Execution.run step p (List.replicate (v + 1) .main) = some (p.setMain .returned) := by
  induction v generalizing p with
  | zero =>
      have taken : p.step .main = some (p.setMain .returned) := by
        simp [step, mainStep, at_main, below]
      exact Execution.run_cons_iff.mpr ⟨_, taken, rfl⟩
  | succ v ih =>
      have read : p.step .main = some (p.setMain (.counting (below v) 0)) := by
        simp [step, mainStep, at_main, below, empty v, steady.sane.next v used]
      have next := ih (steady_step steady read) (Nat.le_of_succ_le used) rfl fun u bound =>
        empty u (Nat.lt_succ_of_lt bound)
      exact Execution.run_cons_iff.mpr ⟨_, read, next⟩

theorem not_leavesJobFor {s : State (Option Nat)} {w : Nat} {main : Main}
    (hides : ¬ LeavesJobFor s w main) :
    ∃ v, main = .counting (some v) 0 ∧ w ≤ v ∧ (∃ u, v < u ∧ s.code u ≠ none) ∧
      ∀ u ≤ v, u ≠ w → s.code u = none := by
  unfold LeavesJobFor at hides
  split at hides
  · rename_i v
    simp only [Classical.not_imp] at hides
    obtain ⟨unread, ⟨u, -, passed, full⟩, alone⟩ := hides
    refine ⟨v, rfl, unread, ⟨u, passed, full⟩, fun x x_le different => ?_⟩
    by_contra full_x
    exact alone ⟨x, Nat.lt_succ_of_le x_le, different, full_x⟩
  · exact absurd trivial hides

/-- The condition leaves out nothing else: after a release that hides a job, the waiter alone
returns while the job is stored. -/
theorem hidden_job_returns {p p' : Program} {a : Action} (steady : Steady p)
    (hides : ¬ LeavesJob p a) (taken : p.step a = some p') :
    ∃ steps last, Execution.run step p' (List.replicate steps .main) = some last ∧
      last.main = .returned ∧ ¬ WaitSound last := by
  unfold LeavesJob at hides
  split at hides
  · rename_i w
    obtain ⟨v, at_main, w_le, ⟨u, passed, full⟩, alone⟩ := not_leavesJobFor hides
    have steady' := steady_step steady taken
    obtain ⟨-, threads, thread_taken, rfl⟩ := step_thread taken
    cases slot_step thread_taken with
    | keep quiet => exact absurd rfl (quiet w)
    | release _ _ code _ count =>
        have used : v < threads.count := by
          rw [count]
          exact steady.world_lt v (by rw [at_main]; rfl)
        have empty : ∀ x < v + 1, threads.code x = none := by
          intro x bound
          rw [code]
          by_cases same : x = w
          · rw [same, Function.update_self]
          · rw [Function.update_of_ne same]
            exact alone x (Nat.le_of_lt_succ bound) same
        refine ⟨_, _, scan_returns steady' used at_main empty, rfl, fun sound => ?_⟩
        have cleared : threads.code u = none := (sound.finished rfl u).1
        rw [code, Function.update_of_ne (by omega)] at cleared
        exact full cleared
  · exact absurd trivial hides

end Program
end Thread
end Pone
