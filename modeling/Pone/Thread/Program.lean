import Pone.Thread.Jobs

/-!
# The main thread and its workers

The callers of `pone_thread_start` are the main thread and the jobs that run, and the main thread
also calls `pone_universe_wait_threads` and `pone_universe_destroy` of `universe.c`.  The waiter
reads `world->code` of one world a step, with `worker_worlds_mutex` locked; the reuse of a world
does not lock it.  The destroyer writes `end_time` without the mutex of any worker, so the tests of
the loops of `thread_start` are steps of their own here, and so is the start of the wait.
-/

namespace Pone
namespace Thread

/-- The next statement of the loops of `thread_start`, while the mutex is locked. -/
inductive Loop where
  /-- `while (!world->universe->end_time)`. -/
  | outer
  /-- `!world->code`. -/
  | code
  /-- `!world->universe->end_time`, after `world->code` was `NULL`. -/
  | inner
  /-- `pthread_cond_wait`. -/
  | wait
  /-- `if (world->universe->end_time)`. -/
  | after
  deriving DecidableEq

/-- Where the main thread is. -/
inductive Main where
  | running
  /-- Before the `pthread_mutex_lock` of `pone_universe_wait_threads`. -/
  | waitCalled
  /-- `if (universe->worker_worlds)`. -/
  | testing
  /-- In `pone_count_alive_threads`, at a world, with the count so far. -/
  | counting (world : Option Nat) (alive : Nat)
  /-- Blocked in `pthread_cond_wait` on `worker_fin_cond`. -/
  | waiting
  | woken
  /-- `pone_universe_wait_threads` has returned. -/
  | returned
  /-- In `pone_universe_destroy`, before `end_time = true`. -/
  | destroying
  /-- Before `pone_world* world = universe->worker_worlds`. -/
  | ending
  /-- At the head of the loop over the worlds. -/
  | visiting (world : Option Nat)
  /-- Blocked in `pthread_join`. -/
  | joining (world : Nat)
  | exited
  deriving DecidableEq

/-- The main thread and the workers. -/
structure Program where
  /-- The callers are the main thread (`none`) and the jobs of the worlds. -/
  threads : State (Option Nat)
  /-- The next statement of a worker that is at `loopHead`. -/
  loop : Nat → Loop
  main : Main

/-- One step of a program. -/
inductive Action where
  | thread (e : Event (Option Nat))
  /-- The next statement of the loops of a worker. -/
  | loop (w : Nat)
  /-- The main thread calls `pone_universe_wait_threads`. -/
  | callWait
  /-- The main thread calls `pone_universe_destroy`. -/
  | callDestroy
  /-- The next statement of the main thread. -/
  | main
  /-- A spurious wake-up of the main thread. -/
  | spurious
  deriving DecidableEq

/-- `worker_worlds_mutex` is locked between two steps of the main thread. -/
def Main.HoldsWorlds : Main → Prop
  | .testing | .counting _ _ => True
  | _ => False

/-- The world that the main thread is at. -/
def Main.world : Main → Option Nat
  | .counting world _ | .visiting world => world
  | .joining w => some w
  | _ => none

/-- `pthread_cond_signal(&(universe->worker_fin_cond))`. -/
def Main.signal : Main → Main
  | .waiting => .woken
  | main => main

/-- The worker runs a job. -/
def Worker.Runs {κ : Type*} : Worker κ → Prop
  | .running _ => True
  | _ => False

instance : (main : Main) → Decidable main.HoldsWorlds
  | .testing | .counting _ _ => .isTrue trivial
  | .running | .waitCalled | .waiting | .woken | .returned | .destroying | .ending | .visiting _
  | .joining _ | .exited => .isFalse id

instance {κ : Type*} : (worker : Worker κ) → Decidable worker.Runs
  | .running _ => .isTrue trivial
  | .unborn | .starting | .loopHead | .waiting | .woken | .releasing | .finishing | .ended =>
      .isFalse id

namespace Program

/-- No worker yet. -/
def initial : Program where
  threads := Thread.initial
  loop := fun _ => .outer
  main := .running

/-- When a thread can take a step.  A job calls `pone_thread_start` while it runs and returns after
the call has; `worker_worlds_mutex` is free for a new world and for the signal of a worker. -/
def Enabled (p : Program) : Event (Option Nat) → Prop
  | .async none => p.main = .running
  | .async (some w) => (p.threads.worker w).Runs
  | .finish w => p.threads.caller (some w) = .idle
  | .create _ | .fin _ => ¬ p.main.HoldsWorlds
  -- these two are finer steps here
  | .check _ | .destroy => False
  | _ => True

instance (p : Program) : (e : Event (Option Nat)) → Decidable (p.Enabled e)
  | .async none => inferInstanceAs (Decidable (p.main = .running))
  | .async (some w) => inferInstanceAs (Decidable (p.threads.worker w).Runs)
  | .finish w => inferInstanceAs (Decidable (p.threads.caller (some w) = .idle))
  | .create _ | .fin _ => inferInstanceAs (Decidable (¬ p.main.HoldsWorlds))
  | .check _ | .destroy => .isFalse id
  | .read _ | .test _ | .trylock _ | .store _ | .signal _ | .unlock _ | .spawn _ | .acquire _
  | .spurious _ | .release _ => .isTrue trivial

/-- The statement of the loops that a worker comes to. -/
def enterLoop (p : Program) : Event (Option Nat) → Nat → Loop
  | .acquire w =>
      -- a woken worker is inside the inner loop
      Function.update p.loop w (if p.threads.worker w = .woken then .code else .outer)
  | .fin w => Function.update p.loop w .outer
  | _ => p.loop

/-- What the step of a thread means to the main thread. -/
def notify (main : Main) : Event (Option Nat) → Main
  | .fin _ => main.signal
  | _ => main

/-- Go on in the loops of `thread_start`. -/
def setLoop (p : Program) (w : Nat) (loop : Loop) : Program :=
  { p with loop := Function.update p.loop w loop }

/-- Leave the loops of `thread_start`, unlocking the mutex. -/
def leaveLoop (p : Program) (w : Nat) (worker : Worker (Option Nat × Nat)) : Program :=
  { p with threads := (p.threads.setMutex w none).setWorker w worker }

/-- The next statement of the loops of `thread_start`. -/
def loopStep (p : Program) (w : Nat) : Option Program :=
  match p.loop w with
  | .outer => some (if p.threads.endTime then p.leaveLoop w .ended else p.setLoop w .code)
  | .code => some (p.setLoop w (if p.threads.code w = none then .inner else .after))
  | .inner => some (p.setLoop w (if p.threads.endTime then .after else .wait))
  | .wait => some (p.leaveLoop w .waiting)
  | .after =>
      if p.threads.endTime then
        some (p.leaveLoop w .ended)
      else
        match p.threads.code w with
        | none => none
        | some job =>
            some { p with threads := { p.threads.setWorker w (.running job) with
              started := p.threads.started ++ [(job, w)] } }

/-- Move the main thread. -/
def setMain (p : Program) (main : Main) : Program := { p with main := main }

/-- The next statement of the main thread in `pone_universe_wait_threads`,
`pone_count_alive_threads` or `pone_universe_destroy`. -/
def mainStep (p : Program) : Option Program :=
  match p.main with
  | .running | .waiting | .exited => none
  | .waitCalled | .woken => some (p.setMain .testing)
  | .testing =>
      some (p.setMain (if p.threads.workerWorlds = none then .waiting
        else .counting p.threads.workerWorlds 0))
  | .counting (some w) alive =>
      some (p.setMain (.counting (p.threads.next w)
        (if p.threads.code w = none then alive else alive + 1)))
  | .counting none alive => some (p.setMain (if alive = 0 then .returned else .waiting))
  | .returned => some (p.setMain .running)
  | .destroying => some { p.setMain .ending with threads := { p.threads with endTime := true } }
  | .ending => some (p.setMain (.visiting p.threads.workerWorlds))
  | .visiting none => some (p.setMain .exited)
  | .visiting (some w) =>
      some { p.setMain (.joining w) with
        threads := p.threads.setWorker w (condSignal (p.threads.worker w)) }
  | .joining w =>
      if p.threads.worker w = .ended then some (p.setMain (.visiting (p.threads.next w))) else none

/-- The main thread calls a function of `universe.c`. -/
def callMain (p : Program) (main : Main) : Option Program :=
  if p.main = .running ∧ p.threads.caller none = .idle then some (p.setMain main) else none

/-- One step. -/
def step (p : Program) : Action → Option Program
  | .thread e =>
      if p.Enabled e then
        (Thread.step p.threads e).map fun threads =>
          { threads := threads, loop := p.enterLoop e, main := notify p.main e }
      else
        none
  | .loop w => if p.threads.worker w = .loopHead then p.loopStep w else none
  | .callWait => p.callMain .waitCalled
  | .callDestroy => p.callMain .destroying
  | .main => p.mainStep
  | .spurious => if p.main = .waiting then some (p.setMain .woken) else none

/-- What the step of a thread does to the program. -/
theorem step_thread {p p' : Program} {e : Event (Option Nat)} (taken : p.step (.thread e) = some p') :
    p.Enabled e ∧ ∃ threads, Thread.step p.threads e = some threads ∧
      p' = { threads := threads, loop := p.enterLoop e, main := notify p.main e } := by
  simp only [step] at taken
  split at taken
  · rename_i enabled
    obtain ⟨threads, thread_taken, rfl⟩ := Option.map_eq_some_iff.mp taken
    exact ⟨enabled, threads, thread_taken, rfl⟩
  · cases taken

/-- The signal of a worker only wakes the main thread. -/
theorem notify_eq {main target : Main} {e : Event (Option Nat)} (notified : notify main e = target)
    (asleep : target ≠ .woken) : main = target := by
  cases e with
  | fin w =>
      cases main with
      | waiting => exact absurd notified.symm asleep
      | running | waitCalled | testing | counting | woken | returned | destroying | ending
      | visiting | joining | exited => exact notified
  | async | read | test | trylock | store | signal | unlock | create | spawn | acquire | check
  | spurious | finish | release | destroy => exact notified

end Program

end Thread
end Pone
