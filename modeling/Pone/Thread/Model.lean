import Mathlib.Logic.Function.Basic
import Pone.Execution

/-!
# Starting jobs on worker threads

`pone_thread_start` and the worker loop `thread_start` of `thread.c`.  Every access to `world->code`
and every operation on `world->mutex` is a step of its own; what a worker does from one
`pthread_cond_wait` to the next test of `world->code` happens under the mutex and is one step.  A
job is a call of `pone_thread_start`: the thread that calls, and the number of the call.
-/

namespace Pone
namespace Thread

/-- Where a thread is in `pone_thread_start`. -/
inductive Caller where
  | idle
  | called
  /-- At the head of the loop over `universe->worker_worlds`. -/
  | scanning (world : Option Nat)
  /-- Has seen `world->code` to be `NULL`, before `pthread_mutex_trylock`. -/
  | tested (world : Nat)
  | locked (world : Nat)
  /-- Has set `world->code`, before `pthread_cond_signal`. -/
  | stored (world : Nat)
  /-- Before `pthread_mutex_unlock`. -/
  | signalled (world : Nat)
  /-- Has published a new world, before `pthread_create`. -/
  | spawning (world : Nat)
  deriving DecidableEq

/-- Where the thread of a worker world is. -/
inductive Worker (κ : Type*) where
  /-- Before `pthread_create`. -/
  | unborn
  /-- Before the `pthread_mutex_lock` of `thread_start`. -/
  | starting
  | loopHead
  | waiting
  /-- Woken, but the mutex is not acquired again yet. -/
  | woken
  | running (job : κ)
  /-- The job has returned, before `pone_world_release`. -/
  | releasing
  /-- Before the signal on `worker_fin_cond`. -/
  | finishing
  | ended
  deriving DecidableEq

/-- Who has locked `world->mutex`. -/
inductive Holder (τ : Type*) where
  | worker
  | caller (t : τ)
  deriving DecidableEq

/-- The worker worlds, by address, and the threads that call `pone_thread_start`. -/
structure State (τ : Type*) where
  code : Nat → Option (τ × Nat)
  mutex : Nat → Option (Holder τ)
  worker : Nat → Worker (τ × Nat)
  next : Nat → Option Nat
  workerWorlds : Option Nat
  /-- The addresses below are in use. -/
  count : Nat
  endTime : Bool
  caller : τ → Caller
  /-- How many calls each thread has begun. -/
  calls : τ → Nat
  /-- The jobs stored in `world->code`, each with its world, in order. -/
  assigned : List ((τ × Nat) × Nat)
  /-- The jobs that workers have begun to run, in order. -/
  started : List ((τ × Nat) × Nat)

/-- One step of a caller `t` or of the thread of a world `w`. -/
inductive Event (τ : Type*) where
  | async (t : τ)
  /-- `pone_world* world = universe->worker_worlds`. -/
  | read (t : τ)
  /-- `if (!world->code)`, outside the mutex. -/
  | test (t : τ)
  | trylock (t : τ)
  /-- `world->code = copy_code(world, code)`. -/
  | store (t : τ)
  | signal (t : τ)
  | unlock (t : τ)
  /-- The new world, from the lock of `worker_worlds_mutex` to its unlock. -/
  | create (t : τ)
  /-- `pthread_create`. -/
  | spawn (t : τ)
  /-- The thread of the world acquires its mutex. -/
  | acquire (w : Nat)
  /-- The tests of `end_time` and `world->code`, up to the wait or the call of the code. -/
  | check (w : Nat)
  /-- A spurious wake-up. -/
  | spurious (w : Nat)
  /-- The code returns. -/
  | finish (w : Nat)
  /-- `pone_world_release`. -/
  | release (w : Nat)
  /-- The signal on `worker_fin_cond`. -/
  | fin (w : Nat)
  /-- `universe->end_time = true`. -/
  | destroy
  deriving DecidableEq

/-- No worker yet, and no call. -/
def initial {τ : Type*} : State τ where
  code := fun _ => none
  mutex := fun _ => none
  worker := fun _ => .unborn
  next := fun _ => none
  workerWorlds := none
  count := 0
  endTime := false
  caller := fun _ => .idle
  calls := fun _ => 0
  assigned := []
  started := []

/-- `pthread_cond_signal(&(world->cond))`: only the thread of the world waits there. -/
def condSignal {κ : Type*} : Worker κ → Worker κ
  | .waiting => .woken
  | worker => worker

variable {τ : Type*}

/-- The job that a thread starts with its current call. -/
def State.job (s : State τ) (t : τ) : τ × Nat := (t, s.calls t)

/-- Write `world->code`. -/
def State.setCode (s : State τ) (w : Nat) (code : Option (τ × Nat)) : State τ :=
  { s with code := Function.update s.code w code }

/-- Lock or unlock the mutex of a world. -/
def State.setMutex (s : State τ) (w : Nat) (holder : Option (Holder τ)) : State τ :=
  { s with mutex := Function.update s.mutex w holder }

/-- Move the thread of a world. -/
def State.setWorker (s : State τ) (w : Nat) (worker : Worker (τ × Nat)) : State τ :=
  { s with worker := Function.update s.worker w worker }

/-- Record that a thread has stored its job in a world. -/
def State.assign (s : State τ) (t : τ) (w : Nat) : State τ :=
  { s with assigned := s.assigned ++ [(s.job t, w)] }

/-- Take the address of a new world and put it in front of the list. -/
def State.newWorld (s : State τ) : State τ :=
  { s with
    next := Function.update s.next s.count s.workerWorlds
    workerWorlds := some s.count
    count := s.count + 1 }

/-- The head of the loops of `thread_start`. -/
def check (s : State τ) (w : Nat) : State τ :=
  if s.endTime then
    (s.setMutex w none).setWorker w .ended
  else
    match s.code w with
    | none => (s.setMutex w none).setWorker w .waiting
    | some job => { s.setWorker w (.running job) with started := s.started ++ [(job, w)] }

variable [DecidableEq τ]

/-- Move a caller. -/
def State.setCaller (s : State τ) (t : τ) (caller : Caller) : State τ :=
  { s with caller := Function.update s.caller t caller }

/-- Begin the next call of a thread. -/
def State.nextCall (s : State τ) (t : τ) : State τ :=
  { s with calls := Function.update s.calls t (s.calls t + 1) }

/-- `pthread_mutex_trylock`, and the next world of the list where it fails. -/
def trylock (s : State τ) (t : τ) (w : Nat) : State τ :=
  match s.mutex w with
  | none => (s.setMutex w (some (.caller t))).setCaller t (.locked w)
  | some _ => s.setCaller t (.scanning (s.next w))

/-- One step. -/
def step (s : State τ) : Event τ → Option (State τ)
  | .async t =>
      match s.caller t with
      | .idle => some ((s.nextCall t).setCaller t .called)
      | _ => none
  | .read t =>
      match s.caller t with
      | .called => some (s.setCaller t (.scanning s.workerWorlds))
      | _ => none
  | .test t =>
      match s.caller t with
      | .scanning (some w) =>
          match s.code w with
          | none => some (s.setCaller t (.tested w))
          | some _ => some (s.setCaller t (.scanning (s.next w)))
      | _ => none
  | .trylock t =>
      match s.caller t with
      | .tested w => some (trylock s t w)
      | _ => none
  | .store t =>
      match s.caller t with
      | .locked w => some (((s.setCode w (some (s.job t))).assign t w).setCaller t (.stored w))
      | _ => none
  | .signal t =>
      match s.caller t with
      | .stored w => some ((s.setWorker w (condSignal (s.worker w))).setCaller t (.signalled w))
      | _ => none
  | .unlock t =>
      match s.caller t with
      | .signalled w => some ((s.setMutex w none).setCaller t .idle)
      | _ => none
  | .create t =>
      match s.caller t with
      | .scanning none =>
          some (((s.newWorld.setCode s.count (some (s.job t))).assign t s.count).setCaller t
            (.spawning s.count))
      | _ => none
  | .spawn t =>
      match s.caller t with
      | .spawning w => some ((s.setWorker w .starting).setCaller t .idle)
      | _ => none
  | .acquire w =>
      match s.worker w, s.mutex w with
      | .starting, none | .woken, none =>
          some ((s.setMutex w (some .worker)).setWorker w .loopHead)
      | _, _ => none
  | .check w =>
      match s.worker w with
      | .loopHead => some (check s w)
      | _ => none
  | .spurious w =>
      match s.worker w with
      | .waiting => some (s.setWorker w .woken)
      | _ => none
  | .finish w =>
      match s.worker w with
      | .running _ => some (s.setWorker w .releasing)
      | _ => none
  | .release w =>
      match s.worker w with
      | .releasing => some ((s.setCode w none).setWorker w .finishing)
      | _ => none
  | .fin w =>
      match s.worker w with
      | .finishing => some (s.setWorker w .loopHead)
      | _ => none
  | .destroy => some { s with endTime := true }

end Thread
end Pone
