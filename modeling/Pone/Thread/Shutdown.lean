import Pone.Thread.Program

/-!
# Shutting the workers down

`pone_universe_destroy` sets `end_time` and signals each worker without its mutex.  A worker that
has tested `end_time` and has not reached `pthread_cond_wait` yet does not hear the signal, and the
destroyer then waits for a thread that nobody wakes.
-/

namespace Pone
namespace Thread
namespace Program

/-- The destroyer is blocked in `pthread_join` on a worker that waits on its condition variable,
and no caller is about to signal that worker. -/
def Stuck (p : Program) : Prop :=
  ∃ w, p.main = .joining w ∧ p.threads.worker w = .waiting ∧ ∀ t, p.threads.caller t ≠ .stored w

/-- The worker has seen `end_time` to be false and is about to wait. -/
def AboutToWait (p : Program) (w : Nat) : Prop :=
  p.threads.worker w = .loopHead ∧ p.loop w = .wait

instance (p : Program) (w : Nat) : Decidable (AboutToWait p w) :=
  inferInstanceAs (Decidable (_ ∧ _))

/-- The destroyer signals no worker that is about to wait. -/
def SignalHeard (p : Program) : Action → Prop
  | .main => ∀ w, p.main = .visiting (some w) → ¬ AboutToWait p w
  | _ => True

/-- The main thread is in `pone_universe_destroy`, after `end_time = true`. -/
def AfterEnd : Main → Prop
  | .ending | .visiting _ | .joining _ | .exited => True
  | _ => False

/-- The worker neither waits nor is about to. -/
def Awake (p : Program) (w : Nat) : Prop := p.threads.worker w ≠ .waiting ∧ ¬ AboutToWait p w

/-- Who is joined is awake, and does not fall asleep any more: it will see `end_time`. -/
structure Ending (p : Program) : Prop where
  endTime : AfterEnd p.main → p.threads.endTime = true
  awake : ∀ w, p.main = .joining w → Awake p w

theorem initial_ending : Ending initial where
  endTime := nofun
  awake := nofun

theorem Ending.outside {p : Program} (outside : ¬ AfterEnd p.main) : Ending p where
  endTime := fun after => absurd after outside
  awake := fun _ at_main => absurd (at_main ▸ trivial) outside

/-- `end_time` is never cleared. -/
theorem endTime_step {s s' : State (Option Nat)} {e : Event (Option Nat)} (ended : s.endTime = true)
    (taken : Thread.step s e = some s') : s'.endTime = true := by
  cases e with
  | test t =>
      simp only [Thread.step] at taken
      split at taken
      · split at taken <;> cases taken <;> exact ended
      · cases taken
  | trylock t =>
      simp only [Thread.step] at taken
      split at taken <;> cases taken
      unfold trylock
      split <;> exact ended
  | check w =>
      simp only [Thread.step] at taken
      split at taken <;> cases taken
      rw [check, if_pos ended]
      exact ended
  | async t | read t | store t | signal t | unlock t | create t | spawn t | acquire w | spurious w
  | finish w | release w | fin w =>
      simp only [Thread.step] at taken
      split at taken <;> cases taken <;> exact ended
  | destroy =>
      cases taken
      rfl

/-- A thread that moves elsewhere than to its wait stays awake. -/
theorem Awake.move {p : Program} {w : Nat} (awake : Awake p w) {v : Nat}
    {worker : Worker (Option Nat × Nat)} {loop : Nat → Loop} {main : Main}
    {threads : State (Option Nat)} (workers : threads.worker = Function.update p.threads.worker v worker)
    (elsewhere : worker ≠ .waiting) (others : ∀ u, u ≠ v → loop u = p.loop u)
    (enters : w = v → worker = .loopHead → loop v ≠ .wait) :
    Awake { threads := threads, loop := loop, main := main } w := by
  by_cases same : w = v
  · subst same
    simp only [Awake, AboutToWait, workers, Function.update_self]
    exact ⟨elsewhere, fun ⟨at_loop, at_wait⟩ => enters rfl at_loop at_wait⟩
  · simp only [Awake, AboutToWait, workers, Function.update_of_ne same, others w same]
    exact awake

/-- A signal wakes its worker, unless that is about to wait. -/
theorem awake_signalled {p : Program} {w : Nat} {main : Main} {threads : State (Option Nat)}
    (heard : ¬ AboutToWait p w)
    (workers : threads.worker = Function.update p.threads.worker w (condSignal (p.threads.worker w))) :
    Awake { threads := threads, loop := p.loop, main := main } w := by
  simp only [Awake, AboutToWait, workers, Function.update_self]
  cases at_w : p.threads.worker w with
  | loopHead => exact ⟨nofun, fun about => heard ⟨at_w, about.2⟩⟩
  | unborn | starting | waiting | woken | running | releasing | finishing | ended =>
      exact ⟨nofun, nofun⟩

theorem Awake.signal {p : Program} {w v : Nat} {main : Main} {threads : State (Option Nat)}
    (awake : Awake p w)
    (workers : threads.worker = Function.update p.threads.worker v (condSignal (p.threads.worker v))) :
    Awake { threads := threads, loop := p.loop, main := main } w := by
  by_cases same : w = v
  · subst same
    exact awake_signalled awake.2 workers
  · simp only [Awake, AboutToWait, workers, Function.update_of_ne same]
    exact awake

theorem awake_thread {p p' : Program} {e : Event (Option Nat)} {w : Nat} (awake : Awake p w)
    (taken : p.step (.thread e) = some p') : Awake p' w := by
  obtain ⟨enabled, threads, thread_taken, rfl⟩ := step_thread taken
  cases e with
  | acquire v =>
      simp only [Thread.step] at thread_taken
      have entered (at_v : Loop) (inside : at_v ≠ .wait) :
          Awake { threads := (p.threads.setMutex v (some .worker)).setWorker v .loopHead
                  loop := Function.update p.loop v at_v, main := p.main } w :=
        awake.move rfl (by simp) (fun u different => Function.update_of_ne different ..) fun _ _ => by
          rwa [Function.update_self]
      split at thread_taken <;> cases thread_taken
      · exact entered _ (by split <;> simp)
      · exact entered _ (by split <;> simp)
  | fin v =>
      simp only [Thread.step] at thread_taken
      split at thread_taken <;> cases thread_taken
      refine awake.move rfl (by simp) (fun u different => Function.update_of_ne different ..) fun _ _ => ?_
      simp [enterLoop]
  | signal t =>
      simp only [Thread.step] at thread_taken
      split at thread_taken <;> cases thread_taken
      exact awake.signal rfl
  | spawn t | spurious v | finish v | release v =>
      simp only [Thread.step] at thread_taken
      split at thread_taken <;> cases thread_taken
      exact awake.move rfl (by simp) (fun _ _ => rfl) fun _ => by simp
  | test t =>
      simp only [Thread.step] at thread_taken
      split at thread_taken
      · split at thread_taken <;> cases thread_taken <;> exact awake
      · cases thread_taken
  | trylock t =>
      simp only [Thread.step] at thread_taken
      split at thread_taken <;> cases thread_taken
      unfold trylock
      split <;> exact awake
  | async t | read t | store t | unlock t | create t =>
      simp only [Thread.step] at thread_taken
      split at thread_taken <;> cases thread_taken
      exact awake
  | check v | destroy => exact absurd enabled not_false

theorem awake_loop {p p' : Program} {v w : Nat} (ended : p.threads.endTime = true)
    (awake : Awake p w) (taken : p.step (.loop v) = some p') : Awake p' w := by
  simp only [step] at taken
  split at taken
  · rename_i at_loop
    have left {worker : Worker (Option Nat × Nat)} (elsewhere : worker ≠ .waiting)
        (outside : worker ≠ .loopHead) : Awake (p.leaveLoop v worker) w :=
      awake.move rfl elsewhere (fun _ _ => rfl) fun _ inside => absurd inside outside
    have moved {loop : Loop} (inside : loop ≠ .wait) : Awake (p.setLoop v loop) w := by
      refine ⟨awake.1, ?_⟩
      rintro ⟨at_head, at_wait⟩
      by_cases same : w = v
      · subst same
        exact inside ((Function.update_self ..).symm.trans at_wait)
      · exact awake.2 ⟨at_head, (Function.update_of_ne same ..).symm.trans at_wait⟩
    unfold loopStep at taken
    split at taken
    · cases taken
      rw [if_pos ended]
      exact left (by simp) (by simp)
    · cases taken
      exact moved (by split <;> simp)
    · cases taken
      rw [if_pos ended]
      exact moved (by simp)
    · rename_i at_wait
      cases taken
      by_cases same : w = v
      · subst same
        exact absurd ⟨at_loop, at_wait⟩ awake.2
      · simp only [Awake, AboutToWait, leaveLoop, State.setWorker, Function.update_of_ne same]
        exact awake
    · rw [if_pos ended] at taken
      cases taken
      exact left (by simp) (by simp)
  · cases taken

theorem loop_frame {p p' : Program} {w : Nat} (taken : p.step (.loop w) = some p') :
    p'.main = p.main ∧ p'.threads.endTime = p.threads.endTime := by
  simp only [step] at taken
  split at taken
  · unfold loopStep at taken
    split at taken
    · cases taken
      split <;> exact ⟨rfl, rfl⟩
    · cases taken
      exact ⟨rfl, rfl⟩
    · cases taken
      exact ⟨rfl, rfl⟩
    · cases taken
      exact ⟨rfl, rfl⟩
    · split at taken
      · cases taken
        exact ⟨rfl, rfl⟩
      · split at taken <;> cases taken
        exact ⟨rfl, rfl⟩
  · cases taken

theorem ending_main {p p' : Program} (ending : Ending p) (heard : SignalHeard p .main)
    (taken : p.step .main = some p') : Ending p' := by
  -- the main thread goes on inside the shutdown, or outside it
  have inside {main : Main} (after : AfterEnd p.main) (free : ∀ w, main ≠ .joining w) :
      Ending (p.setMain main) :=
    ⟨fun _ => ending.endTime after, fun w at_main => absurd at_main (free w)⟩
  simp only [step, mainStep] at taken
  split at taken <;> rename_i at_main
  · cases taken
  · cases taken
  · cases taken
  · cases taken
    exact .outside not_false
  · cases taken
    exact .outside not_false
  · cases taken
    split <;> exact .outside not_false
  · cases taken
    exact .outside not_false
  · cases taken
    split <;> exact .outside not_false
  · cases taken
    exact .outside not_false
  · cases taken
    exact ⟨fun _ => rfl, fun w at_main => by cases at_main⟩
  · cases taken
    exact inside (by rw [at_main]; trivial) (by simp)
  · cases taken
    exact inside (by rw [at_main]; trivial) (by simp)
  · rename_i v
    cases taken
    refine ⟨fun _ => ending.endTime (by rw [at_main]; trivial), ?_⟩
    rintro w ⟨⟩
    exact awake_signalled (heard v at_main) rfl
  · split at taken <;> cases taken
    exact inside (by rw [at_main]; trivial) (by simp)

theorem ending_step {p p' : Program} {a : Action} (ending : Ending p) (heard : SignalHeard p a)
    (taken : p.step a = some p') : Ending p' := by
  cases a with
  | thread e =>
      have kept (w : Nat) (awake : Awake p w) : Awake p' w := awake_thread awake taken
      obtain ⟨-, threads, thread_taken, rfl⟩ := step_thread taken
      refine ⟨fun after => ?_, fun w at_main => ?_⟩
      · have before : p.main = notify p.main e := notify_eq rfl fun woken => by
          rw [woken] at after
          exact after
        exact endTime_step (ending.endTime (by rwa [before])) thread_taken
      · exact kept w (ending.awake w (notify_eq at_main (by simp)))
  | loop v =>
      obtain ⟨main, endTime⟩ := loop_frame taken
      refine ⟨fun after => ?_, fun w at_main => ?_⟩
      · rw [main] at after
        rw [endTime]
        exact ending.endTime after
      · rw [main] at at_main
        have ended := ending.endTime (by rw [at_main]; trivial)
        exact awake_loop ended (ending.awake w at_main) taken
  | main => exact ending_main ending heard taken
  | callWait | callDestroy | spurious =>
      simp only [step, callMain] at taken
      split at taken <;> cases taken
      exact .outside not_false

theorem Ending.not_stuck {p : Program} (ending : Ending p) : ¬ Stuck p := by
  rintro ⟨w, joining, waiting, -⟩
  exact (ending.awake w joining).1 waiting

/-- In every interleaving of the destroyer with the workers and the callers in which the destroyer
signals no worker that is about to wait, it is never blocked on a worker that nobody wakes. -/
theorem shutdown_ends (events : List Action)
    (heard : Execution.Along step SignalHeard initial events) :
    Execution.Always step (fun p => ¬ Stuck p) initial events :=
  .of_invariant ending_step Ending.not_stuck initial_ending heard

instance (p : Program) : (a : Action) → Decidable (SignalHeard p a)
  | .main =>
      match at_main : p.main with
      | .visiting (some v) => decidable_of_iff (¬ AboutToWait p v) (by simp [SignalHeard, at_main])
      | .visiting none | .running | .waitCalled | .testing | .counting _ _ | .waiting | .woken
      | .returned | .destroying | .ending | .joining _ | .exited =>
          .isTrue (by simp [SignalHeard, at_main])
  | .thread _ | .loop _ | .callWait | .callDestroy | .spurious => .isTrue trivial

/-- The main thread starts a job and waits for it; the worker comes back to its loop. -/
def waitThenEnd : List Action :=
  [.thread (.async none), .thread (.read none), .thread (.create none), .thread (.spawn none),
    .thread (.acquire 0), .loop 0, .loop 0, .loop 0, .thread (.finish 0), .thread (.release 0),
    .callWait, .main, .main, .main, .main, .main, .thread (.fin 0), .loop 0, .loop 0, .loop 0]

/-- The worker waits before the destroyer begins. -/
def promptWorker : List Action :=
  waitThenEnd ++ [.loop 0, .callDestroy, .main, .main, .main, .thread (.acquire 0), .loop 0,
    .loop 0, .loop 0, .main, .main]

theorem shutdown_ends_prompt : Execution.Always step (fun p => ¬ Stuck p) initial promptWorker :=
  shutdown_ends promptWorker (by decide)

/-- The destroyer sets `end_time` and signals the worker between its test of `end_time` and its
wait. -/
def lateWorker : List Action :=
  waitThenEnd ++ [.callDestroy, .main, .main, .main, .loop 0]

/-- The destroyer waits for a worker that waits for it. -/
theorem shutdown_sticks : ∃ p, Execution.run step initial lateWorker = some p ∧ Stuck p := by
  refine ⟨_, rfl, 0, rfl, rfl, ?_⟩
  rintro (_ | w) <;> nofun

/-- The condition leaves out nothing else: a worker that does not hear the signal only has to
take its next step. -/
theorem unheard_signal_sticks {p p' : Program} {a : Action} (deaf : ¬ SignalHeard p a)
    (taken : p.step a = some p')
    (unstored : ∀ t w, p.main = .visiting (some w) → p.threads.caller t ≠ .stored w) :
    ∃ w p'', p'.step (.loop w) = some p'' ∧ Stuck p'' := by
  unfold SignalHeard at deaf
  split at deaf
  · simp only [not_forall, not_not] at deaf
    obtain ⟨w, at_main, at_loop, at_wait⟩ := deaf
    simp only [step, mainStep, at_main, Option.some.injEq] at taken
    have at_loop' : p'.threads.worker w = .loopHead := by
      rw [← taken]
      simp [State.setWorker, at_loop, condSignal]
    have at_wait' : p'.loop w = .wait := by rwa [← taken]
    have next : p'.step (.loop w) = some (p'.leaveLoop w .waiting) := by
      simp [step, at_loop', loopStep, at_wait']
    refine ⟨w, p'.leaveLoop w .waiting, next, w, ?_, Function.update_self .., fun t => ?_⟩
    · rw [← taken]
      rfl
    · rw [← taken]
      exact unstored t w at_main
  · exact absurd trivial deaf

end Program
end Thread
end Pone
