import Pone.Mailbox
import Pone.Thread.Outline

/-!
# Every job runs exactly once

The worker worlds are one-place mailboxes, provided that a caller whose `pthread_mutex_trylock`
succeeds finds `world->code` still `NULL`.  `pone_thread_start` tests it before the lock only, and
the job of a faster caller is overwritten.
-/

namespace Pone
namespace Thread

variable {τ : Type*}

/-- The worker has begun the job in its slot. -/
def Busy {κ : Type*} : Worker κ → Prop
  | .running _ | .releasing => True
  | _ => False

/-- The worker worlds as mailboxes. -/
def State.mailbox (s : State τ) : Mailbox.State Nat (τ × Nat) where
  slot := s.code
  busy := fun w => Busy (s.worker w)
  assigned := s.assigned
  started := s.started

theorem initial_invariant : Mailbox.Invariant (initial : State τ).mailbox where
  kept := nofun
  once := List.nodup_nil
  known := nofun
  assigned_once := List.nodup_nil
  slot_assigned := nofun
  slot_waits := nofun
  busy_begun := nofun

theorem busy_setWorker {s : State τ} {w : Nat} {worker : Worker (τ × Nat)}
    (same : Busy worker ↔ Busy (s.worker w)) :
    (s.setWorker w worker).mailbox.busy = s.mailbox.busy := by
  funext v
  by_cases at_w : v = w
  · subst at_w
    simp [State.mailbox, State.setWorker, same]
  · simp [State.mailbox, State.setWorker, at_w]

theorem busy_condSignal {κ : Type*} (worker : Worker κ) :
    Busy (condSignal worker) ↔ Busy worker := by
  cases worker <;> rfl

/-- A worker whose mutex a caller holds is not busy. -/
theorem Coherent.not_busy {s : State τ} (coherent : Coherent s) {w : Nat}
    (free : s.mutex w ≠ some .worker) : ¬ Busy (s.worker w) := by
  intro busy
  have ok := coherent.workers w
  cases at_w : s.worker w with
  | running | releasing =>
      rw [at_w] at ok
      exact free ok
  | unborn | starting | loopHead | waiting | woken | finishing | ended =>
      rw [at_w] at busy
      exact busy

/-- A step that leaves the slots, the busy workers and the histories alone. -/
private theorem mailbox_stutter {s s' : State τ} (code : s'.code = s.code)
    (busy : s'.mailbox.busy = s.mailbox.busy) (assigned : s'.assigned = s.assigned)
    (started : s'.started = s.started) : Mailbox.Step s.mailbox s'.mailbox :=
  .stutter code busy assigned started

private theorem check_mailbox {s : State τ} {w : Nat} (before : s.worker w = .loopHead) :
    Mailbox.Step s.mailbox (check s w).mailbox := by
  have idle : ¬ Busy (s.worker w) := by
    rw [before]
    exact not_false
  unfold check
  split
  · have same : Busy (.ended : Worker (τ × Nat)) ↔ Busy (s.worker w) := by
      rw [before]
      rfl
    exact mailbox_stutter rfl (busy_setWorker same) rfl rfl
  · split
    · have same : Busy (.waiting : Worker (τ × Nat)) ↔ Busy (s.worker w) := by
        rw [before]
        rfl
      exact mailbox_stutter rfl (busy_setWorker same) rfl rfl
    · rename_i job full
      refine .start job w full idle rfl ?_ rfl rfl
      intro v
      by_cases same : v = w
      · subst same
        simp [State.mailbox, State.setWorker, Busy]
      · simp [State.mailbox, State.setWorker, same]

variable [DecidableEq τ]

/-- A step of the threads is a step of the mailboxes. -/
theorem mailbox_step {s s' : State τ} {e : Event τ} (coherent : Coherent s)
    (taken : step s e = some s') : Mailbox.Step s.mailbox s'.mailbox := by
  cases e with
  | store t =>
      simp only [step] at taken
      split at taken
      · rename_i w before
        obtain rfl := Option.some.inj taken
        have ok := coherent.callers t
        rw [before] at ok
        obtain ⟨fresh, -, locked, empty⟩ := ok
        have idle : ¬ Busy (s.worker w) := coherent.not_busy (by simp [locked])
        exact .assign (s.job t) w fresh empty idle rfl rfl rfl rfl
      · cases taken
  | create t =>
      simp only [step] at taken
      split at taken
      · rename_i before
        obtain rfl := Option.some.inj taken
        have ok := coherent.callers t
        rw [before] at ok
        obtain ⟨-, free, empty⟩ := coherent.unused s.count (Nat.le_refl _)
        have idle : ¬ Busy (s.worker s.count) := coherent.not_busy (by simp [free])
        exact .assign (s.job t) s.count ok.1 empty idle rfl rfl rfl rfl
      · cases taken
  | check w =>
      simp only [step] at taken
      split at taken
      · rename_i before
        obtain rfl := Option.some.inj taken
        exact check_mailbox before
      · cases taken
  | release w =>
      simp only [step] at taken
      split at taken
      · rename_i before
        obtain rfl := Option.some.inj taken
        refine .clear w (by simp [State.mailbox, before, Busy]) rfl ?_ rfl rfl
        intro v
        by_cases same : v = w
        · subst same
          simp [State.mailbox, State.setWorker, Busy]
        · simp [State.mailbox, State.setWorker, State.setCode, same]
      · cases taken
  | test t =>
      simp only [step] at taken
      split at taken
      · split at taken <;> obtain rfl := Option.some.inj taken <;>
          exact mailbox_stutter rfl rfl rfl rfl
      · cases taken
  | trylock t =>
      simp only [step] at taken
      split at taken
      · obtain rfl := Option.some.inj taken
        unfold trylock
        split <;> exact mailbox_stutter rfl rfl rfl rfl
      · cases taken
  | async t | read t | unlock t =>
      simp only [step] at taken
      split at taken
      · obtain rfl := Option.some.inj taken
        exact mailbox_stutter rfl rfl rfl rfl
      · cases taken
  | signal t =>
      simp only [step] at taken
      split at taken
      · rename_i w before
        obtain rfl := Option.some.inj taken
        exact mailbox_stutter rfl (busy_setWorker (busy_condSignal _)) rfl rfl
      · cases taken
  | spawn t =>
      simp only [step] at taken
      split at taken
      · rename_i w before
        obtain rfl := Option.some.inj taken
        have ok := coherent.callers t
        rw [before] at ok
        exact mailbox_stutter rfl (busy_setWorker (by rw [ok.2.1]; rfl)) rfl rfl
      · cases taken
  | acquire w =>
      simp only [step] at taken
      split at taken
      · rename_i before free
        obtain rfl := Option.some.inj taken
        have same : Busy (.loopHead : Worker (τ × Nat)) ↔ Busy (s.worker w) := by
          rw [before]
          rfl
        exact mailbox_stutter rfl (busy_setWorker same) rfl rfl
      · rename_i before free
        obtain rfl := Option.some.inj taken
        have same : Busy (.loopHead : Worker (τ × Nat)) ↔ Busy (s.worker w) := by
          rw [before]
          rfl
        exact mailbox_stutter rfl (busy_setWorker same) rfl rfl
      · cases taken
  | spurious w | finish w | fin w =>
      simp only [step] at taken
      split at taken
      · rename_i before
        obtain rfl := Option.some.inj taken
        exact mailbox_stutter rfl (busy_setWorker (by rw [before]; rfl)) rfl rfl
      · cases taken
  | destroy =>
      obtain rfl := Option.some.inj taken
      exact mailbox_stutter rfl rfl rfl rfl

/-- No accepted job is lost before a worker has begun it, none is begun twice, a worker begins only
jobs that were stored in its world, and it does not sleep over a stored job: whoever stored the job
is about to wake it. -/
structure JobsKept (s : State τ) : Prop where
  exactly_once : Mailbox.ExactlyOnce s.mailbox
  awake : ∀ w, s.code w ≠ none → s.worker w = .waiting → ∃ t, s.caller t = .stored w

/-- The invariant of the runs in which no caller locks a world that has got a job. -/
structure Sound (s : State τ) : Prop where
  coherent : Coherent s
  mailbox : Mailbox.Invariant s.mailbox

omit [DecidableEq τ] in
theorem initial_sound : Sound (initial : State τ) := ⟨initial_coherent, initial_invariant⟩

theorem sound_step {s s' : State τ} {e : Event τ} (sound : Sound s) (finds : FindsNull s e)
    (taken : step s e = some s') : Sound s' where
  coherent := coherent_step sound.coherent finds taken
  mailbox := Mailbox.invariant_step sound.mailbox (mailbox_step sound.coherent taken)

omit [DecidableEq τ] in
theorem sound_jobsKept {s : State τ} (sound : Sound s) : JobsKept s where
  exactly_once := sound.mailbox.toExactlyOnce
  awake := fun w full waiting => by
    have ok := sound.coherent.workers w
    rw [waiting] at ok
    exact ok full

/-- In every run in which each successful `pthread_mutex_trylock` finds `world->code` to be `NULL`,
every job is begun exactly once. -/
theorem jobs_kept (events : List (Event τ))
    (finds : Execution.Along step FindsNull (initial : State τ) events) :
    Execution.Always step JobsKept (initial : State τ) events :=
  .of_invariant sound_step sound_jobsKept initial_sound finds

instance (s : State τ) : (e : Event τ) → Decidable (FindsNull s e)
  | .trylock t =>
      match at_test : s.caller t with
      | .tested w => decidable_of_iff (s.mutex w = none → s.code w = none) (by
          simp [FindsNull, at_test])
      | .idle | .called | .scanning _ | .locked _ | .stored _ | .signalled _ | .spawning _ =>
          .isTrue (by simp [FindsNull, at_test])
  | .async _ | .read _ | .test _ | .store _ | .signal _ | .unlock _ | .create _ | .spawn _
  | .acquire _ | .check _ | .spurious _ | .finish _ | .release _ | .fin _ | .destroy =>
      .isTrue trivial

/-- A thread starts a first job, whose worker then waits for the next one. -/
def firstJob : List (Event (Fin 2)) :=
  [.async 0, .read 0, .create 0, .spawn 0, .acquire 0, .check 0, .finish 0, .release 0, .fin 0,
    .check 0]

/-- Another thread gives that worker a second job. -/
def reuse : List (Event (Fin 2)) :=
  firstJob ++ [.async 1, .read 1, .test 1, .trylock 1, .store 1, .signal 1, .unlock 1, .acquire 0,
    .check 0]

theorem jobs_kept_reuse : Execution.Always step JobsKept initial reuse :=
  jobs_kept reuse (by decide)

/-- Two threads see the idle worker; the second one locks before the worker has woken. -/
def overwrite : List (Event (Fin 2)) :=
  firstJob ++ [.async 0, .read 0, .test 0, .async 1, .read 1, .test 1, .trylock 0, .store 0,
    .signal 0, .unlock 0, .trylock 1, .store 1]

/-- The second job of thread 0 is accepted and then overwritten before a worker begins it. -/
theorem job_lost :
    ∃ s, Execution.run step initial overwrite = some s ∧ s.caller 0 = .idle ∧
      ((0, 2), 0) ∈ s.assigned ∧ ((0, 2), 0) ∉ s.started ∧ s.code 0 = some (1, 1) ∧
      ¬ JobsKept s := by
  refine ⟨_, rfl, rfl, by decide, by decide, rfl, ?_⟩
  rintro ⟨⟨kept, -, -⟩, -⟩
  rcases kept (0, 2) 0 (by decide) with begun | waits
  · exact absurd begun (by decide)
  · cases waits

end Thread
end Pone
