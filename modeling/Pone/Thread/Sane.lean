import Pone.Thread.Program

/-!
# The threads of a program

What holds of the workers and the callers at every step of a program, whether or not a caller
overwrites a stored job: `Sane` and one lemma for each operation, and what a step does to the slots
and to a worker that finishes.
-/

namespace Pone
namespace Thread

/-- The list of worlds runs from the newest to the oldest: the world after `w` is `w - 1`. -/
def below : Nat → Option Nat
  | 0 => none
  | w + 1 => some w

/-- A world that a caller has found is in use; a world whose thread it creates has none yet. -/
def PositionOk (s : State (Option Nat)) (t : Option Nat) : Caller → Prop
  | .idle | .called | .scanning none => True
  | .scanning (some w) | .tested w | .locked w | .stored w | .signalled w => w < s.count
  | .spawning w => w < s.count ∧ Spawner s t w

/-- What holds of the threads whether or not jobs are overwritten. -/
structure Sane (s : State (Option Nat)) : Prop where
  head : s.workerWorlds = below s.count
  next : ∀ w < s.count, s.next w = below w
  positions : ∀ t, PositionOk s t (s.caller t)
  unused : ∀ w, s.count ≤ w → s.worker w = .unborn
  code_lt : ∀ w, s.code w ≠ none → w < s.count
  busy_code : ∀ w, Busy (s.worker w) → s.code w ≠ none
  /-- Only a running job is in `pone_thread_start`. -/
  working : ∀ w, s.caller (some w) ≠ .idle → (s.worker w).Runs

theorem initial_sane : Sane (initial : State (Option Nat)) where
  head := rfl
  next := nofun
  positions := fun _ => trivial
  unused := fun _ _ => rfl
  code_lt := fun _ full => absurd rfl full
  busy_code := nofun
  working := fun _ active => absurd rfl active

/-- `Sane` does not read the mutexes, the calls, the histories and `end_time`. -/
theorem Sane.congr {s s' : State (Option Nat)} (sane : Sane s)
    (same : (s'.code, s'.worker, s'.next, s'.workerWorlds, s'.count, s'.caller) =
      (s.code, s.worker, s.next, s.workerWorlds, s.count, s.caller)) : Sane s' := by
  cases s
  cases s'
  simp only [Prod.mk.injEq] at same
  obtain ⟨rfl, rfl, rfl, rfl, rfl, rfl⟩ := same
  exact ⟨sane.head, sane.next, sane.positions, sane.unused, sane.code_lt, sane.busy_code,
    sane.working⟩

/-- A position stays good while worlds are added and the threads that run stay. -/
theorem positionOk_mono {s s' : State (Option Nat)} {t : Option Nat} {caller : Caller}
    (ok : PositionOk s t caller) (count : s.count ≤ s'.count)
    (spawner : ∀ w, caller = .spawning w → Spawner s t w → Spawner s' t w) :
    PositionOk s' t caller := by
  cases caller with
  | idle | called => trivial
  | scanning world =>
      cases world with
      | none => trivial
      | some w => exact Nat.lt_of_lt_of_le ok count
  | tested w | locked w | stored w | signalled w => exact Nat.lt_of_lt_of_le ok count
  | spawning w => exact ⟨Nat.lt_of_lt_of_le ok.1 count, spawner w rfl ok.2⟩

theorem Sane.setCaller {s : State (Option Nat)} (sane : Sane s) {t : Option Nat} {caller : Caller}
    (ok : PositionOk s t caller)
    (working : caller ≠ .idle → ∀ w, t = some w → (s.worker w).Runs) :
    Sane (s.setCaller t caller) where
  head := sane.head
  next := sane.next
  positions := by
    refine (Function.forall_update_iff s.caller fun u => PositionOk _ u).mpr ⟨?_, ?_⟩
    · refine positionOk_mono ok (Nat.le_refl _) ?_
      rintro w - ⟨unborn, alone⟩
      refine ⟨unborn, fun u spawning => ?_⟩
      by_cases same : u = t
      · exact same
      · exact alone u ((Function.update_of_ne same ..).symm.trans spawning)
    · intro u different
      refine positionOk_mono (sane.positions u) (Nat.le_refl _) ?_
      rintro w at_w ⟨unborn, alone⟩
      refine ⟨unborn, fun v spawning => ?_⟩
      by_cases same : v = t
      · -- the new point of the thread would have to be alone with the same world
        subst same
        obtain rfl : caller = .spawning w := (Function.update_self ..).symm.trans spawning
        exact absurd (ok.2.2 u at_w) different
      · exact alone v ((Function.update_of_ne same ..).symm.trans spawning)
  unused := sane.unused
  code_lt := sane.code_lt
  busy_code := sane.busy_code
  working := fun w active => by
    by_cases same : some w = t
    · rw [State.setCaller, same] at active
      simp only [Function.update_self] at active
      exact working active w same.symm
    · rw [State.setCaller] at active
      simp only [Function.update_of_ne same] at active
      exact sane.working w active

theorem Sane.setWorker {s : State (Option Nat)} (sane : Sane s) {w : Nat}
    {worker : Worker (Option Nat × Nat)} (bound : w < s.count)
    (busy : Busy worker → s.code w ≠ none)
    (unspawned : ∀ t, s.caller t = .spawning w → worker = .unborn)
    (working : s.caller (some w) ≠ .idle → worker.Runs) :
    Sane (s.setWorker w worker) where
  head := sane.head
  next := sane.next
  positions := fun t => by
    refine positionOk_mono (sane.positions t) (Nat.le_refl _) ?_
    rintro v at_v ⟨unborn, alone⟩
    refine ⟨?_, alone⟩
    by_cases same : v = w
    · subst same
      exact (Function.update_self ..).trans (unspawned t at_v)
    · exact (Function.update_of_ne same ..).trans unborn
  unused := fun v beyond => by
    have different : v ≠ w := by
      rintro rfl
      exact absurd bound (Nat.not_lt.mpr beyond)
    exact (Function.update_of_ne different ..).trans (sane.unused v beyond)
  code_lt := sane.code_lt
  busy_code := (Function.forall_update_iff s.worker fun v x => Busy x → s.code v ≠ none).mpr
    ⟨busy, fun v _ => sane.busy_code v⟩
  working := (Function.forall_update_iff s.worker fun v x =>
    s.caller (some v) ≠ .idle → x.Runs).mpr ⟨working, fun v _ => sane.working v⟩

theorem Sane.worker_lt {s : State (Option Nat)} (sane : Sane s) {w : Nat}
    (born : s.worker w ≠ .unborn) : w < s.count := by
  by_contra beyond
  exact born (sane.unused w (by omega))

/-- A thread that has been created may move, with no job of its own in `pone_thread_start`. -/
theorem Sane.moveWorker {s : State (Option Nat)} (sane : Sane s) {w : Nat}
    {worker : Worker (Option Nat × Nat)} (born : s.worker w ≠ .unborn)
    (busy : Busy worker → s.code w ≠ none)
    (working : s.caller (some w) ≠ .idle → worker.Runs) : Sane (s.setWorker w worker) := by
  refine sane.setWorker (sane.worker_lt born) busy ?_ working
  intro t spawning
  have spawner := sane.positions t
  rw [spawning] at spawner
  exact absurd spawner.2.1 born

theorem Sane.setCode {s : State (Option Nat)} (sane : Sane s) {w : Nat}
    {code : Option (Option Nat × Nat)} (bound : w < s.count)
    (busy : Busy (s.worker w) → code ≠ none) : Sane (s.setCode w code) where
  head := sane.head
  next := sane.next
  positions := fun t => positionOk_mono (sane.positions t) (Nat.le_refl _) fun _ _ => id
  unused := sane.unused
  code_lt := (Function.forall_update_iff s.code fun v c => c ≠ none → v < s.count).mpr
    ⟨fun _ => bound, fun v _ => sane.code_lt v⟩
  busy_code := (Function.forall_update_iff s.code fun v c => Busy (s.worker v) → c ≠ none).mpr
    ⟨busy, fun v _ => sane.busy_code v⟩
  working := sane.working

theorem Sane.newWorld {s : State (Option Nat)} (sane : Sane s) : Sane s.newWorld where
  head := rfl
  next := fun w bound => by
    by_cases newest : w = s.count
    · subst newest
      exact (Function.update_self ..).trans sane.head
    · have older : w < s.count := Nat.lt_of_le_of_ne (Nat.le_of_lt_succ bound) newest
      exact (Function.update_of_ne newest ..).trans (sane.next w older)
  positions := fun t => positionOk_mono (sane.positions t) (Nat.le_succ _) fun _ _ => id
  unused := fun w beyond => sane.unused w (Nat.le_of_succ_le beyond)
  code_lt := fun w full => Nat.lt_succ_of_lt (sane.code_lt w full)
  busy_code := sane.busy_code
  working := sane.working

/-- A caller that goes on keeps its job running. -/
theorem Sane.moveCaller {s : State (Option Nat)} (sane : Sane s) {t : Option Nat} {caller : Caller}
    (active : s.caller t ≠ .idle) (ok : PositionOk s t caller) : Sane (s.setCaller t caller) := by
  refine sane.setCaller ok fun _ w at_w => ?_
  subst at_w
  exact sane.working w active

theorem positionOk_below {s : State (Option Nat)} (sane : Sane s) {t : Option Nat} {w : Nat}
    (bound : w < s.count) : PositionOk s t (.scanning (s.next w)) := by
  rw [sane.next w bound]
  cases w with
  | zero => trivial
  | succ w => exact Nat.lt_of_succ_lt bound

private theorem trylock_sane {s : State (Option Nat)} (sane : Sane s) {t : Option Nat} {w : Nat}
    (before : s.caller t = .tested w) : Sane (trylock s t w) := by
  have active : s.caller t ≠ .idle := by rw [before]; nofun
  have ok := sane.positions t
  rw [before] at ok
  unfold trylock
  split
  · have locked : Sane (s.setMutex w (some (.caller t))) := sane.congr rfl
    exact locked.moveCaller active ok
  · exact sane.moveCaller active (positionOk_below sane ok)

theorem runs_condSignal {κ : Type*} (worker : Worker κ) :
    (condSignal worker).Runs ↔ worker.Runs := by
  cases worker <;> rfl

theorem Sane.signalWorker {s : State (Option Nat)} (sane : Sane s) {w : Nat} (bound : w < s.count) :
    Sane (s.setWorker w (condSignal (s.worker w))) := by
  refine sane.setWorker bound (fun busy => ?_) (fun t spawning => ?_) fun active => ?_
  · exact sane.busy_code w ((busy_condSignal _).mp busy)
  · have spawner := sane.positions t
    rw [spawning] at spawner
    rw [spawner.2.1]
    rfl
  · exact (runs_condSignal _).mpr (sane.working w active)

private theorem spawn_sane {s : State (Option Nat)} (sane : Sane s) {t : Option Nat} {w : Nat}
    (before : s.caller t = .spawning w) : Sane ((s.setWorker w .starting).setCaller t .idle) := by
  have ok := sane.positions t
  rw [before] at ok
  obtain ⟨bound, unborn, alone⟩ := ok
  -- the caller moves first, so that nobody is about to create the thread
  have moved : Sane (s.setCaller t .idle) :=
    sane.setCaller trivial fun active => absurd rfl active
  refine moved.setWorker bound nofun (fun u spawning => ?_) fun active => ?_
  · by_cases same : u = t
    · subst same
      cases (Function.update_self ..).symm.trans spawning
    · exact absurd (alone u ((Function.update_of_ne same ..).symm.trans spawning)) same
  · have runs := moved.working w active
    rw [show (s.setCaller t .idle).worker w = .unborn from unborn] at runs
    exact absurd runs not_false

private theorem create_sane {s : State (Option Nat)} (sane : Sane s) {t : Option Nat}
    (before : s.caller t = .scanning none) :
    Sane (((s.newWorld.setCode s.count (some (s.job t))).assign t s.count).setCaller t
      (.spawning s.count)) := by
  have active : s.caller t ≠ .idle := by rw [before]; nofun
  have written : Sane (s.newWorld.setCode s.count (some (s.job t))) :=
    sane.newWorld.setCode (Nat.lt_succ_self _) fun _ => nofun
  have recorded : Sane ((s.newWorld.setCode s.count (some (s.job t))).assign t s.count) :=
    written.congr rfl
  refine recorded.moveCaller active ⟨Nat.lt_succ_self _, sane.unused s.count (Nat.le_refl _), ?_⟩
  intro u spawning
  have ok := sane.positions u
  rw [show s.caller u = .spawning s.count from spawning] at ok
  exact absurd ok.1 (Nat.lt_irrefl _)

/-- The steps of the threads that a program takes. -/
theorem sane_thread {p : Program} {s : State (Option Nat)} {e : Event (Option Nat)}
    (sane : Sane p.threads) (enabled : p.Enabled e)
    (taken : step p.threads e = some s) : Sane s := by
  cases e with
  | async t =>
      simp only [step] at taken
      split at taken <;> cases taken
      have called : Sane (p.threads.nextCall t) := sane.congr rfl
      refine called.setCaller trivial fun _ w at_w => ?_
      subst at_w
      exact enabled
  | read t =>
      simp only [step] at taken
      split at taken <;> cases taken
      rename_i before
      have active : p.threads.caller t ≠ .idle := by simp [before]
      refine sane.moveCaller active ?_
      rw [sane.head]
      cases count_eq : p.threads.count with
      | zero => trivial
      | succ w =>
          show w < p.threads.count
          omega
  | test t =>
      simp only [step] at taken
      split at taken
      · rename_i w before
        have ok := sane.positions t
        rw [before] at ok
        have active : p.threads.caller t ≠ .idle := by simp [before]
        split at taken <;> cases taken
        · exact sane.moveCaller active ok
        · exact sane.moveCaller active (positionOk_below sane ok)
      · cases taken
  | trylock t =>
      simp only [step] at taken
      split at taken <;> cases taken
      rename_i w before
      exact trylock_sane sane before
  | store t =>
      simp only [step] at taken
      split at taken <;> cases taken
      rename_i w before
      have ok := sane.positions t
      rw [before] at ok
      have written : Sane (p.threads.setCode w (some (p.threads.job t))) :=
        sane.setCode ok fun _ => by simp
      have recorded : Sane ((p.threads.setCode w (some (p.threads.job t))).assign t w) :=
        written.congr rfl
      have active : p.threads.caller t ≠ .idle := by simp [before]
      exact recorded.moveCaller active ok
  | signal t =>
      simp only [step] at taken
      split at taken <;> cases taken
      rename_i w before
      have ok := sane.positions t
      rw [before] at ok
      have active : p.threads.caller t ≠ .idle := by simp [before]
      exact (sane.signalWorker ok).moveCaller active ok
  | unlock t =>
      simp only [step] at taken
      split at taken <;> cases taken
      rename_i w before
      have freed : Sane (p.threads.setMutex w none) := sane.congr rfl
      exact freed.setCaller trivial fun active => absurd rfl active
  | create t =>
      simp only [step] at taken
      split at taken <;> cases taken
      rename_i before
      exact create_sane sane before
  | spawn t =>
      simp only [step] at taken
      split at taken <;> cases taken
      rename_i w before
      exact spawn_sane sane before
  | acquire w =>
      simp only [step] at taken
      have acquired (born : p.threads.worker w ≠ .unborn) (stopped : ¬ (p.threads.worker w).Runs) :
          Sane ((p.threads.setMutex w (some .worker)).setWorker w .loopHead) := by
        have locked : Sane (p.threads.setMutex w (some .worker)) := sane.congr rfl
        exact locked.moveWorker born (absurd · not_false) fun active => absurd (sane.working w active) stopped
      split at taken <;> cases taken <;> rename_i before free
      · exact acquired (by simp [before]) (by rw [before]; exact not_false)
      · exact acquired (by simp [before]) (by rw [before]; exact not_false)
  | spurious w =>
      simp only [step] at taken
      split at taken <;> cases taken
      rename_i before
      refine sane.moveWorker (by simp [before]) (absurd · not_false) fun active => ?_
      have runs := sane.working w active
      rw [before] at runs
      exact runs
  | finish w =>
      simp only [step] at taken
      split at taken <;> cases taken
      rename_i before
      refine sane.moveWorker (by simp [before]) (fun _ => ?_) fun active => ?_
      · exact sane.busy_code w (by rw [before]; trivial)
      · exact absurd enabled active
  | release w =>
      simp only [step] at taken
      split at taken <;> cases taken
      rename_i before
      have born : p.threads.worker w ≠ .unborn := by simp [before]
      have moved : Sane (p.threads.setWorker w .finishing) := by
        refine sane.moveWorker born (absurd · not_false) fun active => ?_
        have runs := sane.working w active
        rw [before] at runs
        exact runs
      have idle : ¬ Busy ((p.threads.setWorker w .finishing).worker w) := by
        simp [State.setWorker, Busy]
      exact moved.setCode (sane.worker_lt born) fun busy => absurd busy idle
  | fin w =>
      simp only [step] at taken
      split at taken <;> cases taken
      rename_i before
      refine sane.moveWorker (by simp [before]) (absurd · not_false) fun active => ?_
      have runs := sane.working w active
      rw [before] at runs
      exact runs
  | check w | destroy => exact absurd enabled not_false

/-- Only a call makes an idle caller active. -/
theorem caller_idle {s s' : State (Option Nat)} {e : Event (Option Nat)} {t : Option Nat}
    (idle : s.caller t = .idle) (uncalled : e ≠ .async t) (taken : step s e = some s') :
    s'.caller t = .idle := by
  have kept {u : Option Nat} {caller : Caller} (active : s.caller u ≠ .idle) :
      Function.update s.caller u caller t = .idle := by
    have different : t ≠ u := by
      rintro rfl
      exact active idle
    exact (Function.update_of_ne different ..).trans idle
  cases e with
  | async u =>
      simp only [step] at taken
      split at taken <;> cases taken
      have different : t ≠ u := fun same => uncalled (by rw [same])
      exact (Function.update_of_ne different ..).trans idle
  | test u =>
      simp only [step] at taken
      split at taken
      · rename_i before
        split at taken <;> cases taken <;> exact kept (by simp [before])
      · cases taken
  | trylock u =>
      simp only [step] at taken
      split at taken <;> cases taken
      rename_i before
      unfold trylock
      split <;> exact kept (by simp [before])
  | read u | store u | signal u | unlock u | create u | spawn u =>
      simp only [step] at taken
      split at taken <;> cases taken
      rename_i before
      exact kept (by simp [before])
  | acquire w | spurious w | finish w | release w | fin w =>
      simp only [step] at taken
      split at taken <;> cases taken <;> exact idle
  | check w =>
      simp only [step] at taken
      split at taken <;> cases taken
      unfold check
      split
      · exact idle
      · split <;> exact idle
  | destroy =>
      cases taken
      exact idle

/-- What a step of a thread does to the slots and to the list of worlds. -/
inductive SlotStep (s s' : State (Option Nat)) : Event (Option Nat) → Prop
  | keep {e : Event (Option Nat)} (quiet : ∀ w, e ≠ .release w) (code : s'.code = s.code)
      (worlds : s'.workerWorlds = s.workerWorlds) (count : s'.count = s.count) : SlotStep s s' e
  | store (t : Option Nat) (w : Nat) (active : s.caller t ≠ .idle)
      (code : s'.code = Function.update s.code w (some (s.job t)))
      (worlds : s'.workerWorlds = s.workerWorlds) (count : s'.count = s.count) :
      SlotStep s s' (.store t)
  | create (t : Option Nat) (active : s.caller t ≠ .idle)
      (code : s'.code = Function.update s.code s.count (some (s.job t)))
      (count : s'.count = s.count + 1) : SlotStep s s' (.create t)
  | release (w : Nat) (worker : s'.worker w = .finishing)
      (code : s'.code = Function.update s.code w none)
      (worlds : s'.workerWorlds = s.workerWorlds) (count : s'.count = s.count) :
      SlotStep s s' (.release w)

theorem slot_step {s s' : State (Option Nat)} {e : Event (Option Nat)}
    (taken : step s e = some s') : SlotStep s s' e := by
  cases e with
  | store t =>
      simp only [step] at taken
      split at taken <;> cases taken
      rename_i w before
      exact .store t w (by simp [before]) rfl rfl rfl
  | create t =>
      simp only [step] at taken
      split at taken <;> cases taken
      rename_i before
      exact .create t (by simp [before]) rfl rfl
  | release w =>
      simp only [step] at taken
      split at taken <;> cases taken
      exact .release w (Function.update_self ..) rfl rfl rfl
  | test t =>
      simp only [step] at taken
      split at taken
      · split at taken <;> cases taken <;> exact .keep (by simp) rfl rfl rfl
      · cases taken
  | trylock t =>
      simp only [step] at taken
      split at taken <;> cases taken
      unfold trylock
      split <;> exact .keep (by simp) rfl rfl rfl
  | check w =>
      simp only [step] at taken
      split at taken <;> cases taken
      unfold check
      split
      · exact .keep (by simp) rfl rfl rfl
      · split <;> exact .keep (by simp) rfl rfl rfl
  | async t | read t | signal t | unlock t | spawn t | acquire w | spurious w | finish w | fin w =>
      simp only [step] at taken
      split at taken <;> cases taken <;> exact .keep (by simp) rfl rfl rfl
  | destroy =>
      cases taken
      exact .keep (by simp) rfl rfl rfl

/-- A worker that finishes a job goes on only by its signal on `worker_fin_cond`. -/
theorem finishing_step {s s' : State (Option Nat)} {e : Event (Option Nat)} {w : Nat}
    (sane : Sane s) (finishing : s.worker w = .finishing) (unsignalled : e ≠ .fin w)
    (taken : step s e = some s') : s'.worker w = .finishing := by
  have kept {v : Nat} {worker : Worker (Option Nat × Nat)} (other : s.worker v ≠ .finishing) :
      Function.update s.worker v worker w = .finishing := by
    have different : w ≠ v := by
      rintro rfl
      exact other finishing
    exact (Function.update_of_ne different ..).trans finishing
  cases e with
  | fin v =>
      simp only [step] at taken
      split at taken <;> cases taken
      have different : w ≠ v := fun same => unsignalled (by rw [same])
      exact (Function.update_of_ne different ..).trans finishing
  | signal t =>
      simp only [step] at taken
      split at taken <;> cases taken
      rename_i v before
      by_cases same : w = v
      · subst same
        refine (Function.update_self ..).trans ?_
        rw [finishing]
        rfl
      · exact (Function.update_of_ne same ..).trans finishing
  | spawn t =>
      simp only [step] at taken
      split at taken <;> cases taken
      rename_i v before
      have ok := sane.positions t
      rw [before] at ok
      exact kept (by simp [ok.2.1])
  | acquire v =>
      simp only [step] at taken
      split at taken <;> cases taken <;> rename_i before free <;> exact kept (by simp [before])
  | spurious v | finish v | release v =>
      simp only [step] at taken
      split at taken <;> cases taken
      rename_i before
      exact kept (by simp [before])
  | check v =>
      simp only [step] at taken
      split at taken <;> cases taken
      rename_i before
      have other : s.worker v ≠ .finishing := by simp [before]
      unfold check
      split
      · exact kept other
      · split <;> exact kept other
  | test t =>
      simp only [step] at taken
      split at taken
      · split at taken <;> cases taken <;> exact finishing
      · cases taken
  | trylock t =>
      simp only [step] at taken
      split at taken <;> cases taken
      unfold trylock
      split <;> exact finishing
  | async t | read t | store t | unlock t | create t =>
      simp only [step] at taken
      split at taken <;> cases taken
      exact finishing
  | destroy =>
      cases taken
      exact finishing

end Thread
end Pone
