import Mathlib.Data.List.Nodup
import Mathlib.Logic.Function.Basic

/-!
# One-place mailboxes

Workers take jobs from slots that hold one job each.  `assigned` and `started` are the histories of
the jobs put into a slot and of the jobs begun.  Whoever assigns a fresh job to an empty slot, and
begins a slot's job only while the slot's worker is not busy, begins no job twice and loses none.
-/

namespace Mailbox

variable {ω κ : Type*}

/-- The slots, the workers that have begun the job in their slot, and the two histories. -/
structure State (ω κ : Type*) where
  slot : ω → Option κ
  busy : ω → Prop
  assigned : List (κ × ω)
  started : List (κ × ω)

/-- A fresh job goes into an empty slot, a worker begins the job in its slot, or a busy worker
empties its slot. -/
inductive Step [DecidableEq ω] (s s' : State ω κ) : Prop where
  | stutter (slot : s'.slot = s.slot) (busy : s'.busy = s.busy)
      (assigned : s'.assigned = s.assigned) (started : s'.started = s.started)
  | assign (job : κ) (w : ω) (fresh : job ∉ s.assigned.map Prod.fst) (empty : s.slot w = none)
      (idle : ¬ s.busy w) (slot : s'.slot = Function.update s.slot w (some job))
      (busy : s'.busy = s.busy) (assigned : s'.assigned = s.assigned ++ [(job, w)])
      (started : s'.started = s.started)
  | start (job : κ) (w : ω) (full : s.slot w = some job) (idle : ¬ s.busy w)
      (slot : s'.slot = s.slot) (busy : ∀ v, s'.busy v ↔ v = w ∨ s.busy v)
      (assigned : s'.assigned = s.assigned) (started : s'.started = s.started ++ [(job, w)])
  | clear (w : ω) (begun : s.busy w) (slot : s'.slot = Function.update s.slot w none)
      (busy : ∀ v, s'.busy v ↔ v ≠ w ∧ s.busy v) (assigned : s'.assigned = s.assigned)
      (started : s'.started = s.started)

/-- No job is lost before it is begun, none is begun twice, and only assigned jobs are begun. -/
structure ExactlyOnce (s : State ω κ) : Prop where
  kept : ∀ job w, (job, w) ∈ s.assigned → (job, w) ∈ s.started ∨ s.slot w = some job
  once : (s.started.map Prod.fst).Nodup
  known : ∀ job w, (job, w) ∈ s.started → (job, w) ∈ s.assigned

/-- The inductive form of `ExactlyOnce`. -/
structure Invariant (s : State ω κ) : Prop extends ExactlyOnce s where
  assigned_once : (s.assigned.map Prod.fst).Nodup
  slot_assigned : ∀ job w, s.slot w = some job → (job, w) ∈ s.assigned
  slot_waits : ∀ job w, s.slot w = some job → ¬ s.busy w → job ∉ s.started.map Prod.fst
  busy_begun : ∀ w, s.busy w → ∃ job, s.slot w = some job ∧ (job, w) ∈ s.started

theorem mem_fst_of_mem {job : κ} {w : ω} {history : List (κ × ω)} (member : (job, w) ∈ history) :
    job ∈ history.map Prod.fst :=
  List.mem_map.mpr ⟨(job, w), member, rfl⟩

/-- The worker of an assigned job is determined by the job. -/
theorem worker_unique {job : κ} {v w : ω} {history : List (κ × ω)}
    (once : (history.map Prod.fst).Nodup) (first : (job, v) ∈ history)
    (second : (job, w) ∈ history) : v = w :=
  congrArg Prod.snd (List.inj_on_of_nodup_map once first second rfl)

theorem nodup_snoc {job : κ} {w : ω} {history : List (κ × ω)}
    (once : (history.map Prod.fst).Nodup) (fresh : job ∉ history.map Prod.fst) :
    ((history ++ [(job, w)]).map Prod.fst).Nodup := by
  rw [List.map_append, List.nodup_append]
  refine ⟨once, List.nodup_singleton _, ?_⟩
  intro old member new singleton same
  obtain rfl : new = job := by simpa using singleton
  exact fresh (same ▸ member)

private theorem start_invariant {s s' : State ω κ} (invariant : Invariant s) {job : κ} {w : ω}
    (full : s.slot w = some job) (idle : ¬ s.busy w) (slot : s'.slot = s.slot)
    (busy : ∀ v, s'.busy v ↔ v = w ∨ s.busy v) (assigned : s'.assigned = s.assigned)
    (started : s'.started = s.started ++ [(job, w)]) : Invariant s' := by
  have fresh := invariant.slot_waits job w full idle
  have job_assigned := invariant.slot_assigned job w full
  refine ⟨⟨?_, ?_, ?_⟩, by rw [assigned]; exact invariant.assigned_once, ?_, ?_, ?_⟩
  · intro other v member
    rw [assigned] at member
    rw [slot, started]
    rcases invariant.kept other v member with begun | waits
    · exact .inl (List.mem_append_left _ begun)
    · exact .inr waits
  · rw [started]
    exact nodup_snoc invariant.once fresh
  · intro other v member
    rw [started, List.mem_append, List.mem_singleton] at member
    rw [assigned]
    rcases member with begun | new
    · exact invariant.known other v begun
    · cases new
      exact job_assigned
  · intro other v waits
    rw [slot] at waits
    rw [assigned]
    exact invariant.slot_assigned other v waits
  · intro other v waits not_busy
    rw [slot] at waits
    rw [busy, not_or] at not_busy
    rw [started, List.map_append, List.mem_append, not_or]
    refine ⟨invariant.slot_waits other v waits not_busy.2, ?_⟩
    -- the job that begins sits in one slot only
    intro same
    obtain rfl : other = job := by simpa using same
    exact not_busy.1
      (worker_unique invariant.assigned_once (invariant.slot_assigned other v waits) job_assigned)
  · intro v begun
    rw [slot, started]
    rcases (busy v).mp begun with rfl | before
    · exact ⟨job, full, by simp⟩
    · obtain ⟨other, waits, known⟩ := invariant.busy_begun v before
      exact ⟨other, waits, List.mem_append_left _ known⟩

variable [DecidableEq ω]

private theorem assign_invariant {s s' : State ω κ} (invariant : Invariant s) {job : κ} {w : ω}
    (fresh : job ∉ s.assigned.map Prod.fst) (empty : s.slot w = none) (idle : ¬ s.busy w)
    (slot : s'.slot = Function.update s.slot w (some job)) (busy : s'.busy = s.busy)
    (assigned : s'.assigned = s.assigned ++ [(job, w)]) (started : s'.started = s.started) :
    Invariant s' := by
  have not_started : job ∉ s.started.map Prod.fst := by
    intro member
    obtain ⟨⟨_, v⟩, begun, rfl⟩ := List.mem_map.mp member
    exact fresh (mem_fst_of_mem (invariant.known _ v begun))
  refine ⟨⟨?_, by rw [started]; exact invariant.once, ?_⟩, ?_, ?_, ?_, ?_⟩
  · intro other v member
    rw [assigned, List.mem_append, List.mem_singleton] at member
    rw [slot, started]
    rcases member with old | new
    · rcases invariant.kept other v old with begun | waits
      · exact .inl begun
      · have different : v ≠ w := by
          rintro rfl
          rw [empty] at waits
          cases waits
        exact .inr (by rw [Function.update_of_ne different, waits])
    · cases new
      exact .inr (Function.update_self ..)
  · intro other v begun
    rw [started] at begun
    rw [assigned]
    exact List.mem_append_left _ (invariant.known other v begun)
  · rw [assigned]
    exact nodup_snoc invariant.assigned_once fresh
  · intro other v full
    rw [slot] at full
    rw [assigned, List.mem_append, List.mem_singleton]
    by_cases same : v = w
    · subst same
      rw [Function.update_self] at full
      exact .inr (by rw [Option.some.inj full])
    · rw [Function.update_of_ne same] at full
      exact .inl (invariant.slot_assigned other v full)
  · intro other v full not_busy
    rw [slot] at full
    rw [started]
    by_cases same : v = w
    · subst same
      rw [Function.update_self] at full
      rwa [← Option.some.inj full]
    · rw [Function.update_of_ne same] at full
      exact invariant.slot_waits other v full (by rwa [← busy])
  · intro v begun
    rw [busy] at begun
    have different : v ≠ w := fun same => idle (same ▸ begun)
    rw [slot, started, Function.update_of_ne different]
    exact invariant.busy_begun v begun

private theorem clear_invariant {s s' : State ω κ} (invariant : Invariant s) {w : ω}
    (begun : s.busy w) (slot : s'.slot = Function.update s.slot w none)
    (busy : ∀ v, s'.busy v ↔ v ≠ w ∧ s.busy v) (assigned : s'.assigned = s.assigned)
    (started : s'.started = s.started) : Invariant s' := by
  have kept_slot {job : κ} {v : ω} (full : s'.slot v = some job) :
      v ≠ w ∧ s.slot v = some job := by
    rw [slot] at full
    have different : v ≠ w := by
      rintro rfl
      rw [Function.update_self] at full
      cases full
    rw [Function.update_of_ne different] at full
    exact ⟨different, full⟩
  refine ⟨⟨?_, by rw [started]; exact invariant.once, ?_⟩,
    by rw [assigned]; exact invariant.assigned_once, ?_, ?_, ?_⟩
  · intro job v member
    rw [assigned] at member
    rw [started]
    rcases invariant.kept job v member with done | waits
    · exact .inl done
    · by_cases same : v = w
      · -- the slot that is emptied held a job that had begun
        subst same
        obtain ⟨running, full, known⟩ := invariant.busy_begun v begun
        obtain rfl : job = running := Option.some.inj (waits.symm.trans full)
        exact .inl known
      · exact .inr (by rw [slot, Function.update_of_ne same, waits])
  · intro job v member
    rw [started] at member
    rw [assigned]
    exact invariant.known job v member
  · intro job v full
    rw [assigned]
    exact invariant.slot_assigned job v (kept_slot full).2
  · intro job v full not_busy
    obtain ⟨different, before⟩ := kept_slot full
    rw [started]
    refine invariant.slot_waits job v before fun was_busy => not_busy ?_
    exact (busy v).mpr ⟨different, was_busy⟩
  · intro v still
    obtain ⟨different, before⟩ := (busy v).mp still
    rw [slot, started, Function.update_of_ne different]
    exact invariant.busy_begun v before

theorem invariant_step {s s' : State ω κ} (invariant : Invariant s) (step : Step s s') :
    Invariant s' := by
  cases step with
  | stutter slot busy assigned started =>
      obtain ⟨⟨kept, once, known⟩, assigned_once, slot_assigned, slot_waits, busy_begun⟩ := invariant
      refine ⟨⟨?_, ?_, ?_⟩, ?_, ?_, ?_, ?_⟩ <;> simpa only [slot, busy, assigned, started]
  | assign job w fresh empty idle slot busy assigned started =>
      exact assign_invariant invariant fresh empty idle slot busy assigned started
  | start job w full idle slot busy assigned started =>
      exact start_invariant invariant full idle slot busy assigned started
  | clear w begun slot busy assigned started =>
      exact clear_invariant invariant begun slot busy assigned started

end Mailbox
