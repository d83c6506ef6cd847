import Pone.Channel.Fifo

/-!
# Closing a channel

`chan_finalizer` destroys the channel without its mutex, so a thread that has already read the
pointer uses destroyed parts.  A close is safe when it is alone: no other thread has the pointer
while a part is destroyed, and no thread reads the pointer between the first destruction and the
assignment of `NULL`.
-/

namespace Pone
namespace Channel

variable {n : Nat} {α : Type*} {copy : α → Option α} {inner : α → Option (List α)}

/-- The thread has the pointer to the channel in a C variable. -/
def Pc.Holds (pc : Pc α) : Prop := pc.Operating ∨ ∃ part, pc = .finalizing part

instance : (pc : Pc α) → Decidable pc.Holds
  | .fetched _ | .waiting _ | .woken _ | .unlocked | .collecting | .marked => .isTrue (.inl trivial)
  | .finalizing part => .isTrue (.inr ⟨part, rfl⟩)
  | .idle | .called _ | .calledClose | .calledClosed | .clearing | .returned _ =>
      .isFalse (by simp [Pc.Holds, Pc.Operating])

/-- The exception that has to end the operation of a thread, once the channel is closed. -/
def Pc.pending : Pc α → Option Exc
  | .called op | .fetched op | .waiting op | .woken op => some op.onClosed
  | .unlocked | .collecting | .marked => some .sendOnClosed
  | _ => none

/-- The step touches nothing that `chan_finalizer` has destroyed. -/
def TouchesAlive (s : State n α) (e : Event n α) : Prop := ∀ part ∈ uses s e, part ∉ s.destroyed

/-- When the channel is closed, every pending operation can step, and any step of its thread ends
it with the exception for a closed channel. -/
def EndsClosed (copy : α → Option α) (inner : α → Option (List α)) (s : State n α) : Prop :=
  s.ptr = false → ∀ t exc, (s.pc t).pending = some exc →
    (step copy inner s (.fetch t)).isSome ∧
      ∀ e s', e.thread = t → step copy inner s e = some s' → s'.pc t = .returned (.raised exc)

/-- The step does not let another thread meet `chan_finalizer`. -/
def ClosesAlone (s : State n α) : Event n α → Prop
  | .destroy t => ∀ other, other ≠ t → ¬ (s.pc other).Holds
  | .fetch t => s.ptr = true → s.pc t ≠ .calledClosed → s.destroyed = []
  | _ => True

instance [DecidableEq α] (s : State n α) : (e : Event n α) → Decidable (ClosesAlone s e)
  | .destroy t => inferInstanceAs (Decidable (∀ other, other ≠ t → ¬ (s.pc other).Holds))
  | .fetch t =>
      inferInstanceAs (Decidable (s.ptr = true → s.pc t ≠ .calledClosed → s.destroyed = []))
  | .call _ _ | .callClose _ | .callClosed _ | .critical _ _ | .spurious _ | .afterSend _ | .mark _
  | .sweep _ | .clear _ | .ret _ => .isTrue trivial

/-- The parts destroyed before a part. -/
def destroyedBefore : Resource → List Resource
  | .recvCond => []
  | .sendCond => [.recvCond]
  | .mutex => [.recvCond, .sendCond]
  | .world => [.recvCond, .sendCond, .mutex]
  | .chan => [.recvCond, .sendCond, .mutex, .world]

/-- What the thread itself has destroyed of the channel, if it is in `chan_finalizer`. -/
def Pc.destroyed : Pc α → Option (List Resource)
  | .finalizing part => some (destroyedBefore part)
  | .clearing => some (destroyedBefore .chan ++ [.chan])
  | _ => none

theorem afterDestroy_destroyed (part : Resource) :
    (afterDestroy part : Pc α).destroyed = some (destroyedBefore part ++ [part]) := by
  cases part <;> rfl

theorem alive_part (part : Resource) :
    Resource.chan ∉ destroyedBefore part ∧ part ∉ destroyedBefore part := by
  cases part <;> decide

theorem wake_destroyed (pc : Pc α) : (wake pc).destroyed = pc.destroyed := by
  cases pc <;> rfl

theorem wake_holds_iff (pc : Pc α) : (wake pc).Holds ↔ pc.Holds := by
  cases pc <;> simp [Pc.Holds, Pc.Operating, wake]

theorem destroyed_eq_none {pc : Pc α} (outside : ¬ pc.Closing) : pc.destroyed = none := by
  cases pc <;> first | rfl | exact absurd trivial outside

theorem destroyed_of_operating {pc : Pc α} (operating : pc.Operating) : pc.destroyed = none := by
  cases pc <;> first | rfl | exact absurd operating not_false

theorem not_holds_of_outside {pc : Pc α} (outside : ¬ pc.Operating ∧ ¬ pc.Closing) :
    ¬ pc.Holds := by
  rintro (operating | ⟨part, rfl⟩)
  · exact outside.1 operating
  · exact outside.2 trivial

theorem uses_holds {s : State n α} {e : Event n α} {part : Resource} (used : part ∈ uses s e) :
    (s.pc e.thread).Holds := by
  cases e with
  | critical t wakes =>
      simp only [uses] at used
      split at used
      · rename_i before
        exact .inl (by simp [before, Pc.Operating])
      · rename_i before
        exact .inl (by simp [before, Pc.Operating])
      · cases used
  | spurious t =>
      cases before : s.pc t <;> simp [uses, before, waitsOn] at used
      exact .inl (by simp [before, Pc.Operating])
  | afterSend t | mark t | sweep t =>
      cases before : s.pc t <;> simp [uses, before] at used
      exact .inl (by simp [before, Pc.Operating])
  | destroy t =>
      cases before : s.pc t <;> simp [uses, before] at used
      exact .inr ⟨_, before⟩
  | call | callClose | callClosed | fetch | clear | ret => cases used

theorem uses_finalizing {s : State n α} {e : Event n α} {part next : Resource}
    (used : part ∈ uses s e) (before : s.pc e.thread = .finalizing next) :
    part = .chan ∨ part = next := by
  cases e <;> simp_all [uses, waitsOn]

/-- How far the channel is on its way from open to closed. -/
inductive Phase (s : State n α) : Prop where
  | opened (ptr : s.ptr = true) (destroyed : s.destroyed = [])
      (untouched : ∀ t parts, (s.pc t).destroyed = some parts → parts = [])
  | closing (t : Fin n) (ptr : s.ptr = true) (by_thread : (s.pc t).destroyed = some s.destroyed)
      (begun : s.destroyed ≠ [])
      (others : ∀ other, other ≠ t → ¬ (s.pc other).Holds ∧ (s.pc other).destroyed = none)
  | closed (ptr : s.ptr = false) (free : ∀ t, ¬ (s.pc t).Holds)

theorem chanNew_phase (limit : Int) : Phase (chanNew limit : State n α) :=
  .opened rfl rfl fun _ _ inside => by cases inside

/-- A property of each thread that waking keeps survives a step if the acting thread keeps it. -/
theorem threads_step (property : Fin n → Pc α → Prop)
    (woken : ∀ t pc, property t pc → property t (wake pc)) {s s' : State n α} {e : Event n α}
    (taken : step copy inner s e = some s') (before : ∀ t, property t (s.pc t))
    (actor : property e.thread (s'.pc e.thread)) : ∀ t, property t (s'.pc t) := by
  intro t
  by_cases same : t = e.thread
  · subst same
    exact actor
  · rcases step_others taken same with kept | awake
    · rw [kept]
      exact before t
    · rw [awake]
      exact woken t _ (before t)

private theorem opened_step {s s' : State n α} {e : Event n α} (ptr_eq : s.ptr = true)
    (none_destroyed : s.destroyed = [])
    (untouched : ∀ t parts, (s.pc t).destroyed = some parts → parts = [])
    (alone : ClosesAlone s e) (taken : step copy inner s e = some s') : Phase s' := by
  have stays_open (ptr : s'.ptr = s.ptr) (destroyed : s'.destroyed = s.destroyed)
      (actor : ∀ parts, (s'.pc e.thread).destroyed = some parts → parts = []) : Phase s' := by
    refine .opened (by rw [ptr, ptr_eq]) (by rw [destroyed, none_destroyed]) ?_
    exact threads_step (fun _ pc => ∀ parts, pc.destroyed = some parts → parts = [])
      (fun _ pc kept => by rwa [wake_destroyed]) taken untouched actor
  have quiet {pc : Pc α} (outside : pc.destroyed = none) :
      ∀ parts, pc.destroyed = some parts → parts = [] := by
    intro parts inside
    rw [outside] at inside
    cases inside
  cases step_moves taken with
  | outside _ after ptr destroyed =>
      exact stays_open ptr destroyed (quiet (destroyed_eq_none after.2))
  | callClose _ _ after ptr destroyed =>
      exact stays_open ptr destroyed (quiet (by rw [after]; rfl))
  | enter _ op _ _ after ptr destroyed =>
      exact stays_open ptr destroyed (quiet (by rw [after]; rfl))
  | enterClose _ _ after ptr destroyed =>
      refine stays_open ptr destroyed fun parts inside => ?_
      rw [after, if_pos ptr_eq] at inside
      exact (Option.some.inj inside).symm
  | operate _ after ptr destroyed =>
      exact stays_open ptr destroyed (quiet (destroyed_eq_none after))
  | destroy event part before after ptr destroyed =>
      -- the first destruction: the guard says that nobody else has the pointer
      have first := untouched _ _ (by rw [before]; rfl)
      rw [event] at alone
      refine .closing e.thread (by rw [ptr, ptr_eq]) ?_ (by simp [destroyed]) ?_
      · rw [after, afterDestroy_destroyed, destroyed, none_destroyed, first]
      · intro other different
        have free := alone other different
        have unclear : (s.pc other).destroyed = none := by
          cases inside : (s.pc other).destroyed with
          | none => rfl
          | some parts =>
              obtain rfl := untouched other parts inside
              cases at_part : s.pc other <;> simp [at_part, Pc.destroyed] at inside
              exact absurd (.inr ⟨_, at_part⟩) free
        rcases step_others taken different with kept | awake
        · rw [kept]
          exact ⟨free, unclear⟩
        · rw [awake, wake_holds_iff, wake_destroyed]
          exact ⟨free, unclear⟩
  | clear _ before =>
      have impossible := untouched _ _ (by rw [before]; rfl)
      cases impossible

private theorem closing_step {s s' : State n α} {e : Event n α} {t : Fin n} (ptr_eq : s.ptr = true)
    (by_thread : (s.pc t).destroyed = some s.destroyed) (begun : s.destroyed ≠ [])
    (others : ∀ other, other ≠ t → ¬ (s.pc other).Holds ∧ (s.pc other).destroyed = none)
    (alone : ClosesAlone s e) (taken : step copy inner s e = some s') : Phase s' := by
  have woken (other : Fin n) (pc : Pc α)
      (free : other ≠ t → ¬ pc.Holds ∧ pc.destroyed = none) :
      other ≠ t → ¬ (wake pc).Holds ∧ (wake pc).destroyed = none := by
    rwa [wake_holds_iff, wake_destroyed]
  by_cases acts : e.thread = t
  · -- the closing thread itself: it destroys the next part or clears the pointer
    have others_after := threads_step _ woken taken others (fun different => absurd acts different)
    rw [← acts] at by_thread others_after
    cases step_moves taken with
    | outside before =>
        rw [destroyed_eq_none before.2] at by_thread
        cases by_thread
    | callClose _ before =>
        rw [destroyed_eq_none before.2] at by_thread
        cases by_thread
    | enter _ op before =>
        rw [before] at by_thread
        cases by_thread
    | enterClose _ before =>
        rw [before] at by_thread
        cases by_thread
    | operate before =>
        rw [destroyed_of_operating before] at by_thread
        cases by_thread
    | destroy _ part before after ptr destroyed =>
        refine .closing e.thread (by rw [ptr, ptr_eq]) ?_ (by simp [destroyed]) others_after
        rw [before] at by_thread
        rw [after, afterDestroy_destroyed, destroyed, ← Option.some.inj by_thread]
    | clear _ before after ptr destroyed =>
        refine .closed ptr fun other => ?_
        by_cases same : other = e.thread
        · rw [same, after]
          simp [Pc.Holds, Pc.Operating]
        · exact (others_after other same).1
  · -- another thread: it is outside, and the guard keeps it there
    have closes_on (ptr : s'.ptr = s.ptr) (destroyed : s'.destroyed = s.destroyed)
        (actor : ¬ (s'.pc e.thread).Holds ∧ (s'.pc e.thread).destroyed = none) : Phase s' := by
      have others_after := threads_step _ woken taken others (fun _ => actor)
      refine .closing t (by rw [ptr, ptr_eq]) ?_ (by rwa [destroyed]) others_after
      rcases step_others taken (Ne.symm acts) with kept | awake
      · rw [kept, by_thread, destroyed]
      · rw [awake, wake_destroyed, by_thread, destroyed]
    obtain ⟨free, unclear⟩ := others e.thread acts
    cases step_moves taken with
    | outside _ after ptr destroyed =>
        exact closes_on ptr destroyed ⟨not_holds_of_outside after, destroyed_eq_none after.2⟩
    | callClose _ _ after ptr destroyed =>
        refine closes_on ptr destroyed ?_
        rw [after]
        exact ⟨by simp [Pc.Holds, Pc.Operating], rfl⟩
    | enter event op before =>
        rw [event] at alone
        exact absurd (alone ptr_eq (by rw [before]; nofun)) begun
    | enterClose event before =>
        rw [event] at alone
        exact absurd (alone ptr_eq (by rw [before]; nofun)) begun
    | operate before => exact absurd (.inl before) free
    | destroy _ part before => exact absurd (.inr ⟨part, before⟩) free
    | clear _ before =>
        rw [before] at unclear
        cases unclear

private theorem closed_step {s s' : State n α} {e : Event n α} (ptr_eq : s.ptr = false)
    (free : ∀ t, ¬ (s.pc t).Holds) (taken : step copy inner s e = some s') : Phase s' := by
  have stays_closed (ptr : s'.ptr = false) (actor : ¬ (s'.pc e.thread).Holds) : Phase s' := by
    refine .closed ptr ?_
    exact threads_step (fun _ pc => ¬ pc.Holds) (fun _ pc kept => by rwa [wake_holds_iff]) taken
      free actor
  cases step_moves taken with
  | outside _ after ptr => exact stays_closed (by rw [ptr, ptr_eq]) (not_holds_of_outside after)
  | callClose _ _ after ptr =>
      refine stays_closed (by rw [ptr, ptr_eq]) ?_
      rw [after]
      simp [Pc.Holds, Pc.Operating]
  | enter _ op _ present =>
      rw [ptr_eq] at present
      cases present
  | enterClose _ _ after ptr =>
      refine stays_closed (by rw [ptr, ptr_eq]) ?_
      rw [after, ptr_eq]
      simp [Pc.Holds, Pc.Operating]
  | operate before => exact absurd (.inl before) (free e.thread)
  | destroy _ part before => exact absurd (.inr ⟨part, before⟩) (free e.thread)
  | clear _ _ after ptr =>
      refine stays_closed ptr ?_
      rw [after]
      simp [Pc.Holds, Pc.Operating]

theorem phase_step {s s' : State n α} {e : Event n α} (phase : Phase s) (alone : ClosesAlone s e)
    (taken : step copy inner s e = some s') : Phase s' := by
  cases phase with
  | opened ptr destroyed untouched => exact opened_step ptr destroyed untouched alone taken
  | closing t ptr by_thread begun others =>
      exact closing_step ptr by_thread begun others alone taken
  | closed ptr free => exact closed_step ptr free taken

theorem phase_touchesAlive {s : State n α} {e : Event n α} (phase : Phase s) :
    TouchesAlive s e := by
  intro part used gone
  have holds := uses_holds used
  cases phase with
  | opened _ destroyed =>
      rw [destroyed] at gone
      cases gone
  | closing t _ by_thread _ others =>
      by_cases acts : e.thread = t
      · subst acts
        rcases holds with operating | ⟨next, before⟩
        · rw [destroyed_of_operating operating] at by_thread
          cases by_thread
        · rw [before] at by_thread
          rw [← Option.some.inj by_thread] at gone
          rcases uses_finalizing used before with rfl | rfl
          · exact (alive_part next).1 gone
          · exact (alive_part part).2 gone
      · exact (others e.thread acts).1 holds
  | closed _ free => exact free e.thread holds

theorem phase_endsClosed {s : State n α} (phase : Phase s) : EndsClosed copy inner s := by
  intro ptr_eq t exc pending
  cases phase with
  | opened ptr => cases ptr_eq.symm.trans ptr
  | closing _ ptr => cases ptr_eq.symm.trans ptr
  | closed _ free =>
      have outside := free t
      -- a pending operation that does not hold the pointer is about to read it
      obtain ⟨op, before, exc_eq⟩ : ∃ op, s.pc t = .called op ∧ op.onClosed = exc := by
        cases before : s.pc t <;>
          simp_all [Pc.pending, Pc.Holds, Pc.Operating]
      refine ⟨by simp [step, before], fun e s' acts taken => ?_⟩
      subst acts
      cases e <;> simp_all [step]
      rw [← taken, setPc_pc_self]

/-- A close that meets no other thread is safe: nothing destroyed is touched, and every operation
that is pending when the channel is closed ends with its exception. -/
theorem close_safe (copy : α → Option α) (inner : α → Option (List α)) (limit : Int)
    (events : List (Event n α))
    (alone : Execution.Along (step copy inner) ClosesAlone (chanNew limit) events) :
    Execution.Along (step copy inner) TouchesAlive (chanNew limit) events ∧
      Execution.Always (step copy inner) (EndsClosed copy inner) (chanNew limit) events :=
  ⟨alone.of_invariant phase_step (fun phase _ => phase_touchesAlive phase) (chanNew_phase limit),
    .of_invariant phase_step phase_endsClosed (chanNew_phase limit) alone⟩

/-- A send completes, another thread closes the channel alone, and a later receive fails. -/
def closeAlone : List (Event 2 Nat) :=
  [.call 0 (.send 7), .fetch 0, .critical 0 [], .afterSend 0, .callClose 1, .fetch 1, .destroy 1,
    .destroy 1, .destroy 1, .destroy 1, .destroy 1, .clear 1, .ret 0, .call 0 .receive, .fetch 0]

theorem close_safe_closeAlone :
    Execution.Along (step some elements) TouchesAlive (chanNew 1) closeAlone ∧
      Execution.Always (step some elements) (EndsClosed some elements) (chanNew 1) closeAlone :=
  close_safe some elements 1 closeAlone (by decide)

/-- A sender has read the pointer when another thread closes the channel. -/
def closeUnderSend : List (Event 2 Nat) :=
  [.call 0 (.send 7), .fetch 0, .callClose 1, .fetch 1, .destroy 1, .destroy 1, .destroy 1,
    .destroy 1, .destroy 1, .clear 1]

/-- The sender then locks a destroyed mutex inside a freed structure. -/
theorem close_unsafe :
    ∃ s, Execution.run (step some elements) (chanNew 1) closeUnderSend = some s ∧
      s.ptr = false ∧ s.pc 0 = .fetched (.send 7) ∧ (step some elements s (.critical 0 [])).isSome ∧
      ¬ TouchesAlive s (.critical 0 []) ∧ ¬ EndsClosed some elements s := by
  refine ⟨_, rfl, rfl, rfl, rfl, ?_, ?_⟩
  · intro alive
    exact alive .mutex (by decide) (by decide)
  · intro ends
    have blocked := (ends rfl 0 .sendOnClosed rfl).1
    cases blocked

end Channel
end Pone
