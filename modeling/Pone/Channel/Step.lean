import Pone.Channel.Model

/-!
# What one step of a channel does

`Effect` says what a step can do to the queue: nothing, one push, one shift, or a shift of an empty
array.  `Moves` says what it can do to its own thread, to the pointer in the opaque body and to the
destroyed parts; the other threads stay where they are or are woken.  The invariants of the other
files are proved from these two inversions and not from `step`.
-/

namespace Pone
namespace Channel

variable {n : Nat} {α : Type*} {copy : α → Option α} {inner : α → Option (List α)}

@[simp]
theorem setPc_chan (s : State n α) (t : Fin n) (pc : Pc α) : (s.setPc t pc).chan = s.chan := rfl

@[simp]
theorem setPc_locked (s : State n α) (t : Fin n) (pc : Pc α) :
    (s.setPc t pc).locked = s.locked := rfl

@[simp]
theorem setPc_sent (s : State n α) (t : Fin n) (pc : Pc α) : (s.setPc t pc).sent = s.sent := rfl

@[simp]
theorem setPc_received (s : State n α) (t : Fin n) (pc : Pc α) :
    (s.setPc t pc).received = s.received := rfl

@[simp]
theorem setPc_pc_self (s : State n α) (t : Fin n) (pc : Pc α) : (s.setPc t pc).pc t = pc := by
  simp [State.setPc]

theorem setPc_pc_other {s : State n α} {t other : Fin n} (pc : Pc α) (different : other ≠ t) :
    (s.setPc t pc).pc other = s.pc other := by
  simp [State.setPc, different]

/-- No operation has ended with the exception of `pone_ary_shift`. -/
def NoEmptyShift (s : State n α) : Prop := ∀ t, s.pc t ≠ .returned (.raised .emptyShift)

/-- The thread is at a place that only a shift of an empty array, or a mark phase, leads to. -/
def Pc.Watched (pc : Pc α) : Prop := pc = .returned (.raised .emptyShift) ∨ pc = .marked

/-- No thread gets to such a place. -/
def Calm (s s' : State n α) : Prop := ∀ t, (s'.pc t).Watched → s'.pc t = s.pc t

theorem Calm.noEmptyShift {s s' : State n α} (calm : Calm s s') (safe : NoEmptyShift s) :
    NoEmptyShift s' := by
  intro t raised
  exact safe t ((calm t (.inl raised)).symm.trans raised)

theorem Calm.marked {s s' : State n α} (calm : Calm s s') {t : Fin n} (marked : s'.pc t = .marked) :
    s.pc t = .marked := (calm t (.inr marked)).symm.trans marked

theorem Calm.refl (s : State n α) : Calm s s := fun _ _ => rfl

theorem Calm.setPc {s middle : State n α} (calm : Calm s middle) {t : Fin n} {pc : Pc α}
    (quiet : ¬ pc.Watched) : Calm s (middle.setPc t pc) := by
  intro other watched
  by_cases same : other = t
  · subst same
    rw [setPc_pc_self] at watched
    exact absurd watched quiet
  · rw [setPc_pc_other pc same] at watched ⊢
    exact calm other watched

theorem Calm.wakeAll {s middle : State n α} (calm : Calm s middle) (wakes : List (Fin n)) :
    Calm s (middle.wakeAll wakes) := by
  intro t watched
  have asleep : (middle.wakeAll wakes).pc t = middle.pc t := by
    simp only [State.wakeAll] at watched ⊢
    split at watched
    · cases at_thread : middle.pc t <;> simp_all [wake, Pc.Watched]
    · rename_i other
      exact if_neg other
  rw [asleep] at watched ⊢
  exact calm t watched

/-- What one step does to the queue, to its world and to its history; `pushes` says that it pushes a
value, and `marks` that it is a mark phase. -/
inductive Effect (copy : α → Option α) (inner : α → Option (List α)) (pushes marks : Prop)
    (s s' : State n α) : Prop where
  | frame (quiet : ¬ pushes) (chan : s'.chan = s.chan) (world : s'.world = s.world)
      (locked : s'.locked = s.locked) (sent : s'.sent = s.sent) (received : s'.received = s.received)
      (calm : Calm s s')
  | push (pushed : pushes) (val copied : α) (copies : copy val = some copied)
      (chan : s'.chan = s.chan.push (s.world.valCopy inner copied).2)
      (world : s'.world = (s.world.valCopy inner copied).1) (locked : s'.locked = s.locked)
      (sent : s'.sent = s.sent ++ [val]) (received : s'.received = s.received) (calm : Calm s s')
  | shift (quiet : ¬ pushes) (ref : Ref α) (val copied : α) (rest : List (Ref α))
      (head : s.chan.buffer = ref :: rest) (found : s.world.read ref = some val)
      (copies : copy val = some copied)
      (chan : s'.chan = { s.chan with buffer := rest, num := s.chan.num - 1 })
      (world : s'.world = s.world.saveTmp ref) (locked : s'.locked = s.locked)
      (sent : s'.sent = s.sent) (received : s'.received = s.received ++ [copied]) (calm : Calm s s')
  | mark (quiet : ¬ pushes) (marking : marks) (t : Fin n) (chan : s'.chan = s.chan)
      (world : s'.world = s.world.gcMark) (locked : s'.locked = s.locked) (sent : s'.sent = s.sent)
      (received : s'.received = s.received) (pc : s'.pc = (s.setPc t .marked).pc)
  | sweep (quiet : ¬ pushes) (t : Fin n) (before : s.pc t = .marked) (chan : s'.chan = s.chan)
      (world : s'.world = s.world.gcCollect) (locked : s'.locked = s.locked)
      (sent : s'.sent = s.sent) (received : s'.received = s.received)
      (pc : s'.pc = (s.setPc t (.returned .nil)).pc)
  | underflow (counted : s.chan.num ≠ 0) (empty : s.chan.buffer = [])

theorem condSignal_eq_some {cond : Resource} {wakes : List (Fin n)} {s s' : State n α}
    (signalled : condSignal cond wakes s = some s') : s' = s.wakeAll wakes := by
  unfold condSignal at signalled
  split at signalled
  · exact (Option.some.inj signalled).symm
  · cases signalled

/-- A push stores a copy, wakes some receivers and keeps a history. -/
theorem push_eq_some {wakes : List (Fin n)} {val : α} {s pushed : State n α}
    (taken : push copy inner wakes val s = some pushed) :
    ∃ copied, copy val = some copied ∧ condSignal .sendCond wakes { s with
      chan := s.chan.push (s.world.valCopy inner copied).2
      world := (s.world.valCopy inner copied).1
      sent := s.sent ++ [val] } = some pushed := by
  obtain ⟨copied, copies, stored⟩ := Option.bind_eq_some_iff.mp taken
  simp only at stored
  split at stored
  · exact ⟨copied, copies, stored⟩
  · cases stored

/-- A shift takes the first value out of the buffer, and signals the senders. -/
theorem chanReceive_eq_some {t : Fin n} {wakes : List (Fin n)} {s s' : State n α}
    (taken : chanReceive copy t wakes s = some s') :
    (s.chan.num = 0 ∧ s' = s.setPc t (.waiting .receive)) ∨
    (s.chan.num ≠ 0 ∧ s.chan.buffer = [] ∧
      s' = { s.setPc t (.returned (.raised .emptyShift)) with locked := true }) ∨
    ∃ ref rest val copied shifted, s.chan.buffer = ref :: rest ∧ s.world.read ref = some val ∧
      copy val = some copied ∧ condSignal .recvCond wakes { s with
        chan := { s.chan with buffer := rest, num := s.chan.num - 1 }
        world := s.world.saveTmp ref
        received := s.received ++ [copied] } = some shifted ∧
      s' = shifted.setPc t (.returned (.value copied)) := by
  unfold chanReceive at taken
  split at taken
  · rename_i empty
    exact .inl ⟨empty, (Option.some.inj taken).symm⟩
  rename_i counted
  split at taken
  · cases buffer_eq : s.chan.buffer with
    | nil =>
        simp only [buffer_eq, Chan.aryShift] at taken
        exact .inr (.inl ⟨counted, rfl, (Option.some.inj taken).symm⟩)
    | cons ref rest =>
        simp only [buffer_eq, Chan.aryShift] at taken
        obtain ⟨val, found, copying⟩ := Option.bind_eq_some_iff.mp taken
        obtain ⟨copied, copies, signalling⟩ := Option.bind_eq_some_iff.mp copying
        obtain ⟨shifted, signalled, final⟩ := Option.bind_eq_some_iff.mp signalling
        exact .inr (.inr ⟨ref, rest, val, copied, shifted, rfl, found, copies, signalled,
          (Option.some.inj final).symm⟩)
  · cases taken

/-- A step that only moves a thread leaves the queue alone. -/
theorem effect_setPc {s : State n α} {t : Fin n} {pc : Pc α} {pushes marks : Prop}
    (quiet : ¬ pushes) (unwatched : ¬ pc.Watched) :
    Effect copy inner pushes marks s (s.setPc t pc) :=
  .frame quiet rfl rfl rfl rfl rfl ((Calm.refl s).setPc unwatched)

theorem effect_push {s pushed : State n α} {t : Fin n} {wakes : List (Fin n)} {val : α} {pc : Pc α}
    {pushes marks : Prop} (pushing : pushes) (unwatched : ¬ pc.Watched)
    (taken : push copy inner wakes val s = some pushed) :
    Effect copy inner pushes marks s (pushed.setPc t pc) := by
  obtain ⟨copied, copies, signalled⟩ := push_eq_some taken
  obtain rfl := condSignal_eq_some signalled
  exact .push pushing val copied copies rfl rfl rfl rfl rfl
    ((Calm.wakeAll (fun _ _ => rfl) wakes).setPc unwatched)

theorem chanSend_effect {t : Fin n} {wakes : List (Fin n)} {val : α} {s s' : State n α}
    {marks : Prop} (taken : chanSend copy inner t wakes val s = some s') :
    Effect copy inner (¬ s.chan.SendWaits) marks s s' := by
  unfold chanSend at taken
  split at taken
  · rename_i waits
    obtain rfl := Option.some.inj taken
    exact effect_setPc (not_not_intro waits) (by simp [Pc.Watched])
  · rename_i free
    obtain ⟨pushed, push_taken, final⟩ := Option.bind_eq_some_iff.mp taken
    obtain rfl := Option.some.inj final
    exact effect_push free (by simp [Pc.Watched]) push_taken

theorem chanTrysend_effect {t : Fin n} {wakes : List (Fin n)} {val : α} {s s' : State n α}
    {marks : Prop} (taken : chanTrysend copy inner t wakes val s = some s') :
    Effect copy inner (¬ s.chan.TrysendRefuses) marks s s' := by
  unfold chanTrysend at taken
  split at taken
  · rename_i refuses
    obtain rfl := Option.some.inj taken
    exact effect_setPc (not_not_intro refuses) (by simp [Pc.Watched])
  · rename_i free
    obtain ⟨pushed, push_taken, final⟩ := Option.bind_eq_some_iff.mp taken
    obtain rfl := Option.some.inj final
    exact effect_push free (by simp [Pc.Watched]) push_taken

theorem chanReceive_effect {t : Fin n} {wakes : List (Fin n)} {s s' : State n α} {marks : Prop}
    (taken : chanReceive copy t wakes s = some s') : Effect copy inner False marks s s' := by
  rcases chanReceive_eq_some taken with ⟨-, rfl⟩ | ⟨counted, empty, -⟩ |
    ⟨ref, rest, val, copied, shifted, head, found, copies, signalled, rfl⟩
  · exact effect_setPc not_false (by simp [Pc.Watched])
  · exact .underflow counted empty
  · obtain rfl := condSignal_eq_some signalled
    exact .shift not_false ref val copied rest head found copies rfl rfl rfl rfl rfl
      ((Calm.wakeAll (fun _ _ => rfl) wakes).setPc (by simp [Pc.Watched]))

theorem criticalSection_effect {t : Fin n} {wakes : List (Fin n)} {op : Op α} {s s' : State n α}
    {pushes marks : Prop} (same : pushes ↔ op.Pushes s.chan)
    (taken : criticalSection copy inner t wakes op s = some s') :
    Effect copy inner pushes marks s s' := by
  rw [propext same]
  cases op with
  | send val => exact chanSend_effect taken
  | trysend val => exact chanTrysend_effect taken
  | receive => exact chanReceive_effect taken

theorem step_effect {s s' : State n α} {e : Event n α} (taken : step copy inner s e = some s') :
    Effect copy inner (Pushes s e) e.Marks s s' := by
  cases e with
  | critical t wakes =>
      simp only [step] at taken
      split at taken
      · cases taken
      · split at taken
        · rename_i at_op
          exact criticalSection_effect (by simp [Pushes, criticalOp, at_op]) taken
        · rename_i at_op
          exact criticalSection_effect (by simp [Pushes, criticalOp, at_op]) taken
        · cases taken
  | fetch t =>
      simp only [step] at taken
      split at taken
      · obtain rfl := Option.some.inj taken
        refine effect_setPc not_false ?_
        rename_i op _
        cases op <;> split <;> simp [Op.onClosed, Pc.Watched]
      · obtain rfl := Option.some.inj taken
        refine effect_setPc not_false ?_
        split <;> simp [Pc.Watched]
      · obtain rfl := Option.some.inj taken
        exact effect_setPc not_false (by simp [Pc.Watched])
      · cases taken
  | afterSend t =>
      simp only [step] at taken
      split at taken
      · obtain rfl := Option.some.inj taken
        refine effect_setPc not_false ?_
        split <;> simp [Pc.Watched]
      · cases taken
  | mark t =>
      simp only [step] at taken
      split at taken
      · obtain rfl := Option.some.inj taken
        exact .mark not_false ⟨t, rfl⟩ t rfl rfl rfl rfl rfl rfl
      · cases taken
  | sweep t =>
      simp only [step] at taken
      split at taken
      · rename_i before
        obtain rfl := Option.some.inj taken
        exact .sweep not_false t before rfl rfl rfl rfl rfl rfl
      · cases taken
  | destroy t =>
      simp only [step] at taken
      split at taken
      · rename_i part _
        obtain rfl := Option.some.inj taken
        have moved : Calm s (s.setPc t (afterDestroy part)) :=
          (Calm.refl s).setPc (by cases part <;> simp [afterDestroy, Pc.Watched])
        exact .frame not_false rfl rfl rfl rfl rfl moved
      · cases taken
  | clear t =>
      simp only [step] at taken
      split at taken
      · obtain rfl := Option.some.inj taken
        have moved : Calm s (s.setPc t (.returned .nil)) :=
          (Calm.refl s).setPc (by simp [Pc.Watched])
        exact .frame not_false rfl rfl rfl rfl rfl moved
      · cases taken
  | call t | callClose t | callClosed t | spurious t | ret t =>
      simp only [step] at taken
      split at taken
      · obtain rfl := Option.some.inj taken
        exact effect_setPc not_false (by simp [Pc.Watched])
      · cases taken

/-- The thread runs an operation and has the non-`NULL` pointer in a C variable. -/
def Pc.Operating : Pc α → Prop
  | .fetched _ | .waiting _ | .woken _ | .unlocked | .collecting | .marked => True
  | _ => False

/-- The thread is inside `meth_chan_close`. -/
def Pc.Closing : Pc α → Prop
  | .calledClose | .finalizing _ | .clearing => True
  | _ => False

/-- What one step does to its thread, to the pointer and to the destroyed parts. -/
inductive Moves (s s' : State n α) (t : Fin n) (e : Event n α) : Prop where
  | outside (before : ¬ (s.pc t).Operating ∧ ¬ (s.pc t).Closing)
      (after : ¬ (s'.pc t).Operating ∧ ¬ (s'.pc t).Closing) (ptr : s'.ptr = s.ptr)
      (destroyed : s'.destroyed = s.destroyed)
  | callClose (event : e = .callClose t) (before : ¬ (s.pc t).Operating ∧ ¬ (s.pc t).Closing)
      (after : s'.pc t = .calledClose) (ptr : s'.ptr = s.ptr)
      (destroyed : s'.destroyed = s.destroyed)
  | enter (event : e = .fetch t) (op : Op α) (before : s.pc t = .called op)
      (present : s.ptr = true) (after : s'.pc t = .fetched op) (ptr : s'.ptr = s.ptr)
      (destroyed : s'.destroyed = s.destroyed)
  | enterClose (event : e = .fetch t) (before : s.pc t = .calledClose)
      (after : s'.pc t = if s.ptr then .finalizing .recvCond else .clearing) (ptr : s'.ptr = s.ptr)
      (destroyed : s'.destroyed = s.destroyed)
  | operate (before : (s.pc t).Operating) (after : ¬ (s'.pc t).Closing) (ptr : s'.ptr = s.ptr)
      (destroyed : s'.destroyed = s.destroyed)
  | destroy (event : e = .destroy t) (part : Resource) (before : s.pc t = .finalizing part)
      (after : s'.pc t = afterDestroy part) (ptr : s'.ptr = s.ptr)
      (destroyed : s'.destroyed = s.destroyed ++ [part])
  | clear (event : e = .clear t) (before : s.pc t = .clearing)
      (after : s'.pc t = .returned .nil) (ptr : s'.ptr = false)
      (destroyed : s'.destroyed = s.destroyed)

theorem wakeAll_pc (s : State n α) (wakes : List (Fin n)) (t : Fin n) :
    (s.wakeAll wakes).pc t = s.pc t ∨ (s.wakeAll wakes).pc t = wake (s.pc t) := by
  simp only [State.wakeAll]
  split
  · exact .inr rfl
  · exact .inl rfl

/-- What a critical section leaves alone, and where it puts its thread. -/
structure Critical (s s' : State n α) (t : Fin n) : Prop where
  ptr : s'.ptr = s.ptr
  destroyed : s'.destroyed = s.destroyed
  after : ¬ (s'.pc t).Closing
  others : ∀ other, other ≠ t → s'.pc other = s.pc other ∨ s'.pc other = wake (s.pc other)

theorem critical_setPc {s middle : State n α} {t : Fin n} {pc : Pc α} (ptr : middle.ptr = s.ptr)
    (destroyed : middle.destroyed = s.destroyed) (after : ¬ pc.Closing)
    (others : ∀ other, middle.pc other = s.pc other ∨ middle.pc other = wake (s.pc other)) :
    Critical s (middle.setPc t pc) t where
  ptr := ptr
  destroyed := destroyed
  after := by rwa [setPc_pc_self]
  others := fun other different => by
    rw [setPc_pc_other pc different]
    exact others other

theorem critical_push {s pushed : State n α} {t : Fin n} {wakes : List (Fin n)} {val : α}
    {pc : Pc α} (after : ¬ pc.Closing) (taken : push copy inner wakes val s = some pushed) :
    Critical s (pushed.setPc t pc) t := by
  obtain ⟨copied, copies, signalled⟩ := push_eq_some taken
  obtain rfl := condSignal_eq_some signalled
  exact critical_setPc rfl rfl after fun other => wakeAll_pc _ wakes other

theorem criticalSection_critical {t : Fin n} {wakes : List (Fin n)} {op : Op α} {s s' : State n α}
    (taken : criticalSection copy inner t wakes op s = some s') : Critical s s' t := by
  cases op with
  | send val =>
      simp only [criticalSection, chanSend] at taken
      split at taken
      · obtain rfl := Option.some.inj taken
        exact critical_setPc rfl rfl not_false fun _ => .inl rfl
      · obtain ⟨pushed, push_taken, final⟩ := Option.bind_eq_some_iff.mp taken
        obtain rfl := Option.some.inj final
        exact critical_push not_false push_taken
  | trysend val =>
      simp only [criticalSection, chanTrysend] at taken
      split at taken
      · obtain rfl := Option.some.inj taken
        exact critical_setPc rfl rfl not_false fun _ => .inl rfl
      · obtain ⟨pushed, push_taken, final⟩ := Option.bind_eq_some_iff.mp taken
        obtain rfl := Option.some.inj final
        exact critical_push not_false push_taken
  | receive =>
      rcases chanReceive_eq_some taken with ⟨-, rfl⟩ | ⟨-, -, rfl⟩ |
        ⟨ref, rest, val, copied, shifted, -, -, -, signalled, rfl⟩
      · exact critical_setPc rfl rfl not_false fun _ => .inl rfl
      · exact ⟨rfl, rfl, by simp [Pc.Closing], fun other different => .inl
          (setPc_pc_other _ different)⟩
      · obtain rfl := condSignal_eq_some signalled
        exact critical_setPc rfl rfl not_false fun other => wakeAll_pc _ wakes other

theorem step_others {s s' : State n α} {e : Event n α} (taken : step copy inner s e = some s')
    {other : Fin n} (different : other ≠ e.thread) :
    s'.pc other = s.pc other ∨ s'.pc other = wake (s.pc other) := by
  cases e with
  | critical t wakes =>
      simp only [step] at taken
      split at taken
      · cases taken
      · split at taken
        · exact (criticalSection_critical taken).others other different
        · exact (criticalSection_critical taken).others other different
        · cases taken
  | fetch t =>
      simp only [step] at taken
      split at taken <;> cases taken <;> exact .inl (setPc_pc_other _ different)
  | call t | callClose t | callClosed t | spurious t | afterSend t | ret t | destroy t | clear t
  | mark t | sweep t =>
      simp only [step] at taken
      split at taken <;> cases taken
      exact .inl (setPc_pc_other _ different)

theorem wake_closing_iff (pc : Pc α) : (wake pc).Closing ↔ pc.Closing := by
  cases pc <;> rfl

theorem step_moves {s s' : State n α} {e : Event n α} (taken : step copy inner s e = some s') :
    Moves s s' e.thread e := by
  cases e with
  | critical t wakes =>
      simp only [step] at taken
      split at taken
      · cases taken
      · split at taken
        · rename_i before
          obtain ⟨ptr, destroyed, after, -⟩ := criticalSection_critical taken
          exact .operate (by simp [before, Pc.Operating]) after ptr destroyed
        · rename_i before
          obtain ⟨ptr, destroyed, after, -⟩ := criticalSection_critical taken
          exact .operate (by simp [before, Pc.Operating]) after ptr destroyed
        · cases taken
  | fetch t =>
      simp only [step] at taken
      split at taken
      · rename_i op before
        obtain rfl := Option.some.inj taken
        cases present : s.ptr with
        | true => exact .enter rfl op before present (by simp) rfl rfl
        | false =>
            exact .outside (by simp [before, Pc.Operating, Pc.Closing])
              (by simp [Pc.Operating, Pc.Closing]) rfl rfl
      · rename_i before
        obtain rfl := Option.some.inj taken
        exact .enterClose rfl before (by simp) rfl rfl
      · rename_i before
        obtain rfl := Option.some.inj taken
        exact .outside (by simp [before, Pc.Operating, Pc.Closing])
          (by simp [Pc.Operating, Pc.Closing]) rfl rfl
      · cases taken
  | destroy t =>
      simp only [step] at taken
      split at taken
      · rename_i part before
        obtain rfl := Option.some.inj taken
        exact .destroy rfl part before (setPc_pc_self ..) rfl rfl
      · cases taken
  | clear t =>
      simp only [step] at taken
      split at taken
      · rename_i before
        obtain rfl := Option.some.inj taken
        exact .clear rfl before (setPc_pc_self ..) rfl rfl
      · cases taken
  | spurious t | mark t | sweep t =>
      simp only [step] at taken
      split at taken
      · rename_i before
        obtain rfl := Option.some.inj taken
        exact .operate (by simp [before, Pc.Operating])
          (by simp [Pc.Closing]) rfl rfl
      · cases taken
  | afterSend t =>
      simp only [step] at taken
      split at taken
      · rename_i before
        obtain rfl := Option.some.inj taken
        refine .operate (by simp [before, Pc.Operating]) ?_ rfl rfl
        rw [Event.thread, setPc_pc_self]
        split <;> exact not_false
      · cases taken
  | callClose t =>
      simp only [step] at taken
      split at taken
      · rename_i before
        obtain rfl := Option.some.inj taken
        exact .callClose rfl (by simp [before, Pc.Operating, Pc.Closing]) (setPc_pc_self ..) rfl rfl
      · cases taken
  | call t | callClosed t | ret t =>
      simp only [step] at taken
      split at taken
      · rename_i before
        obtain rfl := Option.some.inj taken
        exact .outside (by simp [before, Pc.Operating, Pc.Closing])
          (by simp [Pc.Operating, Pc.Closing]) rfl rfl
      · cases taken

end Channel
end Pone
