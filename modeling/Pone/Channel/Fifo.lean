import Pone.Channel.Step

/-!
# A channel is a first-in first-out queue

The invariant `Fifo` splits the history of pushes into what has been delivered and what is still in
the buffer.  It needs that nothing in the buffer is freed: the collection at the end of
`pone_chan_send` runs without the mutex, and it frees what is pushed between its mark phase and its
sweep.  `Counted` says that `num` counts the buffer, which excludes the shift of an empty array, and
holds whatever the collections do.
-/

namespace Pone
namespace Channel

variable {n : Nat} {α : Type*} {copy : α → Option α} {inner : α → Option (List α)}

/-- The pointer leads to a copy of the value that was sent. -/
def Copied (copy : α → Option α) (world : World α) (val : α) (ref : Ref α) : Prop :=
  ∃ copied, copy val = some copied ∧ world.read ref = some copied

/-- A received value is a copy of the copy in the buffer. -/
def CopiedTwice (copy : α → Option α) (val received : α) : Prop :=
  ∃ copied, copy val = some copied ∧ copy copied = some received

/-- The history of pushes is what was received followed by what is in the buffer. -/
def Delivers (copy : α → Option α) (s : State n α) : Prop :=
  ∃ delivered pending, s.sent = delivered ++ pending ∧
    List.Forall₂ (CopiedTwice copy) delivered s.received ∧
    List.Forall₂ (Copied copy s.world) pending s.chan.buffer

/-- The counter counts the buffer, so that no shift finds it empty. -/
structure Counted (s : State n α) : Prop where
  num_eq : s.chan.num = s.chan.buffer.length
  not_locked : s.locked = false
  noEmptyShift : NoEmptyShift s

theorem chanNew_counted (limit : Int) : Counted (chanNew limit : State n α) where
  num_eq := rfl
  not_locked := rfl
  noEmptyShift := by simp [NoEmptyShift, chanNew]

theorem counted_effect {s s' : State n α} {pushes marks : Prop} (counted : Counted s)
    (effect : Effect copy inner pushes marks s s') : Counted s' := by
  obtain ⟨num_eq, not_locked, safe⟩ := counted
  have moved {t : Fin n} {pc : Pc α} (pc_eq : s'.pc = (s.setPc t pc).pc)
      (other : pc ≠ .returned (.raised .emptyShift)) : NoEmptyShift s' := by
    intro thread
    rw [pc_eq]
    by_cases same : thread = t
    · subst same
      rwa [setPc_pc_self]
    · rw [setPc_pc_other pc same]
      exact safe thread
  cases effect with
  | frame _ chan _ locked _ _ calm =>
      exact ⟨by rw [chan, num_eq], by rw [locked, not_locked], calm.noEmptyShift safe⟩
  | push _ val copied _ chan _ locked _ _ calm =>
      refine ⟨?_, by rw [locked, not_locked], calm.noEmptyShift safe⟩
      rw [chan]
      simp [Chan.push, num_eq]
  | shift _ ref val copied rest head _ _ chan _ locked _ _ calm =>
      refine ⟨?_, by rw [locked, not_locked], calm.noEmptyShift safe⟩
      rw [head, List.length_cons] at num_eq
      rw [chan]
      push_cast at num_eq
      simp only
      omega
  | mark _ _ t chan _ locked _ _ pc =>
      exact ⟨by rw [chan, num_eq], by rw [locked, not_locked], moved pc (by simp)⟩
  | sweep _ t _ chan _ locked _ _ pc =>
      exact ⟨by rw [chan, num_eq], by rw [locked, not_locked], moved pc (by simp)⟩
  | underflow counted empty =>
      rw [empty] at num_eq
      exact absurd num_eq counted

theorem counted_step {s s' : State n α} {e : Event n α} (counted : Counted s)
    (taken : step copy inner s e = some s') : Counted s' :=
  counted_effect counted (step_effect taken)

/-! ## The collection at the end of a send -/

/-- No value is pushed between the mark phase and the sweep of a collection, and no other collection
begins there. -/
def Undisturbed (s : State n α) (e : Event n α) : Prop :=
  Pushes s e ∨ e.Marks → ∀ t, s.pc t ≠ .marked

instance [DecidableEq α] (s : State n α) (e : Event n α) : Decidable (Undisturbed s e) :=
  inferInstanceAs (Decidable (_ ∨ _ → ∀ t, s.pc t ≠ .marked))

/-- What is in the buffer has not been freed, and will not be by a sweep that is ahead. -/
structure Fifo (copy : α → Option α) (s : State n α) : Prop where
  whole : s.world.Whole
  marked : ∀ t, s.pc t = .marked → s.world.AllMarked
  alone : ∀ t other, s.pc t = .marked → s.pc other = .marked → t = other
  delivers : Delivers copy s

theorem chanNew_fifo (limit : Int) : Fifo copy (chanNew limit : State n α) where
  whole := World.worldNew_whole
  marked := by
    intro t marked
    cases marked
  alone := by
    intro t other marked
    cases marked
  delivers := ⟨[], [], rfl, .nil, .nil⟩

theorem Copied.keeps {world world' : World α} (keeps : World.Keeps world world') {val : α}
    {ref : Ref α} (copied : Copied copy world val ref) : Copied copy world' val ref := by
  obtain ⟨value, copies, found⟩ := copied
  exact ⟨value, copies, keeps.read found⟩

/-- Where nothing is pushed or taken, what is in the buffer has to stay only. -/
theorem Delivers.keeps {s s' : State n α} (delivers : Delivers copy s)
    (keeps : World.Keeps s.world s'.world) (chan : s'.chan = s.chan) (sent : s'.sent = s.sent)
    (received : s'.received = s.received) : Delivers copy s' := by
  obtain ⟨delivered, pending, sent_eq, twice, once⟩ := delivers
  refine ⟨delivered, pending, by rw [sent, sent_eq], by rwa [received], ?_⟩
  rw [chan]
  exact once.imp fun _ _ copied => copied.keeps keeps

theorem fifo_effect {s s' : State n α} (fifo : Fifo copy s) {pushes marks : Prop}
    (effect : Effect copy inner pushes marks s s')
    (undisturbed : pushes ∨ marks → ∀ t, s.pc t ≠ .marked) (counted : Counted s) : Fifo copy s' := by
  obtain ⟨whole, marked, alone, delivers⟩ := fifo
  cases effect with
  | frame _ chan world _ sent received calm =>
      exact ⟨by rwa [world], fun t at_mark => by rw [world]; exact marked t (calm.marked at_mark),
        fun t other at_mark at_mark' => alone t other (calm.marked at_mark) (calm.marked at_mark'),
        delivers.keeps (by rw [world]; exact .refl _) chan sent received⟩
  | push pushed val copied copies chan world _ sent received calm =>
      -- no collection is between its mark phase and its sweep
      have unmarked := undisturbed (.inl pushed)
      obtain ⟨whole', keeps, found⟩ := whole.valCopy inner copied
      obtain ⟨delivered, pending, sent_eq, twice, once⟩ := delivers
      refine ⟨by rwa [world], fun t at_mark => absurd (calm.marked at_mark) (unmarked t),
        fun t _ at_mark => absurd (calm.marked at_mark) (unmarked t),
        delivered, pending ++ [val], by simp [sent, sent_eq], by rwa [received], ?_⟩
      rw [chan, world]
      exact List.rel_append (once.imp fun _ _ before => before.keeps keeps)
        (.cons ⟨copied, copies, found⟩ .nil)
  | shift _ ref val copied rest head found copies chan world _ sent received calm =>
      obtain ⟨whole', keeps, marks⟩ := whole.saveTmp ref
      obtain ⟨delivered, pending, sent_eq, twice, once⟩ := delivers
      rw [head] at once
      refine ⟨by rwa [world], fun t at_mark => by rw [world]; exact marks (marked t (calm.marked at_mark)),
        fun t other at_mark at_mark' => alone t other (calm.marked at_mark) (calm.marked at_mark'), ?_⟩
      -- the head of the pending values is the one that is delivered now
      cases once with
      | @cons original _ others _ first once =>
          obtain ⟨value, copied_once, found'⟩ := first
          cases found.symm.trans found'
          refine ⟨delivered ++ [original], others, by simp [sent, sent_eq], ?_, ?_⟩
          · rw [received]
            exact List.rel_append twice (.cons ⟨val, copied_once, copies⟩ .nil)
          · rw [chan, world]
            exact once.imp fun _ _ before => before.keeps keeps
  | mark _ marking t chan world _ sent received pc =>
      have unmarked := undisturbed (.inr marking)
      obtain ⟨whole', keeps, all⟩ := whole.gcMark
      have only (other : Fin n) (at_mark : s'.pc other = .marked) : other = t := by
        by_contra different
        rw [pc, setPc_pc_other _ different] at at_mark
        exact unmarked other at_mark
      exact ⟨by rwa [world], fun _ _ => by rwa [world],
        fun other other' at_mark at_mark' => (only other at_mark).trans (only other' at_mark').symm,
        delivers.keeps (by rwa [world]) chan sent received⟩
  | sweep _ t before chan world _ sent received pc =>
      obtain ⟨whole', keeps⟩ := whole.gcCollect (marked t before)
      -- the thread that sweeps was the only one
      have unmarked (other : Fin n) : s'.pc other ≠ .marked := by
        rw [pc]
        by_cases same : other = t
        · subst same
          rw [setPc_pc_self]
          simp
        · rw [setPc_pc_other _ same]
          exact fun at_mark => same (alone other t at_mark before)
      exact ⟨by rwa [world], fun other at_mark => absurd at_mark (unmarked other),
        fun other _ at_mark => absurd at_mark (unmarked other),
        delivers.keeps (by rwa [world]) chan sent received⟩
  | underflow counts empty =>
      have num_eq := counted.num_eq
      rw [empty] at num_eq
      exact absurd num_eq counts

theorem fifo_step {s s' : State n α} {e : Event n α} (before : Fifo copy s ∧ Counted s)
    (undisturbed : Undisturbed s e) (taken : step copy inner s e = some s') :
    Fifo copy s' ∧ Counted s' :=
  ⟨fifo_effect before.1 (step_effect taken) undisturbed before.2, counted_step before.2 taken⟩

/-! ## The queue -/

/-- The channel is open, and no thread is closing it. -/
structure Open (s : State n α) : Prop where
  ptr : s.ptr = true
  destroyed : s.destroyed = []
  not_closing : ∀ t, ¬ (s.pc t).Closing

theorem chanNew_open (limit : Int) : Open (chanNew limit : State n α) where
  ptr := rfl
  destroyed := rfl
  not_closing := by simp [chanNew, Pc.Closing]

theorem open_step {s s' : State n α} {e : Event n α} (opened : Open s) (stays : e.closes = false)
    (taken : step copy inner s e = some s') : Open s' := by
  obtain ⟨ptr_eq, destroyed_eq, not_closing⟩ := opened
  have others : ∀ other, other ≠ e.thread → ¬ (s'.pc other).Closing := by
    intro other different
    rcases step_others taken different with same | woken
    · rw [same]
      exact not_closing other
    · rw [woken, wake_closing_iff]
      exact not_closing other
  have assemble (ptr : s'.ptr = s.ptr) (destroyed : s'.destroyed = s.destroyed)
      (actor : ¬ (s'.pc e.thread).Closing) : Open s' := by
    refine ⟨by rw [ptr, ptr_eq], by rw [destroyed, destroyed_eq], fun other => ?_⟩
    by_cases same : other = e.thread
    · rwa [same]
    · exact others other same
  have actor_open := not_closing e.thread
  cases step_moves taken with
  | outside _ after ptr destroyed => exact assemble ptr destroyed after.2
  | callClose event =>
      rw [event] at stays
      cases stays
  | enter _ op _ _ after ptr destroyed =>
      exact assemble ptr destroyed (by rw [after]; exact not_false)
  | operate _ after ptr destroyed => exact assemble ptr destroyed after
  | enterClose _ before => exact absurd (by rw [before]; trivial) actor_open
  | destroy _ part before => exact absurd (by rw [before]; trivial) actor_open
  | clear _ before => exact absurd (by rw [before]; trivial) actor_open

theorem open_run {s s' : State n α} {events : List (Event n α)} (opened : Open s)
    (stays : ∀ e ∈ events, e.closes = false)
    (executed : Execution.run (step copy inner) s events = some s') : Open s' :=
  Execution.invariant_run (fun _ e => e.closes = false) open_step opened
    (Execution.along_of_forall_mem stays) executed

/-- Over every interleaving of senders and receivers on an open channel in which no collection is
disturbed, the received values are copies of a prefix of the sent values, the rest is the buffer, the
counter is its length, and no receive shifts an empty array. -/
theorem chan_fifo (copy : α → Option α) (inner : α → Option (List α)) (limit : Int)
    (events : List (Event n α)) {s : State n α} (opened : ∀ e ∈ events, e.closes = false)
    (undisturbed : Execution.Along (step copy inner) Undisturbed (chanNew limit) events)
    (executed : Execution.run (step copy inner) (chanNew limit) events = some s) :
    Open s ∧ Delivers copy s ∧ s.world.HoldsBuffer ∧ s.chan.num = s.chan.buffer.length ∧
      NoEmptyShift s := by
  have is_open := open_run (chanNew_open limit) opened executed
  obtain ⟨fifo, counted⟩ := Execution.invariant_run Undisturbed fifo_step
    ⟨chanNew_fifo limit, chanNew_counted limit⟩ undisturbed executed
  exact ⟨is_open, fifo.delivers, fifo.whole.buffer, counted.num_eq, counted.noEmptyShift⟩

/-- A number from 1000 on stands for an array of so many zeros. -/
def elements (v : Nat) : Option (List Nat) := some (if v < 1000 then [] else List.replicate v 0)

/-- A receiver blocks and is woken by a sender, whose array of 1021 elements fills the first arena.  The
collection that follows is not disturbed. -/
def handover : List (Event 2 Nat) :=
  [.call 0 .receive, .fetch 0, .critical 0 [], .call 1 (.send 1021), .fetch 1, .critical 1 [0],
    .afterSend 1, .mark 1, .sweep 1, .critical 0 []]

theorem chan_fifo_handover : ∃ s, Execution.run (step some elements) (chanNew 1) handover = some s ∧
    Open s ∧ Delivers some s ∧ s.world.HoldsBuffer ∧ s.chan.num = s.chan.buffer.length ∧
      NoEmptyShift s := by
  have runs : Execution.Along (step some elements) Undisturbed (chanNew 1) handover ∧
      (Execution.run (step some elements) (chanNew 1) handover).isSome = true := by decide +kernel
  obtain ⟨s, executed⟩ := Option.isSome_iff_exists.mp runs.2
  exact ⟨s, executed, chan_fifo some elements 1 handover (by decide) runs.1 executed⟩

/-- Another thread sends 7 between the mark phase and the sweep.  Its copy is freed, and the copy of 8
gets the same slot. -/
def disturbed : List (Event 2 Nat) :=
  [.call 0 (.send 1021), .fetch 0, .critical 0 [], .afterSend 0, .mark 0,
    .call 1 (.send 7), .fetch 1, .critical 1 [], .sweep 0, .afterSend 1, .ret 0, .ret 1,
    .call 0 (.send 8), .fetch 0, .critical 0 [], .afterSend 0, .ret 0,
    .call 1 .receive, .fetch 1, .critical 1 [], .ret 1, .call 1 .receive, .fetch 1, .critical 1 [],
    .ret 1, .call 1 .receive, .fetch 1, .critical 1 []]

/-- Of the values 1021, 7 and 8 the receiver gets 1021, 8 and 8. -/
theorem chan_loses : (∀ e ∈ disturbed, e.closes = false) ∧
    ∃ s, Execution.run (step some elements) (chanNew 5) disturbed = some s ∧
      s.sent = [1021, 7, 8] ∧ s.received = [1021, 8, 8] ∧ ¬ Delivers some s := by
  have history : (Execution.run (step some elements) (chanNew 5) disturbed).map
      (fun s => (s.sent, s.received)) = some ([1021, 7, 8], [1021, 8, 8]) := by decide +kernel
  obtain ⟨s, executed, same⟩ := Option.map_eq_some_iff.mp history
  obtain ⟨sent, received⟩ := Prod.mk.inj same
  refine ⟨by decide, s, executed, sent, received, ?_⟩
  rintro ⟨delivered, pending, split, twice, -⟩
  -- what is received is a copy of what was sent
  have copies : delivered = s.received := by
    refine List.forall₂_eq_eq_eq ▸ twice.imp ?_
    rintro a b ⟨copied, first, second⟩
    exact Option.some.inj (first.trans second)
  rw [sent, copies, received] at split
  cases split

end Channel
end Pone
