import Pone.Channel.Fifo

/-!
# The capacity of a channel

`pone_chan_send` waits while `limit < num` and `pone_chan_trysend` refuses unless `limit > num`, so
the two agree on every buffer but a full one, and a `send` to a full buffer overfills it.
-/

namespace Pone
namespace Channel

variable {n : Nat} {α : Type*} {copy : α → Option α} {inner : α → Option (List α)}

/-- The buffer is within the limit, and `trysend` refuses exactly when `send` waits, which is when
the buffer is full. -/
def WithinCapacity (s : State n α) : Prop :=
  s.chan.buffer.length ≤ s.chan.limit ∧
    (s.chan.TrysendRefuses ↔ s.chan.SendWaits) ∧
    (s.chan.TrysendRefuses ↔ s.chan.buffer.length = s.chan.limit)

/-- The event does not push the value that fills the buffer. -/
def LeavesRoom (s : State n α) (e : Event n α) : Prop :=
  Pushes s e → s.chan.num + 1 < s.chan.limit

theorem withinCapacity_iff {s : State n α} (counted : s.chan.num = s.chan.buffer.length) :
    WithinCapacity s ↔ s.chan.num < s.chan.limit := by
  unfold WithinCapacity Chan.TrysendRefuses Chan.SendWaits
  rw [← counted]
  constructor
  · rintro ⟨within, agree, full⟩
    by_contra reached
    -- a full buffer is refused by `trysend` and accepted by `send`
    have waits : s.chan.limit < s.chan.num := agree.mp (by omega)
    omega
  · intro room
    refine ⟨by omega, ?_, ?_⟩ <;> constructor <;> intro reached <;> omega

theorem effect_limit {pushes marks : Prop} {s s' : State n α}
    (effect : Effect copy inner pushes marks s s')
    (counted : s.chan.num = s.chan.buffer.length) : s'.chan.limit = s.chan.limit := by
  cases effect with
  | frame _ chan | mark _ _ _ chan | sweep _ _ _ chan => rw [chan]
  | push _ _ _ _ chan => rw [chan, Chan.push]
  | shift _ _ _ _ _ _ _ _ chan => rw [chan]
  | underflow counts empty =>
      rw [empty] at counted
      exact absurd counted counts

/-- A step that does not push leaves room if there was room. -/
theorem effect_room {pushes marks : Prop} {s s' : State n α}
    (effect : Effect copy inner pushes marks s s')
    (counted : s.chan.num = s.chan.buffer.length) (quiet : ¬ pushes)
    (room : s.chan.num < s.chan.limit) : s'.chan.num < s'.chan.limit := by
  cases effect with
  | frame _ chan | mark _ _ _ chan | sweep _ _ _ chan => rwa [chan]
  | push pushed => exact absurd pushed quiet
  | shift _ _ _ _ _ _ _ _ chan =>
      rw [chan]
      simp only
      omega
  | underflow counts empty =>
      rw [empty] at counted
      exact absurd counted counts

theorem effect_pushed_num {pushes marks : Prop} {s s' : State n α}
    (effect : Effect copy inner pushes marks s s')
    (counted : s.chan.num = s.chan.buffer.length) (pushed : pushes) :
    s'.chan.num = s.chan.num + 1 := by
  cases effect with
  | frame quiet | mark quiet | sweep quiet => exact absurd pushed quiet
  | push _ _ _ _ chan => rw [chan, Chan.push]
  | shift quiet => exact absurd pushed quiet
  | underflow counts empty =>
      rw [empty] at counted
      exact absurd counted counts

/-- One step keeps the capacity exactly when it does not fill the buffer. -/
theorem room_step_iff {s s' : State n α} {e : Event n α} (counted : Counted s)
    (room : s.chan.num < s.chan.limit) (taken : step copy inner s e = some s') :
    s'.chan.num < s'.chan.limit ↔ LeavesRoom s e := by
  have effect := step_effect taken
  have limit_eq := effect_limit effect counted.num_eq
  constructor
  · intro after pushed
    have num_eq := effect_pushed_num effect counted.num_eq pushed
    omega
  · intro leaves
    by_cases pushed : Pushes s e
    · have num_eq := effect_pushed_num effect counted.num_eq pushed
      have below := leaves pushed
      omega
    · exact effect_room effect counted.num_eq pushed room

/-- A run keeps the capacity in all its states exactly when none of its pushes fills the buffer. -/
theorem chan_withinCapacity_iff (copy : α → Option α) (inner : α → Option (List α)) {limit : Int}
    (limit_pos : 1 ≤ limit) (events : List (Event n α)) {s : State n α}
    (executed : Execution.run (step copy inner) (chanNew limit) events = some s) :
    Execution.Always (step copy inner) WithinCapacity (chanNew limit) events ↔
      Execution.Along (step copy inner) LeavesRoom (chanNew limit) events := by
  have empty_fits : WithinCapacity (chanNew limit : State n α) := by
    rw [withinCapacity_iff (chanNew_counted limit).num_eq]
    exact limit_pos
  refine Execution.always_iff_along counted_step ?_ (chanNew_counted limit) empty_fits executed
  intro before e after counted fits taken
  rw [withinCapacity_iff (counted_step counted taken).num_eq]
  exact room_step_iff counted ((withinCapacity_iff counted.num_eq).mp fits) taken

/-- One value is sent to a channel of two and received. -/
def roundTrip : List (Event 1 Nat) :=
  [.call 0 (.send 7), .fetch 0, .critical 0 [], .afterSend 0, .ret 0, .call 0 .receive, .fetch 0,
    .critical 0 []]

theorem chan_withinCapacity_roundTrip :
    Execution.Always (step some elements) WithinCapacity (chanNew 2) roundTrip ↔
      Execution.Along (step some elements) LeavesRoom (chanNew 2) roundTrip :=
  chan_withinCapacity_iff some elements (by decide) roundTrip rfl

/-- One thread sends twice. -/
def sendTwice : List (Event 1 Nat) :=
  [.call 0 (.send 7), .fetch 0, .critical 0 [], .afterSend 0, .ret 0, .call 0 (.send 8), .fetch 0,
    .critical 0 []]

/-- A channel of limit one takes a second value: its buffer is full after the first `send`, where
`trysend` refuses, but `send` does not wait. -/
theorem chan_overfills :
    (∃ full, Execution.run (step some elements) (chanNew 1) (sendTwice.take 3) = some full ∧
      full.values = [some 7] ∧ full.chan.TrysendRefuses ∧ ¬ full.chan.SendWaits) ∧
    ∃ overfull, Execution.run (step some elements) (chanNew 1) sendTwice = some overfull ∧
      overfull.values = [some 7, some 8] ∧ ¬ WithinCapacity overfull := by
  refine ⟨⟨_, rfl, rfl, by decide, by decide⟩, _, rfl, rfl, ?_⟩
  rintro ⟨within, -⟩
  exact absurd within (by decide)

end Channel
end Pone
