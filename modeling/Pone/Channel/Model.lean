import Mathlib.Data.Fintype.Basic
import Pone.Channel.Memory
import Pone.Execution

/-!
# Channels

The channel of `channel.c` as a transition system.  A critical section, from `pthread_mutex_lock`
or from the return of `pthread_cond_wait` to `pthread_mutex_unlock` or to the next
`pthread_cond_wait`, is one step.  Reading the `pone_chan` pointer out of the opaque body, the test of
`gc_requested` after the unlock of `pone_chan_send`, the mark phase and the sweep of the collection that
it runs, and every statement of `chan_finalizer` are steps of their own.  The threads are numbered by
`Fin n`, for any `n`.
-/

namespace Pone
namespace Channel

/-- The exceptions that channel operations raise. -/
inductive Exc where
  /-- `X::Channel::SendOnClosed`. -/
  | sendOnClosed
  /-- `X::Channel::ReceiveOnClosed`. -/
  | receiveOnClosed
  /-- "Cannot shift from an empty Array", thrown by `pone_ary_shift`. -/
  | emptyShift
  deriving DecidableEq

/-- The operations that lock the mutex of the channel. -/
inductive Op (α : Type*) where
  | send (val : α)
  | trysend (val : α)
  | receive
  deriving DecidableEq

/-- The exception an operation raises when the pointer it reads is `NULL`. -/
def Op.onClosed {α : Type*} : Op α → Exc
  | .send _ | .trysend _ => .sendOnClosed
  | .receive => .receiveOnClosed

/-- What a call gives back to the program. -/
inductive Result (α : Type*) where
  | nil
  | bool (b : Bool)
  | value (v : α)
  | raised (e : Exc)
  deriving DecidableEq

/-- The parts of a channel that `chan_finalizer` destroys, in its order. -/
inductive Resource where
  | recvCond
  | sendCond
  | mutex
  | world
  | chan
  deriving DecidableEq

/-- Where a thread is in its channel operation. -/
inductive Pc (α : Type*) where
  | idle
  /-- Before `pone_opaque_ptr`. -/
  | called (op : Op α)
  /-- Holds a non-`NULL` pointer, before `pthread_mutex_lock`. -/
  | fetched (op : Op α)
  /-- Blocked in `pthread_cond_wait`. -/
  | waiting (op : Op α)
  /-- Woken, but the mutex is not acquired again yet. -/
  | woken (op : Op α)
  /-- `pone_chan_send` after its unlock, before it reads `chan->world->gc_requested`. -/
  | unlocked
  /-- `pone_gc_run(chan->world)` before its mark phase. -/
  | collecting
  /-- `pone_gc_run(chan->world)` between its mark phase and its sweep. -/
  | marked
  | calledClose
  | calledClosed
  /-- `chan_finalizer` is about to destroy the named part. -/
  | finalizing (next : Resource)
  /-- `meth_chan_close` is about to run `pone_opaque_set_ptr(self, NULL)`. -/
  | clearing
  | returned (result : Result α)
  deriving DecidableEq

/-- `struct pone_chan`, less its mutex, its condition variables and its world. -/
structure Chan (α : Type*) where
  limit : Int
  num : Int
  buffer : List (Ref α)
  deriving DecidableEq

/-- A channel, the threads that hold copies of its opaque, and the history of its values. -/
structure State (n : Nat) (α : Type*) where
  /-- Whether the pointer in the opaque body is not `NULL`. -/
  ptr : Bool
  chan : Chan α
  /-- `chan->world`. -/
  world : World α
  /-- The mutex was left locked by an exception. -/
  locked : Bool
  /-- What `chan_finalizer` has destroyed so far. -/
  destroyed : List Resource
  pc : Fin n → Pc α
  /-- Values pushed by `send` and successful `trysend`, in push order. -/
  sent : List α
  /-- Values returned by `receive`, in receive order. -/
  received : List α

/-- One action of one thread, with the choices its scheduler makes. -/
inductive Event (n : Nat) (α : Type*) where
  | call (t : Fin n) (op : Op α)
  | callClose (t : Fin n)
  | callClosed (t : Fin n)
  /-- `pone_opaque_ptr(self)`. -/
  | fetch (t : Fin n)
  /-- A critical section; its `pthread_cond_signal` wakes the threads `wakes`. -/
  | critical (t : Fin n) (wakes : List (Fin n))
  /-- A spurious wake-up. -/
  | spurious (t : Fin n)
  /-- The `gc_requested` test at the end of `pone_chan_send`. -/
  | afterSend (t : Fin n)
  /-- `pone_gc_mark(chan->world)`. -/
  | mark (t : Fin n)
  /-- `pone_gc_collect(chan->world)`. -/
  | sweep (t : Fin n)
  /-- The next statement of `chan_finalizer`. -/
  | destroy (t : Fin n)
  /-- `pone_opaque_set_ptr(self, NULL)`. -/
  | clear (t : Fin n)
  /-- The program takes the result. -/
  | ret (t : Fin n)
  deriving DecidableEq

/-- `pone_chan_new`: an empty buffer, a zero counter, and every thread idle. -/
def chanNew {n : Nat} {α : Type*} (limit : Int) : State n α where
  ptr := true
  chan := { limit := limit, num := 0, buffer := [] }
  world := .worldNew
  locked := false
  destroyed := []
  pc := fun _ => .idle
  sent := []
  received := []

namespace Chan

variable {α : Type*}

/-- The wait condition of `pone_chan_send`. -/
def SendWaits (chan : Chan α) : Prop := chan.limit < chan.num

/-- The test of `pone_chan_trysend` fails. -/
def TrysendRefuses (chan : Chan α) : Prop := ¬ chan.limit > chan.num

instance (chan : Chan α) : Decidable chan.SendWaits := inferInstanceAs (Decidable (_ < _))

instance (chan : Chan α) : Decidable chan.TrysendRefuses :=
  inferInstanceAs (Decidable (¬ _ < _))

/-- `pone_ary_push` on the buffer, and the increment of the counter. -/
def push (chan : Chan α) (val : Ref α) : Chan α :=
  { chan with buffer := chan.buffer ++ [val], num := chan.num + 1 }

/-- `pone_ary_shift`, which throws on an empty array. -/
def aryShift : List (Ref α) → Except Exc (Ref α × List (Ref α))
  | [] => .error .emptyShift
  | val :: rest => .ok (val, rest)

end Chan

section Operations

variable {n : Nat} {α : Type*}

/-- Move one thread. -/
def State.setPc (s : State n α) (t : Fin n) (pc : Pc α) : State n α :=
  { s with pc := Function.update s.pc t pc }

/-- Senders wait on `recv_cond` and receivers on `send_cond`. -/
def waitsOn : Pc α → Option Resource
  | .waiting (.send _) => some .recvCond
  | .waiting .receive => some .sendCond
  | _ => none

/-- The woken side of `pthread_cond_wait`. -/
def wake : Pc α → Pc α
  | .waiting op => .woken op
  | pc => pc

/-- Wake some threads. -/
def State.wakeAll (s : State n α) (wakes : List (Fin n)) : State n α :=
  { s with pc := fun t => if t ∈ wakes then wake (s.pc t) else s.pc t }

/-- `pthread_cond_signal`: wakes some of the waiting threads, at least one if there is one. -/
def condSignal (cond : Resource) (wakes : List (Fin n)) (s : State n α) : Option (State n α) :=
  if (∀ t ∈ wakes, waitsOn (s.pc t) = some cond) ∧
      (wakes = [] → ∀ t, waitsOn (s.pc t) ≠ some cond) then
    some (s.wakeAll wakes)
  else
    none

/-- The values that the pointers in the buffer lead to. -/
def State.values (s : State n α) : List (Option α) := s.chan.buffer.map s.world.read

/-- The push shared by `pone_chan_send` and `pone_chan_trysend`.  A buffer that has been freed is not
followed further. -/
def push (copy : α → Option α) (inner : α → Option (List α)) (wakes : List (Fin n)) (val : α)
    (s : State n α) : Option (State n α) := do
  let copied ← copy val
  let stored := s.world.valCopy inner copied
  if stored.1.HoldsBuffer then
    condSignal .sendCond wakes
      { s with chan := s.chan.push stored.2, world := stored.1, sent := s.sent ++ [val] }
  else none

/-- The critical section of `pone_chan_send`. -/
def chanSend (copy : α → Option α) (inner : α → Option (List α)) (t : Fin n) (wakes : List (Fin n))
    (val : α) (s : State n α) : Option (State n α) :=
  if s.chan.SendWaits then
    some (s.setPc t (.waiting (.send val)))
  else do
    let pushed ← push copy inner wakes val s
    some (pushed.setPc t .unlocked)

/-- The critical section of `pone_chan_trysend`. -/
def chanTrysend (copy : α → Option α) (inner : α → Option (List α)) (t : Fin n)
    (wakes : List (Fin n)) (val : α) (s : State n α) : Option (State n α) :=
  if s.chan.TrysendRefuses then
    some (s.setPc t (.returned (.bool false)))
  else do
    let pushed ← push copy inner wakes val s
    some (pushed.setPc t (.returned (.bool true)))

/-- The critical section of `pone_chan_receive`.  An exception of `pone_ary_shift` leaves it by
`longjmp`, with the mutex locked.  A buffer that has been freed is not followed further. -/
def chanReceive (copy : α → Option α) (t : Fin n) (wakes : List (Fin n))
    (s : State n α) : Option (State n α) :=
  if s.chan.num = 0 then
    some (s.setPc t (.waiting .receive))
  else if s.world.HoldsBuffer then
    match Chan.aryShift s.chan.buffer with
    | .error e => some { s.setPc t (.returned (.raised e)) with locked := true }
    | .ok (ref, rest) => do
        let val ← s.world.read ref
        let copied ← copy val
        let shifted ← condSignal .recvCond wakes
          { s with
            chan := { s.chan with buffer := rest, num := s.chan.num - 1 }
            world := s.world.saveTmp ref
            received := s.received ++ [copied] }
        some (shifted.setPc t (.returned (.value copied)))
  else none

/-- The critical section of an operation. -/
def criticalSection (copy : α → Option α) (inner : α → Option (List α)) (t : Fin n)
    (wakes : List (Fin n)) : Op α → State n α → Option (State n α)
  | .send val => chanSend copy inner t wakes val
  | .trysend val => chanTrysend copy inner t wakes val
  | .receive => chanReceive copy t wakes

/-- The statement of `chan_finalizer` after the one that destroys a part. -/
def afterDestroy {α : Type*} : Resource → Pc α
  | .recvCond => .finalizing .sendCond
  | .sendCond => .finalizing .mutex
  | .mutex => .finalizing .world
  | .world => .finalizing .chan
  | .chan => .clearing

/-- One step.  `copy` is `pone_val_copy`; it is `none` where the copy aborts the process.  `inner` tells
which values a copy takes further slots for. -/
def step (copy : α → Option α) (inner : α → Option (List α)) (s : State n α) :
    Event n α → Option (State n α)
  | .call t op =>
      match s.pc t with
      | .idle => some (s.setPc t (.called op))
      | _ => none
  | .callClose t =>
      match s.pc t with
      | .idle => some (s.setPc t .calledClose)
      | _ => none
  | .callClosed t =>
      match s.pc t with
      | .idle => some (s.setPc t .calledClosed)
      | _ => none
  | .fetch t =>
      match s.pc t with
      | .called op =>
          some (s.setPc t (if s.ptr then .fetched op else .returned (.raised op.onClosed)))
      | .calledClose => some (s.setPc t (if s.ptr then .finalizing .recvCond else .clearing))
      | .calledClosed => some (s.setPc t (.returned (.bool !s.ptr)))
      | _ => none
  | .critical t wakes =>
      if s.locked then
        none
      else
        match s.pc t with
        | .fetched op | .woken op => criticalSection copy inner t wakes op s
        | _ => none
  | .spurious t =>
      match s.pc t with
      | .waiting op => some (s.setPc t (.woken op))
      | _ => none
  | .afterSend t =>
      match s.pc t with
      | .unlocked => some (s.setPc t (if s.world.gcRequested then .collecting else .returned .nil))
      | _ => none
  | .mark t =>
      match s.pc t with
      | .collecting => some { s.setPc t .marked with world := s.world.gcMark }
      | _ => none
  | .sweep t =>
      match s.pc t with
      | .marked => some { s.setPc t (.returned .nil) with world := s.world.gcCollect }
      | _ => none
  | .destroy t =>
      match s.pc t with
      | .finalizing part =>
          some { s.setPc t (afterDestroy part) with destroyed := s.destroyed ++ [part] }
      | _ => none
  | .clear t =>
      match s.pc t with
      | .clearing => some { s.setPc t (.returned .nil) with ptr := false }
      | _ => none
  | .ret t =>
      match s.pc t with
      | .returned _ => some (s.setPc t .idle)
      | _ => none

/-- The critical section that an event runs in a state, if it runs one. -/
def criticalOp (s : State n α) : Event n α → Option (Op α)
  | .critical t _ =>
      match s.pc t with
      | .fetched op | .woken op => some op
      | _ => none
  | _ => none

/-- The critical section of the operation pushes a value into the buffer. -/
def Op.Pushes (chan : Chan α) : Op α → Prop
  | .send _ => ¬ chan.SendWaits
  | .trysend _ => ¬ chan.TrysendRefuses
  | .receive => False

/-- The event is a critical section that pushes a value into the buffer. -/
def Pushes (s : State n α) (e : Event n α) : Prop :=
  match criticalOp s e with
  | some op => op.Pushes s.chan
  | none => False

instance (chan : Chan α) : (op : Op α) → Decidable (op.Pushes chan)
  | .send _ => inferInstanceAs (Decidable (¬ chan.SendWaits))
  | .trysend _ => inferInstanceAs (Decidable (¬ chan.TrysendRefuses))
  | .receive => .isFalse id

instance (s : State n α) (e : Event n α) : Decidable (Pushes s e) :=
  match taken : criticalOp s e with
  | some op => decidable_of_iff (op.Pushes s.chan) (by simp [Pushes, taken])
  | none => .isFalse (by simp [Pushes, taken])

/-- The event is the mark phase of a collection. -/
def Event.Marks (e : Event n α) : Prop := ∃ t, e = .mark t

instance : (e : Event n α) → Decidable e.Marks
  | .mark t => .isTrue ⟨t, rfl⟩
  | .call _ _ | .callClose _ | .callClosed _ | .fetch _ | .critical _ _ | .spurious _ | .afterSend _
  | .sweep _ | .destroy _ | .clear _ | .ret _ => .isFalse fun ⟨_, same⟩ => by cases same

/-- The event calls `meth_chan_close`. -/
def Event.closes : Event n α → Bool
  | .callClose _ => true
  | _ => false

/-- The thread that acts. -/
@[simp]
def Event.thread : Event n α → Fin n
  | .call t _ | .callClose t | .callClosed t | .fetch t | .critical t _ | .spurious t
  | .afterSend t | .mark t | .sweep t | .destroy t | .clear t | .ret t => t

/-- What the critical section of an operation touches. -/
def Op.uses (chan : Chan α) : Op α → List Resource
  | .send _ =>
      if chan.SendWaits then [.mutex, .chan, .recvCond] else [.mutex, .chan, .world, .sendCond]
  | .trysend _ =>
      if chan.TrysendRefuses then [.mutex, .chan] else [.mutex, .chan, .world, .sendCond]
  | .receive =>
      if chan.num = 0 then [.mutex, .chan, .sendCond] else [.mutex, .chan, .world, .recvCond]

/-- The parts of the channel that an event touches. -/
def uses (s : State n α) : Event n α → List Resource
  | .critical t _ =>
      match s.pc t with
      | .fetched op => op.uses s.chan
      | .woken op => (waitsOn (.waiting op)).toList ++ op.uses s.chan
      | _ => []
  | .spurious t => (waitsOn (s.pc t)).toList
  | .afterSend t =>
      match s.pc t with
      | .unlocked => [.chan, .world]
      | _ => []
  | .mark t =>
      match s.pc t with
      | .collecting => [.world]
      | _ => []
  | .sweep t =>
      match s.pc t with
      | .marked => [.world]
      | _ => []
  | .destroy t =>
      match s.pc t with
      | .finalizing part => [.chan, part]
      | _ => []
  | _ => []

end Operations

end Channel
end Pone
