import Mathlib.Logic.Function.Basic
import Pone.Execution

/-!
# Signals

`signal.notify` copies a channel and pushes it to the vector of its signal.  The signal thread waits
for any signal and offers it to the channels in its vector.  Both hold `signal_channels_mutex`, while
other threads may close the channels.
-/

namespace Pone
namespace Signal

/-- `PONE_SIGNAL_HANDLERS_SIZE` -/
def handlersSize : Int := 32

/-- A value: a channel, by the body that its copies share, code, or anything else. -/
inductive Val where
  | channel (body : Nat)
  | code
  | other
  deriving DecidableEq

/-- `pone_val_copy`, which aborts for code. -/
def Val.copy : Val → Option Val
  | .code => none
  | v => some v

/-- Where a thread is in `meth_signal_notify`. -/
inductive UserPc where
  | idle
  /-- Behind the check of the signal, in front of the lock. -/
  | called (chan : Val) (sig : Int)
  | locked (chan : Val) (sig : Int)
  | pushed
  deriving DecidableEq

/-- Where the signal thread is. -/
inductive SignalPc where
  | waiting
  /-- `sigwait` has returned. -/
  | caught (sig : Int)
  /-- In `handle`, without a channel for the signal. -/
  | raising (sig : Int)
  /-- In the loop of `handle`. -/
  | handling (sig : Int) (i : Nat)
  /-- `pone_chan_trysend` has thrown, where there is no handler, or has got something that is not a
  channel. -/
  | gone
  deriving DecidableEq

inductive Thread (τ : Type*) where
  | user (t : τ)
  | signal
  deriving DecidableEq

/-- What can be seen of the run. -/
inductive Label where
  | throws (message : String)
  | registered (sig : Int) (chan : Val)
  | delivers (sig : Int)
  /-- `pone_chan_trysend` -/
  | offers (sig : Int) (chan : Val)
  | delivered (sig : Int)
  deriving DecidableEq

/-- `universe->signal_channels`, where there is other memory outside of the table, its mutex, and the
threads. -/
structure State (τ : Type*) where
  signalChannels : Int → List Val
  mutex : Option (Thread τ)
  users : τ → UserPc
  signal : SignalPc
  /-- The channels that are closed. -/
  closed : Nat → Bool
  log : List Label

/-- An action of a thread. -/
inductive Event (τ : Type*) where
  | notify (t : τ) (chan : Val) (sig : Int)
  | lock (t : τ)
  | push (t : τ)
  | unlock (t : τ)
  | sigwait (sig : Nat)
  | lockSignal
  /-- The default action, where it does not end the process. -/
  | defaultAction
  | trysend
  | unlockSignal
  | close (body : Nat)
  deriving DecidableEq

variable {τ : Type*}

/-- `pone_universe_init` and `pone_signal_start_thread` -/
def start : State τ where
  signalChannels := fun _ => []
  mutex := none
  users := fun _ => .idle
  signal := .waiting
  closed := fun _ => false
  log := []

section Step

variable [DecidableEq τ]

/-- `meth_signal_notify` up to the lock -/
def notify (s : State τ) (t : τ) (chan : Val) (sig : Int) : State τ :=
  if handlersSize ≤ sig then
    { s with log := s.log ++ [.throws ("Invalid signal code: " ++ toString sig)] }
  else { s with users := Function.update s.users t (.called chan sig) }

/-- `kv_push` -/
def push (s : State τ) (t : τ) (copied : Val) (sig : Int) : State τ :=
  { s with
    signalChannels :=
      Function.update s.signalChannels sig (s.signalChannels sig ++ [copied])
    users := Function.update s.users t .pushed
    log := s.log ++ [.registered sig copied] }

/-- The beginning of `handle` -/
def handle (s : State τ) (sig : Int) : State τ :=
  { s with
    mutex := some .signal
    signal := if (s.signalChannels sig).length = 0 then .raising sig else .handling sig 0
    log := s.log ++ [.delivers sig] }

/-- `pone_chan_trysend` on an element of the vector; whether there is room in the channel does not
matter here. -/
def trysend (s : State τ) (sig : Int) (i : Nat) (chan : Val) : State τ :=
  let s : State τ := { s with log := s.log ++ [.offers sig chan] }
  match chan with
  | .channel body => { s with signal := if s.closed body then .gone else .handling sig (i + 1) }
  | _ => { s with signal := .gone }

/-- One step; `none` where the thread is not there, or has to wait. -/
def step (s : State τ) : Event τ → Option (State τ)
  | .notify t chan sig => if s.users t = .idle then some (notify s t chan sig) else none
  | .lock t =>
      match s.users t with
      | .called chan sig =>
          if s.mutex = none then
            some { s with
              mutex := some (.user t), users := Function.update s.users t (.locked chan sig) }
          else none
      | _ => none
  | .push t =>
      match s.users t with
      | .locked chan sig => chan.copy.map fun copied => push s t copied sig
      | _ => none
  | .unlock t =>
      match s.users t with
      | .pushed => some { s with mutex := none, users := Function.update s.users t .idle }
      | _ => none
  | .sigwait sig => if s.signal = .waiting then some { s with signal := .caught sig } else none
  | .lockSignal =>
      match s.signal with
      | .caught sig => if s.mutex = none then some (handle s sig) else none
      | _ => none
  | .defaultAction =>
      match s.signal with
      | .raising sig => some { s with signal := .handling sig 0 }
      | _ => none
  | .trysend =>
      match s.signal with
      | .handling sig i => (s.signalChannels sig)[i]?.map fun chan => trysend s sig i chan
      | _ => none
  | .unlockSignal =>
      match s.signal with
      | .handling sig i =>
          if i < (s.signalChannels sig).length then none
          else some { s with mutex := none, signal := .waiting, log := s.log ++ [.delivered sig] }
      | _ => none
  | .close body => some { s with closed := Function.update s.closed body true }

end Step

/-- The indices at which a step uses the table. -/
def uses (s : State τ) : Event τ → List Int
  | .push t =>
      match s.users t with
      | .locked _ sig => [sig]
      | _ => []
  | .lockSignal =>
      match s.signal with
      | .caught sig => [sig]
      | _ => []
  | .trysend | .unlockSignal =>
      match s.signal with
      | .handling sig _ => [sig]
      | _ => []
  | _ => []

def InTable (sig : Int) : Prop := 0 ≤ sig ∧ sig < handlersSize

instance (sig : Int) : Decidable (InTable sig) := inferInstanceAs (Decidable (_ ∧ _))

/-- The table is used inside of its bounds. -/
def InRange (s : State τ) (e : Event τ) : Prop := ∀ sig ∈ uses s e, InTable sig

/-- The channels that have been registered for a signal. -/
def registeredFor (sig : Int) (log : List Label) : List Val :=
  log.filterMap fun
    | .registered sig' chan => if sig' = sig then some chan else none
    | _ => none

/-- What has been offered, and for which signal. -/
def offered (log : List Label) : List (Int × Val) :=
  log.filterMap fun
    | .offers sig chan => some (sig, chan)
    | _ => none

/-- A signal is offered once to every channel that is registered for it, and to nothing else. -/
structure ExactlyOnce (log : List Label) : Prop where
  each : ∀ before during after sig,
    log = before ++ .delivers sig :: (during ++ .delivered sig :: after) →
    (∀ sig', .delivered sig' ∉ during) →
    offered during = (registeredFor sig before).map (sig, ·) ∧ (registeredFor sig before).Nodup
  others : ∀ before after sig chan,
    log = before ++ .offers sig chan :: after → chan ∈ registeredFor sig before

/-- The signal of a `notify` that does not throw is not negative and the value is a channel, which is
registered for the signal once.  Only signals of the table are caught, and a channel is open when a
signal is offered to it. -/
def Allowed (s : State τ) : Event τ → Prop
  | .notify _ chan sig => sig < handlersSize → 0 ≤ sig ∧ chan ≠ .code ∧ chan ≠ .other
  | .push t =>
      match s.users t with
      | .locked chan sig => chan ∉ s.signalChannels sig
      | _ => True
  | .sigwait sig => sig < handlersSize
  | .trysend =>
      match s.signal with
      | .handling sig i =>
          match (s.signalChannels sig)[i]? with
          | some (.channel body) => s.closed body = false
          | _ => True
      | _ => True
  | _ => True

/-! ## The registry -/

/-- What signals are for: the channels of each signal, and while one is delivered, those that are
still to come. -/
structure Registry where
  channels : Int → List Val
  delivery : Option (Int × List Val)

namespace Registry

def start : Registry where
  channels := fun _ => []
  delivery := none

/-- A delivery offers the signal to the channels in their order; in between, nothing is registered. -/
def step (r : Registry) : Label → Option Registry
  | .throws _ => some r
  | .registered sig chan =>
      if r.delivery = none ∧ chan ∉ r.channels sig then
        some { r with channels := Function.update r.channels sig (r.channels sig ++ [chan]) }
      else none
  | .delivers sig =>
      if r.delivery = none then some { r with delivery := some (sig, r.channels sig) } else none
  | .offers sig chan =>
      match r.delivery with
      | some (sig', next :: rest) =>
          if sig = sig' ∧ chan = next then some { r with delivery := some (sig', rest) } else none
      | _ => none
  | .delivered sig =>
      if r.delivery = some (sig, []) then some { r with delivery := none } else none

/-- No channel is there twice, and a delivery is to channels of its signal. -/
structure Sound (r : Registry) : Prop where
  nodup : ∀ sig, (r.channels sig).Nodup
  within : ∀ sig rest, r.delivery = some (sig, rest) → rest ⊆ r.channels sig

theorem sound_start : Sound start where
  nodup _ := List.nodup_nil
  within := nofun

theorem sound_step {r r' : Registry} {label : Label} (sound : Sound r)
    (taken : step r label = some r') : Sound r' := by
  cases label with
  | throws message =>
      obtain rfl := Option.some.inj taken
      exact sound
  | registered sig chan =>
      rw [step, Option.ite_none_right_eq_some] at taken
      obtain ⟨⟨idle, new⟩, taken⟩ := taken
      obtain rfl := Option.some.inj taken
      refine ⟨fun other => ?_, fun sig' rest delivery => ?_⟩
      · by_cases same : other = sig
        · subst same
          simp only [Function.update_self]
          refine List.nodup_append.mpr ⟨sound.nodup other, List.pairwise_singleton _ chan, ?_⟩
          intro v member w last
          rw [List.mem_singleton.mp last]
          exact fun same => new (same ▸ member)
        · simp only [Function.update_of_ne same]
          exact sound.nodup other
      · exact absurd (idle.symm.trans delivery) nofun
  | delivers sig =>
      rw [step, Option.ite_none_right_eq_some] at taken
      obtain ⟨idle, taken⟩ := taken
      obtain rfl := Option.some.inj taken
      refine ⟨sound.nodup, fun sig' rest delivery => ?_⟩
      cases delivery
      exact List.Subset.refl _
  | offers sig chan =>
      rw [step] at taken
      split at taken
      · rename_i sig' next rest delivery
        rw [Option.ite_none_right_eq_some] at taken
        obtain ⟨-, taken⟩ := taken
        obtain rfl := Option.some.inj taken
        refine ⟨sound.nodup, fun sig'' rest' delivery' => ?_⟩
        cases delivery'
        exact List.Subset.trans (List.subset_cons_self next rest) (sound.within _ _ delivery)
      · cases taken
  | delivered sig =>
      rw [step, Option.ite_none_right_eq_some] at taken
      obtain ⟨-, taken⟩ := taken
      obtain rfl := Option.some.inj taken
      exact ⟨sound.nodup, nofun⟩

theorem channels_step {r r' : Registry} {label : Label} (taken : step r label = some r')
    (sig : Int) : r'.channels sig = r.channels sig ++ registeredFor sig [label] := by
  cases label with
  | registered sig' chan =>
      rw [step, Option.ite_none_right_eq_some] at taken
      obtain ⟨-, taken⟩ := taken
      obtain rfl := Option.some.inj taken
      by_cases same : sig' = sig
      · subst same
        simp [registeredFor]
      · simp [registeredFor, same, Function.update_of_ne (Ne.symm same)]
  | offers sig' chan =>
      rw [step] at taken
      split at taken
      · rw [Option.ite_none_right_eq_some] at taken
        obtain rfl := Option.some.inj taken.2
        simp [registeredFor]
      · cases taken
  | throws message =>
      obtain rfl := Option.some.inj taken
      simp [registeredFor]
  | delivers sig' | delivered sig' =>
      rw [step, Option.ite_none_right_eq_some] at taken
      obtain rfl := Option.some.inj taken.2
      simp [registeredFor]

theorem channels_run {r r' : Registry} {log : List Label}
    (executed : Execution.run step r log = some r') (sig : Int) :
    r'.channels sig = r.channels sig ++ registeredFor sig log := by
  induction log generalizing r with
  | nil =>
      obtain rfl : r = r' := by simpa using executed
      simp [registeredFor]
  | cons label log ih =>
      obtain ⟨next, taken, rest⟩ := Execution.run_cons_iff.mp executed
      rw [ih rest, channels_step taken, List.append_assoc]
      simp only [registeredFor, ← List.filterMap_append, List.singleton_append]

/-- Until it ends, a delivery offers its signal to one channel after another. -/
theorem delivery_run {r r' : Registry} {during : List Label} {sig : Int} {rest : List Val}
    (begun : r.delivery = some (sig, rest)) (inside : ∀ sig', .delivered sig' ∉ during)
    (executed : Execution.run step r during = some r') :
    ∃ left, r'.delivery = some (sig, left) ∧
      rest.map (sig, ·) = offered during ++ left.map (sig, ·) := by
  induction during generalizing r rest with
  | nil =>
      obtain rfl : r = r' := by simpa using executed
      exact ⟨rest, begun, by simp [offered]⟩
  | cons label during ih =>
      obtain ⟨next, taken, later⟩ := Execution.run_cons_iff.mp executed
      have inside' : ∀ sig', .delivered sig' ∉ during :=
        fun sig' member => inside sig' (List.mem_cons_of_mem _ member)
      cases label with
      | throws message =>
          obtain rfl := Option.some.inj taken
          exact ih begun inside' later
      | registered sig' chan =>
          rw [step, begun] at taken
          simp at taken
      | delivers sig' =>
          rw [step, begun] at taken
          simp at taken
      | delivered sig' => exact absurd (List.mem_cons_self ..) (inside sig')
      | offers sig' chan =>
          rw [step, begun] at taken
          cases rest with
          | nil => cases taken
          | cons first rest =>
              simp only [Option.ite_none_right_eq_some] at taken
              obtain ⟨⟨rfl, rfl⟩, taken⟩ := taken
              obtain rfl := Option.some.inj taken
              obtain ⟨left, delivery, split⟩ := ih rfl inside' later
              refine ⟨left, delivery, ?_⟩
              rw [List.map_cons, split]
              rfl

/-- A registry offers every signal exactly once. -/
theorem exactlyOnce {r : Registry} {log : List Label}
    (executed : Execution.run step start log = some r) : ExactlyOnce log where
  each before during after sig whole inside := by
    subst whole
    obtain ⟨r₁, first, rest⟩ := Execution.run_append_iff.mp executed
    obtain ⟨r₂, begin_step, rest⟩ := Execution.run_cons_iff.mp rest
    obtain ⟨r₃, middle, rest⟩ := Execution.run_append_iff.mp rest
    obtain ⟨r₄, end_step, -⟩ := Execution.run_cons_iff.mp rest
    have sound := Execution.run_invariant sound_step sound_start first
    have channels : r₁.channels sig = registeredFor sig before := channels_run first sig
    simp only [step, Option.ite_none_right_eq_some] at begin_step end_step
    obtain ⟨-, begin_step⟩ := begin_step
    obtain rfl := Option.some.inj begin_step
    obtain ⟨left, delivery, split⟩ := delivery_run rfl inside middle
    obtain ⟨-, rfl⟩ := Prod.mk.inj (Option.some.inj (delivery.symm.trans end_step.1))
    rw [← channels, split, List.map_nil, List.append_nil]
    exact ⟨rfl, sound.nodup sig⟩
  others before after sig chan whole := by
    subst whole
    obtain ⟨r₁, first, rest⟩ := Execution.run_append_iff.mp executed
    obtain ⟨r₂, offer, -⟩ := Execution.run_cons_iff.mp rest
    have sound := Execution.run_invariant sound_step sound_start first
    have channels : r₁.channels sig = registeredFor sig before := channels_run first sig
    rw [step] at offer
    split at offer
    · rename_i sig' next rest delivery
      rw [Option.ite_none_right_eq_some] at offer
      obtain ⟨⟨rfl, rfl⟩, -⟩ := offer
      rw [← channels]
      exact sound.within _ _ delivery (List.mem_cons_self ..)
    · cases offer

end Registry

/-! ## The two threads and the registry -/

/-- The thread holds the mutex. -/
def Holds (s : State τ) : Thread τ → Prop
  | .user t =>
      match s.users t with
      | .locked _ _ | .pushed => True
      | _ => False
  | .signal =>
      match s.signal with
      | .raising _ | .handling _ _ => True
      | _ => False

/-- What the registry has of a delivery. -/
def delivery (s : State τ) : Option (Int × List Val) :=
  match s.signal with
  | .raising sig => some (sig, s.signalChannels sig)
  | .handling sig i => some (sig, (s.signalChannels sig).drop i)
  | _ => none

def registry (s : State τ) : Registry := { channels := s.signalChannels, delivery := delivery s }

def IsChannel (v : Val) : Prop := v ≠ .code ∧ v ≠ .other

/-- The signal and the value of a call that has passed the check. -/
def FineCall : UserPc → Prop
  | .called chan sig | .locked chan sig => InTable sig ∧ IsChannel chan
  | _ => True

/-- The signal of the signal thread. -/
def FineSignal : SignalPc → Prop
  | .waiting => True
  | .caught sig | .raising sig | .handling sig _ => InTable sig
  | .gone => False

structure Inv (s : State τ) : Prop where
  follows : Execution.run Registry.step Registry.start s.log = some (registry s)
  exclusive : ∀ thread, Holds s thread → s.mutex = some thread
  calls : ∀ t, FineCall (s.users t)
  signal : FineSignal s.signal
  channels : ∀ sig, ∀ chan ∈ s.signalChannels sig, IsChannel chan

theorem inv_start : Inv (start : State τ) where
  follows := rfl
  exclusive thread holds := by cases thread <;> exact holds.elim
  calls _ := trivial
  signal := trivial
  channels _ := nofun

/-- One more label. -/
theorem follows_snoc {log : List Label} {label : Label} {r r' : Registry}
    (follows : Execution.run Registry.step Registry.start log = some r)
    (taken : Registry.step r label = some r') :
    Execution.run Registry.step Registry.start (log ++ [label]) = some r' :=
  Execution.run_append_iff.mpr ⟨r, follows, Execution.run_cons_iff.mpr ⟨r', taken, rfl⟩⟩

theorem not_holds_signal {s : State τ} (inv : Inv s) {t : τ} (holds : Holds s (.user t)) :
    ¬ Holds s .signal := by
  intro signal
  exact absurd ((inv.exclusive _ holds).symm.trans (inv.exclusive _ signal)) nofun

theorem delivery_eq_none {s : State τ} (free : ¬ Holds s .signal) : delivery s = none := by
  rw [delivery]
  rw [Holds] at free
  split <;> simp_all

theorem inRange_of_inv {s : State τ} {e : Event τ} (inv : Inv s) : InRange s e := by
  intro sig used
  have fine := inv.signal
  cases e with
  | push t =>
      have call := inv.calls t
      cases pc : s.users t with
      | locked chan sig' =>
          rw [uses, pc, List.mem_singleton] at used
          rw [pc] at call
          rw [used]
          exact call.1
      | idle => simp [uses, pc] at used
      | called => simp [uses, pc] at used
      | pushed => simp [uses, pc] at used
  | lockSignal | trysend | unlockSignal =>
      cases pc : s.signal <;> rw [pc] at fine <;> simp_all [uses, FineSignal]
  | _ => simp [uses] at used

section Steps

variable [DecidableEq τ] {s s' : State τ}

theorem inv_notify {t : τ} {chan : Val} {sig : Int} (inv : Inv s)
    (allowed : Allowed s (.notify t chan sig)) (taken : step s (.notify t chan sig) = some s') :
    Inv s' := by
  rw [step, Option.ite_none_right_eq_some] at taken
  obtain ⟨idle, taken⟩ := taken
  obtain rfl := Option.some.inj taken
  rw [notify]
  split
  · exact ⟨follows_snoc inv.follows rfl, inv.exclusive, inv.calls, inv.signal, inv.channels⟩
  · rename_i small
    obtain ⟨nonneg, channel⟩ := allowed (Int.not_le.mp small)
    refine ⟨inv.follows, fun thread holds => inv.exclusive thread ?_, fun t' => ?_, inv.signal,
      inv.channels⟩
    · cases thread with
      | signal => exact holds
      | user t' =>
          by_cases same : t' = t
          · subst same
            simp [Holds] at holds
          · simpa [Holds, Function.update_of_ne same] using holds
    · by_cases same : t' = t
      · subst same
        simp only [Function.update_self]
        exact ⟨⟨nonneg, Int.not_le.mp small⟩, channel⟩
      · simp only [Function.update_of_ne same]
        exact inv.calls t'

/-- A thread moves on without a label. -/
theorem Inv.move {t : τ} {pc : UserPc} {mutex : Option (Thread τ)} (inv : Inv s)
    (call : FineCall pc)
    (exclusive : ∀ thread, Holds { s with mutex, users := Function.update s.users t pc } thread →
      mutex = some thread) :
    Inv { s with mutex, users := Function.update s.users t pc } where
  follows := inv.follows
  exclusive := exclusive
  calls t' := by
    by_cases same : t' = t
    · subst same
      simp only [Function.update_self]
      exact call
    · simp only [Function.update_of_ne same]
      exact inv.calls t'
  signal := inv.signal
  channels := inv.channels

theorem inv_lock {t : τ} (inv : Inv s) (taken : step s (.lock t) = some s') : Inv s' := by
  rw [step] at taken
  split at taken
  · rename_i chan sig before
    rw [Option.ite_none_right_eq_some] at taken
    obtain ⟨free, taken⟩ := taken
    obtain rfl := Option.some.inj taken
    have call := inv.calls t
    rw [before] at call
    refine inv.move call fun thread holds => ?_
    -- nobody holds the mutex but the thread that takes it
    have nobody (thread : Thread τ) : ¬ Holds s thread := fun holds =>
      absurd (free.symm.trans (inv.exclusive _ holds)) nofun
    cases thread with
    | signal => exact absurd holds (nobody .signal)
    | user t' =>
        by_cases same : t' = t
        · rw [same]
        · refine absurd ?_ (nobody (.user t'))
          simpa [Holds, Function.update_of_ne same] using holds
  · cases taken

theorem inv_unlock {t : τ} (inv : Inv s) (taken : step s (.unlock t) = some s') : Inv s' := by
  rw [step] at taken
  split at taken
  · rename_i before
    obtain rfl := Option.some.inj taken
    have mine : s.mutex = some (.user t) := inv.exclusive _ (by simp [Holds, before])
    refine inv.move trivial fun thread holds => ?_
    cases thread with
    | signal => exact absurd (mine.symm.trans (inv.exclusive .signal holds)) nofun
    | user t' =>
        by_cases same : t' = t
        · subst same
          simp [Holds] at holds
        · have holds' : Holds s (.user t') := by
            simpa [Holds, Function.update_of_ne same] using holds
          have mine' := mine.symm.trans (inv.exclusive _ holds')
          simp only [Option.some.injEq, Thread.user.injEq] at mine'
          exact absurd mine'.symm same
  · cases taken

theorem inv_push {t : τ} (inv : Inv s) (allowed : Allowed s (.push t))
    (taken : step s (.push t) = some s') : Inv s' := by
  rw [step] at taken
  split at taken
  · rename_i chan sig before
    have call := inv.calls t
    rw [before] at call
    have new : chan ∉ s.signalChannels sig := by simpa [Allowed, before] using allowed
    have mine : Holds s (.user t) := by simp [Holds, before]
    have idle : delivery s = none := delivery_eq_none (not_holds_signal inv mine)
    obtain ⟨copied, same_chan, taken⟩ := Option.map_eq_some_iff.mp taken
    obtain rfl : chan = copied := by
      cases chan with
      | code => cases same_chan
      | channel body => exact Option.some.inj same_chan
      | other => exact Option.some.inj same_chan
    subst taken
    have moved : registry (push s t chan sig) =
        { channels := Function.update s.signalChannels sig (s.signalChannels sig ++ [chan]),
          delivery := none } := by
      have still : delivery (push s t chan sig) = none := delivery_eq_none fun holds =>
        not_holds_signal inv mine holds
      rw [registry, still]
      rfl
    refine ⟨?_, fun thread holds => inv.exclusive thread ?_, fun t' => ?_, inv.signal,
      fun sig' v => ?_⟩
    · refine follows_snoc inv.follows ?_
      rw [moved, Registry.step, if_pos ⟨idle, new⟩, registry, idle]
    · cases thread with
      | signal => exact holds
      | user t' =>
          by_cases same : t' = t
          · rwa [same]
          · simpa [Holds, push, Function.update_of_ne same] using holds
    · by_cases same : t' = t
      · subst same
        simp [push, FineCall]
      · simp only [push, Function.update_of_ne same]
        exact inv.calls t'
    · by_cases same : sig' = sig
      · subst same
        simp only [push, Function.update_self, List.mem_append, List.mem_singleton]
        rintro (member | rfl)
        · exact inv.channels _ v member
        · exact call.2
      · simp only [push, Function.update_of_ne same]
        exact inv.channels sig' v
  · cases taken

end Steps

section SignalThread

variable {s : State τ}

/-- The signal thread moves on. -/
theorem Inv.moveSignal {pc : SignalPc} {log : List Label} {mutex : Option (Thread τ)} (inv : Inv s)
    (follows : Execution.run Registry.step Registry.start log =
      some (registry { s with mutex, signal := pc, log }))
    (exclusive : ∀ thread, Holds { s with mutex, signal := pc, log } thread → mutex = some thread)
    (fine : FineSignal pc) : Inv { s with mutex, signal := pc, log } where
  follows := follows
  exclusive := exclusive
  calls := inv.calls
  signal := fine
  channels := inv.channels

/-- The mutex is where it was. -/
theorem Inv.keep {pc : SignalPc} {log : List Label} (inv : Inv s) (holds : Holds s .signal)
    (thread : Thread τ) (held : Holds { s with signal := pc, log } thread) :
    s.mutex = some thread := by
  cases thread with
  | signal => exact inv.exclusive _ holds
  | user t => exact inv.exclusive (.user t) held

theorem inv_handle {sig : Int} (inv : Inv s) (caught : s.signal = .caught sig)
    (free : s.mutex = none) : Inv (handle s sig) := by
  have fine := inv.signal
  rw [caught] at fine
  have idle : delivery s = none := by rw [delivery, caught]
  refine inv.moveSignal ?_ (fun thread held => ?_) ?_
  · refine follows_snoc inv.follows ?_
    rw [Registry.step, registry, if_pos idle]
    by_cases empty : (s.signalChannels sig).length = 0
    · simp [registry, delivery, empty]
    · simp [registry, delivery, empty]
  · cases thread with
    | signal => rfl
    | user t => exact absurd (free.symm.trans (inv.exclusive (.user t) held)) nofun
  · split <;> exact fine

theorem inv_defaultAction {sig : Int} (inv : Inv s) (raising : s.signal = .raising sig) :
    Inv { s with signal := .handling sig 0 } := by
  have fine := inv.signal
  rw [raising] at fine
  have holds : Holds s .signal := by simp [Holds, raising]
  refine inv.moveSignal ?_ (fun thread held => inv.keep holds thread held) fine
  rw [inv.follows]
  simp [registry, delivery, raising]

theorem inv_trysend {sig : Int} {i : Nat} {chan : Val} (inv : Inv s)
    (handling : s.signal = .handling sig i) (here : (s.signalChannels sig)[i]? = some chan)
    (opened : ∀ body, chan = .channel body → s.closed body = false) :
    Inv (trysend s sig i chan) := by
  have fine := inv.signal
  rw [handling] at fine
  have holds : Holds s .signal := by simp [Holds, handling]
  obtain ⟨inside, at_i⟩ := List.getElem?_eq_some_iff.mp here
  have channel := inv.channels sig chan (List.mem_of_getElem? here)
  cases chan with
  | code => exact absurd rfl channel.1
  | other => exact absurd rfl channel.2
  | channel body =>
      have next : trysend s sig i (.channel body) =
          { s with
            signal := .handling sig (i + 1), log := s.log ++ [.offers sig (.channel body)] } := by
        simp [trysend, opened body rfl]
      rw [next]
      refine inv.moveSignal ?_ (fun thread held => inv.keep holds thread held) fine
      refine follows_snoc inv.follows ?_
      have first : (s.signalChannels sig).drop i =
          .channel body :: (s.signalChannels sig).drop (i + 1) := by
        rw [List.drop_eq_getElem_cons inside, at_i]
      simp [Registry.step, registry, delivery, handling, first]

theorem inv_unlockSignal {sig : Int} {i : Nat} (inv : Inv s)
    (handling : s.signal = .handling sig i) (beyond : ¬ i < (s.signalChannels sig).length) :
    Inv { s with mutex := none, signal := .waiting, log := s.log ++ [.delivered sig] } := by
  have holds : Holds s .signal := by simp [Holds, handling]
  refine inv.moveSignal ?_ (fun thread held => ?_) trivial
  · refine follows_snoc inv.follows ?_
    simp [Registry.step, registry, delivery, handling, List.drop_eq_nil_of_le (Nat.not_lt.mp beyond)]
  · cases thread with
    | signal => exact held.elim
    | user t =>
        have mine := (inv.exclusive _ holds).symm.trans (inv.exclusive (.user t) held)
        exact absurd mine nofun

end SignalThread

theorem inv_step [DecidableEq τ] {s s' : State τ} {e : Event τ} (inv : Inv s) (allowed : Allowed s e)
    (taken : step s e = some s') : Inv s' := by
  cases e with
  | notify t chan sig => exact inv_notify inv allowed taken
  | lock t => exact inv_lock inv taken
  | push t => exact inv_push inv allowed taken
  | unlock t => exact inv_unlock inv taken
  | sigwait sig =>
      rw [step, Option.ite_none_right_eq_some] at taken
      obtain ⟨waiting, taken⟩ := taken
      obtain rfl := Option.some.inj taken
      have idle : delivery s = none := by rw [delivery, waiting]
      refine inv.moveSignal ?_ (fun thread held => ?_) ⟨Int.natCast_nonneg sig, allowed⟩
      · rw [inv.follows, registry, idle]
        rfl
      · cases thread with
        | signal => exact held.elim
        | user t => exact inv.exclusive (.user t) held
  | lockSignal =>
      rw [step] at taken
      split at taken
      · rw [Option.ite_none_right_eq_some] at taken
        obtain rfl := Option.some.inj taken.2
        exact inv_handle inv ‹_› taken.1
      · cases taken
  | defaultAction =>
      rw [step] at taken
      split at taken
      · obtain rfl := Option.some.inj taken
        exact inv_defaultAction inv ‹_›
      · cases taken
  | trysend =>
      rw [step] at taken
      split at taken
      · rename_i sig i handling
        obtain ⟨chan, here, rfl⟩ := Option.map_eq_some_iff.mp taken
        refine inv_trysend inv handling here fun body same => ?_
        simpa [Allowed, handling, here, same] using allowed
      · cases taken
  | unlockSignal =>
      rw [step] at taken
      split at taken
      · split at taken
        · cases taken
        · obtain rfl := Option.some.inj taken
          exact inv_unlockSignal inv ‹_› ‹_›
      · cases taken
  | close body =>
      obtain rfl := Option.some.inj taken
      exact ⟨inv.follows, inv.exclusive, inv.calls, inv.signal, inv.channels⟩

/-- In a run of allowed steps, the table is used inside of its bounds, and signals are offered to
the channels that are registered for them, to each exactly once. -/
theorem signals_delivered [DecidableEq τ] (events : List (Event τ))
    (allowed : Execution.Along step Allowed start events) :
    Execution.Along step InRange start events ∧
      Execution.Always step (fun s => ExactlyOnce s.log) start events :=
  ⟨allowed.of_invariant inv_step (fun inv _ => inRange_of_inv inv) inv_start,
    .of_invariant inv_step (fun inv => Registry.exactlyOnce inv.follows) inv_start allowed⟩

/-- A channel is registered for signal 2, and the signal comes. -/
def interrupted : List (Event Unit) :=
  [.notify () (.channel 0) 2, .lock (), .sigwait 2, .push (), .unlock (), .lockSignal, .trysend,
    .unlockSignal]

theorem signals_delivered_interrupted :
    Execution.Along step InRange start interrupted ∧
      Execution.Always step (fun s => ExactlyOnce s.log) start interrupted :=
  signals_delivered interrupted (by
    simp [interrupted, Execution.Along, step, Allowed, start, notify, push, handle, trysend,
      handlersSize, Val.copy])

/-- A negative signal passes the check of `signal.notify`, and a real-time signal is not checked. -/
theorem not_signals_inRange :
    ¬ Execution.Along step InRange (start : State Unit)
        [.notify () (.channel 0) (-1), .lock (), .push ()] ∧
      ¬ Execution.Along step InRange (start : State Unit) [.sigwait 34, .lockSignal] := by
  constructor
  · simp [Execution.Along, step, InRange, InTable, uses, start, notify, handlersSize]
  · simp [Execution.Along, step, InRange, InTable, uses, start, handlersSize]

end Signal
end Pone
