import Mathlib.Data.Finset.Card
import Pone.Channel.Fifo

/-!
# No wake-up of a channel is lost

Each push signals `send_cond` once and each shift signals `recv_cond` once, and a thread that
arrives later may take what a woken thread was signalled for.  The invariant counts: while a thread
waits on a condition variable, there are at least as many woken threads of its kind as there are
items, or free places, that such a thread could take.
-/

namespace Pone
namespace Channel

variable {n : Nat} {α : Type*} {copy : α → Option α} {inner : α → Option (List α)}

/-- The condition variable that a woken thread waited on. -/
def wokenFrom : Pc α → Option Resource
  | .woken op => waitsOn (.waiting op)
  | _ => none

/-- The items that receivers could take, and the places that senders could fill. -/
def slack (chan : Chan α) : Resource → Int
  | .sendCond => chan.num
  | .recvCond => chan.limit + 1 - chan.num
  | _ => 0

/-- The threads that a condition variable has woken and that do not hold the mutex yet. -/
def wokenThreads (s : State n α) (cond : Resource) : Finset (Fin n) :=
  Finset.univ.filter fun t => wokenFrom (s.pc t) = some cond

/-- Where a thread waits on the condition variable, each item or place has a woken thread. -/
def Covered (s : State n α) (cond : Resource) : Prop :=
  (∃ t, waitsOn (s.pc t) = some cond) → slack s.chan cond ≤ (wokenThreads s cond).card

/-- No receiver waits beside an item and no sender beside a free place, unless a woken thread of
its kind is on its way. -/
structure NoLostWakeup (s : State n α) : Prop where
  receivers : (∃ t, s.pc t = .waiting .receive) → s.chan.buffer ≠ [] →
    ∃ t, s.pc t = .woken .receive
  senders : (∃ t val, s.pc t = .waiting (.send val)) → s.chan.num ≤ s.chan.limit →
    ∃ t val, s.pc t = .woken (.send val)

theorem waitsOn_ne_none {pc : Pc α} {cond : Resource} (waits : waitsOn pc = some cond) :
    ∃ op, pc = .waiting op := by
  cases pc with
  | waiting op => exact ⟨op, rfl⟩
  | idle | called op | fetched op | woken op | unlocked | collecting | marked | calledClose | calledClosed
  | finalizing part | clearing | returned result => cases waits

theorem mem_wokenThreads {s : State n α} {cond : Resource} {t : Fin n} :
    t ∈ wokenThreads s cond ↔ wokenFrom (s.pc t) = some cond := by
  simp [wokenThreads]

/-- A thread that moves keeps the cover of a condition variable, where it starts to wait and gives
its wake-up back only when there is nothing to take. -/
theorem covered_setPc {s : State n α} {t : Fin n} {pc : Pc α} {cond : Resource}
    (covered : Covered s cond)
    (waits : waitsOn pc = some cond → slack s.chan cond ≤ 0)
    (wakes : wokenFrom (s.pc t) = some cond → wokenFrom pc = some cond ∨ slack s.chan cond ≤ 0) :
    Covered (s.setPc t pc) cond := by
  rintro ⟨waiter, waiting⟩
  rw [setPc_chan]
  by_cases nothing : slack s.chan cond ≤ 0
  · omega
  have others : waiter ≠ t := by
    rintro rfl
    rw [setPc_pc_self] at waiting
    exact nothing (waits waiting)
  rw [setPc_pc_other pc others] at waiting
  have enough := covered ⟨waiter, waiting⟩
  have kept : wokenThreads s cond ⊆ wokenThreads (s.setPc t pc) cond := by
    intro other woken
    rw [mem_wokenThreads] at woken ⊢
    by_cases same : other = t
    · subst same
      rw [setPc_pc_self]
      exact (wakes woken).resolve_right nothing
    · rwa [setPc_pc_other pc same]
  have := Finset.card_le_card kept
  omega

/-- The state after a critical section that changes the queue, signals and ends its operation. -/
def State.signalled (s : State n α) (chan : Chan α) (wakes : List (Fin n)) (t : Fin n)
    (pc : Pc α) : State n α :=
  (State.wakeAll { s with chan := chan } wakes).setPc t pc

/-- A thread that waits after a signal waited before it, and was not woken. -/
theorem waits_before {s : State n α} {chan : Chan α} {wakes : List (Fin n)} {t waiter : Fin n}
    {pc : Pc α} {cond : Resource} (ended : waitsOn pc = none)
    (waiting : waitsOn ((s.signalled chan wakes t pc).pc waiter) = some cond) :
    waitsOn (s.pc waiter) = some cond := by
  have others : waiter ≠ t := by
    rintro rfl
    simp [State.signalled, ended] at waiting
  rw [State.signalled, setPc_pc_other pc others] at waiting
  simp only [State.wakeAll] at waiting
  split at waiting
  · cases at_waiter : s.pc waiter <;> simp [at_waiter, wake, waitsOn] at waiting
  · exact waiting

/-- The threads woken earlier stay woken, the one that acts apart. -/
theorem wokenThreads_erase_subset (s : State n α) (chan : Chan α) (wakes : List (Fin n))
    (t : Fin n) (pc : Pc α) (cond : Resource) :
    (wokenThreads s cond).erase t ⊆ wokenThreads (s.signalled chan wakes t pc) cond := by
  intro other member
  obtain ⟨different, woken⟩ := Finset.mem_erase.mp member
  rw [mem_wokenThreads] at woken ⊢
  rw [State.signalled, setPc_pc_other pc different]
  simp only [State.wakeAll]
  split
  · cases at_other : s.pc other <;> simp_all [wake, wokenFrom]
  · exact woken

/-- The condition variable that is signalled gains one item or place, and at least one woken
thread if any thread waits. -/
theorem covered_signal {s : State n α} {chan : Chan α} {wakes : List (Fin n)} {t : Fin n}
    {pc : Pc α} {cond : Resource} (covered : Covered s cond)
    (gained : slack chan cond = slack s.chan cond + 1) (ended : waitsOn pc = none)
    (acting : waitsOn (s.pc t) = none) (not_woken : wokenFrom (s.pc t) ≠ some cond)
    (waiters : ∀ t ∈ wakes, waitsOn (s.pc t) = some cond)
    (some_woken : wakes = [] → ∀ t, waitsOn (s.pc t) ≠ some cond) :
    Covered (s.signalled chan wakes t pc) cond := by
  rintro ⟨waiter, waiting⟩
  have waited := waits_before ended waiting
  have enough := covered ⟨waiter, waited⟩
  cases wakes with
  | nil => exact absurd waited (some_woken rfl waiter)
  | cons first rest =>
      have first_waits := waiters first (by simp)
      obtain ⟨op, at_first⟩ := waitsOn_ne_none first_waits
      have first_other : first ≠ t := by
        rintro rfl
        rw [acting] at first_waits
        cases first_waits
      have first_new : first ∉ wokenThreads s cond := by
        rw [mem_wokenThreads, at_first]
        simp [wokenFrom]
      have first_woken : first ∈ wokenThreads (s.signalled chan (first :: rest) t pc) cond := by
        rw [mem_wokenThreads, State.signalled, setPc_pc_other pc first_other]
        simpa [State.wakeAll, at_first, wake, wokenFrom] using first_waits
      have kept := wokenThreads_erase_subset s chan (first :: rest) t pc cond
      rw [Finset.erase_eq_of_notMem fun member => not_woken (mem_wokenThreads.mp member)] at kept
      have grown := Finset.card_le_card (Finset.insert_subset first_woken kept)
      rw [Finset.card_insert_of_notMem first_new] at grown
      change slack chan cond ≤ _
      omega

/-- The other condition variable loses one item or place, and at most the thread that acts. -/
theorem covered_take {s : State n α} {chan : Chan α} {wakes : List (Fin n)} {t : Fin n}
    {pc : Pc α} {cond : Resource} (covered : Covered s cond)
    (taken : slack chan cond = slack s.chan cond - 1) (ended : waitsOn pc = none) :
    Covered (s.signalled chan wakes t pc) cond := by
  rintro ⟨waiter, waiting⟩
  have enough := covered ⟨waiter, waits_before ended waiting⟩
  have kept := Finset.card_le_card (wokenThreads_erase_subset s chan wakes t pc cond)
  have erased := Finset.pred_card_le_card_erase (a := t) (s := wokenThreads s cond)
  change slack chan cond ≤ _
  omega

/-- Every item and every free place is covered. -/
def AllCovered (s : State n α) : Prop := Covered s .sendCond ∧ Covered s .recvCond

theorem condSignal_spec {cond : Resource} {wakes : List (Fin n)} {s s' : State n α}
    (signalled : condSignal cond wakes s = some s') :
    (∀ t ∈ wakes, waitsOn (s.pc t) = some cond) ∧
      (wakes = [] → ∀ t, waitsOn (s.pc t) ≠ some cond) ∧ s' = s.wakeAll wakes := by
  unfold condSignal at signalled
  split at signalled
  · rename_i allowed
    exact ⟨allowed.1, allowed.2, (Option.some.inj signalled).symm⟩
  · cases signalled

/-- A cover does not read the history. -/
theorem covered_congr {s s' : State n α} {cond : Resource} (chan : s'.chan = s.chan)
    (pc : s'.pc = s.pc) (covered : Covered s cond) : Covered s' cond := by
  rw [Covered, wokenThreads, chan, pc]
  exact covered

/-- The operation that a thread is about to run when it gets the mutex. -/
def Enters (pc : Pc α) (op : Op α) : Prop := pc = .fetched op ∨ pc = .woken op

theorem Enters.not_waiting {pc : Pc α} {op : Op α} (enters : Enters pc op) :
    waitsOn pc = none := by
  rcases enters with rfl | rfl <;> rfl

theorem Enters.wokenFrom {pc : Pc α} {op : Op α} {cond : Resource} (enters : Enters pc op)
    (woken : wokenFrom pc = some cond) : waitsOn (.waiting op) = some cond := by
  rcases enters with rfl | rfl
  · cases woken
  · exact woken

theorem push_covered {s pushed : State n α} {t : Fin n} {wakes : List (Fin n)} {val : α}
    {pc : Pc α} (covered : AllCovered s) (acting : waitsOn (s.pc t) = none)
    (not_woken : wokenFrom (s.pc t) ≠ some .sendCond) (ended : waitsOn pc = none)
    (taken : push copy inner wakes val s = some pushed) : AllCovered (pushed.setPc t pc) := by
  obtain ⟨copied, copies, signalling⟩ := push_eq_some taken
  obtain ⟨waiters, some_woken, rfl⟩ := condSignal_spec signalling
  let chan := s.chan.push (s.world.valCopy inner copied).2
  have signalled : Covered (s.signalled chan wakes t pc) .sendCond :=
    covered_signal covered.1 rfl ended acting not_woken waiters some_woken
  have took : Covered (s.signalled chan wakes t pc) .recvCond :=
    covered_take covered.2 (by simp only [chan, slack, Chan.push]; omega) ended
  exact ⟨covered_congr rfl rfl signalled, covered_congr rfl rfl took⟩

theorem chanReceive_covered {s s' : State n α} {t : Fin n} {wakes : List (Fin n)}
    (covered : AllCovered s) (counted : Counted s) (enters : Enters (s.pc t) .receive)
    (taken : chanReceive copy t wakes s = some s') : AllCovered s' := by
  rcases chanReceive_eq_some taken with ⟨empty, rfl⟩ | ⟨counts, empty, -⟩ |
    ⟨ref, rest, val, copied, shifted, -, -, -, signalled, rfl⟩
  · refine ⟨covered_setPc covered.1 (fun _ => ?_) (fun _ => .inr ?_),
      covered_setPc covered.2 (fun waits => ?_) (fun woken => ?_)⟩
    · exact empty.le
    · exact empty.le
    · cases waits
    · cases enters.wokenFrom woken
  · have num_eq := counted.num_eq
    rw [empty] at num_eq
    exact absurd num_eq counts
  · obtain ⟨waiters, some_woken, rfl⟩ := condSignal_spec signalled
    have not_woken : wokenFrom (s.pc t) ≠ some .recvCond := by
      intro woken
      cases enters.wokenFrom woken
    have took : Covered (s.signalled { s.chan with buffer := rest, num := s.chan.num - 1 }
        wakes t (.returned (.value copied))) .sendCond := covered_take covered.1 rfl rfl
    have signal : Covered (s.signalled { s.chan with buffer := rest, num := s.chan.num - 1 }
        wakes t (.returned (.value copied))) .recvCond :=
      covered_signal covered.2 (by simp only [slack]; omega) rfl enters.not_waiting not_woken
        waiters some_woken
    exact ⟨covered_congr rfl rfl took, covered_congr rfl rfl signal⟩

theorem criticalSection_covered {s s' : State n α} {t : Fin n} {wakes : List (Fin n)} {op : Op α}
    (covered : AllCovered s) (counted : Counted s) (enters : Enters (s.pc t) op)
    (taken : criticalSection copy inner t wakes op s = some s') : AllCovered s' := by
  cases op with
  | receive => exact chanReceive_covered covered counted enters taken
  | send val =>
      simp only [criticalSection, chanSend] at taken
      split at taken
      · rename_i full
        obtain rfl := Option.some.inj taken
        have nothing : slack s.chan .recvCond ≤ 0 := by
          simp only [Chan.SendWaits] at full
          simp only [slack]
          omega
        refine ⟨covered_setPc covered.1 (fun waits => ?_) (fun woken => ?_),
          covered_setPc covered.2 (fun _ => nothing) (fun _ => .inr nothing)⟩
        · cases waits
        · cases enters.wokenFrom woken
      · obtain ⟨pushed, push_taken, final⟩ := Option.bind_eq_some_iff.mp taken
        obtain rfl := Option.some.inj final
        refine push_covered covered enters.not_waiting (fun woken => ?_) rfl push_taken
        cases enters.wokenFrom woken
  | trysend val =>
      have not_woken (cond : Resource) : wokenFrom (s.pc t) ≠ some cond := by
        intro woken
        cases enters.wokenFrom woken
      simp only [criticalSection, chanTrysend] at taken
      split at taken
      · obtain rfl := Option.some.inj taken
        exact ⟨covered_setPc covered.1 (fun waits => by cases waits)
            (fun woken => absurd woken (not_woken _)),
          covered_setPc covered.2 (fun waits => by cases waits)
            (fun woken => absurd woken (not_woken _))⟩
      · obtain ⟨pushed, push_taken, final⟩ := Option.bind_eq_some_iff.mp taken
        obtain rfl := Option.some.inj final
        exact push_covered covered enters.not_waiting (not_woken _) rfl push_taken

/-- A step outside the critical sections neither starts to wait nor gives a wake-up back. -/
theorem covered_move {s s' : State n α} {t : Fin n} {pc : Pc α} (covered : AllCovered s)
    (chan : s'.chan = s.chan) (moved : s'.pc = (s.setPc t pc).pc)
    (waits : waitsOn pc = none) (wakes : wokenFrom (s.pc t) = none) : AllCovered s' := by
  have kept (cond : Resource) (one : Covered s cond) : Covered s' cond := by
    refine covered_congr (s := s.setPc t pc) chan moved (covered_setPc one (fun waiting => ?_) ?_)
    · rw [waits] at waiting
      cases waiting
    · intro woken
      rw [wakes] at woken
      cases woken
  exact ⟨kept _ covered.1, kept _ covered.2⟩

theorem step_covered {s s' : State n α} {e : Event n α} (covered : AllCovered s)
    (counted : Counted s) (taken : step copy inner s e = some s') : AllCovered s' := by
  cases e with
  | critical t wakes =>
      simp only [step] at taken
      split at taken
      · cases taken
      · split at taken
        · rename_i at_op
          exact criticalSection_covered covered counted (.inl at_op) taken
        · rename_i at_op
          exact criticalSection_covered covered counted (.inr at_op) taken
        · cases taken
  | fetch t =>
      simp only [step] at taken
      split at taken <;> cases taken <;> rename_i at_thread
      · refine covered_move covered rfl rfl ?_ (by rw [at_thread]; rfl)
        split <;> rfl
      · refine covered_move covered rfl rfl ?_ (by rw [at_thread]; rfl)
        split <;> rfl
      · exact covered_move covered rfl rfl rfl (by rw [at_thread]; rfl)
  | destroy t =>
      simp only [step] at taken
      split at taken <;> cases taken
      rename_i part at_thread
      refine covered_move covered rfl rfl ?_ (by rw [at_thread]; rfl)
      cases part <;> rfl
  | spurious t =>
      simp only [step] at taken
      split at taken <;> cases taken
      rename_i op at_thread
      have keeps {cond : Resource} (one : Covered s cond) : Covered (s.setPc t (.woken op)) cond :=
        covered_setPc one (fun waits => by cases waits) fun woken => by
          rw [at_thread] at woken
          cases woken
      exact ⟨keeps covered.1, keeps covered.2⟩
  | afterSend t =>
      simp only [step] at taken
      split at taken <;> cases taken
      rename_i at_thread
      refine covered_move covered rfl rfl ?_ (by rw [at_thread]; rfl)
      split <;> rfl
  | call t | callClose t | callClosed t | mark t | sweep t | ret t | clear t =>
      simp only [step] at taken
      split at taken <;> cases taken
      rename_i at_thread
      exact covered_move covered rfl rfl rfl (by rw [at_thread]; rfl)

theorem chanNew_covered (limit : Int) : AllCovered (chanNew limit : State n α) := by
  constructor <;> rintro ⟨t, waits⟩ <;> cases waits

/-- While a thread waits beside something to take, a woken thread of its kind is on its way. -/
theorem Covered.exists_woken {s : State n α} {cond : Resource} (covered : Covered s cond)
    {t : Fin n} (waits : waitsOn (s.pc t) = some cond) (available : 0 < slack s.chan cond) :
    ∃ other op, s.pc other = .woken op ∧ waitsOn (.waiting op) = some cond := by
  have enough := covered ⟨t, waits⟩
  obtain ⟨other, member⟩ := Finset.card_pos.mp
    (show 0 < (wokenThreads s cond).card by omega)
  rw [mem_wokenThreads] at member
  cases at_other : s.pc other with
  | woken op =>
      rw [at_other] at member
      exact ⟨other, op, at_other, member⟩
  | idle | called op | fetched op | waiting op | unlocked | collecting | marked | calledClose | calledClosed
  | finalizing part | clearing | returned result => simp [at_other, wokenFrom] at member

theorem NoLostWakeup.of_covered {s : State n α} (covered : AllCovered s) (counted : Counted s) :
    NoLostWakeup s where
  receivers := by
    rintro ⟨t, waiting⟩ items
    have filled : 0 < s.chan.buffer.length := List.length_pos_iff.mpr items
    have num_eq := counted.num_eq
    have available : 0 < slack s.chan .sendCond := by
      simp only [slack]
      omega
    obtain ⟨other, op, woken, kind⟩ := covered.1.exists_woken (by rw [waiting]; rfl) available
    cases op with
    | receive => exact ⟨other, woken⟩
    | send val | trysend val => cases kind
  senders := by
    rintro ⟨t, val, waiting⟩ free
    have available : 0 < slack s.chan .recvCond := by
      simp only [slack]
      omega
    obtain ⟨other, op, woken, kind⟩ := covered.2.exists_woken (by rw [waiting]; rfl) available
    cases op with
    | send val => exact ⟨other, val, woken⟩
    | receive | trysend val => cases kind

/-- In every interleaving of senders and receivers on an open channel, with spurious wake-ups and
signals that wake any number of waiting threads, no wake-up is lost. -/
theorem chan_wakeups (copy : α → Option α) (inner : α → Option (List α)) (limit : Int)
    (events : List (Event n α)) {s : State n α} (opened : ∀ e ∈ events, e.closes = false)
    (executed : Execution.run (step copy inner) (chanNew limit) events = some s) :
    Open s ∧ NoLostWakeup s := by
  have preserved {s s' : State n α} {e : Event n α} (both : AllCovered s ∧ Counted s)
      (taken : step copy inner s e = some s') : AllCovered s' ∧ Counted s' :=
    ⟨step_covered both.1 both.2 taken, counted_step both.2 taken⟩
  have both := Execution.run_invariant preserved
    ⟨chanNew_covered limit, chanNew_counted limit⟩ executed
  exact ⟨open_run (chanNew_open limit) opened executed, .of_covered both.1 both.2⟩

/-- Two receivers wait, a signal wakes one of them, and a third thread takes the item first. -/
def overtaken : List (Event 4 Nat) :=
  [.call 0 .receive, .fetch 0, .critical 0 [], .call 1 .receive, .fetch 1, .critical 1 [],
    .call 2 (.send 7), .fetch 2, .critical 2 [0], .call 3 .receive, .fetch 3, .critical 3 []]

theorem chan_wakeups_overtaken :
    ∃ s, Execution.run (step some elements) (chanNew 1) overtaken = some s ∧ Open s ∧ NoLostWakeup s :=
  ⟨_, rfl, chan_wakeups some elements 1 overtaken (by decide) rfl⟩

end Channel
end Pone
