import Pone.Heap.Closure
import Pone.Heap.Interference
import Pone.Heap.Placement

/-!
# What a value sent or a closure started has in common with its source

`pone_val_copy` and `copy_code` promise that threads share nothing.  They keep the promise exactly
when what they copy by pointer leads to nothing that can change and to nothing that the sender can free.
-/

namespace Pone
namespace Heap

section Isolation

variable {κ : Type} [DecidableEq κ]

/-- How a value gets from one thread to another. -/
inductive Transfer where
  /-- Channels and `signal.notify`, by `pone_val_copy`. -/
  | send
  /-- `pone_thread_start`, by `copy_code`. -/
  | start
  deriving DecidableEq

def transfer : Transfer → Nat → Nat → Universe κ → Ref → Option (Universe κ × Ref)
  | .send => valCopy
  | .start => copyCode

/-- The pointers that the transfer copies without what they point to. -/
def Leaking : Transfer → Universe κ → Ref → Ref → Prop
  | .send => Leaks
  | .start => Captures

/-- Each live value can be transferred; all other changes are operations. -/
inductive Reached : Universe κ → Prop where
  | init : Reached universeInit
  | op {u u' : Universe κ} {op : Op κ} (before : Reached u) (taken : step u op = some u') : Reached u'
  | transfer {u u' : Universe κ} {how : Transfer} {world fuel : Nat} {source copy : Ref}
      (before : Reached u)
      (live : Sharing.Live (sharing u.classClass) u.value [source])
      (moved : transfer how world fuel u source = some (u', copy)) : Reached u'

/-- No array, map, string, lex or object that is not a class is reached from both. -/
def SharesNothing (u : Universe κ) (source copy : Ref) : Prop :=
  ∀ target v, u.value target = some v → v.mutable u.classClass = true →
    Sharing.Reaches (sharing u.classClass) u.value [source] target →
    ¬ Sharing.Reaches (sharing u.classClass) u.value [copy] target

inductive Party where
  | sender
  | receiver
  deriving DecidableEq

def partyWorld (home world : Nat) : Party → Nat
  | .sender => home
  | .receiver => world

/-- The sender with the source and the receiver with the copy. -/
def parties (u : Universe κ) (source copy : Ref) : Threads Party κ where
  heap := u
  held
    | .sender => [source]
    | .receiver => [copy]

/-- Nothing is shared, and neither thread sees what the other one does. -/
def Isolated (u : Universe κ) (home world : Nat) (source copy : Ref) : Prop :=
  SharesNothing u source copy ∧ (parties u source copy).NonInterfering (partyWorld home world)

variable {u u' : Universe κ} {how : Transfer} {home world fuel : Nat} {source copy leak : Ref}

theorem Leaking.reaches (leaking : Leaking how u source leak) :
    Sharing.Reaches (sharing u.classClass) u.value [source] leak := by
  cases how with
  | send => exact Leaks.reaches leaking
  | start => exact Captures.reaches leaking

theorem transfer_confined (wellFormed : u.WellFormed)
    (live : Sharing.Live (sharing u.classClass) u.value [source])
    (moved : transfer how world fuel u source = some (u', copy)) :
    Grown u u' ∧
      Sharing.Confined (sharing u.classClass) (Leaking how u source) u.value u.value u'.value copy ∧
      ∀ leak, Leaking how u source leak →
        Sharing.Reaches (sharing u.classClass) u'.value [copy] leak := by
  cases how with
  | send =>
      have copied := valCopy_copies u world fuel ⟨wellFormed, rfl, fun _ _ => rfl⟩ live moved
      refine ⟨copied.grown, copied.settled.confined, fun leak leaking =>
        (copied.settled.carries leak leaking).widen ?_⟩
      rintro parent child ⟨v, found, pointer⟩
      simp only [added] at found
      split at found
      · cases found
      · exact ⟨v, found, pointer⟩
  | start => exact copyCode_copied wellFormed live moved

theorem transfer_inside (moved : transfer how world fuel u source = some (u', copy)) :
    Inside world u u' := by
  cases how with
  | send => exact valCopy_inside moved
  | start => exact copyCode_inside moved

theorem Reached.wellFormed (reached : Reached u) : u.WellFormed := by
  induction reached with
  | init => exact fun world w found => by cases found
  | op _ taken ih => exact wellFormed_step ih taken
  | transfer _ live moved ih => exact (transfer_confined ih live moved).1.wellFormed

theorem Reached.run {ops : List (Op κ)} (reached : Reached u)
    (executed : Execution.run step u ops = some u') : Reached u' :=
  Execution.run_invariant (fun before taken => before.op taken) reached executed

omit [DecidableEq κ] in
/-- Threads that are apart share nothing, and they are isolated; and conversely. -/
theorem isolated_iff_apart (wellFormed : u.WellFormed) (apart : home ≠ world)
    (live_source : Sharing.Live (sharing u.classClass) u.value [source])
    (live_copy : Sharing.Live (sharing u.classClass) u.value [copy]) :
    Isolated u home world source copy ↔
      Sharing.Apart (sharing u.classClass) u.value [source] [copy] ∧
      (∀ target, Collectable u world target →
        ¬ Sharing.Reaches (sharing u.classClass) u.value [source] target) ∧
      ∀ target, Collectable u home target →
        ¬ Sharing.Reaches (sharing u.classClass) u.value [copy] target := by
  constructor
  · rintro ⟨nothing, quiet⟩
    refine ⟨fun target changeable reaches reaches_copy => ?_, fun target collectable => ?_,
      fun target collectable => ?_⟩
    · obtain ⟨v, found, changes⟩ := changeable
      by_cases mutable : v.mutable u.classClass = true
      · exact nothing target v found mutable reaches reaches_copy
      · cases target with
        | slot place index =>
            cases v with
            | int i =>
                exact Threads.not_reaches_of_nonInterfering quiet
                  (show Party.receiver ≠ .sender by decide) found reaches reaches_copy
            | num | str | ary | map | code | obj | lex | opaqueRef => exact mutable changes
        | nil | bool | constInt => exact mutable changes
    · exact Threads.not_reaches_collectable quiet wellFormed
        (show Party.receiver ≠ .sender by decide) collectable
    · exact Threads.not_reaches_collectable quiet wellFormed
        (show Party.sender ≠ .receiver by decide) collectable
  · rintro ⟨apart_values, own_source, own_copy⟩
    refine ⟨fun target v found mutable reaches => apart_values target ⟨v, found, ?_⟩ reaches, ?_⟩
    · cases v with
      | int => cases mutable
      | num | str | ary | map | code | obj | lex | opaqueRef => cases target <;> exact mutable
    · have distinct : (partyWorld home world).Injective := by
        intro left right same
        cases left <;> cases right <;> simp_all [partyWorld]
      refine Threads.nonInterfering_of_separate distinct ⟨wellFormed, ?_, ?_, ?_⟩
      · intro party
        cases party with
        | sender => exact live_source
        | receiver => exact live_copy
      · intro left right different
        cases left <;> cases right
        · exact absurd rfl different
        · exact apart_values
        · exact apart_values.symm
        · exact absurd rfl different
      · intro left right different
        cases left <;> cases right
        · exact absurd rfl different
        · exact own_source
        · exact own_copy
        · exact absurd rfl different

omit [DecidableEq κ] in
theorem Collectable.of_agree {target : Ref} (collectable : Collectable u world target)
    (classClass : u'.classClass = u.classClass) (agrees : u'.value target = u.value target) :
    Collectable u' world target := by
  obtain ⟨index, v, slot, found, different⟩ := collectable
  exact ⟨index, v, slot, agrees.trans found, classClass ▸ different⟩

/-- A transfer isolates the receiver from the sender exactly when the source does not lead to a value
in the arenas of the receiver, and no pointer that the transfer copies leads to one in the arenas of
the sender, or to an array, map, string, lex, object or integer anywhere; classes, and integers that
are constants, do not count. -/
theorem transfer_isolated_iff (reached : Reached u) (apart : home ≠ world)
    (live : Sharing.Live (sharing u.classClass) u.value [source])
    (moved : transfer how world fuel u source = some (u', copy)) :
    Isolated u' home world source copy ↔
      (∀ target, Collectable u world target →
        ¬ Sharing.Reaches (sharing u.classClass) u.value [source] target) ∧
      ∀ leak, Leaking how u source leak → ∀ target,
        Sharing.Reaches (sharing u.classClass) u.value [leak] target →
          ¬ Sharing.Changeable (sharing u.classClass) u.value target ∧ ¬ Collectable u home target := by
  obtain ⟨grown, confined, carries⟩ := transfer_confined reached.wellFormed live moved
  have inside := transfer_inside moved
  have constant (target : Ref) (constant : (sharing (κ := κ) u.classClass).constant target) :
      u'.value target = none := constant_value constant
  have leaked (leak : Ref) (leaking : Leaking how u source leak) := leaking.reaches
  have live_source := grown.kept.live constant live
  have live_copy := confined.live grown.kept live leaked
  have later {place : Nat} {target : Ref} (collectable : Collectable u place target) :
      Collectable u' place target := by
    obtain ⟨index, v, slot, found, different⟩ := collectable
    exact Collectable.of_agree ⟨index, v, slot, found, different⟩ grown.classClass
      (grown.kept target (by simp [found]))
  refine (isolated_iff_apart grown.wellFormed apart (grown.classClass.symm ▸ live_source)
    (grown.classClass.symm ▸ live_copy)).trans ?_
  rw [grown.classClass, confined.apart_iff grown.kept constant live leaked carries]
  constructor
  · rintro ⟨harmless, own_source, own_copy⟩
    refine ⟨fun target collectable reaches => own_source target (later collectable)
      ((grown.kept.reaches_iff constant live).mpr reaches), fun leak leaking target reaches =>
      ⟨harmless leak leaking target reaches, fun collectable => ?_⟩⟩
    rw [← grown.kept.reaches_iff constant (live.of_leak leaked leaking)] at reaches
    exact own_copy target (later collectable) (reaches.trans fun _ member =>
      List.mem_singleton.mp member ▸ carries leak leaking)
  · rintro ⟨own_source, harmless⟩
    refine ⟨fun leak leaking target reaches => (harmless leak leaking target reaches).1,
      fun target collectable reaches => ?_, fun target collectable reaches => ?_⟩
    · rw [grown.kept.reaches_iff constant live] at reaches
      exact own_source target (collectable.of_agree grown.classClass.symm
        (grown.kept.agrees constant live reaches).symm) reaches
    · rcases confined target reaches with new | fixed | ⟨leak, leaking, behind⟩
      · obtain ⟨index, here⟩ := inside target new
        obtain ⟨_, _, there, -⟩ := collectable
        exact apart (Ref.slot.inj (there.symm.trans here)).1
      · obtain ⟨index, v, -, found, -⟩ := collectable
        rw [constant target fixed] at found
        cases found
      · refine (harmless leak leaking target behind).2
          (collectable.of_agree grown.classClass.symm ?_)
        exact (grown.kept.agrees constant (live.of_leak leaked leaking) behind).symm

end Isolation

/-! ## Transfers that share and one that does not -/

/-- The class of classes, a class for the iterator of arrays, an array `[7]` with an iterator, which
is an object, a closure that captures the array as 2, and a second world. -/
def iteratorAndClosure : List (Op Nat) :=
  [.worldNew, .alloc 0 (.obj .nil ∅), .setClassClass (.slot 0 2), .alloc 0 (.obj (.slot 0 2) ∅),
    .alloc 0 (.ary [.constInt 7]), .alloc 0 (.int 0),
    .alloc 0 (.obj (.slot 0 3) ((AList.insert 0 (.slot 0 5) ∅ : Bindings Nat).insert 1 (.slot 0 4))),
    .store (.slot 0 0) (.lex none (AList.insert 2 (.slot 0 4) ∅)), .alloc 0 (.code (some (.slot 0 0))),
    .worldNew]

def beforeTransfer : Universe Nat :=
  (Execution.run step universeInit iteratorAndClosure).getD universeInit

def iteratorSent : Universe Nat :=
  ((transfer .send 1 1 beforeTransfer (.slot 0 6)).map Prod.fst).getD universeInit
def closureStarted : Universe Nat :=
  ((transfer .start 1 1 beforeTransfer (.slot 0 7)).map Prod.fst).getD universeInit
def arraySent : Universe Nat :=
  ((transfer .send 1 2 beforeTransfer (.slot 0 4)).map Prod.fst).getD universeInit

private theorem transfer_of_ref (how : Transfer) (world fuel : Nat) {source copy : Ref}
    (ref : (transfer how world fuel beforeTransfer source).map Prod.snd = some copy) :
    transfer how world fuel beforeTransfer source =
      some (((transfer how world fuel beforeTransfer source).map Prod.fst).getD universeInit, copy) := by
  obtain ⟨⟨u, copied⟩, moved, same⟩ := Option.map_eq_some_iff.mp ref
  rw [moved]
  exact congrArg some (Prod.ext rfl same)

set_option maxRecDepth 10000 in
theorem reached_beforeTransfer : Reached beforeTransfer := by
  have runs : (Execution.run step universeInit iteratorAndClosure).isSome = true := by decide +kernel
  exact Reached.init.run (eq_some_getD runs _)

set_option maxRecDepth 10000 in
/-- The copy of the iterator and the copy of the closure lead to the array. -/
theorem transfers_share_array :
    (transfer .send 1 1 beforeTransfer (.slot 0 6) = some (iteratorSent, .slot 1 2) ∧
      ¬ SharesNothing iteratorSent (.slot 0 6) (.slot 1 2)) ∧
    transfer .start 1 1 beforeTransfer (.slot 0 7) = some (closureStarted, .slot 1 2) ∧
      ¬ SharesNothing closureStarted (.slot 0 7) (.slot 1 2) := by
  have sent_array : iteratorSent.value (.slot 0 4) = some (.ary [.constInt 7]) := by decide +kernel
  have started_array : closureStarted.value (.slot 0 4) = some (.ary [.constInt 7]) := by
    decide +kernel
  have iterator : Sharing.Points (sharing iteratorSent.classClass) iteratorSent.value (.slot 0 6)
    (.slot 0 4) := by decide +kernel
  have iterator_copy : Sharing.Points (sharing iteratorSent.classClass) iteratorSent.value (.slot 1 2)
    (.slot 0 4) := by decide +kernel
  have closure : Sharing.Points (sharing closureStarted.classClass) closureStarted.value (.slot 0 7)
    (.slot 0 0) := by decide +kernel
  have captured : Sharing.Points (sharing closureStarted.classClass) closureStarted.value (.slot 0 0)
    (.slot 0 4) := by decide +kernel
  have closure_copy : Sharing.Points (sharing closureStarted.classClass) closureStarted.value
    (.slot 1 2) (.slot 1 3) := by decide +kernel
  have captured_copy : Sharing.Points (sharing closureStarted.classClass) closureStarted.value
    (.slot 1 3) (.slot 0 4) := by decide +kernel
  refine ⟨⟨transfer_of_ref .send 1 1 (by decide +kernel), fun nothing => ?_⟩,
    transfer_of_ref .start 1 1 (by decide +kernel), fun nothing => ?_⟩
  · exact nothing _ _ sent_array rfl ⟨_, List.mem_singleton_self _, .single iterator⟩
      ⟨_, List.mem_singleton_self _, .single iterator_copy⟩
  · exact nothing _ _ started_array rfl ⟨_, List.mem_singleton_self _, .tail (.single closure) captured⟩
      ⟨_, List.mem_singleton_self _, .tail (.single closure_copy) captured_copy⟩

set_option maxRecDepth 10000 in
/-- The array itself is sent without sharing. -/
theorem transfer_isolated_array : Isolated arraySent 0 1 (.slot 0 4) (.slot 1 2) := by
  have array : beforeTransfer.value (.slot 0 4) = some (.ary [.constInt 7]) := by decide +kernel
  have only (child : Ref) (points : Sharing.Points (sharing beforeTransfer.classClass)
      beforeTransfer.value (.slot 0 4) child) : child = .constInt 7 := by
    obtain ⟨v, found, pointer⟩ := points
    cases array.symm.trans found
    exact List.mem_singleton.mp pointer
  have live : Sharing.Live (sharing beforeTransfer.classClass) beforeTransfer.value [.slot 0 4] := by
    refine .of_closed (fun ref => ref = .slot 0 4 ∨ ref = .constInt 7) ?_ ?_ ?_
    · exact fun start member => .inl (List.mem_singleton.mp member)
    · rintro parent child (rfl | rfl) points
      · exact .inr (only child points)
      · exact absurd points ((Threads.inert_literal rfl).1 child)
    · rintro target (rfl | rfl) unset
      · rw [array] at unset
        cases unset
      · cases unset
  refine (transfer_isolated_iff reached_beforeTransfer (by decide) live
    (transfer_of_ref .send 1 2 (by decide +kernel))).mpr ⟨?_, ?_⟩
  · rintro target ⟨index, v, rfl, -⟩ reaches
    rcases Sharing.reaches_singleton_iff.mp reaches with here | ⟨child, points, behind⟩
    · cases here
    · obtain rfl := only child points
      rcases Sharing.reaches_singleton_iff.mp behind with here | ⟨other, onward, -⟩
      · cases here
      · exact (Threads.inert_literal rfl).1 other onward
  intro leak leaking
  rcases leaks_iff.mp leaking with ⟨klass, ivars, found, -⟩ | ⟨child, copied, behind⟩
  · cases array.symm.trans found
  · obtain rfl := only child copied.points
    exact absurd behind (not_leaks_of_value rfl (by simp) (by simp) (by simp))

end Heap
end Pone
