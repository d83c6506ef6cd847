import Mathlib.Data.Set.Basic
import Mathlib.Logic.Function.Basic
import Mathlib.Logic.Relation

/-!
# Sharing in a heap

A heap maps locations to contents, and contents point to locations.  Two parties that hold locations
are apart when no content that can be replaced in place is reached from what both hold.  Parties that
are apart stay apart whatever they read, allocate and write, and neither sees what the other does.
-/

namespace Sharing

variable {α β : Type*}

/-- What contents of type `β` do with locations of type `α`. -/
structure Kind (α β : Type*) where
  /-- The locations that a content leads to. -/
  pointers : β → List α
  /-- The location can get another content in place of this one. -/
  mutable : α → β → Prop
  /-- The location never has a content. -/
  constant : α → Prop

section Reach

variable (kind : Kind α β)

def Points (heap : α → Option β) (parent child : α) : Prop :=
  ∃ content, heap parent = some content ∧ child ∈ kind.pointers content

/-- The target is reached from one of the locations held. -/
def Reaches (heap : α → Option β) (held : List α) (target : α) : Prop :=
  ∃ start ∈ held, Relation.ReflTransGen (Points kind heap) start target

def Changeable (heap : α → Option β) (target : α) : Prop :=
  ∃ content, heap target = some content ∧ kind.mutable target content

/-- No content that can be replaced is reached from both. -/
def Apart (heap : α → Option β) (left right : List α) : Prop :=
  ∀ target, Changeable kind heap target → Reaches kind heap left target →
    ¬ Reaches kind heap right target

/-- Nothing that is reached is free. -/
def Live (heap : α → Option β) (held : List α) : Prop :=
  ∀ target, Reaches kind heap held target → heap target = none → kind.constant target

end Reach

variable {kind : Kind α β} {heap heap' : α → Option β} {held held' other : List α}
  {target child : α} {content : β}

instance [DecidableEq α] (parent child : α) : Decidable (Points kind heap parent child) :=
  decidable_of_iff (child ∈ (heap parent).elim [] kind.pointers) <| by
    cases found : heap parent <;> simp [Points, found]

theorem Reaches.of_mem (member : target ∈ held) : Reaches kind heap held target :=
  ⟨target, member, .refl⟩

theorem Reaches.step (reaches : Reaches kind heap held target)
    (points : Points kind heap target child) : Reaches kind heap held child := by
  obtain ⟨start, member, path⟩ := reaches
  exact ⟨start, member, path.tail points⟩

theorem Reaches.trans (reaches : Reaches kind heap held' target)
    (first : ∀ start ∈ held', Reaches kind heap held start) : Reaches kind heap held target := by
  obtain ⟨middle, member, path⟩ := reaches
  obtain ⟨start, start_member, front⟩ := first middle member
  exact ⟨start, start_member, front.trans path⟩

theorem Reaches.mono (reaches : Reaches kind heap held target) (subset : held ⊆ held') :
    Reaches kind heap held' target :=
  reaches.trans fun _ member => .of_mem (subset member)

/-- Pointers that stay do not lose what they lead to. -/
theorem Reaches.widen (reaches : Reaches kind heap held target)
    (widens : ∀ parent child, Points kind heap parent child → Points kind heap' parent child) :
    Reaches kind heap' held target := by
  obtain ⟨start, member, path⟩ := reaches
  exact ⟨start, member, Relation.ReflTransGen.mono widens _ _ path⟩

theorem Apart.symm (apart : Apart kind heap held other) : Apart kind heap other held :=
  fun target changeable left right => apart target changeable right left

/-- What is reached does not depend on what is not. -/
theorem reaches_iff_of_agree (agree : ∀ target, Reaches kind heap held target →
    heap' target = heap target) : Reaches kind heap' held target ↔ Reaches kind heap held target := by
  constructor
  · rintro ⟨start, member, path⟩
    induction path with
    | refl => exact .of_mem member
    | tail _ points ih =>
        obtain ⟨content, found, pointer⟩ := points
        exact ih.step ⟨content, by rwa [← agree _ ih], pointer⟩
  · rintro ⟨start, member, path⟩
    induction path with
    | refl => exact .of_mem member
    | @tail parent child front points ih =>
        obtain ⟨content, found, pointer⟩ := points
        exact ih.step ⟨content, by rwa [agree parent ⟨start, member, front⟩], pointer⟩

theorem Live.of_agree (live : Live kind heap held)
    (agree : ∀ target, Reaches kind heap held target → heap' target = heap target) :
    Live kind heap' held := by
  intro target reaches unset
  rw [reaches_iff_of_agree agree] at reaches
  rw [agree target reaches] at unset
  exact live target reaches unset

theorem Apart.of_agree (apart : Apart kind heap held other)
    (agree : ∀ target, Reaches kind heap held target → heap' target = heap target)
    (agree_other : ∀ target, Reaches kind heap other target → heap' target = heap target) :
    Apart kind heap' held other := by
  intro target changeable reaches
  rw [reaches_iff_of_agree agree] at reaches
  rw [reaches_iff_of_agree agree_other]
  obtain ⟨content, found, replaceable⟩ := changeable
  exact apart target ⟨content, agree target reaches ▸ found, replaceable⟩ reaches

/-- The location leads nowhere and cannot change. -/
def Inert (kind : Kind α β) (heap : α → Option β) (target : α) : Prop :=
  (∀ child, ¬ Points kind heap target child) ∧ ¬ Changeable kind heap target ∧
    (heap target = none → kind.constant target)

theorem Reaches.of_first (reaches : Reaches kind heap held' target)
    (first : ∀ start ∈ held', Inert kind heap start ∨ Reaches kind heap held start) :
    (target ∈ held' ∧ Inert kind heap target) ∨ Reaches kind heap held target := by
  obtain ⟨start, member, path⟩ := reaches
  induction path with
  | refl => exact (first start member).imp_left fun inert => ⟨member, inert⟩
  | tail _ points ih =>
      rcases ih with ⟨-, inert⟩ | before
      · exact absurd points (inert.1 _)
      · exact .inr (before.step points)

/-- What a party takes over from what it reaches keeps it apart and live. -/
theorem Apart.look (apart : Apart kind heap held other)
    (first : ∀ start ∈ held', Inert kind heap start ∨ Reaches kind heap held start) :
    Apart kind heap held' other := fun target changeable reaches =>
  apart target changeable
    ((reaches.of_first first).resolve_left fun inert => inert.2.2.1 changeable)

theorem Live.look (live : Live kind heap held)
    (first : ∀ start ∈ held', Inert kind heap start ∨ Reaches kind heap held start) :
    Live kind heap held' := fun target reaches unset => by
  rcases reaches.of_first first with ⟨-, inert⟩ | before
  · exact inert.2.2 unset
  · exact live target before unset

/-- A set that contains what is held and all that its members point to contains all that is reached. -/
theorem Live.of_closed (closed : α → Prop) (initial : ∀ start ∈ held, closed start)
    (step : ∀ parent child, closed parent → Points kind heap parent child → closed child)
    (constant : ∀ target, closed target → heap target = none → kind.constant target) :
    Live kind heap held := by
  rintro target ⟨start, member, path⟩
  refine constant target ?_
  induction path with
  | refl => exact initial start member
  | tail _ points ih => exact step _ _ ih points

theorem Live.of_reaches (live : Live kind heap held)
    (first : ∀ start ∈ held', Reaches kind heap held start) : Live kind heap held' :=
  live.look fun start member => .inr (first start member)

section Update

variable [DecidableEq α] {ref : α}

/-- A content that points to what is reached leads to nothing else. -/
theorem reaches_update
    (reaches : Reaches kind (Function.update heap ref (some content)) held' target)
    (first : ∀ start ∈ held', start = ref ∨ Reaches kind heap held start)
    (pointers : ∀ child ∈ kind.pointers content, Reaches kind heap held child) :
    target = ref ∨ Reaches kind heap held target := by
  obtain ⟨start, member, path⟩ := reaches
  induction path with
  | refl => exact first start member
  | @tail parent child _ points ih =>
      obtain ⟨parentContent, found, pointer⟩ := points
      by_cases here : parent = ref
      · obtain rfl := here
        rw [Function.update_self] at found
        cases found
        exact .inr (pointers child pointer)
      · rw [Function.update_of_ne here] at found
        exact .inr ((ih.resolve_left here).step ⟨parentContent, found, pointer⟩)

/-- A change of what is not reached does not matter. -/
theorem update_agrees (unreached : ¬ Reaches kind heap held ref) (reaches : Reaches kind heap held target) :
    Function.update heap ref (some content) target = heap target :=
  Function.update_of_ne (fun same : target = ref => unreached (same ▸ reaches)) _ _

theorem reaches_update_iff (unreached : ¬ Reaches kind heap held ref) :
    Reaches kind (Function.update heap ref (some content)) held target ↔
      Reaches kind heap held target :=
  reaches_iff_of_agree fun _ => update_agrees unreached

theorem changeable_update (changeable : Changeable kind (Function.update heap ref (some content))
    target) (elsewhere : target ≠ ref) : Changeable kind heap target := by
  obtain ⟨content, found, replaceable⟩ := changeable
  exact ⟨content, by rwa [Function.update_of_ne elsewhere] at found, replaceable⟩

/-- A party changes a location that the other one does not reach. -/
theorem Apart.change (apart : Apart kind heap held other) (unreached : ¬ Reaches kind heap other ref)
    (first : ∀ start ∈ held', start = ref ∨ Reaches kind heap held start)
    (pointers : ∀ child ∈ kind.pointers content, Reaches kind heap held child) :
    Apart kind (Function.update heap ref (some content)) held' other := by
  intro target changeable reaches reaches_other
  rw [reaches_update_iff unreached] at reaches_other
  have elsewhere : target ≠ ref := fun same => unreached (same ▸ reaches_other)
  exact apart target (changeable_update changeable elsewhere)
    ((reaches_update reaches first pointers).resolve_left elsewhere) reaches_other

theorem Live.change (live : Live kind heap held)
    (first : ∀ start ∈ held', start = ref ∨ Reaches kind heap held start)
    (pointers : ∀ child ∈ kind.pointers content, Reaches kind heap held child) :
    Live kind (Function.update heap ref (some content)) held' := by
  intro target reaches unset
  have elsewhere : target ≠ ref := by
    rintro rfl
    simp at unset
  rw [Function.update_of_ne elsewhere] at unset
  exact live target ((reaches_update reaches first pointers).resolve_left elsewhere) unset

/-- The parties that do not reach a location do not notice its change. -/
theorem Live.elsewhere (live : Live kind heap other) (unreached : ¬ Reaches kind heap other ref) :
    Live kind (Function.update heap ref (some content)) other :=
  live.of_agree fun _ => update_agrees unreached

theorem Apart.elsewhere (apart : Apart kind heap held other)
    (unreached : ¬ Reaches kind heap held ref) (unreached_other : ¬ Reaches kind heap other ref) :
    Apart kind (Function.update heap ref (some content)) held other :=
  apart.of_agree (fun _ => update_agrees unreached) fun _ => update_agrees unreached_other

end Update

/-! ## Growing a heap

A copy grows the heap: what had a content keeps it, and there are new contents.  The copy leads to
these and to constants, and to the locations of the old heap that lie behind its leaks.
-/

def Kept (heap heap' : α → Option β) : Prop := ∀ target, heap target ≠ none → heap' target = heap target

/-- The location has got a content. -/
def New (heap heap' : α → Option β) (target : α) : Prop := heap target = none ∧ heap' target ≠ none

/-- Of the old heap only what lies behind leaks is reached. -/
def Confined (kind : Kind α β) (leaks : α → Prop) (heap middle heap' : α → Option β) (copy : α) :
    Prop :=
  ∀ target, Reaches kind heap' [copy] target → New middle heap' target ∨ kind.constant target ∨
    ∃ leak, leaks leak ∧ Reaches kind heap [leak] target

variable {leaks : α → Prop} {middle : α → Option β} {source copy : α}

theorem Kept.trans (first : Kept heap middle) (second : Kept middle heap') : Kept heap heap' :=
  fun target set => by
    have same := first target set
    rw [second target (same ▸ set), same]

theorem Kept.update [DecidableEq α] {ref : α} (free : heap ref = none) :
    Kept heap (Function.update heap ref (some content)) := fun target set =>
  Function.update_of_ne (fun same : target = ref => set (same ▸ free)) _ _

/-- What live locations hold is the same after the growth. -/
theorem Kept.agrees (kept : Kept heap heap')
    (constant : ∀ target, kind.constant target → heap' target = none)
    (live : Live kind heap held) (reaches : Reaches kind heap held target) :
    heap' target = heap target := by
  cases found : heap target with
  | none => rw [constant target (live target reaches found)]
  | some content => rw [← found, kept target (by simp [found])]

theorem Kept.reaches_iff (kept : Kept heap heap')
    (constant : ∀ target, kind.constant target → heap' target = none)
    (live : Live kind heap held) : Reaches kind heap' held target ↔ Reaches kind heap held target :=
  reaches_iff_of_agree fun _ reaches => kept.agrees constant live reaches

theorem Kept.live (kept : Kept heap heap')
    (constant : ∀ target, kind.constant target → heap' target = none)
    (live : Live kind heap held) : Live kind heap' held :=
  live.of_agree fun _ => kept.agrees constant live

theorem Live.of_leak (live : Live kind heap [source])
    (leaked : ∀ leak, leaks leak → Reaches kind heap [source] leak) {leak : α}
    (leaking : leaks leak) : Live kind heap [leak] :=
  live.of_reaches fun _ member => List.mem_singleton.mp member ▸ leaked leak leaking

/-- A location leads to itself and to what its pointers lead to. -/
theorem reaches_singleton_iff : Reaches kind heap [copy] target ↔ target = copy ∨
    ∃ child, Points kind heap copy child ∧ Reaches kind heap [child] target := by
  constructor
  · rintro ⟨start, member, path⟩
    obtain rfl := List.mem_singleton.mp member
    rcases Relation.ReflTransGen.cases_head path with rfl | ⟨child, points, rest⟩
    · exact .inl rfl
    · exact .inr ⟨child, points, child, List.mem_singleton_self _, rest⟩
  · rintro (rfl | ⟨child, points, start, member, path⟩)
    · exact .of_mem (List.mem_singleton_self _)
    · obtain rfl := List.mem_singleton.mp member
      exact ⟨copy, List.mem_singleton_self _, path.head points⟩

/-- A copy that carries the leaks and nothing else of the old heap is apart from its source exactly
when nothing that can be replaced lies behind a leak. -/
theorem Confined.apart_iff (confined : Confined kind leaks heap heap heap' copy)
    (kept : Kept heap heap') (constant : ∀ target, kind.constant target → heap' target = none)
    (live : Live kind heap [source])
    (leaked : ∀ leak, leaks leak → Reaches kind heap [source] leak)
    (carries : ∀ leak, leaks leak → Reaches kind heap' [copy] leak) :
    Apart kind heap' [source] [copy] ↔
      ∀ leak, leaks leak → ∀ target, Reaches kind heap [leak] target →
        ¬ Changeable kind heap target := by
  constructor
  · intro apart leak leaking target reaches changeable
    have reaches_source : Reaches kind heap [source] target :=
      reaches.trans fun _ member => List.mem_singleton.mp member ▸ leaked leak leaking
    have changeable' : Changeable kind heap' target := by
      obtain ⟨content, found, replaceable⟩ := changeable
      exact ⟨content, by rwa [kept.agrees constant live reaches_source], replaceable⟩
    refine apart target changeable' ((kept.reaches_iff constant live).mpr reaches_source) ?_
    rw [← kept.reaches_iff constant (live.of_leak leaked leaking)] at reaches
    exact reaches.trans fun _ member => List.mem_singleton.mp member ▸ carries leak leaking
  · intro harmless target changeable reaches reaches_copy
    rw [kept.reaches_iff constant live] at reaches
    obtain ⟨content, found, replaceable⟩ := changeable
    rw [kept.agrees constant live reaches] at found
    rcases confined target reaches_copy with new | fixed | ⟨leak, leaking, behind⟩
    · rw [new.1] at found
      cases found
    · rw [← kept.agrees constant live reaches, constant target fixed] at found
      cases found
    · exact harmless leak leaking target behind ⟨content, found, replaceable⟩

/-- A copy is live when its source is. -/
theorem Confined.live (confined : Confined kind leaks heap heap heap' copy) (kept : Kept heap heap')
    (live : Live kind heap [source])
    (leaked : ∀ leak, leaks leak → Reaches kind heap [source] leak) : Live kind heap' [copy] := by
  intro target reaches unset
  rcases confined target reaches with new | fixed | ⟨leak, leaking, behind⟩
  · exact absurd unset new.2
  · exact fixed
  · refine live.of_leak leaked leaking target behind ?_
    by_contra set
    rw [kept target set] at unset
    exact set unset

end Sharing
