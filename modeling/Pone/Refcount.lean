import Mathlib.Data.List.Basic
import Pone.Execution

/-!
# Bodies of opaques and their reference counts

`pone_opaque_new`, `pone_opaque_copy` and `pone_opaque_free`.  An opaque value belongs to the world in
whose arenas it was allocated, and that world frees it, once; the bodies are shared.
-/

namespace Pone
namespace Refcount

/-- `pone_opaque_body`, whose class and pointer do not matter here. -/
structure Body where
  /-- It may be `NULL`. -/
  finalizer : Bool
  refcnt : Int
  /-- `pone_free` was called on the body. -/
  released : Bool
  deriving DecidableEq

/-- A value of type `PONE_OPAQUE`. -/
structure OpaqueVal where
  world : Nat
  body : Nat
  deriving DecidableEq

structure State where
  bodies : List Body
  /-- `none` once the value was freed. -/
  opaques : List (Option OpaqueVal)
  /-- The bodies whose finalizer has run, in turn. -/
  finalized : List Nat
  deriving DecidableEq

inductive Event where
  | new (world : Nat) (finalizer : Bool)
  | copy (world val : Nat)
  /-- By a collection of the world or by `pone_world_free`. -/
  | free (world val : Nat)
  deriving DecidableEq

/-- `pone_opaque_new`. -/
def opaqueNew (s : State) (world : Nat) (finalizer : Bool) : State :=
  { s with
    bodies := s.bodies ++ [{ finalizer := finalizer, refcnt := 1, released := false }]
    opaques := s.opaques ++ [some { world := world, body := s.bodies.length }] }

/-- The opaque value and its body, where the value was not freed; nothing is defined about a body that
was. -/
def State.deref (s : State) (val : Nat) : Option (OpaqueVal × Body) := do
  let o ← (s.opaques[val]?).join
  let body ← s.bodies[o.body]?
  if body.released then none else some (o, body)

/-- `pone_opaque_copy`. -/
def opaqueCopy (s : State) (world val : Nat) : Option State :=
  (s.deref val).map fun (o, body) =>
    { s with
      bodies := s.bodies.set o.body { body with refcnt := body.refcnt + 1 }
      opaques := s.opaques ++ [some { world := world, body := o.body }] }

/-- `pone_opaque_free`, which frees the body whatever its count is. -/
def opaqueFree (s : State) (world val : Nat) : Option State :=
  (s.deref val).bind fun (o, body) =>
    if o.world = world then
      let refcnt := body.refcnt - 1
      some
        { bodies := s.bodies.set o.body { body with refcnt := refcnt, released := true }
          opaques := s.opaques.set val none
          finalized :=
            if refcnt = 0 ∧ body.finalizer then s.finalized ++ [o.body] else s.finalized }
    else none

def step (s : State) : Event → Option State
  | .new world finalizer => some (opaqueNew s world finalizer)
  | .copy world val => opaqueCopy s world val
  | .free world val => opaqueFree s world val

def init : State := { bodies := [], opaques := [], finalized := [] }

/-- The number of opaque values of a body that were not freed. -/
def State.holders (s : State) (body : Nat) : Nat :=
  s.opaques.countP fun entry => entry.any fun o : OpaqueVal => o.body = body

/-- The count of a body is that of its opaque values; it is there as long as there is one of them, and
its finalizer has run once when it is gone. -/
structure CountedBody (s : State) (index : Nat) (body : Body) : Prop where
  refcnt : body.released = false → body.refcnt = s.holders index
  held : body.released = false ↔ 0 < s.holders index
  finalized : s.finalized.count index = if body.released && body.finalizer then 1 else 0

def Counted (s : State) : Prop :=
  ∀ index body, s.bodies[index]? = some body → CountedBody s index body

/-- A value is freed when it is the only one of its body. -/
def LastFree (s : State) : Event → Prop
  | .free _ val => ∀ o, s.opaques[val]? = some (some o) → s.holders o.body = 1
  | .new _ _ | .copy _ _ => True

/-- The values and the log speak of bodies that were made. -/
structure WellFormed (s : State) : Prop where
  opaques : ∀ (val : Nat) (o : OpaqueVal), s.opaques[val]? = some (some o) →
    o.body < s.bodies.length
  finalized : ∀ index ∈ s.finalized, index < s.bodies.length

variable {s s' : State} {world val index : Nat} {o : OpaqueVal} {body : Body}

theorem deref_eq_some : s.deref val = some (o, body) ↔
    s.opaques[val]? = some (some o) ∧ s.bodies[o.body]? = some body ∧ body.released = false := by
  simp only [State.deref, Option.bind_eq_bind, Option.bind_eq_some_iff, Option.join_eq_some_iff]
  constructor
  · rintro ⟨other, held, found, found_body, kept⟩
    split at kept
    · cases kept
    case isFalse unreleased =>
      cases kept
      exact ⟨held, found_body, by simpa using unreleased⟩
  · rintro ⟨held, found_body, unreleased⟩
    exact ⟨o, held, body, found_body, by simp [unreleased]⟩

theorem holders_append (world body : Nat) : State.holders
    { s with opaques := s.opaques ++ [some { world := world, body := body }] } index =
      s.holders index + if body = index then 1 else 0 := by
  simp [State.holders, List.countP_append, List.countP_cons]

theorem holders_set (held : s.opaques[val]? = some (some o)) :
    State.holders { s with opaques := s.opaques.set val none } index =
      s.holders index - if o.body = index then 1 else 0 := by
  obtain ⟨bound, found⟩ := List.getElem?_eq_some_iff.mp held
  simp [State.holders, List.countP_set bound, found]

/-- A value that was not freed is one of its body's. -/
theorem holders_pos (held : s.opaques[val]? = some (some o)) : 0 < s.holders o.body := by
  rw [State.holders, List.countP_pos_iff]
  exact ⟨some o, List.mem_of_getElem? held, by simp⟩

/-- No value refers to a body that is yet to be made. -/
theorem holders_fresh (wellFormed : WellFormed s) (fresh : s.bodies.length ≤ index) :
    s.holders index = 0 := by
  rw [State.holders, List.countP_eq_zero]
  intro entry member
  obtain ⟨val, found⟩ := List.getElem?_of_mem member
  cases entry with
  | none => simp
  | some o =>
      have := wellFormed.opaques val o found
      simp only [Option.any_some, decide_eq_true_eq]
      omega

/-! ## Steps -/

private theorem wellFormed_new (wellFormed : WellFormed s) (finalizer : Bool) :
    WellFormed (opaqueNew s world finalizer) := by
  have longer : (opaqueNew s world finalizer).bodies.length = s.bodies.length + 1 := by
    simp [opaqueNew]
  refine ⟨fun val o found => ?_, fun index member => ?_⟩
  · rw [longer]
    simp only [opaqueNew, List.getElem?_append] at found
    split at found
    · exact Nat.lt_succ_of_lt (wellFormed.opaques val o found)
    · rw [List.getElem?_singleton] at found
      split at found <;> cases found
      exact Nat.lt_succ_self _
  · rw [longer]
    exact Nat.lt_succ_of_lt (wellFormed.finalized index member)

private theorem wellFormed_copy (wellFormed : WellFormed s) (copied : opaqueCopy s world val = some s') :
    WellFormed s' := by
  obtain ⟨⟨o, body⟩, found, rfl⟩ := Option.map_eq_some_iff.mp copied
  obtain ⟨held, -, -⟩ := deref_eq_some.mp found
  refine ⟨fun other p present => ?_, fun index member => ?_⟩
  · simp only [List.getElem?_append, List.length_set] at present ⊢
    split at present
    · exact wellFormed.opaques other p present
    · rw [List.getElem?_singleton] at present
      split at present <;> cases present
      exact wellFormed.opaques val o held
  · simpa using wellFormed.finalized index member

private theorem wellFormed_free (wellFormed : WellFormed s) (freed : opaqueFree s world val = some s') :
    WellFormed s' := by
  obtain ⟨⟨o, body⟩, found, freed⟩ := Option.bind_eq_some_iff.mp freed
  obtain ⟨held, -, -⟩ := deref_eq_some.mp found
  simp only at freed
  split at freed <;> cases freed
  refine ⟨fun other p present => ?_, fun index member => ?_⟩
  · simp only [List.length_set] at present ⊢
    rw [List.getElem?_set] at present
    split at present
    · split at present <;> cases present
    · exact wellFormed.opaques other p present
  · simp only [List.length_set] at member ⊢
    split at member
    · rcases List.mem_append.mp member with member | member
      · exact wellFormed.finalized index member
      · obtain rfl := List.mem_singleton.mp member
        exact wellFormed.opaques val o held
    · exact wellFormed.finalized index member

theorem wellFormed_step {e : Event} (wellFormed : WellFormed s) (taken : step s e = some s') :
    WellFormed s' := by
  cases e with
  | new world finalizer =>
      cases taken
      exact wellFormed_new wellFormed finalizer
  | copy world val => exact wellFormed_copy wellFormed taken
  | free world val => exact wellFormed_free wellFormed taken

private theorem counted_new (wellFormed : WellFormed s) (counted : Counted s) (finalizer : Bool) :
    Counted (opaqueNew s world finalizer) := by
  intro index body found
  have holders : (opaqueNew s world finalizer).holders index =
      s.holders index + if s.bodies.length = index then 1 else 0 := holders_append world _
  simp only [opaqueNew, List.getElem?_append] at found
  split at found
  case isTrue old =>
    rw [if_neg (by omega), Nat.add_zero] at holders
    have before := counted index body found
    exact ⟨fun there => by rw [holders, before.refcnt there], by rw [holders, before.held],
      before.finalized⟩
  case isFalse fresh =>
    rw [List.getElem?_singleton] at found
    split at found <;> cases found
    obtain rfl : s.bodies.length = index := by omega
    rw [holders_fresh wellFormed (Nat.le_refl _), if_pos rfl, Nat.zero_add] at holders
    refine ⟨fun _ => by rw [holders]; rfl, by simp [holders], ?_⟩
    exact List.count_eq_zero.mpr fun member => absurd (wellFormed.finalized _ member) (Nat.lt_irrefl _)

private theorem counted_copy (counted : Counted s) (copied : opaqueCopy s world val = some s') :
    Counted s' := by
  obtain ⟨⟨o, body⟩, found, rfl⟩ := Option.map_eq_some_iff.mp copied
  obtain ⟨held, found_body, unreleased⟩ := deref_eq_some.mp found
  intro index other present
  have holders : State.holders
      { s with
        bodies := s.bodies.set o.body { body with refcnt := body.refcnt + 1 }
        opaques := s.opaques ++ [some { world := world, body := o.body }] } index =
      s.holders index + if o.body = index then 1 else 0 := holders_append world _
  rw [List.getElem?_set] at present
  split at present
  case isTrue here =>
    obtain rfl := here
    split at present <;> cases present
    have before := counted _ body found_body
    rw [if_pos rfl] at holders
    refine ⟨fun _ => ?_, ?_, ?_⟩
    · rw [holders, before.refcnt unreleased]
      rfl
    · rw [holders]
      simp [unreleased]
    · exact before.finalized
  case isFalse elsewhere =>
    have before := counted index other present
    rw [if_neg elsewhere, Nat.add_zero] at holders
    exact ⟨fun there => by rw [holders, before.refcnt there], by rw [holders, before.held],
      before.finalized⟩

/-- A free keeps the counts exactly when it is the last one of its body. -/
private theorem counted_free_iff (counted : Counted s) (freed : opaqueFree s world val = some s') :
    Counted s' ↔ LastFree s (.free world val) := by
  obtain ⟨⟨o, body⟩, found, freed⟩ := Option.bind_eq_some_iff.mp freed
  obtain ⟨held, found_body, unreleased⟩ := deref_eq_some.mp found
  have before := counted _ body found_body
  have positive := holders_pos held
  have holders (index : Nat) (bodies : List Body) (finalized : List Nat) :
      State.holders
        { bodies := bodies, opaques := s.opaques.set val none, finalized := finalized } index =
      s.holders index - if o.body = index then 1 else 0 := holders_set held
  have bound : o.body < s.bodies.length := (List.getElem?_eq_some_iff.mp found_body).1
  simp only at freed
  split at freed <;> cases freed
  constructor
  · intro after other same
    cases held.symm.trans same
    have gone := (after o.body { body with refcnt := body.refcnt - 1, released := true }
      (by simp [bound])).held
    rw [holders, if_pos rfl] at gone
    simp only [Bool.true_eq_false, false_iff] at gone
    omega
  · intro last index other present
    have one := last o held
    have zero : body.refcnt - 1 = 0 := by
      rw [before.refcnt unreleased, one]
      rfl
    rw [List.getElem?_set] at present
    split at present
    case isTrue here =>
      obtain rfl := here
      cases present
      refine ⟨nofun, ?_, ?_⟩
      · rw [holders, if_pos rfl, one]
        simp
      · have none_yet := before.finalized
        rw [unreleased] at none_yet
        cases finalizer : body.finalizer with
        | true => simp_all [List.count_append]
        | false => simp_all
    case isFalse elsewhere =>
      have kept := counted index other present
      refine ⟨fun there => ?_, ?_, ?_⟩
      · rw [holders, if_neg elsewhere, kept.refcnt there, Nat.sub_zero]
      · rw [holders, if_neg elsewhere, Nat.sub_zero, kept.held]
      · rw [← kept.finalized]
        split
        · simp [List.count_append, elsewhere]
        · rfl

theorem counted_step {e : Event} (wellFormed : WellFormed s) (counted : Counted s)
    (taken : step s e = some s') : Counted s' ↔ LastFree s e := by
  cases e with
  | new world finalizer =>
      cases taken
      exact iff_of_true (counted_new wellFormed counted finalizer) trivial
  | copy world val => exact iff_of_true (counted_copy counted taken) trivial
  | free world val => exact counted_free_iff counted taken

/-- Where the counts are right, no value that was not freed refers to a body that was. -/
theorem Counted.deref_isSome (wellFormed : WellFormed s) (counted : Counted s)
    (held : s.opaques[val]? = some (some o)) : (s.deref val).isSome := by
  have bound := wellFormed.opaques val o held
  have present : s.bodies[o.body]? = some s.bodies[o.body] := List.getElem?_eq_getElem bound
  have unreleased := (counted _ _ present).held.mpr (holders_pos held)
  rw [deref_eq_some.mpr ⟨held, present, unreleased⟩]
  rfl

/-- The state is right, and no value that was not freed refers to a body that was. -/
def Sound (s : State) : Prop :=
  Counted s ∧ ∀ val o, s.opaques[val]? = some (some o) → (s.deref val).isSome

theorem wellFormed_init : WellFormed init where
  opaques val o found := by cases found
  finalized index member := by cases member

/-- In every run the counts are right in all states exactly when each value freed is the only one of
its body. -/
theorem refcounts_sound_iff (events : List Event) (executed : Execution.run step init events = some s) :
    Execution.Always step Sound init events ↔ Execution.Along step LastFree init events := by
  have sound_iff {s : State} (wellFormed : WellFormed s) : Sound s ↔ Counted s :=
    ⟨And.left, fun counted => ⟨counted, fun _ _ held => counted.deref_isSome wellFormed held⟩⟩
  have initial : Counted init := fun index body found => by cases found
  refine Execution.always_iff_along wellFormed_step (fun wellFormed sound taken => ?_)
    wellFormed_init ((sound_iff wellFormed_init).mpr initial) executed
  rw [sound_iff (wellFormed_step wellFormed taken)]
  exact counted_step wellFormed sound.1 taken

theorem refcounts_sound_iff_single :
    Execution.Always step Sound init [.new 0 true, .free 0 0] ↔
      Execution.Along step LastFree init [.new 0 true, .free 0 0] :=
  refcounts_sound_iff (s := ⟨[⟨true, 0, true⟩], [none], [0]⟩) _ (by decide)

/-- A channel is copied to another world, and the first world frees its value: the body is released
without its finalizer, and the copy still refers to it. -/
theorem refcounts_unsound :
    Execution.run step init [.new 0 true, .copy 1 0, .free 0 0] =
        some ⟨[⟨true, 1, true⟩], [none, some ⟨1, 0⟩], []⟩ ∧
      ¬ Execution.Always step Sound init [.new 0 true, .copy 1 0, .free 0 0] := by
  refine ⟨by decide, fun always => ?_⟩
  have sound : Sound ⟨[⟨true, 1, true⟩], [none, some ⟨1, 0⟩], []⟩ := always.final (by decide)
  exact absurd (sound.2 1 ⟨1, 0⟩ rfl) (by decide)

end Refcount
end Pone
