import Pone.Heap.Cycles
import Pone.Heap.Worker

/-!
# What a channel holds on to

A channel has a world of its own for the values in its buffer.  Every allocation and every shift puts
the value on `tmpstack`, and no code runs in that world that would leave a scope.  So the world holds
all values that it ever made, whether they are still in the buffer or not.
-/

namespace Pone
namespace Heap

section Effect

variable {κ : Type} {u u' u₁ : Universe κ} {world fuel : Nat} {source copy ref : Ref} {v : Value κ}

/-! ## What a copy is made of -/

/-- A copy is made of allocations in its world, of stores to values of that world, and of changes of
reference counts. -/
theorem valCopy_rel [DecidableEq κ] {R : Universe κ → Universe κ → Prop} (refl : ∀ u, R u u)
    (trans : ∀ {u u₁ u'}, R u u₁ → R u₁ u' → R u u')
    (alloc : ∀ {u v u' ref}, objAlloc u world v = some (u', ref) → R u u')
    (stores : ∀ {u index v u'}, store u (.slot world index) v = some u' → R u u')
    (counts : ∀ u bodies, R u { u with bodies := bodies })
    (executed : valCopy world fuel u source = some (u', copy)) : R u u' := by
  have slotted {u : Universe κ} {v : Value κ} {u' : Universe κ} {ref : Ref}
      (made : objAlloc u world v = some (u', ref)) :
      ∃ index, ref = .slot world index := by
    obtain ⟨_, _, rfl, _⟩ := objAlloc_allocator made
    exact ⟨_, rfl⟩
  induction fuel generalizing u source u' copy with
  | zero => cases executed
  | succ fuel ih =>
  have pushes {u u' : Universe κ} {retval item : Ref} (slot : ∃ index, retval = .slot world index)
      (pushed : aryPush u retval item = some u') : R u u' := by
    obtain ⟨index, rfl⟩ := slot
    unfold aryPush at pushed
    split at pushed
    · exact stores pushed
    · cases pushed
  have assigns {u u' : Universe κ} {retval key val : Ref} (slot : ∃ index, retval = .slot world index)
      (assigned : mapAssignKey (fuel + 1) u retval key val = some u') : R u u' := by
    obtain ⟨index, rfl⟩ := slot
    unfold mapAssignKey at assigned
    split at assigned
    · exact stores assigned
    · cases assigned
  have sets {u u' : Universe κ} {retval : Ref} {name : κ} {val : Ref}
      (slot : ∃ index, retval = .slot world index)
      (set : objSetIvar u retval name val = some u') : R u u' := by
    obtain ⟨index, rfl⟩ := slot
    unfold objSetIvar at set
    split at set
    · exact stores set
    · cases set
  cases found : u.value source with
  | none =>
      cases source with
      | nil | bool =>
          cases executed
          exact refl u
      | constInt => cases found
      | slot =>
          simp only [valCopy, found] at executed
          cases executed
  | some v =>
      rw [valCopy_succ found] at executed
      cases v with
      | int | num => exact alloc executed
      | str =>
          obtain ⟨bytes, -, made⟩ := Option.bind_eq_some_iff.mp executed
          exact alloc made
      | ary items =>
          simp only [aryCopy, Option.bind_eq_bind, Option.bind_eq_some_iff, Prod.exists] at executed
          obtain ⟨u₁, retval, made, filled, loop, same⟩ := executed
          cases same
          refine trans (alloc made) (foldlM_rel refl trans (fun pushed => ?_) loop)
          obtain ⟨⟨u₂, item⟩, copied, pushed⟩ := Option.bind_eq_some_iff.mp pushed
          exact trans (ih copied) (pushes (slotted made) pushed)
      | map entries =>
          simp only [mapCopy, Option.bind_eq_bind, Option.bind_eq_some_iff, Prod.exists] at executed
          obtain ⟨u₁, retval, made, filled, loop, same⟩ := executed
          cases same
          refine trans (alloc made) (foldlM_rel refl trans (fun assigned => ?_) loop)
          obtain ⟨⟨u₂, key⟩, copiedKey, assigned⟩ := Option.bind_eq_some_iff.mp assigned
          obtain ⟨⟨u₃, val⟩, copiedVal, assigned⟩ := Option.bind_eq_some_iff.mp assigned
          exact trans (ih copiedKey) (trans (ih copiedVal) (assigns (slotted made) assigned))
      | obj klass ivars =>
          simp only [objCopy, Option.bind_eq_bind, Option.bind_eq_some_iff, Prod.exists] at executed
          obtain ⟨u₁, retval, made, filled, loop, same⟩ := executed
          cases same
          unfold objNew at made
          split at made
          · exact trans (alloc made) (foldlM_rel refl trans (fun set => sets (slotted made) set) loop)
          · cases made
      | opaqueRef body =>
          obtain ⟨⟨u₁, _⟩, made, same⟩ := Option.map_eq_some_iff.mp executed
          cases same
          exact trans (alloc made) (counts u₁ _)
      | code | lex => cases executed

/-! ## What a copy does to the worlds -/

/-- A world after more has been put on its `tmpstack`. -/
structure World.Grows (w w' : World κ) (new : Ref → Prop) : Prop where
  lex : w'.lex = w.lex
  errvar : w'.errvar = w.errvar
  code : w'.code = w.code
  callerStack : w'.callerStack = w.callerStack
  handlers : w'.errHandlerLexs = w.errHandlerLexs
  kept : w.tmpstack ⊆ w'.tmpstack
  added : ∀ tmp ∈ w'.tmpstack, tmp ∈ w.tmpstack ∨ new tmp

/-- What is made in one world: values, which are all put on its `tmpstack`. -/
structure Makes (world : Nat) (u u' : Universe κ) : Prop where
  wellFormed : u'.WellFormed
  present : Present u u'
  others : ∀ other, other ≠ world → u'.worlds[other]? = u.worlds[other]?
  own : ∀ w, u.worlds[world]? = some w → ∃ w', u'.worlds[world]? = some w' ∧
    w.Grows w' (· ∈ newRefs u u') ∧ ∀ target ∈ newRefs u u', target ∈ w'.tmpstack

theorem World.Grows.trans {w w₁ w' : World κ} {p q r : Ref → Prop} (first : w.Grows w₁ p)
    (second : w₁.Grows w' q) (left : ∀ t, p t → r t) (right : ∀ t, q t → r t) : w.Grows w' r where
  lex := second.lex.trans first.lex
  errvar := second.errvar.trans first.errvar
  code := second.code.trans first.code
  callerStack := second.callerStack.trans first.callerStack
  handlers := second.handlers.trans first.handlers
  kept := fun _ member => second.kept (first.kept member)
  added := fun tmp member => by
    rcases second.added tmp member with old | new
    · exact (first.added tmp old).imp_right (left tmp)
    · exact .inr (right tmp new)

theorem Makes.refl (wellFormed : u.WellFormed) : Makes world u u where
  wellFormed := wellFormed
  present := fun _ set => set
  others := fun _ _ => rfl
  own := fun w found => ⟨w, found, ⟨rfl, rfl, rfl, rfl, rfl, fun _ member => member,
    fun _ member => .inl member⟩, fun _ new => absurd new.1 new.2⟩

theorem Makes.trans (first : Makes world u u₁) (second : Makes world u₁ u') : Makes world u u' where
  wellFormed := second.wellFormed
  present := first.present.trans second.present
  others := fun other elsewhere => (second.others other elsewhere).trans (first.others other elsewhere)
  own := fun w found => by
    obtain ⟨w₁, found₁, grows₁, new₁⟩ := first.own w found
    obtain ⟨w', found', grows', new'⟩ := second.own w₁ found₁
    have ⟨earlier, later⟩ := newRefs_mono first.present second.present
    refine ⟨w', found', grows₁.trans grows' (fun _ new => earlier new) (fun _ new => later new), ?_⟩
    intro target new
    by_cases early : u₁.value target = none
    · exact new' target ⟨early, new.2⟩
    · exact grows'.kept (new₁ target ⟨new.1, early⟩)

theorem objAlloc_world (executed : objAlloc u world v = some (u', ref)) :
    (∀ other, other ≠ world → u'.worlds[other]? = u.worlds[other]?) ∧
      ∀ w, u.worlds[world]? = some w → ∃ w', u'.worlds[world]? = some w' ∧
        w'.lex = w.lex ∧ w'.errvar = w.errvar ∧ w'.code = w.code ∧
          w'.callerStack = w.callerStack ∧ w'.errHandlerLexs = w.errHandlerLexs ∧
            w'.tmpstack = w.tmpstack ++ [ref] := by
  unfold objAlloc at executed
  split at executed
  · cases executed
  case h_2 w found =>
    split at executed <;> cases executed
    all_goals
      refine ⟨fun other elsewhere => ?_, fun w₁ found₁ => ?_⟩
      · simp [saveTmp, Universe.setSlot, getElem?_modifyWorld, elsewhere.symm]
      · cases found.symm.trans found₁
        simp [saveTmp, Universe.setSlot, getElem?_modifyWorld, found]

theorem objAlloc_makes (wellFormed : u.WellFormed) (executed : objAlloc u world v = some (u', ref)) :
    Makes world u u' := by
  obtain ⟨-, free, replaces⟩ := objAlloc_replaces wellFormed executed
  obtain ⟨others, own⟩ := objAlloc_world executed
  refine ⟨replaces.wellFormed wellFormed, .of_kept (kept_of_update replaces.value free), others, ?_⟩
  intro w found
  obtain ⟨w', found', lex, errvar, code, callers, handlers, tmps⟩ := own w found
  have new : ref ∈ newRefs u u' := ⟨free, by simp [replaces.value]⟩
  refine ⟨w', found', ⟨lex, errvar, code, callers, handlers, by simp [tmps], fun tmp member => ?_⟩,
    fun target made => ?_⟩
  · rw [tmps] at member
    rcases List.mem_append.mp member with old | last
    · exact .inl old
    · rw [List.mem_singleton.mp last]
      exact .inr new
  · rw [mem_newRefs_update replaces.value made, tmps]
    simp

theorem store_makes {index : Nat} (wellFormed : u.WellFormed)
    (executed : store u (.slot world index) v = some u') : Makes world u u' := by
  have replaces := store_replaces executed
  obtain ⟨_, _, before, same, found, rfl⟩ := store_eq_some_iff.mp executed
  cases same
  have nothing (target : Ref) : target ∉ newRefs u (u.setSlot world index (some v)) := by
    rintro ⟨unset, set⟩
    rw [replaces.value] at set
    by_cases here : target = .slot world index
    · rw [here, found] at unset
      cases unset
    · rw [Function.update_of_ne here] at set
      exact set unset
  refine ⟨replaces.wellFormed wellFormed, fun target set => ?_, fun other elsewhere => ?_,
    fun w here => ?_⟩
  · rw [replaces.value]
    by_cases here : target = .slot world index
    · simp [here]
    · rwa [Function.update_of_ne here]
  · simp [Universe.setSlot, getElem?_modifyWorld, elsewhere.symm]
  · refine ⟨{ w with slots := w.slots.set index (some v) }, ?_, ⟨rfl, rfl, rfl, rfl, rfl,
      fun _ member => member, fun _ member => .inl member⟩, fun target new => absurd new (nothing target)⟩
    simp [Universe.setSlot, getElem?_modifyWorld, here]

theorem valCopy_makes [DecidableEq κ] (wellFormed : u.WellFormed)
    (executed : valCopy world fuel u source = some (u', copy)) : Makes world u u' := by
  refine valCopy_rel (R := fun u u' => u.WellFormed → Makes world u u') (fun _ => .refl)
    (fun first second holds => ?_) (fun made holds => objAlloc_makes holds made)
    (fun stored holds => store_makes holds stored) (fun u bodies holds => ?_) executed wellFormed
  · have before := first holds
    exact before.trans (second before.wellFormed)
  · exact ⟨holds, fun _ set => set, fun _ _ => rfl, fun w found => ⟨w, found, ⟨rfl, rfl, rfl, rfl,
      rfl, fun _ member => member, fun _ member => .inl member⟩, fun _ new => absurd new.1 new.2⟩⟩

end Effect

/-! ## Channels -/

/-- `struct pone_chan`, less its mutex and its condition variables. -/
structure Chan where
  world : Nat
  limit : Int
  num : Int
  buffer : Ref

structure ChanState (κ : Type) where
  heap : Universe κ
  chan : Chan

section Channel

variable {κ : Type}

/-- `pone_ary_shift`, which throws on an empty array. -/
def aryShift (u : Universe κ) (world : Nat) (self : Ref) : Option (Universe κ × Ref) :=
  match u.value self with
  | some (.ary (retval :: rest)) =>
      (store u self (.ary rest)).map fun u => (saveTmp u world retval, retval)
  | _ => none

/-- `pone_chan_new`, which makes an opaque in the world of the caller. -/
def chanNew (u : Universe κ) (world : Nat) (klass : Ref) (limit : Int) :
    Option (ChanState κ × Ref) := do
  let chanWorld := u.worlds.length
  let (u, buffer) ← objAlloc (worldNew u) chanWorld (.ary [])
  let body := u.bodies.length
  let u := { u with bodies := u.bodies ++ [some { klass := klass, refcnt := 1 }] }
  let (u, self) ← objAlloc u world (.opaqueRef body)
  return (⟨u, ⟨chanWorld, limit, 0, buffer⟩⟩, self)

variable [DecidableEq κ]

/-- `pone_chan_send` from where it does not wait any more to its end. -/
def chanSend (fuel : Nat) (s : ChanState κ) (val : Ref) : Option (ChanState κ) :=
  if s.chan.limit < s.chan.num then none
  else do
    let (u, copy) ← valCopy s.chan.world fuel s.heap val
    let u ← aryPush u s.chan.buffer copy
    let w ← u.worlds[s.chan.world]?
    let u ← if w.gcRequested then gcRun u s.chan.world else some u
    return ⟨u, { s.chan with num := s.chan.num + 1 }⟩

/-- `pone_chan_trysend`, with its result. -/
def chanTrysend (fuel : Nat) (s : ChanState κ) (val : Ref) : Option (ChanState κ × Bool) :=
  if s.chan.limit > s.chan.num then do
    let (u, copy) ← valCopy s.chan.world fuel s.heap val
    let u ← aryPush u s.chan.buffer copy
    return (⟨u, { s.chan with num := s.chan.num + 1 }⟩, true)
  else some (s, false)

/-- `pone_chan_receive` from where it does not wait any more, with the value that it takes out of the
buffer and the copy that it returns. -/
def chanReceive (world fuel : Nat) (s : ChanState κ) : Option (ChanState κ × Ref × Ref) :=
  if s.chan.num = 0 then none
  else do
    let (u, val) ← aryShift s.heap s.chan.world s.chan.buffer
    let (u, retval) ← valCopy world fuel u val
    return (⟨u, { s.chan with num := s.chan.num - 1 }⟩, val, retval)

/-- What happens to a channel, with the value that is taken out of the buffer.  Nobody runs code in
the world of the channel, so everything else leaves that world alone. -/
inductive ChanStep (s : ChanState κ) : Option Ref → ChanState κ → Prop where
  | send {val : Ref} {s' : ChanState κ} (sendable : AllSendable s.heap val)
      (taken : ∃ enough, ∀ fuel ≥ enough, chanSend fuel s val = some s') : ChanStep s none s'
  | trysend {val : Ref} {sent : Bool} {s' : ChanState κ} (sendable : AllSendable s.heap val)
      (taken : ∃ enough, ∀ fuel ≥ enough, chanTrysend fuel s val = some (s', sent)) :
      ChanStep s none s'
  | receive {world : Nat} {val retval : Ref} {s' : ChanState κ} (elsewhere : world ≠ s.chan.world)
      (taken : ∃ enough, ∀ fuel ≥ enough, chanReceive world fuel s = some (s', val, retval)) :
      ChanStep s (some val) s'
  | other {u : Universe κ} (wellFormed : u.WellFormed)
      (same : u.worlds[s.chan.world]? = s.heap.worlds[s.chan.world]?) :
      ChanStep s none { s with heap := u }

/-- A run of a channel: each step with what it takes out of the buffer. -/
inductive ChanRun : ChanState κ → List (Option Ref × ChanState κ) → Prop where
  | done (s : ChanState κ) : ChanRun s []
  | step {s s' : ChanState κ} {val : Option Ref} {rest : List (Option Ref × ChanState κ)}
      (taken : ChanStep s val s') (further : ChanRun s' rest) : ChanRun s ((val, s') :: rest)

omit [DecidableEq κ] in
/-- The roots of a world lead to the value. -/
def Rooted (u : Universe κ) (world : Nat) (ref : Ref) : Prop :=
  ∃ w, u.worlds[world]? = some w ∧ ∃ root ∈ w.roots,
    Relation.ReflTransGen (fun parent child => child ∈ u.pointers parent) root ref

/-- What the channel needs: its lex, its caller stack, its buffer, and all that is behind them. -/
def Needed (s : ChanState κ) (ref : Ref) : Prop :=
  ∃ w, s.heap.worlds[s.chan.world]? = some w ∧
    ∃ root ∈ w.lex.toList ++ w.callerStack.toList ++ [s.chan.buffer],
      Relation.ReflTransGen (fun parent child => child ∈ s.heap.pointers parent) root ref

/-- A value of an arena; all others are static. -/
def Ref.isSlot : Ref → Prop
  | .slot _ _ => True
  | .nil | .bool _ | .constInt _ => False

/-- After a step the channel does not hold on to what it has delivered: the value taken out is not
rooted, what is rooted is what is needed, and a collection frees exactly what is not needed. -/
structure HoldsOnlyNeeded (s : ChanState κ) (taken : Option Ref) : Prop where
  gone : ∀ val, taken = some val → val.isSlot → ¬ Rooted s.heap s.chan.world val
  rooted : ∀ ref, ref.isSlot → (Rooted s.heap s.chan.world ref ↔ Needed s ref)
  collected : ∃ u, gcRun s.heap s.chan.world = some u ∧ ∀ index,
    Freed s.heap u (.slot s.chan.world index) ↔
      s.heap.value (.slot s.chan.world index) ≠ none ∧ ¬ Needed s (.slot s.chan.world index)

/-! ## All that was made is rooted -/

/-- The slots of a world. -/
def ownSlots (world : Nat) : Set Ref := {ref | ∃ index, ref = .slot world index}

/-- The world of a channel with its buffer.  No code runs in it. -/
structure Idle (u : Universe κ) (world : Nat) (buffer : Ref) (w : World κ) : Prop where
  wellFormed : u.WellFormed
  found : u.worlds[world]? = some w
  errvar : w.errvar = some .nil
  code : w.code = none
  handlers : w.errHandlerLexs = [none]
  array : (∃ index, buffer = .slot world index) ∧ ∃ items, u.value buffer = some (.ary items)
  rooted : buffer ∈ w.tmpstack
  stored : ∀ index, u.value (.slot world index) ≠ none →
    .slot world index ∈ w.tmpstack ∨ w.lex = some (.slot world index)

def anchors (w : World κ) (buffer : Ref) : List Ref :=
  w.lex.toList ++ w.callerStack.toList ++ [buffer]

/-- All that is on `tmpstack` is needed. -/
def TmpsNeeded (u : Universe κ) (world : Nat) (buffer : Ref) (w : World κ) : Prop :=
  ∀ tmp ∈ w.tmpstack, tmp.isSlot → ∃ root ∈ anchors w buffer, Behind u (ownSlots world) root tmp

variable {u u' u₁ : Universe κ} {world fuel : Nat} {buffer copy val : Ref} {w w' : World κ}

omit [DecidableEq κ]

theorem value_of_world {index : Nat} (same : u'.worlds[world]? = u.worlds[world]?) :
    u'.value (.slot world index) = u.value (.slot world index) := by
  simp only [Universe.value, same]

/-- What is behind a value stays behind it while the slots of the world keep their pointers. -/
theorem Behind.slots {root target : Ref} (behind : Behind u (ownSlots world) root target)
    (slot : target.isSlot)
    (kept : ∀ index child, child.isSlot → child ∈ u.children (.slot world index) →
      child ∈ u'.children (.slot world index)) : Behind u' (ownSlots world) root target := by
  induction behind with
  | refl => exact .refl
  | tail _ pointer ih =>
      obtain ⟨⟨index, rfl⟩, child⟩ := pointer
      exact (ih trivial).tail ⟨⟨index, rfl⟩, kept index _ slot child⟩

theorem TmpsNeeded.kept (needed : TmpsNeeded u world buffer w)
    (same : anchors w' buffer = anchors w buffer)
    (tmps : ∀ tmp ∈ w'.tmpstack, tmp.isSlot → tmp ∈ w.tmpstack)
    (kept : ∀ index child, child.isSlot → child ∈ u.children (.slot world index) →
      child ∈ u'.children (.slot world index)) : TmpsNeeded u' world buffer w' := by
  intro tmp member slot
  obtain ⟨root, anchor, behind⟩ := needed tmp (tmps tmp member slot) slot
  exact ⟨root, same ▸ anchor, behind.slots slot kept⟩

/-- What leaves the world of the channel alone. -/
theorem Idle.leave (idle : Idle u world buffer w) (wellFormed : u'.WellFormed)
    (same : u'.worlds[world]? = u.worlds[world]?) :
    Idle u' world buffer w ∧ (TmpsNeeded u world buffer w → TmpsNeeded u' world buffer w) := by
  refine ⟨⟨wellFormed, same.trans idle.found, idle.errvar, idle.code, idle.handlers, ⟨idle.array.1, ?_⟩,
    idle.rooted, fun index set => idle.stored index (value_of_world same ▸ set)⟩, fun needed => ?_⟩
  · obtain ⟨⟨index, rfl⟩, items, found⟩ := idle.array
    exact ⟨items, (value_of_world same).trans found⟩
  · refine needed.kept rfl (fun _ member _ => member) fun index child _ pointer => ?_
    rwa [Universe.children, value_of_world same]

theorem Makes.mem_ownSlots (makes : Makes world u u') {target : Ref} (new : target ∈ newRefs u u') :
    target ∈ ownSlots world := by
  cases target with
  | slot other index =>
      by_cases here : other = world
      · exact ⟨index, by rw [here]⟩
      · have same : u'.value (.slot other index) = u.value (.slot other index) :=
          value_of_world (makes.others other here)
        exact absurd (same.trans new.1) new.2
  | nil | bool => exact absurd rfl new.2
  | constInt i => cases new.1

/-- What is made in the world is put on `tmpstack`. -/
theorem Idle.makes (idle : Idle u world buffer w) (makes : Makes world u u')
    (content : ∃ items, u'.value buffer = some (.ary items)) :
    ∃ w', Idle u' world buffer w' ∧ w.Grows w' (· ∈ newRefs u u') := by
  obtain ⟨w', found, grows, new⟩ := makes.own w idle.found
  refine ⟨w', ⟨makes.wellFormed, found, grows.errvar.trans idle.errvar, grows.code.trans idle.code,
    grows.handlers.trans idle.handlers, ⟨idle.array.1, content⟩, grows.kept idle.rooted,
    fun index set => ?_⟩, grows⟩
  by_cases early : u.value (.slot world index) = none
  · exact .inl (new _ ⟨early, set⟩)
  · rw [grows.lex]
    exact (idle.stored index early).imp_left fun member => grows.kept member

/-- What a copy that ends has made, when the fuel is large. -/
theorem produced_of_copied [DecidableEq κ] {source : Ref} {result : Universe κ × Ref}
    (ongoing : Ongoing u world u) (sendable : AllSendable u source)
    (ended : valCopy world fuel u source = some result) :
    ∃ least, ∀ fuel ≥ least, ∀ u₁ copy, valCopy world fuel u source = some (u₁, copy) →
      Produced u u u₁ source copy := by
  have unfolds := (valCopy_ends sendable u _ _ ongoing ended).2.2
  obtain ⟨least, duplicated⟩ : ∃ least, ∀ fuel ≥ least,
      Duplicated u world (valCopy world fuel) source := valCopy_duplicates unfolds
  refine ⟨least, fun fuel more u₁ copy executed => ?_⟩
  obtain ⟨_, _, executed', -, produced⟩ := duplicated fuel more u ongoing
  cases executed.symm.trans executed'
  exact produced

theorem Idle.ongoing (idle : Idle u world buffer w) : Ongoing u world u := by
  refine ⟨⟨idle.wellFormed, rfl, fun _ _ => rfl⟩, ?_⟩
  rw [Universe.allocator, idle.found]
  rfl

/-- A copy is put into the buffer. -/
theorem Idle.push {source : Ref} (idle : Idle u world buffer w) (makes : Makes world u u₁)
    (produced : Produced u u u₁ source copy) (pushed : aryPush u₁ buffer copy = some u') :
    ∃ w', Idle u' world buffer w' ∧
      (TmpsNeeded u world buffer w → TmpsNeeded u' world buffer w') := by
  obtain ⟨⟨index, rfl⟩, items, content⟩ := idle.array
  have content₁ : u₁.value (.slot world index) = some (.ary items) := by
    rw [produced.kept _ (by simp [content]), content]
  simp only [aryPush, content₁] at pushed
  have replaces := store_replaces pushed
  have content' : u'.value (.slot world index) = some (.ary (items ++ [copy])) := by
    rw [replaces.value, Function.update_self]
  have stores := store_makes makes.wellFormed pushed
  obtain ⟨w', idle', grows⟩ := idle.makes (makes.trans stores) ⟨_, content'⟩
  have anchored : anchors w' (.slot world index) = anchors w (.slot world index) := by
    rw [anchors, anchors, grows.lex, grows.callerStack]
  have kept (place : Nat) (child : Ref) (_ : child.isSlot)
      (pointer : child ∈ u.children (.slot world place)) :
      child ∈ u'.children (.slot world place) := by
    by_cases here : place = index
    · subst here
      simp only [Universe.children, content, content', Option.elim_some, Value.children] at pointer ⊢
      exact List.mem_append_left _ pointer
    · have set : u.value (.slot world place) ≠ none := by
        intro unset
        simp [Universe.children, unset] at pointer
      have elsewhere : (Ref.slot world place) ≠ .slot world index := fun same =>
        here (Ref.slot.inj same).2
      rw [Universe.children, replaces.value, Function.update_of_ne elsewhere,
        produced.kept _ set]
      exact pointer
  refine ⟨w', idle', fun needed tmp member slot => ?_⟩
  rcases grows.added tmp member with old | new
  · obtain ⟨root, anchor, behind⟩ := needed tmp old slot
    exact ⟨root, anchored ▸ anchor, behind.slots slot kept⟩
  · have early : tmp ∈ newRefs u u₁ := by
      refine ⟨new.1, fun unset => new.2 ?_⟩
      rw [replaces.value, Function.update_of_ne ?_, unset]
      rintro rfl
      cases content.symm.trans new.1
    have steady (parent : Ref) (mine : parent ∈ newRefs u u₁) : u'.value parent = u₁.value parent := by
      rw [replaces.value, Function.update_of_ne]
      rintro rfl
      cases content.symm.trans mine.1
    refine ⟨.slot world index, by simp [anchors], .head ⟨⟨index, rfl⟩, ?_⟩
      ((produced.complete tmp early).frame steady fun _ => makes.mem_ownSlots)⟩
    simp [Universe.children, content', Value.children]

/-- The first value is taken out of the buffer. -/
theorem Idle.shift (idle : Idle u world buffer w)
    (shifted : aryShift u world buffer = some (u', val)) :
    ∃ w', Idle u' world buffer w' ∧ val ∈ w'.tmpstack ∧
      (¬ val.isSlot → TmpsNeeded u world buffer w → TmpsNeeded u' world buffer w') := by
  obtain ⟨⟨index, rfl⟩, items, content⟩ := idle.array
  cases items with
  | nil => simp [aryShift, content] at shifted
  | cons first rest =>
  simp only [aryShift, content] at shifted
  obtain ⟨u₁, stored, same⟩ := Option.map_eq_some_iff.mp shifted
  cases same
  have replaces := store_replaces stored
  have stores := store_makes idle.wellFormed stored
  have content₁ : u₁.value (.slot world index) = some (.ary rest) := by
    rw [replaces.value, Function.update_self]
  obtain ⟨w₁, idle₁, grows⟩ := idle.makes stores ⟨_, content₁⟩
  have value (ref : Ref) : (saveTmp u₁ world val).value ref = u₁.value ref :=
    value_modifyWorld (by exact fun _ => rfl)
  have nothing (target : Ref) : target ∉ newRefs u u₁ := by
    rintro ⟨unset, set⟩
    rw [replaces.value] at set
    by_cases here : target = .slot world index
    · cases content.symm.trans (here ▸ unset)
    · exact set (by rwa [Function.update_of_ne here])
  refine ⟨{ w₁ with tmpstack := w₁.tmpstack ++ [val] }, ⟨wellFormed_saveTmp idle₁.wellFormed val,
    ?_, idle₁.errvar, idle₁.code, idle₁.handlers, ⟨⟨index, rfl⟩, rest, (value _).trans content₁⟩,
    List.mem_append_left _ idle₁.rooted, fun place set => ?_⟩, by simp, fun static needed => ?_⟩
  · simp [saveTmp, getElem?_modifyWorld, idle₁.found]
  · rw [value] at set
    exact (idle₁.stored place set).imp_left fun member => List.mem_append_left _ member
  · refine needed.kept ?_ (fun tmp member slot => ?_) fun place child slot pointer => ?_
    · simp [anchors, grows.lex, grows.callerStack]
    · rcases List.mem_append.mp member with old | last
      · exact (grows.added tmp old).resolve_right (nothing tmp)
      · exact absurd (List.mem_singleton.mp last ▸ slot) static
    · rw [Universe.children, value, replaces.value]
      by_cases here : place = index
      · subst here
        rw [Function.update_self]
        simp only [Universe.children, content, Option.elim_some, Value.children] at pointer ⊢
        rcases List.mem_cons.mp pointer with rfl | later
        · exact absurd slot static
        · exact later
      · rwa [Function.update_of_ne fun same => here (Ref.slot.inj same).2]

/-! ## Collections of the world of a channel -/

theorem Idle.traced (idle : Idle u world buffer w) {index : Nat}
    (set : u.value (.slot world index) ≠ none) : Traced u world (.slot world index) := by
  by_cases marked : u.marked (.slot world index) = true
  · exact .inl marked
  · refine .inr ⟨.slot world index, ?_, by simpa using marked, .refl⟩
    rw [Universe.gcRoots, idle.found]
    refine List.mem_append_right _ ?_
    simp only [Option.map_some, Option.getD_some, World.markedRoots, List.mem_append]
    rcases idle.stored index set with tmp | lex
    · exact .inr tmp
    · simp [lex]

/-- No collection of the world frees anything. -/
theorem Idle.collect (idle : Idle u world buffer w) :
    ∃ u', gcRun u world = some u' ∧ (∀ index, u'.value (.slot world index) = u.value (.slot world index)) ∧
      ∃ w', Idle u' world buffer w' ∧ (TmpsNeeded u world buffer w → TmpsNeeded u' world buffer w') := by
  obtain ⟨marked, marking⟩ : ∃ marked, gcMark u world = some marked := by
    simp [gcMark, idle.found, idle.handlers]
  obtain ⟨u', executed⟩ := gcRun_ends_of_traced marking fun _ set => idle.traced set
  have kept (index : Nat) : u'.value (.slot world index) = u.value (.slot world index) := by
    have stays : u'.value (.slot world index) = none ∨
        u'.value (.slot world index) = u.value (.slot world index) := gcRun_value executed
    rcases stays with gone | same
    · by_cases set : u.value (.slot world index) = none
      · rw [gone, set]
      · exact absurd (idle.traced set) ((gcRun_freed executed).mp ⟨set, gone⟩).2.2
    · exact same
  let observe (w : World κ) :=
    (w.lex, w.errvar, w.code, w.callerStack, w.errHandlerLexs, w.tmpstack)
  have observed : (u'.worlds[world]?).map observe = some (observe w) := by
    rw [gcRun_observes observe (fun _ _ => rfl) (fun _ _ => rfl) (fun _ => rfl) executed, idle.found]
    rfl
  obtain ⟨w', found', same⟩ := Option.map_eq_some_iff.mp observed
  simp only [observe, Prod.mk.injEq] at same
  obtain ⟨lex, errvar, code, callers, handlers, tmps⟩ := same
  refine ⟨u', executed, kept, w', ⟨wellFormed_gcRun idle.wellFormed executed, found',
    errvar.trans idle.errvar, code.trans idle.code, handlers.trans idle.handlers,
    ⟨idle.array.1, ?_⟩, tmps ▸ idle.rooted, fun index set => ?_⟩, fun needed => ?_⟩
  · obtain ⟨⟨index, rfl⟩, items, content⟩ := idle.array
    exact ⟨items, (kept index).trans content⟩
  · rw [tmps, lex]
    exact idle.stored index (kept index ▸ set)
  · refine needed.kept ?_ (fun tmp member _ => tmps ▸ member) fun index child _ pointer => ?_
    · rw [anchors, anchors, lex, callers]
    · rwa [Universe.children, kept index]

/-! ## The new channel -/

theorem chanNew_idle {klass self : Ref} {limit : Int} {start : ChanState κ} (wellFormed : u.WellFormed)
    (inside : world < u.worlds.length) (made : chanNew u world klass limit = some (start, self)) :
    ∃ w, Idle start.heap start.chan.world start.chan.buffer w ∧
      TmpsNeeded start.heap start.chan.world start.chan.buffer w := by
  simp only [chanNew, Option.bind_eq_bind, Option.bind_eq_some_iff, Prod.exists] at made
  obtain ⟨u₁, buffer, alloc, u₂, opaqueRef, alloc', same⟩ := made
  cases same
  have found₀ : (worldNew u).worlds[u.worlds.length]? = some {
      slots := [some (.lex none ∅), some (.ary [])], freelist := [], code := none
      lex := some (.slot u.worlds.length 0), errvar := some .nil
      callerStack := some (.slot u.worlds.length 1), errHandlerLexs := [none]
      tmpstack := [.slot u.worlds.length 1], savestack := [], gcRequested := false } := by
    simp [worldNew]
  have wellFormed₀ := wellFormed_worldNew wellFormed
  have makes := objAlloc_makes wellFormed₀ alloc
  obtain ⟨⟨index, rfl⟩, free, replaces⟩ := objAlloc_replaces wellFormed₀ alloc
  obtain ⟨w₁, found₁, lex, errvar, code, callers, handlers, tmps⟩ := (objAlloc_world alloc).2 _ found₀
  have stored (place : Nat) (set : u₁.value (.slot u.worlds.length place) ≠ none) :
      .slot u.worlds.length place ∈ w₁.tmpstack ∨ w₁.lex = some (.slot u.worlds.length place) := by
    rw [tmps, lex]
    by_cases here : place = index
    · rw [here]
      exact .inl (List.mem_append_right _ (List.mem_singleton_self _))
    · rw [replaces.value, Function.update_of_ne fun same => here (Ref.slot.inj same).2] at set
      simp only [Universe.value, found₀, Option.bind_some] at set
      rcases place with _ | _ | place
      · exact .inr rfl
      · exact .inl (List.mem_append_left _ (List.mem_singleton_self _))
      · simp at set
  have idle₁ : Idle u₁ u.worlds.length (.slot u.worlds.length index) w₁ :=
    ⟨makes.wellFormed, found₁, errvar, code, handlers, ⟨⟨index, rfl⟩, [], by
      rw [replaces.value, Function.update_self]⟩, by simp [tmps], stored⟩
  have needed₁ : TmpsNeeded u₁ u.worlds.length (.slot u.worlds.length index) w₁ := by
    intro tmp member _
    refine ⟨tmp, ?_, .refl⟩
    rw [tmps, List.singleton_append] at member
    simp only [anchors, callers, List.mem_append]
    rcases List.mem_pair.mp member with rfl | rfl
    · exact .inl (.inr (by simp))
    · exact .inr (List.mem_singleton_self _)
  have others := (objAlloc_makes (u := { u₁ with bodies := u₁.bodies ++ [some ⟨klass, 1⟩] })
    makes.wellFormed alloc')
  obtain ⟨idle, needed⟩ := idle₁.leave others.wellFormed (others.others _ (by omega))
  exact ⟨w₁, idle, needed needed₁⟩

/-! ## Runs -/

/-- A value is copied and pushed, by `pone_chan_send` or by `pone_chan_trysend`. -/
theorem Idle.copyPush [DecidableEq κ] {source : Ref} {α : Type} {rest : Universe κ → Option α}
    {result : α} (idle : Idle u world buffer w) (sendable : AllSendable u source)
    (taken : ∃ enough, ∀ fuel ≥ enough, ((valCopy world fuel u source).bind fun copied =>
      (aryPush copied.1 buffer copied.2).bind rest) = some result) :
    ∃ u' w', rest u' = some result ∧ Idle u' world buffer w' ∧
      (TmpsNeeded u world buffer w → TmpsNeeded u' world buffer w') := by
  obtain ⟨enough, taken⟩ := taken
  obtain ⟨_, ended, -⟩ := Option.bind_eq_some_iff.mp (taken enough (Nat.le_refl _))
  obtain ⟨least, produced⟩ := produced_of_copied idle.ongoing sendable ended
  obtain ⟨⟨u₁, copy⟩, copied, pushed⟩ :=
    Option.bind_eq_some_iff.mp (taken (max enough least) (Nat.le_max_left ..))
  obtain ⟨u', pushed, finished⟩ := Option.bind_eq_some_iff.mp pushed
  obtain ⟨w', idle', needed⟩ := idle.push (valCopy_makes idle.wellFormed copied)
    (produced _ (Nat.le_max_right ..) u₁ copy copied) pushed
  exact ⟨u', w', finished, idle', needed⟩

theorem Idle.step [DecidableEq κ] {s s' : ChanState κ} {taken : Option Ref}
    (idle : Idle s.heap s.chan.world s.chan.buffer w) (step : ChanStep s taken s') :
    ∃ w', Idle s'.heap s'.chan.world s'.chan.buffer w' ∧ (∀ val ∈ taken, val ∈ w'.tmpstack) ∧
      ((∀ val ∈ taken, ¬ val.isSlot) → TmpsNeeded s.heap s.chan.world s.chan.buffer w →
        TmpsNeeded s'.heap s'.chan.world s'.chan.buffer w') := by
  cases step with
  | send sendable sent =>
      have room : ¬ s.chan.limit < s.chan.num := by
        intro full
        obtain ⟨enough, sent⟩ := sent
        have ends := sent enough (Nat.le_refl _)
        rw [chanSend, if_pos full] at ends
        cases ends
      simp only [chanSend, if_neg room, Option.bind_eq_bind] at sent
      obtain ⟨u', w', finished, idle', needed⟩ := idle.copyPush sendable sent
      rw [idle'.found, Option.bind_some] at finished
      split at finished
      · obtain ⟨u'', collected, same⟩ := Option.bind_eq_some_iff.mp finished
        cases same
        obtain ⟨_, executed, -, w'', idle'', needed'⟩ := idle'.collect
        cases collected.symm.trans executed
        exact ⟨w'', idle'', fun _ => (nomatch ·), fun _ before => needed' (needed before)⟩
      · cases finished
        exact ⟨w', idle', fun _ => (nomatch ·), fun _ => needed⟩
  | @trysend val sent s' sendable taken =>
      by_cases room : s.chan.limit > s.chan.num
      · simp only [chanTrysend, if_pos room, Option.bind_eq_bind] at taken
        obtain ⟨u', w', finished, idle', needed⟩ := idle.copyPush sendable taken
        cases finished
        exact ⟨w', idle', fun _ => (nomatch ·), fun _ => needed⟩
      · obtain ⟨enough, taken⟩ := taken
        have same := taken enough (Nat.le_refl _)
        rw [chanTrysend, if_neg room] at same
        cases same
        exact ⟨w, idle, fun _ => (nomatch ·), fun _ before => before⟩
  | @receive other val retval s' elsewhere received =>
      obtain ⟨enough, received⟩ := received
      have ends := received enough (Nat.le_refl _)
      unfold chanReceive at ends
      split at ends
      · cases ends
      · obtain ⟨⟨u₁, val'⟩, shifted, ends⟩ := Option.bind_eq_some_iff.mp ends
        obtain ⟨⟨u₂, retval'⟩, copied, same⟩ := Option.bind_eq_some_iff.mp ends
        cases same
        obtain ⟨w₁, idle₁, held, needed⟩ := idle.shift shifted
        have makes := valCopy_makes idle₁.wellFormed copied
        obtain ⟨idle₂, needed'⟩ := idle₁.leave makes.wellFormed
          (makes.others _ elsewhere.symm)
        refine ⟨w₁, idle₂, fun val' same => ?_, fun static before => needed' (needed ?_ before)⟩
        · cases same
          exact held
        · exact static val rfl
  | other wellFormed same =>
      obtain ⟨idle', needed⟩ := idle.leave wellFormed same
      exact ⟨w, idle', fun _ => (nomatch ·), fun _ => needed⟩

private theorem path_of_behind {root target : Ref} (behind : Behind u (ownSlots world) root target) :
    Relation.ReflTransGen (fun parent child => child ∈ u.pointers parent) root target :=
  Relation.ReflTransGen.mono (fun _ _ pointer => mem_pointers_iff.mpr (.inl pointer.2)) _ _ behind

private theorem static_path {root target : Ref} (static : ¬ root.isSlot)
    (path : Relation.ReflTransGen (fun parent child => child ∈ u.pointers parent) root target) :
    target = root := by
  rcases Relation.ReflTransGen.cases_head path with same | ⟨child, pointer, -⟩
  · exact same.symm
  · cases root with
    | nil | bool | constInt =>
        simp [Universe.pointers, Universe.value, Value.pointers] at pointer
    | slot => exact absurd trivial static

/-- While all that is on `tmpstack` is needed the channel holds on to nothing. -/
theorem holdsOnlyNeeded {s : ChanState κ} {taken : Option Ref}
    (idle : Idle s.heap s.chan.world s.chan.buffer w)
    (needed : TmpsNeeded s.heap s.chan.world s.chan.buffer w)
    (static : ∀ val, taken = some val → ¬ val.isSlot) : HoldsOnlyNeeded s taken := by
  have tmp_needed {tmp : Ref} (member : tmp ∈ w.tmpstack) (slot : tmp.isSlot) : Needed s tmp := by
    obtain ⟨root, anchor, behind⟩ := needed tmp member slot
    exact ⟨w, idle.found, root, anchor, path_of_behind behind⟩
  have all_needed (index : Nat) (set : s.heap.value (.slot s.chan.world index) ≠ none) :
      Needed s (.slot s.chan.world index) := by
    rcases idle.stored index set with tmp | lex
    · exact tmp_needed tmp trivial
    · exact ⟨w, idle.found, _, by simp [lex], .refl⟩
  refine ⟨fun val same slot => absurd slot (static val same), fun ref slot => ⟨?_, ?_⟩, ?_⟩
  · rintro ⟨w', found, root, held, path⟩
    cases idle.found.symm.trans found
    have not_nil : root ≠ .nil := by
      rintro rfl
      rw [static_path id path] at slot
      exact slot
    simp only [World.roots, idle.errvar, idle.code, idle.handlers, List.mem_append,
      Option.toList_some, Option.toList_none, List.mem_singleton, List.not_mem_nil, or_false,
      List.filterMap_cons, List.filterMap_nil, id] at held
    rcases held with ((lex | errvar) | callers) | tmp
    · exact ⟨w, found, root, by simp [lex], path⟩
    · exact absurd errvar not_nil
    · exact ⟨w, found, root, by simp [callers], path⟩
    · by_cases isSlot : root.isSlot
      · obtain ⟨w', found', root', anchor, path'⟩ := tmp_needed tmp isSlot
        exact ⟨w', found', root', anchor, path'.trans path⟩
      · rw [static_path isSlot path] at slot
        exact absurd slot isSlot
  · rintro ⟨w', found, root, anchor, path⟩
    cases idle.found.symm.trans found
    refine ⟨w, found, root, ?_, path⟩
    simp only [List.mem_append, List.mem_singleton] at anchor
    rcases anchor with (lex | callers) | rfl
    · simp [World.roots, lex]
    · simp [World.roots, callers]
    · simp [World.roots, idle.rooted]
  · obtain ⟨u', executed, kept, -⟩ := idle.collect
    refine ⟨u', executed, fun index => ⟨fun freed => ?_, ?_⟩⟩
    · exact absurd ((kept index).symm.trans freed.2) freed.1
    · rintro ⟨set, unneeded⟩
      exact absurd (all_needed index set) unneeded

/-- On a run the channel holds on to nothing that it does not need exactly when it delivers nothing
but `nil` and booleans. -/
theorem chan_holdsOnlyNeeded_iff [DecidableEq κ] {klass self : Ref} {limit : Int}
    {start : ChanState κ} {steps : List (Option Ref × ChanState κ)} (reached : Reached u)
    (inside : world < u.worlds.length) (made : chanNew u world klass limit = some (start, self))
    (run : ChanRun start steps) :
    (HoldsOnlyNeeded start none ∧ ∀ after ∈ steps, HoldsOnlyNeeded after.2 after.1) ↔
      ∀ after ∈ steps, ∀ val, after.1 = some val → ¬ val.isSlot := by
  obtain ⟨w, idle, needed⟩ := chanNew_idle reached.wellFormed inside made
  clear made
  constructor
  · rintro ⟨-, all⟩
    clear needed
    induction run generalizing w with
    | done => exact fun _ member => by cases member
    | @step s s' taken rest step _ ih =>
        obtain ⟨w', idle', held, -⟩ := idle.step step
        intro after member val same
        rcases List.mem_cons.mp member with rfl | later
        · intro slot
          refine (all _ (List.mem_cons_self ..)).gone val same slot ⟨w', idle'.found, val, ?_, .refl⟩
          simp [World.roots, held val same]
        · exact ih w' idle' (fun other listed => all other (List.mem_cons_of_mem _ listed)) after
            later val same
  · intro static
    refine ⟨holdsOnlyNeeded idle needed fun _ same => (by cases same), ?_⟩
    induction run generalizing w with
    | done => exact fun _ member => by cases member
    | @step s s' taken rest step _ ih =>
        have here := static (taken, s') (List.mem_cons_self ..)
        obtain ⟨w', idle', -, needed'⟩ := idle.step step
        have needed₁ := needed' here needed
        intro after member
        rcases List.mem_cons.mp member with rfl | later
        · exact holdsOnlyNeeded idle' needed₁ here
        · exact ih w' idle' needed₁ (fun other listed => static other (List.mem_cons_of_mem _ listed))
            after later

end Channel

/-! ## A channel that has delivered a number -/

def oneWorld : Universe Nat := worldNew universeInit

theorem reached_oneWorld : Reached oneWorld := by
  have taken : step universeInit (.worldNew : Op Nat) = some oneWorld := rfl
  exact .op .init taken

/-- A channel with the limit 1. -/
def newChannel : ChanState Nat :=
  ((chanNew oneWorld 0 .nil 1).map Prod.fst).getD ⟨oneWorld, 0, 0, 0, .nil⟩

/-- After the number 7 was sent. -/
def sentSeven : ChanState Nat := (chanSend 1 newChannel (.constInt 7)).getD newChannel

/-- After it was received. -/
def receivedSeven : ChanState Nat :=
  ((chanReceive 0 1 sentSeven).map Prod.fst).getD newChannel

theorem chanNew_oneWorld : ∃ self, chanNew oneWorld 0 .nil 1 = some (newChannel, self) := ⟨_, rfl⟩

theorem run_seven : ChanRun newChannel [(none, sentSeven), (some (.slot 1 3), receivedSeven)] := by
  have sendable : AllSendable newChannel.heap (.constInt 7) := by
    intro target path
    rcases Relation.ReflTransGen.cases_head path with rfl | ⟨child, contains, -⟩
    · exact .int 7 rfl
    · rcases contains with ⟨items, found, -⟩ | ⟨entries, _, found, -⟩ <;> cases found
  have sent : ∀ fuel ≥ 1, chanSend fuel newChannel (.constInt 7) = some sentSeven := by
    intro fuel enough
    obtain ⟨fuel, rfl⟩ := Nat.exists_eq_add_of_le' enough
    rfl
  have received : ∀ fuel ≥ 1, chanReceive 0 fuel sentSeven =
      some (receivedSeven, .slot 1 3, .slot 0 3) := by
    intro fuel enough
    obtain ⟨fuel, rfl⟩ := Nat.exists_eq_add_of_le' enough
    rfl
  exact .step (.send sendable ⟨1, sent⟩) (.step (.receive (by decide) ⟨1, received⟩) (.done _))

theorem chan_holdsOnlyNeeded_iff_seven :
    (HoldsOnlyNeeded newChannel none ∧
      ∀ after ∈ [(none, sentSeven), (some (.slot 1 3), receivedSeven)],
        HoldsOnlyNeeded after.2 after.1) ↔
      ∀ after ∈ [((none : Option Ref), sentSeven), (some (.slot 1 3), receivedSeven)],
        ∀ val, after.1 = some val → ¬ val.isSlot := by
  obtain ⟨self, made⟩ := chanNew_oneWorld
  exact chan_holdsOnlyNeeded_iff reached_oneWorld (by decide) made run_seven

/-- The number that was received is still rooted in the world of the channel, and no collection frees
it. -/
theorem channel_holds_seven :
    Reached oneWorld ∧ (∃ self, chanNew oneWorld 0 .nil 1 = some (newChannel, self)) ∧
      ChanRun newChannel [(none, sentSeven), (some (.slot 1 3), receivedSeven)] ∧
      ¬ HoldsOnlyNeeded receivedSeven (some (.slot 1 3)) := by
  refine ⟨reached_oneWorld, chanNew_oneWorld, run_seven, fun holds => ?_⟩
  refine holds.gone _ rfl trivial ⟨_, rfl, .slot 1 3, ?_, .refl⟩
  decide

end Heap
end Pone
