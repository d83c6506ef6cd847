import Mathlib.Data.List.Nodup
import Mathlib.Data.List.Perm.Subperm
import Mathlib.Logic.Function.Basic
import Pone.Execution
import Pone.ScopeChain

/-!
# Arenas and the freelist

`pone_obj_alloc`, `pone_val_free` and the sweep of `pone_gc_collect` on the memory of one world: a
linked list of arenas, and a freelist that goes through the freed slots themselves.
-/

namespace Pone
namespace Allocator

/-- `pone_t`. -/
inductive PoneType where
  | nil | int | num | string | array | bool | map | code | obj | lex | opaqueVal
  deriving DecidableEq

/-- A `pone_val*` into an arena. -/
structure Addr where
  arena : Nat
  index : Nat
  deriving DecidableEq

/-- The memory of a value. -/
structure Val where
  /-- `none` is 0. -/
  type : Option PoneType
  /-- `PONE_FLAGS_GC_MARK`. -/
  marked : Bool
  /-- `as.free.next`, where values of other types have fields of their own. -/
  next : Option Addr
  deriving DecidableEq

structure Arena where
  next : Option Nat
  idx : Nat
  deriving DecidableEq

structure World where
  arenas : Nat → Arena
  /-- The address of the next arena. -/
  made : Nat
  values : Addr → Val
  arenaHead : Nat
  arenaLast : Nat
  freelist : Option Addr
  tmpstack : List Addr
  gcRequested : Bool

/-- `PONE_ARENA_SIZE`. -/
def arenaSize : Nat := 1024

/-- `pone_world_new` before its first allocation.  The memory of later arenas holds anything. -/
def worldNew (garbage : Addr → Val) : World where
  arenas := fun _ => { next := none, idx := 0 }
  made := 1
  values := fun addr => if addr.arena = 0 then { type := none, marked := false, next := none }
    else garbage addr
  arenaHead := 0
  arenaLast := 0
  freelist := none
  tmpstack := []
  gcRequested := false

/-- The end of `pone_obj_alloc`, from where it sets the type on. -/
def occupy (w : World) (type : PoneType) (val : Addr) : World × Addr :=
  ({ w with
      values := Function.update w.values val { w.values val with type := some type, marked := false }
      tmpstack := w.tmpstack ++ [val] }, val)

/-- `pone_obj_alloc`. -/
def objAlloc (w : World) (type : PoneType) : World × Addr :=
  match w.freelist with
  | some val => occupy { w with freelist := (w.values val).next } type val
  | none =>
      let last := w.arenas w.arenaLast
      if last.idx = arenaSize then
        let arenas := Function.update w.arenas w.arenaLast { last with next := some w.made }
        occupy
          { w with
            arenas := Function.update arenas w.made { next := none, idx := 1 }
            made := w.made + 1
            arenaLast := w.made
            gcRequested := true }
          type ⟨w.made, 0⟩
      else
        occupy
          { w with arenas := Function.update w.arenas w.arenaLast { last with idx := last.idx + 1 } }
          type ⟨w.arenaLast, last.idx⟩

/-- `pone_val_free`. -/
def valFree (w : World) (p : Addr) : World :=
  { w with
    values := Function.update w.values p { type := none, marked := false, next := w.freelist }
    freelist := some p }

/-- One round of the inner loop of `pone_gc_collect`. -/
def sweepSlot (w : World) (val : Addr) : World :=
  match (w.values val).type with
  | none => w
  | some type =>
      if (w.values val).marked then
        { w with values := Function.update w.values val { w.values val with marked := false } }
      else if type = .nil ∨ type = .bool then w
      else valFree w val

/-- The loop of `pone_gc_collect` over the list of arenas, whose length the fuel bounds. -/
def sweepArenas : Nat → Option Nat → World → Option World
  | _, none, w => some w
  | 0, some _, _ => none
  | fuel + 1, some arena, w =>
      let swept := (List.range (w.arenas arena).idx).foldl (fun w i => sweepSlot w ⟨arena, i⟩) w
      sweepArenas fuel (swept.arenas arena).next swept

/-- `pone_gc_collect`. -/
def gcCollect (w : World) : Option World :=
  (sweepArenas w.made (some w.arenaHead) w).map fun w => { w with gcRequested := false }

inductive Event where
  | alloc (type : PoneType)
  /-- An allocated value gets other fields. -/
  | write (val : Addr) (next : Option Addr)
  /-- The mark phase comes to an allocated value. -/
  | mark (val : Addr)
  | collect
  /-- `pone_pop_scope` and `pone_world_release`. -/
  | rewind (height : Nat)
  deriving DecidableEq

def step (w : World) : Event → Option World
  | .alloc type => some (objAlloc w type).1
  | .write val next =>
      if (w.values val).type = none then none
      else some { w with values := Function.update w.values val { w.values val with next := next } }
  | .mark val =>
      if (w.values val).type = none then none
      else some { w with values := Function.update w.values val { w.values val with marked := true } }
  | .collect => gcCollect w
  | .rewind height => some { w with tmpstack := w.tmpstack.take height }

/-! ## The invariant -/

def World.nextArena (w : World) (arena : Nat) : Option Nat := (w.arenas arena).next

def World.nextFree (w : World) (val : Addr) : Option Addr := (w.values val).next

/-- The slot is below the `idx` of one of these arenas. -/
def World.Below (w : World) (arenas : List Nat) (val : Addr) : Prop :=
  val.arena ∈ arenas ∧ val.index < (w.arenas val.arena).idx

/-- The list of the arenas and the freelist. -/
structure Lists (w : World) (arenas : List Nat) (free : List Addr) : Prop where
  chain : ScopeChain.IsChain w.nextArena (some w.arenaHead) arenas
  distinct : arenas.Nodup
  last : arenas.getLast? = some w.arenaLast
  made : ∀ arena ∈ arenas, arena < w.made
  bounded : ∀ arena ∈ arenas, (w.arenas arena).idx ≤ arenaSize
  freelist : ScopeChain.IsChain w.nextFree w.freelist free
  nodup : free.Nodup
  unused : ∀ val, val ∈ free ↔ w.Below arenas val ∧ (w.values val).type = none

def Sound (w : World) : Prop := ∃ arenas free, Lists w arenas free

/-- A slot of the arenas that holds a value. -/
def Occupied (w : World) (val : Addr) : Prop :=
  ∃ arenas, ScopeChain.IsChain w.nextArena (some w.arenaHead) arenas ∧ w.Below arenas val ∧
    (w.values val).type ≠ none

/-- An allocation takes a slot that no value occupies, which then is off the freelist and on `tmpstack`,
and leaves the values alone. -/
def TakesUnused (w : World) : Event → Prop
  | .alloc type =>
      let val := (objAlloc w type).2
      let w' := (objAlloc w type).1
      ¬ Occupied w val ∧ Occupied w' val ∧ (w'.values val).type = some type ∧
        (∀ free, ScopeChain.IsChain w'.nextFree w'.freelist free → val ∉ free) ∧
        w'.tmpstack = w.tmpstack ++ [val] ∧
        ∀ other, Occupied w other → Occupied w' other ∧ w'.values other = w.values other
  | .write _ _ | .mark _ | .collect | .rewind _ => True

variable {w w' : World} {arenas : List Nat} {free : List Addr} {val : Addr} {type : PoneType}

theorem Lists.occupied_iff (lists : Lists w arenas free) :
    Occupied w val ↔ w.Below arenas val ∧ (w.values val).type ≠ none := by
  constructor
  · rintro ⟨other, chain, below, used⟩
    obtain rfl := chain.unique lists.chain
    exact ⟨below, used⟩
  · rintro ⟨below, used⟩
    exact ⟨arenas, lists.chain, below, used⟩

theorem Lists.last_mem (lists : Lists w arenas free) : w.arenaLast ∈ arenas :=
  List.mem_of_getLast? lists.last

theorem lists_worldNew (garbage : Addr → Val) : Lists (worldNew garbage) [0] [] where
  chain := ⟨rfl, rfl⟩
  distinct := List.nodup_singleton 0
  last := rfl
  made arena member := by
    obtain rfl := List.mem_singleton.mp member
    exact Nat.zero_lt_one
  bounded _ _ := Nat.zero_le _
  freelist := rfl
  nodup := List.nodup_nil
  unused val := by simp [World.Below, worldNew]

/-! ## Changes of one value -/

/-- A change of the type and the mark of slots that are not on the freelist. -/
theorem Lists.congr (lists : Lists w arenas free) (same : w'.arenas = w.arenas)
    (made : w'.made = w.made) (head : w'.arenaHead = w.arenaHead) (last : w'.arenaLast = w.arenaLast)
    (first : w'.freelist = w.freelist) (kept : ∀ val ∈ free, w'.values val = w.values val)
    (used : ∀ val, (w'.values val).type = none ↔ (w.values val).type = none) :
    Lists w' arenas free where
  chain := by
    rw [head]
    exact lists.chain.congr fun arena _ => by rw [World.nextArena, World.nextArena, same]
  distinct := lists.distinct
  last := by rw [last, lists.last]
  made := by
    rw [made]
    exact lists.made
  bounded := by
    rw [same]
    exact lists.bounded
  freelist := by
    rw [first]
    exact lists.freelist.congr fun val member => by
      rw [World.nextFree, World.nextFree, kept val member]
  nodup := lists.nodup
  unused val := by rw [lists.unused, World.Below, World.Below, same, used]

/-- A value that is in use changes, and stays in use. -/
theorem Lists.update (lists : Lists w arenas free) (used : (w.values val).type ≠ none) {content : Val}
    (stays : content.type ≠ none) :
    Lists { w with values := Function.update w.values val content } arenas free := by
  refine lists.congr rfl rfl rfl rfl rfl (fun other member => ?_) fun other => ?_
  · refine Function.update_of_ne ?_ _ _
    rintro rfl
    exact used ((lists.unused other).mp member).2
  · by_cases here : other = val
    · obtain rfl := here
      simp [used, stays]
    · simp only [Function.update_of_ne here]

/-- A value in the arenas is freed. -/
theorem Lists.release (lists : Lists w arenas free) (below : w.Below arenas val)
    (used : (w.values val).type ≠ none) : Lists (valFree w val) arenas (val :: free) := by
  have fresh : val ∉ free := fun member => used ((lists.unused val).mp member).2
  refine { lists with freelist := ?_, nodup := ?_, unused := ?_ }
  · refine ⟨rfl, ?_⟩
    have link : (valFree w val).nextFree val = w.freelist := by
      simp [World.nextFree, valFree]
    rw [link]
    refine lists.freelist.congr fun other member => ?_
    have elsewhere : other ≠ val := fun same => fresh (same ▸ member)
    simp only [World.nextFree, valFree, Function.update_of_ne elsewhere]
  · exact List.nodup_cons.mpr ⟨fresh, lists.nodup⟩
  · intro other
    rw [List.mem_cons, lists.unused other]
    by_cases here : other = val
    · obtain rfl := here
      simp only [true_or, valFree, Function.update_self, and_true, true_iff]
      exact below
    · simp only [here, false_or, valFree, Function.update_of_ne here]
      exact .rfl

/-! ## Collections -/

/-- What a sweep keeps of the arenas. -/
structure SameArenas (w w' : World) : Prop where
  arenas : w'.arenas = w.arenas
  made : w'.made = w.made
  arenaHead : w'.arenaHead = w.arenaHead
  arenaLast : w'.arenaLast = w.arenaLast

theorem SameArenas.refl : SameArenas w w := ⟨rfl, rfl, rfl, rfl⟩

theorem SameArenas.trans {w'' : World} (first : SameArenas w w') (second : SameArenas w' w'') :
    SameArenas w w'' :=
  ⟨second.arenas.trans first.arenas, second.made.trans first.made,
    second.arenaHead.trans first.arenaHead, second.arenaLast.trans first.arenaLast⟩

theorem sweepSlot_lists (lists : Lists w arenas free) (below : w.Below arenas val) :
    SameArenas w (sweepSlot w val) ∧ ∃ free, Lists (sweepSlot w val) arenas free := by
  simp only [sweepSlot]
  split
  case h_1 => exact ⟨.refl, free, lists⟩
  case h_2 type found =>
    have used : (w.values val).type ≠ none := by simp [found]
    split
    · exact ⟨⟨rfl, rfl, rfl, rfl⟩, free, lists.update used used⟩
    · split
      · exact ⟨.refl, free, lists⟩
      · exact ⟨⟨rfl, rfl, rfl, rfl⟩, val :: free, lists.release below used⟩

theorem sweepArena_lists {arena : Nat} {indices : List Nat} (lists : Lists w arenas free)
    (below : ∀ i ∈ indices, w.Below arenas ⟨arena, i⟩) :
    SameArenas w (indices.foldl (fun w i => sweepSlot w ⟨arena, i⟩) w) ∧
      ∃ free, Lists (indices.foldl (fun w i => sweepSlot w ⟨arena, i⟩) w) arenas free := by
  induction indices generalizing w free with
  | nil => exact ⟨.refl, free, lists⟩
  | cons i indices ih =>
      obtain ⟨same, freed, swept⟩ := sweepSlot_lists lists (below i List.mem_cons_self)
      obtain ⟨same', rest⟩ := ih swept fun j member => by
        rw [World.Below, same.arenas]
        exact below j (List.mem_cons_of_mem i member)
      exact ⟨same.trans same', rest⟩

/-- The sweep comes to the end of the list of arenas. -/
theorem sweepArenas_lists {start : Option Nat} {rest : List Nat} {fuel : Nat}
    (lists : Lists w arenas free) (chain : ScopeChain.IsChain w.nextArena start rest)
    (inside : ∀ arena ∈ rest, arena ∈ arenas) (enough : rest.length ≤ fuel) :
    ∃ w' free, sweepArenas fuel start w = some w' ∧ Lists w' arenas free := by
  induction rest generalizing start w free fuel with
  | nil =>
      obtain rfl : start = none := chain
      exact ⟨w, free, by cases fuel <;> rfl, lists⟩
  | cons arena rest ih =>
      obtain ⟨rfl, above⟩ := chain
      cases fuel with
      | zero => cases enough
      | succ fuel =>
          have below (i : Nat) (member : i ∈ List.range (w.arenas arena).idx) :
              w.Below arenas ⟨arena, i⟩ :=
            ⟨inside arena List.mem_cons_self, List.mem_range.mp member⟩
          obtain ⟨same, freed, swept⟩ := sweepArena_lists lists below
          rw [sweepArenas]
          refine ih swept ?_ (fun other member => inside other (List.mem_cons_of_mem arena member))
            (Nat.le_of_succ_le_succ enough)
          rw [same.arenas]
          exact above.congr fun other _ => by rw [World.nextArena, World.nextArena, same.arenas]

theorem gcCollect_lists (lists : Lists w arenas free) :
    ∃ w', gcCollect w = some w' ∧ Sound w' := by
  have short : arenas.length ≤ w.made := by
    have within : arenas ⊆ List.range w.made := fun arena member =>
      List.mem_range.mpr (lists.made arena member)
    simpa using (lists.distinct.subperm within).length_le
  obtain ⟨w', freed, swept, after⟩ :=
    sweepArenas_lists lists lists.chain (fun _ member => member) short
  exact ⟨{ w' with gcRequested := false }, by rw [gcCollect, swept]; rfl, arenas, freed,
    after.congr rfl rfl rfl rfl rfl (fun _ _ => rfl) fun _ => .rfl⟩

/-! ## Allocations -/

/-- What an allocation finds and leaves: the slot that it takes was below no `idx`, or free. -/
structure Taken (w w' : World) (type : PoneType) (val : Addr) : Prop where
  lists : Sound w'
  unused : ¬ Occupied w val
  occupied : Occupied w' val
  type : (w'.values val).type = some type
  off : ∀ free, ScopeChain.IsChain w'.nextFree w'.freelist free → val ∉ free
  tmpstack : w'.tmpstack = w.tmpstack ++ [val]
  kept : ∀ other, Occupied w other → Occupied w' other ∧ w'.values other = w.values other

/-- The lists of a world in which a slot was taken off the freelist or added to an arena, after its type
is set. -/
private theorem taken_of_lists (lists : Lists w arenas free)
    (values : w'.values = Function.update w.values val
      { w.values val with type := some type, marked := false })
    (tmpstack : w'.tmpstack = w.tmpstack ++ [val]) {arenas' : List Nat} {free' : List Addr}
    (lists' : Lists w' arenas' free') (below : w'.Below arenas' val)
    (unused : ¬ (w.Below arenas val ∧ (w.values val).type ≠ none)) (outside : val ∉ free')
    (grows : ∀ other, w.Below arenas other → w'.Below arenas' other) :
    Taken w w' type val := by
  have content : (w'.values val).type = some type := by rw [values, Function.update_self]
  refine ⟨⟨arenas', free', lists'⟩, ?_, ?_, content, ?_, tmpstack, fun other occupied => ?_⟩
  · rwa [lists.occupied_iff]
  · rw [lists'.occupied_iff, content]
    exact ⟨below, by simp⟩
  · intro other chain
    rwa [chain.unique lists'.freelist]
  · rw [lists.occupied_iff] at occupied
    have elsewhere : other ≠ val := by
      rintro rfl
      exact unused occupied
    have same : w'.values other = w.values other := by
      rw [values, Function.update_of_ne elsewhere]
    rw [lists'.occupied_iff, same]
    exact ⟨⟨grows other occupied.1, occupied.2⟩, rfl⟩

/-- An allocation from the freelist. -/
private theorem reuse_taken (lists : Lists w arenas free) (first : w.freelist = some val) :
    Taken w (occupy { w with freelist := (w.values val).next } type val).1 type val := by
  have chain := lists.freelist
  rw [first] at chain
  obtain _ | ⟨head, rest⟩ := free
  · cases chain
  obtain ⟨same, above⟩ := chain
  obtain rfl := Option.some.inj same
  obtain ⟨fresh, distinct⟩ := List.nodup_cons.mp lists.nodup
  obtain ⟨below, unset⟩ := (lists.unused val).mp List.mem_cons_self
  refine taken_of_lists lists rfl rfl
    { lists with freelist := ?_, nodup := distinct, unused := ?_ } below
    (fun used => used.2 unset) fresh fun _ inside => inside
  · refine above.congr fun other member => ?_
    have elsewhere : other ≠ val := fun here => fresh (here ▸ member)
    simp only [World.nextFree, occupy, Function.update_of_ne elsewhere]
  · intro other
    by_cases here : other = val
    · obtain rfl := here
      simp [fresh, occupy]
    · have old := lists.unused other
      rw [List.mem_cons, or_iff_right here] at old
      simp only [occupy, Function.update_of_ne here]
      exact old

/-- An allocation from the last arena. -/
private theorem extend_taken (lists : Lists w arenas free) (none_free : w.freelist = none)
    (space : (w.arenas w.arenaLast).idx ≠ arenaSize) :
    Taken w (occupy
      { w with
        arenas := Function.update w.arenas w.arenaLast
          { w.arenas w.arenaLast with idx := (w.arenas w.arenaLast).idx + 1 } }
      type ⟨w.arenaLast, (w.arenas w.arenaLast).idx⟩).1 type
      ⟨w.arenaLast, (w.arenas w.arenaLast).idx⟩ := by
  have chain := lists.freelist
  rw [none_free] at chain
  obtain _ | ⟨head, rest⟩ := free
  case cons => cases chain.1
  have idx_le := lists.bounded w.arenaLast lists.last_mem
  generalize fresh : (⟨w.arenaLast, (w.arenas w.arenaLast).idx⟩ : Addr) = val
  have grows (other : Addr) : (Function.update w.arenas w.arenaLast
      { w.arenas w.arenaLast with idx := (w.arenas w.arenaLast).idx + 1 } other.arena).idx =
        (w.arenas other.arena).idx + if other.arena = w.arenaLast then 1 else 0 := by
    rw [Function.update_apply]
    split
    case isTrue here => rw [here]
    case isFalse => rfl
  refine taken_of_lists lists rfl rfl
    { lists with chain := ?_, bounded := ?_, freelist := ?_, unused := ?_ }
    ?_ ?_ List.not_mem_nil ?_
  · refine lists.chain.congr fun arena _ => ?_
    simp only [World.nextArena, occupy, Function.update_apply]
    split
    case isTrue here => rw [here]
    case isFalse => rfl
  · intro arena member
    have := lists.bounded arena member
    have same := grows ⟨arena, 0⟩
    simp only at same
    simp only [occupy, same]
    split
    case isTrue here =>
      obtain rfl := here
      omega
    case isFalse => omega
  · exact none_free
  · intro other
    refine iff_of_false List.not_mem_nil ?_
    rintro ⟨⟨member, inside⟩, unset⟩
    simp only [occupy, grows] at inside unset
    by_cases here : other = val
    · obtain rfl := here
      simp at unset
    · rw [Function.update_of_ne here] at unset
      refine List.not_mem_nil ((lists.unused other).mpr ⟨⟨member, ?_⟩, unset⟩)
      split at inside
      case isTrue last =>
        have different : other.index ≠ (w.arenas other.arena).idx := by
          intro same
          refine here ?_
          rw [← fresh, ← last, ← same]
        omega
      case isFalse => exact inside
  · rw [← fresh]
    refine ⟨lists.last_mem, ?_⟩
    simp [occupy]
  · rw [← fresh]
    rintro ⟨⟨-, beyond⟩, -⟩
    exact absurd beyond (Nat.lt_irrefl _)
  · rintro other ⟨member, inside⟩
    refine ⟨member, ?_⟩
    simp only [occupy, grows]
    omega

/-- An allocation that makes a new arena. -/
private theorem newArena_taken (lists : Lists w arenas free) (none_free : w.freelist = none) :
    Taken w (occupy
      { w with
        arenas := Function.update (Function.update w.arenas w.arenaLast
          { w.arenas w.arenaLast with next := some w.made }) w.made { next := none, idx := 1 }
        made := w.made + 1
        arenaLast := w.made
        gcRequested := true } type ⟨w.made, 0⟩).1 type ⟨w.made, 0⟩ := by
  have chain := lists.freelist
  rw [none_free] at chain
  obtain _ | ⟨head, rest⟩ := free
  case cons => cases chain.1
  have fresh : w.made ∉ arenas := fun member => Nat.lt_irrefl _ (lists.made w.made member)
  have old {arena : Nat} (member : arena ∈ arenas) : arena ≠ w.made :=
    fun same => fresh (same ▸ member)
  have kept (arena : Nat) (member : arena ∈ arenas) :
      (Function.update (Function.update w.arenas w.arenaLast
        { w.arenas w.arenaLast with next := some w.made }) w.made { next := none, idx := 1 }
          arena).idx = (w.arenas arena).idx := by
    rw [Function.update_of_ne (old member), Function.update_apply]
    split
    case isTrue here => rw [here]
    case isFalse => rfl
  refine @taken_of_lists w _ arenas [] _ type lists rfl rfl (arenas ++ [w.made]) []
    ⟨?_, ?_, ?_, ?_, ?_, none_free, List.nodup_nil, ?_⟩ ?_ ?_ List.not_mem_nil ?_
  · refine lists.chain.extend lists.distinct lists.last ?_ ?_ fun arena member inner => ?_
    · simp [World.nextArena, occupy, Function.update_of_ne (old lists.last_mem)]
    · simp [World.nextArena, occupy]
    · simp [World.nextArena, occupy, Function.update_of_ne (old member), inner]
  · exact List.nodup_append.mpr ⟨lists.distinct, by simp, by simpa using fun arena member => old member⟩
  · simp [occupy]
  · intro arena member
    rcases List.mem_append.mp member with member | member
    · exact Nat.lt_succ_of_lt (lists.made arena member)
    · obtain rfl := List.mem_singleton.mp member
      exact Nat.lt_succ_self _
  · intro arena member
    rcases List.mem_append.mp member with member | member
    · simp only [occupy, kept arena member]
      exact lists.bounded arena member
    · obtain rfl := List.mem_singleton.mp member
      simp [occupy, arenaSize]
  · intro other
    refine iff_of_false List.not_mem_nil ?_
    rintro ⟨⟨member, inside⟩, unset⟩
    by_cases here : other = ⟨w.made, 0⟩
    · obtain rfl := here
      simp [occupy] at unset
    · simp only [occupy, Function.update_of_ne here] at unset
      rcases List.mem_append.mp member with member | member
      · simp only [occupy, kept _ member] at inside
        exact List.not_mem_nil ((lists.unused other).mpr ⟨⟨member, inside⟩, unset⟩)
      · obtain ⟨arena, index⟩ := other
        obtain rfl := List.mem_singleton.mp member
        simp only [occupy, Function.update_self, Nat.lt_one_iff] at inside
        obtain rfl := inside
        exact here rfl
  · exact ⟨by simp, by simp [occupy]⟩
  · rintro ⟨⟨member, -⟩, -⟩
    exact fresh member
  · rintro other ⟨member, inside⟩
    refine ⟨List.mem_append_left _ member, ?_⟩
    simp only [occupy, kept _ member]
    exact inside

theorem objAlloc_taken (lists : Lists w arenas free) :
    Taken w (objAlloc w type).1 type (objAlloc w type).2 := by
  simp only [objAlloc]
  split
  case h_1 val first => exact reuse_taken lists first
  case h_2 none_free =>
    split
    · exact newArena_taken lists none_free
    case isFalse space => exact extend_taken lists none_free space

/-! ## Runs -/

theorem sound_step {e : Event} (sound : Sound w) (taken : step w e = some w') : Sound w' := by
  obtain ⟨arenas, free, lists⟩ := sound
  cases e with
  | alloc type =>
      cases taken
      exact (objAlloc_taken lists).lists
  | write val next =>
      simp only [step] at taken
      split at taken
      · cases taken
      case isFalse used =>
        cases taken
        exact ⟨arenas, free, lists.update used used⟩
  | mark val =>
      simp only [step] at taken
      split at taken
      · cases taken
      case isFalse used =>
        cases taken
        exact ⟨arenas, free, lists.update used used⟩
  | collect =>
      obtain ⟨swept, ends, sound⟩ := gcCollect_lists lists
      obtain rfl := Option.some.inj (ends.symm.trans taken)
      exact sound
  | rewind height =>
      cases taken
      exact ⟨arenas, free, lists.congr rfl rfl rfl rfl rfl (fun _ _ => rfl) fun _ => .rfl⟩

/-- A sound world takes unused slots, and its sweeps end. -/
theorem sound_takes {e : Event} (sound : Sound w) :
    TakesUnused w e ∧ (e = .collect → (step w e).isSome) := by
  obtain ⟨arenas, free, lists⟩ := sound
  refine ⟨?_, ?_⟩
  · cases e with
    | alloc type =>
        have taken : Taken w (objAlloc w type).1 type (objAlloc w type).2 := objAlloc_taken lists
        exact ⟨taken.unused, taken.occupied, taken.type, taken.off, taken.tmpstack, taken.kept⟩
    | write | mark | collect | rewind => trivial
  · rintro rfl
    obtain ⟨swept, ends, -⟩ := gcCollect_lists lists
    rw [step, ends]
    rfl

/-- In every run of a world, the lists of its arenas and of its free slots are right in every state,
every sweep ends, and every allocation takes an unused slot. -/
theorem allocator_sound (garbage : Addr → Val) (events : List Event) :
    Execution.Always step Sound (worldNew garbage) events ∧
      Execution.Along step (fun w e => TakesUnused w e ∧ (e = .collect → (step w e).isSome))
        (worldNew garbage) events := by
  have always : Execution.Always step Sound (worldNew garbage) events :=
    .of_invariant (fun sound _ taken => sound_step sound taken) (fun sound => sound)
      ⟨[0], [], lists_worldNew garbage⟩
      (Execution.along_of_forall_mem fun _ _ => trivial : Execution.Along step (fun _ _ => True) _ _)
  exact ⟨always, always.along fun _ _ sound => sound_takes sound⟩

end Allocator
end Pone
