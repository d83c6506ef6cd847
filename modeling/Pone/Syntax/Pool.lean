import Mathlib.Data.Int.DivMod
import Mathlib.Data.List.Nodup
import Mathlib.Logic.Function.Basic
import Pone.Syntax.Tree

/-!
# The pool of nodes

`pvip_new`, `pvip_node_alloc` and `pvip_free` on the arenas of one `pvip_t`.  The first arena is
cleared by `pvip_new`; of every further one `pvip_node_alloc` sets `next` alone, and `idx` is what
`malloc` has left there.
-/

namespace Pone
namespace Syntax
namespace Pool

/-- A `pone_node*`, by its place in an arena, which need not be in `nodes`. -/
structure Slot where
  arena : Nat
  index : Int
  deriving DecidableEq

/-- `struct pvip_arena` without its nodes. -/
structure Arena where
  next : Option Nat
  idx : Int

/-- `struct pvip_t` with the arenas by their addresses. -/
structure Pvip where
  arenas : Nat → Arena
  /-- The address of the next arena. -/
  made : Nat
  arena : Nat

/-- `PVIP_ARENA_SIZE` -/
def arenaSize : Nat := 1024

/-- `++` on an `int`, with the wrap of two's complement where C leaves it undefined. -/
def incr (i : Int) : Int := (i + 1).bmod (2 ^ 32)

/-- `pvip_new` -/
def pvipNew : Pvip where
  arenas := fun _ => { next := none, idx := 0 }
  made := 1
  arena := 0

/-- `pvip_node_alloc`, where the memory of an arena comes with `content` in the place of `idx`. -/
def nodeAlloc (content : Nat → BitVec 32) (pvip : Pvip) : Pvip × Slot :=
  let pvip :=
    if (pvip.arenas pvip.arena).idx = arenaSize then
      { arenas := Function.update pvip.arenas pvip.made
          { next := some pvip.arena, idx := (content pvip.made).toInt }
        made := pvip.made + 1
        arena := pvip.made }
    else pvip
  let arena := pvip.arenas pvip.arena
  ({ pvip with
      arenas := Function.update pvip.arenas pvip.arena { arena with idx := incr arena.idx } },
    ⟨pvip.arena, arena.idx⟩)

/-- What `pvip_free` does, one thing after another. -/
inductive Action where
  | visit (node : Slot)
  | freeChildren (node : Slot)
  | destroyString (node : Slot)
  | freeArena (arena : Nat)
  | freePvip
  deriving DecidableEq

/-- A round of the inner loop of `pvip_free`, by the category of the type that is found in the
node, with `none` for `PVIP_CATEGORY_UNKNOWN`. -/
def freeNode (category : Slot → Option Category) (node : Slot) : List Action :=
  .visit node ::
    match category node with
    | some .children => [.freeChildren node]
    | some .string => [.destroyString node]
    | none | some .int | some .number => []

/-- The indices that the loop `for (i = 0; i < idx; ++i)` goes through in an arena. -/
def nodesBelow (arena : Nat) (idx : Int) : List Slot :=
  (List.range idx.toNat).map fun i : Nat => ⟨arena, i⟩

/-- The loop of `pvip_free` over the list of arenas, for at most as many as the fuel says. -/
def freeArenas (category : Slot → Option Category) (arenas : Nat → Arena) :
    Nat → Option Nat → Option (List Action)
  | _, none => some []
  | 0, some _ => none
  | fuel + 1, some arena => do
      let rest ← freeArenas category arenas fuel (arenas arena).next
      return (nodesBelow arena (arenas arena).idx).flatMap (freeNode category) ++
        .freeArena arena :: rest

/-- `pvip_free`; a list of arenas that ends in `NULL` has no more than were made. -/
def pvipFree (category : Slot → Option Category) (pvip : Pvip) : Option (List Action) :=
  (freeArenas category pvip.arenas pvip.made (some pvip.arena)).map (· ++ [.freePvip])

/-- The nodes that are visited, in order. -/
def visits (actions : List Action) : List Slot :=
  actions.filterMap fun
    | .visit node => some node
    | _ => none

/-- The arenas that are freed, in order. -/
def freed (actions : List Action) : List Nat :=
  actions.filterMap fun
    | .freeArena arena => some arena
    | _ => none

/-- The pool after `n` calls of `pvip_node_alloc`, and the nodes that they give, in order. -/
def calls (content : Nat → BitVec 32) : Nat → Pvip × List Slot
  | 0 => (pvipNew, [])
  | n + 1 =>
      let (pvip, nodes) := calls content n
      let (pvip, node) := nodeAlloc content pvip
      (pvip, nodes ++ [node])

/-- The node lies in `nodes` of its arena. -/
def Slot.Inside (node : Slot) : Prop := 0 ≤ node.index ∧ node.index < arenaSize

/-- The nodes are slots of their own, and `pvip_free` visits them and no others. -/
structure HandsOut (category : Slot → Option Category) (pvip : Pvip) (nodes : List Slot) :
    Prop where
  inside : ∀ node ∈ nodes, node.Inside
  distinct : nodes.Nodup
  idx : ∀ arena < pvip.made, 0 ≤ (pvip.arenas arena).idx ∧ (pvip.arenas arena).idx ≤ arenaSize
  frees : ∃ actions, pvipFree category pvip = some actions ∧ (visits actions).Perm nodes

/-! ## What `pvip_free` visits -/

variable {content : Nat → BitVec 32} {category : Slot → Option Category} {pvip : Pvip}
  {nodes : List Slot} {n : Nat}

/-- The nodes of the first arenas below `idx`, those of the last one at the front. -/
def nodesOf (arenas : Nat → Arena) : Nat → List Slot
  | 0 => []
  | arena + 1 => nodesBelow arena (arenas arena).idx ++ nodesOf arenas arena

theorem mem_nodesBelow {arena : Nat} {idx : Int} {node : Slot} :
    node ∈ nodesBelow arena idx ↔ node.arena = arena ∧ 0 ≤ node.index ∧ node.index < idx := by
  obtain ⟨k, index⟩ := node
  simp only [nodesBelow, List.mem_map, List.mem_range, Slot.mk.injEq]
  constructor
  · rintro ⟨i, below, rfl, rfl⟩
    exact ⟨rfl, by omega, by omega⟩
  · rintro ⟨rfl, nonneg, below⟩
    exact ⟨index.toNat, by omega, rfl, by omega⟩

theorem nodup_nodesBelow (arena : Nat) (idx : Int) : (nodesBelow arena idx).Nodup := by
  refine List.Nodup.map (fun i j same => ?_) List.nodup_range
  exact Int.ofNat_inj.mp (congrArg Slot.index same)

theorem nodesBelow_succ (arena : Nat) {idx : Int} (nonneg : 0 ≤ idx) :
    nodesBelow arena (idx + 1) = nodesBelow arena idx ++ [⟨arena, idx⟩] := by
  have next : (idx + 1).toNat = idx.toNat + 1 := by omega
  simp [nodesBelow, next, List.range_succ, Int.toNat_of_nonneg nonneg]

theorem mem_nodesOf {arenas : Nat → Arena} {made : Nat} {node : Slot} :
    node ∈ nodesOf arenas made ↔
      node.arena < made ∧ 0 ≤ node.index ∧ node.index < (arenas node.arena).idx := by
  induction made with
  | zero => simp [nodesOf]
  | succ made ih =>
      rw [nodesOf, List.mem_append, mem_nodesBelow, ih]
      constructor
      · rintro (⟨rfl, within⟩ | ⟨before, within⟩)
        · exact ⟨by omega, within⟩
        · exact ⟨by omega, within⟩
      · rintro ⟨before, within⟩
        rcases Nat.lt_succ_iff_lt_or_eq.mp before with before | rfl
        · exact .inr ⟨before, within⟩
        · exact .inl ⟨rfl, within⟩

theorem nodup_nodesOf (arenas : Nat → Arena) (made : Nat) : (nodesOf arenas made).Nodup := by
  induction made with
  | zero => exact List.nodup_nil
  | succ made ih =>
      refine List.nodup_append.mpr ⟨nodup_nodesBelow _ _, ih, ?_⟩
      rintro node below other earlier rfl
      have same := (mem_nodesBelow.mp below).1
      have before := (mem_nodesOf.mp earlier).1
      omega

/-- Only the `idx` of the first arenas matters. -/
theorem nodesOf_congr {arenas arenas' : Nat → Arena} (made : Nat)
    (same : ∀ arena < made, (arenas' arena).idx = (arenas arena).idx) :
    nodesOf arenas' made = nodesOf arenas made := by
  induction made with
  | zero => rfl
  | succ made ih =>
      rw [nodesOf, nodesOf, same made (by omega), ih fun arena before => same arena (by omega)]

theorem visits_append (front back : List Action) :
    visits (front ++ back) = visits front ++ visits back := List.filterMap_append

theorem freed_append (front back : List Action) :
    freed (front ++ back) = freed front ++ freed back := List.filterMap_append

theorem visits_freeNodes (category : Slot → Option Category) (nodes : List Slot) :
    visits (nodes.flatMap (freeNode category)) = nodes := by
  induction nodes with
  | nil => rfl
  | cons node nodes ih =>
      have one : visits (freeNode category node) = [node] := by
        unfold freeNode
        rcases category node with _ | _ | _ | _ | _ <;> rfl
      rw [List.flatMap_cons, visits_append, one, ih, List.singleton_append]

theorem freed_freeNodes (category : Slot → Option Category) (nodes : List Slot) :
    freed (nodes.flatMap (freeNode category)) = [] := by
  induction nodes with
  | nil => rfl
  | cons node nodes ih =>
      have one : freed (freeNode category node) = [] := by
        unfold freeNode
        rcases category node with _ | _ | _ | _ | _ <;> rfl
      rw [List.flatMap_cons, freed_append, one, ih, List.append_nil]

/-- The arenas form a list, from the one that was made last to the first one. -/
structure Linked (pvip : Pvip) : Prop where
  newest : pvip.made = pvip.arena + 1
  last : (pvip.arenas 0).next = none
  linked : ∀ arena, arena + 1 < pvip.made → (pvip.arenas (arena + 1)).next = some arena

theorem Linked.freeArenas_eq (links : Linked pvip) (category : Slot → Option Category)
    (arena : Nat) (among : arena < pvip.made) :
    ∃ actions, freeArenas category pvip.arenas (arena + 1) (some arena) = some actions ∧
      visits actions = nodesOf pvip.arenas (arena + 1) ∧
      freed actions = (List.range (arena + 1)).reverse := by
  induction arena with
  | zero =>
      refine ⟨_, by rw [freeArenas, links.last]; rfl, ?_, ?_⟩
      · rw [visits_append, visits_freeNodes]
        rfl
      · rw [freed_append, freed_freeNodes]
        rfl
  | succ arena ih =>
      obtain ⟨rest, frees, visited, all⟩ := ih (by omega)
      refine ⟨_, by rw [freeArenas, links.linked arena among, frees]; rfl, ?_, ?_⟩
      · rw [visits_append, visits_freeNodes, nodesOf, ← visited]
        rfl
      · rw [freed_append, freed_freeNodes, List.nil_append, List.range_succ, List.reverse_append,
          ← all]
        rfl

/-- `pvip_free` comes to the end of the list of arenas: it visits the nodes below the `idx` of each
of them, and frees each of them once. -/
theorem Linked.pvipFree_eq (links : Linked pvip) (category : Slot → Option Category) :
    ∃ actions, pvipFree category pvip = some actions ∧
      visits actions = nodesOf pvip.arenas pvip.made ∧
      freed actions = (List.range pvip.made).reverse := by
  obtain ⟨actions, frees, visited, all⟩ :=
    links.freeArenas_eq category pvip.arena (by have := links.newest; omega)
  refine ⟨actions ++ [.freePvip], ?_, ?_, ?_⟩
  · rw [pvipFree, links.newest, frees]
    rfl
  · rw [visits_append, visited, links.newest]
    exact List.append_nil _
  · rw [freed_append, all, links.newest]
    exact List.append_nil _

/-! ## Allocation -/

theorem incr_of_lt {i : Int} (nonneg : 0 ≤ i) (below : i < arenaSize) : incr i = i + 1 := by
  have small : i < 1024 := below
  exact Int.bmod_eq_of_le (by omega) (by omega)

theorem nodeAlloc_of_room (content : Nat → BitVec 32)
    (room : (pvip.arenas pvip.arena).idx ≠ arenaSize) :
    nodeAlloc content pvip =
      ({ pvip with
          arenas := Function.update pvip.arenas pvip.arena
            { pvip.arenas pvip.arena with idx := incr (pvip.arenas pvip.arena).idx } },
        ⟨pvip.arena, (pvip.arenas pvip.arena).idx⟩) := by
  simp only [nodeAlloc, if_neg room]

theorem nodeAlloc_of_full (content : Nat → BitVec 32)
    (full : (pvip.arenas pvip.arena).idx = arenaSize) :
    nodeAlloc content pvip =
      ({ arenas := Function.update pvip.arenas pvip.made
           { next := some pvip.arena, idx := incr (content pvip.made).toInt }
         made := pvip.made + 1
         arena := pvip.made },
        ⟨pvip.made, (content pvip.made).toInt⟩) := by
  simp only [nodeAlloc, if_pos full, Function.update_self, Function.update_idem]

theorem Linked.nodeAlloc (links : Linked pvip) (content : Nat → BitVec 32) :
    Linked (nodeAlloc content pvip).1 := by
  have newest := links.newest
  by_cases full : (pvip.arenas pvip.arena).idx = arenaSize
  · rw [nodeAlloc_of_full content full]
    refine ⟨rfl, ?_, fun arena among => ?_⟩
    · have first : 0 ≠ pvip.made := by omega
      simp only [Function.update_of_ne first, links.last]
    · have among : arena + 1 < pvip.made + 1 := among
      by_cases same : arena + 1 = pvip.made
      · simp only [same, Function.update_self, Option.some.injEq]
        omega
      · simp only [Function.update_of_ne same]
        exact links.linked arena (by omega)
  · rw [nodeAlloc_of_room content full]
    have kept (arena : Nat) :
        (Function.update pvip.arenas pvip.arena
          { pvip.arenas pvip.arena with idx := incr (pvip.arenas pvip.arena).idx } arena).next =
          (pvip.arenas arena).next := by
      by_cases same : arena = pvip.arena
      · rw [same, Function.update_self]
      · rw [Function.update_of_ne same]
    refine ⟨newest, (kept 0).trans links.last, fun arena among => ?_⟩
    exact (kept (arena + 1)).trans (links.linked arena among)

theorem linked_calls (content : Nat → BitVec 32) (n : Nat) : Linked (calls content n).1 := by
  induction n with
  | zero => exact ⟨rfl, rfl, fun arena among => by simp [calls, pvipNew] at among⟩
  | succ n ih => exact ih.nodeAlloc content

/-! ## Memory that happens to be clear -/

/-- All slots up to the last one are given, and no others. -/
structure Packed (n : Nat) (pvip : Pvip) (nodes : List Slot) : Prop where
  links : Linked pvip
  idx : ∀ arena < pvip.made, 0 ≤ (pvip.arenas arena).idx ∧ (pvip.arenas arena).idx ≤ arenaSize
  count : (n : Int) = arenaSize * pvip.arena + (pvip.arenas pvip.arena).idx
  given : nodes.Perm (nodesOf pvip.arenas pvip.made)

theorem packed_new : Packed 0 pvipNew [] where
  links := linked_calls (fun _ => 0) 0
  idx _ _ := ⟨Int.le_refl _, Int.natCast_nonneg arenaSize⟩
  count := rfl
  given := .refl _

theorem Packed.nodeAlloc_room (packed : Packed n pvip nodes)
    (room : (pvip.arenas pvip.arena).idx ≠ arenaSize) (content : Nat → BitVec 32) :
    Packed (n + 1) (nodeAlloc content pvip).1 (nodes ++ [(nodeAlloc content pvip).2]) := by
  have links := packed.links.nodeAlloc content
  have newest := packed.links.newest
  have count := packed.count
  have bounds := packed.idx pvip.arena (by omega)
  have next := incr_of_lt bounds.1 (by omega)
  rw [nodeAlloc_of_room content room] at links ⊢
  refine ⟨links, fun arena among => ?_, ?_, ?_⟩
  · by_cases same : arena = pvip.arena
    · simp only [same, Function.update_self, next]
      omega
    · simp only [Function.update_of_ne same]
      exact packed.idx arena among
  · simp only [Function.update_self, next]
    omega
  · have others := nodesOf_congr pvip.arena fun arena before =>
      congrArg Arena.idx (Function.update_of_ne (Nat.ne_of_lt before)
        { pvip.arenas pvip.arena with idx := (pvip.arenas pvip.arena).idx + 1 } pvip.arenas)
    have given := packed.given
    rw [newest, nodesOf] at given
    simp only [newest, nodesOf, Function.update_self, next, others, nodesBelow_succ _ bounds.1]
    rw [List.append_assoc]
    exact (List.perm_append_comm.trans (given.cons _)).trans List.perm_middle.symm

theorem Packed.nodeAlloc_full (packed : Packed n pvip nodes)
    (full : (pvip.arenas pvip.arena).idx = arenaSize) (clear : content pvip.made = 0) :
    Packed (n + 1) (nodeAlloc content pvip).1 (nodes ++ [(nodeAlloc content pvip).2]) := by
  have links := packed.links.nodeAlloc content
  have newest := packed.links.newest
  have count := packed.count
  have zero : (content pvip.made).toInt = 0 := by rw [clear]; rfl
  have one : incr 0 = 1 := by decide
  rw [nodeAlloc_of_full content full] at links ⊢
  simp only [zero, one] at links ⊢
  refine ⟨links, fun arena among => ?_, ?_, ?_⟩
  · by_cases same : arena = pvip.made
    · simp only [same, Function.update_self]
      decide
    · simp only [Function.update_of_ne same]
      exact packed.idx arena (by dsimp only at among; omega)
  · have size : (arenaSize : Int) = 1024 := rfl
    rw [full, size] at count
    simp only [Function.update_self, size]
    omega
  · have others := nodesOf_congr pvip.made fun arena before =>
      congrArg Arena.idx (Function.update_of_ne (Nat.ne_of_lt before)
        { next := some pvip.arena, idx := 1 } pvip.arenas)
    simp only [nodesOf, Function.update_self, others]
    exact List.perm_append_comm.trans (packed.given.cons _)

theorem packed_calls
    (clear : ∀ arena, 0 < arena → arenaSize * arena < n → content arena = 0) :
    Packed n (calls content n).1 (calls content n).2 := by
  induction n with
  | zero => exact packed_new
  | succ n ih =>
      have packed := ih fun arena later reached => clear arena later (by omega)
      by_cases full : ((calls content n).1.arenas (calls content n).1.arena).idx = arenaSize
      · have newest := packed.links.newest
        have count := packed.count
        refine packed.nodeAlloc_full full (clear _ (by omega) ?_)
        rw [newest]
        have size : arenaSize = 1024 := rfl
        rw [full] at count
        rw [size] at count ⊢
        omega
      · exact packed.nodeAlloc_room full content

/-- Slots that are given without a gap are all that `pvip_free` visits. -/
theorem Packed.handsOut (packed : Packed n pvip nodes) (category : Slot → Option Category) :
    HandsOut category pvip nodes := by
  obtain ⟨actions, frees, visited, -⟩ := packed.links.pvipFree_eq category
  refine ⟨fun node given => ?_, ?_, packed.idx, actions, frees, ?_⟩
  · obtain ⟨among, nonneg, below⟩ := mem_nodesOf.mp (packed.given.mem_iff.mp given)
    exact ⟨nonneg, Int.lt_of_lt_of_le below (packed.idx _ among).2⟩
  · exact packed.given.nodup_iff.mpr (nodup_nodesOf _ _)
  · rw [visited]
    exact packed.given.symm

/-! ## Memory of any content -/

/-- What the content of later arenas leaves behind, as long as all nodes lie inside. -/
structure Begun (content : Nat → BitVec 32) (n : Nat) (pvip : Pvip) (nodes : List Slot) :
    Prop where
  first : ∀ arena, 0 < arena → arena < pvip.made → ⟨arena, (content arena).toInt⟩ ∈ nodes
  passed : ∀ arena, 0 < arena → arena < pvip.made →
    (content arena).toInt < (pvip.arenas arena).idx
  from_first : ∀ node ∈ nodes,
    node.arena < pvip.made ∧ (0 < node.arena → (content node.arena).toInt ≤ node.index)
  count : (n : Int) ≤ arenaSize * pvip.arena + (pvip.arenas pvip.arena).idx

theorem begun_new (content : Nat → BitVec 32) : Begun content 0 pvipNew [] where
  first arena later among := by simp [pvipNew] at among; omega
  passed arena later among := by simp [pvipNew] at among; omega
  from_first _ given := nomatch given
  count := Int.le_refl _

theorem Begun.nodeAlloc_room (begun : Begun content n pvip nodes) (links : Linked pvip)
    (room : (pvip.arenas pvip.arena).idx ≠ arenaSize) (inside : (nodeAlloc content pvip).2.Inside) :
    Begun content (n + 1) (nodeAlloc content pvip).1 (nodes ++ [(nodeAlloc content pvip).2]) := by
  have newest := links.newest
  have count := begun.count
  rw [nodeAlloc_of_room content room] at inside ⊢
  have next := incr_of_lt inside.1 inside.2
  refine ⟨fun arena later among => ?_, fun arena later among => ?_, fun node given => ?_, ?_⟩
  · exact List.mem_append_left _ (begun.first arena later among)
  · have passed := begun.passed arena later among
    by_cases same : arena = pvip.arena
    · subst same
      simp only [Function.update_self, next]
      omega
    · simpa only [Function.update_of_ne same] using passed
  · rcases List.mem_append.mp given with given | given
    · exact begun.from_first node given
    · obtain rfl := List.mem_singleton.mp given
      refine ⟨by simp only; omega, fun later => ?_⟩
      exact Int.le_of_lt (begun.passed pvip.arena later (by omega))
  · simp only [Function.update_self, next]
    omega

theorem Begun.nodeAlloc_full (begun : Begun content n pvip nodes) (links : Linked pvip)
    (full : (pvip.arenas pvip.arena).idx = arenaSize) (inside : (nodeAlloc content pvip).2.Inside) :
    Begun content (n + 1) (nodeAlloc content pvip).1 (nodes ++ [(nodeAlloc content pvip).2]) := by
  have newest := links.newest
  have count := begun.count
  rw [nodeAlloc_of_full content full] at inside ⊢
  have next := incr_of_lt inside.1 inside.2
  refine ⟨fun arena later among => ?_, fun arena later among => ?_, fun node given => ?_, ?_⟩
  · by_cases same : arena = pvip.made
    · simp [same]
    · exact List.mem_append_left _ (begun.first arena later (by simp only at among; omega))
  · by_cases same : arena = pvip.made
    · simp only [same, Function.update_self, next]
      omega
    · simp only [Function.update_of_ne same]
      exact begun.passed arena later (by simp only at among; omega)
  · rcases List.mem_append.mp given with given | given
    · obtain ⟨among, above⟩ := begun.from_first node given
      exact ⟨by simp only; omega, above⟩
    · obtain rfl := List.mem_singleton.mp given
      exact ⟨by simp only; omega, fun _ => Int.le_refl _⟩
  · have size : (arenaSize : Int) = 1024 := rfl
    have nonneg := inside.1
    rw [full, size] at count
    simp only [Function.update_self, next, size] at nonneg ⊢
    omega

theorem begun_calls (inside : ∀ node ∈ (calls content n).2, node.Inside) :
    Begun content n (calls content n).1 (calls content n).2 := by
  induction n with
  | zero => exact begun_new content
  | succ n ih =>
      have begun := ih fun node given => inside node (List.mem_append_left _ given)
      have links := linked_calls content n
      have last := inside _ (List.mem_append_right _ (List.mem_singleton_self _))
      by_cases full : ((calls content n).1.arenas (calls content n).1.arena).idx = arenaSize
      · exact begun.nodeAlloc_full links full last
      · exact begun.nodeAlloc_room links full last

/-- A further arena that does not begin at 0 has slots that are visited and were never given. -/
theorem clear_of_handsOut
    (handsOut : HandsOut category (calls content n).1 (calls content n).2) (arena : Nat)
    (later : 0 < arena) (reached : arenaSize * arena < n) : content arena = 0 := by
  have links := linked_calls content n
  have begun := begun_calls handsOut.inside
  obtain ⟨actions, frees, visited, -⟩ := links.pvipFree_eq category
  obtain ⟨actions', frees', same⟩ := handsOut.frees
  obtain rfl : actions = actions' := Option.some.inj (frees.symm.trans frees')
  rw [visited] at same
  have newest := links.newest
  have among : arena < (calls content n).1.made := by
    have size : arenaSize = 1024 := rfl
    have count := begun.count
    have bound := (handsOut.idx (calls content n).1.arena (by omega)).2
    rw [size] at count bound reached
    omega
  have nonneg := (handsOut.inside _ (begun.first arena later among)).1
  have passed := begun.passed arena later among
  have given : ⟨arena, 0⟩ ∈ (calls content n).2 :=
    same.mem_iff.mp (mem_nodesOf.mpr ⟨among, Int.le_refl 0, Int.lt_of_le_of_lt nonneg passed⟩)
  have zero := (begun.from_first _ given).2 later
  exact BitVec.eq_of_toInt_eq (Int.le_antisymm zero nonneg)

theorem slots_handed_out_iff (content : Nat → BitVec 32) (category : Slot → Option Category)
    (n : Nat) :
    HandsOut category (calls content n).1 (calls content n).2 ↔
      ∀ arena, 0 < arena → arenaSize * arena < n → content arena = 0 :=
  ⟨fun handsOut arena later reached => clear_of_handsOut handsOut arena later reached,
    fun clear => (packed_calls clear).handsOut category⟩

/-- The memory of the second arena comes with 7 in the place of `idx`. -/
theorem not_slots_handed_out :
    ¬ ∀ content category n, HandsOut category (calls content n).1 (calls content n).2 := by
  intro all
  have clear := clear_of_handsOut (all (fun _ => 7) (fun _ => none) 1025) 1
    (by decide) (by decide)
  exact absurd clear (by decide)

end Pool
end Syntax
end Pone
