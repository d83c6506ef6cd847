import Mathlib.Logic.Function.Basic
import Mathlib.Logic.Relation
import Mathlib.Data.List.Basic

/-!
# Marking a graph depth first

`mark` sets the mark of a node and goes on to its children, but turns back at a node whose mark is
already set.  Marks that are set beforehand therefore hide what lies behind them: with enough fuel
the nodes marked are those that were, and those reached from a root over unmarked nodes only.
-/

namespace Marking

variable {ν : Type*} {children : ν → List ν}

/-- An edge to an unmarked node. -/
def Open (children : ν → List ν) (marked : ν → Bool) (parent child : ν) : Prop :=
  child ∈ children parent ∧ marked child = false

/-- A node is reached from an unmarked root along unmarked nodes. -/
def Clear (children : ν → List ν) (marked : ν → Bool) (root node : ν) : Prop :=
  marked root = false ∧ Relation.ReflTransGen (Open children marked) root node

theorem Clear.unmarked {marked : ν → Bool} {root node : ν} (clear : Clear children marked root node) :
    marked node = false := by
  obtain ⟨unmarked, path⟩ := clear
  cases path with
  | refl => exact unmarked
  | tail _ edge => exact edge.2

theorem Clear.mono {before marked : ν → Bool} {root node : ν}
    (grows : ∀ x, before x = true → marked x = true)
    (clear : Clear children marked root node) : Clear children before root node := by
  have shrinks {x : ν} (unmarked : marked x = false) : before x = false := by
    cases set : before x with
    | false => rfl
    | true => rw [grows x set] at unmarked; cases unmarked
  have steps : Open children marked ≤ Open children before :=
    fun _ _ edge => ⟨edge.1, shrinks edge.2⟩
  exact ⟨shrinks clear.1, Relation.ReflTransGen.mono steps _ _ clear.2⟩

/-- What marking from some roots does to the marks. -/
structure Marked (children : ν → List ν) (before after : ν → Bool) (roots : List ν) : Prop where
  grows : ∀ x, before x = true → after x = true
  reached : ∀ root ∈ roots, after root = true
  closed : ∀ x, before x = false → after x = true → ∀ child ∈ children x, after child = true
  sound : ∀ x, before x = false → after x = true → ∃ root ∈ roots, Clear children before root x

theorem Marked.nil (marked : ν → Bool) : Marked children marked marked [] where
  grows _ set := set
  reached _ member := by cases member
  closed x unset set := by rw [unset] at set; cases set
  sound x unset set := by rw [unset] at set; cases set

theorem Marked.cons {before middle after : ν → Bool} {root : ν} {roots : List ν}
    (first : Marked children before middle [root]) (rest : Marked children middle after roots) :
    Marked children before after (root :: roots) where
  grows x set := rest.grows x (first.grows x set)
  reached other member := by
    rcases List.mem_cons.mp member with rfl | member
    · exact rest.grows other (first.reached other List.mem_cons_self)
    · exact rest.reached other member
  closed x unset set child member := by
    cases between : middle x with
    | true => exact rest.grows child (first.closed x unset between child member)
    | false => exact rest.closed x between set child member
  sound x unset set := by
    cases between : middle x with
    | true =>
        obtain ⟨other, member, clear⟩ := first.sound x unset between
        obtain rfl := List.mem_singleton.mp member
        exact ⟨other, List.mem_cons_self, clear⟩
    | false =>
        obtain ⟨other, member, clear⟩ := rest.sound x between set
        exact ⟨other, List.mem_cons_of_mem root member, clear.mono first.grows⟩

/-- The nodes with children that are not marked yet. -/
def pending (nodes : List ν) (marked : ν → Bool) : Nat :=
  nodes.countP fun node => !marked node

theorem pending_le {nodes : List ν} {before after : ν → Bool}
    (grows : ∀ x, before x = true → after x = true) : pending nodes after ≤ pending nodes before := by
  refine List.countP_mono_left fun x _ unset => ?_
  cases set : before x with
  | false => rfl
  | true => simp [grows x set] at unset

section Depth

variable [DecidableEq ν]

/-- Mark a node and, where it was not marked, its children in turn. -/
def mark (children : ν → List ν) : Nat → (ν → Bool) → ν → ν → Bool
  | 0, marked, _ => marked
  | fuel + 1, marked, node =>
      if marked node then marked
      else (children node).foldl (mark children fuel) (Function.update marked node true)

def markAll (children : ν → List ν) (fuel : Nat) (marked : ν → Bool) (roots : List ν) : ν → Bool :=
  roots.foldl (mark children fuel) marked

/-- An unmarked root whose mark is set, and then all that its children lead to. -/
theorem Marked.root {before after : ν → Bool} {root : ν} (unset : before root = false)
    (rest : Marked children (Function.update before root true) after (children root)) :
    Marked children before after [root] := by
  have grows : ∀ x, before x = true → Function.update before root true x = true := by
    intro x set
    rw [Function.update_apply]
    split
    · rfl
    · exact set
  have self : after root = true := rest.grows root (Function.update_self root true before)
  have other {x : ν} (different : x ≠ root) (unmarked : before x = false) :
      Function.update before root true x = false := by
    rw [Function.update_of_ne different]
    exact unmarked
  refine ⟨fun x set => rest.grows x (grows x set), fun x member => ?_, fun x unmarked set => ?_,
    fun x unmarked set => ⟨root, List.mem_cons_self, ?_⟩⟩
  · obtain rfl := List.mem_singleton.mp member
    exact self
  · by_cases same : x = root
    · obtain rfl := same
      exact rest.reached
    · exact rest.closed x (other same unmarked) set
  · by_cases same : x = root
    · obtain rfl := same
      exact ⟨unset, .refl⟩
    · obtain ⟨child, member, clear⟩ := rest.sound x (other same unmarked) set
      obtain ⟨child_unset, path⟩ := clear.mono grows
      exact ⟨unset, .head ⟨member, child_unset⟩ path⟩

theorem pending_update_lt {nodes : List ν} {marked : ν → Bool} {root : ν} (member : root ∈ nodes)
    (unset : marked root = false) :
    pending nodes (Function.update marked root true) < pending nodes marked := by
  induction nodes with
  | nil => cases member
  | cons node nodes ih =>
      simp only [pending, List.countP_cons]
      have smaller : pending nodes (Function.update marked root true) ≤ pending nodes marked := by
        refine pending_le fun x set => ?_
        rw [Function.update_apply]
        split
        · rfl
        · exact set
      simp only [pending] at smaller ih
      by_cases same : node = root
      · obtain rfl := same
        simp only [Function.update_self, unset]
        simp
        omega
      · have inside : root ∈ nodes := by
          rcases List.mem_cons.mp member with rfl | inside
          · exact absurd rfl same
          · exact inside
        rw [Function.update_of_ne same]
        have := ih inside
        omega

/-- With more fuel than unmarked nodes that have children, marking is complete. -/
theorem mark_marked {nodes : List ν} (finite : ∀ node, children node ≠ [] → node ∈ nodes)
    {fuel : Nat} {marked : ν → Bool} (root : ν) (enough : pending nodes marked < fuel) :
    Marked children marked (mark children fuel marked root) [root] := by
  induction fuel generalizing marked root with
  | zero => omega
  | succ fuel ih =>
      have fold (roots : List ν) {marked : ν → Bool} (enough : pending nodes marked < fuel) :
          Marked children marked (roots.foldl (mark children fuel) marked) roots := by
        induction roots generalizing marked with
        | nil => exact .nil marked
        | cons root roots roots_ih =>
            have first := ih root enough
            exact first.cons (roots_ih (Nat.lt_of_le_of_lt (pending_le first.grows) enough))
      rw [mark]
      split
      case isTrue set =>
        have same : Marked children marked marked [] := .nil marked
        exact ⟨same.grows, fun x member => by
          obtain rfl := List.mem_singleton.mp member
          exact set, same.closed, fun x unset set => by
            obtain ⟨_, member, _⟩ := same.sound x unset set
            cases member⟩
      case isFalse unset =>
        have unset : marked root = false := by simpa using unset
        refine Marked.root unset ?_
        cases nonempty : children root with
        | nil => exact .nil _
        | cons child rest =>
            have member := finite root (by rw [nonempty]; exact List.cons_ne_nil _ _)
            have fewer := pending_update_lt member unset
            exact fold (child :: rest) (by omega)

theorem markAll_marked {nodes : List ν} (finite : ∀ node, children node ≠ [] → node ∈ nodes)
    {fuel : Nat} {marked : ν → Bool} {roots : List ν} (enough : pending nodes marked < fuel) :
    Marked children marked (markAll children fuel marked roots) roots := by
  induction roots generalizing marked with
  | nil => exact .nil marked
  | cons root roots ih =>
      have first := mark_marked finite root enough
      exact first.cons (ih (Nat.lt_of_le_of_lt (pending_le first.grows) enough))

/-- The marks after marking: those set before, and the nodes in clear reach of a root. -/
theorem markAll_iff {nodes : List ν} (finite : ∀ node, children node ≠ [] → node ∈ nodes)
    {fuel : Nat} {marked : ν → Bool} {roots : List ν} (enough : pending nodes marked < fuel)
    (node : ν) :
    markAll children fuel marked roots node = true ↔
      marked node = true ∨ ∃ root ∈ roots, Clear children marked root node := by
  have result : Marked children marked (markAll children fuel marked roots) roots :=
    markAll_marked finite enough
  constructor
  · intro set
    cases before : marked node with
    | true => exact .inl rfl
    | false => exact .inr (result.sound node before set)
  · rintro (set | ⟨root, member, unset, path⟩)
    · exact result.grows node set
    · induction path with
      | refl => exact result.reached root member
      | tail front edge ih =>
          have clear : Clear children marked root _ := ⟨unset, front⟩
          exact result.closed _ clear.unmarked ih _ edge.1

/-- Marking whose recursion is given up at a depth. -/
def markWithin (children : ν → List ν) : Nat → (ν → Bool) → ν → Option (ν → Bool)
  | 0, _, _ => none
  | depth + 1, marked, node =>
      if marked node then some marked
      else (children node).foldlM (markWithin children depth) (Function.update marked node true)

def markAllWithin (children : ν → List ν) (depth : Nat) (marked : ν → Bool) (roots : List ν) :
    Option (ν → Bool) :=
  roots.foldlM (markWithin children depth) marked

/-- The recursion is never deeper than the number of unmarked nodes that have children. -/
theorem markWithin_eq {nodes : List ν} (finite : ∀ node, children node ≠ [] → node ∈ nodes)
    {depth : Nat} {marked : ν → Bool} (root : ν) (enough : pending nodes marked < depth) :
    markWithin children depth marked root = some (mark children depth marked root) := by
  induction depth generalizing marked root with
  | zero => omega
  | succ depth ih =>
      have fold (roots : List ν) {marked : ν → Bool} (enough : pending nodes marked < depth) :
          roots.foldlM (markWithin children depth) marked =
            some (roots.foldl (mark children depth) marked) := by
        induction roots generalizing marked with
        | nil => rfl
        | cons root roots roots_ih =>
            rw [List.foldlM_cons, ih root enough, List.foldl_cons]
            have grows := (mark_marked finite root enough).grows
            exact roots_ih (Nat.lt_of_le_of_lt (pending_le grows) enough)
      rw [markWithin, mark]
      split
      case isTrue set => rfl
      case isFalse unset =>
        have unset : marked root = false := by simpa using unset
        cases nonempty : children root with
        | nil => rfl
        | cons child rest =>
            have member := finite root (by rw [nonempty]; exact List.cons_ne_nil _ _)
            have fewer := pending_update_lt member unset
            exact fold (child :: rest) (by omega)

theorem markAllWithin_eq {nodes : List ν} (finite : ∀ node, children node ≠ [] → node ∈ nodes)
    {depth : Nat} {marked : ν → Bool} {roots : List ν} (enough : pending nodes marked < depth) :
    markAllWithin children depth marked roots = some (markAll children depth marked roots) := by
  induction roots generalizing marked with
  | nil => rfl
  | cons root roots ih =>
      have grows := (mark_marked finite root enough).grows
      rw [markAllWithin, List.foldlM_cons, markWithin_eq finite root enough]
      exact ih (Nat.lt_of_le_of_lt (pending_le grows) enough)

/-- What is marked does not depend on the depth, once it is enough. -/
theorem markAll_eq {nodes : List ν} (finite : ∀ node, children node ≠ [] → node ∈ nodes)
    {fuel fuel' : Nat} {marked : ν → Bool} {roots : List ν} (enough : pending nodes marked < fuel)
    (enough' : pending nodes marked < fuel') :
    markAll children fuel marked roots = markAll children fuel' marked roots := by
  funext node
  rw [Bool.eq_iff_iff, markAll_iff finite enough, markAll_iff finite enough']

end Depth

end Marking
