import Mathlib.Data.List.Basic

/-!
# Chains of scopes

Scopes form a forest by their parent links, and so do other linked lists.  `IsChain` says that a list
is the sequence of scopes met when the links are followed from a given scope.  Two ways to look a
scope up are compared: a number of links to follow (`ancestor`), and the first scope on the way that
satisfies a test (`nearest`).
-/

namespace ScopeChain

variable {ι : Type*} {parent parent' : ι → Option ι}

/-- The scopes met from `start` upwards, up to a scope without a parent. -/
def IsChain (parent : ι → Option ι) : Option ι → List ι → Prop
  | start, [] => start = none
  | start, scope :: scopes => start = some scope ∧ IsChain parent (parent scope) scopes

/-- Follow a number of parent links. -/
def ancestor (parent : ι → Option ι) : Nat → ι → Option ι
  | 0, scope => some scope
  | up + 1, scope => (parent scope).bind (ancestor parent up)

/-- The first scope from `start` upwards that satisfies the test, among the first `fuel` ones. -/
def nearest (parent : ι → Option ι) (test : ι → Bool) : Nat → Option ι → Option ι
  | 0, _ => none
  | _ + 1, none => none
  | fuel + 1, some scope =>
      if test scope then some scope else nearest parent test fuel (parent scope)

/-- A change of links outside the chain does not matter. -/
theorem IsChain.congr {start : Option ι} {scopes : List ι} (chain : IsChain parent start scopes)
    (same : ∀ scope ∈ scopes, parent' scope = parent scope) : IsChain parent' start scopes := by
  induction scopes generalizing start with
  | nil => exact chain
  | cons scope scopes ih =>
      refine ⟨chain.1, ?_⟩
      rw [same scope List.mem_cons_self]
      exact ih chain.2 fun other member => same other (List.mem_cons_of_mem scope member)

theorem IsChain.unique {start : Option ι} {left right : List ι} (first : IsChain parent start left)
    (second : IsChain parent start right) : left = right := by
  induction left generalizing start right with
  | nil =>
      cases right with
      | nil => rfl
      | cons scope scopes => cases first.symm.trans second.1
  | cons scope scopes ih =>
      cases right with
      | nil => cases second.symm.trans first.1
      | cons scope' scopes' =>
          obtain rfl := Option.some.inj (first.1.symm.trans second.1)
          rw [ih first.2 second.2]

/-- A link from the last scope of a chain to a new one extends the chain. -/
theorem IsChain.extend {start : Option ι} {scopes : List ι} {last fresh : ι}
    (chain : IsChain parent start scopes) (nodup : scopes.Nodup)
    (ends : scopes.getLast? = some last) (link : parent' last = some fresh)
    (outermost : parent' fresh = none)
    (same : ∀ scope ∈ scopes, scope ≠ last → parent' scope = parent scope) :
    IsChain parent' start (scopes ++ [fresh]) := by
  induction scopes generalizing start with
  | nil => cases ends
  | cons head tail ih =>
      obtain ⟨first, above⟩ := chain
      obtain ⟨apart, distinct⟩ := List.nodup_cons.mp nodup
      refine ⟨first, ?_⟩
      cases tail with
      | nil =>
          obtain rfl : head = last := Option.some.inj ends
          exact ⟨link, outermost⟩
      | cons next rest =>
          rw [List.getLast?_cons_cons] at ends
          have inner : head ≠ last := by
            rintro rfl
            exact apart (List.mem_of_getLast? ends)
          rw [same head List.mem_cons_self inner]
          exact ih above distinct ends fun scope member =>
            same scope (List.mem_cons_of_mem head member)

theorem IsChain.ancestor_eq {scope : ι} {scopes : List ι} {up : Nat}
    (chain : IsChain parent (some scope) scopes) (bound : up < scopes.length) :
    ancestor parent up scope = scopes[up]? := by
  induction up generalizing scope scopes with
  | zero =>
      cases scopes with
      | nil => cases chain
      | cons head tail => exact chain.1
  | succ up ih =>
      cases scopes with
      | nil => cases chain
      | cons head tail =>
          obtain ⟨same, above⟩ := chain
          obtain rfl := Option.some.inj same
          have inside : up < tail.length := by simpa using bound
          cases next : parent scope with
          | none =>
              rw [next] at above
              cases tail with
              | nil => simp at inside
              | cons => cases above.1
          | some above_scope =>
              rw [next] at above
              rw [ancestor, next, Option.bind_some, List.getElem?_cons_succ]
              exact ih above inside

theorem IsChain.nearest_eq {test : ι → Bool} {start : Option ι} {scopes : List ι} {fuel : Nat}
    (chain : IsChain parent start scopes) (enough : scopes.length ≤ fuel) :
    nearest parent test fuel start = scopes.find? test := by
  induction scopes generalizing start fuel with
  | nil =>
      rw [show start = none from chain]
      cases fuel <;> rfl
  | cons scope scopes ih =>
      obtain ⟨rfl, above⟩ := chain
      cases fuel with
      | zero => simp at enough
      | succ fuel =>
          rw [nearest, List.find?_cons]
          cases test scope with
          | true => rfl
          | false => exact ih above (by simpa using enough)

section Numbered

variable {parent : Nat → Option Nat}

/-- Where a parent is always older than its child, a chain only meets older scopes. -/
theorem IsChain.bounded (older : ∀ scope above, parent scope = some above → above < scope)
    {start : Option Nat} {scopes : List Nat} {limit : Nat}
    (chain : IsChain parent start scopes) (first : ∀ scope, start = some scope → scope < limit) :
    (∀ scope ∈ scopes, scope < limit) ∧ scopes.length ≤ limit := by
  induction scopes generalizing start limit with
  | nil => exact ⟨by simp, Nat.zero_le limit⟩
  | cons scope scopes ih =>
      obtain ⟨rfl, above⟩ := chain
      have below := first scope rfl
      obtain ⟨members, count⟩ := ih above fun next => older scope next
      constructor
      · intro other member
        rcases List.mem_cons.mp member with rfl | member
        · exact below
        · have := members other member
          omega
      · rw [List.length_cons]
        omega

end Numbered

end ScopeChain
