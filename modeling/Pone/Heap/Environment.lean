import Pone.Heap.Isolation

/-!
# The environment of a new thread

`pone_get_lex` walks the lexes that enclose a closure from the inside, and the innermost lex that
binds a name decides.  `dup_lex_values` puts the bindings of the same lexes into one map, also from
the inside, and each `kh_put` overwrites what an inner lex has put there: the outermost lex decides.
-/

namespace Pone
namespace Heap

section Environment

variable {κ : Type} [DecidableEq κ]

/-- The loop of `pone_get_lex`, which aborts on a lex that is not alive; `some none` says that no lex
binds the name.  The fuel bounds the number of lexes. -/
def getLex (u : Universe κ) (name : κ) : Nat → Option Ref → Option (Option Ref)
  | _, none => some none
  | 0, some _ => none
  | fuel + 1, some lex =>
      match u.value lex with
      | some (.lex parent bindings) =>
          match bindings.lookup name with
          | some val => some (some val)
          | none => getLex u name fuel parent
      | _ => none

/-- The lexes that enclose a closure, from the inside. -/
def LexChain (u : Universe κ) (start : Option Ref) (chain : List Ref) : Prop :=
  ScopeChain.IsChain u.lexParent start chain ∧
    ∀ lex ∈ chain, ∃ parent bindings, u.value lex = some (.lex parent bindings)

/-- What the innermost lex of a chain binds the name to. -/
def innermost (u : Universe κ) (chain : List Ref) (name : κ) : Option Ref :=
  chain.findSome? fun lex => (u.bindings lex).lookup name

variable {base u u' : Universe κ} {world fuel : Nat} {start : Option Ref} {chain : List Ref}
  {code dst : Ref} {acc : Bindings κ} {name : κ}

omit [DecidableEq κ] in
theorem lexChain_cons {lex : Ref} (lexes : LexChain u start (lex :: chain)) :
    start = some lex ∧ ∃ parent bindings, u.value lex = some (.lex parent bindings) ∧
      LexChain u parent chain := by
  obtain ⟨⟨first, above⟩, alive⟩ := lexes
  obtain ⟨parent, bindings, found⟩ := alive lex List.mem_cons_self
  have link : u.lexParent lex = parent := by simp only [Universe.lexParent, found]
  exact ⟨first, parent, bindings, found, link ▸ above, fun other member =>
    alive other (List.mem_cons_of_mem lex member)⟩

/-- `pone_get_lex` finds what the innermost lex binds. -/
theorem getLex_eq (lexes : LexChain u start chain) (enough : chain.length ≤ fuel) :
    getLex u name fuel start = some (innermost u chain name) := by
  induction chain generalizing start fuel with
  | nil =>
      obtain rfl : start = none := lexes.1
      cases fuel <;> rfl
  | cons lex chain ih =>
      obtain ⟨rfl, parent, bindings, found, above⟩ := lexChain_cons lexes
      cases fuel with
      | zero => cases enough
      | succ fuel =>
          have own : u.bindings lex = bindings := by simp only [Universe.bindings, found]
          simp only [getLex, found, innermost, List.findSome?_cons, own]
          cases bindings.lookup name with
          | some val => rfl
          | none => exact ih above (Nat.le_of_succ_le_succ enough)

/-- A name is bound by the outermost lex that binds it exactly when it is bound by the innermost. -/
theorem outermost_eq_none_iff : outermost u chain name = none ↔ innermost u chain name = none := by
  simp only [outermost, innermost, List.findSome?_eq_none_iff, List.mem_reverse]

/-! ## Filling the map -/

theorem lexPut_isSome {val : Ref} (slot : ∃ place index, dst = .slot place index)
    (content : u.value dst = some (.lex none acc)) : (lexPut u dst name val).isSome := by
  obtain ⟨place, index, rfl⟩ := slot
  simp only [lexPut, content, store, Option.isSome_some]

theorem dupBindings_isSome {entries : List (Sigma fun _ : κ => Ref)} (grown : Grown base u)
    (arenas : (u.allocator world).isSome) (slot : ∃ place index, dst = .slot place index)
    (free : base.value dst = none) (content : u.value dst = some (.lex none acc)) :
    ∃ u', (entries.foldlM (fun u entry => do
      let (u, _) ← objAlloc u world (.str true (.own []))
      lexPut u dst entry.1 entry.2) u = some u') ∧ (u'.allocator world).isSome := by
  induction entries generalizing u acc with
  | nil => exact ⟨u, rfl, arenas⟩
  | cons entry entries ih =>
      obtain ⟨⟨u₁, key⟩, alloc⟩ := Option.isSome_iff_exists.mp
        (objAlloc_isSome (v := .str true (.own [])) arenas)
      obtain ⟨grown₁, unset, same₁⟩ := grown.alloc alloc
      have content₁ : u₁.value dst = some (.lex none acc) := by
        rw [kept_of_update same₁ unset dst (by simp [content]), content]
      obtain ⟨u₂, puts⟩ : ∃ u₂, lexPut u₁ dst entry.1 entry.2 = some u₂ :=
        Option.isSome_iff_exists.mp (lexPut_isSome slot content₁)
      have stores := puts
      simp only [lexPut, content₁] at stores
      obtain ⟨grown₂, same₂⟩ := grown₁.store stores free
      have arenas₂ : (u₂.allocator world).isSome := by
        obtain ⟨_, _, _, after, _⟩ := objAlloc_allocator alloc
        rw [store_allocator stores, after, Option.isSome_some]
      obtain ⟨u', rest, arenas'⟩ := ih grown₂ arenas₂ (by rw [same₂, Function.update_self])
      refine ⟨u', ?_, arenas'⟩
      simp only [List.foldlM_cons, Option.bind_eq_bind, alloc, Option.bind_some, puts]
      exact rest

/-- The loop of `dup_lex_values` over a chain of lexes. -/
theorem dupLexes_fills (lexes : LexChain base start chain) (enough : chain.length ≤ fuel)
    (grown : Grown base u) (arenas : (u.allocator world).isSome)
    (slot : ∃ place index, dst = .slot place index) (free : base.value dst = none)
    (content : u.value dst = some (.lex none acc)) :
    ∃ u' acc', dupLexes world dst fuel u start = some u' ∧
      u'.value dst = some (.lex none acc') ∧
      ∀ name, acc'.lookup name = (outermost base chain name).or (acc.lookup name) := by
  induction chain generalizing u start fuel acc with
  | nil =>
      obtain rfl : start = none := lexes.1
      exact ⟨u, acc, by cases fuel <;> rfl, content, fun _ => rfl⟩
  | cons lex chain ih =>
      obtain ⟨rfl, parent, bindings, found, above⟩ := lexChain_cons lexes
      cases fuel with
      | zero => cases enough
      | succ fuel =>
          have own : base.bindings lex = bindings := by simp only [Universe.bindings, found]
          have seen : u.value lex = some (.lex parent bindings) := by
            rw [grown.kept lex (by simp [found]), found]
          obtain ⟨u₁, puts, arenas₁⟩ : ∃ u₁, dupBindings world dst u bindings = some u₁ ∧ _ :=
            dupBindings_isSome grown arenas slot free content
          obtain ⟨grown₁, -, content₁⟩ := dupBindings_loop grown free content puts
          obtain ⟨u', acc', rest, content', bound⟩ :=
            ih above (Nat.le_of_succ_le_succ enough) grown₁ arenas₁ content₁
          refine ⟨u', acc', ?_, content', fun name => ?_⟩
          · simp only [dupLexes, seen]
            rw [puts, Option.bind_some, rest]
          · rw [bound name, outermost_cons, own, lookup_putAll bindings.nodupKeys,
              ← Option.or_assoc]
            rfl

/-- The environment of a new thread binds each name to what the outermost lex binds it to. -/
theorem dupLexValues_getLex (wellFormed : u.WellFormed) (inside : world < u.worlds.length)
    (found : u.value code = some (.code start)) (lexes : LexChain u start chain)
    (enough : chain.length ≤ fuel) :
    ∃ u' dst, dupLexValues world fuel u code = some (u', dst) ∧
      ∀ name, getLex u' name 1 (some dst) = some (outermost u chain name) := by
  have arenas : (u.allocator world).isSome := by
    simp [Universe.allocator, List.getElem?_eq_getElem inside]
  have grown : Grown u u := ⟨wellFormed, rfl, fun _ _ => rfl⟩
  obtain ⟨⟨u₁, dst⟩, alloc⟩ := Option.isSome_iff_exists.mp
    (objAlloc_isSome (v := .lex none ∅) arenas)
  obtain ⟨grown₁, unset, same⟩ := grown.alloc alloc
  obtain ⟨_, -, first, after, -⟩ := objAlloc_allocator alloc
  have content : u₁.value dst = some (.lex none ∅) := by rw [same, Function.update_self]
  obtain ⟨u', bindings, loop, content', bound⟩ := dupLexes_fills lexes enough grown₁
    (by rw [after, Option.isSome_some]) ⟨_, _, first⟩ unset content
  refine ⟨u', dst, ?_, fun name => ?_⟩
  · have seen : u₁.value code = some (.code start) := by
      rw [grown₁.kept code (by simp [found]), found]
    simp only [dupLexValues, Option.bind_eq_bind, alloc, Option.bind_some, seen, loop]
    rfl
  · simp only [getLex, content', bound name, AList.lookup_empty, Option.or_none]
    cases outermost u chain name <;> rfl

/-- For every name: a new thread finds the binding that the closure finds exactly when the innermost
and the outermost lex that bind the name bind it to one value; and a name is unbound for both or for
none. -/
theorem environment_preserved_iff (reached : Reached u) (inside : world < u.worlds.length)
    (found : u.value code = some (.code start)) (lexes : LexChain u start chain)
    (enough : chain.length ≤ fuel) :
    ∃ u' dst, dupLexValues world fuel u code = some (u', dst) ∧ ∀ name,
      (getLex u' name 1 (some dst) = getLex u name fuel start ↔
        innermost u chain name = outermost u chain name) ∧
      (getLex u' name 1 (some dst) = some none ↔ getLex u name fuel start = some none) := by
  obtain ⟨u', dst, executed, flat⟩ :=
    dupLexValues_getLex reached.wellFormed inside found lexes enough
  refine ⟨u', dst, executed, fun name => ?_⟩
  rw [flat name, getLex_eq lexes enough, Option.some.injEq, Option.some.injEq, Option.some.injEq,
    outermost_eq_none_iff]
  exact ⟨eq_comm, .rfl⟩

end Environment

/-- A variable 0 bound to 1 and, in an inner scope, to 2; a closure of the inner scope; a worker. -/
def shadowingClosure : List (Op Nat) :=
  [.worldNew, .store (.slot 0 0) (.lex none (AList.insert 0 (.constInt 1) ∅)), .pushScope 0,
    .store (.slot 0 2) (.lex (some (.slot 0 0)) (AList.insert 0 (.constInt 2) ∅)),
    .alloc 0 (.code (some (.slot 0 2))), .worldNew]

def beforeAsync : Universe Nat :=
  (Execution.run step universeInit shadowingClosure).getD universeInit

set_option maxRecDepth 10000 in
theorem reached_beforeAsync : Reached beforeAsync := by
  have runs : (Execution.run step universeInit shadowingClosure).isSome = true := by decide +kernel
  exact Reached.init.run (eq_some_getD runs _)

set_option maxRecDepth 10000 in
theorem lexChain_beforeAsync :
    LexChain beforeAsync (some (.slot 0 2)) [.slot 0 2, .slot 0 0] := by
  have inner : beforeAsync.lexParent (.slot 0 2) = some (.slot 0 0) := by decide +kernel
  have outer : beforeAsync.lexParent (.slot 0 0) = none := by decide +kernel
  refine ⟨⟨rfl, inner, outer⟩, fun lex member => ?_⟩
  simp only [List.mem_cons, List.not_mem_nil, or_false] at member
  rcases member with rfl | rfl
  · exact ⟨some (.slot 0 0), AList.insert 0 (.constInt 2) ∅, rfl⟩
  · exact ⟨none, AList.insert 0 (.constInt 1) ∅, rfl⟩

set_option maxRecDepth 10000 in
theorem environment_preserved_iff_shadowing :
    ∃ u' dst, dupLexValues 1 2 beforeAsync (.slot 0 3) = some (u', dst) ∧ ∀ name,
      (getLex u' name 1 (some dst) = getLex beforeAsync name 2 (some (.slot 0 2)) ↔
        innermost beforeAsync [.slot 0 2, .slot 0 0] name =
          outermost beforeAsync [.slot 0 2, .slot 0 0] name) ∧
      (getLex u' name 1 (some dst) = some none ↔
        getLex beforeAsync name 2 (some (.slot 0 2)) = some none) :=
  environment_preserved_iff reached_beforeAsync (by decide +kernel) (by decide +kernel)
    lexChain_beforeAsync (by decide)

set_option maxRecDepth 10000 in
/-- The closure finds 2, and the thread that runs it finds 1. -/
theorem environment_changes :
    Reached beforeAsync ∧ beforeAsync.value (.slot 0 3) = some (.code (some (.slot 0 2))) ∧
      LexChain beforeAsync (some (.slot 0 2)) [.slot 0 2, .slot 0 0] ∧
      getLex beforeAsync 0 2 (some (.slot 0 2)) = some (some (.constInt 2)) ∧
      (dupLexValues 1 2 beforeAsync (.slot 0 3)).bind
        (fun made => getLex made.1 0 1 (some made.2)) = some (some (.constInt 1)) := by
  refine ⟨reached_beforeAsync, ?_, lexChain_beforeAsync, ?_, ?_⟩ <;> decide +kernel

end Heap
end Pone
