import Pone.Heap.Deep

/-!
# What `copy_code` makes

The copy of a closure has one new lex with the bindings of all lexes that enclose the closure.  Where
several bind one name the outermost wins.  The values bound are not copied: they leak.
-/

namespace Pone
namespace Heap

section Closure

variable {κ : Type} [DecidableEq κ]

def Universe.lexParent (u : Universe κ) (lex : Ref) : Option Ref :=
  match u.value lex with
  | some (.lex parent _) => parent
  | _ => none

def Universe.bindings (u : Universe κ) (lex : Ref) : Bindings κ :=
  match u.value lex with
  | some (.lex _ bindings) => bindings
  | _ => ∅

def Universe.codeLex (u : Universe κ) (code : Ref) : Option Ref :=
  match u.value code with
  | some (.code lex) => lex
  | _ => none

/-- What the outermost lex of a chain binds the name to. -/
def outermost (u : Universe κ) (chain : List Ref) (name : κ) : Option Ref :=
  chain.reverse.findSome? fun lex => (u.bindings lex).lookup name

/-- The outermost lex around the closure that binds some name binds it to this value. -/
def Captures (u : Universe κ) (code val : Ref) : Prop :=
  ∃ chain, ScopeChain.IsChain u.lexParent (u.codeLex code) chain ∧
    ∃ name, outermost u chain name = some val

variable {base u u' : Universe κ} {world fuel : Nat} {code dst result val : Ref} {acc : Bindings κ}

theorem outermost_cons {lex : Ref} {chain : List Ref} {name : κ} :
    outermost u (lex :: chain) name =
      (outermost u chain name).or ((u.bindings lex).lookup name) := by
  simp only [outermost, List.reverse_cons, List.findSome?_append, List.findSome?_singleton]

theorem bindings_points {lex : Ref} {name : κ} (bound : (u.bindings lex).lookup name = some val) :
    Sharing.Points (sharing u.classClass) u.value lex val := by
  simp only [Universe.bindings] at bound
  split at bound
  case h_1 parent bindings found =>
    have member := AList.mem_lookup_iff.mp (Option.mem_def.mpr bound)
    exact ⟨_, found, List.mem_append_left _ (List.mem_map_of_mem member)⟩
  case h_2 => cases bound

/-- The lexes of a chain, and what they bind, are reached from its beginning. -/
theorem reaches_outermost {held : List Ref} {start : Option Ref} {chain : List Ref} {name : κ}
    (is_chain : ScopeChain.IsChain u.lexParent start chain)
    (reaches : ∀ lex ∈ start, Sharing.Reaches (sharing u.classClass) u.value held lex)
    (bound : outermost u chain name = some val) :
    Sharing.Reaches (sharing u.classClass) u.value held val := by
  induction chain generalizing start with
  | nil => cases bound
  | cons lex chain ih =>
      obtain ⟨rfl, above⟩ := is_chain
      have reaches_lex := reaches lex rfl
      rw [outermost_cons, Option.or_eq_some_iff] at bound
      rcases bound with outer | ⟨-, own⟩
      · refine ih above (fun parent link => reaches_lex.step ?_) outer
        simp only [Universe.lexParent] at link
        split at link
        case h_1 found => exact ⟨_, found, List.mem_append_right _ (Option.mem_toList.mpr link)⟩
        case h_2 => cases link
      · exact reaches_lex.step (bindings_points own)

/-- What leaks is reached from the closure. -/
theorem Captures.reaches (captures : Captures u code val) :
    Sharing.Reaches (sharing u.classClass) u.value [code] val := by
  obtain ⟨chain, is_chain, name, bound⟩ := captures
  refine reaches_outermost is_chain (fun lex link => ?_) bound
  simp only [Universe.codeLex] at link
  split at link
  case h_1 found =>
    exact (Sharing.Reaches.of_mem (List.mem_singleton_self _)).step
      ⟨_, found, Option.mem_toList.mpr link⟩
  case h_2 => cases link

theorem dupBindings_loop {entries : List (Sigma fun _ : κ => Ref)} (grown : Grown base u)
    (free : base.value dst = none) (content : u.value dst = some (.lex none acc))
    (executed : entries.foldlM (fun u entry => do
      let (u, _) ← objAlloc u world (.str true (.own []))
      lexPut u dst entry.1 entry.2) u = some u') :
    Grown base u' ∧ KeptBut dst u u' ∧ u'.value dst = some (.lex none (putAll acc entries)) := by
  induction entries generalizing u acc with
  | nil =>
      cases executed
      exact ⟨grown, fun _ _ _ => rfl, content⟩
  | cons entry entries ih =>
      simp only [List.foldlM_cons, Option.bind_eq_bind, Option.bind_eq_some_iff, Prod.exists] at executed
      obtain ⟨next, ⟨u₁, key, alloc, puts⟩, rest⟩ := executed
      obtain ⟨grown₁, unset, same₁⟩ := grown.alloc alloc
      have kept₁ := kept_of_update same₁ unset
      have content₁ : u₁.value dst = some (.lex none acc) := by
        rw [kept₁ dst (by simp [content]), content]
      simp only [lexPut, content₁] at puts
      obtain ⟨grown₂, same₂⟩ := grown₁.store puts free
      obtain ⟨grown', kept', content'⟩ := ih grown₂ (by rw [same₂, Function.update_self]) rest
      exact ⟨grown', ((KeptBut.of_kept kept₁).trans (.update same₂)).trans kept', content'⟩

theorem dupLexes_loop {start : Option Ref} (grown : Grown base u) (free : base.value dst = none)
    (content : u.value dst = some (.lex none acc))
    (live : ∀ lex ∈ start, Sharing.Live (sharing base.classClass) base.value [lex])
    (executed : dupLexes world dst fuel u start = some u') :
    Grown base u' ∧ KeptBut dst u u' ∧ ∃ acc' chain, u'.value dst = some (.lex none acc') ∧
      ScopeChain.IsChain base.lexParent start chain ∧
      ∀ name, acc'.lookup name = (outermost base chain name).or (acc.lookup name) := by
  induction fuel generalizing u acc start with
  | zero =>
      cases start with
      | none =>
          cases executed
          exact ⟨grown, .refl, acc, [], content, rfl, fun _ => rfl⟩
      | some lex => cases executed
  | succ fuel ih =>
      cases start with
      | none =>
          cases executed
          exact ⟨grown, .refl, acc, [], content, rfl, fun _ => rfl⟩
      | some lex =>
          have live_lex := live lex rfl
          simp only [dupLexes, grown.agrees live_lex] at executed
          split at executed
          case h_2 => cases executed
          case h_1 parent bindings found =>
            obtain ⟨next, puts, rest⟩ := Option.bind_eq_some_iff.mp executed
            obtain ⟨grown₁, kept₁, content₁⟩ := dupBindings_loop grown free content puts
            have own : base.bindings lex = bindings := by simp only [Universe.bindings, found]
            have link : base.lexParent lex = parent := by simp only [Universe.lexParent, found]
            obtain ⟨grown', kept', acc', chain, content', is_chain, bound⟩ := ih grown₁ content₁
              (fun outer member => live_child live_lex
                ⟨_, found, List.mem_append_right _ (Option.mem_toList.mpr member)⟩) rest
            refine ⟨grown', kept₁.trans kept', acc', lex :: chain, content', ⟨rfl, link ▸ is_chain⟩,
              fun name => ?_⟩
            rw [bound name, outermost_cons, own, lookup_putAll bindings.nodupKeys, ← Option.or_assoc]
            rfl

/-- The new lex binds what the closure captures. -/
theorem dupLexValues_lex {lex : Ref} (grown : Grown base u)
    (live : Sharing.Live (sharing base.classClass) base.value [code])
    (executed : dupLexValues world fuel u code = some (u', lex)) :
    Grown base u' ∧ Sharing.Kept u.value u'.value ∧ u.value lex = none ∧
      ∃ bindings, u'.value lex = some (.lex none bindings) ∧
        ∀ val, Captures base code val ↔ ∃ name, bindings.lookup name = some val := by
  simp only [dupLexValues, Option.bind_eq_bind, Option.bind_eq_some_iff, Prod.exists] at executed
  obtain ⟨u₁, dst, alloc, executed⟩ := executed
  obtain ⟨grown₁, unset, same⟩ := grown.alloc alloc
  have content : u₁.value dst = some (.lex none ∅) := by rw [same, Function.update_self]
  have free := grown.free unset
  rw [grown₁.agrees live] at executed
  split at executed
  case h_2 => cases executed
  case h_1 start found =>
    obtain ⟨filled, loop, last⟩ := Option.bind_eq_some_iff.mp executed
    cases last
    have link : base.codeLex code = start := by simp only [Universe.codeLex, found]
    obtain ⟨grown', kept, bindings, chain, content', is_chain, bound⟩ := dupLexes_loop grown₁ free
      content (fun lex member => live_child live ⟨_, found, Option.mem_toList.mpr member⟩) loop
    refine ⟨grown', fun target set => ?_, unset, bindings, content', fun val => ?_⟩
    · have elsewhere : target ≠ lex := fun here => set (here ▸ unset)
      have first := kept_of_update same unset target set
      rw [kept target elsewhere (first ▸ set), first]
    · simp only [AList.lookup_empty, Option.or_none] at bound
      constructor
      · rintro ⟨chain', is_chain', name, captured⟩
        rw [link] at is_chain'
        obtain rfl := is_chain'.unique is_chain
        exact ⟨name, (bound name).trans captured⟩
      · rintro ⟨name, found⟩
        exact ⟨chain, link ▸ is_chain, name, (bound name).symm.trans found⟩

/-- The copy of a closure leads to new values and to what lies behind the values captured. -/
theorem copyCode_copied (wellFormed : base.WellFormed)
    (live : Sharing.Live (sharing base.classClass) base.value [code])
    (executed : copyCode world fuel base code = some (u', result)) :
    Grown base u' ∧
      Sharing.Confined (sharing base.classClass) (Captures base code) base.value base.value u'.value
        result ∧
      ∀ val, Captures base code val →
        Sharing.Reaches (sharing base.classClass) u'.value [result] val := by
  simp only [copyCode, Option.bind_eq_bind, Option.bind_eq_some_iff, Prod.exists] at executed
  obtain ⟨u₁, dst, alloc, u₂, lex, dup, filled, stores, last⟩ := executed
  cases last
  have grown : Grown base base := ⟨wellFormed, rfl, fun _ _ => rfl⟩
  obtain ⟨grown₁, unset, same₁⟩ := grown.alloc alloc
  obtain ⟨grown₂, kept₂, unset_lex, bindings, content, captures⟩ := dupLexValues_lex grown₁ live dup
  obtain ⟨grown', same'⟩ := grown₂.store stores unset
  have content_code : u'.value result = some (.code (some lex)) := by
    rw [same', Function.update_self]
  have elsewhere : lex ≠ result := by
    rintro rfl
    rw [same₁, Function.update_self] at unset_lex
    cases unset_lex
  have content_lex : u'.value lex = some (.lex none bindings) := by
    rw [same', Function.update_of_ne elsewhere, content]
  have bound (val : Ref) : Captures base code val ↔ val ∈ (Value.lex none bindings).children := by
    rw [captures val]
    simp only [Value.children, Option.toList_none, List.append_nil, List.mem_map]
    constructor
    · rintro ⟨name, found⟩
      exact ⟨⟨name, val⟩, AList.mem_lookup_iff.mp (Option.mem_def.mpr found), rfl⟩
    · rintro ⟨⟨name, val⟩, member, rfl⟩
      exact ⟨name, Option.mem_def.mp (AList.mem_lookup_iff.mpr member)⟩
  refine ⟨grown', fun target reaches => ?_, fun val captured => ?_⟩
  · rcases Sharing.reaches_singleton_iff.mp reaches with rfl | ⟨child, ⟨v, found, pointer⟩, behind⟩
    · exact .inl ⟨unset, by simp [content_code]⟩
    · cases content_code.symm.trans found
      obtain rfl : child = lex := by simpa [sharing, Value.isClass, Value.children] using pointer
      rcases Sharing.reaches_singleton_iff.mp behind with rfl | ⟨val, ⟨v, found, pointer⟩, behind⟩
      · exact .inl ⟨grown₁.free unset_lex, by simp [content_lex]⟩
      · cases content_lex.symm.trans found
        have captured := (bound val).mpr pointer
        rw [grown'.kept.reaches_iff (fun _ => constant_value)
          (live.of_leak (fun _ => Captures.reaches) captured)] at behind
        exact .inr (.inr ⟨val, captured, behind⟩)
  · have reaches_lex : Sharing.Reaches (sharing base.classClass) u'.value [result] lex :=
      (Sharing.Reaches.of_mem (List.mem_singleton_self _)).step ⟨_, content_code, by
        simp [sharing, Value.isClass, Value.children]⟩
    exact reaches_lex.step ⟨_, content_lex, (bound val).mp captured⟩

end Closure

end Heap
end Pone
