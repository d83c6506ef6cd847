import Mathlib.Data.Set.Finite.List
import Mathlib.Order.WellFoundedSet
import Pone.Heap.Shape

/-!
# Copies of values that contain themselves

`pone_val_copy` keeps no record of what it has copied.  So it ends exactly on what has no cycle through
arrays and maps, and what stands at two positions is copied twice.
-/

/-- In a finite graph without cycles behind a start, a property that passes from the successors of a
node to the node holds at the start. -/
theorem Relation.induction_of_acyclic {α : Type*} {points : α → α → Prop} {start : α}
    {P : α → Prop} {nodes : Set α} (finite : nodes.Finite)
    (inner : ∀ parent child, points parent child → parent ∈ nodes)
    (acyclic : ∀ node, ReflTransGen points start node → ¬ TransGen points node node)
    (step : ∀ node, ReflTransGen points start node → (∀ child, points node child → P child) → P node) :
    P start := by
  let below (child parent : α) : Prop := ReflTransGen points start parent ∧ TransGen points parent child
  have strict : IsStrictOrder α below := {
    irrefl := fun node cycle => acyclic node cycle.1 cycle.2
    trans := fun _ _ _ first second => ⟨second.1, second.2.trans first.2⟩ }
  have wellFounded : nodes.WellFoundedOn below := finite.wellFoundedOn
  have outside {node : α} (reached : ReflTransGen points start node) (leaf : node ∉ nodes) : P node :=
    step node reached fun child pointer => absurd (inner node child pointer) leaf
  have all (node : α) (member : node ∈ nodes) (reached : ReflTransGen points start node) : P node := by
    refine wellFounded.induction (P := fun node => ReflTransGen points start node → P node) member
      (fun node _ ih reached => ?_) reached
    refine step node reached fun child pointer => ?_
    by_cases known : child ∈ nodes
    · exact ih child known ⟨reached, .single pointer⟩ (reached.tail pointer)
    · exact outside (reached.tail pointer) known
  by_cases member : start ∈ nodes
  · exact all start member .refl
  · exact outside .refl member

namespace Pone
namespace Heap

open Relation

section Cycles

variable {κ : Type} {base u u' u₁ : Universe κ} {world fuel : Nat} {source copy retval result : Ref}

/-- No array or map behind the value contains itself. -/
def Acyclic (u : Universe κ) (source : Ref) : Prop :=
  ∀ target, ReflTransGen (Contains u) source target → ¬ TransGen (Contains u) target target

/-- All values that are copied with the value are of types that can be. -/
def AllSendable (u : Universe κ) (source : Ref) : Prop :=
  ∀ target, ReflTransGen (Contains u) source target → Sendable u target

theorem Contains.children {parent child : Ref} (contains : Contains u parent child) :
    u.children parent ≠ [] := by
  rcases contains with ⟨items, found, member⟩ | ⟨entries, entry, found, member, -⟩
  · simp only [Universe.children, found, Option.elim_some, Value.children]
    exact List.ne_nil_of_mem member
  · simp only [Universe.children, found, Option.elim_some, Value.children]
    exact List.ne_nil_of_mem (List.mem_flatMap.mpr ⟨entry, member, List.mem_cons_self ..⟩)

theorem AllSendable.child {child : Ref} (all : AllSendable u source)
    (contains : Contains u source child) : AllSendable u child := fun target path =>
  all target (path.head contains)

/-- The heap is finite: without cycles every way into it ends. -/
theorem unfolds_of_acyclic (all : AllSendable u source) (acyclic : Acyclic u source) :
    Unfolds u source :=
  induction_of_acyclic (List.finite_toSet u.slots)
    (fun _ _ contains => value_mem_slots contains.children) acyclic
    fun target path parts => .intro (all target path) parts

private theorem Unfolds.not_cycle (unfolds : Unfolds u source) :
    ¬ TransGen (Contains u) source source := by
  induction unfolds with
  | intro _ _ ih =>
      intro cycle
      obtain ⟨child, first, back⟩ := TransGen.head'_iff.mp cycle
      exact ih child first (TransGen.tail' back first)

theorem acyclic_of_unfolds (unfolds : Unfolds u source) : Acyclic u source := by
  have reached {target : Ref} (path : ReflTransGen (Contains u) source target) :
      Unfolds u target := by
    induction path with
    | refl => exact unfolds
    | tail _ contains ih =>
        cases ih with
        | intro _ parts => exact parts _ contains
  exact fun target path => (reached path).not_cycle

/-! ## What is copied is finite -/

/-- What a copy that ends has gone through. -/
def Ends (base : Universe κ) (world : Nat)
    (copy : Universe κ → Ref → Option (Universe κ × Ref)) (source : Ref) : Prop :=
  ∀ u u' result, Ongoing base world u → copy u source = some (u', result) →
    Ongoing base world u' ∧ Sharing.Kept u.value u'.value ∧ Unfolds base source

theorem aryCopy_ends {copy : Universe κ → Ref → Option (Universe κ × Ref)} {place index : Nat}
    {items acc : List Ref} (each : ∀ item ∈ items, Ends base world copy item)
    (ongoing : Ongoing base world u) (free : base.value (.slot place index) = none)
    (content : u.value (.slot place index) = some (.ary acc))
    (executed : (items.foldlM (fun u item => do
      let (u, item) ← copy u item
      aryPush u (.slot place index) item) u) = some u') :
    Ongoing base world u' ∧ KeptBut (.slot place index) u u' ∧
      ∀ item ∈ items, Unfolds base item := by
  induction items generalizing u acc with
  | nil =>
      cases executed
      exact ⟨ongoing, .refl, fun _ member => by cases member⟩
  | cons item items ih =>
      simp only [List.foldlM_cons, Option.bind_eq_bind, Option.bind_eq_some_iff, Prod.exists] at executed
      obtain ⟨u₂, ⟨u₁, new, copied, pushes⟩, rest⟩ := executed
      obtain ⟨ongoing₁, kept₁, unfolds⟩ := each item (List.mem_cons_self ..) u u₁ new ongoing copied
      have content₁ : u₁.value (.slot place index) = some (.ary acc) := by
        rw [kept₁ _ (by simp [content]), content]
      obtain ⟨u₂', stores, ongoing₂, same₂⟩ := ongoing₁.replace content₁ free (.ary (acc ++ [new]))
      simp only [aryPush, content₁] at pushes
      obtain rfl := Option.some.inj (stores.symm.trans pushes)
      obtain ⟨ongoing', kept', others⟩ :=
        ih (fun other member => each other (List.mem_cons_of_mem _ member)) ongoing₂
          (by rw [same₂, Function.update_self]) rest
      refine ⟨ongoing', ((KeptBut.of_kept kept₁).trans (.update same₂)).trans kept', ?_⟩
      intro other member
      rcases List.mem_cons.mp member with rfl | later
      · exact unfolds
      · exact others other later

theorem mapCopy_ends {copy : Universe κ → Ref → Option (Universe κ × Ref)} {place index : Nat}
    {entries acc : List (Ref × Ref)}
    (each : ∀ entry ∈ entries, Ends base world copy entry.1 ∧ Ends base world copy entry.2)
    (ongoing : Ongoing base world u) (free : base.value (.slot place index) = none)
    (content : u.value (.slot place index) = some (.map acc))
    (executed : (entries.foldlM (fun u entry => do
      let (u, key) ← copy u entry.1
      let (u, val) ← copy u entry.2
      mapAssignKey fuel u (.slot place index) key val) u) = some u') :
    Ongoing base world u' ∧ KeptBut (.slot place index) u u' ∧
      ∀ entry ∈ entries, Unfolds base entry.1 ∧ Unfolds base entry.2 := by
  induction entries generalizing u acc with
  | nil =>
      cases executed
      exact ⟨ongoing, .refl, fun _ member => by cases member⟩
  | cons entry entries ih =>
      simp only [List.foldlM_cons, Option.bind_eq_bind, Option.bind_eq_some_iff, Prod.exists] at executed
      obtain ⟨u₃, ⟨u₁, key, copiedKey, u₂, val, copiedVal, puts⟩, rest⟩ := executed
      obtain ⟨endsKey, endsVal⟩ := each entry (List.mem_cons_self ..)
      obtain ⟨ongoing₁, kept₁, unfoldsKey⟩ := endsKey u u₁ key ongoing copiedKey
      obtain ⟨ongoing₂, kept₂, unfoldsVal⟩ := endsVal u₁ u₂ val ongoing₁ copiedVal
      have content₂ : u₂.value (.slot place index) = some (.map acc) := by
        have first : u₁.value (.slot place index) = some (.map acc) := by
          rw [kept₁ _ (by simp [content]), content]
        rw [kept₂ _ (by simp [first]), first]
      simp only [mapAssignKey, content₂] at puts
      split at puts
      case h_2 => cases puts
      case h_1 acc' _ same =>
        cases same
        obtain ⟨u₃', stores, ongoing₃, same₃⟩ := ongoing₂.replace content₂ free
          (.map (mapPut (fun other => strBytes u₂ fuel other = strBytes u₂ fuel key) acc key val))
        obtain rfl := Option.some.inj (stores.symm.trans puts)
        obtain ⟨ongoing', kept', others⟩ :=
          ih (fun other member => each other (List.mem_cons_of_mem _ member)) ongoing₃
            (by rw [same₃, Function.update_self]) rest
        refine ⟨ongoing', (((KeptBut.of_kept kept₁).trans (.of_kept kept₂)).trans
          (.update same₃)).trans kept', ?_⟩
        intro other member
        rcases List.mem_cons.mp member with rfl | later
        · exact ⟨unfoldsKey, unfoldsVal⟩
        · exact others other later

private theorem ends_of_duplicated {copied : Option (Universe κ × Ref)} (unfolds : Unfolds base source)
    (duplicates : ∃ u' result, copied = some (u', result) ∧ Ongoing base world u' ∧
      Produced base u u' source result)
    (executed : copied = some (u', result)) :
    Ongoing base world u' ∧ Sharing.Kept u.value u'.value ∧ Unfolds base source := by
  obtain ⟨_, _, same, ongoing, kept, -, -⟩ := duplicates
  cases executed.symm.trans same
  exact ⟨ongoing, kept, unfolds⟩

section Objects

variable [DecidableEq κ]

/-- Whatever `pone_val_copy` returns on is finite. -/
theorem valCopy_ends (all : AllSendable base source) : Ends base world (valCopy world fuel) source := by
  induction fuel generalizing source with
  | zero => exact fun u u' result _ executed => by cases executed
  | succ fuel ih =>
  intro u u' result ongoing executed
  have sendable := all source .refl
  have unfolds_leaf (notAry : ∀ items, base.value source ≠ some (.ary items))
      (notMap : ∀ entries, base.value source ≠ some (.map entries)) : Unfolds base source :=
    .leaf sendable notAry notMap
  have slotted {v : Value κ} (found : base.value source = some v) : u.value source = some v := by
    rw [ongoing.grown.kept source (by simp [found]), found]
  cases sendable with
  | nil same | bool _ same =>
      subst same
      cases executed
      exact ⟨ongoing, fun _ _ => rfl, unfolds_leaf (fun _ => (nomatch ·)) (fun _ => (nomatch ·))⟩
  | int i found =>
      rw [valCopy_succ (slotted found)] at executed
      exact ends_of_duplicated (unfolds_leaf (by simp [found]) (by simp [found]))
        (ongoing.leaf _ fun content mine => .int i found content mine) executed
  | num bits found =>
      rw [valCopy_succ (slotted found)] at executed
      exact ends_of_duplicated (unfolds_leaf (by simp [found]) (by simp [found]))
        (ongoing.leaf _ fun content mine => .num bits found content mine) executed
  | str bytes text =>
      obtain ⟨utf8, content, found⟩ := text.isStr
      rw [valCopy_succ (slotted found)] at executed
      obtain ⟨bytes', read, executed⟩ := Option.bind_eq_some_iff.mp executed
      obtain rfl := (text.kept ongoing.grown.kept).unique ⟨_, read⟩
      exact ends_of_duplicated (unfolds_leaf (by simp [found]) (by simp [found]))
        (ongoing.leaf _ fun content' mine => .str ⟨utf8, content, bytes, found, text, content', mine⟩)
        executed
  | ary items found =>
      rw [valCopy_succ (slotted found)] at executed
      simp only [aryCopy, Option.bind_eq_bind, Option.bind_eq_some_iff, Prod.exists] at executed
      obtain ⟨u₁, retval, alloc, filled, loop, same⟩ := executed
      cases same
      obtain ⟨_, index, alloc', ongoing₁, unset, same⟩ := ongoing.alloc (.ary [])
      cases alloc.symm.trans alloc'
      have content : u₁.value (.slot world index) = some (.ary []) := by
        rw [same, Function.update_self]
      have into (item : Ref) (member : item ∈ items) : Contains base source item :=
        .inl ⟨items, found, member⟩
      obtain ⟨ongoing', kept', parts⟩ := aryCopy_ends
        (fun item member => ih (all.child (into item member))) ongoing₁ (ongoing.grown.free unset)
        content loop
      refine ⟨ongoing', keptBut_kept (kept_of_update same unset) kept' unset, .intro (.ary items found) ?_⟩
      rintro child (⟨items', found', member⟩ | ⟨entries, entry, found', -⟩)
      · cases found.symm.trans found'
        exact parts child member
      · cases found.symm.trans found'
  | map entries found texts keyed =>
      rw [valCopy_succ (slotted found)] at executed
      simp only [mapCopy, Option.bind_eq_bind, Option.bind_eq_some_iff, Prod.exists] at executed
      obtain ⟨u₁, retval, alloc, filled, loop, same⟩ := executed
      cases same
      obtain ⟨_, index, alloc', ongoing₁, unset, same⟩ := ongoing.alloc (.map [])
      cases alloc.symm.trans alloc'
      have content : u₁.value (.slot world index) = some (.map []) := by
        rw [same, Function.update_self]
      obtain ⟨ongoing', kept', parts⟩ := mapCopy_ends
        (fun entry member => ⟨ih (all.child (.inr ⟨entries, entry, found, member, .inl rfl⟩)),
          ih (all.child (.inr ⟨entries, entry, found, member, .inr rfl⟩))⟩)
        ongoing₁ (ongoing.grown.free unset) content loop
      refine ⟨ongoing', keptBut_kept (kept_of_update same unset) kept' unset,
        .intro (.map entries found texts keyed) ?_⟩
      rintro child (⟨items, found', -⟩ | ⟨entries', entry, found', member, part⟩)
      · cases found.symm.trans found'
      · cases found.symm.trans found'
        rcases part with rfl | rfl
        · exact (parts entry member).1
        · exact (parts entry member).2
  | obj klass ivars found isObj =>
      rw [valCopy_succ (slotted found)] at executed
      exact ends_of_duplicated (unfolds_leaf (by simp [found]) (by simp [found]))
        (objCopy_duplicates found isObj ongoing) executed
  | opaqueRef body found =>
      rw [valCopy_succ (slotted found)] at executed
      exact ends_of_duplicated (unfolds_leaf (by simp [found]) (by simp [found]))
        (opaqueCopy_duplicates found ongoing) executed

end Objects

/-! ## Sharing -/

/-- A step into an array or a map. -/
inductive Step where
  | item (i : Nat)
  | key (bytes : List UInt8)

def Follows (u : Universe κ) (parent : Ref) : Step → Ref → Prop
  | .item i, child => ∃ items, u.value parent = some (.ary items) ∧ items[i]? = some child
  | .key bytes, child => ∃ entries entry, u.value parent = some (.map entries) ∧ entry ∈ entries ∧
      HasText u entry.1 bytes ∧ entry.2 = child

/-- The steps lead from one value to another one. -/
def Leads (u : Universe κ) : Ref → List Step → Ref → Prop
  | source, [], target => source = target
  | source, step :: steps, target => ∃ child, Follows u source step child ∧ Leads u child steps target

/-- An array, a map or an object. -/
def Container (u : Universe κ) (ref : Ref) : Prop :=
  ∃ v, u.value ref = some v ∧ match v with
    | .ary _ | .map _ | .obj _ _ => True
    | _ => False

/-- No array, map or object stands at two positions. -/
def Unshared (u : Universe κ) (source : Ref) : Prop :=
  ∀ steps steps' target, Leads u source steps target → Leads u source steps' target →
    Container u target → steps = steps'

/-- Two positions hold one array, map or object in the copy where they do in the source. -/
def SharedAlike (u u' : Universe κ) (source copy : Ref) : Prop :=
  ∀ steps steps' left right left' right', Leads u source steps left → Leads u source steps' right →
    Leads u' copy steps left' → Leads u' copy steps' right' → Container u left → Container u right →
      (left = right ↔ left' = right')

variable {own : Set Ref}

theorem Mirrors.mem_of_container (mirrors : Mirrors base u own source copy)
    (container : Container base source) : copy ∈ own := by
  obtain ⟨v, found, kind⟩ := container
  cases mirrors with
  | constant constant => obtain rfl | ⟨truth, rfl⟩ := constant <;> cases found
  | int _ _ _ mine | num _ _ _ mine | obj _ _ _ _ mine | opaqueRef _ _ _ mine => exact mine
  | str copied =>
      obtain ⟨_, _, _, -, -, -, mine⟩ := copied
      exact mine
  | ary _ _ _ split | map _ _ _ split => exact split.mine

/-- Where the steps from a value and from its mirror lead. -/
structure Positions (base u : Universe κ) (own : Set Ref) (source copy : Ref)
    (place : Step → Set Ref) : Prop where
  inside : ∀ step, place step ⊆ own
  outside : ∀ step, copy ∉ place step
  disjoint : ∀ step step' child child', Follows base source step child →
    Follows base source step' child' → step ≠ step' → Disjoint (place step) (place step')
  image : ∀ step child, Follows base source step child → ∃ child', Follows u copy step child' ∧
    Mirrors base u (place step) child child' ∧ ∀ other, Follows u copy step other → other = child'

/-- One step leads to one value. -/
theorem Follows.unique {step : Step} {child child' : Ref} (sendable : Sendable u source)
    (left : Follows u source step child) (right : Follows u source step child') : child = child' := by
  cases step with
  | item i =>
      obtain ⟨items, found, here⟩ := left
      obtain ⟨items', found', here'⟩ := right
      cases found.symm.trans found'
      exact Option.some.inj (here.symm.trans here')
  | key bytes =>
      obtain ⟨entries, entry, found, member, text, rfl⟩ := left
      obtain ⟨entries', entry', found', member', text', rfl⟩ := right
      cases found.symm.trans found'
      obtain ⟨i, here⟩ := List.mem_iff_getElem?.mp member
      obtain ⟨j, there⟩ := List.mem_iff_getElem?.mp member'
      obtain rfl := (sendable.map_texts found).2.position here there text text'
      cases here.symm.trans there
      rfl

private theorem positions_leaf (notAry : ∀ items, base.value source ≠ some (.ary items))
    (notMap : ∀ entries, base.value source ≠ some (.map entries)) :
    ∃ place, Positions base u own source copy place := by
  have none (step : Step) (child : Ref) : ¬ Follows base source step child := by
    intro follows
    cases step with
    | item =>
        obtain ⟨items, found, -⟩ := follows
        exact notAry items found
    | key =>
        obtain ⟨entries, _, found, -⟩ := follows
        exact notMap entries found
  exact ⟨fun _ => ∅, fun _ => Set.empty_subset _, fun _ => Set.notMem_empty _,
    fun _ _ _ _ follows => absurd follows (none _ _), fun _ _ follows => absurd follows (none _ _)⟩

theorem Mirrors.positions (mirrors : Mirrors base u own source copy)
    (sendable : Sendable base source) : ∃ place, Positions base u own source copy place := by
  cases sendable with
  | nil same | bool _ same =>
      subst same
      exact positions_leaf (fun _ => (nomatch ·)) (fun _ => (nomatch ·))
  | int _ found | num _ found | obj _ _ found | opaqueRef _ found =>
      exact positions_leaf (by simp [found]) (by simp [found])
  | str bytes text =>
      obtain ⟨_, _, found⟩ := text.isStr
      exact positions_leaf (by simp [found]) (by simp [found])
  | ary items found =>
      obtain ⟨items', parts, content, split, length, each⟩ := mirrors.items found
      refine ⟨fun step => match step with | .item i => parts i | .key _ => ∅, ?_, ?_, ?_, ?_⟩
      · rintro (i | bytes)
        · exact split.inside i
        · exact Set.empty_subset _
      · rintro (i | bytes)
        · exact split.outside i
        · exact Set.notMem_empty _
      · rintro (i | bytes) (j | bytes') child child' left right different
        · exact split.disjoint i j fun same => different (congrArg _ same)
        · exact Set.disjoint_empty _
        · exact Set.empty_disjoint _
        · exact Set.disjoint_empty _
      · rintro (i | bytes) child follows
        · obtain ⟨items'', found', here⟩ := follows
          cases found.symm.trans found'
          have inside : i < items'.length := length ▸ (List.getElem?_eq_some_iff.mp here).1
          have there := List.getElem?_eq_getElem inside
          refine ⟨items'[i], ⟨items', content, there⟩, each i child _ here there, ?_⟩
          rintro other ⟨held, content', here'⟩
          cases content.symm.trans content'
          exact Option.some.inj (here'.symm.trans there)
        · obtain ⟨entries, _, found', -⟩ := follows
          cases found.symm.trans found'
  | map entries found texts keyed =>
      obtain ⟨held, parts, content, split, matched⟩ := mirrors.matched found texts keyed
      -- the place of a key is that of the entry with its text
      let at_ (bytes : List UInt8) (i : Nat) : Prop :=
        ∃ entry, entries[i]? = some entry ∧ HasText base entry.1 bytes
      refine ⟨fun step => match step with
        | .item _ => ∅
        | .key bytes => {target | ∃ i, at_ bytes i ∧ target ∈ parts i}, ?_, ?_, ?_, ?_⟩
      · rintro (i | bytes)
        · exact Set.empty_subset _
        · rintro target ⟨i, -, member⟩
          exact split.inside i member
      · rintro (i | bytes)
        · exact Set.notMem_empty _
        · rintro ⟨i, -, member⟩
          exact split.outside i member
      · rintro (i | bytes) (j | bytes') child child' left right different
        · exact Set.disjoint_empty _
        · exact Set.empty_disjoint _
        · exact Set.disjoint_empty _
        · refine Set.disjoint_left.mpr ?_
          rintro target ⟨i, ⟨entry, here, text⟩, member⟩ ⟨j, ⟨entry', there, text'⟩, member'⟩
          by_cases same : i = j
          · subst same
            cases here.symm.trans there
            exact different (congrArg _ (text.unique text'))
          · exact Set.disjoint_left.mp (split.disjoint i j same) member member'
      · rintro (i | bytes) child follows
        · obtain ⟨items, found', -⟩ := follows
          cases found.symm.trans found'
        · obtain ⟨entries', entry, found', member, text, rfl⟩ := follows
          cases found.symm.trans found'
          obtain ⟨i, here⟩ := List.mem_iff_getElem?.mp member
          obtain ⟨image, listed, right, mirrors', only⟩ := matched.image i entry bytes here text
          refine ⟨image.2, ⟨held, image, content, listed, right, rfl⟩,
            mirrors'.mono fun target inside => ⟨i, ⟨entry, here, text⟩, inside⟩, ?_⟩
          rintro other ⟨held', image', content', listed', right', rfl⟩
          cases content.symm.trans content'
          rw [only image' listed' right']

theorem Follows.contains {step : Step} {child : Ref} (follows : Follows u source step child) :
    Contains u source child := by
  cases step with
  | item i =>
      obtain ⟨items, found, here⟩ := follows
      exact .inl ⟨items, found, List.mem_of_getElem? here⟩
  | key bytes =>
      obtain ⟨entries, entry, found, member, -, rfl⟩ := follows
      exact .inr ⟨entries, entry, found, member, .inr rfl⟩

theorem Leads.unique {steps : List Step} {target target' : Ref} (all : AllSendable u source)
    (left : Leads u source steps target) (right : Leads u source steps target') : target = target' := by
  induction steps generalizing source with
  | nil => exact left.symm.trans right
  | cons step steps ih =>
      obtain ⟨child, follows, leads⟩ := left
      obtain ⟨child', follows', leads'⟩ := right
      obtain rfl := follows.unique (all source .refl) follows'
      exact ih (all.child follows.contains) leads leads'

/-- What stands at a position of the copy mirrors what stands there in the source. -/
theorem Mirrors.leads {steps : List Step} {target : Ref} (mirrors : Mirrors base u own source copy)
    (all : AllSendable base source) (leads : Leads base source steps target) :
    ∃ target' part, Leads u copy steps target' ∧ Mirrors base u part target target' ∧ part ⊆ own ∧
      ∀ other, Leads u copy steps other → other = target' := by
  induction steps generalizing own source copy with
  | nil =>
      obtain rfl := leads
      exact ⟨copy, own, rfl, mirrors, subset_rfl, fun _ same => same.symm⟩
  | cons step steps ih =>
      obtain ⟨child, follows, leads⟩ := leads
      obtain ⟨place, positions⟩ := mirrors.positions (all source .refl)
      obtain ⟨child', follows', mirrors', only⟩ := positions.image step child follows
      obtain ⟨target', part, leads', image, inside, unique⟩ :=
        ih mirrors' (all.child follows.contains) leads
      refine ⟨target', part, ⟨child', follows', leads'⟩, image,
        inside.trans (positions.inside step), ?_⟩
      rintro other ⟨child'', follows'', leads''⟩
      rw [only child'' follows''] at leads''
      exact unique other leads''

/-- Two positions of the copy do not hold one array, map or object. -/
theorem Mirrors.positions_eq {steps steps' : List Step} {left right target : Ref}
    (mirrors : Mirrors base u own source copy) (all : AllSendable base source)
    (leads : Leads base source steps left) (leads' : Leads base source steps' right)
    (container : Container base left) (container' : Container base right)
    (image : Leads u copy steps target) (image' : Leads u copy steps' target) : steps = steps' := by
  have placed {own : Set Ref} {source copy : Ref} {steps : List Step} {target held : Ref}
      (mirrors : Mirrors base u own source copy) (all : AllSendable base source)
      (leads : Leads base source steps held) (container : Container base held)
      (image : Leads u copy steps target) : target ∈ own := by
    obtain ⟨target', part, -, mirrors', inside, unique⟩ := mirrors.leads all leads
    rw [unique target image]
    exact inside (mirrors'.mem_of_container container)
  induction steps generalizing own source copy steps' with
  | nil =>
      cases steps' with
      | nil => rfl
      | cons step steps' =>
          obtain rfl := image
          obtain ⟨child, follows, leads'⟩ := leads'
          obtain ⟨child', follows', image'⟩ := image'
          obtain ⟨place, positions⟩ := mirrors.positions (all source .refl)
          obtain ⟨_, _, mirrors', only⟩ := positions.image step child follows
          rw [only child' follows'] at image'
          exact absurd (placed mirrors' (all.child follows.contains) leads' container' image')
            (positions.outside step)
  | cons step steps ih =>
      obtain ⟨child, follows, leads⟩ := leads
      obtain ⟨child', follows', image⟩ := image
      obtain ⟨place, positions⟩ := mirrors.positions (all source .refl)
      obtain ⟨_, _, mirrors', only⟩ := positions.image step child follows
      rw [only child' follows'] at image
      have member := placed mirrors' (all.child follows.contains) leads container image
      cases steps' with
      | nil =>
          obtain rfl := image'
          exact absurd member (positions.outside step)
      | cons step' steps' =>
          obtain ⟨child₂, follows₂, leads'⟩ := leads'
          obtain ⟨child₂', follows₂', image'⟩ := image'
          by_cases same : step = step'
          · subst same
            obtain rfl := follows.unique (all source .refl) follows₂
            rw [only child₂' follows₂'] at image'
            rw [ih mirrors' (all.child follows.contains) leads leads' image image']
          · obtain ⟨_, _, mirrors₂, only₂⟩ := positions.image step' child₂ follows₂
            rw [only₂ child₂' follows₂'] at image'
            have member₂ := placed mirrors₂ (all.child follows₂.contains) leads' container' image'
            exact absurd member₂ (Set.disjoint_left.mp
              (positions.disjoint step step' child child₂ follows follows₂ same) member)

/-- In a copy no two positions share, so those of the source may not either. -/
theorem Mirrors.sharedAlike_iff (mirrors : Mirrors base u own source copy)
    (all : AllSendable base source) : SharedAlike base u source copy ↔ Unshared base source := by
  constructor
  · intro alike steps steps' target leads leads' container
    obtain ⟨left', _, image, -, -, -⟩ := mirrors.leads all leads
    obtain ⟨right', _, image', -, -, -⟩ := mirrors.leads all leads'
    have same := (alike steps steps' target target left' right' leads leads' image image' container
      container).mp rfl
    exact mirrors.positions_eq all leads leads' container container (same ▸ image) image'
  · intro unshared steps steps' left right left' right' leads leads' image image' container container'
    constructor
    · rintro rfl
      obtain rfl := unshared steps steps' left leads leads' container
      obtain ⟨_, _, -, -, -, unique⟩ := mirrors.leads all leads
      rw [unique left' image, unique right' image']
    · rintro rfl
      obtain rfl := mirrors.positions_eq all leads leads' container container' image image'
      exact leads.unique all leads'

/-! ## Cycles are shared -/

theorem Leads.append {steps steps' : List Step} {middle target : Ref}
    (first : Leads u source steps middle) (second : Leads u middle steps' target) :
    Leads u source (steps ++ steps') target := by
  induction steps generalizing source with
  | nil =>
      obtain rfl := first
      exact second
  | cons step steps ih =>
      obtain ⟨child, follows, leads⟩ := first
      exact ⟨child, follows, ih leads⟩

/-- A way that goes on from a value came to it by steps, since nothing is in a key. -/
private theorem follows_of_contains {child grandchild : Ref} (sendable : Sendable u source)
    (contains : Contains u source child) (goes : Contains u child grandchild) :
    ∃ step, Follows u source step child := by
  rcases contains with ⟨items, found, member⟩ | ⟨entries, entry, found, member, part⟩
  · obtain ⟨i, here⟩ := List.mem_iff_getElem?.mp member
    exact ⟨.item i, items, found, here⟩
  · obtain ⟨bytes, text⟩ := (sendable.map_texts found).1 entry member
    rcases part with rfl | rfl
    · obtain ⟨_, _, isStr⟩ := text.isStr
      rcases goes with ⟨items, found', -⟩ | ⟨entries', _, found', -⟩ <;>
        cases isStr.symm.trans found'
    · exact ⟨.key bytes, entries, entry, found, member, text, rfl⟩

private theorem leads_of_path {target next : Ref} (all : AllSendable u source)
    (path : ReflTransGen (Contains u) source target) (goes : Contains u target next) :
    ∃ steps, Leads u source steps target := by
  induction path using ReflTransGen.head_induction_on with
  | refl => exact ⟨[], rfl⟩
  | @head source child contains path ih =>
      obtain ⟨steps, leads⟩ := ih (all.child contains)
      obtain ⟨grandchild, further⟩ : ∃ grandchild, Contains u child grandchild := by
        rcases ReflTransGen.cases_head path with rfl | ⟨grandchild, further, -⟩
        · exact ⟨next, goes⟩
        · exact ⟨grandchild, further⟩
      obtain ⟨step, follows⟩ := follows_of_contains (all source .refl) contains further
      exact ⟨step :: steps, child, follows, leads⟩

theorem Contains.container {child : Ref} (contains : Contains u source child) :
    Container u source := by
  rcases contains with ⟨items, found, -⟩ | ⟨entries, _, found, -⟩
  · exact ⟨_, found, trivial⟩
  · exact ⟨_, found, trivial⟩

theorem acyclic_of_unshared (all : AllSendable u source) (unshared : Unshared u source) :
    Acyclic u source := by
  intro target path cycle
  obtain ⟨child, first, back⟩ := TransGen.head'_iff.mp cycle
  obtain ⟨steps, leads⟩ := leads_of_path all path first
  have all' : AllSendable u target := fun other further => all other (path.trans further)
  obtain ⟨grandchild, further⟩ : ∃ grandchild, Contains u child grandchild := by
    rcases ReflTransGen.cases_head back with rfl | ⟨grandchild, further, -⟩
    · exact ⟨_, first⟩
    · exact ⟨grandchild, further⟩
  obtain ⟨step, follows⟩ := follows_of_contains (all' target .refl) first further
  obtain ⟨round, leads'⟩ := leads_of_path (all'.child first) back first
  have again := leads.append (show Leads u target (step :: round) target from ⟨child, follows, leads'⟩)
  have same := unshared _ _ target leads again first.container
  have longer := congrArg List.length same
  simp at longer

/-! ## Copying ends where nothing contains itself -/

/-- A value with arrays, maps and objects in it is copied to one of the same shape exactly when no
array or map contains itself; and the copy shares what the source shares exactly when no array, map or
object stands at two positions. -/
theorem valCopy_ends_iff [DecidableEq κ] (reached : Reached u) (inside : world < u.worlds.length)
    (all : AllSendable u source) :
    ((∃ fuel u' copy, valCopy world fuel u source = some (u', copy) ∧ CopyEqual u u' source copy) ↔
      Acyclic u source) ∧
    ((∃ fuel u' copy, valCopy world fuel u source = some (u', copy) ∧ CopyEqual u u' source copy ∧
      SharedAlike u u' source copy) ↔ Unshared u source) := by
  have ends {fuel : Nat} {u' : Universe κ} {copy : Ref}
      (executed : valCopy world fuel u source = some (u', copy)) : Acyclic u source :=
    acyclic_of_unfolds
      (valCopy_ends all u u' copy (ongoing_of_reached reached inside) executed).2.2
  have copies (acyclic : Acyclic u source) : ∃ fuel u' copy,
      valCopy world fuel u source = some (u', copy) ∧ CopyEqual u u' source copy := by
    obtain ⟨enough, copied⟩ := valCopy_equal reached inside (unfolds_of_acyclic all acyclic)
    exact ⟨enough, copied enough (Nat.le_refl _)⟩
  refine ⟨⟨?_, copies⟩, ?_, fun unshared => ?_⟩
  · rintro ⟨fuel, u', copy, executed, -⟩
    exact ends executed
  · rintro ⟨fuel, u', copy, -, equal, alike⟩
    exact (equal.mirrors.sharedAlike_iff all).mp alike
  · obtain ⟨fuel, u', copy, executed, equal⟩ := copies (acyclic_of_unshared all unshared)
    exact ⟨fuel, u', copy, executed, equal, (equal.mirrors.sharedAlike_iff all).mpr unshared⟩

theorem allSendable_of_unfolds (unfolds : Unfolds u source) : AllSendable u source := by
  intro target path
  have reached : Unfolds u target := by
    induction path with
    | refl => exact unfolds
    | tail _ contains ih =>
        cases ih with
        | intro _ parts => exact parts _ contains
  cases reached with
  | intro sendable _ => exact sendable

end Cycles

set_option maxRecDepth 10000 in
theorem valCopy_ends_iff_nested :
    ((∃ fuel u' copy, valCopy 1 fuel beforeCopy (.slot 0 4) = some (u', copy) ∧
        CopyEqual beforeCopy u' (.slot 0 4) copy) ↔ Acyclic beforeCopy (.slot 0 4)) ∧
      ((∃ fuel u' copy, valCopy 1 fuel beforeCopy (.slot 0 4) = some (u', copy) ∧
        CopyEqual beforeCopy u' (.slot 0 4) copy ∧
          SharedAlike beforeCopy u' (.slot 0 4) copy) ↔ Unshared beforeCopy (.slot 0 4)) :=
  valCopy_ends_iff reached_beforeCopy (by decide +kernel) (allSendable_of_unfolds unfolds_beforeCopy)

/-- An array that has been pushed into itself, and a second world. -/
def selfArray : List (Op Nat) :=
  [.worldNew, .alloc 0 (.ary []), .store (.slot 0 2) (.ary [.slot 0 2]), .worldNew]

def pushedIntoItself : Universe Nat :=
  (Execution.run step universeInit selfArray).getD universeInit

set_option maxRecDepth 10000 in
/-- The copying of an array that contains itself does not end. -/
theorem valCopy_selfArray :
    Reached pushedIntoItself ∧ AllSendable pushedIntoItself (.slot 0 2) ∧
      ∀ fuel, valCopy 1 fuel pushedIntoItself (.slot 0 2) = none := by
  have runs : (Execution.run step universeInit selfArray).isSome = true := by decide +kernel
  have reached : Reached pushedIntoItself := Reached.init.run (eq_some_getD runs _)
  have found : pushedIntoItself.value (.slot 0 2) = some (.ary [.slot 0 2]) := by decide +kernel
  have inside : 1 < pushedIntoItself.worlds.length := by decide +kernel
  have all : AllSendable pushedIntoItself (.slot 0 2) := by
    intro target path
    have same : target = .slot 0 2 := by
      induction path with
      | refl => rfl
      | tail _ contains ih =>
          subst ih
          rcases contains with ⟨items, found', member⟩ | ⟨entries, _, found', -⟩
          · cases found.symm.trans found'
            exact List.mem_singleton.mp member
          · cases found.symm.trans found'
    subst same
    exact .ary _ found
  refine ⟨reached, all, fun fuel => Option.eq_none_iff_forall_ne_some.mpr ?_⟩
  rintro ⟨u', copy⟩ executed
  have unfolds := (valCopy_ends all _ u' copy (ongoing_of_reached reached inside) executed).2.2
  exact acyclic_of_unfolds unfolds _ .refl
    (.single (.inl ⟨_, found, List.mem_singleton_self _⟩))

end Heap
end Pone
