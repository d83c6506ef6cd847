import Mathlib.Data.List.Induction
import Mathlib.Data.List.Nodup

/-!
# The tree of a match

A match has the captures in its list, and each of these has a list of its own.  A new capture goes
into the first one of the list that does not start behind it, and from there on, or to the end of the
list.
-/

namespace Pone
namespace Regex

/-- A `Match`, known as a capture of its regular expression, with `$!orig`, `$!from`, `$!to` and
`@!list`. -/
inductive Match (α : Type) where
  | new (capture : Nat) (orig : α) (fromPos toPos : Int) (list : List (Match α))

namespace Match

variable {α : Type}

def capture : Match α → Nat
  | .new capture _ _ _ _ => capture

def fromPos : Match α → Int
  | .new _ _ fromPos _ _ => fromPos

def list : Match α → List (Match α)
  | .new _ _ _ _ list => list

end Match

variable {α : Type}

/-- `pone_match_new` -/
def matchNew (capture : Nat) (orig : α) (fromPos toPos : Int) : Match α :=
  .new capture orig fromPos toPos []

mutual

/-- `pone_match_push` -/
def matchPush (capture : Nat) (fromPos toPos : Int) : Match α → Match α
  | .new n orig f t list => .new n orig f t (pushList orig capture fromPos toPos list)

/-- The loop of `pone_match_push` over the list, from one of its elements on. -/
def pushList (orig : α) (capture : Nat) (fromPos toPos : Int) : List (Match α) → List (Match α)
  | [] => [matchNew capture orig fromPos toPos]
  | c :: rest =>
      if c.fromPos ≤ fromPos then matchPush capture fromPos toPos c :: rest
      else c :: pushList orig capture fromPos toPos rest

end

/-- The loop of `meth_regex_accepts`, from the group `i` on. -/
def pushAll (m : Match α) : Nat → List (Int × Int) → Match α
  | _, [] => m
  | i, (beg, fin) :: rest => pushAll (matchPush i beg fin m) (i + 1) rest

/-- What `meth_regex_accepts` makes of a region: the whole match, and the groups. -/
def accepts (orig : α) (whole : Int × Int) (groups : List (Int × Int)) : Match α :=
  pushAll (matchNew 0 orig whole.1 whole.2) 1 groups

/-! ## What a tree holds -/

/-- The captures below, each in front of those in its list. -/
def captures : List (Match α) → List Nat
  | [] => []
  | .new n _ _ _ list :: rest => n :: (captures list ++ captures rest)

/-- `j` is a descendant of `i`. -/
def Below (i j : Nat) : List (Match α) → Prop
  | [] => False
  | .new n _ _ _ list :: rest => (n = i ∧ j ∈ captures list) ∨ Below i j list ∨ Below i j rest

/-- `i` and `j` are in the same list, `i` in front of `j`. -/
def Siblings (i j : Nat) : List (Match α) → Prop
  | [] => False
  | .new n _ _ _ list :: rest =>
      (n = i ∧ j ∈ rest.map Match.capture) ∨ Siblings i j list ∨ Siblings i j rest

/-- The capture `j` lies inside of `i`, and its group is nested in the other. -/
def Contains (nested : Nat → Nat → Prop) (region : List (Int × Int)) (i j : Nat) : Prop :=
  ∃ a b, region[i]? = some a ∧ region[j]? = some b ∧ a.1 ≤ b.1 ∧ b.2 ≤ a.2 ∧ nested i j

/-- The captures of a region, of which the first element is the whole match. -/
def IsCapture (region : List (Int × Int)) (i : Nat) : Prop := 0 < i ∧ i < region.length

instance (region : List (Int × Int)) (i : Nat) : Decidable (IsCapture region i) :=
  inferInstanceAs (Decidable (_ ∧ _))

/-- The tree has every capture once, below those that contain it.  Captures that are contained in
the same ones, and not one in the other, are siblings in their order. -/
structure NestsByContainment (nested : Nat → Nat → Prop) (orig : α) (whole : Int × Int)
    (groups : List (Int × Int)) : Prop where
  captures : (captures (accepts orig whole groups).list).Perm (List.range' 1 groups.length)
  descendants : ∀ i j, IsCapture (whole :: groups) i → IsCapture (whole :: groups) j →
    (Below i j (accepts orig whole groups).list ↔ Contains nested (whole :: groups) i j)
  siblings : ∀ i j, IsCapture (whole :: groups) i → IsCapture (whole :: groups) j → i < j →
    (∀ k, IsCapture (whole :: groups) k →
      (Contains nested (whole :: groups) k i ↔ Contains nested (whole :: groups) k j)) →
    ¬ Contains nested (whole :: groups) i j → ¬ Contains nested (whole :: groups) j i →
    Siblings i j (accepts orig whole groups).list

/-- `i` does not start behind `x`, and no capture before `i` starts behind it and not behind `x`. -/
def Reaches (region : List (Int × Int)) (x : Int) (i : Nat) : Prop :=
  0 < i ∧ ∃ a, region[i]? = some a ∧ a.1 ≤ x ∧
    ∀ k c, 0 < k → k < i → region[k]? = some c → a.1 < c.1 → x < c.1

/-- The capture `j` starts where a descendant of the earlier capture `i` does. -/
def StartsBelow (region : List (Int × Int)) (i j : Nat) : Prop :=
  i < j ∧ ∃ b, region[j]? = some b ∧ Reaches region b.1 i

theorem forest_induction {P : List (Match α) → Prop} (nil : P [])
    (cons : ∀ n orig f t list rest, P list → P rest → P (.new n orig f t list :: rest)) :
    ∀ forest, P forest
  | [] => nil
  | .new n orig f t list :: rest =>
      cons n orig f t list rest (forest_induction nil cons list) (forest_induction nil cons rest)

/-! ## One more capture -/

section Push

variable (orig : α) (capture : Nat) (fromPos toPos : Int)

theorem pushList_cons (n : Nat) (orig' : α) (f t : Int) (list rest : List (Match α)) :
    pushList orig capture fromPos toPos (.new n orig' f t list :: rest) =
      if f ≤ fromPos then .new n orig' f t (pushList orig' capture fromPos toPos list) :: rest
      else .new n orig' f t list :: pushList orig capture fromPos toPos rest := by
  rw [pushList, matchPush]
  rfl

theorem captures_pushList (forest : List (Match α)) :
    (captures (pushList orig capture fromPos toPos forest)).Perm (captures forest ++ [capture]) := by
  induction forest using forest_induction generalizing orig with
  | nil => simp [pushList, matchNew, captures]
  | cons n orig' f t list rest in_list in_rest =>
      rw [pushList_cons]
      split
      · rw [captures, captures, List.cons_append]
        refine List.Perm.cons n (((in_list orig').append_right _).trans ?_)
        simp only [List.append_assoc]
        exact List.Perm.append_left _ List.perm_append_comm
      · rw [captures, captures, List.cons_append, List.append_assoc]
        exact List.Perm.cons n ((in_rest orig).append_left _)

/-- The starts of the captures below. -/
def starts : List (Match α) → List Int
  | [] => []
  | .new _ _ f _ list :: rest => f :: (starts list ++ starts rest)

theorem mem_starts_pushList (forest : List (Match α)) (g : Int) :
    g ∈ starts (pushList orig capture fromPos toPos forest) ↔ g ∈ starts forest ∨ g = fromPos := by
  induction forest using forest_induction generalizing orig with
  | nil => simp [pushList, matchNew, starts]
  | cons n orig' f t list rest in_list in_rest =>
      rw [pushList_cons]
      split
      · simp only [starts, List.mem_cons, List.mem_append, in_list]
        tauto
      · simp only [starts, List.mem_cons, List.mem_append, in_rest]
        tauto

/-- Nothing in the list of a capture starts in front of it, and nothing behind it in its list starts
where it does or later. -/
def Ordered : List (Match α) → Prop
  | [] => True
  | .new _ _ f _ list :: rest =>
      (∀ g ∈ starts list, f ≤ g) ∧ (∀ g ∈ starts rest, g < f) ∧ Ordered list ∧ Ordered rest

theorem ordered_pushList {forest : List (Match α)} (ordered : Ordered forest) :
    Ordered (pushList orig capture fromPos toPos forest) := by
  induction forest using forest_induction generalizing orig with
  | nil => simp [pushList, matchNew, Ordered, starts]
  | cons n orig' f t list rest in_list in_rest =>
      rw [Ordered] at ordered
      obtain ⟨inside, behind, ordered_list, ordered_rest⟩ := ordered
      rw [pushList_cons]
      split
      · rw [Ordered]
        refine ⟨fun g member => ?_, behind, in_list orig' ordered_list, ordered_rest⟩
        rcases (mem_starts_pushList ..).mp member with old | rfl
        · exact inside g old
        · assumption
      · rw [Ordered]
        refine ⟨inside, fun g member => ?_, ordered_list, in_rest orig ordered_rest⟩
        rcases (mem_starts_pushList ..).mp member with old | rfl
        · exact behind g old
        · exact Int.not_le.mp ‹_›

theorem sizeOf_captures_lt (n : Nat) (orig : α) (f t : Int) (list rest : List (Match α)) :
    sizeOf list < sizeOf (Match.new n orig f t list :: rest) := by
  simp only [List.cons.sizeOf_spec, Match.new.sizeOf_spec]
  omega

theorem sizeOf_rest_lt (m : Match α) (rest : List (Match α)) : sizeOf rest < sizeOf (m :: rest) := by
  simp only [List.cons.sizeOf_spec]
  omega

/-- A capture that starts at `x` comes to the list of `i`. -/
def Path (x : Int) (i : Nat) : List (Match α) → Prop
  | [] => False
  | .new n _ f _ list :: rest => if f ≤ x then n = i ∨ Path x i list else Path x i rest
decreasing_by
  · exact sizeOf_captures_lt ..
  · exact sizeOf_rest_lt ..

/-- A later capture comes through the new one if nothing that starts behind the new one parts them. -/
theorem path_pushList {forest : List (Match α)} (ordered : Ordered forest) (x : Int) (i : Nat) :
    Path x i (pushList orig capture fromPos toPos forest) ↔
      Path x i forest ∨
        (capture = i ∧ fromPos ≤ x ∧ ∀ g ∈ starts forest, fromPos < g → x < g) := by
  induction forest using forest_induction generalizing orig with
  | nil => simp [pushList, matchNew, Path, starts, and_comm]
  | cons n orig' f t list rest in_list in_rest =>
      rw [Ordered] at ordered
      obtain ⟨inside, behind, ordered_list, ordered_rest⟩ := ordered
      rw [pushList_cons]
      split
      · rename_i down
        rw [Path, Path]
        by_cases here : f ≤ x
        · have parts : (∀ g ∈ starts (.new n orig' f t list :: rest), fromPos < g → x < g) ↔
              ∀ g ∈ starts list, fromPos < g → x < g := by
            simp only [starts, List.mem_cons, List.mem_append]
            constructor
            · exact fun all g member => all g (.inr (.inl member))
            · rintro all g (rfl | member | member) later
              · omega
              · exact all g member later
              · have := behind g member
                omega
          rw [if_pos here, if_pos here, in_list orig' ordered_list, parts, or_assoc]
        · have not_below : ¬ fromPos ≤ x := by omega
          rw [if_neg here, if_neg here]
          simp [not_below]
      · rename_i past
        have past : fromPos < f := Int.not_le.mp past
        rw [Path, Path]
        by_cases here : f ≤ x
        · have parted : ¬ ∀ g ∈ starts (.new n orig' f t list :: rest), fromPos < g → x < g := by
            intro all
            have := all f (by simp [starts]) past
            omega
          rw [if_pos here, if_pos here]
          simp only [parted, and_false, or_false]
        · have parts : (∀ g ∈ starts (.new n orig' f t list :: rest), fromPos < g → x < g) ↔
              ∀ g ∈ starts rest, fromPos < g → x < g := by
            simp only [starts, List.mem_cons, List.mem_append]
            constructor
            · exact fun all g member => all g (.inr (.inr member))
            · rintro all g (rfl | member | member) later
              · omega
              · have := inside g member
                omega
              · exact all g member later
          rw [if_neg here, if_neg here, in_rest orig ordered_rest, parts]

theorem below_pushList (forest : List (Match α)) (i j : Nat) :
    Below i j (pushList orig capture fromPos toPos forest) ↔
      Below i j forest ∨ (capture = j ∧ Path fromPos i forest) := by
  induction forest using forest_induction generalizing orig with
  | nil => simp [pushList, matchNew, Below, Path, captures]
  | cons n orig' f t list rest in_list in_rest =>
      rw [pushList_cons]
      split
      · have member : j ∈ captures (pushList orig' capture fromPos toPos list) ↔
            j ∈ captures list ∨ capture = j := by
          rw [(captures_pushList orig' capture fromPos toPos list).mem_iff, List.mem_append,
            List.mem_singleton, eq_comm (a := j)]
        rw [Below, Below, Path, if_pos ‹_›, in_list orig', member]
        tauto
      · rw [Below, Below, Path, if_neg ‹_›, in_rest orig]
        tauto

theorem map_capture_pushList (forest : List (Match α)) :
    (pushList orig capture fromPos toPos forest).map Match.capture =
        forest.map Match.capture ∨
      (pushList orig capture fromPos toPos forest).map Match.capture =
        forest.map Match.capture ++ [capture] := by
  induction forest with
  | nil => exact .inr rfl
  | cons c rest ih =>
      obtain ⟨n, orig', f, t, list⟩ := c
      rw [pushList_cons]
      split
      · exact .inl rfl
      · simpa using ih

/-- A new capture comes behind its siblings. -/
theorem siblings_pushList (forest : List (Match α)) (i j : Nat)
    (siblings : Siblings i j (pushList orig capture fromPos toPos forest)) :
    Siblings i j forest ∨ (capture = j ∧ i ∈ captures forest) := by
  induction forest using forest_induction generalizing orig with
  | nil => simp [pushList, matchNew, Siblings] at siblings
  | cons n orig' f t list rest in_list in_rest =>
      rw [pushList_cons] at siblings
      rw [Siblings, captures]
      split at siblings
      · rw [Siblings] at siblings
        rcases siblings with here | deeper | later
        · exact .inl (.inl here)
        · rcases in_list orig' deeper with old | ⟨new, member⟩
          · exact .inl (.inr (.inl old))
          · exact .inr ⟨new, by simp [member]⟩
        · exact .inl (.inr (.inr later))
      · rw [Siblings] at siblings
        rcases siblings with ⟨rfl, member⟩ | deeper | later
        · rcases map_capture_pushList orig capture fromPos toPos rest with same | longer
          · rw [same] at member
            exact .inl (.inl ⟨rfl, member⟩)
          · rw [longer, List.mem_append, List.mem_singleton] at member
            rcases member with old | new
            · exact .inl (.inl ⟨rfl, old⟩)
            · exact .inr ⟨new.symm, by simp⟩
        · exact .inl (.inr (.inl deeper))
        · rcases in_rest orig later with old | ⟨new, member⟩
          · exact .inl (.inr (.inr old))
          · exact .inr ⟨new, by simp [member]⟩

end Push

/-! ## Siblings -/

theorem mem_captures_of_below {forest : List (Match α)} {i j : Nat} (below : Below i j forest) :
    i ∈ captures forest ∧ j ∈ captures forest := by
  induction forest using forest_induction with
  | nil => exact absurd below (by simp [Below])
  | cons n orig f t list rest in_list in_rest =>
      rw [Below] at below
      rw [captures]
      rcases below with ⟨rfl, member⟩ | deeper | later
      · simp [member]
      · simp [in_list deeper]
      · simp [in_rest later]

/-- A capture is in the list, or below one that is. -/
theorem mem_captures_iff (forest : List (Match α)) (j : Nat) :
    j ∈ captures forest ↔
      j ∈ forest.map Match.capture ∨ ∃ i ∈ forest.map Match.capture, Below i j forest := by
  induction forest using forest_induction with
  | nil => simp [captures]
  | cons n orig f t list rest in_list in_rest =>
      simp only [captures, List.map_cons, Match.capture, List.mem_cons, List.mem_append, Below]
      constructor
      · rintro (rfl | member | member)
        · exact .inl (.inl rfl)
        · exact .inr ⟨n, .inl rfl, .inl ⟨rfl, member⟩⟩
        · rcases in_rest.mp member with here | ⟨i, among, below⟩
          · exact .inl (.inr here)
          · exact .inr ⟨i, .inr among, .inr (.inr below)⟩
      · rintro ((rfl | here) | ⟨i, -, ⟨-, member⟩ | below | below⟩)
        · exact .inl rfl
        · exact .inr (.inr (in_rest.mpr (.inl here)))
        · exact .inr (.inl member)
        · exact .inr (.inl (mem_captures_of_below below).2)
        · exact .inr (.inr (mem_captures_of_below below).2)

/-- The first capture of a list and one with the same ones above it. -/
theorem siblings_first {n : Nat} {orig : α} {f t : Int} {list rest : List (Match α)} {j : Nat}
    (not_list : n ∉ captures list) (not_rest : n ∉ captures rest)
    (has : j ∈ captures list ∨ j ∈ captures rest)
    (same : ∀ k, Below k n (.new n orig f t list :: rest) ↔ Below k j (.new n orig f t list :: rest)) :
    j ∈ rest.map Match.capture := by
  have top (k : Nat) : ¬ Below k n (.new n orig f t list :: rest) := by
    rw [Below]
    rintro (⟨-, member⟩ | below | below)
    · exact not_list member
    · exact not_list (mem_captures_of_below below).2
    · exact not_rest (mem_captures_of_below below).2
  have top_j (k : Nat) : ¬ Below k j (.new n orig f t list :: rest) := (same k).not.mp (top k)
  rcases has with member | member
  · refine absurd ?_ (top_j n)
    rw [Below]
    exact .inl ⟨rfl, member⟩
  · rcases (mem_captures_iff rest j).mp member with here | ⟨k, -, below⟩
    · exact here
    · refine absurd ?_ (top_j k)
      rw [Below]
      exact .inr (.inr below)

/-- Where every capture is there once, captures with the same ones above them are siblings. -/
theorem siblings_of_same_above {forest : List (Match α)} (once : (captures forest).Nodup) {i j : Nat}
    (has_i : i ∈ captures forest) (has_j : j ∈ captures forest) (differ : i ≠ j)
    (same : ∀ k, Below k i forest ↔ Below k j forest) :
    Siblings i j forest ∨ Siblings j i forest := by
  induction forest using forest_induction with
  | nil => simp [captures] at has_i
  | cons n orig f t list rest in_list in_rest =>
      simp only [captures, List.nodup_cons, List.mem_append, not_or, List.nodup_append'] at once
      obtain ⟨⟨not_list, not_rest⟩, once_list, once_rest, disjoint⟩ := once
      simp only [captures, List.mem_cons, List.mem_append] at has_i has_j
      rw [Siblings, Siblings]
      by_cases first_i : i = n
      · subst first_i
        have behind := siblings_first not_list not_rest (has_j.resolve_left (Ne.symm differ)) same
        exact .inl (.inl ⟨rfl, behind⟩)
      · by_cases first_j : j = n
        · subst first_j
          have behind := siblings_first not_list not_rest (has_i.resolve_left differ)
            fun k => (same k).symm
          exact .inr (.inl ⟨rfl, behind⟩)
        · have has_i := has_i.resolve_left first_i
          have has_j := has_j.resolve_left first_j
          -- what is below `n` is in its list
          have below_n {m : Nat} (has : m ∈ captures list ∨ m ∈ captures rest) :
              Below n m (.new n orig f t list :: rest) ↔ m ∈ captures list := by
            rw [Below]
            constructor
            · rintro (⟨-, member⟩ | below | below)
              · exact member
              · exact absurd (mem_captures_of_below below).1 not_list
              · exact absurd (mem_captures_of_below below).1 not_rest
            · exact fun member => .inl ⟨rfl, member⟩
          have together : i ∈ captures list ↔ j ∈ captures list := by
            rw [← below_n has_i, ← below_n has_j]
            exact same n
          by_cases inside : i ∈ captures list
          · have inside_j := together.mp inside
            have above {m k : Nat} (member : m ∈ captures list) :
                Below k m list ↔ Below k m (.new n orig f t list :: rest) ∧ k ≠ n := by
              rw [Below]
              constructor
              · intro below
                refine ⟨.inr (.inl below), ?_⟩
                rintro rfl
                exact not_list (mem_captures_of_below below).1
              · rintro ⟨⟨rfl, -⟩ | below | below, other⟩
                · exact absurd rfl other
                · exact below
                · exact absurd (mem_captures_of_below below).2 (disjoint member)
            have same_list (k : Nat) : Below k i list ↔ Below k j list := by
              rw [above inside, above inside_j, same k]
            rcases in_list once_list inside inside_j same_list with siblings | siblings
            · exact .inl (.inr (.inl siblings))
            · exact .inr (.inr (.inl siblings))
          · have outside_j : j ∉ captures list := together.not.mp inside
            have above {m k : Nat} (outside : m ∉ captures list) :
                Below k m rest ↔ Below k m (.new n orig f t list :: rest) := by
              rw [Below]
              constructor
              · exact fun below => .inr (.inr below)
              · rintro (⟨-, member⟩ | below | below)
                · exact absurd member outside
                · exact absurd (mem_captures_of_below below).2 outside
                · exact below
            have same_rest (k : Nat) : Below k i rest ↔ Below k j rest := by
              rw [above inside, above outside_j, same k]
            rcases in_rest once_rest (has_i.resolve_left inside) (has_j.resolve_left outside_j)
              same_rest with siblings | siblings
            · exact .inl (.inr (.inr siblings))
            · exact .inr (.inr (.inr siblings))

/-! ## The tree of a region -/

section Region

variable (orig : α) (whole : Int × Int)

theorem pushAll_append (m : Match α) (i : Nat) (groups : List (Int × Int)) (span : Int × Int) :
    pushAll m i (groups ++ [span]) =
      matchPush (i + groups.length) span.1 span.2 (pushAll m i groups) := by
  induction groups generalizing m i with
  | nil => rfl
  | cons first groups ih =>
      rw [List.cons_append, pushAll, pushAll, ih, List.length_cons, Nat.add_assoc, Nat.add_comm 1]

theorem list_matchPush (m : Match α) (capture : Nat) (fromPos toPos : Int) :
    ∃ orig, (matchPush capture fromPos toPos m).list =
      pushList orig capture fromPos toPos m.list := by
  obtain ⟨n, orig, f, t, list⟩ := m
  exact ⟨orig, by rw [matchPush]; rfl⟩

/-- The last capture of a region is pushed last. -/
theorem list_accepts_append (groups : List (Int × Int)) (span : Int × Int) :
    ∃ orig', (accepts orig whole (groups ++ [span])).list =
      pushList orig' (groups.length + 1) span.1 span.2 (accepts orig whole groups).list := by
  rw [accepts, pushAll_append, Nat.add_comm 1]
  exact list_matchPush ..

theorem captures_accepts (groups : List (Int × Int)) :
    (captures (accepts orig whole groups).list).Perm (List.range' 1 groups.length) := by
  induction groups using List.reverseRecOn with
  | nil => simp [accepts, pushAll, matchNew, Match.list, captures]
  | append_singleton groups span ih =>
      obtain ⟨orig', last⟩ := list_accepts_append orig whole groups span
      rw [last, List.length_append, List.length_singleton, List.range'_concat, Nat.one_mul,
        Nat.add_comm 1]
      exact (captures_pushList ..).trans (ih.append_right _)

theorem mem_starts_accepts (groups : List (Int × Int)) (g : Int) :
    g ∈ starts (accepts orig whole groups).list ↔ g ∈ groups.map Prod.fst := by
  induction groups using List.reverseRecOn with
  | nil => simp [accepts, pushAll, matchNew, Match.list, starts]
  | append_singleton groups span ih =>
      obtain ⟨orig', last⟩ := list_accepts_append orig whole groups span
      rw [last, mem_starts_pushList, ih]
      simp

theorem ordered_accepts (groups : List (Int × Int)) :
    Ordered (accepts orig whole groups).list := by
  induction groups using List.reverseRecOn with
  | nil => simp [accepts, pushAll, matchNew, Match.list, Ordered]
  | append_singleton groups span ih =>
      obtain ⟨orig', last⟩ := list_accepts_append orig whole groups span
      rw [last]
      exact ordered_pushList _ _ _ _ ih

theorem mem_groups_iff (groups : List (Int × Int)) (g : Int) :
    g ∈ groups.map Prod.fst ↔ ∃ k c, 0 < k ∧ (whole :: groups)[k]? = some c ∧ c.1 = g := by
  rw [List.mem_map]
  constructor
  · rintro ⟨c, member, rfl⟩
    obtain ⟨k, at_k⟩ := List.mem_iff_getElem?.mp member
    exact ⟨k + 1, c, Nat.succ_pos k, at_k, rfl⟩
  · rintro ⟨k, c, positive, at_k, rfl⟩
    obtain ⟨k, rfl⟩ := Nat.exists_eq_add_of_le' positive
    exact ⟨c, List.mem_of_getElem? at_k, rfl⟩

/-- In front of the last capture, the region is the one before. -/
theorem region_append {groups : List (Int × Int)} (span : Int × Int) {k : Nat}
    (inside : k < groups.length + 1) :
    (whole :: (groups ++ [span]))[k]? = (whole :: groups)[k]? := by
  rw [← List.cons_append]
  exact List.getElem?_append_left (by simpa using inside)

theorem region_last (groups : List (Int × Int)) (span : Int × Int) :
    (whole :: (groups ++ [span]))[groups.length + 1]? = some span := by
  simp

theorem reaches_append {groups : List (Int × Int)} (span : Int × Int) {x : Int} {i : Nat}
    (inside : i < groups.length + 1) :
    Reaches (whole :: (groups ++ [span])) x i ↔ Reaches (whole :: groups) x i := by
  simp only [Reaches, region_append whole span inside]
  refine and_congr_right fun _ => exists_congr fun a => and_congr_right fun _ =>
    and_congr_right fun _ => forall₄_congr fun k c _ smaller => ?_
  rw [region_append whole span (Nat.lt_trans smaller inside)]

theorem path_accepts (groups : List (Int × Int)) (x : Int) (i : Nat) :
    Path x i (accepts orig whole groups).list ↔ Reaches (whole :: groups) x i := by
  induction groups using List.reverseRecOn generalizing i with
  | nil =>
      have none : (accepts orig whole []).list = [] := by
        simp [accepts, pushAll, matchNew, Match.list]
      rw [none, Path]
      refine iff_of_false id ?_
      rintro ⟨positive, a, at_i, -⟩
      obtain ⟨i, rfl⟩ := Nat.exists_eq_add_of_le' positive
      cases at_i
  | append_singleton groups span ih =>
      obtain ⟨orig', last⟩ := list_accepts_append orig whole groups span
      rw [last, path_pushList _ _ _ _ (ordered_accepts orig whole groups), ih]
      rcases Nat.lt_trichotomy i (groups.length + 1) with earlier | rfl | beyond
      · have other : groups.length + 1 ≠ i := Nat.ne_of_gt earlier
        simp only [reaches_append whole span earlier, other, false_and, or_false]
      · have nothing : (whole :: groups)[groups.length + 1]? = none := by simp
        have here := region_last whole groups span
        simp only [Reaches, nothing, here, reduceCtorEq, false_and, exists_const, and_false,
          false_or, true_and, Option.some.injEq, exists_eq_left', Nat.succ_pos]
        refine and_congr_right fun _ => ?_
        constructor
        · intro all k c positive smaller at_k later
          rw [region_append whole span smaller] at at_k
          exact all c.1 ((mem_starts_accepts orig whole groups c.1).mpr
            ((mem_groups_iff whole groups c.1).mpr ⟨k, c, positive, at_k, rfl⟩)) later
        · intro all g member later
          obtain ⟨k, c, positive, at_k, rfl⟩ := (mem_groups_iff whole groups g).mp
            ((mem_starts_accepts orig whole groups g).mp member)
          have smaller : k < groups.length + 1 := by
            simpa using (List.getElem?_eq_some_iff.mp at_k).1
          exact all k c positive smaller (by rwa [region_append whole span smaller]) later
      · have other : groups.length + 1 ≠ i := Nat.ne_of_lt beyond
        have nothing : (whole :: groups)[i]? = none := by
          rw [List.getElem?_eq_none_iff, List.length_cons]
          omega
        have nothing' : (whole :: (groups ++ [span]))[i]? = none := by
          rw [List.getElem?_eq_none_iff, List.length_cons, List.length_append, List.length_singleton]
          omega
        simp only [Reaches, nothing, nothing', other, reduceCtorEq, false_and, exists_const, and_false,
          or_false]

theorem Reaches.lt {region : List (Int × Int)} {x : Int} {i : Nat} (reaches : Reaches region x i) :
    i < region.length := by
  obtain ⟨-, a, at_i, -⟩ := reaches
  exact (List.getElem?_eq_some_iff.mp at_i).1

/-- Descendants are the later captures that start where one does. -/
theorem below_accepts (groups : List (Int × Int)) (i j : Nat) :
    Below i j (accepts orig whole groups).list ↔ StartsBelow (whole :: groups) i j := by
  induction groups using List.reverseRecOn with
  | nil =>
      have none : (accepts orig whole []).list = [] := by
        simp [accepts, pushAll, matchNew, Match.list]
      rw [none, Below]
      refine iff_of_false id ?_
      rintro ⟨-, b, -, reaches⟩
      have positive := reaches.1
      have inside := reaches.lt
      rw [List.length_singleton] at inside
      omega
  | append_singleton groups span ih =>
      obtain ⟨orig', last⟩ := list_accepts_append orig whole groups span
      rw [last, below_pushList, ih, path_accepts]
      rcases Nat.lt_trichotomy j (groups.length + 1) with earlier | rfl | beyond
      · have other : groups.length + 1 ≠ j := Nat.ne_of_gt earlier
        simp only [StartsBelow, other, false_and, or_false, region_append whole span earlier]
        refine and_congr_right fun smaller => exists_congr fun b => and_congr_right fun _ => ?_
        rw [reaches_append whole span (Nat.lt_trans smaller earlier)]
      · have nothing : (whole :: groups)[groups.length + 1]? = none := by simp
        simp only [StartsBelow, nothing, region_last whole groups span, reduceCtorEq, false_and,
          exists_const, and_false, false_or, true_and, Option.some.injEq, exists_eq_left']
        constructor
        · intro reaches
          have inside : i < groups.length + 1 := by simpa using reaches.lt
          exact ⟨inside, (reaches_append whole span inside).mpr reaches⟩
        · exact fun ⟨inside, reaches⟩ => (reaches_append whole span inside).mp reaches
      · have other : groups.length + 1 ≠ j := Nat.ne_of_lt beyond
        have nothing : (whole :: groups)[j]? = none := by
          rw [List.getElem?_eq_none_iff, List.length_cons]
          omega
        have nothing' : (whole :: (groups ++ [span]))[j]? = none := by
          rw [List.getElem?_eq_none_iff, List.length_cons, List.length_append, List.length_singleton]
          omega
        simp only [StartsBelow, nothing, nothing', other, reduceCtorEq, false_and, exists_const,
          and_false, or_false]

theorem isCapture_iff (groups : List (Int × Int)) (i : Nat) :
    IsCapture (whole :: groups) i ↔ i ∈ captures (accepts orig whole groups).list := by
  rw [(captures_accepts orig whole groups).mem_iff, List.mem_range'_1, IsCapture, List.length_cons]
  omega

theorem siblings_lt (groups : List (Int × Int)) (i j : Nat)
    (siblings : Siblings i j (accepts orig whole groups).list) : i < j := by
  induction groups using List.reverseRecOn with
  | nil => simp [accepts, pushAll, matchNew, Match.list, Siblings] at siblings
  | append_singleton groups span ih =>
      obtain ⟨orig', last⟩ := list_accepts_append orig whole groups span
      rw [last] at siblings
      rcases siblings_pushList _ _ _ _ _ _ _ siblings with old | ⟨rfl, member⟩
      · exact ih old
      · have inside := ((isCapture_iff orig whole groups i).mpr member).2
        simpa using inside

/-- The tree of a match nests by containment exactly when the captures that start below another are
those that it contains. -/
theorem nestsByContainment_iff (nested : Nat → Nat → Prop) (groups : List (Int × Int)) :
    NestsByContainment nested orig whole groups ↔
      ∀ i j, IsCapture (whole :: groups) i → IsCapture (whole :: groups) j →
        (StartsBelow (whole :: groups) i j ↔ Contains nested (whole :: groups) i j) := by
  constructor
  · intro nests i j has_i has_j
    rw [← below_accepts orig]
    exact nests.descendants i j has_i has_j
  · intro exact_below
    have descendants (i j : Nat) (has_i : IsCapture (whole :: groups) i)
        (has_j : IsCapture (whole :: groups) j) :
        Below i j (accepts orig whole groups).list ↔ Contains nested (whole :: groups) i j := by
      rw [below_accepts, exact_below i j has_i has_j]
    refine ⟨captures_accepts orig whole groups, descendants, ?_⟩
    intro i j has_i has_j smaller same_containers _ _
    have once : (captures (accepts orig whole groups).list).Nodup :=
      (captures_accepts orig whole groups).nodup_iff.mpr List.nodup_range'
    have same (k : Nat) : Below k i (accepts orig whole groups).list ↔
        Below k j (accepts orig whole groups).list := by
      by_cases has_k : IsCapture (whole :: groups) k
      · rw [descendants k i has_k has_i, descendants k j has_k has_j]
        exact same_containers k has_k
      · have nothing (m : Nat) : ¬ Below k m (accepts orig whole groups).list := fun below =>
          has_k ((isCapture_iff orig whole groups k).mpr (mem_captures_of_below below).1)
        exact iff_of_false (nothing i) (nothing j)
    rcases siblings_of_same_above once ((isCapture_iff orig whole groups i).mp has_i)
      ((isCapture_iff orig whole groups j).mp has_j) (Nat.ne_of_lt smaller) same with before | behind
    · exact before
    · exact absurd (siblings_lt orig whole groups j i behind) (Nat.lt_asymm smaller)

end Region

/-- The groups of `(a)(b)` on `"ab"` are not nested, and the second becomes a child of the first. -/
theorem not_nestsByContainment :
    Below 1 2 (accepts "ab" (0, 2) [(0, 1), (1, 2)]).list ∧
      ¬ NestsByContainment (fun _ _ => False) "ab" (0, 2) [(0, 1), (1, 2)] := by
  have below : Below 1 2 (accepts "ab" (0, 2) [(0, 1), (1, 2)]).list := by
    refine (below_accepts ..).mpr ⟨by decide, (1, 2), rfl, by decide, (0, 1), rfl, by decide, ?_⟩
    intro k c positive smaller
    omega
  refine ⟨below, fun nests => ?_⟩
  obtain ⟨-, -, -, -, -, -, nested⟩ :=
    (nests.descendants 1 2 (by decide) (by decide)).mp below
  exact nested

end Regex
end Pone
