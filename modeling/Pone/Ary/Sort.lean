import Pone.Ary.Model
import Pone.Str.Order

/-!
# `Array#sort`

The array is copied element by element, and `sort_r` sorts the pointers of the copy by
`pone_str_cmp`.  Arrays are known by the order in which they are made, each as the list of its
elements; the `Str` method of an element is a function of it.
-/

namespace Pone
namespace Ary

variable {α : Type}

/-- `default_sort_routine`, which returns an `int` -/
def defaultSortRoutine (str : α → List UInt8) (a b : α) : Int :=
  (Str.cmpBytes (str a) (str b)).bmod (2 ^ 32)

/-- The loop that pushes the elements of `self`, from `i` on, to `retval`; it goes round `fuel` times
at most. -/
def copyLoop (nil : α) (self retval : Nat) : Nat → Nat → List (List α) → Option (List (List α))
  | 0, _, _ => none
  | fuel + 1, i, arys => do
      let xs ← arys[self]?
      if i < xs.length then
        let ys ← arys[retval]?
        copyLoop nil self retval fuel (i + 1) (arys.set retval (ys ++ [xs.getD i nil]))
      else some arys

/-- `meth_ary_sort` with `qsort_r` for `sort_r`: the arrays behind it and the one that it returns. -/
def methArySort (qsortR : (α → α → Int) → List α → List α) (str : α → List UInt8) (nil : α)
    (arys : List (List α)) (self : Nat) : Option (List (List α) × Nat) := do
  let xs ← arys[self]?
  let retval := arys.length
  let arys ← copyLoop nil self retval (xs.length + 1) 0 (arys ++ [[]])
  let ys ← arys[retval]?
  return (arys.set retval (qsortR (defaultSortRoutine str) ys), retval)

/-- The comparison is a total preorder. -/
structure TotalPreorder (cmp : α → α → Int) : Prop where
  swap : ∀ a b, cmp a b < 0 ↔ 0 < cmp b a
  trans : ∀ a b c, cmp a b ≤ 0 → cmp b c ≤ 0 → cmp a c ≤ 0

/-- What the C library says of `qsort_r`: it sorts by any total preorder. -/
def Sorts (qsortR : (α → α → Int) → List α → List α) : Prop :=
  ∀ cmp, TotalPreorder cmp → ∀ items,
    (qsortR cmp items).Perm items ∧ (qsortR cmp items).Pairwise fun a b => cmp a b ≤ 0

/-- The comparison is the lexicographic order on unsigned bytes, with the laws of a total order. -/
structure IsLexicographic (cmp : List UInt8 → List UInt8 → Int) : Prop where
  neg_iff : ∀ a b, cmp a b < 0 ↔ List.Lex (· < ·) a b
  zero_iff : ∀ a b, cmp a b = 0 ↔ a = b
  antisymm : ∀ a b, cmp a b ≤ 0 → cmp b a ≤ 0 → a = b
  trans : ∀ a b c, cmp a b ≤ 0 → cmp b c ≤ 0 → cmp a c ≤ 0
  total : ∀ a b, cmp a b ≤ 0 ∨ cmp b a ≤ 0

/-- `pone_str_cmp` compares the string forms by `cmp`, the operators answer whether their relation
holds of them, and no string changes. -/
def ComparesBy (cmp : List UInt8 → List UInt8 → Int) : Prop :=
  ∀ (s : Str.State) (texts : List Str.Text), Str.Shows s texts → Str.Sane s →
    ∀ v1 v2 : Str.Form, v1.InScope texts.length → v2.InScope texts.length →
      (∃ s' extra, Str.strCmp s v1 v2 = .ok (s', cmp (v1.text texts) (v2.text texts)) ∧
        Str.Shows s' (texts ++ extra)) ∧
      ∀ r : Str.Relation, ∃ s' extra answer, r.run s v1 v2 = .ok (s', answer) ∧
        Str.Shows s' (texts ++ extra) ∧ (answer = true ↔ r.Holds (v1.text texts) (v2.text texts))

/-- Sorting gives a new array, a permutation in the order of the string forms, and leaves all arrays
as they are. -/
def SortsArrays (qsortR : (α → α → Int) → List α → List α) (str : α → List UInt8) (nil : α) : Prop :=
  ∀ (arys : List (List α)) (self : Nat) (xs : List α), arys[self]? = some xs →
    ∃ arys' ys, methArySort qsortR str nil arys self = some (arys', arys.length) ∧
      arys' = arys ++ [ys] ∧ ys.Perm xs ∧
      ys.Pairwise fun a b => List.Lex (· < ·) (str a) (str b) ∨ str a = str b

theorem isLexicographic_cmpBytes : IsLexicographic Str.cmpBytes where
  neg_iff _ _ := Str.cmpBytes_neg_iff
  zero_iff _ _ := Str.cmpBytes_eq_zero_iff
  antisymm a b below above := by
    rw [Str.cmpBytes_swap a b] at above
    exact Str.cmpBytes_eq_zero_iff.mp (by omega)
  trans _ _ _ := Str.cmpBytes_le_trans
  total a b := by
    rw [Str.cmpBytes_swap a b]
    omega

theorem defaultSortRoutine_eq (str : α → List UInt8) (a b : α) :
    defaultSortRoutine str a b = Str.cmpBytes (str a) (str b) := by
  have bounds := Str.cmpBytes_bounds (str a) (str b)
  rw [defaultSortRoutine, Int.bmod_eq_of_le] <;> omega

theorem totalPreorder_defaultSortRoutine (str : α → List UInt8) :
    TotalPreorder (defaultSortRoutine str) where
  swap a b := by
    rw [defaultSortRoutine_eq, defaultSortRoutine_eq, Str.cmpBytes_swap (str a) (str b)]
    omega
  trans a b c := by
    rw [defaultSortRoutine_eq, defaultSortRoutine_eq, defaultSortRoutine_eq]
    exact Str.cmpBytes_le_trans

/-- The loop copies what it has not copied yet, since the copy is another array. -/
theorem copyLoop_eq (nil : α) {arys : List (List α)} {self : Nat} {xs : List α}
    (found : arys[self]? = some xs) {fuel i : Nat} (inside : i ≤ xs.length)
    (enough : xs.length < fuel + i) :
    copyLoop nil self arys.length fuel i (arys ++ [xs.take i]) = some (arys ++ [xs]) := by
  have earlier : self < arys.length := (List.getElem?_eq_some_iff.mp found).1
  induction fuel generalizing i with
  | zero => omega
  | succ fuel ih =>
      have self_eq : (arys ++ [xs.take i])[self]? = some xs := by
        rw [List.getElem?_append_left earlier, found]
      have retval_eq : (arys ++ [xs.take i])[arys.length]? = some (xs.take i) := by simp
      rw [copyLoop, self_eq]
      by_cases more : i < xs.length
      · have taken : xs.take i ++ [xs.getD i nil] = xs.take (i + 1) := by
          rw [List.take_add_one, List.getD_eq_getElem?_getD, List.getElem?_eq_getElem more]
          rfl
        have set_eq : (arys ++ [xs.take i]).set arys.length (xs.take (i + 1)) =
            arys ++ [xs.take (i + 1)] := by
          rw [List.set_append_right _ _ (Nat.le_refl _)]
          simp
        simp only [Option.bind_eq_bind, Option.bind_some, if_pos more, retval_eq, taken, set_eq]
        exact ih more (by omega)
      · simp only [Option.bind_eq_bind, Option.bind_some, if_neg more]
        rw [List.take_of_length_le (Nat.not_lt.mp more)]

theorem sortsArrays {qsortR : (α → α → Int) → List α → List α} (sorts : Sorts qsortR)
    (str : α → List UInt8) (nil : α) : SortsArrays qsortR str nil := by
  intro arys self xs found
  have copied := copyLoop_eq nil found (Nat.zero_le _) (Nat.lt_succ_self xs.length)
  obtain ⟨permuted, ordered⟩ :=
    sorts (defaultSortRoutine str) (totalPreorder_defaultSortRoutine str) xs
  refine ⟨_, qsortR (defaultSortRoutine str) xs, ?_, rfl, permuted, ?_⟩
  · rw [List.take_zero] at copied
    have retval_eq : (arys ++ [xs])[arys.length]? = some xs := by simp
    have set_eq : (arys ++ [xs]).set arys.length (qsortR (defaultSortRoutine str) xs) =
        arys ++ [qsortR (defaultSortRoutine str) xs] := by
      rw [List.set_append_right _ _ (Nat.le_refl _)]
      simp
    simp only [methArySort, found, Option.bind_eq_bind, Option.bind_some, copied, retval_eq, set_eq]
    rfl
  · refine ordered.imp fun {a b} below => ?_
    rw [defaultSortRoutine_eq] at below
    rw [← Str.cmpBytes_neg_iff, ← Str.cmpBytes_eq_zero_iff]
    omega

/-- The comparison of strings is a total order, the operators are its relations, and arrays are sorted
by it. -/
theorem strings_ordered {qsortR : (α → α → Int) → List α → List α} (sorts : Sorts qsortR)
    (str : α → List UInt8) (nil : α) :
    IsLexicographic Str.cmpBytes ∧ ComparesBy Str.cmpBytes ∧ SortsArrays qsortR str nil := by
  refine ⟨isLexicographic_cmpBytes, ?_, sortsArrays sorts str nil⟩
  intro s texts shows sane v1 v2 scope1 scope2
  obtain ⟨s', extra, compared, -, shows'⟩ := Str.strCmp_eq shows sane scope1 scope2
  exact ⟨⟨s', extra, compared, shows'⟩, fun r => r.run_spec shows sane scope1 scope2⟩

/-- Merge sort is a `qsort_r`. -/
theorem strings_ordered_mergeSort :
    IsLexicographic Str.cmpBytes ∧ ComparesBy Str.cmpBytes ∧
      SortsArrays (fun cmp items => items.mergeSort fun a b => decide (cmp a b ≤ 0))
        (fun text : List UInt8 => text) [] := by
  refine strings_ordered (fun cmp preorder items => ⟨List.mergeSort_perm _ _, ?_⟩) _ _
  have sorted := @List.pairwise_mergeSort _ (fun a b => decide (cmp a b ≤ 0))
    (fun a b c below above => decide_eq_true
      (preorder.trans a b c (of_decide_eq_true below) (of_decide_eq_true above)))
    (fun a b => by
      have swap := preorder.swap a b
      simp only [Bool.or_eq_true, decide_eq_true_eq]
      omega) items
  exact sorted.imp fun below => of_decide_eq_true below

end Ary
end Pone
