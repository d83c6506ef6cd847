import Pone.Str.Forms

/-!
# The order of strings

`pone_str_cmp` compares the bytes up to the shorter length and then the lengths.  It is the
lexicographic order on unsigned bytes, in which a proper prefix is smaller.
-/

namespace Pone
namespace Str

open Simulation (orHalt)

/-- `memcmp` of texts of one length: the difference of the first two bytes that differ. -/
def memcmp : List UInt8 → List UInt8 → Int
  | a :: s, b :: t => if a = b then memcmp s t else (a.toNat : Int) - b.toNat
  | _, _ => 0

/-- `pone_str_cmp` on the bytes of two strings -/
def cmpBytes (s1 s2 : List UInt8) : Int :=
  let shorter := min s1.length s2.length
  let n := memcmp (s1.take shorter) (s2.take shorter)
  if n = 0 then
    if s2.length < s1.length then 1
    else if s1.length < s2.length then -1
    else n
  else n

/-- `pone_str_cmp` -/
def strCmp (s : State) (v1 v2 : Form) : Except Halt (State × Int) :=
  let (s, s1) := stringify s v1
  let (s, s2) := stringify s v2
  do
    let b1 ← orHalt .wild (content s s1)
    let b2 ← orHalt .wild (content s s2)
    return (s, cmpBytes b1 b2)

/-- `CMP_OP` with the comparison of the result with 0 -/
def cmpOp (test : Int → Bool) (s : State) (v1 v2 : Form) : Except Halt (State × Bool) := do
  let (s, n) ← strCmp s v1 v2
  return (s, test n)

def strEq : State → Form → Form → Except Halt (State × Bool) := cmpOp (· = 0)

def strNe : State → Form → Form → Except Halt (State × Bool) := cmpOp (· ≠ 0)

def strLe : State → Form → Form → Except Halt (State × Bool) := cmpOp (· ≤ 0)

def strLt : State → Form → Form → Except Halt (State × Bool) := cmpOp (· < 0)

def strGe : State → Form → Form → Except Halt (State × Bool) := cmpOp (· ≥ 0)

def strGt : State → Form → Form → Except Halt (State × Bool) := cmpOp (· > 0)

/-! ## The order of bytes -/

@[simp]
theorem cmpBytes_cons (a b : UInt8) (s t : List UInt8) :
    cmpBytes (a :: s) (b :: t) = if a = b then cmpBytes s t else (a.toNat : Int) - b.toNat := by
  have shorter : min (a :: s).length (b :: t).length = min s.length t.length + 1 := by
    simp only [List.length_cons]
    omega
  by_cases same : a = b
  · simp [cmpBytes, memcmp, same]
  · have apart : (a.toNat : Int) - b.toNat ≠ 0 := by
      intro zero
      apply same
      apply UInt8.toNat_inj.mp
      omega
    rw [if_neg same, cmpBytes, shorter]
    simp [memcmp, same, apart]

theorem cmpBytes_neg_iff {s t : List UInt8} : cmpBytes s t < 0 ↔ List.Lex (· < ·) s t := by
  induction s generalizing t with
  | nil => cases t <;> simp [cmpBytes, memcmp]
  | cons a s ih =>
      cases t with
      | nil => simp [cmpBytes, memcmp]
      | cons b t =>
          rw [cmpBytes_cons]
          by_cases same : a = b
          · subst same
            rw [if_pos rfl, ih]
            constructor
            · exact List.Lex.cons
            · intro below
              cases below with
              | cons below => exact below
              | rel below => exact (UInt8.lt_irrefl a below).elim
          · have difference : (a.toNat : Int) - b.toNat < 0 ↔ a < b := by
              rw [UInt8.lt_iff_toNat_lt]
              omega
            rw [if_neg same, difference]
            constructor
            · exact List.Lex.rel
            · intro below
              cases below with
              | cons _ => exact (same rfl).elim
              | rel below => exact below

theorem cmpBytes_eq_zero_iff {s t : List UInt8} : cmpBytes s t = 0 ↔ s = t := by
  induction s generalizing t with
  | nil => cases t <;> simp [cmpBytes, memcmp]
  | cons a s ih =>
      cases t with
      | nil => simp [cmpBytes, memcmp]
      | cons b t =>
          rw [cmpBytes_cons, List.cons.injEq]
          by_cases same : a = b
          · rw [if_pos same, ih, and_iff_right same]
          · rw [if_neg same]
            refine iff_of_false (fun zero => same ?_) fun both => same both.1
            apply UInt8.toNat_inj.mp
            omega

/-- Exchanging the operands changes the sign. -/
theorem cmpBytes_swap (s t : List UInt8) : cmpBytes t s = -cmpBytes s t := by
  induction s generalizing t with
  | nil => cases t <;> simp [cmpBytes, memcmp]
  | cons a s ih =>
      cases t with
      | nil => simp [cmpBytes, memcmp]
      | cons b t =>
          rw [cmpBytes_cons, cmpBytes_cons]
          by_cases same : a = b
          · rw [if_pos same, if_pos same.symm, ih]
          · rw [if_neg same, if_neg (Ne.symm same)]
            omega

theorem cmpBytes_le_trans {s t u : List UInt8} (first : cmpBytes s t ≤ 0)
    (second : cmpBytes t u ≤ 0) : cmpBytes s u ≤ 0 := by
  induction s generalizing t u with
  | nil =>
      cases u <;> simp [cmpBytes, memcmp]
  | cons a s ih =>
      cases t with
      | nil => simp [cmpBytes, memcmp] at first
      | cons b t =>
          cases u with
          | nil => simp [cmpBytes, memcmp] at second
          | cons c u =>
              rw [cmpBytes_cons] at first second ⊢
              by_cases left : a = b
              · subst left
                rw [if_pos rfl] at first
                by_cases right : a = c
                · rw [if_pos right] at second ⊢
                  exact ih first second
                · rw [if_neg right] at second ⊢
                  exact second
              · rw [if_neg left] at first
                by_cases right : b = c
                · rw [← right, if_neg left]
                  exact first
                · rw [if_neg right] at second
                  have apart := UInt8.toNat_inj.not.mpr left
                  have strict : a ≠ c := by
                    rintro rfl
                    omega
                  rw [if_neg strict]
                  omega

/-- The result fits into the `int` that `qsort_r` takes it for. -/
theorem cmpBytes_bounds (s t : List UInt8) : -255 ≤ cmpBytes s t ∧ cmpBytes s t ≤ 255 := by
  induction s generalizing t with
  | nil => cases t <;> simp [cmpBytes, memcmp]
  | cons a s ih =>
      cases t with
      | nil => simp [cmpBytes, memcmp]
      | cons b t =>
          rw [cmpBytes_cons]
          split
          · exact ih t
          · have := a.toNat_lt
            have := b.toNat_lt
            omega

/-! ## The operators -/

/-- Both operands have a string form, which is compared, and no string changes. -/
theorem strCmp_eq {s : State} {texts : List Text} (shows : Shows s texts) (sane : Sane s)
    {v1 v2 : Form} (scope1 : v1.InScope texts.length) (scope2 : v2.InScope texts.length) :
    ∃ s' extra, strCmp s v1 v2 = .ok (s', cmpBytes (v1.text texts) (v2.text texts)) ∧ Sane s' ∧
      Shows s' (texts ++ extra) := by
  obtain ⟨s₁, n₁, extra₁, first, sane₁, shows₁, found₁⟩ := shows.stringify sane scope1
  have longer : texts.length ≤ (texts ++ extra₁).length := by simp
  obtain ⟨s₂, n₂, extra₂, second, sane₂, shows₂, found₂⟩ :=
    shows₁.stringify sane₁ (scope2.mono longer)
  rw [Form.text_append scope2] at found₂
  have bytes₁ : content s₂ n₁ = some (v1.text texts) := by
    rw [shows₂.bytes, List.getElem?_append_left (List.getElem?_eq_some_iff.mp found₁).1, found₁]
    rfl
  have bytes₂ : content s₂ n₂ = some (v2.text texts) := by
    rw [shows₂.bytes, found₂]
    rfl
  refine ⟨s₂, extra₁ ++ extra₂, ?_, sane₂, ?_⟩
  · simp only [strCmp, first, second, bytes₁, bytes₂]
    rfl
  · rw [← List.append_assoc]
    exact shows₂

/-- The operators on strings -/
inductive Relation where
  | eq
  | ne
  | le
  | lt
  | ge
  | gt

namespace Relation

/-- The C function of an operator -/
def run : Relation → State → Form → Form → Except Halt (State × Bool)
  | .eq => strEq
  | .ne => strNe
  | .le => strLe
  | .lt => strLt
  | .ge => strGe
  | .gt => strGt

/-- The relation of the lexicographic order -/
def Holds : Relation → List UInt8 → List UInt8 → Prop
  | .eq, a, b => a = b
  | .ne, a, b => a ≠ b
  | .le, a, b => List.Lex (· < ·) a b ∨ a = b
  | .lt, a, b => List.Lex (· < ·) a b
  | .ge, a, b => List.Lex (· < ·) b a ∨ b = a
  | .gt, a, b => List.Lex (· < ·) b a

/-- The comparison with 0 that the operator makes -/
def test : Relation → Int → Bool
  | .eq => (· = 0)
  | .ne => (· ≠ 0)
  | .le => (· ≤ 0)
  | .lt => (· < 0)
  | .ge => (· ≥ 0)
  | .gt => (· > 0)

theorem run_eq (r : Relation) : r.run = cmpOp r.test := by
  cases r <;> rfl

theorem test_iff (r : Relation) (a b : List UInt8) :
    r.test (cmpBytes a b) = true ↔ r.Holds a b := by
  have below : cmpBytes b a < 0 ↔ 0 < cmpBytes a b := by
    rw [cmpBytes_swap a b]
    omega
  have equal : b = a ↔ cmpBytes a b = 0 := eq_comm.trans cmpBytes_eq_zero_iff.symm
  cases r with
  | eq => exact decide_eq_true_iff.trans cmpBytes_eq_zero_iff
  | ne => exact decide_eq_true_iff.trans cmpBytes_eq_zero_iff.not
  | lt => exact decide_eq_true_iff.trans cmpBytes_neg_iff
  | gt => exact decide_eq_true_iff.trans (below.symm.trans cmpBytes_neg_iff)
  | le =>
      rw [Holds, ← cmpBytes_neg_iff, ← cmpBytes_eq_zero_iff]
      exact decide_eq_true_iff.trans Int.le_iff_lt_or_eq
  | ge =>
      rw [Holds, ← cmpBytes_neg_iff, below, equal]
      refine decide_eq_true_iff.trans ?_
      omega

/-- An operator answers whether its relation holds of the bytes. -/
theorem run_spec {s : State} {texts : List Text} (shows : Shows s texts) (sane : Sane s)
    {v1 v2 : Form} (scope1 : v1.InScope texts.length) (scope2 : v2.InScope texts.length)
    (r : Relation) :
    ∃ s' extra answer, r.run s v1 v2 = .ok (s', answer) ∧ Shows s' (texts ++ extra) ∧
      (answer = true ↔ r.Holds (v1.text texts) (v2.text texts)) := by
  obtain ⟨s', extra, compared, -, shows'⟩ := strCmp_eq shows sane scope1 scope2
  refine ⟨s', extra, _, ?_, shows', r.test_iff _ _⟩
  rw [r.run_eq, cmpOp, compared]
  rfl

end Relation

end Str
end Pone
