import Mathlib.Data.List.Basic
import Mathlib.Data.Nat.Bitwise

/-!
# The flags of `pone_khash.h`

Each bucket has two bits, sixteen buckets a word: one bit says that it was never used, the other one
that its entry was deleted.  An access to a word outside of the array gives `none`.
-/

namespace Pone
namespace Khash

/-- `flag[i>>4]` is shifted by this. -/
def shift (i : Nat) : UInt32 := UInt32.ofNat ((i &&& 0xf) <<< 1)

/-- `__ac_isempty` -/
def acIsempty (flag : List UInt32) (i : Nat) : Option Bool :=
  flag[i >>> 4]?.map fun w => (w >>> shift i) &&& 2 != 0

/-- `__ac_isdel` -/
def acIsdel (flag : List UInt32) (i : Nat) : Option Bool :=
  flag[i >>> 4]?.map fun w => (w >>> shift i) &&& 1 != 0

/-- `__ac_iseither` -/
def acIseither (flag : List UInt32) (i : Nat) : Option Bool :=
  flag[i >>> 4]?.map fun w => (w >>> shift i) &&& 3 != 0

/-- The assignment to `flag[i>>4]`. -/
def assignWord (flag : List UInt32) (i : Nat) (f : UInt32 → UInt32) : Option (List UInt32) :=
  flag[i >>> 4]?.map fun w => flag.set (i >>> 4) (f w)

/-- `__ac_set_isempty_false` -/
def acSetIsemptyFalse (flag : List UInt32) (i : Nat) : Option (List UInt32) :=
  assignWord flag i fun w => w &&& ~~~(2 <<< shift i)

/-- `__ac_set_isboth_false` -/
def acSetIsbothFalse (flag : List UInt32) (i : Nat) : Option (List UInt32) :=
  assignWord flag i fun w => w &&& ~~~(3 <<< shift i)

/-- `__ac_set_isdel_true` -/
def acSetIsdelTrue (flag : List UInt32) (i : Nat) : Option (List UInt32) :=
  assignWord flag i fun w => w ||| (1 <<< shift i)

/-- `__ac_fsize` -/
def acFsize (m : Nat) : Nat := if m < 16 then 1 else m >>> 4

/-- The words after `memset(…, 0xaa, …)`. -/
def freshFlags (m : Nat) : List UInt32 := List.replicate (acFsize m) 0xaaaaaaaa

/-! ## The two bits of a bucket -/

structure Flag where
  empty : Bool
  deleted : Bool
  deriving DecidableEq

/-- The bucket contains an entry. -/
def Flag.Live (f : Flag) : Prop := f.empty = false ∧ f.deleted = false

instance (f : Flag) : Decidable f.Live := inferInstanceAs (Decidable (_ ∧ _))

def wordFlag (w : UInt32) (i : Nat) : Flag :=
  ⟨w.toNat.testBit (2 * (i % 16) + 1), w.toNat.testBit (2 * (i % 16))⟩

def flagAt (flag : List UInt32) (i : Nat) : Option Flag :=
  flag[i / 16]?.map fun w => wordFlag w i

section Bits

theorem shift_toNat (i : Nat) : (shift i).toNat = 2 * (i % 16) := by
  have low : i &&& 15 = i % 16 := Nat.and_two_pow_sub_one_eq_mod i 4
  rw [shift, low, Nat.shiftLeft_eq, UInt32.toNat_ofNat']
  omega

theorem shiftRight_toNat (w : UInt32) (i : Nat) : (w >>> shift i).toNat = w.toNat >>> (2 * (i % 16)) := by
  rw [UInt32.toNat_shiftRight, shift_toNat, Nat.mod_eq_of_lt (by omega)]

theorem shiftLeft_testBit (c : UInt32) (i : Nat) {b : Nat} (bit : b < 32) :
    (c <<< shift i).toNat.testBit b = (c.toNat <<< (2 * (i % 16))).testBit b := by
  rw [UInt32.toNat_shiftLeft, shift_toNat, Nat.testBit_mod_two_pow,
    Nat.mod_eq_of_lt (show 2 * (i % 16) < 32 by omega)]
  simp [bit]

theorem and_testBit (w : UInt32) (c : UInt32) (i : Nat) {b : Nat} (bit : b < 32) :
    (w &&& ~~~(c <<< shift i)).toNat.testBit b =
      (w.toNat.testBit b && !(c.toNat <<< (2 * (i % 16))).testBit b) := by
  rw [UInt32.toNat_and, Nat.testBit_and, UInt32.toNat_not, Nat.sub_sub, Nat.add_comm 1,
    Nat.testBit_two_pow_sub_succ (UInt32.toNat_lt _), shiftLeft_testBit c i bit]
  simp [bit]

theorem or_testBit (w : UInt32) (c : UInt32) (i : Nat) {b : Nat} (bit : b < 32) :
    (w ||| (c <<< shift i)).toNat.testBit b =
      (w.toNat.testBit b || (c.toNat <<< (2 * (i % 16))).testBit b) := by
  rw [UInt32.toNat_or, Nat.testBit_or, shiftLeft_testBit c i bit]

theorem word_eq (flag : List UInt32) (i : Nat) : flag[i >>> 4]? = flag[i / 16]? := by
  rw [Nat.shiftRight_eq_div_pow]

theorem ne_zero_iff (w : UInt32) : (w != 0) = decide (w.toNat ≠ 0) := by
  by_cases zero : w = 0
  · simp [zero]
  · have : w.toNat ≠ 0 := fun same => zero (UInt32.toNat_inj.mp same)
    simp [zero, this]

theorem acIsempty_eq (flag : List UInt32) (i : Nat) :
    acIsempty flag i = (flagAt flag i).map Flag.empty := by
  have bit (w : UInt32) : ((w >>> shift i) &&& 2 != 0) = (wordFlag w i).empty := by
    have masked := Nat.and_two_pow (w.toNat >>> (2 * (i % 16))) 1
    rw [ne_zero_iff, UInt32.toNat_and, shiftRight_toNat, show (2 : UInt32).toNat = 2 ^ 1 from rfl,
      masked, Nat.testBit_shiftRight, wordFlag]
    cases w.toNat.testBit (2 * (i % 16) + 1) <;> rfl
  simp only [acIsempty, flagAt, word_eq, Option.map_map, Function.comp_def, bit]

theorem acIsdel_eq (flag : List UInt32) (i : Nat) :
    acIsdel flag i = (flagAt flag i).map Flag.deleted := by
  have bit (w : UInt32) : ((w >>> shift i) &&& 1 != 0) = (wordFlag w i).deleted := by
    have masked := Nat.and_two_pow (w.toNat >>> (2 * (i % 16))) 0
    rw [ne_zero_iff, UInt32.toNat_and, shiftRight_toNat, show (1 : UInt32).toNat = 2 ^ 0 from rfl,
      masked, Nat.testBit_shiftRight, wordFlag]
    cases w.toNat.testBit (2 * (i % 16)) <;> rfl
  simp only [acIsdel, flagAt, word_eq, Option.map_map, Function.comp_def, bit]

theorem acIseither_eq (flag : List UInt32) (i : Nat) :
    acIseither flag i = (flagAt flag i).map fun f => f.empty || f.deleted := by
  have bit (w : UInt32) : ((w >>> shift i) &&& 3 != 0) =
      ((wordFlag w i).empty || (wordFlag w i).deleted) := by
    have both (x : Nat) : x &&& 3 = (x &&& 2 ^ 1) ||| (x &&& 2 ^ 0) :=
      Nat.and_or_distrib_left x 2 1
    rw [ne_zero_iff, UInt32.toNat_and, shiftRight_toNat, show (3 : UInt32).toNat = 3 from rfl, both,
      Nat.and_two_pow, Nat.and_two_pow, Nat.testBit_shiftRight, Nat.testBit_shiftRight, wordFlag]
    simp only [Nat.add_zero]
    cases w.toNat.testBit (2 * (i % 16) + 1) <;> cases w.toNat.testBit (2 * (i % 16)) <;> rfl
  simp only [acIseither, flagAt, word_eq, Option.map_map, Function.comp_def, bit]

/-- The mask covers the two bits of its bucket only. -/
theorem mask_testBit {c : Nat} (small : c < 4) (i j : Nat) {d : Nat} (bit : d < 2) :
    (c <<< (2 * (i % 16))).testBit (2 * (j % 16) + d) =
      (decide (j % 16 = i % 16) && c.testBit d) := by
  rw [Nat.testBit_shiftLeft]
  rcases Nat.lt_trichotomy (j % 16) (i % 16) with less | same | more
  · rw [decide_eq_false (by omega : ¬ 2 * (j % 16) + d ≥ 2 * (i % 16)), decide_eq_false less.ne]
    rfl
  · rw [same, Nat.add_sub_cancel_left, decide_eq_true (Nat.le_add_right ..), decide_eq_true rfl]
  · have far : 2 ≤ 2 * (j % 16) + d - 2 * (i % 16) := by omega
    have high : c < 2 ^ (2 * (j % 16) + d - 2 * (i % 16)) :=
      small.trans_le (Nat.pow_le_pow_right Nat.two_pos far)
    rw [Nat.testBit_lt_two_pow high, decide_eq_false more.ne', Bool.and_false, Bool.false_and]

theorem wordFlag_and (w : UInt32) {c : UInt32} (small : c.toNat < 4) (i j : Nat) :
    wordFlag (w &&& ~~~(c <<< shift i)) j =
      if j % 16 = i % 16 then
        ⟨(wordFlag w j).empty && !c.toNat.testBit 1, (wordFlag w j).deleted && !c.toNat.testBit 0⟩
      else wordFlag w j := by
  have high := mask_testBit small i j (d := 1) (by omega)
  have low := mask_testBit small i j (d := 0) (by omega)
  rw [Nat.add_zero] at low
  unfold wordFlag
  rw [and_testBit _ _ _ (by omega), and_testBit _ _ _ (by omega), high, low]
  split
  · next same => simp only [same, decide_true, Bool.true_and]
  · next other => simp only [other, decide_false, Bool.false_and, Bool.not_false, Bool.and_true]

theorem wordFlag_or (w : UInt32) {c : UInt32} (small : c.toNat < 4) (i j : Nat) :
    wordFlag (w ||| (c <<< shift i)) j =
      if j % 16 = i % 16 then
        ⟨(wordFlag w j).empty || c.toNat.testBit 1, (wordFlag w j).deleted || c.toNat.testBit 0⟩
      else wordFlag w j := by
  have high := mask_testBit small i j (d := 1) (by omega)
  have low := mask_testBit small i j (d := 0) (by omega)
  rw [Nat.add_zero] at low
  unfold wordFlag
  rw [or_testBit _ _ _ (by omega), or_testBit _ _ _ (by omega), high, low]
  split
  · next same => simp only [same, decide_true, Bool.true_and]
  · next other => simp only [other, decide_false, Bool.false_and, Bool.or_false]

/-- A new word changes the flag of one bucket. -/
theorem assignWord_spec {flag : List UInt32} {i : Nat} {f : Flag} (there : flagAt flag i = some f)
    {g : UInt32 → UInt32} {f' : Flag} (now : ∀ w, wordFlag w i = f → wordFlag (g w) i = f')
    (others : ∀ w j, j % 16 ≠ i % 16 → wordFlag (g w) j = wordFlag w j) :
    ∃ flag', assignWord flag i g = some flag' ∧ flag'.length = flag.length ∧
      ∀ j, flagAt flag' j = if j = i then some f' else flagAt flag j := by
  obtain ⟨w, read, flagged⟩ := Option.map_eq_some_iff.mp there
  have within : i / 16 < flag.length := (List.getElem?_eq_some_iff.mp read).1
  refine ⟨flag.set (i / 16) (g w), ?_, List.length_set, fun j => ?_⟩
  · rw [assignWord, word_eq, read, Nat.shiftRight_eq_div_pow]
    rfl
  · rw [flagAt, List.getElem?_set]
    by_cases same : i / 16 = j / 16
    · rw [if_pos same, if_pos within, Option.map_some]
      by_cases here : j = i
      · rw [if_pos here, here, now w flagged]
      · rw [if_neg here, others w j (by omega), flagAt, ← same, read, Option.map_some]
    · rw [if_neg same, if_neg (by rintro rfl; exact same rfl)]
      rfl

end Bits

section Assignments

variable {flag : List UInt32} {i : Nat} {f : Flag}

theorem acSetIsemptyFalse_spec (there : flagAt flag i = some f) :
    ∃ flag', acSetIsemptyFalse flag i = some flag' ∧ flag'.length = flag.length ∧
      ∀ j, flagAt flag' j = if j = i then some ⟨false, f.deleted⟩ else flagAt flag j := by
  refine assignWord_spec there (fun w flagged => ?_) fun w j other => ?_
  · rw [wordFlag_and w (by decide), if_pos rfl, flagged]
    simp [Nat.testBit_eq_decide_div_mod_eq]
  · rw [wordFlag_and w (by decide), if_neg other]

theorem acSetIsbothFalse_spec (there : flagAt flag i = some f) :
    ∃ flag', acSetIsbothFalse flag i = some flag' ∧ flag'.length = flag.length ∧
      ∀ j, flagAt flag' j = if j = i then some ⟨false, false⟩ else flagAt flag j := by
  refine assignWord_spec there (fun w flagged => ?_) fun w j other => ?_
  · rw [wordFlag_and w (by decide), if_pos rfl, flagged]
    simp [Nat.testBit_eq_decide_div_mod_eq]
  · rw [wordFlag_and w (by decide), if_neg other]

theorem acSetIsdelTrue_spec (there : flagAt flag i = some f) :
    ∃ flag', acSetIsdelTrue flag i = some flag' ∧ flag'.length = flag.length ∧
      ∀ j, flagAt flag' j = if j = i then some ⟨f.empty, true⟩ else flagAt flag j := by
  refine assignWord_spec there (fun w flagged => ?_) fun w j other => ?_
  · rw [wordFlag_or w (by decide), if_pos rfl, flagged]
    simp [Nat.testBit_eq_decide_div_mod_eq]
  · rw [wordFlag_or w (by decide), if_neg other]

end Assignments

/-- A power of two of buckets has its flags in the words that were allocated. -/
theorem exists_flagAt {flag : List UInt32} {bits i : Nat} (room : acFsize (2 ^ bits) ≤ flag.length)
    (bucket : i < 2 ^ bits) : ∃ f, flagAt flag i = some f := by
  have within : i / 16 < flag.length := by
    unfold acFsize at room
    split at room
    · omega
    · next many =>
        have bits_le : 4 ≤ bits := by
          by_contra! few
          exact many (Nat.pow_lt_pow_right (by decide) few)
        obtain ⟨more, rfl⟩ := Nat.exists_eq_add_of_le bits_le
        rw [Nat.shiftRight_eq_div_pow, Nat.pow_add, Nat.mul_div_cancel_left _ (by decide)] at room
        rw [Nat.pow_add] at bucket
        omega
  exact ⟨_, by rw [flagAt, List.getElem?_eq_getElem within, Option.map_some]⟩

/-- In fresh flags, all buckets are empty. -/
theorem flagAt_freshFlags {bits i : Nat} (bucket : i < 2 ^ bits) :
    flagAt (freshFlags (2 ^ bits)) i = some ⟨true, false⟩ := by
  obtain ⟨f, there⟩ : ∃ f, flagAt (freshFlags (2 ^ bits)) i = some f :=
    exists_flagAt List.length_replicate.ge bucket
  obtain ⟨w, read, flagged⟩ := Option.map_eq_some_iff.mp there
  obtain rfl := List.eq_of_mem_replicate (List.mem_of_getElem? read)
  have all : ∀ r < 16, wordFlag 0xaaaaaaaa r = ⟨true, false⟩ := by decide
  have reduced : wordFlag 0xaaaaaaaa i = wordFlag 0xaaaaaaaa (i % 16) := by
    rw [wordFlag, wordFlag, Nat.mod_mod]
  rw [there, ← flagged, reduced, all _ (Nat.mod_lt i (by decide))]

end Khash
end Pone
