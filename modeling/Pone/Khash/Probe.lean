import Mathlib.Tactic.IntervalCases
import Mathlib.Tactic.NormNum
import Pone.Khash.Model
import Pone.OpenAddressing

/-!
# The loops that look for a bucket

The arithmetic of `pone_khash.h` on tables of up to `2 ^ 31` buckets, the table as slots, and what the
loops of `kh_get`, `kh_put` and `kh_resize` find in it.
-/

namespace Pone
namespace Khash

open OpenAddressing

section Arithmetic

theorem khint_of_lt {n : Nat} (small : n < 2 ^ 32) : khint n = n := Nat.mod_eq_of_lt small

theorem mask_eq (n bits : Nat) : n &&& (2 ^ bits - 1) = n % 2 ^ bits :=
  Nat.and_two_pow_sub_one_eq_mod n bits

theorem nextBucket_eq {bits : Nat} (high : bits ≤ 32) (start step : Nat) :
    nextBucket (2 ^ bits - 1) (probe bits start step) step = probe bits start (step + 1) := by
  rw [nextBucket, khint, mask_eq, Nat.mod_mod_of_dvd _ (Nat.pow_dvd_pow 2 high), probe_succ]

/-- One of the steps of `kroundup32` doubles the bits that are looked at. -/
theorem smear_testBit {x y m : Nat} (seen : ∀ i, x.testBit i = true ↔ ∃ j < m, y.testBit (i + j))
    (i : Nat) : (x ||| x >>> m).testBit i = true ↔ ∃ j < m + m, y.testBit (i + j) := by
  rw [Nat.testBit_or, Nat.testBit_shiftRight, Bool.or_eq_true, seen, seen]
  constructor
  · rintro (⟨j, less, set⟩ | ⟨j, less, set⟩)
    · exact ⟨j, by omega, set⟩
    · exact ⟨m + j, by omega, by rwa [show i + (m + j) = m + i + j by omega]⟩
  · rintro ⟨j, less, set⟩
    by_cases near : j < m
    · exact .inl ⟨j, near, set⟩
    · exact .inr ⟨j - m, by omega, by rwa [show m + i + (j - m) = i + j by omega]⟩

/-- All bits below the highest one are set. -/
theorem smear_eq {y : Nat} (positive : y ≠ 0) (small : y < 2 ^ 32) {z : Nat}
    (seen : ∀ i, z.testBit i = true ↔ ∃ j < 32, y.testBit (i + j)) :
    z = 2 ^ (Nat.log2 y + 1) - 1 := by
  have bound : Nat.log2 y < 32 := (Nat.log2_lt positive).mpr small
  apply Nat.eq_of_testBit_eq
  intro i
  rw [Nat.testBit_two_pow_sub_one, Bool.eq_iff_iff, seen, decide_eq_true_iff]
  constructor
  · rintro ⟨j, -, set⟩
    have reaches := Nat.ge_two_pow_of_testBit set
    have below := (Nat.le_log2 positive).mpr reaches
    omega
  · intro below
    refine ⟨Nat.log2 y - i, by omega, ?_⟩
    rw [show i + (Nat.log2 y - i) = Nat.log2 y by omega]
    exact Nat.testBit_log2 positive

theorem kroundup32_eq {x : Nat} (positive : khint (x + (2 ^ 32 - 1)) ≠ 0) :
    kroundup32 x = khint (2 ^ (Nat.log2 (khint (x + (2 ^ 32 - 1))) + 1)) := by
  have small : khint (x + (2 ^ 32 - 1)) < 2 ^ 32 := Nat.mod_lt _ (by decide)
  unfold kroundup32
  simp only
  revert positive small
  generalize khint (x + (2 ^ 32 - 1)) = y
  intro positive small
  have seen₀ (i : Nat) : y.testBit i = true ↔ ∃ j < 1, y.testBit (i + j) := by simp
  have seen := smear_testBit (smear_testBit (smear_testBit (smear_testBit (smear_testBit seen₀))))
  rw [smear_eq positive small seen, Nat.sub_add_cancel (Nat.one_le_two_pow)]

/-- `kroundup32` gives the next power of two, or 0 where that has more than 32 bits; a request for 0
wraps around before it is rounded. -/
theorem kroundup32_spec (x : Nat) :
    kroundup32 x = 0 ∧ ¬ (1 ≤ x ∧ x ≤ 2 ^ 31) ∨
      ∃ bits ≤ 31, kroundup32 x = 2 ^ bits ∧
        (1 ≤ x → x ≤ 2 ^ 31 → x ≤ 2 ^ bits ∧ (bits = 0 ∨ 2 ^ (bits - 1) < x)) := by
  have before (low : 1 ≤ x) (high : x ≤ 2 ^ 31) : khint (x + (2 ^ 32 - 1)) = x - 1 := by
    rw [khint, show x + (2 ^ 32 - 1) = x - 1 + 2 ^ 32 by omega, Nat.add_mod_right]
    exact Nat.mod_eq_of_lt (by omega)
  by_cases zero : khint (x + (2 ^ 32 - 1)) = 0
  · refine .inr ⟨0, by omega, ?_, fun low high => ?_⟩
    · unfold kroundup32
      simp only [zero]
      decide
    · have one := before low high
      exact ⟨by omega, .inl rfl⟩
  · have below : Nat.log2 (khint (x + (2 ^ 32 - 1))) < 32 :=
      (Nat.log2_lt zero).mpr (Nat.mod_lt _ (by decide))
    have least := Nat.log2_self_le zero
    rw [kroundup32_eq zero]
    by_cases bound : Nat.log2 (khint (x + (2 ^ 32 - 1))) < 31
    · have power : 2 ^ (Nat.log2 (khint (x + (2 ^ 32 - 1))) + 1) ≤ 2 ^ 31 :=
        Nat.pow_le_pow_right (by omega) (by omega)
      refine .inr ⟨_, by omega, khint_of_lt (by omega), fun low high => ?_⟩
      have above : khint (x + (2 ^ 32 - 1)) < 2 ^ (Nat.log2 (khint (x + (2 ^ 32 - 1))) + 1) :=
        Nat.lt_log2_self
      rw [Nat.add_sub_cancel]
      rw [before low high] at above least ⊢
      exact ⟨by omega, .inr (by omega)⟩
    · have top : Nat.log2 (khint (x + (2 ^ 32 - 1))) = 31 := by omega
      refine .inl ⟨by rw [top]; rfl, fun ⟨low, high⟩ => ?_⟩
      rw [before low high] at top least
      rw [top] at least
      omega

theorem hashUpper_eq : hashUpper = 6935543426150564 * 2 ^ (-53 : ℤ) := by
  apply Binary64.roundTo_of_near
  · exact ⟨6935543426150564, -53, by norm_num, by norm_num, by norm_num, by norm_num⟩
  · norm_num
  · rw [abs_lt]
    constructor <;> norm_num

/-- On powers of two, the product and the sum are exact. -/
theorem upperOf_eq {bits : Nat} (low : 2 ≤ bits) (high : bits ≤ 31) :
    upperOf (2 ^ bits) = (77 * 2 ^ bits + 50) / 100 := by
  have product : ((2 ^ bits : ℕ) : ℚ) * hashUpper = 6935543426150564 * 2 ^ (bits - 53 : ℤ) := by
    rw [hashUpper_eq, sub_eq_add_neg, zpow_add₀ two_ne_zero, zpow_natCast]
    push_cast
    ring
  have sum : (6935543426150564 : ℚ) * 2 ^ (bits - 53 : ℤ) + 1 / 2 =
      ((6935543426150564 + 2 ^ (52 - bits) : ℕ) : ℚ) * 2 ^ (bits - 53 : ℤ) := by
    have half : (2 : ℚ) ^ (52 - bits) * 2 ^ (bits - 53 : ℤ) = 1 / 2 := by
      rw [← zpow_natCast, ← zpow_add₀ two_ne_zero, show ((52 - bits : ℕ) : ℤ) + (bits - 53) = -1 by omega]
      norm_num
    push_cast
    rw [add_mul, half]
  have exact₁ := Binary64.roundTo_of_representable
    (q := 6935543426150564 * 2 ^ (bits - 53 : ℤ))
    ⟨6935543426150564, bits - 53, by norm_num, by omega, by omega, by norm_num⟩
  have small : 6935543426150564 + 2 ^ (52 - bits) < 2 ^ 53 := by
    have := Nat.pow_le_pow_right (show 0 < 2 by decide) (show 52 - bits ≤ 50 by omega)
    omega
  have exact₂ := Binary64.roundTo_of_representable
    ⟨6935543426150564 + 2 ^ (52 - bits), bits - 53, small, by omega, by omega, rfl⟩
  rw [upperOf, product, exact₁, sum, exact₂]
  clear product sum exact₁ exact₂ small
  interval_cases bits <;> norm_num <;> rfl

theorem upperOf_lt {bits : Nat} (low : 2 ≤ bits) (high : bits ≤ 31) : upperOf (2 ^ bits) < 2 ^ bits := by
  have four : 2 ^ 2 ≤ 2 ^ bits := Nat.pow_le_pow_right two_pos low
  rw [upperOf_eq low high]
  omega

/-- More than half of the buckets may be used. -/
theorem half_lt_upperOf {bits : Nat} (low : 2 ≤ bits) (high : bits ≤ 31) :
    2 ^ bits < 2 * upperOf (2 ^ bits) := by
  have four : 2 ^ 2 ≤ 2 ^ bits := Nat.pow_le_pow_right two_pos low
  rw [upperOf_eq low high]
  omega

end Arithmetic

/-! ## Tables as slots -/

variable {κ ν β : Type}

def slotOf (flag : Flag) (key : Option κ) (val : Option ν) : Slot (κ × Option ν) :=
  if flag.empty then .empty
  else if flag.deleted then .deleted
  else key.elim .deleted fun k => .full (k, val)

/-- The slots that flags and arrays stand for. -/
def slots (flags : List UInt32) (keys : List (Option κ)) (vals : List (Option ν)) (i : Nat) :
    Slot (κ × Option ν) :=
  (flagAt flags i).elim .empty fun flag => slotOf flag keys[i]?.join vals[i]?.join

def Kh.slots (h : Kh κ ν) : Nat → Slot (κ × Option ν) := Khash.slots h.flags h.keys h.vals

/-- There are flags for `2 ^ bits` buckets, and a bucket with an entry has a key. -/
structure Filled (bits : Nat) (flags : List UInt32) (keys : List (Option κ)) : Prop where
  words : flags.length = acFsize (2 ^ bits)
  live : ∀ i < 2 ^ bits, ∀ f, flagAt flags i = some f → f.Live → ∃ k, keys[i]? = some (some k)

/-- A bucket: its flag, and what stands in the slot. -/
theorem Filled.bucket {bits i : Nat} {flags : List UInt32} {keys : List (Option κ)}
    (filled : Filled bits flags keys) (slot : i < 2 ^ bits) (vals : List (Option ν)) :
    (∃ d, flagAt flags i = some ⟨true, d⟩) ∧ slots flags keys vals i = .empty ∨
    flagAt flags i = some ⟨false, true⟩ ∧ slots flags keys vals i = .deleted ∨
    ∃ k, flagAt flags i = some ⟨false, false⟩ ∧ keys[i]? = some (some k) ∧
      slots flags keys vals i = .full (k, vals[i]?.join) := by
  obtain ⟨⟨empty, deleted⟩, there⟩ := exists_flagAt filled.words.ge slot
  rw [slots, there]
  cases empty with
  | true => exact .inl ⟨⟨deleted, rfl⟩, rfl⟩
  | false =>
      cases deleted with
      | true => exact .inr (.inl ⟨rfl, rfl⟩)
      | false =>
          obtain ⟨k, read⟩ := filled.live i slot _ there ⟨rfl, rfl⟩
          exact .inr (.inr ⟨k, rfl, read, by rw [read]; rfl⟩)

/-- A table of `2 ^ bits` buckets. -/
structure Shape (h : Kh κ ν) (bits : Nat) : Prop where
  nBuckets : h.nBuckets = 2 ^ bits
  low : 2 ≤ bits
  high : bits ≤ 31
  filled : Filled bits h.flags h.keys
  keys : h.keys.length = 2 ^ bits
  vals : h.vals.length = 2 ^ bits

section Loops

variable [DecidableEq β] {content : κ → β} {start : β → Nat} {h : Kh κ ν} {bits : Nat} {key : κ}
  {stop step : Nat}

/-- The key of an entry, as tables compare it. -/
def entryKey (content : κ → β) (e : κ × Option ν) : β := content e.1

variable (content) in
/-- The probing loops go on where the search does. -/
theorem passes_eq (shape : Shape h bits) (key : κ) {i : Nat} (slot : i < 2 ^ bits) :
    ∃ goes, passes content h key i = some goes ∧
      (goes = false ↔ Stops (entryKey content) h.slots (content key) i) := by
  unfold passes
  rw [acIsempty_eq, acIsdel_eq, Kh.slots]
  rcases shape.filled.bucket slot h.vals with ⟨⟨d, flag⟩, is⟩ | ⟨flag, is⟩ | ⟨k, flag, read, is⟩
  · exact ⟨false, by simp [flag], by simp [Stops, is]⟩
  · exact ⟨true, by simp [flag], by simp [Stops, is]⟩
  · refine ⟨decide (content k ≠ content key), by simp [flag, read], ?_⟩
    simp [Stops, is, entryKey]

theorem passes_goes (shape : Shape h bits) (key : κ) {i : Nat} (slot : i < 2 ^ bits)
    (goes : ¬ Stops (entryKey content) h.slots (content key) i) :
    passes content h key i = some true := by
  obtain ⟨result, passes, iff⟩ := passes_eq content shape key slot
  cases result with
  | true => exact passes
  | false => exact absurd (iff.mp rfl) goes

theorem passes_stops (shape : Shape h bits) (key : κ) {i : Nat} (slot : i < 2 ^ bits)
    (stops : Stops (entryKey content) h.slots (content key) i) :
    passes content h key i = some false := by
  obtain ⟨result, passes, iff⟩ := passes_eq content shape key slot
  rwa [iff.mpr stops] at passes

/-- The loop of `kh_get` ends where the search does. -/
theorem khGetLoop_spec (shape : Shape h bits)
    (ends : Ends bits start (entryKey content) h.slots (content key) stop) (bound : stop < 2 ^ bits)
    {fuel : Nat} (within : step ≤ stop) (enough : stop - step < fuel) :
    ∃ x, khGetLoop content h key (2 ^ bits - 1) (probe bits (start (content key)) 0) fuel
        (probe bits (start (content key)) step) step = some x ∧
      (h.slots (probe bits (start (content key)) stop) = .empty ∧ x = h.nBuckets ∨
        h.slots (probe bits (start (content key)) stop) ≠ .empty ∧
          x = probe bits (start (content key)) stop) := by
  induction fuel generalizing step with
  | zero => omega
  | succ fuel ih =>
      rw [khGetLoop]
      rcases within.lt_or_eq with less | rfl
      · have there := passes_goes shape key (probe_lt ..) (ends.goes step less)
        have apart : probe bits (start (content key)) (step + 1) ≠ probe bits (start (content key)) 0 :=
          (probe_ne_of_lt (Nat.succ_pos step) (by omega)).symm
        have fewer : stop - (step + 1) < fuel := by omega
        obtain ⟨x, loop, found⟩ := ih less fewer
        refine ⟨x, ?_, found⟩
        simp only [there, nextBucket_eq (shape.high.trans (by decide)), apart, Option.bind_eq_bind,
          Option.bind_some, if_true, if_false]
        exact loop
      · have there := passes_stops shape key (probe_lt ..) ends.stops
        simp only [there, Option.bind_eq_bind, Option.bind_some, Bool.false_eq_true, if_false,
          acIseither_eq, Kh.slots]
        rcases shape.filled.bucket (probe_lt bits (start (content key)) step) h.vals with
          ⟨⟨d, flag⟩, is⟩ | ⟨flag, is⟩ | ⟨k, flag, read, is⟩
        · exact ⟨h.nBuckets, by simp [flag], by simp [is]⟩
        · rcases ends.stops with empty | ⟨e, full, -⟩
          · rw [Kh.slots, is] at empty
            cases empty
          · rw [Kh.slots, is] at full
            cases full
        · exact ⟨probe bits (start (content key)) step, by simp [flag], by simp [is]⟩

/-- The loop of `kh_put` ends at the entry with the key, or at a bucket without an entry that may
take it: the last deleted one on the way, or the empty one at the end. -/
theorem khPutLoop_spec (shape : Shape h bits)
    (ends : Ends bits start (entryKey content) h.slots (content key) stop) (bound : stop < 2 ^ bits)
    {fuel site : Nat} (within : step ≤ stop) (enough : stop - step < fuel)
    (before : site = h.nBuckets ∨ ∃ other < step, site = probe bits (start (content key)) other ∧
      h.slots site = .deleted) :
    ∃ last ≤ stop, khPutLoop content h key (2 ^ bits - 1) (probe bits (start (content key)) 0) fuel
        (probe bits (start (content key)) step) step site =
          some (probe bits (start (content key)) last) ∧
      (last = stop ∨ h.slots (probe bits (start (content key)) stop) = .empty ∧
        h.slots (probe bits (start (content key)) last) = .deleted) := by
  induction fuel generalizing step site with
  | zero => omega
  | succ fuel ih =>
      rw [khPutLoop]
      rcases within.lt_or_eq with less | rfl
      · have there := passes_goes shape key (probe_lt ..) (ends.goes step less)
        have apart : probe bits (start (content key)) (step + 1) ≠ probe bits (start (content key)) 0 :=
          (probe_ne_of_lt (Nat.succ_pos step) (by omega)).symm
        have fewer : stop - (step + 1) < fuel := by clear before; omega
        simp only [there, nextBucket_eq (shape.high.trans (by decide)), apart, Option.bind_eq_bind,
          Option.bind_some, if_true, if_false, acIsdel_eq]
        rcases shape.filled.bucket (probe_lt bits (start (content key)) step) h.vals with
          ⟨-, is⟩ | ⟨flag, is⟩ | ⟨k, flag, -, -⟩
        · exact absurd (.inl is) (ends.goes step less)
        · simp only [flag, Option.map_some, Option.bind_some, if_true]
          exact ih less fewer (.inr ⟨step, Nat.lt_succ_self step, rfl, is⟩)
        · simp only [flag, Option.map_some, Option.bind_some, Bool.false_eq_true, if_false]
          refine ih less fewer (before.imp_right ?_)
          rintro ⟨other, earlier, same, deleted⟩
          exact ⟨other, earlier.trans (Nat.lt_succ_self step), same, deleted⟩
      · have there := passes_stops shape key (probe_lt ..) ends.stops
        simp only [there, Option.bind_eq_bind, Option.bind_some, Bool.false_eq_true, if_false,
          acIsempty_eq]
        have far : probe bits (start (content key)) step ≠ h.nBuckets := by
          rw [shape.nBuckets]
          exact (probe_lt ..).ne
        rcases shape.filled.bucket (probe_lt bits (start (content key)) step) h.vals with
          ⟨⟨d, flag⟩, is⟩ | ⟨flag, is⟩ | ⟨k, flag, -, -⟩
        · rcases before with rfl | ⟨other, earlier, rfl, deleted⟩
          · exact ⟨step, le_rfl, by simp [flag], .inl rfl⟩
          · have inside : probe bits (start (content key)) other ≠ h.nBuckets := by
              rw [shape.nBuckets]
              exact (probe_lt ..).ne
            exact ⟨other, earlier.le, by simp [flag, inside], .inr ⟨is, deleted⟩⟩
        · rcases ends.stops with empty | ⟨e, full, -⟩
          · rw [Kh.slots, is] at empty
            cases empty
          · rw [Kh.slots, is] at full
            cases full
        · exact ⟨step, le_rfl, by simp [flag], .inl rfl⟩

end Loops

/-- The loop of `kh_resize` that looks for an empty bucket ends at the first one. -/
theorem emptyBucket_spec {bits s stop step fuel : Nat} {newFlags : List UInt32}
    {keys : List (Option κ)} (high : bits ≤ 31) (filled : Filled bits newFlags keys)
    (vals : List (Option ν))
    (used : ∀ before < stop, slots newFlags keys vals (probe bits s before) ≠ .empty)
    (empty : slots newFlags keys vals (probe bits s stop) = .empty) (within : step ≤ stop)
    (enough : stop - step < fuel) :
    emptyBucket newFlags (2 ^ bits - 1) fuel (probe bits s step) step = some (probe bits s stop) := by
  induction fuel generalizing step with
  | zero => omega
  | succ fuel ih =>
      rw [emptyBucket, acIsempty_eq]
      rcases within.lt_or_eq with less | rfl
      · rw [nextBucket_eq (high.trans (by decide))]
        have fewer : stop - (step + 1) < fuel := by omega
        have later := ih less fewer
        rcases filled.bucket (probe_lt bits s step) vals with ⟨-, is⟩ | ⟨flag, -⟩ | ⟨k, flag, -, -⟩
        · exact absurd is (used step less)
        · simpa [flag] using later
        · simpa [flag] using later
      · rcases filled.bucket (probe_lt bits s step) vals with ⟨⟨d, flag⟩, -⟩ | ⟨-, is⟩ | ⟨k, -, -, is⟩
        · simp [flag]
        · rw [is] at empty
          cases empty
        · rw [is] at empty
          cases empty

end Khash
end Pone
