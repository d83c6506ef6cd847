import Mathlib.Data.BitVec
import Mathlib.Data.Fintype.EquivFin
import Pone.Arith

/-!
# Random numbers

`random.c`: the generator xorshift128+ with its seed from `/dev/urandom`, and the integers that
`random.rand_int` makes of its outputs.
-/

namespace Pone
namespace Random

open Arith (Outcome)

/-- `world->random_key` -/
structure Key where
  s0 : BitVec 64
  s1 : BitVec 64
  deriving DecidableEq

def Key.zero : Key := ⟨0, 0⟩

/-! ## The recurrence -/

/-- What a step makes of the first word. -/
def mix (x : BitVec 64) : BitVec 64 :=
  let t := x ^^^ x <<< 23
  t ^^^ t >>> 17

/-- The step of xorshift128+. -/
def next (key : Key) : Key := ⟨key.s1, mix key.s0 ^^^ (key.s1 ^^^ key.s1 >>> 26)⟩

/-- The output of the step from this state. -/
def output (key : Key) : BitVec 64 := (next key).s1 + (next key).s0

/-! ## The code -/

/-- The generator, with the number of times that `/dev/urandom` was opened. -/
structure Generator where
  key : Key
  opened : Nat
  deriving DecidableEq

/-- `pone_random_uint64`; `urandom` says what each opening of the device gives, or the message of the
exception. -/
def poneRandomUint64 (urandom : Nat → Except String Key) (world : Generator) :
    Outcome (BitVec 64 × Generator) := do
  let world ←
    if world.key.s0 = 0 ∧ world.key.s0 = 0 then
      match urandom world.opened with
      | .ok key => Outcome.value { key, opened := world.opened + 1 }
      | .error message => .throws message
    else Outcome.value world
  let s1 := world.key.s0
  let s0 := world.key.s1
  let s1 := s1 ^^^ s1 <<< 23
  let last := s1 ^^^ s0 ^^^ s1 >>> 17 ^^^ s0 >>> 26
  Outcome.value (last + s0, { world with key := ⟨s0, last⟩ })

/-- The outputs of so many calls with the states behind them, and the generator behind the last. -/
def calls (urandom : Nat → Except String Key) :
    Nat → Generator → Outcome (List (BitVec 64 × Key) × Generator)
  | 0, world => .value ([], world)
  | n + 1, world => do
      let (i, world) ← poneRandomUint64 urandom world
      let (rest, last) ← calls urandom n world
      Outcome.value ((i, world.key) :: rest, last)

/-- The first outputs of the recurrence, with the states behind them. -/
def outputs : Nat → Key → List (BitVec 64 × Key)
  | 0, _ => []
  | n + 1, key => (output key, next key) :: outputs n (next key)

/-- `pone_random_int_range`; the span becomes unsigned for the remainder. -/
def poneRandomIntRange (urandom : Nat → Except String Key) (world : Generator) (a b : Int) :
    Outcome (Int × Generator) := do
  let (i, world) ← poneRandomUint64 urandom world
  let difference ← Outcome.ofC (CLong.sub b a)
  let span ← Outcome.ofC (CLong.add difference 1)
  if BitVec.ofInt 64 span = 0 then Outcome.undefined
  else Outcome.value ((i % BitVec.ofInt 64 span + BitVec.ofInt 64 a).toInt, world)

/-! ## The step is one to one -/

theorem xor_exchange {w : Nat} (a b c d : BitVec w) :
    (a ^^^ b) ^^^ (c ^^^ d) = (a ^^^ c) ^^^ (b ^^^ d) := by
  ac_rfl

theorem mix_xor (x y : BitVec 64) : mix (x ^^^ y) = mix x ^^^ mix y := by
  simp only [mix]
  rw [BitVec.shiftLeft_xor_distrib, xor_exchange, BitVec.ushiftRight_xor_distrib, xor_exchange]

theorem eq_zero_of_shiftLeft {x : BitVec 64} (fixed : x ^^^ x <<< 23 = 0) : x = 0 := by
  have same : x.toNat = (x <<< 23).toNat := congrArg BitVec.toNat (BitVec.xor_eq_zero_iff.mp fixed)
  rw [BitVec.toNat_shiftLeft, Nat.shiftLeft_eq] at same
  have multiple : x.toNat * 2 ^ 23 = x.toNat + 2 ^ 64 * (x.toNat * 2 ^ 23 / 2 ^ 64) := by
    have parts := Nat.mod_add_div (x.toNat * 2 ^ 23) (2 ^ 64)
    rw [← same] at parts
    exact parts.symm
  -- the factor that is left is odd
  have divides : 2 ^ 64 ∣ x.toNat * (2 ^ 23 - 1) := by
    refine ⟨x.toNat * 2 ^ 23 / 2 ^ 64, ?_⟩
    rw [Nat.mul_sub, Nat.mul_one]
    exact Nat.sub_eq_of_eq_add' multiple
  have whole : 2 ^ 64 ∣ x.toNat := Nat.Coprime.dvd_of_dvd_mul_right (by decide) divides
  exact BitVec.eq_of_toNat_eq (Nat.eq_zero_of_dvd_of_lt whole x.isLt)

theorem eq_zero_of_shiftRight {x : BitVec 64} (fixed : x ^^^ x >>> 17 = 0) : x = 0 := by
  have same : x.toNat = (x >>> 17).toNat := congrArg BitVec.toNat (BitVec.xor_eq_zero_iff.mp fixed)
  rw [BitVec.toNat_ushiftRight, Nat.shiftRight_eq_div_pow] at same
  refine BitVec.eq_of_toNat_eq ?_
  have zero : (0 : BitVec 64).toNat = 0 := rfl
  omega

theorem mix_eq_zero {x : BitVec 64} (vanishes : mix x = 0) : x = 0 :=
  eq_zero_of_shiftLeft (eq_zero_of_shiftRight vanishes)

theorem mix_injective : Function.Injective mix := by
  intro x y same
  have vanishes : mix (x ^^^ y) = 0 := by rw [mix_xor, same, BitVec.xor_self]; rfl
  exact BitVec.xor_eq_zero_iff.mp (mix_eq_zero vanishes)

theorem mix_surjective : Function.Surjective mix := by
  have : Finite (BitVec 64) := Finite.of_equiv _ BitVec.equivFin.symm.toEquiv
  exact Finite.injective_iff_surjective.mp mix_injective

/-- A state that is not zero stays so. -/
theorem next_ne_zero {key : Key} (nonzero : key ≠ .zero) : next key ≠ .zero := by
  intro vanishes
  have second : key.s1 = 0 := congrArg Key.s0 vanishes
  have mixed : mix key.s0 ^^^ (key.s1 ^^^ key.s1 >>> 26) = 0 := congrArg Key.s1 vanishes
  rw [second] at mixed
  have first : key.s0 = 0 := mix_eq_zero (by simpa using mixed)
  exact nonzero (by cases key; cases first; cases second; rfl)

theorem iterate_ne_zero {key : Key} (nonzero : key ≠ .zero) (n : Nat) : next^[n] key ≠ .zero := by
  induction n generalizing key with
  | zero => exact nonzero
  | succ n ih => exact ih (next_ne_zero nonzero)

/-- Every number is an output, and from a state in which the device is not read. -/
theorem exists_output (i : BitVec 64) : ∃ key : Key, key.s0 ≠ 0 ∧ output key = i := by
  by_cases zero : i = 0
  · obtain ⟨x, mixed⟩ := mix_surjective (-2)
    refine ⟨⟨x, 1⟩, ?_, ?_⟩
    · rintro rfl
      exact absurd mixed (by decide)
    · simp only [output, next, mixed, zero]
      decide
  · obtain ⟨x, mixed⟩ := mix_surjective i
    refine ⟨⟨x, 0⟩, ?_, ?_⟩
    · rintro rfl
      exact zero (mixed.symm.trans (by decide))
    · simp [output, next, mixed]

/-! ## A call -/

variable {urandom : Nat → Except String Key} {world world' : Generator} {i : BitVec 64}

theorem uint64_of_ne_zero (first : world.key.s0 ≠ 0) :
    poneRandomUint64 urandom world =
      .value (output world.key, { world with key := next world.key }) := by
  have tested : ¬ (world.key.s0 = 0 ∧ world.key.s0 = 0) := fun both => first both.1
  have same : ∀ t s0 : BitVec 64, t ^^^ s0 ^^^ t >>> 17 ^^^ s0 >>> 26 =
      t ^^^ t >>> 17 ^^^ (s0 ^^^ s0 >>> 26) := by
    intro t s0
    rw [BitVec.xor_assoc, xor_exchange]
  simp only [poneRandomUint64, if_neg tested, Arith.Outcome.value_bind, same]
  rfl

/-- A call that gives a number reads the device exactly if the first word is zero. -/
theorem opened_of_uint64 (called : poneRandomUint64 urandom world = .value (i, world')) :
    world'.opened = if world.key.s0 = 0 then world.opened + 1 else world.opened := by
  by_cases zero : world.key.s0 = 0
  · rw [if_pos zero]
    simp only [poneRandomUint64, if_pos (And.intro zero zero)] at called
    cases read : urandom world.opened with
    | error message =>
        rw [read] at called
        cases called
    | ok key =>
        rw [read] at called
        cases called
        rfl
  · rw [if_neg zero]
    rw [uint64_of_ne_zero zero] at called
    cases called
    rfl

/-! ## Many calls -/

theorem calls_succ (n : Nat) :
    calls urandom (n + 1) world = (do
      let (i, world) ← poneRandomUint64 urandom world
      let (rest, last) ← calls urandom n world
      Outcome.value ((i, world.key) :: rest, last)) := rfl

/-- In states with a first word, the calls follow the recurrence. -/
theorem calls_of_ne_zero {n : Nat} (first : ∀ k < n, (next^[k] world.key).s0 ≠ 0) :
    calls urandom n world =
      .value (outputs n world.key, { world with key := next^[n] world.key }) := by
  induction n generalizing world with
  | zero => rfl
  | succ n ih =>
      have later : calls urandom n { world with key := next world.key } = .value _ :=
        ih fun k inside => first (k + 1) (Nat.succ_lt_succ inside)
      rw [calls_succ, uint64_of_ne_zero (first 0 (Nat.succ_pos n)), Arith.Outcome.value_bind]
      simp only
      rw [later]
      rfl

theorem calls_succ_eq_value {n : Nat} {results : List (BitVec 64 × Key)}
    (called : calls urandom (n + 1) world = .value (results, world')) :
    ∃ i between rest, poneRandomUint64 urandom world = .value (i, between) ∧
      calls urandom n between = .value (rest, world') ∧ results = (i, between.key) :: rest := by
  rw [calls_succ] at called
  obtain ⟨⟨i, between⟩, one, called⟩ := Arith.Outcome.bind_eq_value_iff.mp called
  obtain ⟨⟨rest, last⟩, others, called⟩ := Arith.Outcome.bind_eq_value_iff.mp called
  cases called
  exact ⟨i, between, rest, one, others, rfl⟩

theorem opened_le_of_calls {n : Nat} {results : List (BitVec 64 × Key)}
    (called : calls urandom n world = .value (results, world')) : world.opened ≤ world'.opened := by
  induction n generalizing world results with
  | zero =>
      cases called
      exact Nat.le_refl _
  | succ n ih =>
      obtain ⟨i, between, rest, one, others, -⟩ := calls_succ_eq_value called
      have step := opened_of_uint64 one
      have later := ih others
      split at step <;> omega

/-- Calls that do not open the device meet only states with a first word. -/
theorem first_of_calls {n : Nat} {results : List (BitVec 64 × Key)}
    (called : calls urandom n world = .value (results, world'))
    (closed : world'.opened = world.opened) : ∀ k < n, (next^[k] world.key).s0 ≠ 0 := by
  induction n generalizing world results with
  | zero => exact fun k inside => absurd inside (Nat.not_lt_zero k)
  | succ n ih =>
      obtain ⟨i, between, rest, one, others, -⟩ := calls_succ_eq_value called
      have later := opened_le_of_calls others
      have first : world.key.s0 ≠ 0 := by
        intro zero
        have step := opened_of_uint64 one
        rw [if_pos zero] at step
        omega
      rw [uint64_of_ne_zero first] at one
      cases one
      intro k inside
      cases k with
      | zero => exact first
      | succ k => exact ih others closed k (Nat.lt_of_succ_lt_succ inside)

/-- The first calls follow the recurrence from the seed, and the device stays closed. -/
def Follows (urandom : Nat → Except String Key) (seed : Key) (opened n : Nat) : Prop :=
  calls urandom n ⟨seed, opened⟩ = .value (outputs n seed, ⟨next^[n] seed, opened⟩)

/-- The recurrence does not come to zero, but the calls follow it exactly as long as no state before
a call has a zero for its first word. -/
theorem outputs_follow_iff (urandom : Nat → Except String Key) (seed : Key) (opened : Nat)
    (nonzero : seed ≠ .zero) :
    (∀ n, next^[n] seed ≠ .zero) ∧
      ∀ n, Follows urandom seed opened n ↔ ∀ k < n, (next^[k] seed).s0 ≠ 0 := by
  refine ⟨iterate_ne_zero nonzero, fun n => ⟨fun follows => first_of_calls follows rfl, ?_⟩⟩
  intro first
  have world_key : (⟨seed, opened⟩ : Generator).key = seed := rfl
  rw [← world_key] at first
  exact calls_of_ne_zero first

theorem outputs_follow_iff_one :
    Follows (fun _ => .error "") ⟨1, 0⟩ 0 1 ↔ ∀ k < 1, (next^[k] (⟨1, 0⟩ : Key)).s0 ≠ 0 :=
  (outputs_follow_iff (fun _ => .error "") ⟨1, 0⟩ 0 (by decide)).2 1

/-- From the seed 1, 0 the second call reads the device. -/
theorem not_outputs_follow :
    (⟨1, 0⟩ : Key) ≠ .zero ∧ ¬ Follows (fun _ => .ok ⟨3, 5⟩) ⟨1, 0⟩ 1 2 := by
  refine ⟨by decide, fun follows => ?_⟩
  have first := first_of_calls follows rfl 1 (by decide)
  exact first (by decide)

/-! ## Integers of a range -/

/-- Every number that is given is in the range, the remainder is defined, and every number of the
range is given, in some state that the device has no part in. -/
structure Ranged (a b : Int) : Prop where
  inside : ∀ urandom world i world', poneRandomUint64 urandom world = .value (i, world') →
    ∃ n, poneRandomIntRange urandom world a b = .value (n, world') ∧ a ≤ n ∧ n ≤ b
  all : ∀ n, a ≤ n → n ≤ b → ∃ key, ∀ urandom opened,
    poneRandomIntRange urandom ⟨key, opened⟩ a b = .value (n, ⟨next key, opened⟩)

theorem intRange_of_uint64 (called : poneRandomUint64 urandom world = .value (i, world')) (a b : Int) :
    poneRandomIntRange urandom world a b = (do
      let difference ← Outcome.ofC (CLong.sub b a)
      let span ← Outcome.ofC (CLong.add difference 1)
      if BitVec.ofInt 64 span = 0 then Outcome.undefined
      else Outcome.value ((i % BitVec.ofInt 64 span + BitVec.ofInt 64 a).toInt, world')) := by
  rw [poneRandomIntRange, called]
  rfl

/-- The span overflows from half of the numbers on. -/
theorem intRange_overflow (called : poneRandomUint64 urandom world = .value (i, world')) {a b : Int}
    (wide : CLong.maximum ≤ b - a) : poneRandomIntRange urandom world a b = .undefined := by
  rw [intRange_of_uint64 called]
  by_cases fits : CLong.Fits (b - a)
  · have beyond : ¬ CLong.Fits (b - a + 1) := fun inside => by
      have bound := inside.2
      omega
    rw [CLong.sub, CLong.checked_of_fits fits]
    simp only [Outcome.ofC, Arith.Outcome.value_bind, CLong.add, CLong.checked_of_not_fits beyond]
    rfl
  · rw [CLong.sub, CLong.checked_of_not_fits fits]
    rfl

/-- The wrap-around of the sum in 64 bits is none. -/
theorem toInt_remainder_add {i : BitVec 64} {a : Int} {span : Nat} (positive : 0 < span)
    (narrow : span < 2 ^ 63) (lowest : -2 ^ 63 ≤ a) (highest : a + span ≤ 2 ^ 63) :
    (i % BitVec.ofInt 64 span + BitVec.ofInt 64 a).toInt = (i.toNat % span : Nat) + a := by
  have whole : (BitVec.ofInt 64 span).toNat = span := by
    rw [BitVec.toNat_ofInt]
    omega
  have small : i.toNat % span < span := Nat.mod_lt _ positive
  have rest : (i % BitVec.ofInt 64 span).toInt = (i.toNat % span : Nat) := by
    have unsigned : (i % BitVec.ofInt 64 span).toNat = i.toNat % span := by
      rw [BitVec.toNat_umod, whole]
    rw [BitVec.toInt_eq_toNat_of_lt (by rw [unsigned]; omega), unsigned]
  rw [BitVec.toInt_add, BitVec.toInt_ofInt, rest, Int.add_bmod_bmod]
  exact Int.bmod_eq_of_le (by omega) (by omega)

theorem intRange_eq (called : poneRandomUint64 urandom world = .value (i, world')) {a b : Int}
    (long : CLong.Fits a ∧ CLong.Fits b) (ordered : a ≤ b) (narrow : b - a < CLong.maximum) :
    poneRandomIntRange urandom world a b =
      .value ((i.toNat % (b - a + 1).toNat : Nat) + a, world') := by
  obtain ⟨longA, longB⟩ := long
  rw [CLong.fits_iff] at longA longB
  unfold CLong.maximum at narrow
  have difference : CLong.sub b a = some (b - a) :=
    CLong.checked_of_fits (by rw [CLong.fits_iff]; omega)
  have span : CLong.add (b - a) 1 = some (b - a + 1) :=
    CLong.checked_of_fits (by rw [CLong.fits_iff]; omega)
  have nat : b - a + 1 = ((b - a + 1).toNat : Int) := by omega
  have nonzero : BitVec.ofInt 64 (b - a + 1) ≠ 0 := by
    intro zero
    have same := congrArg BitVec.toNat zero
    rw [BitVec.toNat_ofInt] at same
    have none_left : (0 : BitVec 64).toNat = 0 := rfl
    omega
  rw [intRange_of_uint64 called, difference]
  simp only [Outcome.ofC, Arith.Outcome.value_bind, span, if_neg nonzero]
  have sum : (i % BitVec.ofInt 64 ((b - a + 1).toNat : Int) + BitVec.ofInt 64 a).toInt =
      (i.toNat % (b - a + 1).toNat : Nat) + a :=
    toInt_remainder_add (by omega) (by omega) (by omega) (by omega)
  rw [← nat] at sum
  rw [sum]

theorem not_ranged_of_wide {a b : Int} (wide : CLong.maximum ≤ b - a) : ¬ Ranged a b := by
  intro ranged
  have called : poneRandomUint64 (fun _ => .error "") ⟨⟨1, 0⟩, 0⟩ =
      .value (output ⟨1, 0⟩, ⟨next ⟨1, 0⟩, 0⟩) := uint64_of_ne_zero (by decide)
  obtain ⟨n, given, -⟩ := ranged.inside _ _ _ _ called
  rw [intRange_overflow called wide] at given
  cases given

/-- The numbers of a range are given exactly where its span is a `long`. -/
theorem ranged_iff (a b : Int) (long : CLong.Fits a ∧ CLong.Fits b) (ordered : a ≤ b) :
    Ranged a b ↔ b - a < CLong.maximum := by
  constructor
  · intro ranged
    by_contra wide
    exact not_ranged_of_wide (Int.not_lt.mp wide) ranged
  · intro narrow
    have positive : 0 < (b - a + 1).toNat := by omega
    constructor
    · intro urandom world i world' called
      refine ⟨_, intRange_eq called long ordered narrow, by omega, ?_⟩
      have small : i.toNat % (b - a + 1).toNat < (b - a + 1).toNat := Nat.mod_lt _ positive
      omega
    · intro n above below
      obtain ⟨key, first, given⟩ := exists_output (BitVec.ofNat 64 (n - a).toNat)
      refine ⟨key, fun urandom opened => ?_⟩
      have called : poneRandomUint64 urandom ⟨key, opened⟩ = .value (output key, ⟨next key, opened⟩) :=
        uint64_of_ne_zero first
      unfold CLong.maximum at narrow
      have sum : ((n - a).toNat % 2 ^ 64 % (b - a + 1).toNat : Nat) + a = n := by
        rw [Nat.mod_eq_of_lt (by omega : (n - a).toNat < 2 ^ 64),
          Nat.mod_eq_of_lt (by omega : (n - a).toNat < (b - a + 1).toNat)]
        omega
      rw [intRange_eq called long ordered narrow, given, BitVec.toNat_ofNat, sum]

theorem ranged_iff_coin : Ranged 0 1 ↔ (1 : Int) - 0 < CLong.maximum :=
  ranged_iff 0 1 ⟨by decide, by decide⟩ (by decide)

/-- The full range, and the least that is too wide. -/
theorem not_ranged : ¬ Ranged CLong.minimum CLong.maximum ∧ ¬ Ranged (-1) (CLong.maximum - 1) :=
  ⟨not_ranged_of_wide (by decide), not_ranged_of_wide (by decide)⟩

end Random
end Pone
