import Pone.Map.Model
import Pone.Str.Subscript

/-!
# The hash of a string

Maps hash their keys by the bytes from `pone_str_ptr` on.  The hash function takes a first byte
before it compares its pointer with the end of the string, and the empty string has none.
-/

namespace Pone
namespace Str

open Map (charHash)
open Simulation (orHalt)

/-- The loop of `pone_val_hash_func` from the offset `s` on, with what is in memory there, up to the
end of the block. -/
def hashLoop (e s : Nat) (h : UInt32) : List UInt8 → Except Halt UInt32
  | [] => if s = e then .ok h else .error .wild
  | c :: memory =>
      if s = e then .ok h else hashLoop e (s + 1) ((h <<< 5) - h + charHash c) memory

/-- `pone_val_hash_func` on a block; the string is as long as `e`. -/
def hashIn (e : Nat) : List UInt8 → Except Halt UInt32
  | [] => .error .wild
  | c :: memory => if charHash c ≠ 0 then hashLoop e 1 (charHash c) memory else .ok (charHash c)

/-- `pone_val_hash_func` -/
def valHashFunc (s : State) (val : Nat) : Except Halt UInt32 := do
  let (address, len) ← orHalt .wild (strPtrLen s.strs (val + 1) val)
  let memory ← orHalt .wild (s.mem address)
  hashIn len memory

/-- `pone_val_hash_equal` -/
def valHashEqual (s : State) (a b : Nat) : Except Halt Bool := do
  let (pa, lenA) ← orHalt .wild (strPtrLen s.strs (a + 1) a)
  let (pb, lenB) ← orHalt .wild (strPtrLen s.strs (b + 1) b)
  if lenA = lenB then
    return (← orHalt .wild (readMem s.mem pa lenA)) == (← orHalt .wild (readMem s.mem pb lenA))
  else return false

/-- The hash function ends and reads these bytes of the string alone: there is a hash, and it is the
same whatever there is behind them in memory, or if there is nothing. -/
def HashesString (s : State) (val : Nat) (bytes : List UInt8) : Prop :=
  ∃ h, ∀ address len, strPtrLen s.strs (val + 1) val = some (address, len) →
    ∀ behind, valHashFunc
      { s with mem := Function.update s.mem address (some (bytes ++ behind)) } val = .ok h

/-- Both keys can be hashed, and if they are equal, to the same hash. -/
structure HashesLikeEqual (s : State) (a b : Nat) (x y : List UInt8) : Prop where
  left : HashesString s a x
  right : HashesString s b y
  consistent : valHashEqual s a b = .ok true → valHashFunc s a = valHashFunc s b

/-- The hash of a key that is not empty. -/
def hashOf : List UInt8 → UInt32
  | [] => 0
  | c :: rest =>
      if c = 0 then 0 else rest.foldl (fun h c => (h <<< 5) - h + charHash c) (charHash c)

theorem charHash_eq_zero_iff (c : UInt8) : charHash c = 0 ↔ c = 0 := by
  have byte := c.toNat_lt
  rw [charHash]
  split
  · simp [← UInt32.toNat_inj, ← UInt8.toNat_inj]
  · rename_i high
    have high' : 128 ≤ c.toNat := Nat.not_lt.mp high
    simp only [← UInt32.toNat_inj, ← UInt8.toNat_inj, UInt32.toNat_add, UInt8.toNat_toUInt32,
      UInt32.reduceToNat, UInt8.reduceToNat]
    omega

/-! ## Inside the string -/

theorem hashLoop_append (bytes behind : List UInt8) (s : Nat) (h : UInt32) :
    hashLoop (s + bytes.length) s h (bytes ++ behind) =
      .ok (bytes.foldl (fun h c => (h <<< 5) - h + charHash c) h) := by
  induction bytes generalizing s h with
  | nil => cases behind <;> simp [hashLoop]
  | cons c bytes ih =>
      have further : s ≠ s + (c :: bytes).length := by simp
      rw [List.cons_append, hashLoop, if_neg further, List.foldl_cons, List.length_cons,
        show s + (bytes.length + 1) = s + 1 + bytes.length by omega]
      exact ih (s + 1) _

theorem hashIn_append {bytes : List UInt8} (some_byte : bytes ≠ []) (behind : List UInt8) :
    hashIn bytes.length (bytes ++ behind) = .ok (hashOf bytes) := by
  cases bytes with
  | nil => exact absurd rfl some_byte
  | cons c rest =>
      rw [List.cons_append, hashIn, hashOf]
      by_cases nul : c = 0
      · rw [if_neg (not_not_intro ((charHash_eq_zero_iff c).mpr nul)), if_pos nul,
          (charHash_eq_zero_iff c).mpr nul]
      · rw [if_pos (mt (charHash_eq_zero_iff c).mp nul), if_neg nul, List.length_cons,
          Nat.add_comm]
        exact hashLoop_append rest behind 1 _

/-! ## The empty string -/

/-- Behind its end, the pointer meets the end of the block alone. -/
theorem hashLoop_past {e s : Nat} (past : e < s) (h : UInt32) (memory : List UInt8) :
    hashLoop e s h memory = .error .wild := by
  induction memory generalizing s h with
  | nil => exact if_neg (Nat.ne_of_gt past)
  | cons c memory ih =>
      rw [hashLoop, if_neg (Nat.ne_of_gt past)]
      exact ih (Nat.lt_succ_of_lt past) _

/-- The empty string has the hash of a zero byte behind it, or none. -/
theorem hashIn_zero (memory : List UInt8) :
    hashIn 0 memory = if memory.head? = some 0 then .ok 0 else .error .wild := by
  cases memory with
  | nil => rfl
  | cons c memory =>
      by_cases nul : c = 0
      · rw [hashIn, if_neg (not_not_intro ((charHash_eq_zero_iff c).mpr nul)),
          if_pos (by simp [nul]), (charHash_eq_zero_iff c).mpr nul]
      · rw [hashIn, if_pos (mt (charHash_eq_zero_iff c).mp nul), if_neg (by simp [nul])]
        exact hashLoop_past Nat.zero_lt_one _ _

/-! ## Two keys -/

section Keys

variable {s : State} {val address : Nat} {bytes behind : List UInt8}

theorem valHashFunc_eq (ptr : strPtrLen s.strs (val + 1) val = some (address, bytes.length))
    (in_mem : s.mem address = some (bytes ++ behind)) :
    valHashFunc s val = hashIn bytes.length (bytes ++ behind) := by
  simp only [valHashFunc, ptr, in_mem, orHalt, bind, Except.bind]

theorem hashesString_iff (shown : content s val = some bytes) :
    HashesString s val bytes ↔ bytes ≠ [] := by
  obtain ⟨address, behind, ptr, -⟩ := ptr_of_content shown
  have moved (behind : List UInt8) : valHashFunc
      { s with mem := Function.update s.mem address (some (bytes ++ behind)) } val =
        hashIn bytes.length (bytes ++ behind) :=
    valHashFunc_eq (s := { s with mem := Function.update s.mem address (some (bytes ++ behind)) })
      ptr (Function.update_self ..)
  constructor
  · rintro ⟨h, reads⟩ rfl
    have alone := reads address _ ptr []
    rw [moved, List.append_nil, List.length_nil, hashIn_zero] at alone
    cases alone
  · intro some_byte
    refine ⟨hashOf bytes, fun address' len' ptr' behind => ?_⟩
    obtain ⟨rfl, rfl⟩ := Prod.mk.inj (Option.some.inj (ptr.symm.trans ptr'))
    rw [moved]
    exact hashIn_append some_byte behind

theorem valHashFunc_of_content (shown : content s val = some bytes) (some_byte : bytes ≠ []) :
    valHashFunc s val = .ok (hashOf bytes) := by
  obtain ⟨address, behind, ptr, in_mem⟩ := ptr_of_content shown
  rw [valHashFunc_eq ptr in_mem]
  exact hashIn_append some_byte behind

/-- `memcmp` behind equal lengths. -/
theorem valHashEqual_eq {a b : Nat} {x y : List UInt8} (shown_a : content s a = some x)
    (shown_b : content s b = some y) : valHashEqual s a b = .ok (x == y) := by
  obtain ⟨pa, behindA, ptr_a, mem_a⟩ := ptr_of_content shown_a
  obtain ⟨pb, behindB, ptr_b, mem_b⟩ := ptr_of_content shown_b
  simp only [valHashEqual, ptr_a, ptr_b, orHalt, bind, Except.bind]
  by_cases same : x.length = y.length
  · have read_a : readMem s.mem pa x.length = some x := by simp [readMem, mem_a]
    have read_b : readMem s.mem pb x.length = some y := by simp [readMem, mem_b, same]
    rw [if_pos same, read_a, read_b]
    rfl
  · have differ : x ≠ y := fun equal => same (congrArg List.length equal)
    rw [if_neg same, beq_eq_false_iff_ne.mpr differ]
    rfl

end Keys

/-- The hash that maps take, with the byte behind the string, is this one. -/
theorem valHashFunc_eq_map {s : State} {val address : Nat} {bytes behind : List UInt8}
    (ptr : strPtrLen s.strs (val + 1) val = some (address, bytes.length))
    (in_mem : s.mem address = some (bytes ++ behind)) :
    (valHashFunc s val).toOption =
      (Map.valHashFunc Map.plainVals (.inr { bytes, behind := behind.head? })).toOption := by
  rw [valHashFunc_eq ptr in_mem]
  cases bytes with
  | nil =>
      rw [List.nil_append, List.length_nil, hashIn_zero]
      by_cases zero : behind.head? = some 0 <;>
        simp [Map.valHashFunc, Map.plainVals, Except.toOption, zero]
  | cons c rest =>
      rw [hashIn_append (List.cons_ne_nil c rest)]
      by_cases nul : c = 0 <;> simp [Map.valHashFunc, Map.plainVals, Except.toOption, hashOf, nul]

/-- Two keys can be hashed by their bytes alone, and equal ones to the same hash, exactly when
neither is empty. -/
theorem hashesLikeEqual_iff {s : State} {a b : Nat} {x y : List UInt8}
    (shown_a : content s a = some x) (shown_b : content s b = some y) :
    HashesLikeEqual s a b x y ↔ x ≠ [] ∧ y ≠ [] := by
  constructor
  · intro hashes
    exact ⟨(hashesString_iff shown_a).mp hashes.left, (hashesString_iff shown_b).mp hashes.right⟩
  · rintro ⟨some_x, some_y⟩
    refine ⟨(hashesString_iff shown_a).mpr some_x, (hashesString_iff shown_b).mpr some_y, ?_⟩
    intro equal
    rw [valHashEqual_eq shown_a shown_b] at equal
    have same : x = y := beq_iff_eq.mp (Except.ok.inj equal)
    rw [valHashFunc_of_content shown_a some_x, valHashFunc_of_content shown_b some_y, same]

/-- The key `"a"` and a copy of it. -/
theorem hashesLikeEqual_iff_copy :
    HashesLikeEqual (strCopy (strNewStrdup start [97]) 0) 0 1 [97] [97] :=
  (hashesLikeEqual_iff (by rfl) (by rfl)).mpr ⟨by decide, by decide⟩

/-- `"" ~ ""` has a buffer of no bytes. -/
theorem not_hashesLikeEqual :
    ∃ s, strConcat (strNewStrdup start []) 0 0 = .ok s ∧ content s 1 = some [] ∧
      valHashFunc s 1 = .error .wild ∧ ¬ HashesLikeEqual s 1 1 [] [] := by
  refine ⟨(strNewStrdup start []).add false [] 0, by rfl, by rfl, by rfl, fun hashes => ?_⟩
  have shown : content ((strNewStrdup start []).add false [] 0) 1 = some [] := by rfl
  exact (hashesString_iff shown).mp hashes.left rfl

end Str
end Pone
