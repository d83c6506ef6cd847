import Pone.Decimal
import Pone.Str.Order
import Pone.Str.Strtol

/-!
# Strings and integers

`pone_str_from_int` and `Str#Int`.  The text of an integer is made in a buffer that has no room for
the sign of the longest ones, and `strtol` is called on bytes that nothing has to end.
-/

namespace Pone
namespace Str

open Syntax (digitValue readDigits)
open Simulation (orHalt)

/-- What `Str#Int` comes to. -/
inductive IntAnswer where
  | gives (i : Int)
  | throws (message : String)
  deriving DecidableEq

/-- The conversion to `int`. -/
def toInt32 (i : Int) : Int := i.bmod (2 ^ 32)

/-- The call of `strtol` and what follows, on the memory from the pointer on. -/
def intIn (memory : List UInt8) (base errno : Int) : Except Halt IntAnswer := do
  let (i, errno) ← orHalt .wild (strtol memory (toInt32 base) errno)
  if i = CLong.maximum ∧ errno = erange then return .throws "long value over flow"
  else return .gives i

/-- `meth_str_int`, where earlier calls have left `errno`.  Without an argument, `base` is 0. -/
def methStrInt (s : State) (self : Nat) (base errno : Int) : Except Halt IntAnswer := do
  let (address, _) ← orHalt .wild (strPtrLen s.strs (self + 1) self)
  let memory ← orHalt .wild (s.mem address)
  intIn memory base errno

/-- The value of a text in a base. -/
def numericValue (base : Int) (bytes : List UInt8) : Int :=
  if Supported (toInt32 base) then prefixValue (toInt32 base) bytes else 0

/-- What `Str#Int` is to give for these bytes. -/
def specInt (base : Int) (bytes : List UInt8) : IntAnswer :=
  if CLong.Fits (numericValue base bytes) then .gives (numericValue base bytes)
  else .throws "long value over flow"

/-- Nothing is read but these bytes of the string: the answer is the same whatever there is behind
them in memory, or if there is nothing. -/
def ReadsOnly (s : State) (self : Nat) (bytes : List UInt8) (base errno : Int) : Prop :=
  ∀ address len, strPtrLen s.strs (self + 1) self = some (address, len) →
    ∀ behind, methStrInt { s with mem := Function.update s.mem address (some (bytes ++ behind)) }
      self base errno = methStrInt s self base errno

/-- A byte of the string ends the scan of its number. -/
def EndsInside (base : Int) (bytes : List UInt8) : Prop :=
  Supported (toInt32 base) → (scan (toInt32 base) bytes).isSome

/-- The value is neither below `LONG_MIN` nor taken for an overflow that an earlier call has met. -/
def Recognised (base errno : Int) (bytes : List UInt8) : Prop :=
  CLong.minimum ≤ numericValue base bytes ∧
    ¬ (numericValue base bytes = CLong.maximum ∧ errno = erange)

/-! ## `Str#Int` -/

/-- The bytes of a string are the first ones of its block. -/
theorem ptr_of_content {s : State} {self : Nat} {bytes : List UInt8}
    (shown : content s self = some bytes) :
    ∃ address behind, strPtrLen s.strs (self + 1) self = some (address, bytes.length) ∧
      s.mem address = some (bytes ++ behind) := by
  simp only [content, Option.bind_eq_bind, Option.bind_eq_some_iff, Prod.exists] at shown
  obtain ⟨address, len, ptr, read⟩ := shown
  rw [readMem] at read
  cases in_mem : s.mem address with
  | none =>
      rw [in_mem] at read
      cases read
  | some block =>
      rw [in_mem] at read
      simp only at read
      split at read
      · cases read
        refine ⟨address, block.drop len, ?_, ?_⟩
        · rwa [List.length_take_of_le ‹_›]
        · rwa [List.take_append_drop]
      · cases read

theorem methStrInt_eq {s : State} {self address len : Nat} {memory : List UInt8}
    (ptr : strPtrLen s.strs (self + 1) self = some (address, len))
    (in_mem : s.mem address = some memory) (base errno : Int) :
    methStrInt s self base errno = intIn memory base errno := by
  simp only [methStrInt, ptr, in_mem, orHalt, bind, Except.bind]

theorem readsOnly_iff {s : State} {self address len : Nat} {bytes : List UInt8}
    (ptr : strPtrLen s.strs (self + 1) self = some (address, len)) (base errno : Int) :
    ReadsOnly s self bytes base errno ↔
      ∀ behind, intIn (bytes ++ behind) base errno = methStrInt s self base errno := by
  have moved (behind : List UInt8) :
      methStrInt { s with mem := Function.update s.mem address (some (bytes ++ behind)) }
        self base errno = intIn (bytes ++ behind) base errno :=
    methStrInt_eq (s := { s with mem := Function.update s.mem address (some (bytes ++ behind)) })
      ptr (Function.update_self ..) base errno
  constructor
  · intro only behind
    rw [← only address len ptr behind, moved]
  · intro same address' len' ptr' behind
    obtain ⟨rfl, rfl⟩ := Prod.mk.inj (Option.some.inj (ptr.symm.trans ptr'))
    rw [moved, same]

/-- What the scan finds is the answer, unless it is too small or an old `errno` is met. -/
theorem intIn_eq_spec_iff {memory bytes : List UInt8} {base : Int} (errno : Int)
    (found : Supported (toInt32 base) → scan (toInt32 base) memory = some (numericValue base bytes)) :
    intIn memory base errno = .ok (specInt base bytes) ↔ Recognised base errno bytes := by
  by_cases supported : Supported (toInt32 base)
  · have scanned := found supported
    rw [intIn, strtol, if_pos supported, scanned, specInt, Recognised]
    generalize numericValue base bytes = v
    simp only [Option.bind_some, orHalt, bind, Except.bind, pure, Except.pure]
    by_cases above : CLong.maximum < v
    · have unfit : ¬ CLong.Fits v := fun fits => Int.not_lt_of_ge fits.2 above
      rw [if_pos above, if_neg unfit]
      refine iff_of_true rfl ⟨?_, fun stale => ?_⟩
      · exact Int.le_trans (by decide) (Int.le_of_lt above)
      · exact Int.ne_of_gt above stale.1
    · rw [if_neg above]
      by_cases below : v < CLong.minimum
      · have unfit : ¬ CLong.Fits v := fun fits => Int.not_lt_of_ge fits.1 below
        rw [if_pos below, if_neg unfit]
        refine iff_of_false ?_ fun fine => Int.not_lt_of_ge fine.1 below
        decide
      · have fits : CLong.Fits v := ⟨Int.not_lt.mp below, Int.not_lt.mp above⟩
        rw [if_neg below, if_pos fits, and_iff_right fits.1]
        by_cases stale : v = CLong.maximum ∧ errno = erange
        · refine iff_of_false ?_ fun fine => fine stale
          simp [stale]
        · refine iff_of_true ?_ stale
          rw [if_neg stale]
  · have zero : numericValue base bytes = 0 := if_neg supported
    rw [intIn, strtol, if_neg supported, specInt, Recognised, zero]
    exact iff_of_true rfl ⟨by decide, fun stale => absurd stale.1 (by decide)⟩

/-- A scan that a byte of the string ends finds the same in every memory. -/
theorem EndsInside.scan_eq {base : Int} {bytes : List UInt8} (ends : EndsInside base bytes)
    (behind : List UInt8) (supported : Supported (toInt32 base)) :
    scan (toInt32 base) (bytes ++ behind) = some (numericValue base bytes) := by
  obtain ⟨v, scanned⟩ := Option.isSome_iff_exists.mp (ends supported)
  rw [numericValue, if_pos supported, ← eq_prefixValue_of_scan scanned]
  exact scan_append scanned behind

theorem endsInside_of_answer {base errno : Int} {bytes : List UInt8} {answer : IntAnswer}
    (answered : intIn bytes base errno = .ok answer) : EndsInside base bytes := by
  intro supported
  cases scanned : scan (toInt32 base) bytes with
  | some v => rfl
  | none =>
      rw [intIn, strtol, if_pos supported, scanned] at answered
      cases answered

/-- `Str#Int` reads the string alone and gives the value of its numeric prefix, or throws where that
is out of range, exactly when a byte of the string ends the scan, the value is not too small, and
`LONG_MAX` does not meet an old `errno`. -/
theorem strInt_iff {s : State} {self : Nat} {bytes : List UInt8}
    (shown : content s self = some bytes) (base errno : Int) :
    ReadsOnly s self bytes base errno ∧ methStrInt s self base errno = .ok (specInt base bytes) ↔
      EndsInside base bytes ∧ Recognised base errno bytes := by
  obtain ⟨address, behind, ptr, in_mem⟩ := ptr_of_content shown
  rw [readsOnly_iff ptr, methStrInt_eq ptr in_mem]
  constructor
  · rintro ⟨only, answer⟩
    have alone := (only []).trans answer
    rw [List.append_nil] at alone
    have ends := endsInside_of_answer alone
    exact ⟨ends, (intIn_eq_spec_iff errno (ends.scan_eq behind)).mp answer⟩
  · rintro ⟨ends, recognised⟩
    have answer (behind : List UInt8) :
        intIn (bytes ++ behind) base errno = .ok (specInt base bytes) :=
      (intIn_eq_spec_iff errno (ends.scan_eq behind)).mpr recognised
    exact ⟨fun other => (answer other).trans (answer behind).symm, answer behind⟩

/-- The blank of `"12 "` ends its number. -/
theorem strInt_iff_blank :
    ReadsOnly (strNewStrdup start [49, 50, 32]) 0 [49, 50, 32] 10 erange ∧
      methStrInt (strNewStrdup start [49, 50, 32]) 0 10 erange = .ok (specInt 10 [49, 50, 32]) :=
  (strInt_iff (by rfl) 10 erange).mpr
    ⟨fun _ => by decide, by decide, by decide⟩

/-- The buffer of `"1" ~ "2"` ends behind its digits. -/
theorem not_int_concat :
    ∃ s, strConcat (strNewStrdup (strNewStrdup start [49]) [50]) 0 1 = .ok s ∧
      content s 2 = some [49, 50] ∧
      ¬ (ReadsOnly s 2 [49, 50] 0 0 ∧ methStrInt s 2 0 0 = .ok (specInt 0 [49, 50])) := by
  refine ⟨_, rfl, rfl, fun meets => ?_⟩
  cases meets.2

/-- Behind a NUL, the answer is right, though that NUL is read. -/
theorem methStrInt_nul_iff {s : State} {self address len : Nat} {bytes rest : List UInt8}
    (ptr : strPtrLen s.strs (self + 1) self = some (address, len))
    (in_mem : s.mem address = some (bytes ++ 0 :: rest)) (base errno : Int) :
    methStrInt s self base errno = .ok (specInt base bytes) ↔ Recognised base errno bytes := by
  rw [methStrInt_eq ptr in_mem]
  refine intIn_eq_spec_iff errno fun supported => ?_
  rw [numericValue, if_pos supported]
  exact scan_nul (toInt32 base) bytes rest

/-! ## The text of an integer -/

/-- An integer in decimal notation. -/
def intText (i : Int) : List UInt8 := (if i < 0 then [45] else []) ++ Decimal.natText i.natAbs

/-- `snprintf` into a buffer of `n` bytes: what it stores, and the length of the whole text. -/
def snprintf (n : Nat) (text : List UInt8) : List UInt8 × Nat :=
  (text.take (n - 1) ++ [0], text.length)

/-- The bytes that `pone_str_from_int` copies from its buffer. -/
def fromIntBytes (i : Int) : List UInt8 :=
  let (buf, size) := snprintf (19 + 1) (intText i)
  buf.take size

/-- `pone_str_from_int` -/
def strFromInt (s : State) (i : Int) : State := strNewStrdup s (fromIntBytes i)

/-- An Int as an operand of the operators on strings; `Int#Str` is `pone_str_from_int`. -/
def intForm (i : Int) : Form := .made false (fromIntBytes i)

theorem inScope_intForm (i : Int) (count : Nat) : (intForm i).InScope count := trivial

/-- The text is complete and is read back, and the integer is equal to itself alone, as a key and for
`eq`. -/
structure RoundTrips (s : State) (errno i : Int) : Prop where
  complete : content (strFromInt s i) s.strs.length = some (intText i)
  back : methStrInt (strFromInt s i) s.strs.length 0 errno = .ok (.gives i)
  injective : ∀ j, CLong.Fits j → fromIntBytes i = fromIntBytes j → i = j
  eq_iff : ∀ j, CLong.Fits j →
    ∃ s', strEq s (intForm i) (intForm j) = .ok (s', decide (i = j))

theorem content_strNewStrdup (s : State) (p : List UInt8) :
    content (strNewStrdup s p) s.strs.length = some p := by
  rw [content, strNewStrdup, strPtrLen_add]
  simp [readMem, mem_add]

theorem digit_of_isDigit {b : UInt8} (isDigit : Decimal.isDigit b = true) :
    digitValue b = some (b.toNat - 48) ∧ b.toNat - 48 < 10 ∧ b.toNat ≠ 0 ∧ isSpace b = false := by
  simp only [Decimal.isDigit, Bool.and_eq_true, decide_eq_true_eq, UInt8.le_iff_toNat_le] at isDigit
  have low : UInt8.toNat 48 = 48 := rfl
  have high : UInt8.toNat 57 = 57 := rfl
  refine ⟨?_, by omega, by omega, ?_⟩
  · rw [digitValue, if_pos]
    rwa [UInt8.le_iff_toNat_le, UInt8.le_iff_toNat_le]
  · have thirteen : UInt8.toNat 13 = 13 := rfl
    have not_blank : b ≠ 32 := by
      rintro rfl
      revert isDigit
      decide
    simp only [isSpace, not_blank, decide_false, Bool.false_or, Bool.and_eq_false_iff,
      decide_eq_false_iff_not, UInt8.le_iff_toNat_le]
    omega

/-- Decimal digits are read to their end. -/
theorem readDigits_ten {text : List UInt8} (digits : ∀ b ∈ text, Decimal.isDigit b = true) (n : Nat) :
    readDigits 10 text n = Decimal.numberFrom n text := by
  induction text generalizing n with
  | nil => rfl
  | cons b text ih =>
      obtain ⟨value, below, -⟩ := digit_of_isDigit (digits b List.mem_cons_self)
      rw [readDigits, value]
      simp only [if_pos below]
      rw [ih fun b member => digits b (List.mem_cons_of_mem _ member)]
      rfl

/-- Digits without a zero in front are decimal in base 0. -/
theorem readDigits_natText (n : Nat) :
    readDigits (radix 0 (Decimal.natText n)) (afterMark 0 (Decimal.natText n)) 0 = n := by
  by_cases zero : n = 0
  · subst zero
    have text : Decimal.natText 0 = [48] := by simp [Decimal.natText, Decimal.padded]
    rw [text]
    decide
  · have head := Decimal.head_natText zero
    have plain : ¬ HexMark 0 (Decimal.natText n) := by
      rintro ⟨-, first, -⟩
      rw [← List.head?_eq_getElem?] at first
      exact head first
    rw [radix, afterMark, if_neg plain, if_neg plain, if_pos rfl, if_neg head,
      readDigits_ten (Decimal.natText_digits n)]
    exact Decimal.number_natText n

theorem exists_natText (n : Nat) : ∃ b rest, Decimal.natText n = b :: rest ∧
    Decimal.isDigit b = true := by
  cases text : Decimal.natText n with
  | nil => simp [Decimal.natText, Decimal.padded] at text
  | cons b rest => exact ⟨b, rest, rfl, Decimal.natText_digits n b (by simp [text])⟩

theorem prefixValue_intText (i : Int) : prefixValue 0 (intText i) = i := by
  obtain ⟨b, rest, text, isDigit⟩ := exists_natText i.natAbs
  obtain ⟨-, -, -, no_space⟩ := digit_of_isDigit isDigit
  have value := readDigits_natText i.natAbs
  by_cases negative : i < 0
  · have minus : isSpace 45 = false := by decide
    rw [prefixValue, intText, if_pos negative, List.singleton_append,
      List.dropWhile_cons_of_neg (by simp [minus])]
    simp only [signOf, afterSign, List.head?_cons, true_or, if_true, List.tail_cons, value]
    omega
  · have no_sign : ¬ (some b = some 45 ∨ some b = some 43) := by
      rintro (sign | sign) <;> cases sign <;> revert isDigit <;> decide
    rw [not_or] at no_sign
    rw [prefixValue, intText, if_neg negative, List.nil_append]
    rw [text] at value ⊢
    rw [List.dropWhile_cons_of_neg (by simp [no_space])]
    simp only [signOf, afterSign, List.head?_cons, no_sign.1, no_sign.2, or_self, if_false, value]
    omega

theorem nul_notMem_intText (i : Int) : (0 : UInt8) ∉ intText i := by
  intro nul
  rcases List.mem_append.mp nul with sign | digit
  · split at sign
    · revert sign
      decide
    · cases sign
  · exact absurd (Decimal.natText_digits _ 0 digit) (by decide)

/-- The buffer has room for 19 characters, which a negative number of 19 digits exceeds. -/
theorem length_intText {i : Int} (fits : CLong.Fits i) :
    (intText i).length ≤ 20 ∧ ((intText i).length ≤ 19 ↔ -10 ^ 18 < i) := by
  rw [CLong.fits_iff] at fits
  have nineteen : (Decimal.natText i.natAbs).length ≤ 19 :=
    (Decimal.length_natText_le_iff (by omega)).mpr (by omega)
  rw [intText, List.length_append]
  by_cases negative : i < 0
  · have eighteen : (Decimal.natText i.natAbs).length ≤ 18 ↔ i.natAbs < 10 ^ 18 :=
      Decimal.length_natText_le_iff (by omega)
    rw [if_pos negative, List.length_singleton]
    constructor
    · omega
    · constructor
      · intro short
        have := eighteen.mp (by omega)
        omega
      · intro above
        have := eighteen.mpr (by omega)
        omega
  · rw [if_neg negative, List.length_nil, Nat.zero_add]
    exact ⟨by omega, iff_of_true nineteen (by omega)⟩

theorem fromIntBytes_of_short {i : Int} (short : (intText i).length ≤ 19) :
    fromIntBytes i = intText i := by
  rw [fromIntBytes, snprintf]
  simp only
  rw [List.take_of_length_le (show (intText i).length ≤ 19 + 1 - 1 from short), List.take_left]

/-- The copy of a text that is too long ends with the NUL of the buffer. -/
theorem nul_mem_fromIntBytes {i : Int} (fits : CLong.Fits i) (long : ¬ (intText i).length ≤ 19) :
    (0 : UInt8) ∈ fromIntBytes i := by
  have twenty : (intText i).length = 20 := by
    have := (length_intText fits).1
    omega
  rw [fromIntBytes, snprintf]
  simp only [twenty]
  rw [List.take_of_length_le]
  · simp
  · simp

theorem fromIntBytes_inj {i j : Int} (fits : CLong.Fits j) (short : (intText i).length ≤ 19)
    (same : fromIntBytes i = fromIntBytes j) : i = j := by
  rw [fromIntBytes_of_short short] at same
  by_cases short' : (intText j).length ≤ 19
  · rw [fromIntBytes_of_short short'] at same
    rw [← prefixValue_intText i, same, prefixValue_intText]
  · have nul := nul_mem_fromIntBytes fits short'
    rw [← same] at nul
    exact (nul_notMem_intText i nul).elim

theorem complete_iff (s : State) {i : Int} (fits : CLong.Fits i) :
    content (strFromInt s i) s.strs.length = some (intText i) ↔ (intText i).length ≤ 19 := by
  rw [strFromInt, content_strNewStrdup, Option.some.injEq]
  refine ⟨fun same => ?_, fromIntBytes_of_short⟩
  by_contra long
  exact nul_notMem_intText i (same ▸ nul_mem_fromIntBytes fits long)

/-- An integer makes the round trip exactly when it has at most 18 digits behind a minus, and is not
`LONG_MAX` while `errno` is `ERANGE`. -/
theorem roundTrips_iff {s : State} {texts : List Text} (shows : Shows s texts) (sane : Sane s)
    {i : Int} (fits : CLong.Fits i) (errno : Int) :
    RoundTrips s errno i ↔ -10 ^ 18 < i ∧ ¬ (i = CLong.maximum ∧ errno = erange) := by
  have value : numericValue 0 (intText i) = i :=
    (if_pos (by decide)).trans (prefixValue_intText i)
  have spec : specInt 0 (intText i) = .gives i := by
    rw [specInt, value, if_pos fits]
  have recognised : Recognised 0 errno (intText i) ↔ ¬ (i = CLong.maximum ∧ errno = erange) := by
    rw [Recognised, value, and_iff_right fits.1]
  have back_iff (short : (intText i).length ≤ 19) :
      methStrInt (strFromInt s i) s.strs.length 0 errno = .ok (.gives i) ↔
        ¬ (i = CLong.maximum ∧ errno = erange) := by
    rw [← recognised, ← spec, strFromInt, fromIntBytes_of_short short]
    exact methStrInt_nul_iff (strPtrLen_add ..) (mem_add ..) 0 errno
  rw [← (length_intText fits).2]
  constructor
  · intro trips
    have short := (complete_iff s fits).mp trips.complete
    exact ⟨short, (back_iff short).mp trips.back⟩
  · rintro ⟨short, fresh⟩
    refine ⟨(complete_iff s fits).mpr short, (back_iff short).mpr fresh,
      fun j fits' => fromIntBytes_inj fits' short, fun j fits' => ?_⟩
    obtain ⟨s', -, answer, compared, -, equal⟩ :=
      Relation.eq.run_spec shows sane (inScope_intForm i _) (inScope_intForm j _)
    refine ⟨s', compared.trans ?_⟩
    have same : answer = decide (i = j) := by
      rw [Bool.eq_iff_iff, equal, decide_eq_true_iff]
      exact ⟨fromIntBytes_inj fits' short, congrArg fromIntBytes⟩
    rw [same]

/-- `LONG_MAX`, with an `errno` that is not `ERANGE`. -/
theorem roundTrips_iff_maximum : RoundTrips start 0 CLong.maximum :=
  (roundTrips_iff shows_start sane_start (by decide) 0).mpr (by decide)

/-- The text of `LONG_MIN` lacks its last digit. -/
theorem not_roundTrips_minimum : ¬ RoundTrips start 0 CLong.minimum := by
  intro trips
  have fits : CLong.Fits CLong.minimum := by decide
  have above := (length_intText fits).2.mp ((complete_iff start fits).mp trips.complete)
  revert above
  decide

end Str
end Pone
