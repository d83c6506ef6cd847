import Pone.Str.Number

/-!
# The characters of a string

`Str#AT-POS` goes from character to character by the length that the first byte of each one tells,
and compares its pointer with the end of the string only where a character begins.
-/

namespace Pone
namespace Str

open Simulation (orHalt)

/-- The bytes of one character, by the lengths that first bytes tell. -/
def IsChar (encLen : UInt8 → Nat) : List UInt8 → Prop
  | [] => False
  | b :: rest => (b :: rest).length = encLen b

/-- These are the characters of a string in which every character is complete. -/
def Spells (encLen : UInt8 → Nat) (chars : List (List UInt8)) (bytes : List UInt8) : Prop :=
  (∀ c ∈ chars, IsChar encLen c) ∧ chars.flatten = bytes

/-- Onigmo for UTF-8: `ONIGENC_MBC_ENC_LEN`, by the first byte, and `onigenc_strlen`, which counts
characters in an `int`. -/
structure Onigmo where
  encLen : UInt8 → Nat
  strlen : List UInt8 → Int
  encLen_pos : ∀ b, 1 ≤ encLen b
  encLen_le : ∀ b, encLen b ≤ 4
  strlen_eq : ∀ chars bytes, Spells encLen chars bytes → strlen bytes = toInt32 chars.length

variable (onig : Onigmo)

/-- `ONIGENC_MBC_ENC_LEN` at an offset -/
def encLenAt (memory : List UInt8) (p : Nat) : Except Halt Nat :=
  orHalt .wild ((memory[p]?).map onig.encLen)

/-- The loop of `meth_str_at_pos` for a `n` that is not negative: the offset that it stops at. -/
def seek (memory : List UInt8) (e : Nat) : Nat → Nat → Except Halt Nat
  | 0, p => return p
  | n + 1, p =>
      if p < e then do seek memory e n (p + (← encLenAt onig memory p))
      else return p

/-- What follows the loop: the bytes of the new string, or `none` for nil. -/
def charHere (memory : List UInt8) (e p : Nat) : Except Halt (Option (List UInt8)) :=
  if p = e then return none
  else do
    let size ← encLenAt onig memory p
    if p + size ≤ memory.length then return some ((memory.drop p).take size)
    else .error .wild

/-- `meth_str_at_pos` on the memory from the pointer on; `bytes` is the string. -/
def atPosIn (bytes memory : List UInt8) (n : Int) : Except Halt (Option (List UInt8)) := do
  let n ← if n < 0 then orHalt .wild (CLong.add (onig.strlen bytes) n) else pure n
  if n < 0 then return none
  else do charHere onig memory bytes.length (← seek onig memory bytes.length n.toNat 0)

/-- `meth_str_at_pos`: the bytes that it makes a string of, or `none` for nil. -/
def methStrAtPos (s : State) (self : Nat) (n : Int) : Except Halt (Option (List UInt8)) := do
  let (address, _) ← orHalt .wild (strPtrLen s.strs (self + 1) self)
  let bytes ← orHalt .wild (content s self)
  let memory ← orHalt .wild (s.mem address)
  atPosIn onig bytes memory n

/-- `meth_bytes_decode` -/
def methBytesDecode (s : State) (self : Nat) : Except Halt State := do
  return strNewStrdup s (← orHalt .wild (content s self))

/-- The character at an index from the front. -/
def nth (chars : List (List UInt8)) (k : Int) : Option (List UInt8) :=
  if k < 0 then none else chars[k.toNat]?

/-- The character number `n`, from the front, or from the back where `n` is negative. -/
def charAt (chars : List (List UInt8)) (n : Int) : Option (List UInt8) :=
  nth chars (if n < 0 then chars.length + n else n)

/-- Nothing is read but these bytes of the string: there is an answer, and it is the same whatever
there is behind them in memory, or if there is nothing. -/
def ReadsString (s : State) (self : Nat) (bytes : List UInt8) (n : Int) : Prop :=
  ∃ answer, ∀ address len, strPtrLen s.strs (self + 1) self = some (address, len) →
    ∀ behind, methStrAtPos onig
      { s with mem := Function.update s.mem address (some (bytes ++ behind)) } self n = .ok answer

/-- A string of complete characters gives the character. -/
def GivesChar (s : State) (self : Nat) (bytes : List UInt8) (n : Int) : Prop :=
  ∀ chars, Spells onig.encLen chars bytes → methStrAtPos onig s self n = .ok (charAt chars n)

/-- None of the first `k + 1` characters is cut off by the end of the string. -/
def Whole (encLen : UInt8 → Nat) : Nat → List UInt8 → Prop
  | _, [] => True
  | 0, b :: rest => encLen b ≤ (b :: rest).length
  | k + 1, b :: rest =>
      encLen b ≤ (b :: rest).length ∧ Whole encLen k ((b :: rest).drop (encLen b))

/-- The index that the characters are counted up to. -/
def position (bytes : List UInt8) (n : Int) : Int := if n < 0 then onig.strlen bytes + n else n

/-- The characters up to the index are complete, and the `int` in which they are counted for a
negative index leads to the same character as their number. -/
structure Addressable (bytes : List UInt8) (n : Int) : Prop where
  fits : n < 0 → CLong.Fits (onig.strlen bytes + n)
  whole : 0 ≤ position onig bytes n → Whole onig.encLen (position onig bytes n).toNat bytes
  counted : n < 0 → ∀ chars, Spells onig.encLen chars bytes →
    nth chars (toInt32 chars.length + n) = charAt chars n

variable {onig}

/-- `Bytes#decode` makes a string of any bytes. -/
theorem content_methBytesDecode {s : State} {self : Nat} {bytes : List UInt8}
    (shown : content s self = some bytes) :
    ∃ s', methBytesDecode s self = .ok s' ∧ content s' s.strs.length = some bytes :=
  ⟨strNewStrdup s bytes, by simp [methBytesDecode, shown, orHalt, bind, Except.bind, pure, Except.pure],
    content_strNewStrdup s bytes⟩

/-! ## One character after another -/

/-- The character number `k`, by the lengths that first bytes tell. -/
def charFrom (encLen : UInt8 → Nat) : Nat → List UInt8 → Option (List UInt8)
  | _, [] => none
  | 0, b :: rest => some ((b :: rest).take (encLen b))
  | k + 1, b :: rest => charFrom encLen k ((b :: rest).drop (encLen b))

/-- The loop and what follows it. -/
def fetch (onig : Onigmo) (memory : List UInt8) (e k p : Nat) : Except Halt (Option (List UInt8)) := do
  charHere onig memory e (← seek onig memory e k p)

theorem fetch_end (memory : List UInt8) (e k : Nat) : fetch onig memory e k e = .ok none := by
  have here : seek onig memory e k e = .ok e := by
    cases k with
    | zero => rfl
    | succ k => exact if_neg (Nat.lt_irrefl e)
  simp only [fetch, here, bind, Except.bind]
  exact if_pos rfl

theorem fetch_zero {memory rest : List UInt8} {e p : Nat} {b : UInt8} (before : p < e)
    (here : memory.drop p = b :: rest) :
    fetch onig memory e 0 p =
      if p + onig.encLen b ≤ memory.length then .ok (some ((b :: rest).take (onig.encLen b)))
      else .error .wild := by
  have byte : memory[p]? = some b := by
    rw [← List.head?_drop, here]
    rfl
  simp [fetch, seek, charHere, encLenAt, byte, here, orHalt, Nat.ne_of_lt before, bind, Except.bind,
    pure, Except.pure]

theorem fetch_succ {memory rest : List UInt8} {e p : Nat} {b : UInt8} (before : p < e)
    (here : memory.drop p = b :: rest) (k : Nat) :
    fetch onig memory e (k + 1) p = fetch onig memory e k (p + onig.encLen b) := by
  have byte : memory[p]? = some b := by
    rw [← List.head?_drop, here]
    rfl
  simp [fetch, seek, encLenAt, byte, orHalt, before, bind, Except.bind]

/-- Behind the end, there is nothing to read. -/
theorem fetch_beyond {memory : List UInt8} {p : Nat} (beyond : memory.length < p) (k : Nat) :
    fetch onig memory memory.length k p = .error .wild := by
  have here : seek onig memory memory.length k p = .ok p := by
    cases k with
    | zero => rfl
    | succ k => exact if_neg (Nat.not_lt.mpr (Nat.le_of_lt beyond))
  have nothing : memory[p]? = none := List.getElem?_eq_none (Nat.le_of_lt beyond)
  simp [fetch, here, charHere, encLenAt, nothing, orHalt, Nat.ne_of_gt beyond, bind, Except.bind]

theorem lt_of_drop_eq_cons {bytes rest : List UInt8} {b : UInt8} {p : Nat}
    (here : bytes.drop p = b :: rest) : p < bytes.length := by
  apply Nat.lt_of_not_le
  intro beyond
  rw [List.drop_eq_nil_of_le beyond] at here
  cases here

/-- Complete characters are found whatever is behind the string. -/
theorem fetch_of_whole {bytes : List UInt8} (behind : List UInt8) {k p : Nat}
    (inside : p ≤ bytes.length) (whole : Whole onig.encLen k (bytes.drop p)) :
    fetch onig (bytes ++ behind) bytes.length k p = .ok (charFrom onig.encLen k (bytes.drop p)) := by
  induction k generalizing p with
  | zero =>
      cases here : bytes.drop p with
      | nil =>
          have last : p = bytes.length := Nat.le_antisymm inside (List.drop_eq_nil_iff.mp here)
          rw [last, fetch_end]
          rfl
      | cons b rest =>
          rw [here, Whole] at whole
          have long := congrArg List.length here
          rw [List.length_drop] at long
          have before := lt_of_drop_eq_cons here
          have here' : (bytes ++ behind).drop p = b :: (rest ++ behind) := by
            rw [List.drop_append_of_le_length inside, here, List.cons_append]
          have room : p + onig.encLen b ≤ (bytes ++ behind).length := by
            rw [List.length_append]
            omega
          rw [fetch_zero before here', if_pos room, charFrom, ← List.cons_append,
            List.take_append_of_le_length whole]
  | succ k ih =>
      cases here : bytes.drop p with
      | nil =>
          have last : p = bytes.length := Nat.le_antisymm inside (List.drop_eq_nil_iff.mp here)
          rw [last, fetch_end]
          rfl
      | cons b rest =>
          rw [here, Whole, ← here, List.drop_drop, List.length_drop] at whole
          have before := lt_of_drop_eq_cons here
          have here' : (bytes ++ behind).drop p = b :: (rest ++ behind) := by
            rw [List.drop_append_of_le_length inside, here, List.cons_append]
          have inside' : p + onig.encLen b ≤ bytes.length := by omega
          rw [fetch_succ before here', charFrom, ← here, List.drop_drop]
          exact ih inside' whole.2

/-- With nothing behind the string, an answer means that the characters are complete. -/
theorem whole_of_fetch {bytes : List UInt8} {k p : Nat} (inside : p ≤ bytes.length)
    {answer : Option (List UInt8)} (fetched : fetch onig bytes bytes.length k p = .ok answer) :
    Whole onig.encLen k (bytes.drop p) := by
  induction k generalizing p with
  | zero =>
      cases here : bytes.drop p with
      | nil => trivial
      | cons b rest =>
          have long := congrArg List.length here
          rw [List.length_drop, List.length_cons] at long
          have before := lt_of_drop_eq_cons here
          rw [fetch_zero before here] at fetched
          split at fetched
          · rw [Whole, List.length_cons]
            omega
          · cases fetched
  | succ k ih =>
      cases here : bytes.drop p with
      | nil => trivial
      | cons b rest =>
          have before := lt_of_drop_eq_cons here
          rw [fetch_succ before here] at fetched
          have inside' : p + onig.encLen b ≤ bytes.length := by
            by_contra beyond
            rw [fetch_beyond (Nat.not_le.mp beyond)] at fetched
            cases fetched
          rw [Whole, ← here, List.drop_drop, List.length_drop]
          exact ⟨by omega, ih inside' fetched⟩

/-! ## Strings of complete characters -/

theorem charFrom_eq {chars : List (List UInt8)} {bytes : List UInt8}
    (spells : Spells onig.encLen chars bytes) (k : Nat) :
    charFrom onig.encLen k bytes = chars[k]? := by
  obtain ⟨complete, rfl⟩ := spells
  induction chars generalizing k with
  | nil => cases k <;> rfl
  | cons c chars ih =>
      obtain ⟨complete_c, complete'⟩ := List.forall_mem_cons.mp complete
      cases c with
      | nil => exact complete_c.elim
      | cons b rest =>
          have size : (b :: rest).length = onig.encLen b := complete_c
          rw [List.flatten_cons, List.cons_append]
          cases k with
          | zero =>
              rw [charFrom, ← size, ← List.cons_append, List.take_left, List.getElem?_cons_zero]
          | succ k =>
              rw [charFrom, ← size, ← List.cons_append, List.drop_left, ih k complete',
                List.getElem?_cons_succ]

/-- A string is made of characters in one way. -/
theorem Spells.unique {chars chars' : List (List UInt8)} {bytes : List UInt8}
    (spells : Spells onig.encLen chars bytes) (spells' : Spells onig.encLen chars' bytes) :
    chars = chars' := by
  apply List.ext_getElem?
  intro k
  rw [← charFrom_eq spells, ← charFrom_eq spells']

theorem whole_of_spells {chars : List (List UInt8)} {bytes : List UInt8}
    (spells : Spells onig.encLen chars bytes) (k : Nat) : Whole onig.encLen k bytes := by
  obtain ⟨complete, rfl⟩ := spells
  induction chars generalizing k with
  | nil => cases k <;> trivial
  | cons c chars ih =>
      obtain ⟨complete_c, complete'⟩ := List.forall_mem_cons.mp complete
      cases c with
      | nil => exact complete_c.elim
      | cons b rest =>
          have size : (b :: rest).length = onig.encLen b := complete_c
          have room : onig.encLen b ≤ ((b :: rest) ++ chars.flatten).length := by
            rw [← size, List.length_append]
            exact Nat.le_add_right _ _
          rw [List.flatten_cons, List.cons_append]
          cases k with
          | zero => exact room
          | succ k =>
              refine ⟨room, ?_⟩
              rw [← size, ← List.cons_append, List.drop_left]
              exact ih k complete'

/-! ## The method -/

theorem atPosIn_eq (bytes memory : List UInt8) (n : Int) :
    atPosIn onig bytes memory n =
      if n < 0 ∧ ¬ CLong.Fits (onig.strlen bytes + n) then .error .wild
      else if position onig bytes n < 0 then .ok none
      else fetch onig memory bytes.length (position onig bytes n).toNat 0 := by
  by_cases negative : n < 0
  · by_cases fits : CLong.Fits (onig.strlen bytes + n)
    · simp only [atPosIn, position, negative, fits, CLong.add, CLong.checked_of_fits, orHalt,
        if_true, not_true_eq_false, and_false, if_false, bind, Except.bind, pure, Except.pure]
      rfl
    · simp [atPosIn, negative, fits, CLong.add, CLong.checked_of_not_fits, orHalt, bind, Except.bind]
  · simp only [atPosIn, position, negative, false_and, if_false, bind, Except.bind, pure,
      Except.pure]
    rfl

/-- What `Str#AT-POS` comes to, whatever is behind the string, if it stays inside. -/
theorem atPosIn_of_whole {bytes : List UInt8} {n : Int}
    (fits : n < 0 → CLong.Fits (onig.strlen bytes + n))
    (whole : 0 ≤ position onig bytes n → Whole onig.encLen (position onig bytes n).toNat bytes)
    (behind : List UInt8) :
    atPosIn onig bytes (bytes ++ behind) n =
      .ok (if position onig bytes n < 0 then none
        else charFrom onig.encLen (position onig bytes n).toNat bytes) := by
  rw [atPosIn_eq, if_neg fun overflow => overflow.2 (fits overflow.1)]
  by_cases negative : position onig bytes n < 0
  · rw [if_pos negative, if_pos negative]
  · rw [if_neg negative, if_neg negative]
    exact fetch_of_whole behind (Nat.zero_le _) (whole (Int.not_lt.mp negative))

theorem methStrAtPos_eq (onig : Onigmo) {s : State} {self address : Nat} {bytes memory : List UInt8}
    (ptr : strPtrLen s.strs (self + 1) self = some (address, bytes.length))
    (in_mem : s.mem address = some (bytes ++ memory)) (n : Int) :
    methStrAtPos onig s self n = atPosIn onig bytes (bytes ++ memory) n := by
  have shown : content s self = some bytes := by
    simp [content, ptr, readMem, in_mem]
  simp only [methStrAtPos, ptr, shown, in_mem, orHalt, bind, Except.bind]

theorem position_eq {chars : List (List UInt8)} {bytes : List UInt8}
    (spells : Spells onig.encLen chars bytes) (n : Int) :
    position onig bytes n = if n < 0 then toInt32 chars.length + n else n := by
  rw [position, onig.strlen_eq chars bytes spells]

/-- Whatever the index leads to in a string of complete characters. -/
theorem atPosIn_eq_nth {chars : List (List UInt8)} {bytes : List UInt8} {n : Int}
    (spells : Spells onig.encLen chars bytes)
    (fits : n < 0 → CLong.Fits (onig.strlen bytes + n)) (behind : List UInt8) :
    atPosIn onig bytes (bytes ++ behind) n = .ok (nth chars (position onig bytes n)) := by
  rw [atPosIn_of_whole fits (fun _ => whole_of_spells spells _) behind, nth, charFrom_eq spells]

/-- `Str#AT-POS` reads the string alone, and gives the right character of a string of complete
characters, exactly when the characters that it comes to are complete, and the `int` in which
characters are counted does not lead elsewhere. -/
theorem strAtPos_iff {s : State} {self : Nat} {bytes : List UInt8}
    (shown : content s self = some bytes) (n : Int) :
    ReadsString onig s self bytes n ∧ GivesChar onig s self bytes n ↔ Addressable onig bytes n := by
  obtain ⟨address, behind, ptr, in_mem⟩ := ptr_of_content shown
  have given := methStrAtPos_eq onig ptr in_mem n
  have moved (behind : List UInt8) : methStrAtPos onig
      { s with mem := Function.update s.mem address (some (bytes ++ behind)) } self n =
        atPosIn onig bytes (bytes ++ behind) n :=
    methStrAtPos_eq onig (s := { s with mem := Function.update s.mem address (some (bytes ++ behind)) })
      ptr (Function.update_self ..) n
  constructor
  · rintro ⟨⟨answer, reads⟩, gives⟩
    have alone := reads address bytes.length ptr []
    rw [moved, List.append_nil, atPosIn_eq] at alone
    have fits : n < 0 → CLong.Fits (onig.strlen bytes + n) := by
      intro negative
      by_contra overflows
      rw [if_pos ⟨negative, overflows⟩] at alone
      cases alone
    refine ⟨fits, fun inside => ?_, fun negative chars spells => ?_⟩
    · rw [if_neg fun overflow => overflow.2 (fits overflow.1), if_neg (Int.not_lt.mpr inside)]
        at alone
      exact whole_of_fetch (Nat.zero_le _) alone
    · have answered := gives chars spells
      rw [given, atPosIn_eq_nth spells fits, position_eq spells, if_pos negative] at answered
      exact Except.ok.inj answered
  · intro addressable
    refine ⟨⟨if position onig bytes n < 0 then none
      else charFrom onig.encLen (position onig bytes n).toNat bytes,
      fun address' len' ptr' behind => ?_⟩, fun chars spells => ?_⟩
    · obtain ⟨rfl, rfl⟩ := Prod.mk.inj (Option.some.inj (ptr.symm.trans ptr'))
      rw [moved]
      exact atPosIn_of_whole addressable.fits addressable.whole behind
    · rw [given, atPosIn_eq_nth spells addressable.fits, position_eq spells]
      by_cases negative : n < 0
      · rw [if_pos negative, addressable.counted negative chars spells]
      · rw [if_neg negative, charAt, if_neg negative]

theorem toInt32_of_le {i : Int} (nonneg : 0 ≤ i) (le : i ≤ 2147483647) : toInt32 i = i := by
  rw [toInt32, Int.bmod_def]
  omega

/-- In a string of at most `INT_MAX` characters, all complete, every index is fine. -/
theorem addressable_of_spells {chars : List (List UInt8)} {bytes : List UInt8}
    (spells : Spells onig.encLen chars bytes) (few : (chars.length : Int) ≤ 2147483647) {n : Int}
    (fits : CLong.Fits n) : Addressable onig bytes n := by
  have counted : toInt32 chars.length = chars.length := toInt32_of_le (Int.natCast_nonneg _) few
  refine ⟨fun negative => ?_, fun _ => whole_of_spells spells _, fun negative chars' spells' => ?_⟩
  · rw [onig.strlen_eq chars bytes spells, counted]
    have below := fits.1
    simp only [CLong.Fits, CLong.minimum, CLong.maximum] at below ⊢
    omega
  · obtain rfl := spells.unique spells'
    rw [counted, charAt, if_pos negative]

/-- The lengths that first bytes of UTF-8 tell. -/
def utf8Len (b : UInt8) : Nat :=
  if b < 194 then 1 else if b < 224 then 2 else if b < 240 then 3 else if b < 245 then 4 else 1

/-- The steps from first byte to first byte, as far as `fuel`. -/
def steps (encLen : UInt8 → Nat) : Nat → List UInt8 → Nat
  | 0, _ => 0
  | _ + 1, [] => 0
  | fuel + 1, b :: rest => steps encLen fuel ((b :: rest).drop (encLen b)) + 1

theorem steps_of_spells {encLen : UInt8 → Nat} {chars : List (List UInt8)} {bytes : List UInt8}
    (spells : Spells encLen chars bytes) {fuel : Nat} (long : bytes.length ≤ fuel) :
    steps encLen fuel bytes = chars.length := by
  obtain ⟨complete, rfl⟩ := spells
  induction chars generalizing fuel with
  | nil => cases fuel <;> rfl
  | cons c chars ih =>
      obtain ⟨complete_c, complete'⟩ := List.forall_mem_cons.mp complete
      cases c with
      | nil => exact complete_c.elim
      | cons b rest =>
          have size : (b :: rest).length = encLen b := complete_c
          rw [List.flatten_cons, List.length_append, List.length_cons] at long
          cases fuel with
          | zero => omega
          | succ fuel =>
              rw [List.flatten_cons, List.cons_append, steps, ← size, ← List.cons_append,
                List.drop_left, ih complete' (by omega), List.length_cons]

/-- UTF-8 as Onigmo has it. -/
def utf8 : Onigmo where
  encLen := utf8Len
  strlen bytes := toInt32 (steps utf8Len bytes.length bytes)
  encLen_pos b := by
    unfold utf8Len
    split <;> [skip; split <;> [skip; split <;> [skip; split]]] <;> omega
  encLen_le b := by
    unfold utf8Len
    split <;> [skip; split <;> [skip; split <;> [skip; split]]] <;> omega
  strlen_eq chars bytes spells := by rw [steps_of_spells spells (Nat.le_refl _)]

/-- The last character of `"aあ"`. -/
theorem strAtPos_iff_last :
    ReadsString utf8 (strNewStrdup start [97, 227, 129, 130]) 0 [97, 227, 129, 130] (-1) ∧
      GivesChar utf8 (strNewStrdup start [97, 227, 129, 130]) 0 [97, 227, 129, 130] (-1) := by
  have spells : Spells utf8Len [[97], [227, 129, 130]] [97, 227, 129, 130] :=
    ⟨by simp [IsChar, utf8Len], rfl⟩
  have fits : CLong.Fits (-1) := by decide
  have shown := content_strNewStrdup start [97, 227, 129, 130]
  have addressable : Addressable utf8 [97, 227, 129, 130] (-1) :=
    addressable_of_spells spells (by decide) fits
  exact (strAtPos_iff shown (-1)).mpr addressable

/-- The first character of the byte `C3` alone, as `Bytes#decode` makes a string of it. -/
theorem not_strAtPos_cut :
    ∃ s, methBytesDecode (strNewStrdup start [195]) 0 = .ok s ∧ content s 1 = some [195] ∧
      ¬ (ReadsString utf8 s 1 [195] 0 ∧ GivesChar utf8 s 1 [195] 0) := by
  obtain ⟨s, decoded, shown⟩ := content_methBytesDecode (content_strNewStrdup start [195])
  refine ⟨s, decoded, shown, ?_⟩
  rintro ⟨⟨answer, reads⟩, -⟩
  obtain ⟨address, behind, ptr, -⟩ := ptr_of_content shown
  have alone := (methStrAtPos_eq utf8
    (s := { s with mem := Function.update s.mem address (some ([195] ++ [])) })
    ptr (Function.update_self ..) 0).symm.trans (reads address _ ptr [])
  rw [List.append_nil, atPosIn_eq] at alone
  have cut : utf8Len 195 ≤ 1 := whole_of_fetch (Nat.zero_le _) alone
  revert cut
  decide

end Str
end Pone
