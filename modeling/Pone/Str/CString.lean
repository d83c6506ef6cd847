import Pone.Str.Forms

/-!
# Conversion to C strings

`pone_str_c_str` appends a NUL as one more byte of a new string.  The scan for a NUL leaves the last
byte out, and the argument spec `s` hands out the length of the new string.
-/

namespace Pone
namespace Str

open Simulation (orHalt)

/-- `pone_str_contains_null` -/
def strContainsNull (s : State) (val : Nat) : Except Halt Bool := do
  let bytes ← orHalt .wild (content s val)
  if bytes.length = 0 then return false
  else return decide ((0 : UInt8) ∈ bytes.take (bytes.length - 1))

/-- `pone_str_c_str`: the string that it gives; `none` where it throws. -/
def strCStrNew (s : State) (val : Nat) : Except Halt (State × Option Nat) := do
  if ← strContainsNull s val then return (s, none)
  else
    let s := strNewStrdup s [0]
    let s ← strConcat s val (s.strs.length - 1)
    return (s, some (s.strs.length - 1))

/-- The case `s` of `pone_arg`: the pointer and the length that it sets; `none` where it throws. -/
def argS (s : State) (arg : Form) : Except Halt (State × Option (Nat × Nat)) := do
  let (s, val) := stringify s arg
  match ← strCStrNew s val with
  | (s, none) => return (s, none)
  | (s, some cStr) => return (s, some (← orHalt .wild (strPtrLen s.strs (cStr + 1) cStr)))

/-- `strlen`; `none` where there is no NUL in the memory. -/
def strlen (memory : List UInt8) : Option Nat := memory.findIdx? (· = 0)

/-- At the address is the C string with these bytes. -/
def IsCString (s : State) (address : Nat) (bytes : List UInt8) : Prop :=
  ∃ memory, s.mem address = some memory ∧ strlen memory = some bytes.length ∧
    memory.take bytes.length = bytes

/-- `pone_str_c_str` throws where the bytes contain a NUL, and else gives their C string. -/
def Converts (s : State) (val : Nat) (bytes : List UInt8) : Prop :=
  ∃ s' result, strCStrNew s val = .ok (s', result) ∧ (result = none ↔ (0 : UInt8) ∈ bytes) ∧
    ∀ cStr, result = some cStr →
      ∃ address len, strPtrLen s'.strs (cStr + 1) cStr = some (address, len) ∧
        IsCString s' address bytes

/-- The argument spec `s` throws where the bytes contain a NUL, and else gives their C string and
their number. -/
def Delivers (s : State) (arg : Form) (bytes : List UInt8) : Prop :=
  ∃ s' result, argS s arg = .ok (s', result) ∧ (result = none ↔ (0 : UInt8) ∈ bytes) ∧
    ∀ address len, result = some (address, len) → len = bytes.length ∧ IsCString s' address bytes

/-- There is a NUL in front of the last byte. -/
def NulInside (bytes : List UInt8) : Prop := (0 : UInt8) ∈ bytes.dropLast

instance : DecidablePred NulInside := fun _ => inferInstanceAs (Decidable (_ ∈ _))

theorem strContainsNull_eq {s : State} {val : Nat} {bytes : List UInt8}
    (shown : content s val = some bytes) :
    strContainsNull s val = .ok (decide (NulInside bytes)) := by
  rw [strContainsNull, shown]
  cases bytes with
  | nil => rfl
  | cons b rest =>
      simp only [NulInside, List.dropLast_eq_take]
      rfl

theorem strCStrNew_nul {s : State} {val : Nat} {bytes : List UInt8}
    (shown : content s val = some bytes) (nul : NulInside bytes) :
    strCStrNew s val = .ok (s, none) := by
  rw [strCStrNew, strContainsNull_eq shown, decide_eq_true nul]
  rfl

/-- Without a NUL in front of the last byte, the result is the string with one more byte, in a block
of that size. -/
theorem strCStrNew_eq {s : State} {texts : List Text} (shows : Shows s texts) (sane : Sane s)
    {val : Nat} {t : Text} (found : texts[val]? = some t) (clean : ¬ NulInside t.bytes) :
    ∃ s' cStr address, strCStrNew s val = .ok (s', some cStr) ∧
      strPtrLen s'.strs (cStr + 1) cStr = some (address, t.bytes.length + 1) ∧
      s'.mem address = some (t.bytes ++ [0]) := by
  have shown : content s val = some t.bytes := by
    rw [shows.bytes, found]
    rfl
  obtain ⟨-, shows₁⟩ := shows.new sane false ([0] ++ [0]) 1 (by simp)
  let s₁ := s.add false ([0] ++ [0]) 1
  have shown₁ : content s₁ val = some t.bytes := by
    rw [shows₁.bytes, List.getElem?_append_left (List.getElem?_eq_some_iff.mp found).1, found]
    rfl
  have nul : content s₁ (s₁.strs.length - 1) = some [0] := shows₁.last
  have concat : strConcat s₁ val (s₁.strs.length - 1) =
      .ok (s₁.add false (t.bytes ++ [0]) (t.bytes.length + 1)) := by
    rw [strConcat, shown₁, nul]
    rfl
  refine ⟨s₁.add false (t.bytes ++ [0]) (t.bytes.length + 1), s₁.strs.length, s₁.next, ?_,
    strPtrLen_add .., mem_add ..⟩
  have concat' : strConcat (strNewStrdup s [0]) val ((strNewStrdup s [0]).strs.length - 1) =
      .ok (s₁.add false (t.bytes ++ [0]) (t.bytes.length + 1)) := concat
  have last : (s₁.add false (t.bytes ++ [0]) (t.bytes.length + 1)).strs.length - 1 =
      s₁.strs.length := by
    simp [State.add]
  rw [strCStrNew, strContainsNull_eq shown]
  simp only [decide_eq_false clean, bind, Except.bind, Bool.false_eq_true, if_false, concat', last]
  rfl

theorem strlen_append_nul {bytes : List UInt8} (no_nul : (0 : UInt8) ∉ bytes) (rest : List UInt8) :
    strlen (bytes ++ 0 :: rest) = some bytes.length := by
  have none_inside : bytes.findIdx? (· = 0) = none := by
    rw [List.findIdx?_eq_none_iff]
    intro b member
    rw [decide_eq_false_iff_not]
    rintro rfl
    exact no_nul member
  rw [strlen, List.findIdx?_append, none_inside]
  simp [List.findIdx?_cons]

theorem isCString_iff {s : State} {address : Nat} {bytes : List UInt8}
    (in_mem : s.mem address = some (bytes ++ [0])) :
    IsCString s address bytes ↔ (0 : UInt8) ∉ bytes := by
  constructor
  · rintro ⟨memory, in_mem', length, -⟩ nul
    obtain rfl := Option.some.inj (in_mem.symm.trans in_mem')
    rw [strlen, List.findIdx?_append] at length
    cases found : bytes.findIdx? (· = 0) with
    | none =>
        have clean := List.findIdx?_eq_none_iff.mp found 0 nul
        simp at clean
    | some i =>
        rw [found, Option.some_or, Option.some.injEq] at length
        obtain ⟨inside, -⟩ := List.findIdx?_eq_some_iff_getElem.mp found
        omega
  · intro no_nul
    exact ⟨_, in_mem, strlen_append_nul no_nul [], List.take_left⟩

theorem NulInside.mem {bytes : List UInt8} (nul : NulInside bytes) : (0 : UInt8) ∈ bytes :=
  List.dropLast_subset _ nul

theorem converts_iff {s : State} {texts : List Text} (shows : Shows s texts) (sane : Sane s)
    {val : Nat} {t : Text} (found : texts[val]? = some t) :
    Converts s val t.bytes ↔ NulInside t.bytes ∨ (0 : UInt8) ∉ t.bytes := by
  by_cases nul : NulInside t.bytes
  · have shown : content s val = some t.bytes := by
      rw [shows.bytes, found]
      rfl
    refine iff_of_true ⟨s, none, strCStrNew_nul shown nul, ?_, nofun⟩ (.inl nul)
    exact iff_of_true rfl nul.mem
  · obtain ⟨s', cStr, address, converted, ptr, in_mem⟩ := strCStrNew_eq shows sane found nul
    rw [or_iff_right nul]
    constructor
    · rintro ⟨s'', result, converted', throws, -⟩
      obtain ⟨rfl, rfl⟩ := Prod.mk.inj (Except.ok.inj (converted.symm.trans converted'))
      exact throws.not.mp (by simp)
    · intro no_nul
      refine ⟨s', some cStr, converted, iff_of_false (by simp) no_nul, ?_⟩
      intro cStr' same
      obtain rfl := Option.some.inj same
      exact ⟨address, _, ptr, (isCString_iff in_mem).mpr no_nul⟩

/-- Whatever is handed out is one byte too long. -/
theorem delivers_iff {s : State} {texts : List Text} (shows : Shows s texts) (sane : Sane s)
    {val : Nat} {t : Text} (found : texts[val]? = some t) :
    Delivers s (.copyOf val) t.bytes ↔ NulInside t.bytes := by
  have inside := (List.getElem?_eq_some_iff.mp found).1
  obtain ⟨sane', shows'⟩ := shows.copy sane inside
  have found' : (texts ++ [{ isConst := false, bytes := bytesAt texts val }])[s.strs.length]? =
      some { isConst := false, bytes := t.bytes } := by
    rw [bytesAt_eq found, shows.length_eq]
    simp
  by_cases nul : NulInside t.bytes
  · have shown : content (strCopy s val) s.strs.length = some t.bytes := by
      rw [shows'.bytes, found']
      rfl
    have thrown : argS s (.copyOf val) = .ok (strCopy s val, none) := by
      rw [argS, stringify]
      simp only [strCStrNew_nul shown nul]
      rfl
    exact iff_of_true ⟨_, none, thrown, iff_of_true rfl nul.mem, nofun⟩ nul
  · refine iff_of_false ?_ nul
    obtain ⟨s', cStr, address, converted, ptr, -⟩ := strCStrNew_eq shows' sane' found' nul
    have handed : argS s (.copyOf val) = .ok (s', some (address, t.bytes.length + 1)) := by
      rw [argS, stringify]
      simp only [converted, bind, Except.bind, ptr]
      rfl
    rintro ⟨s'', result, handed', -, length⟩
    obtain ⟨rfl, rfl⟩ := Prod.mk.inj (Except.ok.inj (handed.symm.trans handed'))
    obtain ⟨length_eq, -⟩ := length _ _ rfl
    omega

/-- `pone_str_c_str` goes wrong for a string whose only NUL is its last byte, and the argument spec
`s` for every string that it does not throw for. -/
theorem cString_iff {s : State} {texts : List Text} (shows : Shows s texts) (sane : Sane s)
    {val : Nat} {t : Text} (found : texts[val]? = some t) :
    (Converts s val t.bytes ↔ NulInside t.bytes ∨ (0 : UInt8) ∉ t.bytes) ∧
      (Converts s val t.bytes ∧ Delivers s (.copyOf val) t.bytes ↔ NulInside t.bytes) := by
  have converts := converts_iff shows sane found
  rw [delivers_iff shows sane found]
  exact ⟨converts, and_iff_right_of_imp fun nul => converts.mpr (.inl nul)⟩

/-- A NUL in the middle is found. -/
theorem cString_iff_middle :
    Converts (strNewStrdup start [97, 0, 98]) 0 [97, 0, 98] ∧
      Delivers (strNewStrdup start [97, 0, 98]) (.copyOf 0) [97, 0, 98] := by
  obtain ⟨sane, shows⟩ := shows_start.new sane_start false [97, 0, 98, 0] 3 (by decide)
  have found : ([] ++ [(⟨false, [97, 0, 98]⟩ : Text)])[0]? = some ⟨false, [97, 0, 98]⟩ := rfl
  exact ((cString_iff shows sane found).2).mpr (by decide)

/-- The C string of `"a"` comes with the length 2, and the one of `"a\0"` is no C string of it. -/
theorem not_cString_end :
    ¬ Delivers (strNewStrdup start [97]) (.copyOf 0) [97] ∧
      ¬ Converts (strNewStrdup start [97, 0]) 0 [97, 0] := by
  obtain ⟨sane, shows⟩ := shows_start.new sane_start false [97, 0] 1 (by decide)
  obtain ⟨sane', shows'⟩ := shows_start.new sane_start false [97, 0, 0] 2 (by decide)
  have found : ([] ++ [(⟨false, [97]⟩ : Text)])[0]? = some ⟨false, [97]⟩ := rfl
  have found' : ([] ++ [(⟨false, [97, 0]⟩ : Text)])[0]? = some ⟨false, [97, 0]⟩ := rfl
  exact ⟨(delivers_iff shows sane found).not.mpr (by decide),
    (converts_iff shows' sane' found').not.mpr (by decide)⟩

end Str
end Pone
