import Pone.Str.Number

/-!
# `printf`

`meth_printf` goes through its format with one cursor.  Behind a `%` it looks for the first `s`, `d`,
`f` or `%`, and leaves the cursor behind a `d` or `f`, but on an `s` or `%`.
-/

namespace Pone
namespace Printf

open Decimal (isDigit)

/-- The argument of `snprintf`. -/
inductive Number (ν : Type) where
  | int (i : Int)
  | num (n : ν)

/-- `INT_MAX` -/
def intMax : Nat := 2147483647

/-- Only these go through a `%d` as they are. -/
def Number.FitsInt {ν : Type} : Number ν → Prop
  | .int i => -2147483648 ≤ i ∧ i ≤ 2147483647
  | .num _ => True

instance {ν : Type} : ∀ number : Number ν, Decidable number.FitsInt
  | .int _ => inferInstanceAs (Decidable (_ ∧ _))
  | .num _ => .isTrue trivial

/-- One of `-+ #0`. -/
def isFlag (b : UInt8) : Bool := b == 45 || b == 43 || b == 32 || b == 35 || b == 48

/-- Flags, a width and a precision. -/
def isBody (body : List UInt8) : Bool :=
  match (body.dropWhile isFlag).dropWhile isDigit with
  | [] => true
  | c :: digits => c == 46 && digits.all isDigit

/-- Values, and what `snprintf` makes of them.  With a specification of the standard it gives the
text, as `%ld` has it for an Int, if the number is what the specification asks for and the text is not
longer than an `int` can tell.  `none` is where C leaves it undefined, or where it gives an error,
which `meth_printf` takes for a length. -/
structure Formats (α ν : Type) where
  stringify : α → List UInt8
  /-- `pone_intify` and `pone_numify`, or what a method throws. -/
  intify : α → Except String Int
  numify : α → Except String ν
  snprintf : List UInt8 → Number ν → Option (List UInt8)
  /-- What C makes of a string. -/
  padded : List UInt8 → List UInt8 → List UInt8
  text : List UInt8 → Number ν → List UInt8
  snprintf_text : ∀ body conversion number, isBody body → number.FitsInt →
    (text (37 :: (body ++ [conversion])) number).length ≤ intMax →
    snprintf (37 :: (body ++ [conversion])) number =
      some (text (37 :: (body ++ [conversion])) number)
  snprintf_none : ∀ body conversion number, isBody body →
    ¬ (number.FitsInt ∧ (text (37 :: (body ++ [conversion])) number).length ≤ intMax) →
    snprintf (37 :: (body ++ [conversion])) number = none
  nul_notMem_text : ∀ spec number, 0 ∉ text spec number

variable {α ν : Type} (F : Formats α ν)

inductive Ending (α : Type) where
  /-- With the arguments that have not been asked for. -/
  | done (args : List α)
  | throws (message : String)
  | undefined

/-- What is written, by where the cursor is when it is begun, and how it ends. -/
structure Printed (α : Type) where
  log : List (Nat × List UInt8)
  ending : Ending α

def Printed.write (printed : Printed α) (p : Nat) (bytes : List UInt8) : Printed α :=
  { printed with log := (p, bytes) :: printed.log }

/-- The bytes on `stdout`. -/
def Printed.bytes (printed : Printed α) : List UInt8 := (printed.log.map Prod.snd).flatten

/-- The inner loop up to the first `s`, `d`, `f` or `%`: what it skips, that character, and what is
behind it. -/
def scan : List UInt8 → Option (List UInt8 × UInt8 × List UInt8)
  | [] => none
  | c :: rest =>
      if c = 115 ∨ c = 100 ∨ c = 102 ∨ c = 37 then some ([], c, rest)
      else (scan rest).map fun found => (c :: found.1, found.2)

theorem scan_eq {rest skipped behind : List UInt8} {c : UInt8}
    (found : scan rest = some (skipped, c, behind)) :
    rest = skipped ++ c :: behind ∧ (c = 115 ∨ c = 100 ∨ c = 102 ∨ c = 37) := by
  induction rest generalizing skipped with
  | nil => cases found
  | cons b rest ih =>
      rw [scan] at found
      split at found
      · cases found
        exact ⟨rfl, ‹_›⟩
      · obtain ⟨⟨skipped', c', behind'⟩, later, same⟩ := Option.map_eq_some_iff.mp found
        cases same
        obtain ⟨split, stops⟩ := ih later
        exact ⟨by rw [split]; rfl, stops⟩

theorem scan_length {rest skipped behind : List UInt8} {c : UInt8}
    (found : scan rest = some (skipped, c, behind)) :
    skipped.length + behind.length + 1 = rest.length := by
  rw [(scan_eq found).1, List.length_append, List.length_cons]
  omega

/-- `pone_numify` for `f`, and `pone_intify` for `d`. -/
def numeric (conversion : UInt8) (v : α) : Except String (Number ν) :=
  if conversion = 102 then (F.numify v).map .num else (F.intify v).map .int

/-- What a `%d` or `%f` comes to. -/
inductive Converted where
  | text (bytes : List UInt8)
  | throws (message : String)
  | undefined

/-- The cases `d` and `f` behind `va_arg`, with buffers of `PRINTF_BUFSIZ` bytes. -/
def convert (spec : List UInt8) (conversion : UInt8) (v : α) : Converted :=
  if 255 < spec.length then .throws "[printf] format string too long"
  else
    match numeric F conversion v with
    | .error message => .throws message
    | .ok number =>
        match F.snprintf spec number with
        | none => .undefined
        | some text =>
            let (dst, printed) := Str.snprintf 255 text
            if 255 < printed then .throws "[printf] printf buffer overrun"
            else .text (dst.take printed)

/-- The outer loop of `meth_printf`, with the cursor at `p`. -/
def printfLoop (p : Nat) (fmt : List UInt8) (args : List α) : Printed α :=
  match fmt with
  | [] => { log := [], ending := .done args }
  | c :: rest =>
      if c = 37 then
        match _found : scan rest with
        | none => { log := [], ending := .throws "invalid format for printf" }
        | some (skipped, conversion, behind) =>
            -- the cursor is on the `s` or the `%`
            if conversion = 115 then
              match args with
              | [] => { log := [], ending := .undefined }
              | v :: args =>
                  (printfLoop (p + 1 + skipped.length) (conversion :: behind) args).write p
                    (F.stringify v)
            else if conversion = 37 then
              (printfLoop (p + 1 + skipped.length) (conversion :: behind) args).write p [37]
            else
              match args with
              | [] => { log := [], ending := .undefined }
              | v :: args =>
                  match convert F (37 :: (skipped ++ [conversion])) conversion v with
                  | .text bytes =>
                      (printfLoop (p + 2 + skipped.length) behind args).write p bytes
                  | .throws message => { log := [], ending := .throws message }
                  | .undefined => { log := [], ending := .undefined }
      else (printfLoop (p + 1) rest args).write p [c]
termination_by fmt.length
decreasing_by
  all_goals
    try have := scan_length ‹scan _ = some _›
    simp only [List.length_cons]
    omega

/-- `meth_printf` with the bytes of its format -/
def methPrintf (fmt : List UInt8) (args : List α) : Printed α := printfLoop F 0 fmt args

/-! ## What is asked for -/

/-- The text of a number; `none` where the specification or the text does not fit. -/
def wanted (spec : List UInt8) (conversion : UInt8) (v : α) : Option (List UInt8) :=
  if 255 < spec.length then none
  else
    match numeric F conversion v with
    | .error _ => none
    | .ok number => if 255 < (F.text spec number).length then none else some (F.text spec number)

/-- The pieces of the format, each where it stands: ordinary characters, one `%` for each `%%`, and
the next argument for each conversion.  Any other sequence throws, and a missing argument is
undefined. -/
def expected (p : Nat) (fmt : List UInt8) (args : List α) : Printed α :=
  match fmt with
  | [] => { log := [], ending := .done args }
  | c :: rest =>
      if c = 37 then
        match _found : scan rest with
        | none => { log := [], ending := .throws "" }
        | some (body, conversion, behind) =>
            if conversion = 37 then
              if body = [] then (expected (p + 2) behind args).write p [37]
              else { log := [], ending := .throws "" }
            else if isBody body then
              match args with
              | [] => { log := [], ending := .undefined }
              | v :: args =>
                  let spec := 37 :: (body ++ [conversion])
                  if conversion = 115 then
                    (expected (p + 2 + body.length) behind args).write p
                      (F.padded spec (F.stringify v))
                  else
                    match wanted F spec conversion v with
                    | some text => (expected (p + 2 + body.length) behind args).write p text
                    | none => { log := [], ending := .throws "" }
            else { log := [], ending := .throws "" }
      else (expected (p + 1) rest args).write p [c]
termination_by fmt.length
decreasing_by
  all_goals
    try have := scan_length ‹scan _ = some _›
    simp only [List.length_cons]
    omega

/-- The same end, whatever the exception is. -/
def Ending.Same : Ending α → Ending α → Prop
  | .done args, .done args' => args = args'
  | .throws _, .throws _ => True
  | _, _ => False

/-- Each piece of the format, and nothing else, is written where it stands. -/
structure Agrees (printed wanted : Printed α) : Prop where
  log : printed.log = wanted.log
  ending : printed.ending.Same wanted.ending

/-! ## The condition -/

/-- A number of a specification of the standard is an `int` for `%d`, and its text does not have 255
bytes, nor more than an `int` can tell. -/
def NumberFits (spec : List UInt8) (conversion : UInt8) (v : α) : Prop :=
  spec.length ≤ 255 → ∀ number, numeric F conversion v = .ok number →
    number.FitsInt ∧ (F.text spec number).length ≤ intMax ∧ (F.text spec number).length ≠ 255

/-- A sequence that is not a conversion throws for another reason. -/
def ThrowsAnyway (spec : List UInt8) (conversion : UInt8) (v : α) : Prop :=
  spec.length ≤ 255 → ∀ number, numeric F conversion v = .ok number →
    ∃ text, F.snprintf spec number = some text ∧ 255 < text.length

/-- Behind a `%`, there is no `s` or `%` before the first `d` or `f`; numbers fit; and sequences that
are not conversions have no `d` or `f` either, or throw for another reason.  What is behind a piece
that throws does not matter. -/
def Fine (fmt : List UInt8) (args : List α) : Prop :=
  match fmt with
  | [] => True
  | c :: rest =>
      if c = 37 then
        match _found : scan rest with
        | none => True
        | some (body, conversion, behind) =>
            if conversion = 37 ∨ conversion = 115 then False
            else
              match args with
              | [] => False
              | v :: args =>
                  let spec := 37 :: (body ++ [conversion])
                  if isBody body then
                    NumberFits F spec conversion v ∧
                      ((wanted F spec conversion v).isSome → Fine behind args)
                  else ThrowsAnyway F spec conversion v
      else Fine rest args
termination_by fmt.length
decreasing_by
  all_goals
    try have := scan_length ‹scan _ = some _›
    simp only [List.length_cons]
    omega

/-! ## One piece after another -/

section Equations

variable {F} {p : Nat} {rest skipped behind : List UInt8} {c : UInt8} {args : List α} {v : α}

theorem printfLoop_nil : printfLoop F p [] args = { log := [], ending := .done args } := by
  rw [printfLoop]

theorem printfLoop_char (other : c ≠ 37) :
    printfLoop F p (c :: rest) args = (printfLoop F (p + 1) rest args).write p [c] := by
  rw [printfLoop, if_neg other]

theorem printfLoop_none (found : scan rest = none) :
    printfLoop F p (37 :: rest) args =
      { log := [], ending := .throws "invalid format for printf" } := by
  rw [printfLoop, if_pos rfl]
  split <;> simp_all

theorem printfLoop_s (found : scan rest = some (skipped, 115, behind)) :
    printfLoop F p (37 :: rest) (v :: args) =
      (printfLoop F (p + 1 + skipped.length) (115 :: behind) args).write p (F.stringify v) := by
  rw [printfLoop, if_pos rfl]
  split <;> simp_all

theorem printfLoop_percent (found : scan rest = some (skipped, 37, behind)) :
    printfLoop F p (37 :: rest) args =
      (printfLoop F (p + 1 + skipped.length) (37 :: behind) args).write p [37] := by
  rw [printfLoop, if_pos rfl]
  split <;> simp_all

theorem printfLoop_number (found : scan rest = some (skipped, c, behind)) (not_s : c ≠ 115)
    (not_percent : c ≠ 37) :
    printfLoop F p (37 :: rest) (v :: args) =
      match convert F (37 :: (skipped ++ [c])) c v with
      | .text bytes => (printfLoop F (p + 2 + skipped.length) behind args).write p bytes
      | .throws message => { log := [], ending := .throws message }
      | .undefined => { log := [], ending := .undefined } := by
  rw [printfLoop, if_pos rfl]
  split
  · simp_all
  · rename_i found'
    rw [found] at found'
    cases found'
    rw [if_neg not_s, if_neg not_percent]

theorem printfLoop_missing (found : scan rest = some (skipped, c, behind)) (not_percent : c ≠ 37) :
    printfLoop F p (37 :: rest) [] = { log := [], ending := .undefined } := by
  rw [printfLoop, if_pos rfl]
  split
  · simp_all
  · rename_i found'
    rw [found] at found'
    cases found'
    rw [if_neg not_percent]
    split <;> rfl

theorem expected_nil : expected F p [] args = { log := [], ending := .done args } := by
  rw [expected]

theorem expected_char (other : c ≠ 37) :
    expected F p (c :: rest) args = (expected F (p + 1) rest args).write p [c] := by
  rw [expected, if_neg other]

theorem expected_none (found : scan rest = none) :
    expected F p (37 :: rest) args = { log := [], ending := .throws "" } := by
  rw [expected, if_pos rfl]
  split <;> simp_all

theorem expected_percent (found : scan rest = some ([], 37, behind)) :
    expected F p (37 :: rest) args = (expected F (p + 2) behind args).write p [37] := by
  rw [expected, if_pos rfl]
  split <;> simp_all

theorem expected_invalid (found : scan rest = some (skipped, c, behind))
    (invalid : c = 37 ∧ skipped ≠ [] ∨ c ≠ 37 ∧ isBody skipped = false) :
    expected F p (37 :: rest) args = { log := [], ending := .throws "" } := by
  rw [expected, if_pos rfl]
  split
  · simp_all
  · rename_i found'
    rw [found] at found'
    cases found'
    rcases invalid with ⟨rfl, some_body⟩ | ⟨other, not_body⟩
    · rw [if_pos rfl, if_neg some_body]
    · rw [if_neg other, if_neg (by simp [not_body])]

theorem expected_s (found : scan rest = some (skipped, 115, behind)) (body : isBody skipped) :
    expected F p (37 :: rest) (v :: args) =
      (expected F (p + 2 + skipped.length) behind args).write p
        (F.padded (37 :: (skipped ++ [115])) (F.stringify v)) := by
  rw [expected, if_pos rfl]
  split <;> simp_all

theorem expected_number (found : scan rest = some (skipped, c, behind)) (not_s : c ≠ 115)
    (not_percent : c ≠ 37) (body : isBody skipped) :
    expected F p (37 :: rest) (v :: args) =
      match wanted F (37 :: (skipped ++ [c])) c v with
      | some text => (expected F (p + 2 + skipped.length) behind args).write p text
      | none => { log := [], ending := .throws "" } := by
  rw [expected, if_pos rfl]
  split
  · simp_all
  · rename_i found'
    rw [found] at found'
    cases found'
    rw [if_neg not_percent, if_pos body]
    simp only [if_neg not_s]

theorem expected_missing (found : scan rest = some (skipped, c, behind)) (not_percent : c ≠ 37)
    (body : isBody skipped) :
    expected F p (37 :: rest) [] = { log := [], ending := .undefined } := by
  rw [expected, if_pos rfl]
  split
  · simp_all
  · rename_i found'
    rw [found] at found'
    cases found'
    rw [if_neg not_percent, if_pos body]

theorem fine_nil : Fine F [] args := by
  rw [Fine]
  trivial

theorem fine_char (other : c ≠ 37) : Fine F (c :: rest) args ↔ Fine F rest args := by
  rw [Fine, if_neg other]

theorem fine_none (found : scan rest = none) : Fine F (37 :: rest) args := by
  rw [Fine, if_pos rfl]
  split <;> simp_all

theorem not_fine_stop (found : scan rest = some (skipped, c, behind)) (stop : c = 37 ∨ c = 115) :
    ¬ Fine F (37 :: rest) args := by
  rw [Fine, if_pos rfl]
  split
  · simp_all
  · rename_i found'
    rw [found] at found'
    cases found'
    rw [if_pos stop]
    exact id

theorem not_fine_missing (found : scan rest = some (skipped, c, behind)) :
    ¬ Fine F (37 :: rest) [] := by
  rw [Fine, if_pos rfl]
  split
  · simp_all
  · split <;> exact id

theorem fine_number (found : scan rest = some (skipped, c, behind)) (not_s : c ≠ 115)
    (not_percent : c ≠ 37) (body : isBody skipped) :
    Fine F (37 :: rest) (v :: args) ↔
      NumberFits F (37 :: (skipped ++ [c])) c v ∧
        ((wanted F (37 :: (skipped ++ [c])) c v).isSome → Fine F behind args) := by
  rw [Fine, if_pos rfl]
  split
  · simp_all
  · rename_i found'
    rw [found] at found'
    cases found'
    rw [if_neg (not_or.mpr ⟨not_percent, not_s⟩)]
    simp only [body, if_true]

theorem fine_invalid (found : scan rest = some (skipped, c, behind)) (not_s : c ≠ 115)
    (not_percent : c ≠ 37) (not_body : isBody skipped = false) :
    Fine F (37 :: rest) (v :: args) ↔ ThrowsAnyway F (37 :: (skipped ++ [c])) c v := by
  rw [Fine, if_pos rfl]
  split
  · simp_all
  · rename_i found'
    rw [found] at found'
    cases found'
    rw [if_neg (not_or.mpr ⟨not_percent, not_s⟩)]
    simp only [not_body, Bool.false_eq_true, if_false]

end Equations

variable {F}

theorem agrees_write_iff {r r' : Printed α} {p p' : Nat} {bytes bytes' : List UInt8} :
    Agrees (r.write p bytes) (r'.write p' bytes') ↔ (p = p' ∧ bytes = bytes') ∧ Agrees r r' := by
  constructor
  · rintro ⟨log, ending⟩
    obtain ⟨first, rest⟩ := List.cons.inj log
    exact ⟨Prod.mk.inj first, rest, ending⟩
  · rintro ⟨⟨rfl, rfl⟩, log, ending⟩
    exact ⟨congrArg ((p, bytes) :: ·) log, ending⟩

theorem not_agrees_of_write {r : Printed α} {p : Nat} {bytes : List UInt8} {ending : Ending α} :
    ¬ Agrees (r.write p bytes) { log := [], ending } := fun agrees => nomatch agrees.log

theorem not_agrees_write {r : Printed α} {p : Nat} {bytes : List UInt8} {ending : Ending α} :
    ¬ Agrees { log := [], ending } (r.write p bytes) := fun agrees => nomatch agrees.log

theorem not_agrees_undefined {log : List (Nat × List UInt8)} {r : Printed α} :
    ¬ Agrees { log, ending := .undefined } r := fun agrees => agrees.ending

/-- Pieces are written where they stand. -/
theorem le_of_mem_expected {p : Nat} {fmt : List UInt8} {args : List α} :
    ∀ e ∈ (expected F p fmt args).log, p ≤ e.1 := by
  induction size : fmt.length using Nat.strongRecOn generalizing p fmt args with
  | ind size ih =>
      subst size
      -- behind one piece
      have further {q : Nat} {behind : List UInt8} {args : List α} {bytes : List UInt8}
          (shorter : behind.length < fmt.length) (later : p ≤ q) :
          ∀ e ∈ ((expected F q behind args).write p bytes).log, p ≤ e.1 := by
        intro e member
        rcases List.mem_cons.mp member with rfl | member
        · exact Nat.le_refl _
        · exact Nat.le_trans later (ih _ shorter rfl e member)
      cases fmt with
      | nil => simp [expected_nil]
      | cons c rest =>
          by_cases percent : c = 37
          · subst percent
            cases found : scan rest with
            | none => simp [expected_none found]
            | some result =>
                obtain ⟨body, conversion, behind⟩ := result
                have shorter : behind.length < (37 :: rest).length := by
                  have := scan_length found
                  rw [List.length_cons]
                  omega
                by_cases twice : conversion = 37
                · subst twice
                  by_cases empty : body = []
                  · subst empty
                    rw [expected_percent found]
                    exact further shorter (by omega)
                  · simp [expected_invalid found (.inl ⟨rfl, empty⟩)]
                · cases valid : isBody body with
                  | false => simp [expected_invalid found (.inr ⟨twice, valid⟩)]
                  | true =>
                      cases args with
                      | nil => simp [expected_missing found twice valid]
                      | cons v args =>
                          by_cases string : conversion = 115
                          · subst string
                            rw [expected_s found valid]
                            exact further shorter (by omega)
                          · rw [expected_number found string twice valid]
                            split
                            · exact further shorter (by omega)
                            · simp
          · rw [expected_char percent]
            exact further (by simp) (by omega)

/-- A `%s` or `%%` leaves the cursor on its last character. -/
theorem not_agrees_behind {p q : Nat} {r : Printed α} {bytes : List UInt8}
    {fmt : List UInt8} {args : List α} (later : q < p) :
    ¬ Agrees (r.write q bytes) (expected F p fmt args) := by
  intro agrees
  have member : (q, bytes) ∈ (expected F p fmt args).log := by
    rw [← agrees.log]
    exact List.mem_cons_self ..
  exact absurd (le_of_mem_expected _ member) (Nat.not_le.mpr later)

/-! ## Numbers -/

/-- What is written of a text is the text, unless the last byte of it has no room. -/
theorem take_snprintf (text : List UInt8) (fits : text.length ≤ 255) (no_nul : 0 ∉ text) :
    (Str.snprintf 255 text).1.take text.length = text ↔ text.length ≠ 255 := by
  rw [Str.snprintf]
  simp only [Nat.reduceSub]
  by_cases full : text.length = 255
  · refine iff_of_false (fun same => no_nul ?_) (not_not_intro full)
    rw [← same, List.take_of_length_le (by simp [full])]
    simp
  · have short : text.length ≤ 254 := by omega
    rw [List.take_of_length_le short, List.take_left]
    exact iff_of_true rfl full

/-- How a number of a specification of the standard is converted. -/
inductive Conversion (F : Formats α ν) (spec : List UInt8) (conversion : UInt8) (v : α) : Prop
  | right (text : List UInt8) (want : wanted F spec conversion v = some text)
      (got : convert F spec conversion v = .text text) (fits : NumberFits F spec conversion v)
  | throws (message : String) (want : wanted F spec conversion v = none)
      (got : convert F spec conversion v = .throws message) (fits : NumberFits F spec conversion v)
  | cut (text text' : List UInt8) (want : wanted F spec conversion v = some text)
      (got : convert F spec conversion v = .text text') (differ : text' ≠ text)
      (fails : ¬ NumberFits F spec conversion v)
  | undefined (got : convert F spec conversion v = .undefined)
      (fails : ¬ NumberFits F spec conversion v)

theorem conversion_cases {body : List UInt8} (valid : isBody body) (c : UInt8) (v : α) :
    Conversion F (37 :: (body ++ [c])) c v := by
  have take_text := F.snprintf_text body c
  have take_none := F.snprintf_none body c
  generalize 37 :: (body ++ [c]) = spec at take_text take_none ⊢
  by_cases long : 255 < spec.length
  · refine .throws "[printf] format string too long" ?_ ?_ fun short => absurd long (by omega)
    · rw [wanted, if_pos long]
    · rw [convert, if_pos long]
  · cases number : numeric F c v with
    | error message =>
        refine .throws message ?_ ?_ fun _ other same => ?_
        · rw [wanted, if_neg long, number]
        · rw [convert, if_neg long, number]
        · rw [number] at same
          cases same
    | ok n =>
        have fits_iff : NumberFits F spec c v ↔
            n.FitsInt ∧ (F.text spec n).length ≤ intMax ∧ (F.text spec n).length ≠ 255 := by
          rw [NumberFits, number]
          constructor
          · exact fun fits => fits (by omega) n rfl
          · rintro fits - other same
            cases same
            exact fits
        by_cases good : n.FitsInt ∧ (F.text spec n).length ≤ intMax
        · have snprintf := take_text n valid good.1 good.2
          have got : convert F spec c v =
              if 255 < (F.text spec n).length then .throws "[printf] printf buffer overrun"
              else .text ((Str.snprintf 255 (F.text spec n)).1.take (F.text spec n).length) := by
            rw [convert, if_neg long, number]
            simp only [snprintf]
            rfl
          have want : wanted F spec c v =
              if 255 < (F.text spec n).length then none else some (F.text spec n) := by
            rw [wanted, if_neg long, number]
          by_cases wide : 255 < (F.text spec n).length
          · rw [if_pos wide] at got want
            exact .throws _ want got (fits_iff.mpr ⟨good.1, good.2, by omega⟩)
          · rw [if_neg wide] at got want
            have whole := take_snprintf (F.text spec n) (by omega) (F.nul_notMem_text spec n)
            by_cases full : (F.text spec n).length = 255
            · refine .cut _ _ want got (whole.not.mpr (not_not_intro full)) fun fits => ?_
              exact (fits_iff.mp fits).2.2 full
            · rw [whole.mpr full] at got
              exact .right _ want got (fits_iff.mpr ⟨good.1, good.2, full⟩)
        · refine .undefined ?_ fun fits => good ⟨(fits_iff.mp fits).1, (fits_iff.mp fits).2.1⟩
          rw [convert, if_neg long, number]
          simp only [take_none n valid good]

theorem throwsAnyway_iff (spec : List UInt8) (c : UInt8) (v : α) :
    ThrowsAnyway F spec c v ↔ ∃ message, convert F spec c v = .throws message := by
  rw [ThrowsAnyway, convert]
  by_cases long : 255 < spec.length
  · rw [if_pos long]
    exact iff_of_true (fun short => absurd long (by omega)) ⟨_, rfl⟩
  · rw [if_neg long]
    have short : spec.length ≤ 255 := by omega
    simp only [short, true_imp_iff]
    cases numeric F c v with
    | error message => simp
    | ok n =>
        simp only [Except.ok.injEq, forall_eq']
        cases F.snprintf spec n with
        | none => simp
        | some text =>
            simp only [Option.some.injEq, exists_eq_left', Str.snprintf]
            by_cases wide : 255 < text.length <;> simp [wide]

/-! ## The whole format -/

/-- Where a sequence throws, an ordinary character is expected. -/
theorem not_agrees_throws {q : Nat} {fmt : List UInt8} {args : List α} {message : String}
    (ordinary : ∀ rest, fmt ≠ 37 :: rest) :
    ¬ Agrees { log := [], ending := .throws message } (expected F q fmt args) := by
  cases fmt with
  | nil =>
      rw [expected_nil]
      exact fun agrees => agrees.ending
  | cons c rest =>
      have other : c ≠ 37 := fun percent => ordinary rest (by rw [percent])
      rw [expected_char other]
      exact not_agrees_write

/-- The second character of a `%%` begins another sequence. -/
theorem not_agrees_percent {p : Nat} {rest body behind : List UInt8} {args : List α}
    (found : scan rest = some (body, 37, behind)) :
    ¬ Agrees (printfLoop F p (37 :: rest) args) (expected F p (37 :: rest) args) := by
  rw [printfLoop_percent found]
  by_cases empty : body = []
  · subst empty
    rw [expected_percent found, agrees_write_iff]
    rintro ⟨-, agrees⟩
    revert agrees
    rw [List.length_nil, Nat.add_zero]
    cases found' : scan behind with
    | none =>
        rw [printfLoop_none found']
        refine not_agrees_throws fun rest percent => ?_
        rw [percent, scan, if_pos (by simp)] at found'
        cases found'
    | some result =>
        obtain ⟨skipped, conversion, behind'⟩ := result
        by_cases twice : conversion = 37
        · subst twice
          rw [printfLoop_percent found']
          exact not_agrees_behind (by omega)
        · cases args with
          | nil =>
              rw [printfLoop_missing found' twice]
              exact not_agrees_undefined
          | cons v args =>
              by_cases string : conversion = 115
              · subst string
                rw [printfLoop_s found']
                exact not_agrees_behind (by omega)
              · rw [printfLoop_number found' string twice]
                split
                · exact not_agrees_behind (by omega)
                · refine not_agrees_throws fun rest percent => ?_
                  rw [percent, scan, if_pos (by simp)] at found'
                  cases found'
                  exact twice rfl
                · exact not_agrees_undefined
  · rw [expected_invalid found (.inl ⟨rfl, empty⟩)]
    exact not_agrees_of_write

/-- The `s` of a `%s` is written as well. -/
theorem not_agrees_s {p : Nat} {rest body behind : List UInt8} {args : List α}
    (found : scan rest = some (body, 115, behind))
    (enough : (expected F p (37 :: rest) args).ending ≠ .undefined) :
    ¬ Agrees (printfLoop F p (37 :: rest) args) (expected F p (37 :: rest) args) := by
  cases args with
  | nil =>
      rw [printfLoop_missing found (by decide)]
      exact not_agrees_undefined
  | cons v args =>
      rw [printfLoop_s found, printfLoop_char (by decide)]
      cases valid : isBody body with
      | false =>
          rw [expected_invalid found (.inr ⟨by decide, valid⟩)]
          exact not_agrees_of_write
      | true =>
          rw [expected_s found valid, agrees_write_iff]
          exact fun agrees => not_agrees_behind (by omega) agrees.2

theorem agrees_invalid_iff {p : Nat} {rest body behind : List UInt8} {c : UInt8} {args : List α}
    (found : scan rest = some (body, c, behind)) (not_s : c ≠ 115) (not_percent : c ≠ 37)
    (invalid : isBody body = false) :
    Agrees (printfLoop F p (37 :: rest) args) (expected F p (37 :: rest) args) ↔
      Fine F (37 :: rest) args := by
  rw [expected_invalid found (.inr ⟨not_percent, invalid⟩)]
  cases args with
  | nil =>
      rw [printfLoop_missing found not_percent]
      exact iff_of_false not_agrees_undefined (not_fine_missing found)
  | cons v args =>
      rw [printfLoop_number found not_s not_percent, fine_invalid found not_s not_percent invalid,
        throwsAnyway_iff]
      split <;> rename_i got
      · exact iff_of_false not_agrees_of_write (by simp [got])
      · exact iff_of_true ⟨rfl, trivial⟩ ⟨_, got⟩
      · exact iff_of_false not_agrees_undefined (by simp [got])

theorem agrees_number_iff {p : Nat} {rest body behind : List UInt8} {c : UInt8} {args : List α}
    (found : scan rest = some (body, c, behind)) (not_s : c ≠ 115) (not_percent : c ≠ 37)
    (valid : isBody body)
    (enough : (expected F p (37 :: rest) args).ending ≠ .undefined)
    (later : ∀ {q : Nat} {args : List α}, (expected F q behind args).ending ≠ .undefined →
      (Agrees (printfLoop F q behind args) (expected F q behind args) ↔ Fine F behind args)) :
    Agrees (printfLoop F p (37 :: rest) args) (expected F p (37 :: rest) args) ↔
      Fine F (37 :: rest) args := by
  cases args with
  | nil =>
      rw [expected_missing found not_percent valid] at enough
      exact absurd rfl enough
  | cons v args =>
      rw [expected_number found not_s not_percent valid] at enough ⊢
      rw [printfLoop_number found not_s not_percent, fine_number found not_s not_percent valid]
      cases conversion_cases (F := F) valid c v with
      | right text want got fits =>
          rw [want] at enough ⊢
          rw [got, agrees_write_iff, and_iff_right ⟨rfl, rfl⟩, and_iff_right fits]
          simp only [Option.isSome_some, true_imp_iff]
          exact later enough
      | throws message want got fits =>
          rw [want, got]
          exact iff_of_true ⟨rfl, trivial⟩ ⟨fits, nofun⟩
      | cut text text' want got differ fails =>
          rw [want, got, agrees_write_iff]
          exact iff_of_false (fun agrees => differ agrees.1.2) fun fine => fails fine.1
      | undefined got fails =>
          rw [got]
          exact iff_of_false not_agrees_undefined fun fine => fails fine.1

theorem agrees_printfLoop_iff {p : Nat} {fmt : List UInt8} {args : List α}
    (enough : (expected F p fmt args).ending ≠ .undefined) :
    Agrees (printfLoop F p fmt args) (expected F p fmt args) ↔ Fine F fmt args := by
  induction size : fmt.length using Nat.strongRecOn generalizing p fmt args with
  | ind size ih =>
      subst size
      cases fmt with
      | nil =>
          rw [printfLoop_nil, expected_nil]
          exact iff_of_true ⟨rfl, rfl⟩ fine_nil
      | cons c rest =>
          by_cases percent : c = 37
          · subst percent
            cases found : scan rest with
            | none =>
                rw [printfLoop_none found, expected_none found]
                exact iff_of_true ⟨rfl, trivial⟩ (fine_none found)
            | some result =>
                obtain ⟨body, conversion, behind⟩ := result
                have shorter : behind.length < (37 :: rest).length := by
                  have := scan_length found
                  rw [List.length_cons]
                  omega
                by_cases twice : conversion = 37
                · subst twice
                  exact iff_of_false (not_agrees_percent found) (not_fine_stop found (.inl rfl))
                · by_cases string : conversion = 115
                  · subst string
                    exact iff_of_false (not_agrees_s found enough) (not_fine_stop found (.inr rfl))
                  · cases valid : isBody body with
                    | false => exact agrees_invalid_iff found string twice valid
                    | true =>
                        exact agrees_number_iff found string twice valid enough
                          fun enough => ih _ shorter enough rfl
          · rw [printfLoop_char percent, expected_char percent, agrees_write_iff,
              and_iff_right ⟨rfl, rfl⟩, fine_char percent]
            rw [expected_char percent] at enough
            exact ih _ (by simp) enough rfl

/-- `printf` writes the pieces of its format, each in its place, or throws, exactly when there is no
`%s` or `%%`, when numbers fit, and when what is not a conversion cannot be taken for one. -/
theorem methPrintf_iff (F : Formats α ν) (fmt : List UInt8) (args : List α)
    (enough : (expected F 0 fmt args).ending ≠ .undefined) :
    Agrees (methPrintf F fmt args) (expected F 0 fmt args) ↔ Fine F fmt args :=
  agrees_printfLoop_iff enough

/-- Strings and Ints, with the texts of plain `%s` and `%d`. -/
def plain : Formats (List UInt8 ⊕ Int) Empty where
  stringify := Sum.elim id Str.intText
  intify := Sum.elim (fun _ => .error "") .ok
  numify _ := .error ""
  snprintf spec number :=
    match number with
    | .int i =>
        if (Number.int i : Number Empty).FitsInt ∧ (Str.intText i).length ≤ intMax then
          some (Str.intText i)
        else none
  padded _ text := text
  text _ number :=
    match number with
    | .int i => Str.intText i
  snprintf_text body conversion number _ fits short := by
    cases number with
    | int i => exact if_pos ⟨fits, short⟩
    | num n => exact n.elim
  snprintf_none body conversion number _ fails := by
    cases number with
    | int i => exact if_neg fails
    | num n => exact n.elim
  nul_notMem_text spec number := by
    cases number with
    | int i => exact Str.nul_notMem_intText i
    | num n => exact n.elim

/-- `printf("%d", 7)` -/
theorem methPrintf_iff_seven :
    Agrees (methPrintf plain [37, 100] [.inr 7]) (expected plain 0 [37, 100] [.inr 7]) := by
  have found : scan [100] = some ([], 100, []) := by rfl
  have enough : (expected plain 0 [37, 100] [.inr 7]).ending ≠ .undefined := by
    rw [expected_number found (by decide) (by decide) (by decide)]
    split
    · rw [expected_nil]
      exact nofun
    · exact nofun
  refine (methPrintf_iff plain [37, 100] [.inr 7] enough).mpr ?_
  rw [fine_number found (by decide) (by decide) (by decide)]
  refine ⟨fun _ number same => ?_, fun _ => fine_nil⟩
  obtain rfl : Number.int 7 = number := Except.ok.inj same
  decide

/-- `printf("%s", "x")` writes `xs`, and `printf("%%")` throws. -/
theorem not_methPrintf :
    (methPrintf plain [37, 115] [.inl [120]]).bytes = [120, 115] ∧
      (expected plain 0 [37, 115] [.inl [120]]).bytes = [120] ∧
      (methPrintf plain [37, 37] []).ending = .throws "invalid format for printf" ∧
      (expected plain 0 [37, 37] []).ending = .done [] := by
  have string : scan [115] = some ([], 115, []) := by rfl
  have percent : scan [37] = some ([], 37, []) := by rfl
  refine ⟨?_, ?_, ?_, ?_⟩
  · rw [methPrintf, printfLoop_s string, printfLoop_char (by decide), printfLoop_nil]
    rfl
  · rw [expected_s string (by decide), expected_nil]
    rfl
  · rw [methPrintf, printfLoop_percent percent, printfLoop_none (by rfl)]
    rfl
  · rw [expected_percent percent, expected_nil]
    rfl

end Printf
end Pone
