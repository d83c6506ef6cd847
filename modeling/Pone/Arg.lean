import Mathlib.Algebra.GroupWithZero.Nat
import Mathlib.Logic.Function.Basic

/-!
# The arguments of built-in functions

`pone_arg` goes through a spec and two lists: the arguments that were passed and the pointers to the
variables that it sets.  It counts the arguments that it has used, and not those that it was passed.
-/

namespace Pone
namespace Arg

/-- What is stored in an output variable. -/
inductive Out (α ρ : Type) where
  | object (a : α)
  | pointer (p : ρ)
  | int (i : Int)
  deriving DecidableEq

/-- `pone_str_c_str` of `pone_stringify`, with the length of the result, and `pone_intify`, where they
do not throw. -/
structure Conversions (α ρ : Type) where
  cStr : α → Except String (ρ × Int)
  intify : α → Except String Int

/-- What `pone_arg` comes to; `wild` where it reads a pointer or an argument that is not there. -/
inductive Outcome (σ : Type) where
  | returns (store : σ)
  | throws (message : String)
  | wild

/-- `min_args` -/
def minArgs : List Char → Nat
  | [] => 0
  | c :: rest => if c = ':' then 0 else minArgs rest + 1

/-- `max_args` -/
def maxArgs : List Char → Nat
  | [] => 0
  | c :: rest => if c ≠ ':' then maxArgs rest + 1 else maxArgs rest

/-- `expected … opts but you passed … opts.` -/
def countError (name : String) (spec : List Char) (nargs : Nat) : String :=
  name ++ ": expected " ++ toString (minArgs spec) ++ "~" ++ toString (maxArgs spec) ++
    " opts but you passed " ++ toString nargs ++ " opts."

/-- `Unknown argument spec char`, with the first character of the spec. -/
def charError (name : String) (spec : List Char) : String :=
  name ++ ": Unknown argument spec char: '" ++ String.ofList (spec.take 1) ++ "'"

variable {α ρ : Type}

/-- The output variables by their addresses. -/
abbrev Store (α ρ : Type) := Nat → Option (Out α ρ)

def setAll (store : Store α ρ) (writes : List (Nat × Out α ρ)) : Store α ρ :=
  writes.foldl (fun store w => Function.update store w.1 (some w.2)) store

/-- The number of pointers that belong to a character of the spec. -/
def outputs (c : Char) : Nat := if c = 's' then 2 else 1

/-- What a character of the spec makes of an argument. -/
def convert (conv : Conversions α ρ) (c : Char) (arg : α) : Except String (List (Out α ρ)) :=
  if c = 's' then do
    let (p, len) ← conv.cStr arg
    return [.pointer p, .int len]
  else if c = 'i' then do return [.int (← conv.intify arg)]
  else return [.object arg]

/-- The loop over the spec from `p` on, up to the last check; `option` and `used` are its variables,
`vars` and `args` what is left of the lists. -/
def argLoop (conv : Conversions α ρ) (name : String) (spec : List Char) (nargs : Nat) :
    List Char → Bool → Nat → List Nat → List α → Store α ρ → Outcome (Nat × Store α ρ)
  | [], _, used, _, _, store => .returns (used, store)
  | c :: p, option, used, vars, args, store =>
      if c = 'o' ∨ c = 's' ∨ c = 'i' then
        if nargs ≤ used then
          if option then argLoop conv name spec nargs p option used vars args store
          else .throws (countError name spec nargs)
        else if vars.length < outputs c then .wild
        else
          match args with
          | [] => .wild
          | arg :: args =>
              match convert conv c arg with
              | .error message => .throws message
              | .ok outs =>
                  argLoop conv name spec nargs p option (used + 1) (vars.drop (outputs c)) args
                    (setAll store ((vars.take (outputs c)).zip outs))
      else if c = ':' then argLoop conv name spec nargs p true used vars args store
      else .throws (charError name spec)

/-- `pone_arg` -/
def poneArg (conv : Conversions α ρ) (name : String) (args : List α) (spec : List Char)
    (vars : List Nat) (store : Store α ρ) : Outcome (Store α ρ) :=
  match argLoop conv name spec args.length spec false 0 vars args store with
  | .returns (used, store) =>
      if used < minArgs spec ∨ maxArgs spec < used then .throws (countError name spec args.length)
      else .returns store
  | .throws message => .throws message
  | .wild => .wild

/-! ## What the spec asks for -/

/-- The characters of a spec, of which `pone_arg` has a case. -/
def Known (c : Char) : Prop := (c = 'o' ∨ c = 's' ∨ c = 'i') ∨ c = ':'

/-- The characters that stand for an argument. -/
def kinds (spec : List Char) : List Char := spec.filter (· ≠ ':')

/-- The number of pointers that a spec comes with. -/
def outputsOf (spec : List Char) : Nat := ((kinds spec).map outputs).sum

/-- What is stored where, when every argument is matched with its character and its pointers, as far
as there are arguments. -/
def assigned (conv : Conversions α ρ) :
    List Char → List Nat → List α → Except String (List (Nat × Out α ρ))
  | c :: kinds, vars, arg :: args => do
      let outs ← convert conv c arg
      return (vars.take (outputs c)).zip outs ++ (← assigned conv kinds (vars.drop (outputs c)) args)
  | _, _, _ => return []

/-- The number of arguments is one that the spec admits. -/
def Admits (spec : List Char) (nargs : Nat) : Prop := minArgs spec ≤ nargs ∧ nargs ≤ maxArgs spec

instance (spec : List Char) (nargs : Nat) : Decidable (Admits spec nargs) :=
  inferInstanceAs (Decidable (_ ∧ _))

/-- The arguments that are matched with a character convert as it says. -/
def Convertible (conv : Conversions α ρ) (spec : List Char) (args : List α) : Prop :=
  ∀ pair ∈ (kinds spec).zip args, ∃ outs, convert conv pair.1 pair.2 = .ok outs

/-- The variables of the first arguments are set from them and the others are left alone if the number
of arguments is admitted, and else there is an exception. -/
def Checked (conv : Conversions α ρ) (spec : List Char) (args : List α) (vars : List Nat)
    (store : Store α ρ) (outcome : Outcome (Store α ρ)) : Prop :=
  if Admits spec args.length then
    ∃ writes, assigned conv (kinds spec) vars args = .ok writes ∧
      outcome = .returns (setAll store writes)
  else ∃ message, outcome = .throws message

theorem maxArgs_eq (spec : List Char) : maxArgs spec = (kinds spec).length := by
  induction spec with
  | nil => rfl
  | cons c rest ih => by_cases h : c = ':' <;> simp [maxArgs, kinds, h, ih]

theorem minArgs_le_maxArgs (spec : List Char) : minArgs spec ≤ maxArgs spec := by
  induction spec with
  | nil => exact Nat.le_refl 0
  | cons c rest ih => by_cases h : c = ':' <;> simp [minArgs, maxArgs, h, ih]

@[simp] theorem kinds_colon (rest : List Char) : kinds (':' :: rest) = kinds rest := by
  simp [kinds]

theorem kinds_cons {c : Char} (h : c ≠ ':') (rest : List Char) :
    kinds (c :: rest) = c :: kinds rest := by
  simp [kinds, h]

theorem ne_colon {c : Char} (h : c = 'o' ∨ c = 's' ∨ c = 'i') : c ≠ ':' := by
  rcases h with rfl | rfl | rfl <;> decide

theorem outputsOf_cons {c : Char} (h : c ≠ ':') (rest : List Char) :
    outputsOf (c :: rest) = outputs c + outputsOf rest := by
  simp [outputsOf, kinds_cons h]

/-! ## The loop -/

/-- The arguments that the rest of a spec asks for at least, before and after the colon. -/
def required (option : Bool) (p : List Char) : Nat := if option then 0 else minArgs p

theorem required_cons {c : Char} (h : c ≠ ':') (option : Bool) (rest : List Char) :
    required option (c :: rest) ≤ required option rest + 1 := by
  cases option <;> simp [required, minArgs, h]

@[simp] theorem required_colon (option : Bool) (rest : List Char) :
    required option (':' :: rest) = 0 := by
  cases option <;> simp [required, minArgs]

section Loop

variable (conv : Conversions α ρ) (name : String) (spec : List Char) {nargs : Nat}

theorem argLoop_colon (p : List Char) (option : Bool) (used : Nat) (vars : List Nat)
    (args : List α) (store : Store α ρ) :
    argLoop conv name spec nargs (':' :: p) option used vars args store =
      argLoop conv name spec nargs p true used vars args store := by
  simp [argLoop]

/-- A character of an argument, when there are no arguments left. -/
theorem argLoop_short {c : Char} (hc : c = 'o' ∨ c = 's' ∨ c = 'i') {used : Nat}
    (hused : nargs ≤ used) (p : List Char) (option : Bool) (vars : List Nat) (args : List α)
    (store : Store α ρ) :
    argLoop conv name spec nargs (c :: p) option used vars args store =
      if option then argLoop conv name spec nargs p option used vars args store
      else .throws (countError name spec nargs) := by
  rw [argLoop.eq_def]
  simp only [if_pos hc, if_pos hused]

/-- A character of an argument, when there is one. -/
theorem argLoop_arg {c : Char} (hc : c = 'o' ∨ c = 's' ∨ c = 'i') {used : Nat}
    (hused : used < nargs) {vars : List Nat} (hvars : outputs c ≤ vars.length) (p : List Char)
    (option : Bool) (arg : α) (args : List α) (store : Store α ρ) :
    argLoop conv name spec nargs (c :: p) option used vars (arg :: args) store =
      match convert conv c arg with
      | .error message => .throws message
      | .ok outs =>
          argLoop conv name spec nargs p option (used + 1) (vars.drop (outputs c)) args
            (setAll store ((vars.take (outputs c)).zip outs)) := by
  rw [argLoop, if_pos hc, if_neg (Nat.not_le.mpr hused), if_neg (Nat.not_lt.mpr hvars)]

/-- Too few arguments are noticed, at the latest where they run out. -/
theorem argLoop_throws {p : List Char} (known : ∀ c ∈ p, Known c) {option : Bool} {used : Nat}
    {vars : List Nat} (hvars : outputsOf p ≤ vars.length) {args : List α}
    (hnargs : nargs = used + args.length) (hfew : args.length < required option p)
    (store : Store α ρ) :
    ∃ message, argLoop conv name spec nargs p option used vars args store = .throws message := by
  induction p generalizing used vars args store with
  | nil => cases option <;> exact absurd hfew (Nat.not_lt_zero _)
  | cons c p ih =>
    rcases known c List.mem_cons_self with hc | rfl
    · have hcolon := ne_colon hc
      rw [outputsOf_cons hcolon] at hvars
      have hrequired := required_cons hcolon option p
      cases args with
      | nil =>
        cases option with
        | true => exact absurd hfew (Nat.not_lt_zero _)
        | false => exact ⟨_, argLoop_short conv name spec hc (by simp [hnargs]) p false vars [] store⟩
      | cons arg args =>
        rw [List.length_cons] at hnargs hfew
        rw [argLoop_arg conv name spec hc (by omega) (by omega)]
        cases hconvert : convert conv c arg with
        | error message => exact ⟨message, rfl⟩
        | ok outs =>
          apply ih (fun c h => known c (List.mem_cons_of_mem _ h))
          · rw [List.length_drop]
            omega
          · omega
          · omega
    · rw [required_colon] at hfew
      exact absurd hfew (Nat.not_lt_zero _)

theorem setAll_append (store : Store α ρ) (first rest : List (Nat × Out α ρ)) :
    setAll store (first ++ rest) = setAll (setAll store first) rest :=
  List.foldl_append

/-- With arguments enough, each is stored through the pointers of its own character, and the first of
them that does not convert ends the loop. -/
theorem argLoop_eq {p : List Char} (known : ∀ c ∈ p, Known c) {option : Bool} {used : Nat}
    {vars : List Nat} (hvars : outputsOf p ≤ vars.length) {args : List α}
    (hnargs : nargs = used + args.length) (henough : required option p ≤ args.length)
    (store : Store α ρ) :
    argLoop conv name spec nargs p option used vars args store =
      match assigned conv (kinds p) vars args with
      | .error message => .throws message
      | .ok writes => .returns (used + min (kinds p).length args.length, setAll store writes) := by
  induction p generalizing option used vars args store with
  | nil => simp [argLoop, kinds, assigned, setAll, pure, Except.pure]
  | cons c p ih =>
    have known' : ∀ c ∈ p, Known c := fun c h => known c (List.mem_cons_of_mem _ h)
    rcases known c List.mem_cons_self with hc | rfl
    · have hcolon := ne_colon hc
      rw [outputsOf_cons hcolon] at hvars
      rw [kinds_cons hcolon]
      cases args with
      | nil =>
        -- only behind the colon can the arguments be used up
        have hoption : option = true := by
          cases option
          · simp [required, minArgs, hcolon] at henough
          · rfl
        subst hoption
        rw [argLoop_short conv name spec hc (by simp [hnargs]), if_pos rfl,
          ih known' (by omega) hnargs (Nat.zero_le _)]
        simp [assigned]
      | cons arg args =>
        rw [List.length_cons] at hnargs henough
        rw [argLoop_arg conv name spec hc (by omega) (by omega)]
        cases hconvert : convert conv c arg with
        | error message => simp [assigned, hconvert, bind, Except.bind]
        | ok outs =>
          have hrest : required option p ≤ args.length := by
            cases option <;> simp [required, minArgs, hcolon] at henough ⊢
            exact henough
          simp only []
          rw [ih known' (by rw [List.length_drop]; omega) (by omega) hrest]
          cases hassigned : assigned conv (kinds p) (vars.drop (outputs c)) args with
          | error message => simp [assigned, hconvert, hassigned, bind, Except.bind]
          | ok writes =>
            simp [assigned, hconvert, hassigned, bind, Except.bind, pure, Except.pure,
              setAll_append]
            omega
    · rw [argLoop_colon, kinds_colon]
      refine ih known' ?_ hnargs (Nat.zero_le _) store
      rwa [outputsOf, kinds_colon] at hvars

end Loop

/-! ## The whole call -/

/-- The writes are known exactly if every argument that has a character converts. -/
theorem assigned_ok_iff (conv : Conversions α ρ) (kinds : List Char) (vars : List Nat)
    (args : List α) :
    (∃ writes, assigned conv kinds vars args = .ok writes) ↔
      ∀ pair ∈ kinds.zip args, ∃ outs, convert conv pair.1 pair.2 = .ok outs := by
  induction kinds generalizing vars args with
  | nil => simp [assigned, pure, Except.pure]
  | cons c kinds ih =>
    cases args with
    | nil => simp [assigned, pure, Except.pure]
    | cons arg args =>
      rw [List.zip_cons_cons, List.forall_mem_cons, ← ih (vars.drop (outputs c)) args]
      cases hconvert : convert conv c arg with
      | error message => simp [assigned, hconvert, bind, Except.bind]
      | ok outs =>
        cases hassigned : assigned conv kinds (vars.drop (outputs c)) args with
        | error message => simp [assigned, hconvert, hassigned, bind, Except.bind]
        | ok writes =>
          simp [assigned, hconvert, hassigned, bind, Except.bind, pure, Except.pure]

variable {conv : Conversions α ρ} {name : String} {spec : List Char} {args : List α}
  {vars : List Nat}

/-- Too few arguments: an exception. -/
theorem poneArg_few (known : ∀ c ∈ spec, Known c) (hvars : outputsOf spec ≤ vars.length)
    (hfew : args.length < minArgs spec) (store : Store α ρ) :
    ∃ message, poneArg conv name args spec vars store = .throws message := by
  have hrequired : args.length < required false spec := hfew
  obtain ⟨message, h⟩ := argLoop_throws conv name spec known hvars
    (Nat.zero_add args.length).symm hrequired store
  exact ⟨message, by simp [poneArg, h]⟩

/-- Any other number of arguments: the arguments behind the last character are not looked at, and the
check after the loop, which counts those that were used, lets them pass. -/
theorem poneArg_eq (known : ∀ c ∈ spec, Known c) (hvars : outputsOf spec ≤ vars.length)
    (henough : minArgs spec ≤ args.length) (store : Store α ρ) :
    poneArg conv name args spec vars store =
      match assigned conv (kinds spec) vars args with
      | .error message => .throws message
      | .ok writes => .returns (setAll store writes) := by
  have hrequired : required false spec ≤ args.length := henough
  have hloop := argLoop_eq conv name spec known hvars (Nat.zero_add args.length).symm hrequired
    store
  rw [poneArg, hloop]
  cases assigned conv (kinds spec) vars args with
  | error message => rfl
  | ok writes =>
    have hmax := minArgs_le_maxArgs spec
    rw [maxArgs_eq] at hmax
    have hused : ¬(0 + min (kinds spec).length args.length < minArgs spec ∨
        maxArgs spec < 0 + min (kinds spec).length args.length) := by
      rw [maxArgs_eq]
      omega
    exact if_neg hused

/-- The number of the arguments is checked from below only. -/
theorem checked_iff (known : ∀ c ∈ spec, Known c) (hvars : outputsOf spec = vars.length)
    (store : Store α ρ) :
    Checked conv spec args vars store (poneArg conv name args spec vars store) ↔
      args.length < minArgs spec ∨
        (Admits spec args.length ∧ Convertible conv spec args) ∨
        (maxArgs spec < args.length ∧ ¬Convertible conv spec args) := by
  have hle : outputsOf spec ≤ vars.length := Nat.le_of_eq hvars
  have hmax := minArgs_le_maxArgs spec
  rcases Nat.lt_or_ge args.length (minArgs spec) with hfew | henough
  · have hadmits : ¬Admits spec args.length := fun h => absurd h.1 (Nat.not_le.mpr hfew)
    rw [Checked, if_neg hadmits]
    exact iff_of_true (poneArg_few known hle hfew store) (Or.inl hfew)
  · rw [poneArg_eq known hle henough store, Convertible,
      ← assigned_ok_iff conv (kinds spec) vars args]
    by_cases hmany : args.length ≤ maxArgs spec
    · have hadmits : Admits spec args.length := ⟨henough, hmany⟩
      rw [Checked, if_pos hadmits]
      cases assigned conv (kinds spec) vars args with
      | error message => simp [Nat.not_lt.mpr henough, Nat.not_lt.mpr hmany]
      | ok writes => simp [hadmits]
    · have hadmits : ¬Admits spec args.length := fun h => hmany h.2
      rw [Checked, if_neg hadmits]
      cases assigned conv (kinds spec) vars args with
      | error message => simp [Nat.not_le.mp hmany]
      | ok writes => simp [hadmits, Nat.not_lt.mpr henough]

/-- The conversions of integers, whose texts are kept by their values. -/
def ofInts : Conversions Int Int where
  cStr i := .ok (i, (toString i).length)
  intify i := .ok i

/-- A string and perhaps an integer, of which the string is passed. -/
theorem checked_iff_optional :
    Checked ofInts ['s', ':', 'i'] [12] [0, 1, 2] (fun _ => none)
        (poneArg ofInts "f" [12] ['s', ':', 'i'] [0, 1, 2] fun _ => none) ↔
      [12].length < minArgs ['s', ':', 'i'] ∨
        (Admits ['s', ':', 'i'] [12].length ∧ Convertible ofInts ['s', ':', 'i'] [12]) ∨
        (maxArgs ['s', ':', 'i'] < [12].length ∧ ¬Convertible ofInts ['s', ':', 'i'] [12]) :=
  checked_iff (by simp [Known]) rfl _

/-- `abs(1, 2)` is `abs(1)`. -/
theorem not_checked_abs :
    ¬Checked ofInts ['o'] [1, 2] [0] (fun _ => none)
      (poneArg ofInts "abs" [1, 2] ['o'] [0] fun _ => none) := by
  have hadmits : ¬Admits ['o'] [(1 : Int), 2].length := by decide
  rw [Checked, if_neg hadmits]
  rintro ⟨message, h⟩
  simp [poneArg, argLoop, outputs, convert, minArgs, maxArgs, pure, Except.pure] at h

end Arg
end Pone
