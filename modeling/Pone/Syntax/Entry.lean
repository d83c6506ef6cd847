import Pone.Greg.Input
import Pone.Syntax.Grammar

/-!
# The two entry points of the parser

`PVIP_parse_string` and `PVIP_parse_fp` run the same grammar over different inputs.  Since
`end-of-file` is `!'\0'`, it holds in front of almost any character, and that a program was read to
its end is checked afterwards: by the first function with the limit of the buffer, by the second
with `feof`.
-/

namespace Pone
namespace Syntax

open Greg

/-- The input of `PVIP_input`: a string with the position in it, or a file with the characters to
come and its end-of-file flag. -/
inductive Input where
  | string (buf : List UInt8) (pos : Nat)
  | file (rest : List UInt8) (eof : Bool)

/-- `PVIP_input`.  A character of a file is kept in a `char`, where the byte 255 is `EOF`. -/
def pvipInput : Input → Option UInt8 × Input
  | .string buf pos =>
      match buf[pos]? with
      | none => (none, .string buf pos)
      | some b => (some b, .string buf (pos + 1))
  | .file [] _ => (none, .file [] true)
  | .file (b :: rest) eof =>
      if b = 255 then (none, .file rest eof) else (some b, .file rest eof)

/-- How a parse ends: with an error message, in an abort, or with a tree after so many characters. -/
inductive Outcome where
  | syntaxError
  | abort
  | accepted (tree : Tree) (consumed : Nat)

def Outcome.consumed : Outcome → Option Nat
  | .accepted _ n => some n
  | _ => none

/-- The values before the actions run. -/
def initial : Vm := ⟨none, fun _ => none, 0, ⟨none, 1, []⟩⟩

/-- The tree of a parse, `G->data.root`, or an abort. -/
def rootOf (chars : List UInt8) (thunks : List (Greg.Thunk Act)) : Option Tree :=
  (yyDone chars thunks initial).bind fun vm => vm.data.root

/-- `YY_NAME(parse)`, and the check of an entry point after it. -/
def parseWith (complete : Cursor Act → Buffer Input → Bool) (fuel : Nat) (input : Input) :
    Option Outcome :=
  match exec (Buffer.look pvipInput) rule fuel (.name .compInit) .start ⟨[], input⟩ with
  | none => none
  | some (false, _, _) => some .syntaxError
  | some (true, c, buffer) =>
      match rootOf buffer.chars c.thunks with
      | none => some .abort
      | some tree =>
          if complete c buffer then some (.accepted tree c.pos) else some .syntaxError

/-- `PVIP_parse_string`, which accepts where `g.limit` is `g.pos`. -/
def pvipParseString (fuel : Nat) (w : List UInt8) : Option Outcome :=
  parseWith (fun c buffer => buffer.chars.length = c.pos) fuel (.string w 0)

def feof : Input → Bool
  | .string _ _ => false
  | .file _ eof => eof

/-- `PVIP_parse_fp`, which accepts where `feof(fp)` holds. -/
def pvipParseFp (fuel : Nat) (w : List UInt8) : Option Outcome :=
  parseWith (fun _ buffer => feof buffer.input) fuel (.file w false)

/-- An entry point returns a tree for `w`. -/
def Accepts (parse : Nat → List UInt8 → Option Outcome) (w : List UInt8) (tree : Tree)
    (consumed : Nat) : Prop :=
  ∃ fuel, parse fuel w = some (.accepted tree consumed)

/-- The two entry points agree on `w`. -/
structure Agree (w : List UInt8) : Prop where
  same : ∀ tree, (∃ n, Accepts pvipParseFp w tree n) ↔ ∃ n, Accepts pvipParseString w tree n
  fp_whole : ∀ {tree n}, Accepts pvipParseFp w tree n → n = w.length
  string_whole : ∀ {tree n}, Accepts pvipParseString w tree n → n = w.length

/-! ## The run of the grammar -/

/-- The grammar on the characters of a word. -/
abbrev ReadsWord (w : List UInt8) : Node RuleName Act → Cursor Act → Nat → Bool → Cursor Act →
    Nat → Prop :=
  Run (lookWord w) rule

/-- A match of `comp_init` that has looked at so many positions, with its tree. -/
structure Parsed (w : List UInt8) (c : Cursor Act) (seen : Nat) (tree : Tree) : Prop where
  run : ReadsWord w (.name .compInit) .start 0 true c seen
  root : rootOf (w.take seen) c.thunks = some tree

/-- A match that stops before the end of the word, after a look at the end. -/
def StopsShort (w : List UInt8) : Prop :=
  ∃ c seen tree, Parsed w c seen tree ∧ c.pos < w.length ∧ w.length < seen

/-- The grammar is done with the word before it looks at a byte 255. -/
def Unread255 (w : List UInt8) : Prop :=
  255 ∈ w → ∃ ok c seen, ReadsWord w (.name .compInit) .start 0 ok c seen ∧ 255 ∉ w.take seen

private theorem endOfFile_seen {w : List UInt8} {c c' : Cursor Act} {seen seen' : Nat}
    (run : ReadsWord w (.name .endOfFile) c seen true c' seen') :
    c'.pos = c.pos ∧ c'.pos < seen' := by
  cases run with
  | name body =>
      cases body with
      | peekNot failed =>
          cases failed with
          | string matched =>
              refine ⟨rfl, ?_⟩
              rw [matchString] at matched
              split at matched
              · next found =>
                  obtain ⟨-, rfl⟩ := Prod.mk.inj found
                  simp only [Prod.mk.injEq] at matched
                  obtain ⟨-, -, rfl⟩ := matched
                  exact Nat.le_max_right _ _
              · next found =>
                  obtain ⟨-, rfl⟩ := Prod.mk.inj found
                  split at matched
                  · cases matched
                  · simp only [Prod.mk.injEq] at matched
                    obtain ⟨-, -, rfl⟩ := matched
                    exact Nat.le_max_right _ _

private theorem seq_end {w : List UInt8} {act : Act} {c c' : Cursor Act} {seen seen' : Nat}
    (run : ReadsWord w (seq [.name .endOfFile, .action act]) c seen true c' seen') :
    c'.pos < seen' := by
  cases run with
  | sequence passed next =>
      cases next
      exact (endOfFile_seen passed).2

theorem Parsed.seen {w : List UInt8} {c : Cursor Act} {seen : Nat} {tree : Tree}
    (parsed : Parsed w c seen tree) :
    c.pos < seen ∧ c.pos ≤ w.length ∧ seen ≤ w.length + 1 := by
  obtain ⟨⟨-, inside, bounded⟩, -⟩ :=
    (seenWord w).run parsed.run ⟨Nat.le_refl 0, Nat.zero_le _, Nat.zero_le _⟩
  refine ⟨?_, inside, bounded⟩
  cases parsed.run with
  | name body =>
      rw [Cursor.leave_pos]
      cases body with
      | alternate passed =>
          cases passed with
          | sequence _ rest =>
          cases rest with
          | sequence _ rest =>
          cases rest with
          | sequence _ rest =>
          cases rest with
          | sequence _ rest => exact seq_end rest
      | alternate_next _ passed =>
          cases passed with
          | sequence _ rest =>
          cases rest with
          | sequence _ rest =>
          cases rest with
          | sequence _ rest => exact seq_end rest

theorem Parsed.unique {w : List UInt8} {c c' : Cursor Act} {seen seen' : Nat} {tree tree' : Tree}
    (one : Parsed w c seen tree) (other : Parsed w c' seen' tree') :
    c = c' ∧ seen = seen' ∧ tree = tree' := by
  obtain ⟨-, rfl, rfl⟩ := one.run.unique other.run
  exact ⟨rfl, rfl, Option.some.inj (one.root.symm.trans other.root)⟩

/-! ## What the entry points accept -/

private theorem accepts_iff_run {complete : Cursor Act → Buffer Input → Bool} {input : Input}
    {tree : Tree} {n : Nat} :
    (∃ fuel, parseWith complete fuel input = some (.accepted tree n)) ↔
      ∃ c buffer, Run (Buffer.look pvipInput) rule (.name .compInit) .start ⟨[], input⟩ true c
          buffer ∧
        rootOf buffer.chars c.thunks = some tree ∧ complete c buffer = true ∧ n = c.pos := by
  constructor
  · rintro ⟨fuel, parsed⟩
    unfold parseWith at parsed
    split at parsed
    · cases parsed
    · cases parsed
    · next c buffer executed =>
        split at parsed
        · cases parsed
        · next root =>
            split at parsed
            · next whole =>
                cases parsed
                exact ⟨c, buffer, .of_exec executed, root, whole, rfl⟩
            · cases parsed
  · rintro ⟨c, buffer, run, root, whole, rfl⟩
    obtain ⟨fuel, executed⟩ := run.exists_exec
    exact ⟨fuel, by simp [parseWith, executed, root, whole]⟩

/-- The string delivers its characters. -/
def stringDelivery (w : List UInt8) : Delivery pvipInput w where
  state n := .string w (min n w.length)
  fine _ := True
  earlier := fun _ _ => trivial
  reads := by
    intro n inside _
    rw [Nat.min_eq_left inside]
    cases found : w[n]? with
    | none =>
        have ended := List.getElem?_eq_none_iff.mp found
        simp only [pvipInput, found, Nat.min_eq_right (Nat.le_succ_of_le ended)]
        rw [Nat.le_antisymm inside ended]
    | some b =>
        obtain ⟨short, -⟩ := List.getElem?_eq_some_iff.mp found
        simp only [pvipInput, found, Nat.min_eq_left (Nat.succ_le_of_lt short)]
  again := by
    simp [pvipInput]

/-- The file delivers its characters up to the first byte 255. -/
def fileDelivery (w : List UInt8) : Delivery pvipInput w where
  state n := .file (w.drop n) (w.length < n)
  fine n := 255 ∉ w.take n
  earlier := fun before fine found => fine (List.take_subset_take_left w before found)
  reads := by
    intro n inside fine
    cases found : w[n]? with
    | none =>
        have ended := List.getElem?_eq_none_iff.mp found
        rw [List.drop_eq_nil_of_le ended, List.drop_eq_nil_of_le (by omega)]
        simp [pvipInput, Nat.lt_succ_of_le ended]
    | some b =>
        obtain ⟨short, rfl⟩ := List.getElem?_eq_some_iff.mp found
        have plain : w[n] ≠ 255 := by
          rintro same
          apply fine
          rw [← same]
          exact List.mem_take_iff_getElem.mpr ⟨n, by omega, rfl⟩
        rw [List.drop_eq_getElem_cons short]
        simp only [pvipInput, if_neg plain, Prod.mk.injEq, Input.file.injEq, true_and,
          decide_eq_decide]
        omega
  again := by
    rw [List.drop_eq_nil_of_le (by omega)]
    simp [pvipInput]

private theorem string_start (w : List UInt8) :
    (stringDelivery w).buffer 0 = ⟨[], .string w 0⟩ := by
  simp [Delivery.buffer, stringDelivery]

private theorem file_start (w : List UInt8) :
    (fileDelivery w).buffer 0 = ⟨[], .file w false⟩ := by
  simp [Delivery.buffer, fileDelivery]

theorem string_accepts_iff {w : List UInt8} {tree : Tree} {n : Nat} :
    Accepts pvipParseString w tree n ↔
      ∃ c seen, Parsed w c seen tree ∧ c.pos = w.length ∧ n = c.pos := by
  refine accepts_iff_run.trans ⟨?_, ?_⟩
  · rintro ⟨c, buffer, run, root, whole, rfl⟩
    rw [← string_start] at run
    obtain ⟨seen, match_w, rfl⟩ := (stringDelivery w).word_of_run run fun _ => trivial
    have parsed : Parsed w c seen tree := ⟨match_w, root⟩
    obtain ⟨ahead, -, -⟩ := parsed.seen
    refine ⟨c, seen, parsed, ?_, rfl⟩
    simp only [Delivery.buffer, List.length_take, decide_eq_true_eq] at whole
    omega
  · rintro ⟨c, seen, parsed, whole, rfl⟩
    obtain ⟨ahead, -, -⟩ := parsed.seen
    have run := (stringDelivery w).run_of_word parsed.run trivial
    rw [string_start] at run
    refine ⟨c, _, run, parsed.root, ?_, rfl⟩
    simp only [Delivery.buffer, List.length_take, decide_eq_true_eq]
    omega

theorem fp_accepts_iff {w : List UInt8} (unread : Unread255 w) {tree : Tree} {n : Nat} :
    Accepts pvipParseFp w tree n ↔
      ∃ c seen, Parsed w c seen tree ∧ w.length < seen ∧ n = c.pos := by
  -- the run over the file is the run over the word
  have same : ∀ c buffer, Run (Buffer.look pvipInput) rule (.name .compInit) .start
      ⟨[], .file w false⟩ true c buffer ↔
        ∃ seen, ReadsWord w (.name .compInit) .start 0 true c seen ∧
          buffer = (fileDelivery w).buffer seen := by
    intro c buffer
    rw [← file_start]
    by_cases has : 255 ∈ w
    · obtain ⟨ok, c₀, seen₀, run₀, fine⟩ := unread has
      have filed := (fileDelivery w).run_of_word run₀ fine
      constructor
      · intro run
        obtain ⟨rfl, rfl, rfl⟩ := filed.unique run
        exact ⟨seen₀, run₀, rfl⟩
      · rintro ⟨seen, run, rfl⟩
        obtain ⟨rfl, rfl, rfl⟩ := run₀.unique run
        exact filed
    · have always : ∀ n, (fileDelivery w).fine n := fun n found => has (List.mem_of_mem_take found)
      constructor
      · intro run
        exact (fileDelivery w).word_of_run run always
      · rintro ⟨seen, run, rfl⟩
        exact (fileDelivery w).run_of_word run (always _)
  have ended : ∀ seen, feof ((fileDelivery w).buffer seen).input = true ↔ w.length < seen := by
    simp [Delivery.buffer, fileDelivery, feof]
  refine accepts_iff_run.trans ⟨?_, ?_⟩
  · rintro ⟨c, buffer, run, root, whole, rfl⟩
    obtain ⟨seen, match_w, rfl⟩ := (same c buffer).mp run
    exact ⟨c, seen, ⟨match_w, root⟩, (ended seen).mp whole, rfl⟩
  · rintro ⟨c, seen, parsed, whole, rfl⟩
    exact ⟨c, _, (same c _).mpr ⟨seen, parsed.run, rfl⟩, parsed.root, (ended seen).mpr whole, rfl⟩

private theorem not_agree {w : List UInt8} (fuel : Nat) {n : Nat}
    (accepted : (pvipParseFp fuel w).bind Outcome.consumed = some n) (short : n ≠ w.length) :
    ¬ Agree w := by
  intro agree
  obtain ⟨outcome, parsed, consumed⟩ := Option.bind_eq_some_iff.mp accepted
  cases outcome with
  | syntaxError => cases consumed
  | abort => cases consumed
  | accepted tree m =>
      cases consumed
      exact short (agree.fp_whole ⟨fuel, parsed⟩)

set_option maxRecDepth 10000 in
-- a byte 255 is taken for the end of the file
example : ¬ Agree [255] :=
  not_agree 200 (n := 0) (by decide +kernel) (by decide)

end Syntax
end Pone
