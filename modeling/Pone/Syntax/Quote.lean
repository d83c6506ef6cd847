import Pone.Greg.Fits
import Pone.Syntax.Entry
import Pone.Syntax.Number

/-!
# Single-quoted strings

The ten forms of `sq_string`.  Each decodes a backslash by its own list of escapes, and keeps the
backslash in front of every other character.
-/

namespace Pone
namespace Syntax

open Greg

/-! ## The forms -/

inductive SqForm where
  | apostrophe | slash | bang | bar | brace | angle | atSign | tilde | comma | bracket
  deriving DecidableEq

namespace SqForm

def start : SqForm → String
  | .apostrophe => "'"
  | .slash => "q/"
  | .bang => "q!"
  | .bar => "q|"
  | .brace => "q\x7b"
  | .angle => "q<"
  | .atSign => "q@"
  | .tilde => "q~"
  | .comma => "q,"
  | .bracket => "q["

def stop : SqForm → String
  | .apostrophe => "'"
  | .slash => "/"
  | .bang => "!"
  | .bar => "|"
  | .brace => "\x7d"
  | .angle => ">"
  | .atSign => "@"
  | .tilde => "~"
  | .comma => ","
  | .bracket => "]"

/-- The class of the characters that stand for themselves. -/
def plain (f : SqForm) : String := "^" ++ f.stop ++ "\\\n"

def escapes : SqForm → List (String × String)
  | .apostrophe => [("'", "'")]
  | .slash | .bang | .bar | .brace => [("'", "'"), ("/", "/")]
  | .angle => [("'", "'"), (">", ">")]
  | .atSign => [("'", "'"), ("@", "~")]
  | .tilde => [("'", "'"), ("~", "~")]
  | .comma => [(",", "'"), ("~", "~")]
  | .bracket => [("'", "'"), ("]", "]")]

def expr (f : SqForm) : Expr := sqForm f.start f.stop f.plain f.escapes

def all : List SqForm :=
  [.apostrophe, .slash, .bang, .bar, .brace, .angle, .atSign, .tilde, .comma, .bracket]

theorem mem_all (f : SqForm) : f ∈ all := by cases f <;> decide

/-- The byte of the closing delimiter. -/
def delimiter : SqForm → UInt8
  | .apostrophe => 39
  | .slash => 47
  | .bang => 33
  | .bar => 124
  | .brace => 125
  | .angle => 62
  | .atSign => 64
  | .tilde => 126
  | .comma => 44
  | .bracket => 93

theorem bytes_stop (f : SqForm) : bytes f.stop = [f.delimiter] := by cases f <;> decide

theorem delimiter_ne_backslash (f : SqForm) : f.delimiter ≠ 92 := by cases f <;> decide

theorem delimiter_ne_newline (f : SqForm) : f.delimiter ≠ 10 := by cases f <;> decide

theorem charClass_plain (f : SqForm) (b : UInt8) :
    charClass f.plain b = true ↔ b ≠ f.delimiter ∧ b ≠ 92 ∧ b ≠ 10 := by
  revert b
  cases f <;> exact forall_byte (by decide +kernel)

/-- The literal with this body. -/
def literal (f : SqForm) (body : List UInt8) : List UInt8 := bytes f.start ++ body ++ bytes f.stop

end SqForm

/-! ## What a body decodes to -/

/-- The text of an escaped character; `append_string` gets it with the backslash where no escape is
listed. -/
def unescape (escapes : List (String × String)) (ch : UInt8) : List UInt8 :=
  match escapes with
  | [] => if ch = 92 then [92] else [92, ch]
  | (char, text) :: rest => if bytes char = [ch] then bytes text else unescape rest ch

def decode (escapes : List (String × String)) : List UInt8 → List UInt8
  | [] => []
  | [b] => [b]
  | b :: ch :: rest =>
      if b = 92 then unescape escapes ch ++ decode escapes rest
      else b :: decode escapes (ch :: rest)

/-- The delimiter is nowhere in the body but behind a backslash, and no backslash is the last. -/
def Inside (delimiter : UInt8) : List UInt8 → Prop
  | [] => True
  | [b] => b ≠ 92 ∧ b ≠ delimiter
  | b :: ch :: rest =>
      if b = 92 then Inside delimiter rest else b ≠ delimiter ∧ Inside delimiter (ch :: rest)

theorem decode_plain {escapes : List (String × String)} {b : UInt8} (plain : b ≠ 92)
    (rest : List UInt8) : decode escapes (b :: rest) = b :: decode escapes rest := by
  cases rest with
  | nil => rfl
  | cons ch rest => exact if_neg plain

theorem inside_plain {delimiter b : UInt8} (plain : b ≠ 92) (rest : List UInt8) :
    Inside delimiter (b :: rest) ↔ b ≠ delimiter ∧ Inside delimiter rest := by
  cases rest with
  | nil => simp [Inside, plain]
  | cons ch rest => rw [Inside, if_neg plain]

theorem decode_append {escapes : List (String × String)} {text : List UInt8}
    (plain : ∀ b ∈ text, b ≠ 92) (rest : List UInt8) :
    decode escapes (text ++ rest) = text ++ decode escapes rest := by
  induction text with
  | nil => rfl
  | cons b text ih =>
      rw [List.cons_append, decode_plain (plain b List.mem_cons_self),
        ih fun b member => plain b (List.mem_cons_of_mem _ member)]
      rfl

theorem Inside.of_append {delimiter : UInt8} {text rest : List UInt8} (plain : ∀ b ∈ text, b ≠ 92)
    (inside : Inside delimiter (text ++ rest)) : Inside delimiter rest := by
  induction text with
  | nil => exact inside
  | cons b text ih =>
      exact ih (fun b member => plain b (List.mem_cons_of_mem _ member))
        ((inside_plain (plain b List.mem_cons_self) _).mp inside).2

/-! ## The match of a form -/

theorem sqString_eq : (rule .sqString).expression = alt (SqForm.all.map SqForm.expr) := rfl

section Match

variable {w : List UInt8} {p q : Nat}

/-- Run on a string, the actions append the text to it. -/
def Adds (w text : List UInt8) (pending : List (Greg.Thunk Act)) : Prop :=
  ∀ (vm : Vm) (str : List UInt8), vm.ss = some (.string .string str) →
    ∃ vm', yyDone w pending vm = some vm' ∧ vm'.ss = some (.string .string (str ++ text))

theorem Adds.append {text text' : List UInt8} {front back : List (Greg.Thunk Act)}
    (one : Adds w text front) (other : Adds w text' back) :
    Adds w (text ++ text') (back ++ front) := by
  intro vm str given
  obtain ⟨vm₁, ran, ss⟩ := one vm str given
  obtain ⟨vm₂, ran', ss'⟩ := other vm₁ _ ss
  refine ⟨vm₂, ?_, ?_⟩
  · rw [yyDone_append, ran]
    exact ran'
  · rw [ss', List.append_assoc]

theorem adds_nil : Adds w [] [] := fun vm str given => ⟨vm, rfl, by rw [given, List.append_nil]⟩

theorem yyDone_action (act : Act) (first last : Nat) (vm : Vm) :
    yyDone w [.action act first last] vm = act (yyText w first last) vm := by
  rw [yyDone, List.reverse_singleton, List.foldlM_cons, Greg.Thunk.run]
  exact bind_pure _

theorem adds_append (text : List UInt8 → List UInt8) (first last : Nat) :
    Adds w (text (yyText w first last)) [.action (append text) first last] := by
  intro vm str given
  refine ⟨{ vm with ss := some (.string .string (str ++ text (yyText w first last))) }, ?_, rfl⟩
  rw [yyDone_action, append, given]
  rfl

theorem adds_newline (first last : Nat) :
    Adds w [10] [.action (acts [newline, append fun _ => bytes "\n"]) first last] := by
  intro vm str given
  refine ⟨{ vm with
    ss := some (.string .string (str ++ bytes "\n"))
    data := { vm.data with lineNumber := vm.data.lineNumber + 1 } }, ?_, rfl⟩
  rw [yyDone_action]
  simp only [acts, newline, append, Option.bind_some, given]
  rfl

/-- The part of a form between its delimiters. -/
def pieces (plain : String) (escapes : List (String × String)) : Expr :=
  alt ([seq [lit "\n", .action (acts [newline, append fun _ => bytes "\n"])],
    seq [marked [.plus (cls plain)], .action (append id)]] ++
    escapes.map (fun (char, text) =>
      seq [.name .esc, lit char, .action (append fun _ => bytes text)]) ++
    [seq [.name .esc, .name .esc, .action (append fun _ => bytes "\\")],
    seq [marked [.name .esc, .dot], .action (append id)]])

theorem SqForm.expr_eq (f : SqForm) : f.expr =
    seq [lit f.start, gives (stringOf .string []), .star (pieces f.plain f.escapes),
      lit f.stop] := rfl

theorem bytes_backslash : bytes "\\" = [92] := by decide

theorem bytes_newline : bytes "\n" = [10] := by decide

theorem moves_lit {text : String} {rest : List UInt8} (here : w.drop p = bytes text ++ rest) :
    Moves rule w (lit text) p (p + (bytes text).length) :=
  moves_string here

theorem misses_lit {text : String} {ch b : UInt8} {rest : List UInt8} (one : bytes text = [ch])
    (here : w.drop p = b :: rest) (other : ch ≠ b) : Misses rule w (lit text) p := by
  refine misses_string fun starts => other ?_
  rw [one, here] at starts
  exact (List.cons_prefix_cons.mp starts).1

theorem moves_esc {rest : List UInt8} (here : w.drop p = 92 :: rest) :
    Moves rule w (.name .esc) p (p + 1) := by
  have moved : Moves rule w (lit "\\") p (p + (bytes "\\").length) :=
    moves_lit (by rw [bytes_backslash]; exact here)
  rw [bytes_backslash] at moved
  exact .name rfl moved

theorem misses_esc {b : UInt8} {rest : List UInt8} (here : w.drop p = b :: rest) (plain : b ≠ 92) :
    Misses rule w (.name .esc) p :=
  .name (misses_lit bytes_backslash here plain.symm)

theorem fits_append {text : List UInt8} (added : List UInt8 → List UInt8)
    (whatever : ∀ yytext, added yytext = text) :
    Fits rule w (.action (append added)) p p (Adds w text) := by
  refine (fits_action _).mono ?_
  rintro _ ⟨first, last, rfl⟩
  rw [← whatever (yyText w first last)]
  exact adds_append added first last

/-- The alternatives behind the first two, which begin with a backslash. -/
def escapeNodes (escapes : List (String × String)) : List Expr :=
  escapes.map (fun (char, text) =>
    seq [.name .esc, lit char, .action (append fun _ => bytes text)]) ++
  [seq [.name .esc, .name .esc, .action (append fun _ => bytes "\\")],
  seq [marked [.name .esc, .dot], .action (append id)]]

theorem alt_cons {node : Expr} {nodes : List Expr} (more : nodes ≠ []) :
    alt (node :: nodes) = .alternate node (alt nodes) := by
  cases nodes with
  | nil => exact absurd rfl more
  | cons next rest => rfl

theorem escapeNodes_ne_nil (escapes : List (String × String)) : escapeNodes escapes ≠ [] :=
  List.append_ne_nil_of_right_ne_nil _ (List.cons_ne_nil _ _)

theorem fits_escape {escapes : List (String × String)} {ch : UInt8} {rest : List UInt8}
    (single : ∀ e ∈ escapes, ∃ k, bytes e.1 = [k]) (here : w.drop p = 92 :: ch :: rest) :
    Fits rule w (alt (escapeNodes escapes)) p (p + 2) (Adds w (unescape escapes ch)) := by
  have esc : Moves rule w (.name .esc) p (p + 1) := moves_esc here
  have behind : w.drop (p + 1) = ch :: rest := tail_of_drop here
  induction escapes with
  | nil =>
      by_cases backslash : ch = 92
      · have twice : Moves rule w (.name .esc) (p + 1) (p + 2) := by
          rw [backslash] at behind
          exact moves_esc behind
        rw [unescape, if_pos backslash]
        exact .alternate
          (esc.sequence_fits (twice.sequence_fits (fits_append _ fun _ => bytes_backslash)))
      · rw [unescape, if_neg backslash]
        refine Misses.alternate_fits (esc.sequence_misses (misses_esc behind backslash).sequence) ?_
        have two : Moves rule w (.sequence (.name .esc) .dot) p (p + 2) :=
          esc.sequence (moves_dot behind)
        refine (two.marked (append id)).mono ?_
        rintro _ rfl
        have two_chars : w.drop p = [92, ch] ++ rest := here
        have text : yyText w p (p + 2) = [92, ch] := yyText_of_drop two_chars
        have added := adds_append (w := w) id p (p + 2)
        rwa [text] at added
  | cons e escapes ih =>
      obtain ⟨k, one⟩ := single e List.mem_cons_self
      have later := ih fun e member => single e (List.mem_cons_of_mem _ member)
      rw [escapeNodes, List.map_cons, List.cons_append, ← escapeNodes,
        alt_cons (escapeNodes_ne_nil escapes), unescape]
      by_cases same : bytes e.1 = [ch]
      · rw [if_pos same]
        have char : Moves rule w (lit e.1) (p + 1) (p + 2) := by
          have moved : Moves rule w (lit e.1) (p + 1) (p + 1 + (bytes e.1).length) :=
            moves_lit (by rw [same]; exact behind)
          rwa [same] at moved
        exact .alternate (esc.sequence_fits (char.sequence_fits (fits_append _ fun _ => rfl)))
      · rw [if_neg same]
        have differ : k ≠ ch := fun equal => same (equal ▸ one)
        exact Misses.alternate_fits
          (esc.sequence_misses (misses_lit one behind differ).sequence) later

theorem misses_escape {escapes : List (String × String)} {b : UInt8} {rest : List UInt8}
    (here : w.drop p = b :: rest) (plain : b ≠ 92) :
    Misses rule w (alt (escapeNodes escapes)) p := by
  have esc : Misses rule w (.name .esc) p := misses_esc here plain
  induction escapes with
  | nil => exact .alternate esc.sequence (Misses.sequence esc.sequence.marked)
  | cons e escapes ih =>
      rw [escapeNodes, List.map_cons, List.cons_append, ← escapeNodes,
        alt_cons (escapeNodes_ne_nil escapes)]
      exact esc.sequence.alternate ih

theorem pieces_eq (plain : String) (escapes : List (String × String)) : pieces plain escapes =
    .alternate (seq [lit "\n", .action (acts [newline, append fun _ => bytes "\n"])])
      (.alternate (seq [marked [.plus (cls plain)], .action (append id)])
        (alt (escapeNodes escapes))) := by
  rw [← alt_cons (escapeNodes_ne_nil escapes), ← alt_cons (List.cons_ne_nil _ _)]
  rfl

theorem fits_newline {plain : String} {escapes : List (String × String)} {rest : List UInt8}
    (here : w.drop p = 10 :: rest) :
    Fits rule w (pieces plain escapes) p (p + 1) (Adds w [10]) := by
  rw [pieces_eq]
  have moved : Moves rule w (lit "\n") p (p + (bytes "\n").length) :=
    moves_lit (by rw [bytes_newline]; exact here)
  rw [bytes_newline] at moved
  refine .alternate (moved.sequence_fits ((fits_action _).mono ?_))
  rintro _ ⟨first, last, rfl⟩
  exact adds_newline first last

theorem misses_newline {b : UInt8} {rest : List UInt8} {act : Act} (here : w.drop p = b :: rest)
    (other : b ≠ 10) : Misses rule w (seq [lit "\n", .action act]) p :=
  (misses_lit bytes_newline here other.symm).sequence

theorem fits_plain {plain : String} {escapes : List (String × String)} {b : UInt8}
    {text rest : List UInt8} (here : w.drop p = b :: text ++ rest) (other : b ≠ 10)
    (inClass : ∀ x ∈ b :: text, charClass plain x = true)
    (stops : ∀ x ∈ rest.head?, charClass plain x = false) :
    Fits rule w (pieces plain escapes) p (p + (b :: text).length) (Adds w (b :: text)) := by
  rw [pieces_eq]
  have moved : Moves rule w (.plus (cls plain)) p (p + (b :: text).length) :=
    moves_plus_class here (List.cons_ne_nil _ _) inClass stops
  refine (misses_newline here other).alternate_fits
    (.alternate ((moved.marked (append id)).mono ?_))
  rintro _ rfl
  have added := adds_append (w := w) id p (p + (b :: text).length)
  rwa [yyText_of_drop here] at added

theorem misses_plain {plain : String} {b : UInt8} {rest : List UInt8} {act : Act}
    (here : w.drop p = b :: rest) (outside : charClass plain b = false) :
    Misses rule w (seq [marked [.plus (cls plain)], .action act]) p := by
  refine Misses.sequence (Misses.marked (Misses.plus (misses_class ?_)))
  intro x found
  rw [head_of_drop here] at found
  cases found
  exact outside

theorem SqForm.outside (f : SqForm) {b : UInt8} (special : b = f.delimiter ∨ b = 92) :
    charClass f.plain b = false := by
  rw [Bool.eq_false_iff]
  intro inClass
  obtain ⟨foreign, plain, -⟩ := (f.charClass_plain b).mp inClass
  exact special.elim foreign plain

theorem SqForm.single (f : SqForm) : ∀ e ∈ f.escapes, ∃ k, bytes e.1 = [k] := by
  have all : ∀ e ∈ f.escapes, (bytes e.1).length = 1 := by cases f <;> decide
  exact fun e member => List.length_eq_one_iff.mp (all e member)

/-- The loop of a form reads the body up to the delimiter. -/
theorem SqForm.fits_body (f : SqForm) {body rest : List UInt8}
    (here : w.drop p = body ++ f.delimiter :: rest) (inside : Inside f.delimiter body) :
    Fits rule w (.star (pieces f.plain f.escapes)) p (p + body.length)
      (Adds w (decode f.escapes body)) := by
  induction n : body.length using Nat.strong_induction_on generalizing body p with
  | _ n ih =>
  subst n
  cases body with
  | nil =>
      have missed : Misses rule w (pieces f.plain f.escapes) p := by
        rw [pieces_eq]
        exact (misses_newline here f.delimiter_ne_newline).alternate
          ((misses_plain here (f.outside (.inl rfl))).alternate
            (misses_escape here f.delimiter_ne_backslash))
      refine missed.star.mono ?_
      rintro _ rfl
      exact adds_nil
  | cons b body =>
      by_cases escape : b = 92
      · subst escape
        cases body with
        | nil => exact absurd rfl inside.1
        | cons ch body =>
            rw [Inside, if_pos rfl] at inside
            have short : body.length < (92 :: ch :: body).length := by
              rw [List.length_cons, List.length_cons]
              omega
            have piece : Fits rule w (pieces f.plain f.escapes) p (p + 2)
                (Adds w (unescape f.escapes ch)) := by
              rw [pieces_eq]
              exact (misses_newline here (by decide)).alternate_fits
                ((misses_plain here (f.outside (.inr rfl))).alternate_fits
                  (fits_escape f.single here))
            have two_chars : w.drop p = [92, ch] ++ (body ++ f.delimiter :: rest) := here
            have later := ih _ short (drop_of_append two_chars) inside rfl
            rw [decode, if_pos rfl, List.length_cons, List.length_cons]
            have count : p + (body.length + 1 + 1) = p + 2 + body.length := by omega
            rw [count]
            exact piece.star later fun _ _ one other => one.append other
      · by_cases newline : b = 10
        · subst newline
          have short : body.length < (10 :: body).length := by simp
          have later := ih _ short (tail_of_drop here) ((inside_plain escape body).mp inside).2 rfl
          rw [decode_plain escape, List.length_cons]
          have count : p + (body.length + 1) = p + 1 + body.length := by omega
          rw [count]
          exact (fits_newline here).star later fun _ _ one other => one.append other
        · obtain ⟨foreign, inside⟩ := (inside_plain escape body).mp inside
          -- the class takes what it can
          let text := body.takeWhile (charClass f.plain)
          let behind := body.dropWhile (charClass f.plain)
          have parts : body = text ++ behind := List.takeWhile_append_dropWhile.symm
          have inClass : ∀ x ∈ b :: text, charClass f.plain x = true := by
            intro x member
            rcases List.mem_cons.mp member with rfl | member
            · exact (f.charClass_plain x).mpr ⟨foreign, escape, newline⟩
            · exact List.mem_takeWhile_imp member
          have plain : ∀ x ∈ text, x ≠ 92 := fun x member =>
            ((f.charClass_plain x).mp (inClass x (List.mem_cons_of_mem _ member))).2.1
          have stops :
              ∀ x ∈ (behind ++ f.delimiter :: rest).head?, charClass f.plain x = false := by
            intro x found
            cases left : behind with
            | nil =>
                rw [left] at found
                cases found
                exact f.outside (.inl rfl)
            | cons y ys =>
                have first := List.head?_dropWhile_not (charClass f.plain) body
                rw [show body.dropWhile (charClass f.plain) = y :: ys from left] at first
                rw [left] at found
                cases found
                exact first
          have here' : w.drop p = b :: text ++ (behind ++ f.delimiter :: rest) := by
            rw [here, parts, List.cons_append, List.cons_append, List.append_assoc]
          have short : behind.length < (b :: body).length := by
            have count := congrArg List.length parts
            rw [List.length_append] at count
            rw [List.length_cons]
            omega
          have later := ih _ short (drop_of_append here')
            (Inside.of_append plain (parts ▸ inside)) rfl
          have count : p + (b :: body).length = p + (b :: text).length + behind.length := by
            rw [parts, List.length_cons, List.length_cons, List.length_append]
            omega
          have decoded : decode f.escapes (b :: body) = b :: text ++ decode f.escapes behind := by
            rw [decode_plain escape, parts, decode_append plain]
            rfl
          rw [count, decoded]
          exact (fits_plain here' newline inClass stops).star later
            fun _ _ one other => one.append other

/-! ## The rule -/

/-- Run on anything, the actions make the string. -/
def Makes (w str : List UInt8) (pending : List (Greg.Thunk Act)) : Prop :=
  ∀ vm : Vm, (yyDone w pending vm).map Machine.ss = some (some (.string .string str))

/-- The string literal is read as the string, wherever it stands. -/
def ReadAs (literal str : List UInt8) : Prop :=
  ∀ front rest : List UInt8, Fits rule (front ++ literal ++ rest) (.name .sqString) front.length
    (front.length + literal.length) (Makes (front ++ literal ++ rest) str)

theorem SqForm.fits_expr (f : SqForm) {body rest : List UInt8}
    (here : w.drop p = f.literal body ++ rest) (inside : Inside f.delimiter body) :
    Fits rule w f.expr p (p + (f.literal body).length) (Makes w (decode f.escapes body)) := by
  rw [SqForm.literal, f.bytes_stop, List.append_assoc, List.append_assoc] at here
  have behind := drop_of_append here
  have opened : Moves rule w (lit f.start) p (p + (bytes f.start).length) := moves_lit here
  have closed : Moves rule w (lit f.stop) (p + (bytes f.start).length + body.length)
      (p + (bytes f.start).length + body.length + 1) := by
    have moved : Moves rule w (lit f.stop) (p + (bytes f.start).length + body.length)
        (p + (bytes f.start).length + body.length + (bytes f.stop).length) :=
      moves_lit (by rw [f.bytes_stop]; exact drop_of_append behind)
    rwa [f.bytes_stop] at moved
  have count : p + (f.literal body).length = p + (bytes f.start).length + body.length + 1 := by
    rw [SqForm.literal, f.bytes_stop, List.length_append, List.length_append, List.length_singleton]
    omega
  have read : Fits rule w (.sequence (.star (pieces f.plain f.escapes)) (lit f.stop))
      (p + (bytes f.start).length) (p + (bytes f.start).length + body.length + 1)
      (Adds w (decode f.escapes body)) := by
    refine (f.fits_body behind inside).sequence closed.fits fun _ _ adds none_left => ?_
    rw [none_left]
    exact adds
  rw [count, f.expr_eq]
  refine opened.sequence_fits ((fits_action _).sequence read ?_)
  rintro _ back ⟨first, last, rfl⟩ adds vm
  rw [yyDone_append, yyDone_action]
  obtain ⟨vm', ran, ss⟩ := adds { vm with ss := some (.string .string []) } [] rfl
  exact (congrArg (Option.map Machine.ss) ran).trans (congrArg some ss)

theorem SqForm.start_differs {f g : SqForm} (other : g ≠ f) :
    ¬ bytes g.start <+: bytes f.start := by
  revert other
  cases f <;> cases g <;> decide

theorem SqForm.misses_expr {f g : SqForm} (other : g ≠ f) {rest : List UInt8}
    (here : w.drop p = bytes f.start ++ rest) : Misses rule w g.expr p := by
  refine Misses.sequence (misses_string fun starts => ?_)
  have starts' : bytes f.start <+: w.drop p := here ▸ List.prefix_append _ _
  rcases List.prefix_or_prefix_of_prefix starts starts' with shorter | longer
  · exact start_differs other shorter
  · exact start_differs other.symm longer

/-- The alternative that matches is taken where the others do not match. -/
theorem fits_alt {pending : List (Greg.Thunk Act) → Prop} {f : SqForm} {forms : List SqForm}
    (member : f ∈ forms) (fits : Fits rule w f.expr p q pending)
    (others : ∀ g, g ≠ f → Misses rule w g.expr p) :
    Fits rule w (alt (forms.map SqForm.expr)) p q pending := by
  induction forms with
  | nil => cases member
  | cons g forms ih =>
      by_cases same : g = f
      · subst same
        cases forms with
        | nil => exact fits
        | cons => exact .alternate fits
      · have later : f ∈ forms :=
          (List.mem_cons.mp member).resolve_left fun equal => same equal.symm
        have more : forms.map SqForm.expr ≠ [] := fun none_left => by
          rw [List.map_eq_nil_iff.mp none_left] at later
          cases later
        rw [List.map_cons, alt_cons more]
        exact (others g same).alternate_fits (ih later)

theorem SqForm.readAs (f : SqForm) {body : List UInt8} (inside : Inside f.delimiter body) :
    ReadAs (f.literal body) (decode f.escapes body) := by
  intro front rest
  have here : (front ++ f.literal body ++ rest).drop front.length = f.literal body ++ rest := by
    rw [List.append_assoc, List.drop_left]
  have starts : (front ++ f.literal body ++ rest).drop front.length =
      bytes f.start ++ (body ++ bytes f.stop ++ rest) := by
    rw [here, SqForm.literal, List.append_assoc, List.append_assoc, List.append_assoc]
  refine .name rfl ?_
  rw [sqString_eq]
  exact fits_alt f.mem_all (f.fits_expr here inside) fun g other => misses_expr other starts

theorem ReadAs.unique {literal str str' : List UInt8} (one : ReadAs literal str)
    (other : ReadAs literal str') : str = str' := by
  obtain ⟨added, makes, makes', -⟩ := (one [] []).unique (other [] [])
  have same := (makes initial).symm.trans (makes' initial)
  cases same
  rfl

theorem SqForm.readAs_iff (f : SqForm) {body str : List UInt8} (inside : Inside f.delimiter body) :
    ReadAs (f.literal body) str ↔ decode f.escapes body = str :=
  ⟨fun read => (f.readAs inside).unique read, fun same => same ▸ f.readAs inside⟩

end Match

/-! ## Quoting a string -/

/-- Every backslash doubled, and a backslash in front of every closing delimiter. -/
def SqForm.quote (f : SqForm) : List UInt8 → List UInt8
  | [] => []
  | b :: s => if b = 92 ∨ b = f.delimiter then 92 :: b :: f.quote s else b :: f.quote s

theorem SqForm.inside_quote (f : SqForm) (s : List UInt8) : Inside f.delimiter (f.quote s) := by
  induction s with
  | nil => trivial
  | cons b s ih =>
      rw [quote]
      split
      · rw [Inside, if_pos rfl]
        exact ih
      · next plain =>
          rw [not_or] at plain
          exact (inside_plain plain.1 _).mpr ⟨plain.2, ih⟩

theorem SqForm.unescape_backslash (f : SqForm) : unescape f.escapes 92 = [92] := by
  cases f <;> decide

/-- The forms that decode their own delimiter. -/
def SqForm.sound : List SqForm := [.apostrophe, .slash, .angle, .tilde, .bracket]

theorem SqForm.unescape_delimiter (f : SqForm) :
    if f ∈ sound then unescape f.escapes f.delimiter = [f.delimiter]
    else ∀ b ∈ (unescape f.escapes f.delimiter).head?, b ≠ f.delimiter := by
  cases f <;> decide +kernel

theorem SqForm.decode_quote (f : SqForm) (s : List UInt8) :
    decode f.escapes (f.quote s) = s ↔ (f.delimiter ∈ s → f ∈ sound) := by
  induction s with
  | nil => exact iff_of_true rfl fun member => nomatch member
  | cons b s ih =>
      have own := f.unescape_delimiter
      rw [quote]
      by_cases special : b = 92 ∨ b = f.delimiter
      · rw [if_pos special, decode, if_pos rfl]
        by_cases closing : b = f.delimiter
        · subst closing
          by_cases good : f ∈ sound
          · rw [if_pos good] at own
            rw [own, List.singleton_append, List.cons_inj_right, ih]
            exact iff_of_true (fun _ => good) fun _ => good
          · rw [if_neg good] at own
            refine iff_of_false (fun same => ?_) fun needs => good (needs List.mem_cons_self)
            cases text : unescape f.escapes f.delimiter with
            | nil => exact absurd text (by cases f <;> decide)
            | cons x text' =>
                rw [text] at own same
                exact own x rfl (List.cons.inj same).1
        · obtain rfl : b = 92 := special.resolve_right closing
          rw [f.unescape_backslash, List.singleton_append, List.cons_inj_right, ih]
          simp [closing, eq_comm]
      · rw [if_neg special]
        rw [not_or] at special
        rw [decode_plain special.1, List.cons_inj_right, ih]
        simp [special.2, eq_comm]

/-! ## One body in two forms -/

/-- No backslash is followed by a backslash or a delimiter of the forms, and no delimiter is
inside. -/
def Comparable (f g : SqForm) : List UInt8 → Prop
  | [] => True
  | [b] => b ≠ 92 ∧ b ≠ f.delimiter ∧ b ≠ g.delimiter
  | b :: ch :: rest =>
      if b = 92 then (ch ≠ 92 ∧ ch ≠ f.delimiter ∧ ch ≠ g.delimiter) ∧ Comparable f g rest
      else (b ≠ f.delimiter ∧ b ≠ g.delimiter) ∧ Comparable f g (ch :: rest)

/-- The characters behind a backslash. -/
def escapedChars : List UInt8 → List UInt8
  | [] => []
  | [_] => []
  | b :: ch :: rest => if b = 92 then ch :: escapedChars rest else escapedChars (ch :: rest)

/-- The form drops the backslash in front of an apostrophe, a slash or a tilde that is not its
delimiter. -/
def SqForm.drops (f : SqForm) (ch : UInt8) : Prop :=
  ch = 39 ∧ f ≠ .comma ∨ ch = 47 ∧ f ∈ [.bang, .bar, .brace] ∨ ch = 126 ∧ f = .comma

instance (f : SqForm) (ch : UInt8) : Decidable (f.drops ch) :=
  inferInstanceAs (Decidable (_ ∨ _))

theorem Comparable.symm {f g : SqForm} {body : List UInt8} (comparable : Comparable f g body) :
    Comparable g f body := by
  induction body using escapedChars.induct with
  | case1 => trivial
  | case2 b => exact ⟨comparable.1, comparable.2.2, comparable.2.1⟩
  | case3 ch rest ih =>
      rw [Comparable, if_pos rfl] at comparable ⊢
      obtain ⟨⟨plain, foreign, foreign'⟩, later⟩ := comparable
      exact ⟨⟨plain, foreign', foreign⟩, ih later⟩
  | case4 b ch rest plain ih =>
      rw [Comparable, if_neg plain] at comparable ⊢
      exact ⟨comparable.1.symm, ih comparable.2⟩

theorem Comparable.inside {f g : SqForm} {body : List UInt8} (comparable : Comparable f g body) :
    Inside f.delimiter body := by
  induction body using escapedChars.induct with
  | case1 => trivial
  | case2 b => exact ⟨comparable.1, comparable.2.1⟩
  | case3 ch rest ih =>
      rw [Comparable, if_pos rfl] at comparable
      rw [Inside, if_pos rfl]
      exact ih comparable.2
  | case4 b ch rest plain ih =>
      rw [Comparable, if_neg plain] at comparable
      rw [Inside, if_neg plain]
      exact ⟨comparable.1.1, ih comparable.2⟩

theorem SqForm.unescape_foreign (f : SqForm) (ch : UInt8) : ch ≠ 92 → ch ≠ f.delimiter →
    unescape f.escapes ch = if f.drops ch then [ch] else [92, ch] := by
  revert ch
  cases f <;> exact forall_byte (by decide +kernel)

theorem decode_eq_iff {f g : SqForm} {body : List UInt8} (comparable : Comparable f g body) :
    decode f.escapes body = decode g.escapes body ↔
      ∀ ch ∈ escapedChars body, (f.drops ch ↔ g.drops ch) := by
  induction body using escapedChars.induct with
  | case1 => exact iff_of_true rfl fun ch member => nomatch member
  | case2 b => exact iff_of_true rfl fun ch member => nomatch member
  | case3 ch rest ih =>
      rw [Comparable, if_pos rfl] at comparable
      obtain ⟨⟨plain, foreign, foreign'⟩, later⟩ := comparable
      rw [decode, decode, escapedChars, if_pos rfl, if_pos rfl, if_pos rfl, List.forall_mem_cons,
        ← ih later, f.unescape_foreign ch plain foreign, g.unescape_foreign ch plain foreign']
      by_cases one : f.drops ch <;> by_cases other : g.drops ch <;>
        simp [one, other, plain, plain.symm]
  | case4 b ch rest plain ih =>
      rw [Comparable, if_neg plain] at comparable
      rw [decode, decode, escapedChars, if_neg plain, if_neg plain, if_neg plain,
        List.cons_inj_right, ih comparable.2]

/-- A quoted string is read as itself exactly if its form decodes its own delimiter or the string
does not hold it; two forms read a body alike exactly if they drop the same backslashes. -/
theorem sqString_iff (f g : SqForm) (s body : List UInt8) (comparable : Comparable f g body) :
    (ReadAs (f.literal (f.quote s)) s ↔ (f.delimiter ∈ s → f ∈ SqForm.sound)) ∧
      ((∃ str, ReadAs (f.literal body) str ∧ ReadAs (g.literal body) str) ↔
        ∀ ch ∈ escapedChars body, (f.drops ch ↔ g.drops ch)) := by
  refine ⟨(f.readAs_iff (f.inside_quote s)).trans (f.decode_quote s), ?_⟩
  rw [← decode_eq_iff comparable]
  constructor
  · rintro ⟨str, one, other⟩
    rw [(f.readAs_iff comparable.inside).mp one, (g.readAs_iff comparable.symm.inside).mp other]
  · intro same
    exact ⟨_, f.readAs comparable.inside, same ▸ g.readAs comparable.symm.inside⟩

/-- `q/a/` and `q!a!` -/
theorem sqString_iff_letter :
    ∃ str, ReadAs (SqForm.slash.literal [97]) str ∧ ReadAs (SqForm.bang.literal [97]) str :=
  (sqString_iff .slash .bang [97] [97] ⟨by decide, by decide, by decide⟩).2.mpr
    fun ch member => nomatch member

/-- `q!\!!` keeps the backslash, `q@\@@` is a tilde, and `\'` is one character in `q/\'/` and two in
`q,\',`. -/
theorem not_sqString :
    ¬ ReadAs (SqForm.bang.literal (SqForm.bang.quote [33])) [33] ∧
      ¬ ReadAs (SqForm.atSign.literal (SqForm.atSign.quote [64])) [64] ∧
      Comparable .slash .comma [92, 39] ∧
      ¬ ∃ str, ReadAs (SqForm.slash.literal [92, 39]) str ∧
        ReadAs (SqForm.comma.literal [92, 39]) str := by
  have comparable : Comparable .slash .comma [92, 39] := by
    rw [Comparable, if_pos rfl]
    exact ⟨by decide, trivial⟩
  refine ⟨fun read => ?_, fun read => ?_, comparable, ?_⟩
  · have same := (SqForm.bang.readAs_iff (SqForm.bang.inside_quote [33])).mp read
    exact absurd same (by decide)
  · have same := (SqForm.atSign.readAs_iff (SqForm.atSign.inside_quote [64])).mp read
    exact absurd same (by decide)
  · rintro ⟨str, one, other⟩
    have same := ((SqForm.slash.readAs_iff comparable.inside).mp one).trans
      ((SqForm.comma.readAs_iff comparable.symm.inside).mp other).symm
    exact absurd same (by decide)

end Syntax
end Pone
