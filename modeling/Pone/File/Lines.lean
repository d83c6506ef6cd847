import Mathlib.Data.List.TakeWhile
import Pone.Stdio
import Pone.Str.CString

/-!
# The lines of a file

The iterator of `File#lines` glues what `fgets` stores in a buffer of 512 bytes, by `strlen`, until
there is a newline at its end, and goes on until the end-of-file indicator is set.
-/

namespace Pone
namespace File

open Stdio
open Str (cText Halt)

/-- What the iterator gives: a string, or the end of the iteration. -/
inductive Pulled where
  | string (bytes : List UInt8)
  | iterationEnd

/-- The loop of `meth_file_list_iterator_pull_one`, and what follows it; `none` where the fuel is used
up. -/
def pullLoop : Nat → Stream → List UInt8 → Option (Except Halt (Pulled × Stream))
  | 0, _, _ => none
  | fuel + 1, fp, retval =>
      if fp.eof then
        some (.ok (if retval.length ≠ 0 then .string retval else .iterationEnd, fp))
      else
        match fgets 512 fp with
        | (none, fp) => pullLoop fuel fp retval
        | (some buf, fp) =>
            let len := (cText buf).length
            -- `buf[len - 1]` is in front of the buffer
            if len = 0 then some (.error .wild)
            else if buf[len - 1]? = some 10 then some (.ok (.string (retval ++ buf.take len), fp))
            else pullLoop fuel fp (retval ++ buf.take len)

/-- `meth_file_list_iterator_pull_one` -/
def methFileListIteratorPullOne (fuel : Nat) (fp : Stream) :
    Option (Except Halt (Pulled × Stream)) :=
  pullLoop fuel fp []

/-- The strings of `meth_file_lines`, pulled until the iteration ends. -/
def lines : Nat → Stream → Option (Except Halt (List (List UInt8)))
  | 0, _ => none
  | fuel + 1, fp =>
      match methFileListIteratorPullOne fuel fp with
      | none => none
      | some (.error halt) => some (.error halt)
      | some (.ok (.iterationEnd, _)) => some (.ok [])
      | some (.ok (.string bytes, fp)) => (lines fuel fp).map fun rest => rest.map (bytes :: ·)

/-- The bytes up to the first read that fails. -/
def upToError : List (Option UInt8) → List UInt8
  | some b :: ahead => b :: upToError ahead
  | _ => []

/-- No string is empty, and every one but the last ends in its only newline. -/
structure AreLines (strings : List (List UInt8)) : Prop where
  nonempty : ∀ line ∈ strings, line ≠ []
  newline : ∀ line ∈ strings.dropLast, ∃ text, 10 ∉ text ∧ line = text ++ [10]

/-- The iteration ends, and its strings are the lines of the content up to the error. -/
def LosesNothing (fp : Stream) : Prop :=
  ∃ fuel strings, lines fuel fp = some (.ok strings) ∧ strings.flatten = upToError fp.ahead ∧
    AreLines strings

/-! ## The conditions -/

/-- With this byte, the buffer of `fgets` is full, or its line is at the end. -/
def Stops (c : List UInt8) (b : UInt8) : Prop := b = 10 ∨ c.length + 1 = 511

instance (c : List UInt8) (b : UInt8) : Decidable (Stops c b) := inferInstanceAs (Decidable (_ ∨ _))

/-- The bytes ahead that get into strings, where `fgets` has stored `c` already. -/
def heard (c : List UInt8) : List (Option UInt8) → List UInt8
  | [] => cText c
  | none :: ahead => heard [] ahead
  | some b :: ahead =>
      if Stops c b then cText (c ++ [b]) ++ heard [] ahead else heard (c ++ [b]) ahead

/-- Nothing that `fgets` gives begins with NUL. -/
def Visible (c : List UInt8) : List (Option UInt8) → Prop
  | [] => c.head? ≠ some 0
  | none :: ahead => Visible [] ahead
  | some b :: ahead =>
      if Stops c b then (c ++ [b]).head? ≠ some 0 ∧ Visible [] ahead else Visible (c ++ [b]) ahead

/-- What `fgets` has stored, and not given, when it comes to the end of these bytes. -/
def unfinished (c : List UInt8) : List UInt8 → List UInt8
  | [] => c
  | b :: bytes => if Stops c b then unfinished [] bytes else unfinished (c ++ [b]) bytes

/-- What is behind the first read that fails. -/
def behindError : List (Option UInt8) → Option (List (Option UInt8))
  | [] => none
  | none :: ahead => some ahead
  | some _ :: ahead => behindError ahead

/-- The stream has an end, and no NUL in front of an error.  If there is an error, what gets into
strings from behind it is just what `fgets` has given up there. -/
structure Undisturbed (fp : Stream) : Prop where
  ends : fp.broken = false
  no_nul : 0 ∉ upToError fp.ahead
  behind : ∀ ahead, behindError fp.ahead = some ahead →
    Visible [] ahead ∧ heard [] ahead = unfinished [] (upToError fp.ahead)

theorem cText_eq_self_iff (bytes : List UInt8) : cText bytes = bytes ↔ 0 ∉ bytes := by
  rw [cText, List.takeWhile_eq_self_iff]
  constructor
  · intro all nul
    simpa using all 0 nul
  · intro no_nul b member
    simp only [decide_eq_true_eq]
    rintro rfl
    exact no_nul member

theorem nul_notMem_cText (bytes : List UInt8) : 0 ∉ cText bytes := by
  intro nul
  simpa using List.mem_takeWhile_imp nul

theorem nul_notMem_heard (c : List UInt8) (ahead : List (Option UInt8)) : 0 ∉ heard c ahead := by
  induction ahead generalizing c with
  | nil => exact nul_notMem_cText c
  | cons item ahead ih =>
      cases item with
      | none => exact ih []
      | some b =>
          rw [heard]
          split
          · rw [List.mem_append, not_or]
            exact ⟨nul_notMem_cText _, ih []⟩
          · exact ih _

/-- The bytes that get into strings are those up to the error. -/
theorem heard_eq_iff (c : List UInt8) (ahead : List (Option UInt8)) :
    Visible c ahead ∧ heard c ahead = c ++ upToError ahead ↔
      0 ∉ c ++ upToError ahead ∧ ∀ rest, behindError ahead = some rest →
        Visible [] rest ∧ heard [] rest = unfinished c (upToError ahead) := by
  induction ahead generalizing c with
  | nil =>
      simp only [Visible, heard, upToError, List.append_nil, cText_eq_self_iff, behindError]
      constructor
      · exact fun ⟨_, no_nul⟩ => ⟨no_nul, nofun⟩
      · rintro ⟨no_nul, -⟩
        exact ⟨fun first => no_nul (List.mem_of_head? first), no_nul⟩
  | cons item ahead ih =>
      cases item with
      | none =>
          simp only [Visible, heard, upToError, List.append_nil, behindError, Option.some.injEq,
            forall_eq', unfinished]
          constructor
          · rintro ⟨visible, rfl⟩
            exact ⟨nul_notMem_heard _ _, visible, rfl⟩
          · exact fun ⟨_, visible, same⟩ => ⟨visible, same⟩
      | some b =>
          have moved : c ++ b :: upToError ahead = c ++ [b] ++ upToError ahead := by simp
          simp only [Visible, heard, upToError, behindError, unfinished]
          by_cases stops : Stops c b
          · have later := ih []
            rw [List.nil_append] at later
            simp only [if_pos stops, moved]
            constructor
            · rintro ⟨⟨first, visible⟩, same⟩
              have no_nul : 0 ∉ c ++ [b] ++ upToError ahead := by
                rw [← same, List.mem_append, not_or]
                exact ⟨nul_notMem_cText _, nul_notMem_heard _ _⟩
              have no_nul_c : 0 ∉ c ++ [b] := fun nul => no_nul (List.mem_append_left _ nul)
              rw [(cText_eq_self_iff _).mpr no_nul_c] at same
              exact ⟨no_nul, (later.mp ⟨visible, List.append_cancel_left same⟩).2⟩
            · rintro ⟨no_nul, behind⟩
              have no_nul_c : 0 ∉ c ++ [b] := fun nul => no_nul (List.mem_append_left _ nul)
              have no_nul_ahead : 0 ∉ upToError ahead :=
                fun nul => no_nul (List.mem_append_right _ nul)
              obtain ⟨visible, same⟩ := later.mpr ⟨no_nul_ahead, behind⟩
              rw [(cText_eq_self_iff _).mpr no_nul_c, same]
              exact ⟨⟨fun first => no_nul_c (List.mem_of_head? first), visible⟩, rfl⟩
          · simp only [if_neg stops, moved]
            exact ih (c ++ [b])

/-! ## What `fgets` gives -/

/-- The reads that a stream still has, with the one that meets the end. -/
def left (fp : Stream) : Nat := if fp.eof then 0 else fp.ahead.length + 1

def heardFrom (fp : Stream) : List UInt8 := if fp.eof then [] else heard [] fp.ahead

def VisibleFrom (fp : Stream) : Prop := fp.eof = false → Visible [] fp.ahead

/-- What `storeLine` does on a stream with an end, where `fgets` has stored `c` already. -/
structure Stored (c : List UInt8) (ahead : List (Option UInt8))
    (result : List UInt8 × Bool × Stream) : Prop where
  unbroken : result.2.2.broken = false
  fewer : left result.2.2 ≤ ahead.length
  line : 10 ∉ result.1.dropLast
  given : result.2.1 = false →
    heard c ahead = cText (c ++ result.1) ++ heardFrom result.2.2 ∧
      (Visible c ahead ↔ (c ++ result.1).head? ≠ some 0 ∧ VisibleFrom result.2.2)
  lost : result.2.1 = true →
    heard c ahead = heardFrom result.2.2 ∧ (Visible c ahead ↔ VisibleFrom result.2.2)

theorem Stored.cons {c : List UInt8} {b : UInt8} {ahead : List (Option UInt8)}
    {result : List UInt8 × Bool × Stream} (stored : Stored (c ++ [b]) ahead result)
    (goes_on : ¬ Stops c b) :
    Stored c (some b :: ahead) (b :: result.1, result.2) where
  unbroken := stored.unbroken
  fewer := Nat.le_succ_of_le stored.fewer
  line := by
    have other : b ≠ 10 := fun newline => goes_on (.inl newline)
    cases bytes : result.1 with
    | nil => simp
    | cons b' rest =>
        have line := stored.line
        rw [bytes] at line
        rw [List.dropLast_cons_cons, List.mem_cons, not_or]
        exact ⟨fun same => other same.symm, line⟩
  given clean := by
    obtain ⟨heard_eq, visible⟩ := stored.given clean
    simp only [heard, Visible, if_neg goes_on]
    simpa using And.intro heard_eq visible
  lost failed := by
    simp only [heard, Visible, if_neg goes_on]
    exact stored.lost failed

theorem Stored.stop {c : List UInt8} {b : UInt8} (ahead : List (Option UInt8))
    (stops : Stops c b) :
    Stored c (some b :: ahead) ([b], false, { ahead, broken := false, eof := false }) where
  unbroken := rfl
  fewer := Nat.le_refl _
  line := List.not_mem_nil
  given _ := by simp [heard, Visible, if_pos stops, heardFrom, VisibleFrom]
  lost := nofun

theorem Stored.fail (c : List UInt8) (ahead : List (Option UInt8)) :
    Stored c (none :: ahead) ([], true, { ahead, broken := false, eof := false }) where
  unbroken := rfl
  fewer := Nat.le_refl _
  line := List.not_mem_nil
  given := nofun
  lost _ := by simp [heard, Visible, heardFrom, VisibleFrom]

theorem Stored.finish (c : List UInt8) :
    Stored c [] ([], false, { ahead := [], broken := false, eof := true }) where
  unbroken := rfl
  fewer := Nat.le_refl _
  line := List.not_mem_nil
  given _ := by simp [heard, Visible, heardFrom, VisibleFrom]
  lost := nofun

theorem storeLine_stored {n : Nat} {c : List UInt8} (ahead : List (Option UInt8))
    (room : c.length + (n + 1) = 511) :
    Stored c ahead (storeLine (n + 1) { ahead, broken := false, eof := false }) := by
  induction n generalizing c ahead with
  | zero =>
      rcases ahead with _ | ⟨_ | b, ahead⟩
      · exact .finish c
      · exact .fail c ahead
      · have stored := Stored.stop (b := b) ahead (.inr room)
        simpa only [storeLine, fgetc_byte, ite_self] using stored
  | succ n ih =>
      rcases ahead with _ | ⟨_ | b, ahead⟩
      · exact .finish c
      · exact .fail c ahead
      · rw [storeLine, fgetc_byte]
        by_cases newline : b = 10
        · subst newline
          exact .stop ahead (.inl rfl)
        · have goes_on : ¬ Stops c b := by
            rintro (here | full)
            · exact newline here
            · omega
          simp only [if_neg newline]
          exact (ih ahead (by simp; omega)).cons goes_on

/-- `fgets` on a stream with an end: it gives a line, or a part of one, or nothing. -/
structure Gives (fp : Stream) (result : Option (List UInt8) × Stream) : Prop where
  unbroken : result.2.broken = false
  fewer : left result.2 < left fp
  buf : ∀ buf, result.1 = some buf → buf ≠ [] ∧ 10 ∉ buf.dropLast ∧
    heardFrom fp = cText buf ++ heardFrom result.2 ∧
      (VisibleFrom fp ↔ buf.head? ≠ some 0 ∧ VisibleFrom result.2)
  nothing : result.1 = none →
    heardFrom fp = heardFrom result.2 ∧ (VisibleFrom fp ↔ VisibleFrom result.2)

theorem fgets_gives {fp : Stream} (unbroken : fp.broken = false) (going : fp.eof = false) :
    Gives fp (fgets 512 fp) := by
  obtain ⟨ahead, broken, eof⟩ := fp
  subst unbroken going
  have stored : Stored [] ahead (storeLine 511 { ahead, broken := false, eof := false }) :=
    storeLine_stored ahead (by rfl)
  rw [fgets]
  generalize storeLine (512 - 1) { ahead, broken := false, eof := false } = result at stored
  obtain ⟨bytes, failed, fp⟩ := result
  refine ⟨stored.unbroken, Nat.lt_succ_of_le stored.fewer, fun buf same => ?_, fun nothing => ?_⟩
  · simp only [ite_eq_iff, reduceCtorEq, and_false, false_or, not_or, Option.some.injEq] at same
    obtain ⟨⟨clean, some_byte⟩, rfl⟩ := same
    have given := stored.given (Bool.not_eq_true _ ▸ clean)
    exact ⟨some_byte, stored.line, by simpa [heardFrom, VisibleFrom] using given⟩
  · cases failed with
    | true => simpa [heardFrom, VisibleFrom] using stored.lost rfl
    | false =>
        obtain rfl : bytes = [] := by simpa using nothing
        simpa [heardFrom, VisibleFrom, cText] using stored.given rfl

/-- Without an end, there is none after a read either. -/
theorem storeLine_broken (n : Nat) {fp : Stream} (endless : fp.broken = true ∧ fp.eof = false) :
    (storeLine n fp).2.2.broken = true ∧ (storeLine n fp).2.2.eof = false := by
  induction n generalizing fp with
  | zero => exact endless
  | succ n ih =>
      obtain ⟨ahead, broken, eof⟩ := fp
      obtain ⟨rfl, rfl⟩ : broken = true ∧ eof = false := endless
      rcases ahead with _ | ⟨_ | b, ahead⟩
      · exact ⟨rfl, rfl⟩
      · exact ⟨rfl, rfl⟩
      · rw [storeLine, fgetc_byte]
        simp only
        split
        · exact ⟨rfl, rfl⟩
        · exact ih ⟨rfl, rfl⟩

theorem fgets_broken {fp : Stream} (endless : fp.broken = true ∧ fp.eof = false) :
    (fgets 512 fp).2.broken = true ∧ (fgets 512 fp).2.eof = false :=
  storeLine_broken 511 endless

/-! ## The iteration -/

/-- From the loop with `retval`, the iteration comes to its end, and these are its strings. -/
inductive Reads : Stream → List UInt8 → List (List UInt8) → Prop
  | eof {fp : Stream} {retval : List UInt8} (ended : fp.eof = true) :
      Reads fp retval (if retval.length ≠ 0 then [retval] else [])
  | retry {fp fp' : Stream} {retval : List UInt8} {strings : List (List UInt8)}
      (going : fp.eof = false) (got : fgets 512 fp = (none, fp'))
      (rest : Reads fp' retval strings) : Reads fp retval strings
  | line {fp fp' : Stream} {retval buf : List UInt8} {strings : List (List UInt8)}
      (going : fp.eof = false) (got : fgets 512 fp = (some buf, fp'))
      (some_byte : cText buf ≠ []) (newline : buf[(cText buf).length - 1]? = some 10)
      (rest : Reads fp' [] strings) : Reads fp retval ((retval ++ cText buf) :: strings)
  | part {fp fp' : Stream} {retval buf : List UInt8} {strings : List (List UInt8)}
      (going : fp.eof = false) (got : fgets 512 fp = (some buf, fp'))
      (some_byte : cText buf ≠ []) (other : buf[(cText buf).length - 1]? ≠ some 10)
      (rest : Reads fp' (retval ++ cText buf) strings) : Reads fp retval strings

theorem take_cText (buf : List UInt8) : buf.take (cText buf).length = cText buf :=
  (List.prefix_iff_eq_take.mp (List.takeWhile_prefix _)).symm

/-- `buf[len - 1]` is the last byte of the text. -/
theorem getElem?_cText (buf : List UInt8) (some_byte : cText buf ≠ []) :
    buf[(cText buf).length - 1]? = (cText buf).getLast? := by
  have inside : (cText buf).length - 1 < (cText buf).length :=
    Nat.sub_lt (List.length_pos_of_ne_nil some_byte) Nat.zero_lt_one
  rw [List.getLast?_eq_getElem?, ← List.getElem?_take_of_lt inside, take_cText]

theorem cText_eq_nil_iff {buf : List UInt8} : cText buf = [] ↔ buf = [] ∨ buf.head? = some 0 := by
  cases buf with
  | nil => simp [cText]
  | cons b buf => by_cases nul : b = 0 <;> simp [cText, nul]

/-- What a pull leads to, from the loop with `retval` to the stream `fp'`. -/
def Leads (fp : Stream) (retval : List UInt8) (fp' : Stream) : Pulled → Prop
  | .iterationEnd => Reads fp retval []
  | .string bytes => ∀ strings, Reads fp' [] strings → Reads fp retval (bytes :: strings)

theorem Leads.eof {fp : Stream} (ended : fp.eof = true) (retval : List UInt8) :
    Leads fp retval fp (if retval.length ≠ 0 then .string retval else .iterationEnd) := by
  have read : Reads fp retval (if retval.length ≠ 0 then [retval] else []) := .eof ended
  by_cases empty : retval.length ≠ 0
  · rw [if_pos empty] at read ⊢
    intro strings later
    cases later with
    | eof => exact read
    | retry going => exact absurd (ended.symm.trans going) nofun
    | line going => exact absurd (ended.symm.trans going) nofun
    | part going => exact absurd (ended.symm.trans going) nofun
  · rw [if_neg empty] at read ⊢
    exact read

theorem leads_of_pullLoop {fuel : Nat} {fp fp' : Stream} {retval : List UInt8} {pulled : Pulled}
    (pull : pullLoop fuel fp retval = some (.ok (pulled, fp'))) : Leads fp retval fp' pulled := by
  induction fuel generalizing fp retval with
  | zero => cases pull
  | succ fuel ih =>
      rw [pullLoop] at pull
      by_cases ended : fp.eof = true
      · rw [if_pos ended] at pull
        obtain ⟨rfl, rfl⟩ := Prod.mk.inj (Except.ok.inj (Option.some.inj pull))
        exact .eof ended retval
      · have going : fp.eof = false := Bool.not_eq_true _ ▸ ended
        rw [if_neg ended] at pull
        rcases got : fgets 512 fp with ⟨result, fp₁⟩
        rw [got] at pull
        cases result with
        | none =>
            have later := ih pull
            cases pulled with
            | iterationEnd => exact .retry going got later
            | string bytes => exact fun strings rest => .retry going got (later strings rest)
        | some buf =>
            simp only [take_cText] at pull
            split at pull
            · cases pull
            · rename_i some_byte
              have some_byte : cText buf ≠ [] := fun none => some_byte (congrArg List.length none)
              split at pull
              · obtain ⟨rfl, rfl⟩ := Prod.mk.inj (Except.ok.inj (Option.some.inj pull))
                exact fun strings rest => .line going got some_byte ‹_› rest
              · have later := ih pull
                cases pulled with
                | iterationEnd => exact .part going got some_byte ‹_› later
                | string bytes =>
                    exact fun strings rest => .part going got some_byte ‹_› (later strings rest)

/-- The iteration that is run is one. -/
theorem Reads.of_lines {fuel : Nat} {fp : Stream} {strings : List (List UInt8)}
    (run : lines fuel fp = some (.ok strings)) : Reads fp [] strings := by
  induction fuel generalizing fp strings with
  | zero => cases run
  | succ fuel ih =>
      rw [lines] at run
      split at run
      · cases run
      · cases run
      · cases run
        exact leads_of_pullLoop ‹_›
      · rename_i bytes fp' pull
        simp only [Option.map_eq_some_iff] at run
        obtain ⟨rest, later, mapped⟩ := run
        cases rest with
        | error halt => cases mapped
        | ok rest =>
            obtain rfl := Except.ok.inj mapped
            exact leads_of_pullLoop pull rest (ih later)

theorem pullLoop_mono {fuel fuel' : Nat} (more : fuel ≤ fuel') {fp : Stream} {retval : List UInt8}
    {result : Except Halt (Pulled × Stream)} (pull : pullLoop fuel fp retval = some result) :
    pullLoop fuel' fp retval = some result := by
  induction fuel generalizing fuel' fp retval with
  | zero => cases pull
  | succ fuel ih =>
      obtain ⟨fuel', rfl⟩ := Nat.exists_eq_add_of_le' (Nat.zero_lt_of_lt more)
      have more := Nat.le_of_succ_le_succ more
      rw [pullLoop] at pull ⊢
      by_cases ended : fp.eof = true
      · rw [if_pos ended] at pull ⊢
        exact pull
      · rw [if_neg ended] at pull ⊢
        split at pull
        · exact ih more pull
        · rename_i buf fp₁ got
          simp only at pull ⊢
          split
          · rw [if_pos ‹_›] at pull
            exact pull
          · rw [if_neg ‹_›] at pull
            split
            · rw [if_pos ‹_›] at pull
              exact pull
            · rw [if_neg ‹_›] at pull
              exact ih more pull

/-- The iteration is run, from a loop that has collected `retval`. -/
inductive Runs (fp : Stream) (retval : List UInt8) : List (List UInt8) → Prop
  | iterationEnd {fuel : Nat} {fp' : Stream}
      (pull : pullLoop fuel fp retval = some (.ok (.iterationEnd, fp'))) : Runs fp retval []
  | string {fuel fuel' : Nat} {bytes : List UInt8} {fp' : Stream} {strings : List (List UInt8)}
      (pull : pullLoop fuel fp retval = some (.ok (.string bytes, fp')))
      (rest : lines fuel' fp' = some (.ok strings)) : Runs fp retval (bytes :: strings)

theorem lines_mono {fuel fuel' : Nat} (more : fuel ≤ fuel') {fp : Stream}
    {result : Except Halt (List (List UInt8))} (run : lines fuel fp = some result) :
    lines fuel' fp = some result := by
  induction fuel generalizing fuel' fp result with
  | zero => cases run
  | succ fuel ih =>
      obtain ⟨fuel', rfl⟩ := Nat.exists_eq_add_of_le' (Nat.zero_lt_of_lt more)
      have more := Nat.le_of_succ_le_succ more
      rw [lines] at run ⊢
      cases pull : methFileListIteratorPullOne fuel fp with
      | none =>
          rw [pull] at run
          cases run
      | some pulled =>
          have pull' : methFileListIteratorPullOne fuel' fp = some pulled :=
            pullLoop_mono more pull
          rw [pull] at run
          rw [pull']
          rcases pulled with halt | ⟨_ | bytes, fp'⟩
          · exact run
          · simp only [Option.map_eq_some_iff] at run ⊢
            obtain ⟨rest, later, mapped⟩ := run
            exact ⟨rest, ih more later, mapped⟩
          · exact run

theorem Runs.lines {fp : Stream} {strings : List (List UInt8)} (runs : Runs fp [] strings) :
    ∃ fuel, lines fuel fp = some (.ok strings) := by
  cases runs with
  | @iterationEnd fuel fp' pull =>
      refine ⟨fuel + 1, ?_⟩
      have pull : methFileListIteratorPullOne fuel fp = some (.ok (.iterationEnd, fp')) := pull
      rw [File.lines, pull]
  | @string fuel fuel' bytes fp' strings pull rest =>
      refine ⟨max fuel fuel' + 1, ?_⟩
      have pull : methFileListIteratorPullOne (max fuel fuel') fp =
          some (.ok (.string bytes, fp')) := pullLoop_mono (Nat.le_max_left _ _) pull
      rw [File.lines, pull]
      simp only [lines_mono (Nat.le_max_right _ _) rest, Option.map_some, Except.map]

/-- One more turn of the loop. -/
theorem Runs.turn {fp fp' : Stream} {retval retval' : List UInt8} {strings : List (List UInt8)}
    (turn : ∀ fuel, pullLoop (fuel + 1) fp retval = pullLoop fuel fp' retval')
    (runs : Runs fp' retval' strings) : Runs fp retval strings := by
  cases runs with
  | iterationEnd pull => exact .iterationEnd ((turn _).trans pull)
  | string pull rest => exact .string ((turn _).trans pull) rest

/-- If no buffer begins with NUL, the iteration of a stream with an end ends. -/
theorem exists_runs (fp : Stream) (retval : List UInt8) (unbroken : fp.broken = false)
    (visible : VisibleFrom fp) : ∃ strings, Runs fp retval strings := by
  induction size : left fp using Nat.strongRecOn generalizing fp retval with
  | ind size ih =>
      subst size
      by_cases ended : fp.eof = true
      · have pull (retval : List UInt8) : pullLoop 1 fp retval =
            some (.ok (if retval.length ≠ 0 then .string retval else .iterationEnd, fp)) := by
          rw [pullLoop, if_pos ended]
        by_cases empty : retval.length ≠ 0
        · have here := pull retval
          have rest : lines 2 fp = some (.ok []) := by
            rw [lines, methFileListIteratorPullOne, pull]
            rfl
          rw [if_pos empty] at here
          exact ⟨[retval], .string here rest⟩
        · have here := pull retval
          rw [if_neg empty] at here
          exact ⟨[], .iterationEnd here⟩
      · have going : fp.eof = false := Bool.not_eq_true _ ▸ ended
        have gives := fgets_gives unbroken going
        rcases got : fgets 512 fp with ⟨_ | buf, fp'⟩
        · rw [got] at gives
          obtain ⟨strings, runs⟩ := ih _ gives.fewer fp' retval gives.unbroken
            ((gives.nothing rfl).2.mp visible) rfl
          refine ⟨strings, runs.turn fun fuel => ?_⟩
          rw [pullLoop, if_neg ended, got]
        · rw [got] at gives
          obtain ⟨some_byte, -, -, visible_iff⟩ := gives.buf buf rfl
          obtain ⟨first, visible'⟩ := visible_iff.mp visible
          have some_byte : ¬ (cText buf).length = 0 := by
            rw [List.length_eq_zero_iff, cText_eq_nil_iff, not_or]
            exact ⟨some_byte, first⟩
          by_cases newline : buf[(cText buf).length - 1]? = some 10
          · obtain ⟨strings, runs⟩ := ih _ gives.fewer fp' [] gives.unbroken visible' rfl
            obtain ⟨fuel, rest⟩ := runs.lines
            have pull : pullLoop 1 fp retval = some (.ok (.string (retval ++ cText buf), fp')) := by
              rw [pullLoop, if_neg ended, got]
              simp only [if_neg some_byte, if_pos newline, take_cText]
            exact ⟨_, .string pull rest⟩
          · obtain ⟨strings, runs⟩ :=
              ih _ gives.fewer fp' (retval ++ cText buf) gives.unbroken visible' rfl
            refine ⟨strings, runs.turn fun fuel => ?_⟩
            rw [pullLoop, if_neg ended, got]
            simp only [if_neg some_byte, if_neg newline, take_cText]

/-! ## The strings -/

/-- A stream without an end is read for ever. -/
theorem Reads.unbroken {fp : Stream} {retval : List UInt8} {strings : List (List UInt8)}
    (reads : Reads fp retval strings) : ¬ (fp.broken = true ∧ fp.eof = false) := by
  induction reads with
  | eof ended => exact fun endless => absurd (ended.symm.trans endless.2) nofun
  | retry going got rest ih | line going got some_byte newline rest ih
  | part going got some_byte other rest ih =>
      intro endless
      have further := fgets_broken endless
      rw [got] at further
      exact ih further

/-- The strings hold what gets through, which shows that no buffer begins with NUL. -/
theorem Reads.flatten {fp : Stream} {retval : List UInt8} {strings : List (List UInt8)}
    (reads : Reads fp retval strings) (unbroken : fp.broken = false) :
    VisibleFrom fp ∧ strings.flatten = retval ++ heardFrom fp := by
  induction reads with
  | @eof fp retval ended =>
      refine ⟨fun going => absurd (ended.symm.trans going) nofun, ?_⟩
      rw [heardFrom, if_pos ended, List.append_nil]
      by_cases empty : retval = [] <;> simp [empty]
  | retry going got rest ih =>
      have gives := fgets_gives unbroken going
      rw [got] at gives
      obtain ⟨heard_eq, visible⟩ := gives.nothing rfl
      rw [heard_eq, visible]
      exact ih gives.unbroken
  | @line fp fp' retval buf strings going got some_byte newline rest ih =>
      have gives := fgets_gives unbroken going
      rw [got] at gives
      obtain ⟨-, -, heard_eq, visible⟩ := gives.buf buf rfl
      obtain ⟨visible', flatten⟩ := ih gives.unbroken
      have first : buf.head? ≠ some 0 := fun nul => some_byte (cText_eq_nil_iff.mpr (.inr nul))
      refine ⟨visible.mpr ⟨first, visible'⟩, ?_⟩
      rw [List.flatten_cons, flatten, heard_eq, List.nil_append, List.append_assoc]
  | @part fp fp' retval buf strings going got some_byte other rest ih =>
      have gives := fgets_gives unbroken going
      rw [got] at gives
      obtain ⟨-, -, heard_eq, visible⟩ := gives.buf buf rfl
      obtain ⟨visible', flatten⟩ := ih gives.unbroken
      have first : buf.head? ≠ some 0 := fun nul => some_byte (cText_eq_nil_iff.mpr (.inr nul))
      refine ⟨visible.mpr ⟨first, visible'⟩, ?_⟩
      rw [flatten, heard_eq, List.append_assoc]

theorem AreLines.cons {text : List UInt8} {strings : List (List UInt8)} (no_newline : 10 ∉ text)
    (later : AreLines strings) : AreLines ((text ++ [10]) :: strings) where
  nonempty := List.forall_mem_cons.mpr ⟨by simp, later.nonempty⟩
  newline line member := by
    cases strings with
    | nil => exact absurd member List.not_mem_nil
    | cons next strings =>
        rw [List.dropLast_cons_cons] at member
        rcases List.mem_cons.mp member with rfl | member
        · exact ⟨text, no_newline, rfl⟩
        · exact later.newline line member

/-- A buffer has no newline but at its end. -/
theorem newline_notMem_dropLast {buf : List UInt8} (line : 10 ∉ buf.dropLast) :
    10 ∉ (cText buf).dropLast := by
  intro member
  obtain ⟨rest, split⟩ : cText buf <+: buf := List.takeWhile_prefix _
  refine line ?_
  rw [← split]
  by_cases whole : rest = []
  · simpa [whole] using member
  · rw [List.dropLast_append_of_ne_nil whole]
    exact List.mem_append_left _ (List.dropLast_subset _ member)

theorem Reads.areLines {fp : Stream} {retval : List UInt8} {strings : List (List UInt8)}
    (reads : Reads fp retval strings) (unbroken : fp.broken = false) (open_line : 10 ∉ retval) :
    AreLines strings := by
  induction reads with
  | @eof fp retval ended =>
      by_cases empty : retval = []
      · simp only [empty, List.length_nil, ne_eq, not_true_eq_false, if_false]
        exact ⟨nofun, nofun⟩
      · rw [if_pos (mt List.length_eq_zero_iff.mp empty)]
        exact ⟨by simpa using empty, nofun⟩
  | retry going got rest ih =>
      have gives := fgets_gives unbroken going
      rw [got] at gives
      exact ih gives.unbroken open_line
  | @line fp fp' retval buf strings going got some_byte newline rest ih =>
      have gives := fgets_gives unbroken going
      rw [got] at gives
      obtain ⟨-, line, -⟩ := gives.buf buf rfl
      rw [getElem?_cText buf some_byte] at newline
      have split : cText buf = (cText buf).dropLast ++ [10] :=
        (List.dropLast_append_getLast? 10 newline).symm
      rw [split, ← List.append_assoc]
      refine AreLines.cons ?_ (ih gives.unbroken List.not_mem_nil)
      rw [List.mem_append, not_or]
      exact ⟨open_line, newline_notMem_dropLast line⟩
  | @part fp fp' retval buf strings going got some_byte other rest ih =>
      have gives := fgets_gives unbroken going
      rw [got] at gives
      obtain ⟨-, line, -⟩ := gives.buf buf rfl
      refine ih gives.unbroken ?_
      rw [getElem?_cText buf some_byte, List.getLast?_eq_some_getLast some_byte] at other
      rw [List.mem_append, not_or, ← List.dropLast_append_getLast some_byte, List.mem_append, not_or]
      refine ⟨open_line, newline_notMem_dropLast line, fun member => other ?_⟩
      rw [List.mem_singleton.mp member]

/-- What an iteration comes to where the end of the file has not been met before. -/
theorem losesNothing_iff_heard {fp : Stream} (going : fp.eof = false) :
    LosesNothing fp ↔
      fp.broken = false ∧ Visible [] fp.ahead ∧ heard [] fp.ahead = upToError fp.ahead := by
  have here : heardFrom fp = heard [] fp.ahead := by rw [heardFrom, going]; rfl
  constructor
  · rintro ⟨fuel, strings, run, whole, -⟩
    have reads := Reads.of_lines run
    have unbroken : fp.broken = false := by
      rw [← Bool.not_eq_true]
      exact fun broken => reads.unbroken ⟨broken, going⟩
    obtain ⟨visible, flatten⟩ := reads.flatten unbroken
    rw [whole, here, List.nil_append] at flatten
    exact ⟨unbroken, visible going, flatten.symm⟩
  · rintro ⟨unbroken, visible, same⟩
    obtain ⟨strings, runs⟩ := exists_runs fp [] unbroken fun _ => visible
    obtain ⟨fuel, run⟩ := runs.lines
    have reads := Reads.of_lines run
    refine ⟨fuel, strings, run, ?_, reads.areLines unbroken List.not_mem_nil⟩
    rw [(reads.flatten unbroken).2, here, same, List.nil_append]

/-- Behind the end, there are no strings. -/
theorem losesNothing_iff_eof {fp : Stream} (ended : fp.eof = true) :
    LosesNothing fp ↔ upToError fp.ahead = [] := by
  have run : lines 2 fp = some (.ok []) := by
    rw [lines, methFileListIteratorPullOne, pullLoop, if_pos ended]
    rfl
  constructor
  · rintro ⟨fuel, strings, run', whole, -⟩
    have same := (lines_mono (Nat.le_max_left 2 fuel) run).symm.trans
      (lines_mono (Nat.le_max_right 2 fuel) run')
    obtain rfl := Except.ok.inj (Option.some.inj same)
    exact whole.symm
  · intro none
    exact ⟨2, [], run, none.symm, nofun, nofun⟩

/-- The lines of a file are its content up to an error exactly when the stream is undisturbed, or has
met its end and nothing has come since. -/
theorem losesNothing_iff (fp : Stream) :
    LosesNothing fp ↔ if fp.eof then upToError fp.ahead = [] else Undisturbed fp := by
  cases ended : fp.eof with
  | true =>
      rw [if_pos rfl]
      exact losesNothing_iff_eof ended
  | false =>
      have content := heard_eq_iff [] fp.ahead
      simp only [List.nil_append] at content
      rw [if_neg nofun, losesNothing_iff_heard ended, content]
      constructor
      · exact fun ⟨ends, no_nul, behind⟩ => ⟨ends, no_nul, behind⟩
      · exact fun undisturbed => ⟨undisturbed.ends, undisturbed.no_nul, undisturbed.behind⟩

theorem behindError_map (content : List UInt8) : behindError (content.map some) = none := by
  induction content with
  | nil => rfl
  | cons b content ih => exact ih

theorem upToError_map (content : List UInt8) : upToError (content.map some) = content := by
  induction content with
  | nil => rfl
  | cons b content ih => rw [List.map_cons, upToError, ih]

/-- A file that is read without an error gives its lines if there is no NUL in it. -/
theorem losesNothing_ofFile (content : List UInt8) :
    LosesNothing (.ofFile content false) ↔ 0 ∉ content := by
  have whole := heard_eq_iff [] (content.map some)
  simp only [List.nil_append, upToError_map, behindError_map, reduceCtorEq, false_imp_iff,
    implies_true, and_true] at whole
  rw [losesNothing_iff_heard rfl]
  simp only [Stream.ofFile, upToError_map, true_and]
  exact whole

/-- The line `"a\0b"`, and a stream on which every read fails. -/
theorem not_losesNothing :
    ¬ LosesNothing (.ofFile [97, 0, 98, 10] false) ∧
      ¬ LosesNothing { ahead := [], broken := true, eof := false } := by
  constructor
  · rw [losesNothing_ofFile]
    decide
  · rw [losesNothing_iff_heard rfl]
    exact fun holds => absurd holds.1 nofun

end File
end Pone
