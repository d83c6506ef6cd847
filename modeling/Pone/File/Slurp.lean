import Pone.Stdio
import Pone.Str.CString

/-!
# Whole files

`file.slurp` and `File#slurp_rest` read 512 bytes at a time until the end-of-file indicator is set,
and take a read of nothing for an error.
-/

namespace Pone
namespace File

open Stdio
open Str (ascii cText NulInside)

/-- What the methods come to. -/
inductive Slurped where
  | returns (bytes : List UInt8)
  | throws (message : List UInt8)
  deriving DecidableEq

/-- The loop of both methods; `none` where a read gives nothing. -/
def slurpLoop (fp : Stream) (retval : List UInt8) : Option (List UInt8) × Stream :=
  if fp.eof then (some retval, fp)
  else if (fread 512 fp).1.length = 0 then (none, (fread 512 fp).2)
  else slurpLoop (fread 512 fp).2 (retval ++ (fread 512 fp).1)
termination_by fp.ahead.length
decreasing_by
  have taken := length_fread_le 512 fp
  omega

/-- `meth_file_slurp_rest`, with `strerror(errno)`: its result and the stream of the object, which is
closed where it throws. -/
def methFileSlurpRest (reason : List UInt8) (self : Stream) : Slurped × Option Stream :=
  match slurpLoop self [] with
  | (some retval, fp) => (.returns retval, some fp)
  | (none, _) => (.throws (ascii "Cannot read file: " ++ reason), none)

/-- `meth_slurp` of the file with this name.  The files have a content by their path. -/
def methSlurp (files : List UInt8 → Option (List UInt8)) (reason : List UInt8) (val : List UInt8) :
    Slurped :=
  if NulInside val then
    .throws (ascii "You can't slurp file. Because file name contains \\0.")
  else
    let str := cText (val ++ [0])
    match files str with
    | none => .throws (ascii "Cannot open '" ++ str ++ ascii "': " ++ reason)
    | some content =>
        match slurpLoop (.ofFile content false) [] with
        | (some retval, _) => .returns retval
        | (none, _) => .throws (ascii "Cannot read file '" ++ str ++ ascii "': " ++ reason)

/-- A file is read as a whole where its end is not behind a full buffer. -/
theorem slurpLoop_ofFile (content retval : List UInt8) :
    (slurpLoop (.ofFile content false) retval).1 =
      if content.length % 512 = 0 then none else some (retval ++ content) := by
  induction size : content.length using Nat.strongRecOn generalizing content retval with
  | ind size ih =>
      subst size
      rw [slurpLoop, if_neg (by simp [Stream.ofFile]), fread_ofFile]
      by_cases empty : content = []
      · subst empty
        rfl
      · have some_byte : 0 < content.length := List.length_pos_of_ne_nil empty
        rw [if_neg (by simp [empty])]
        by_cases short : content.length < 512
        · rw [decide_eq_true short, List.take_of_length_le (Nat.le_of_lt short), slurpLoop,
            if_pos (by rfl), Nat.mod_eq_of_lt short, if_neg (by omega)]
        · have fewer : (content.drop 512).length < content.length := by
            rw [List.length_drop]
            omega
          rw [decide_eq_false short, ih _ fewer _ _ rfl, List.append_assoc, List.take_append_drop,
            List.length_drop, show (content.length - 512) % 512 = content.length % 512 by omega]

/-- Where the end-of-file indicator is set, nothing is read. -/
theorem slurpLoop_eof (content retval : List UInt8) :
    (slurpLoop (.ofFile content true) retval).1 = some retval := by
  rw [slurpLoop, if_pos (by rfl)]

theorem methFileSlurpRest_ofFile (reason content : List UInt8) :
    (methFileSlurpRest reason (.ofFile content false)).1 =
      if content.length % 512 = 0 then .throws (ascii "Cannot read file: " ++ reason)
      else .returns content := by
  have read := slurpLoop_ofFile content []
  rw [methFileSlurpRest]
  generalize slurpLoop (.ofFile content false) [] = result at read
  obtain ⟨retval, fp⟩ := result
  simp only at read
  subst read
  by_cases full : content.length % 512 = 0 <;> simp [full]

theorem methFileSlurpRest_eof (reason content : List UInt8) :
    (methFileSlurpRest reason (.ofFile content true)).1 = .returns [] := by
  have read := slurpLoop_eof content []
  rw [methFileSlurpRest]
  generalize slurpLoop (.ofFile content true) [] = result at read
  obtain ⟨retval, fp⟩ := result
  obtain rfl : retval = some [] := read
  rfl

theorem methSlurp_ofFile {files : List UInt8 → Option (List UInt8)} {val content : List UInt8}
    (reason : List UInt8) (clean : ¬ NulInside val)
    (opens : files (cText (val ++ [0])) = some content) :
    methSlurp files reason val =
      if content.length % 512 = 0 then
        .throws (ascii "Cannot read file '" ++ cText (val ++ [0]) ++ ascii "': " ++ reason)
      else .returns content := by
  have read := slurpLoop_ofFile content []
  rw [methSlurp, if_neg clean]
  simp only [opens]
  generalize slurpLoop (.ofFile content false) [] = result at read
  obtain ⟨retval, fp⟩ := result
  simp only at read
  subst read
  by_cases full : content.length % 512 = 0 <;> simp [full]

/-- `file.slurp` returns the file unless its length is a multiple of 512, and so does
`File#slurp_rest` with what remains of a file, where the end has not been met already. -/
theorem slurp_iff {files : List UInt8 → Option (List UInt8)} {val content : List UInt8}
    (reason : List UInt8) (clean : ¬ NulInside val)
    (opens : files (cText (val ++ [0])) = some content) (rest : List UInt8) (eof : Bool) :
    (methSlurp files reason val = .returns content ↔ content.length % 512 ≠ 0) ∧
      ((methFileSlurpRest reason (.ofFile rest eof)).1 = .returns rest ↔
        if eof then rest = [] else rest.length % 512 ≠ 0) := by
  rw [methSlurp_ofFile reason clean opens]
  refine ⟨by simp, ?_⟩
  cases eof with
  | true => simp [methFileSlurpRest_eof, eq_comm]
  | false => simp [methFileSlurpRest_ofFile]

/-- The file `"h"` with the five bytes of `"hello"`. -/
theorem slurp_iff_hello :
    (methSlurp (fun path => if path = ascii "h" then some (ascii "hello") else none) [] (ascii "h") =
        .returns (ascii "hello") ↔ (ascii "hello").length % 512 ≠ 0) ∧
      ((methFileSlurpRest [] (.ofFile (ascii "hello") false)).1 = .returns (ascii "hello") ↔
        if false then ascii "hello" = [] else (ascii "hello").length % 512 ≠ 0) :=
  slurp_iff [] (by decide) (by decide) (ascii "hello") false

/-- Reading the empty file, or one of 512 bytes, throws. -/
theorem not_slurp :
    methSlurp (fun _ => some []) (ascii "Success") (ascii "h") =
        .throws (ascii "Cannot read file 'h': Success") ∧
      (methFileSlurpRest (ascii "Success") (.ofFile (List.replicate 512 97) false)).1 =
        .throws (ascii "Cannot read file: " ++ ascii "Success") := by
  have opens : (fun _ => some [] : List UInt8 → Option (List UInt8)) (cText (ascii "h" ++ [0])) =
      some [] := rfl
  rw [methSlurp_ofFile _ (by decide) opens, methFileSlurpRest_ofFile, List.length_replicate]
  exact ⟨by decide, rfl⟩

end File
end Pone
