import Mathlib.Data.List.Basic

/-!
# Streams of C

A stream that is read byte by byte, with the end-of-file indicator that a read sets when it comes to
the end.  A read may fail instead; what is behind it can still be read.
-/

namespace Pone
namespace Stdio

/-- The bytes to come, with `none` for a read that fails between them, and whether every read behind
them fails, where else the file ends. -/
structure Stream where
  ahead : List (Option UInt8)
  broken : Bool
  eof : Bool
  deriving DecidableEq

/-- A file that is read without an error. -/
def Stream.ofFile (content : List UInt8) (eof : Bool) : Stream :=
  { ahead := content.map some, broken := false, eof }

/-- What `fgetc` gives. -/
inductive Got where
  | byte (b : UInt8)
  | eof
  | error

/-- `fgetc` -/
def fgetc (fp : Stream) : Got × Stream :=
  if fp.eof then (.eof, fp)
  else
    match fp.ahead with
    | some b :: ahead => (.byte b, { fp with ahead })
    | none :: ahead => (.error, { fp with ahead })
    | [] => if fp.broken then (.error, fp) else (.eof, { fp with eof := true })

/-- `fread` of bytes: those that it stores. -/
def fread : Nat → Stream → List UInt8 × Stream
  | 0, fp => ([], fp)
  | n + 1, fp =>
      match fgetc fp with
      | (.byte b, fp) => (b :: (fread n fp).1, (fread n fp).2)
      | (_, fp) => ([], fp)

/-- The bytes that `fgets` stores, at most `n`, and whether a read fails. -/
def storeLine : Nat → Stream → List UInt8 × Bool × Stream
  | 0, fp => ([], false, fp)
  | n + 1, fp =>
      match fgetc fp with
      | (.byte b, fp) =>
          if b = 10 then ([b], false, fp)
          else (b :: (storeLine n fp).1, (storeLine n fp).2)
      | (.eof, fp) => ([], false, fp)
      | (.error, fp) => ([], true, fp)

/-- `fgets`, which gives up what it has stored where a read fails. -/
def fgets (size : Nat) (fp : Stream) : Option (List UInt8) × Stream :=
  match storeLine (size - 1) fp with
  | (bytes, failed, fp) => (if failed ∨ bytes = [] then none else some bytes, fp)

/-! ## Whole files -/

theorem fgetc_eof {fp : Stream} (eof : fp.eof = true) : fgetc fp = (.eof, fp) := if_pos eof

@[simp]
theorem fgetc_byte (b : UInt8) (ahead : List (Option UInt8)) (broken : Bool) :
    fgetc { ahead := some b :: ahead, broken, eof := false } =
      (.byte b, { ahead, broken, eof := false }) := rfl

@[simp]
theorem fgetc_error (ahead : List (Option UInt8)) (broken : Bool) :
    fgetc { ahead := none :: ahead, broken, eof := false } =
      (.error, { ahead, broken, eof := false }) := rfl

@[simp]
theorem fgetc_broken :
    fgetc { ahead := [], broken := true, eof := false } =
      (.error, { ahead := [], broken := true, eof := false }) := rfl

@[simp]
theorem fgetc_end :
    fgetc { ahead := [], broken := false, eof := false } =
      (.eof, { ahead := [], broken := false, eof := true }) := rfl

/-- Every byte that is stored has been ahead. -/
theorem length_fread_le (n : Nat) (fp : Stream) :
    (fread n fp).1.length + (fread n fp).2.ahead.length ≤ fp.ahead.length := by
  induction n generalizing fp with
  | zero => simp [fread]
  | succ n ih =>
      obtain ⟨ahead, broken, eof⟩ := fp
      cases eof with
      | true => simp [fread, fgetc]
      | false =>
          rcases ahead with _ | ⟨_ | b, ahead⟩
          · cases broken <;> simp [fread]
          · simp [fread]
          · have further := ih { ahead, broken, eof := false }
            simp only at further
            simp only [fread, fgetc_byte, List.length_cons]
            omega

/-- A read that is short comes to the end of the file. -/
theorem fread_ofFile (n : Nat) (content : List UInt8) :
    fread n (.ofFile content false) =
      (content.take n, .ofFile (content.drop n) (decide (content.length < n))) := by
  induction n generalizing content with
  | zero => simp [fread]
  | succ n ih =>
      cases content with
      | nil => simp [fread, Stream.ofFile]
      | cons b content =>
          have further := ih content
          simp only [Stream.ofFile] at further ⊢
          simp [fread, further]

end Stdio
end Pone
