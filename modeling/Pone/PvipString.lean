import Pone.Block
import Pone.CLong
import Pone.Execution
import Pone.Str.Number

/-!
# The growing strings of the parser and the compiler

A `PVIPString` is a buffer of `buflen` bytes whose first `len` are its content.  The functions here
reckon in `size_t`, and their allocations succeed.
-/

namespace Pone
namespace PvipString

open CLong (sizeT)

structure PVIPString where
  len : Nat
  buflen : Nat
  buf : Block UInt8

/-- `INT_MAX` -/
def intMax : Nat := 2 ^ 31 - 1

/-- `PVIP_string_new` -/
def stringNew : PVIPString := { len := 0, buflen := 256, buf := Block.fresh 256 }

/-- The assignment of a new `buflen`, and `realloc`. -/
def PVIPString.realloc (str : PVIPString) (buflen : Nat) : PVIPString :=
  { str with buflen, buf := str.buf.resize buflen }

/-- `PVIP_string_concat`, with `none` where it writes outside the buffer. -/
def concat (str : PVIPString) (src : List UInt8) : Option PVIPString := do
  let str :=
    if str.buflen < sizeT (str.len + src.length) then
      str.realloc (sizeT ((str.len + src.length) * 2))
    else str
  let buf ← str.buf.store str.len src
  return { str with len := sizeT (str.len + src.length), buf }

/-- `PVIP_string_concat_int` -/
def concatInt (str : PVIPString) (n : Int) : Option PVIPString :=
  let (buf, res) := Str.snprintf 1024 (Str.intText n)
  concat str (buf.take res)

/-- `PVIP_string_concat_char` -/
def concatChar (str : PVIPString) (c : UInt8) : Option PVIPString := concat str [c]

/-- `vsnprintf` of a text into `size` bytes of a block.  It returns a negative number for a text that
is too long for an `int`, and then says nothing of the bytes. -/
def vsnprintf (buf : Block UInt8) (pos size : Nat) (text : List UInt8) :
    Option (Block UInt8 × Int) :=
  if text.length ≤ intMax then do
    let buf ← if size = 0 then some buf else buf.store pos (Str.snprintf size text).1
    return (buf, text.length)
  else do
    let buf ← buf.forget pos size
    return (buf, -1)

/-- `PVIP_string_vprintf` with the text that `vsnprintf` makes of its arguments, for at most so many
calls of itself. -/
def vprintf (text : List UInt8) : Nat → PVIPString → Option PVIPString
  | retries, str => do
      let (buf, written) ← vsnprintf str.buf str.len (sizeT (str.buflen - str.len)) text
      let size := sizeT written
      let str := { str with buf }
      if sizeT (str.buflen - str.len) < sizeT (size + 1) then
        match retries with
        | 0 => none
        | retries + 1 => vprintf text retries (str.realloc (sizeT (str.buflen + size + 1)))
      else return { str with len := sizeT (str.len + size) }

/-- `PVIP_string_c_str` -/
def cStr (str : PVIPString) : Option PVIPString := do
  let str := if str.buflen = str.len then str.realloc (sizeT (str.buflen + 1)) else str
  let buf ← str.buf.store str.len [0]
  return { str with buf }

inductive Call where
  | concat (src : List UInt8)
  | concatInt (n : Int) (fits : CLong.Fits n)
  | concatChar (c : UInt8)
  | printf (text : List UInt8)
  | cStr

/-- A call; `PVIP_string_printf` may call itself once. -/
def step (str : PVIPString) : Call → Option PVIPString
  | .concat src => concat str src
  | .concatInt n _ => concatInt str n
  | .concatChar c => concatChar str c
  | .printf text => vprintf text 1 str
  | .cStr => cStr str

/-- What a call appends. -/
def Call.piece : Call → List UInt8
  | .concat src => src
  | .concatInt n _ => Str.intText n
  | .concatChar c => [c]
  | .printf text => text
  | .cStr => []

/-- The string has a buffer of its size with the content at the front. -/
structure Holds (str : PVIPString) (content : List UInt8) : Prop where
  len_le : str.len ≤ str.buflen
  small : str.buflen < 2 ^ 64
  size : str.buf.length = str.buflen
  len_eq : str.len = content.length
  content : str.buf.Holds content

/-- `buf[len]` is `'\0'`. -/
def Terminated (str : PVIPString) : Prop := str.buf[str.len]? = some (.ptr 0)

/-- After each of the calls, all of which end without a write outside the buffer, the string holds
the pieces in order; behind `PVIP_string_c_str` it is a string of C. -/
def Correct (calls : List Call) : Prop :=
  ∀ front, front <+: calls →
    ∃ str, Execution.run step stringNew front = some str ∧ Holds str (front.flatMap Call.piece) ∧
      ∀ earlier, front = earlier ++ [.cStr] → Terminated str

/-- A formatted piece is no longer than an `int` can say, and where the buffer has to grow, its new
size is one that a `size_t` can say. -/
def Fits (str : PVIPString) : Call → Prop
  | .printf text =>
      text.length ≤ intMax ∧
        (str.buflen < str.len + (text.length + 1) → str.buflen + (text.length + 1) < 2 ^ 64)
  | .cStr => str.buflen = str.len → str.buflen + 1 < 2 ^ 64
  | call =>
      str.buflen < str.len + call.piece.length → (str.len + call.piece.length) * 2 < 2 ^ 64

/-! ## One call -/

variable {str : PVIPString} {content : List UInt8}

theorem sizeT_of_lt {i : Nat} (small : i < 2 ^ 64) : sizeT i = i := by
  unfold sizeT
  omega

theorem sizeT_succ {i : Nat} (small : i + 1 < 2 ^ 64) : sizeT (i + 1) = i + 1 := by
  unfold sizeT
  omega

theorem holds_new : Holds stringNew [] where
  len_le := Nat.zero_le _
  small := by decide
  size := Block.length_fresh _
  len_eq := rfl
  content := .nil _

theorem Holds.realloc (holds : Holds str content) {buflen : Nat} (covers : str.len ≤ buflen)
    (small : buflen < 2 ^ 64) : Holds (str.realloc buflen) content where
  len_le := covers
  small := small
  size := Block.length_resize _ _
  len_eq := holds.len_eq
  content := holds.content.resize (by rw [← holds.len_eq]; exact covers)

/-- A piece that fits into the buffer is written behind the content. -/
theorem Holds.store (holds : Holds str content) (src : List UInt8)
    (room : str.len + src.length ≤ str.buflen) :
    ∃ buf, str.buf.store str.len src = some buf ∧
      Holds { str with len := str.len + src.length, buf } (content ++ src) := by
  have within : content.length + src.length ≤ str.buf.length := by
    rw [holds.size, ← holds.len_eq]
    exact room
  obtain ⟨buf, stored, front⟩ := holds.content.store_end within
  rw [← holds.len_eq] at stored
  refine ⟨buf, stored, room, holds.small, ?_, ?_, front⟩
  · exact (Block.length_of_store stored).trans holds.size
  · rw [List.length_append, holds.len_eq]

/-- The end of `PVIP_string_concat`, where the buffer has room for the piece. -/
theorem concat_of_room (holds : Holds str content) {src : List UInt8}
    (room : str.len + src.length ≤ str.buflen) :
    ∃ after, concat str src = some after ∧ Holds after (content ++ src) := by
  have small := holds.small
  obtain ⟨buf, stored, after⟩ := holds.store src room
  have sum : sizeT (str.len + src.length) = str.len + src.length := sizeT_of_lt (by omega)
  refine ⟨_, ?_, after⟩
  rw [concat, sum, if_neg (by omega)]
  simp only [stored, sum]
  rfl

/-- The buffer grows to twice the length of the new content. -/
theorem concat_of_double (holds : Holds str content) {src : List UInt8}
    (full : str.buflen < str.len + src.length) (double : (str.len + src.length) * 2 < 2 ^ 64) :
    ∃ after, concat str src = some after ∧ Holds after (content ++ src) := by
  have grown : Holds (str.realloc ((str.len + src.length) * 2)) content :=
    holds.realloc (by omega) double
  obtain ⟨buf, stored, after⟩ :=
    grown.store src (by simp only [PVIPString.realloc]; omega)
  have sum : sizeT (str.len + src.length) = str.len + src.length := sizeT_of_lt (by omega)
  have twice : sizeT ((str.len + src.length) * 2) = (str.len + src.length) * 2 :=
    sizeT_of_lt double
  refine ⟨_, ?_, after⟩
  rw [concat, sum, twice, if_pos full]
  simp only [PVIPString.realloc] at stored ⊢
  simp only [stored, sum]
  rfl

/-- A size that wraps around is too small. -/
theorem concat_eq_none (holds : Holds str content) {src : List UInt8}
    (full : str.buflen < str.len + src.length) (wraps : 2 ^ 64 ≤ (str.len + src.length) * 2) :
    concat str src = none := by
  have size := holds.size
  unfold concat
  split
  · have short : sizeT ((str.len + src.length) * 2) < str.len + src.length := by
      unfold sizeT
      omega
    have outside : (str.buf.resize (sizeT ((str.len + src.length) * 2))).store str.len src = none :=
      Block.store_eq_none (by rwa [Block.length_resize])
    simp only [PVIPString.realloc, outside]
    rfl
  · have outside : str.buf.store str.len src = none := Block.store_eq_none (by omega)
    simp only [outside]
    rfl

theorem concat_iff (holds : Holds str content) (src : List UInt8) :
    (∃ after, concat str src = some after ∧ Holds after (content ++ src)) ↔
      (str.buflen < str.len + src.length → (str.len + src.length) * 2 < 2 ^ 64) := by
  by_cases full : str.buflen < str.len + src.length
  · constructor
    · rintro ⟨after, done, -⟩ -
      by_contra wraps
      rw [concat_eq_none holds full (by omega)] at done
      cases done
    · intro double
      exact concat_of_double holds full (double full)
  · exact iff_of_true (concat_of_room holds (by omega)) fun wanting => absurd wanting full

theorem concatInt_eq (str : PVIPString) {n : Int} (fits : CLong.Fits n) :
    concatInt str n = concat str (Str.intText n) := by
  have short := (Str.length_intText fits).1
  have whole : (Str.snprintf 1024 (Str.intText n)).1.take (Str.intText n).length =
      Str.intText n := by
    rw [Str.snprintf, List.take_of_length_le (i := 1024 - 1) (by omega), List.take_left]
  exact congrArg (concat str) whole

theorem Holds.room_eq (holds : Holds str content) :
    sizeT (str.buflen - str.len) = str.buflen - str.len := by
  have below := holds.len_le
  have small := holds.small
  unfold sizeT
  omega

/-- The text with its terminator fits behind the content. -/
theorem vprintf_of_room (holds : Holds str content) {text : List UInt8} (retries : Nat)
    (short : text.length ≤ intMax) (room : str.len + (text.length + 1) ≤ str.buflen) :
    ∃ after, vprintf text retries str = some after ∧ Holds after (content ++ text) ∧
      after.buflen = str.buflen := by
  have small := holds.small
  obtain ⟨buf, stored, after⟩ := holds.store (text ++ [0]) (by simpa using room)
  have whole : (Str.snprintf (str.buflen - str.len) text).1 = text ++ [0] := by
    rw [Str.snprintf, List.take_of_length_le (by omega)]
  have written : vsnprintf str.buf str.len (str.buflen - str.len) text =
      some (buf, (text.length : Int)) := by
    rw [vsnprintf, if_pos short, if_neg (by omega), whole, stored]
    rfl
  have size : sizeT (text.length : Int) = text.length := sizeT_of_lt (by omega)
  have next : sizeT (text.length + 1) = text.length + 1 := sizeT_succ (by omega)
  have sum : sizeT (str.len + text.length) = str.len + text.length := sizeT_of_lt (by omega)
  refine ⟨{ str with len := str.len + text.length, buf }, ?_,
    ⟨?_, small, after.size, ?_, ?_⟩, rfl⟩
  · rw [vprintf, holds.room_eq, written]
    simp only [Option.bind_eq_bind, Option.bind_some, size, next, holds.room_eq, sum]
    exact if_neg (by omega)
  · simp only
    omega
  · rw [List.length_append, holds.len_eq]
  · have front := after.content
    rw [← List.append_assoc] at front
    exact front.of_append

/-- What does not fit is cut off, the content stays, and the call is made again with room for the
text and its terminator. -/
theorem vprintf_of_full (holds : Holds str content) {text : List UInt8} (retries : Nat)
    (short : text.length ≤ intMax) (full : str.buflen < str.len + (text.length + 1)) :
    ∃ buf : Block UInt8, buf.length = str.buflen ∧ buf.Holds content ∧
      vprintf text (retries + 1) str =
        vprintf text retries
          ({ str with buf }.realloc (sizeT (str.buflen + (text.length + 1 : Nat)))) := by
  have bound : intMax = 2 ^ 31 - 1 := rfl
  have below := holds.len_le
  have size : sizeT (text.length : Int) = text.length := sizeT_of_lt (by omega)
  have next : sizeT (text.length + 1) = text.length + 1 := sizeT_succ (by omega)
  have again (buf : Block UInt8) (written : vsnprintf str.buf str.len (str.buflen - str.len) text =
      some (buf, (text.length : Int))) :
      vprintf text (retries + 1) str =
        vprintf text retries
          ({ str with buf }.realloc (sizeT (str.buflen + (text.length + 1 : Nat)))) := by
    rw [vprintf, holds.room_eq, written]
    simp only [Option.bind_eq_bind, Option.bind_some, size, next, holds.room_eq]
    rw [if_pos (by omega), Nat.cast_succ, Int.add_assoc]
  by_cases none_left : str.buflen - str.len = 0
  · refine ⟨str.buf, holds.size, holds.content, again _ ?_⟩
    rw [vsnprintf, if_pos short, if_pos none_left]
    rfl
  · have filled : (Str.snprintf (str.buflen - str.len) text).1.length = str.buflen - str.len := by
      rw [Str.snprintf, List.length_append, List.length_take, List.length_singleton]
      omega
    obtain ⟨buf, stored, after⟩ :=
      holds.store (Str.snprintf (str.buflen - str.len) text).1 (by omega)
    refine ⟨buf, after.size, after.content.of_append, again _ ?_⟩
    rw [vsnprintf, if_pos short, if_neg none_left, stored]
    rfl

/-- The second call has room. -/
theorem vprintf_of_grown (holds : Holds str content) {text : List UInt8}
    (short : text.length ≤ intMax) (full : str.buflen < str.len + (text.length + 1))
    (grown : str.buflen + (text.length + 1) < 2 ^ 64) :
    ∃ after, vprintf text 1 str = some after ∧ Holds after (content ++ text) ∧
      after.buflen = str.buflen + (text.length + 1) := by
  have below := holds.len_le
  obtain ⟨buf, size, front, again⟩ := vprintf_of_full holds 0 short full
  have held : Holds { str with buf } content := ⟨below, holds.small, size, holds.len_eq, front⟩
  have sum : sizeT (str.buflen + (text.length + 1 : Nat)) = str.buflen + (text.length + 1) :=
    sizeT_of_lt grown
  rw [again, sum]
  refine vprintf_of_room (held.realloc (by simp only; omega) grown) 0 short ?_
  simp only [PVIPString.realloc]
  omega

/-- The second call writes behind a buffer whose size has wrapped around. -/
theorem vprintf_eq_none (holds : Holds str content) {text : List UInt8}
    (short : text.length ≤ intMax) (full : str.buflen < str.len + (text.length + 1))
    (wraps : 2 ^ 64 ≤ str.buflen + (text.length + 1)) : vprintf text 1 str = none := by
  have bound : intMax = 2 ^ 31 - 1 := rfl
  have small := holds.small
  have below := holds.len_le
  obtain ⟨buf, size, -, again⟩ := vprintf_of_full holds 0 short full
  obtain ⟨buflen, wrapped⟩ : ∃ buflen, sizeT (str.buflen + (text.length + 1 : Nat)) = buflen :=
    ⟨_, rfl⟩
  have less : buflen + 2 ^ 64 = str.buflen + (text.length + 1) := by
    rw [← wrapped]
    unfold sizeT
    omega
  have room : sizeT ((buflen : Int) - str.len) ≠ 0 := by
    unfold sizeT
    omega
  have outside : vsnprintf (buf.resize buflen) str.len (sizeT (buflen - str.len)) text = none := by
    rw [vsnprintf, if_pos short, if_neg room,
      Block.store_eq_none (by rw [Block.length_resize]; omega)]
    rfl
  rw [again, wrapped, vprintf]
  simp only [PVIPString.realloc, outside]
  rfl

/-- The negative number that `vsnprintf` returns is the largest `size_t`, by which `len` goes down by
one, or below zero. -/
theorem vprintf_of_long (holds : Holds str content) {text : List UInt8} (retries : Nat)
    (long : intMax < text.length) :
    vprintf text retries str =
      some
        { str with
          len := sizeT (str.len - 1)
          buf := str.buf.take str.len ++ Block.fresh (str.buflen - str.len) } := by
  have size := holds.size
  have below := holds.len_le
  have small := holds.small
  have written : vsnprintf str.buf str.len (str.buflen - str.len) text =
      some (str.buf.take str.len ++ Block.fresh (str.buflen - str.len), -1) := by
    rw [vsnprintf, if_neg (by omega), Block.forget, if_pos (by omega),
      List.drop_eq_nil_of_le (by omega), List.append_nil]
    rfl
  obtain ⟨top, negative⟩ : ∃ top, sizeT (-1) = top := ⟨_, rfl⟩
  have none_wanted : sizeT (top + 1) = 0 := by
    rw [← negative]
    unfold sizeT
    omega
  have less : sizeT (str.len + top) = sizeT (str.len - 1) := by
    rw [← negative]
    unfold sizeT
    omega
  rw [vprintf, holds.room_eq, written]
  simp only [Option.bind_eq_bind, Option.bind_some, negative, none_wanted, Nat.not_lt_zero,
    if_false, less]
  rfl

theorem not_holds_of_long (holds : Holds str content) {text : List UInt8} {retries : Nat}
    (long : intMax < text.length) {after : PVIPString}
    (done : vprintf text retries str = some after) : ¬ Holds after (content ++ text) := by
  intro held
  rw [vprintf_of_long holds retries long] at done
  obtain rfl := Option.some.inj done
  have len_eq := held.len_eq
  have below := held.len_le
  rw [List.length_append, ← holds.len_eq] at len_eq
  simp only at len_eq below
  by_cases start : str.len = 0
  · -- the content would begin with what `vsnprintf` has left behind
    have front := held.content
    rw [List.length_eq_zero_iff.mp (holds.len_eq.symm.trans start), List.nil_append] at front
    simp only [start, List.take_zero, List.nil_append] at front
    obtain ⟨b, rest, rfl⟩ := List.exists_cons_of_length_pos (Nat.zero_lt_of_lt long)
    exact Block.not_holds_fresh _ _ _ front
  · have less : sizeT (str.len - 1) = str.len - 1 := by
      have small := holds.small
      have before := holds.len_le
      unfold sizeT
      omega
    omega

theorem printf_iff (holds : Holds str content) (text : List UInt8) :
    (∃ after, vprintf text 1 str = some after ∧ Holds after (content ++ text)) ↔
      Fits str (.printf text) := by
  by_cases short : text.length ≤ intMax
  · by_cases full : str.buflen < str.len + (text.length + 1)
    · constructor
      · rintro ⟨after, done, -⟩
        refine ⟨short, fun _ => ?_⟩
        by_contra wraps
        rw [vprintf_eq_none holds short full (by omega)] at done
        cases done
      · rintro ⟨-, grown⟩
        obtain ⟨after, done, held, -⟩ := vprintf_of_grown holds short full (grown full)
        exact ⟨after, done, held⟩
    · obtain ⟨after, done, held, -⟩ := vprintf_of_room holds 1 short (by omega)
      exact iff_of_true ⟨after, done, held⟩ ⟨short, fun wanting => absurd wanting full⟩
  · refine iff_of_false ?_ fun fits => short fits.1
    rintro ⟨after, done, held⟩
    exact not_holds_of_long holds (by omega) done held

/-- The terminator stands behind the content. -/
theorem cStr_of_room (holds : Holds str content) (room : str.len < str.buflen) :
    ∃ after, cStr str = some after ∧ Holds after content ∧ Terminated after := by
  obtain ⟨buf, stored, held⟩ := holds.store [0] room
  refine ⟨{ str with buf }, ?_, ?_, ?_⟩
  · rw [cStr, if_neg (by omega)]
    simp only [stored]
    rfl
  · exact ⟨holds.len_le, holds.small, held.size, holds.len_eq, held.content.of_append⟩
  · have found : buf.read content.length = some (.ptr 0) := held.content.read (by simp)
    rw [Block.read, if_pos (by omega), ← holds.len_eq, Int.toNat_natCast] at found
    exact found

theorem cStr_iff (holds : Holds str content) :
    (∃ after, cStr str = some after ∧ Holds after content ∧ Terminated after) ↔
      Fits str .cStr := by
  have below := holds.len_le
  have size := holds.size
  have small := holds.small
  by_cases full : str.buflen = str.len
  · constructor
    · rintro ⟨after, done, -⟩ -
      by_contra wraps
      have zero : sizeT (str.buflen + 1) = 0 := by
        unfold sizeT
        omega
      have outside : (str.buf.resize 0).store str.len [0] = none :=
        Block.store_eq_none (by rw [Block.length_resize, List.length_singleton]; omega)
      rw [cStr, if_pos full, zero] at done
      simp only [PVIPString.realloc, outside] at done
      cases done
    · intro fits
      have grown : Holds (str.realloc (str.buflen + 1)) content :=
        holds.realloc (by omega) (fits full)
      obtain ⟨after, done, held⟩ :=
        cStr_of_room grown (by simp only [PVIPString.realloc]; omega)
      refine ⟨after, ?_, held⟩
      rw [← done, cStr, cStr, if_pos full, sizeT_succ (fits full),
        if_neg (by simp only [PVIPString.realloc]; omega)]
  · exact iff_of_true (cStr_of_room holds (by omega)) fun wanting => absurd wanting full

/-- A call does what it should exactly if its sizes can be said. -/
theorem step_iff (holds : Holds str content) (call : Call) :
    (∃ after, step str call = some after ∧ Holds after (content ++ call.piece) ∧
      (call = .cStr → Terminated after)) ↔ Fits str call := by
  have appends (call : Call) (other : call ≠ .cStr)
      (iff : (∃ after, step str call = some after ∧ Holds after (content ++ call.piece)) ↔
        Fits str call) :
      (∃ after, step str call = some after ∧ Holds after (content ++ call.piece) ∧
        (call = .cStr → Terminated after)) ↔ Fits str call := by
    rw [← iff]
    constructor
    · rintro ⟨after, done, held, -⟩
      exact ⟨after, done, held⟩
    · rintro ⟨after, done, held⟩
      exact ⟨after, done, held, fun same => absurd same other⟩
  cases call with
  | concat src => exact appends _ (by simp) (concat_iff holds src)
  | concatInt n fits =>
      refine appends _ (by simp) ?_
      rw [step, concatInt_eq str fits]
      exact concat_iff holds (Str.intText n)
  | concatChar c => exact appends _ (by simp) (concat_iff holds [c])
  | printf text => exact appends _ (by simp) (printf_iff holds text)
  | cStr =>
      rw [← cStr_iff holds]
      simp only [step, Call.piece, List.append_nil, forall_const]

/-! ## The size of the buffer -/

theorem sizeT_le (i : Nat) : sizeT i ≤ i := by
  unfold sizeT
  omega

theorem buflen_concat {src : List UInt8} {after : PVIPString} (done : concat str src = some after) :
    after.buflen ≤ max str.buflen ((str.len + src.length) * 2) := by
  simp only [concat, Option.bind_eq_bind, Option.bind_eq_some_iff] at done
  obtain ⟨buf, -, done⟩ := done
  obtain rfl := Option.some.inj done
  simp only
  split
  · exact (sizeT_le ((str.len + src.length) * 2)).trans (Nat.le_max_right _ _)
  · exact Nat.le_max_left _ _

theorem buflen_printf (holds : Holds str content) {text : List UInt8}
    (fits : Fits str (.printf text)) {after : PVIPString} (done : vprintf text 1 str = some after) :
    after.buflen ≤ max str.buflen ((str.len + text.length) * 2 + 2) := by
  have below := holds.len_le
  by_cases full : str.buflen < str.len + (text.length + 1)
  · obtain ⟨after', done', -, grown⟩ := vprintf_of_grown holds fits.1 full (fits.2 full)
    obtain rfl : after' = after := Option.some.inj (done'.symm.trans done)
    omega
  · obtain ⟨after', done', -, same⟩ := vprintf_of_room holds 1 fits.1 (Nat.le_of_not_lt full)
    obtain rfl : after' = after := Option.some.inj (done'.symm.trans done)
    omega

theorem buflen_cStr {after : PVIPString} (done : cStr str = some after) :
    after.buflen ≤ max str.buflen (str.len * 2 + 2) := by
  simp only [cStr, Option.bind_eq_bind, Option.bind_eq_some_iff] at done
  obtain ⟨buf, -, done⟩ := done
  obtain rfl := Option.some.inj done
  simp only
  split
  · next full =>
      have grown := sizeT_le (str.buflen + 1)
      rw [Nat.cast_succ] at grown
      simp only [PVIPString.realloc]
      omega
  · exact Nat.le_max_left _ _

/-- The buffer is never much larger than twice the content. -/
theorem buflen_step (holds : Holds str content) {call : Call} (fits : Fits str call)
    {after : PVIPString} (done : step str call = some after) :
    after.buflen ≤ max str.buflen ((str.len + call.piece.length) * 2 + 2) := by
  cases call with
  | concat src =>
      have bound := buflen_concat done
      simp only [Call.piece]
      omega
  | concatInt n fits' =>
      rw [step, concatInt_eq str fits'] at done
      have bound := buflen_concat done
      simp only [Call.piece]
      omega
  | concatChar c =>
      have bound := buflen_concat done
      simp only [Call.piece]
      omega
  | printf text => exact buflen_printf holds fits done
  | cStr => exact buflen_cStr done

/-! ## Runs -/

theorem correct_nil : Correct [] := by
  intro front first
  obtain rfl := List.prefix_nil.mp first
  exact ⟨stringNew, rfl, holds_new, fun earlier same => by simp at same⟩

theorem correct_concat_iff {calls : List Call} {call : Call}
    (executed : Execution.run step stringNew calls = some str)
    (holds : Holds str (calls.flatMap Call.piece)) :
    Correct (calls ++ [call]) ↔ Correct calls ∧ Fits str call := by
  rw [← step_iff holds call]
  constructor
  · intro correct
    refine ⟨fun front first => correct front (first.trans (List.prefix_append _ _)), ?_⟩
    obtain ⟨after, done, held, terminated⟩ := correct _ (List.prefix_refl _)
    obtain ⟨before, before_run, last⟩ := Execution.run_append_iff.mp done
    obtain rfl : str = before := Option.some.inj (executed.symm.trans before_run)
    obtain ⟨next, taken, ended⟩ := Execution.run_cons_iff.mp last
    obtain rfl : next = after := by simpa using ended
    rw [List.flatMap_append, List.flatMap_singleton] at held
    exact ⟨next, taken, held, fun same => terminated calls (by rw [same])⟩
  · rintro ⟨correct, after, taken, held, terminated⟩ front first
    rcases List.prefix_concat_iff.mp first with rfl | before
    · refine ⟨after, ?_, ?_, fun earlier same => ?_⟩
      · exact Execution.run_append_iff.mpr
          ⟨str, executed, Execution.run_cons_iff.mpr ⟨after, taken, rfl⟩⟩
      · rwa [List.flatMap_append, List.flatMap_singleton]
      · exact terminated (by simpa using (List.append_inj' same rfl).2)
    · exact correct front before

/-- The string holds what has been appended, in every run in which each call has sizes that can be
said, and in no other. -/
theorem string_correct_iff (calls : List Call) :
    Correct calls ↔ Execution.Along step Fits stringNew calls := by
  induction calls using List.reverseRecOn with
  | nil => exact iff_of_true correct_nil trivial
  | append_singleton calls call ih =>
      have shorter (correct : Correct (calls ++ [call])) : Correct calls :=
        fun front first => correct front (first.trans (List.prefix_append _ _))
      by_cases correct : Correct calls
      · obtain ⟨str, executed, holds, -⟩ := correct calls (List.prefix_refl _)
        rw [correct_concat_iff executed holds, Execution.along_concat_iff executed, ih]
      · exact iff_of_false (fun longer => correct (shorter longer)) fun along =>
          correct (ih.mpr along.of_append)

/-- Whatever is appended, a `size_t` can say the sizes until the content is longer than any memory. -/
theorem correct_of_short {calls : List Call}
    (short : ∀ text, Call.printf text ∈ calls → text.length ≤ intMax)
    (total : (calls.flatMap Call.piece).length < 2 ^ 62) :
    Correct calls ∧ ∃ str, Execution.run step stringNew calls = some str ∧
      Holds str (calls.flatMap Call.piece) ∧ str.buflen ≤ str.len * 2 + 256 := by
  induction calls using List.reverseRecOn with
  | nil => exact ⟨correct_nil, stringNew, rfl, holds_new, by decide⟩
  | append_singleton calls call ih =>
      rw [List.flatMap_append, List.flatMap_singleton, List.length_append] at total
      obtain ⟨correct, str, executed, holds, size⟩ :=
        ih (fun text given => short text (List.mem_append_left _ given)) (by omega)
      rw [← holds.len_eq] at total
      have fits : Fits str call := by
        cases call with
        | printf text =>
            have fits := short text (by simp)
            have bound : intMax = 2 ^ 31 - 1 := rfl
            exact ⟨fits, fun _ => by omega⟩
        | cStr => exact fun _ => by omega
        | concat src => exact fun _ => by omega
        | concatInt n fits => exact fun _ => by omega
        | concatChar c => exact fun _ => by omega
      obtain ⟨after, taken, held, -⟩ := (step_iff holds call).mpr fits
      have grown := buflen_step holds fits taken
      have longer := held.len_eq
      rw [List.length_append, ← holds.len_eq] at longer
      refine ⟨(correct_concat_iff executed holds).mpr ⟨correct, fits⟩, after, ?_, ?_, by omega⟩
      · exact Execution.run_append_iff.mpr
          ⟨str, executed, Execution.run_cons_iff.mpr ⟨after, taken, rfl⟩⟩
      · rwa [List.flatMap_append, List.flatMap_singleton]

/-- A piece of 2^31 bytes is too long for an `int`. -/
theorem not_string_correct : ¬ ∀ calls, Correct calls := by
  intro correct
  obtain ⟨-, fits⟩ := (correct_concat_iff rfl holds_new).mp
    (correct ([] ++ [.printf (List.replicate (2 ^ 31) 97)]))
  have short := fits.1
  rw [List.length_replicate] at short
  exact absurd short (by unfold intMax; omega)

end PvipString
end Pone
