import Pone.Binary64
import Pone.Khash.Flags

/-!
# The hash tables of `pone_khash.h`

`khint_t` has 32 bits.  A pointer that is `NULL` is an empty array, a place that was never written is
`none`, and so is the result where the C code leaves an array or reads a key that was never written.
Allocations succeed.  The bound of the steps of each loop is larger than the number that it takes.
-/

namespace Pone
namespace Khash

/-- `kh_##name##_t` -/
structure Kh (κ ν : Type) where
  nBuckets : Nat
  size : Nat
  nOccupied : Nat
  upperBound : Nat
  flags : List UInt32
  keys : List (Option κ)
  vals : List (Option ν)

/-- A value of `khint_t`. -/
def khint (n : Nat) : Nat := n % 2 ^ 32

/-- `kroundup32` -/
def kroundup32 (x : Nat) : Nat :=
  let x := khint (x + (2 ^ 32 - 1))
  let x := x ||| x >>> 1
  let x := x ||| x >>> 2
  let x := x ||| x >>> 4
  let x := x ||| x >>> 8
  let x := x ||| x >>> 16
  khint (x + 1)

/-- `__ac_HASH_UPPER` -/
def hashUpper : ℚ := Binary64.roundTo (77 / 100)

/-- `(khint_t)(n_buckets * __ac_HASH_UPPER + 0.5)` -/
def upperOf (nBuckets : Nat) : Nat :=
  ⌊Binary64.roundTo (Binary64.roundTo (nBuckets * hashUpper) + 1 / 2)⌋.toNat

/-- An assignment to an element of an array. -/
def assign {α : Type} (array : List α) (i : Nat) (a : α) : Option (List α) :=
  if i < array.length then some (array.set i a) else none

/-- `krealloc` to `n` elements. -/
def krealloc {α : Type} (array : List (Option α)) (n : Nat) : List (Option α) :=
  array.take n ++ List.replicate (n - array.length) none

variable {κ ν β : Type}

/-- `kh_init_##name` -/
def khInit : Kh κ ν :=
  { nBuckets := 0, size := 0, nOccupied := 0, upperBound := 0, flags := [], keys := [], vals := [] }

/-- `kh_clear_##name` -/
def khClear (h : Kh κ ν) : Kh κ ν :=
  if h.flags = [] then h
  else { h with flags := freshFlags h.nBuckets, size := 0, nOccupied := 0 }

/-- `i = (i + (++step)) & mask`, with the value of `step` before it. -/
def nextBucket (mask i step : Nat) : Nat := khint (i + (step + 1)) &&& mask

-- `__hash_func`, and what `__hash_equal` compares
variable (hash : κ → UInt32) (content : κ → β) [DecidableEq β]

/-- `!__ac_isempty(flags, i) && (__ac_isdel(flags, i) || !__hash_equal(keys[i], key))` -/
def passes (h : Kh κ ν) (key : κ) (i : Nat) : Option Bool := do
  if ← acIsempty h.flags i then some false
  else if ← acIsdel h.flags i then some true
  else
    let k ← h.keys[i]?.join
    some (content k ≠ content key)

/-- The loop of `kh_get_##name`. -/
def khGetLoop (h : Kh κ ν) (key : κ) (mask last : Nat) : Nat → Nat → Nat → Option Nat
  | 0, _, _ => none
  | fuel + 1, i, step => do
      if ← passes content h key i then
        let i := nextBucket mask i step
        if i = last then some h.nBuckets else khGetLoop h key mask last fuel i (step + 1)
      else if ← acIseither h.flags i then some h.nBuckets
      else some i

/-- `kh_get_##name` -/
def khGet (h : Kh κ ν) (key : κ) : Option Nat :=
  if h.nBuckets ≠ 0 then
    let mask := h.nBuckets - 1
    let i := (hash key).toNat &&& mask
    khGetLoop content h key mask i (2 * h.nBuckets) i 0
  else some 0

/-- What `kh_resize_##name` works on. -/
structure Rehash (κ ν : Type) where
  flags : List UInt32
  newFlags : List UInt32
  keys : List (Option κ)
  vals : List (Option ν)

/-- `while (!__ac_isempty(new_flags, i)) i = (i + (++step)) & new_mask;` -/
def emptyBucket (newFlags : List UInt32) (newMask : Nat) : Nat → Nat → Nat → Option Nat
  | 0, _, _ => none
  | fuel + 1, i, step => do
      if ← acIsempty newFlags i then some i
      else emptyBucket newFlags newMask fuel (nextBucket newMask i step) (step + 1)

/-- The kick-out process. -/
def kickOut (nBuckets newMask : Nat) : Nat → Rehash κ ν → κ → Option ν → Option (Rehash κ ν)
  | 0, _, _, _ => none
  | fuel + 1, r, key, val => do
      let i ← emptyBucket r.newFlags newMask (2 * (newMask + 1)) ((hash key).toNat &&& newMask) 0
      let newFlags ← acSetIsemptyFalse r.newFlags i
      let keys ← assign r.keys i (some key)
      let vals ← assign r.vals i val
      -- the table before may have fewer flags
      let kicks ← if i < nBuckets then (acIseither r.flags i).map fun either => !either
        else some false
      if kicks then
        let key' ← r.keys[i]?.join
        let val' ← r.vals[i]?
        let flags ← acSetIsdelTrue r.flags i
        kickOut nBuckets newMask fuel { flags, newFlags, keys, vals } key' val'
      else some { r with newFlags, keys, vals }

/-- The loop of `kh_resize_##name` from the bucket `j` on. -/
def rehash (nBuckets newMask : Nat) : Nat → Nat → Rehash κ ν → Option (Rehash κ ν)
  | 0, _, r => some r
  | left + 1, j, r => do
      let r ← if ← acIseither r.flags j then some r
        else do
          let key ← r.keys[j]?.join
          let val ← r.vals[j]?
          let flags ← acSetIsdelTrue r.flags j
          kickOut hash nBuckets newMask (nBuckets + 1) { r with flags } key val
      rehash nBuckets newMask left (j + 1) r

/-- `kh_resize_##name` -/
def khResize (h : Kh κ ν) (newNBuckets : Nat) : Option (Kh κ ν) := do
  let newNBuckets := kroundup32 newNBuckets
  let newNBuckets := if newNBuckets < 4 then 4 else newNBuckets
  if h.size ≥ upperOf newNBuckets then some h
  else
    let expand := h.nBuckets < newNBuckets
    let r ← rehash hash h.nBuckets (newNBuckets - 1) h.nBuckets 0
      { flags := h.flags
        newFlags := freshFlags newNBuckets
        keys := if expand then krealloc h.keys newNBuckets else h.keys
        vals := if expand then krealloc h.vals newNBuckets else h.vals }
    let shrink := newNBuckets < h.nBuckets
    some
      { nBuckets := newNBuckets
        size := h.size
        nOccupied := h.size
        upperBound := upperOf newNBuckets
        flags := r.newFlags
        keys := if shrink then krealloc r.keys newNBuckets else r.keys
        vals := if shrink then krealloc r.vals newNBuckets else r.vals }

/-- The loop of `kh_put_##name` and the choice of the bucket after it. -/
def khPutLoop (h : Kh κ ν) (key : κ) (mask last : Nat) : Nat → Nat → Nat → Nat → Option Nat
  | 0, _, _, _ => none
  | fuel + 1, i, step, site => do
      if ← passes content h key i then
        let site := if ← acIsdel h.flags i then i else site
        let i := nextBucket mask i step
        if i = last then some (if site = h.nBuckets then i else site)
        else khPutLoop h key mask last fuel i (step + 1) site
      else some (if (← acIsempty h.flags i) && site ≠ h.nBuckets then site else i)

/-- `kh_put_##name` first makes room: it clears the deleted buckets, or it expands the table. -/
def khRoom (h : Kh κ ν) : Option (Kh κ ν) :=
  if h.nOccupied ≥ h.upperBound then
    if h.nBuckets > khint (h.size <<< 1) then khResize hash h (h.nBuckets - 1)
    else khResize hash h (h.nBuckets + 1)
  else some h

/-- The bucket `x` that `kh_put_##name` chooses. -/
def khPutBucket (h : Kh κ ν) (key : κ) : Option Nat := do
  let mask := h.nBuckets - 1
  let i := (hash key).toNat &&& mask
  if ← acIsempty h.flags i then some i
  else khPutLoop content h key mask i (2 * h.nBuckets) i 0 h.nBuckets

/-- The rest of `kh_put_##name`, with the table, the bucket and `*ret`. -/
def khPutKey (h : Kh κ ν) (x : Nat) (key : κ) : Option (Kh κ ν × Nat × Nat) := do
  if ← acIsempty h.flags x then
    let keys ← assign h.keys x (some key)
    let flags ← acSetIsbothFalse h.flags x
    some ({ h with keys, flags, size := h.size + 1, nOccupied := h.nOccupied + 1 }, x, 1)
  else if ← acIsdel h.flags x then
    let keys ← assign h.keys x (some key)
    let flags ← acSetIsbothFalse h.flags x
    some ({ h with keys, flags, size := h.size + 1 }, x, 2)
  else some (h, x, 0)

/-- `kh_put_##name` -/
def khPut (h : Kh κ ν) (key : κ) : Option (Kh κ ν × Nat × Nat) := do
  let h ← khRoom hash h
  let x ← khPutBucket hash content h key
  khPutKey h x key

/-- `kh_val(h, x) = value` -/
def khAssignVal (h : Kh κ ν) (x : Nat) (value : ν) : Option (Kh κ ν) := do
  let vals ← assign h.vals x (some value)
  some { h with vals }

/-- `kh_put` and the assignment of the value to the bucket, as all callers do it. -/
def khStore (h : Kh κ ν) (key : κ) (value : ν) : Option (Kh κ ν) := do
  let put ← khPut hash content h key
  khAssignVal put.1 put.2.1 value

/-- `kh_get` and, unless it is `kh_end`, the value of the bucket. -/
def khFind (h : Kh κ ν) (key : κ) : Option (Option ν) := do
  let x ← khGet hash content h key
  if x = h.nBuckets then some none
  else
    let value ← h.vals[x]?.join
    some (some value)

/-- `kh_del_##name` -/
def khDel (h : Kh κ ν) (x : Nat) : Option (Kh κ ν) := do
  if x = h.nBuckets then some h
  else if ← acIseither h.flags x then some h
  else
    let flags ← acSetIsdelTrue h.flags x
    some { h with flags, size := h.size - 1 }

/-- `kh_get` and `kh_del` of the bucket. -/
def khRemove (h : Kh κ ν) (key : κ) : Option (Kh κ ν) := do
  let x ← khGet hash content h key
  khDel h x

/-- `kh_foreach`: the entries in the order of the buckets, from the bucket `i` on. -/
def khForeach (h : Kh κ ν) : Nat → Nat → Option (List (κ × ν))
  | 0, _ => some []
  | left + 1, i => do
      let rest ← khForeach h left (i + 1)
      if ← acIseither h.flags i then some rest
      else
        let key ← h.keys[i]?.join
        let val ← h.vals[i]?.join
        some ((key, val) :: rest)

/-- The entries of the table. -/
def khEntries (h : Kh κ ν) : Option (List (κ × ν)) := khForeach h h.nBuckets 0

end Khash
end Pone
