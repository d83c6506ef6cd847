import Pone.Khash.Probe

/-!
# Rehashing in place

`kh_resize` moves the entries to new flags within the same arrays.  An entry that stands where another
one is put is kicked out and put next.  All entries arrive, none of them twice.
-/

namespace Pone
namespace Khash

open OpenAddressing

variable {κ ν β : Type}

section Assign

theorem assign_eq {α : Type} {array : List α} {i : Nat} (within : i < array.length) (a : α) :
    assign array i a = some (array.set i a) := if_pos within

/-- A bucket is written with its flag. -/
theorem slots_set {flags flags' : List UInt32} {keys : List (Option κ)} {vals : List (Option ν)}
    {i : Nat} {f : Flag} (flagged : ∀ j, flagAt flags' j = if j = i then some f else flagAt flags j)
    (within : i < keys.length) (within' : i < vals.length) (key : κ) (val : Option ν) :
    slots flags' (keys.set i (some key)) (vals.set i val) =
      Function.update (slots flags keys vals) i (slotOf f (some key) val) := by
  funext j
  rw [slots, flagged]
  by_cases here : j = i
  · subst here
    simp [within, within']
  · rw [if_neg here, Function.update_of_ne here, List.getElem?_set_ne (Ne.symm here),
      List.getElem?_set_ne (Ne.symm here)]
    rfl

/-- The flag of a bucket is changed. -/
theorem slots_flag {flags flags' : List UInt32} (keys : List (Option κ)) (vals : List (Option ν))
    {i : Nat} {f : Flag} (flagged : ∀ j, flagAt flags' j = if j = i then some f else flagAt flags j) :
    slots flags' keys vals =
      Function.update (slots flags keys vals) i (slotOf f keys[i]?.join vals[i]?.join) := by
  funext j
  rw [slots, flagged]
  by_cases here : j = i
  · subst here
    simp
  · rw [if_neg here, Function.update_of_ne here]
    rfl

/-- The value of an entry is assigned. -/
theorem slots_val {flags : List UInt32} {keys : List (Option κ)} {vals : List (Option ν)} {i : Nat}
    {key : κ} (flag : flagAt flags i = some ⟨false, false⟩) (read : keys[i]? = some (some key))
    (within : i < vals.length) (val : Option ν) :
    slots flags keys (vals.set i val) = Function.update (slots flags keys vals) i (.full (key, val)) := by
  funext j
  by_cases here : j = i
  · subst here
    rw [slots, flag, read, Function.update_self, List.getElem?_set_self within]
    rfl
  · rw [Function.update_of_ne here, slots, List.getElem?_set_ne (Ne.symm here)]
    rfl

/-- What is written to a bucket without an entry does not appear. -/
theorem slots_set_vacant {flags : List UInt32} {keys : List (Option κ)} {bits i j : Nat}
    (filled : Filled bits flags keys) (vals : List (Option ν)) (slot : j < 2 ^ bits)
    (vacant : j = i → ∀ e, slots flags keys vals j ≠ .full e) (key : Option κ) (val : Option ν) :
    slots flags (keys.set i key) (vals.set i val) j = slots flags keys vals j := by
  by_cases here : j = i
  · subst here
    rcases filled.bucket slot vals with ⟨⟨d, flag⟩, -⟩ | ⟨flag, -⟩ | ⟨k, -, -, is⟩
    · simp [slots, flag, slotOf]
    · simp [slots, flag, slotOf]
    · exact absurd is (vacant rfl _)
  · rw [slots, List.getElem?_set_ne (Ne.symm here), List.getElem?_set_ne (Ne.symm here)]
    rfl

end Assign

/-- The state of a rehash: the entry that is held is to be put next. -/
structure Rehashing (content : κ → β) (start : β → Nat) (newBits oldBits : Nat)
    (original : κ × Option ν → Prop) (size : Nat) (r : Rehash κ ν) (held : Option (κ × Option ν)) :
    Prop where
  new : Filled newBits r.newFlags r.keys
  old : Filled oldBits r.flags r.keys
  keys : r.keys.length = max (2 ^ newBits) (2 ^ oldBits)
  vals : r.vals.length = max (2 ^ newBits) (2 ^ oldBits)
  clean : ∀ i < 2 ^ newBits, ∃ e, flagAt r.newFlags i = some ⟨e, false⟩
  apart : ∀ i < 2 ^ newBits, i < 2 ^ oldBits → slots r.newFlags r.keys r.vals i ≠ .empty →
    ∀ e, slots r.flags r.keys r.vals i ≠ .full e
  moving : Moving newBits oldBits start (entryKey content) original size
    (slots r.newFlags r.keys r.vals) (slots r.flags r.keys r.vals) held

section Rehash

variable {hash : κ → UInt32} {content : κ → β} {start : β → Nat}
  {newBits oldBits size : Nat} {original : κ × Option ν → Prop} {r : Rehash κ ν} {key : κ}
  {val : Option ν}

theorem Filled.set {bits i : Nat} {flags flags' : List UInt32} {keys : List (Option κ)}
    (filled : Filled bits flags keys) (length : flags'.length = flags.length)
    (keeps : ∀ j, j ≠ i → flagAt flags' j = flagAt flags j) (within : i < keys.length) (key : κ) :
    Filled bits flags' (keys.set i (some key)) where
  words := length.trans filled.words
  live j slot f there live := by
    by_cases here : j = i
    · subst here
      exact ⟨key, by simp [within]⟩
    · rw [keeps j here] at there
      rw [List.getElem?_set_ne (Ne.symm here)]
      exact filled.live j slot f there live

/-- A flag that says that there is no entry needs no key. -/
theorem Filled.flag {bits i : Nat} {flags flags' : List UInt32} {keys : List (Option κ)}
    (filled : Filled bits flags keys) (length : flags'.length = flags.length) {f : Flag}
    (flagged : ∀ j, flagAt flags' j = if j = i then some f else flagAt flags j) (dead : ¬ f.Live) :
    Filled bits flags' keys where
  words := length.trans filled.words
  live j slot f' there live := by
    rw [flagged] at there
    split at there
    · cases there
      exact absurd live dead
    · exact filled.live j slot f' there live

namespace Rehashing

/-- The bucket that the entry is put into. -/
structure Put (newBits : Nat) (r : Rehash κ ν) (i : Nat) (newFlags : List UInt32) : Prop where
  slot : i < 2 ^ newBits
  length : newFlags.length = r.newFlags.length
  flagged : ∀ j, flagAt newFlags j = if j = i then some ⟨false, false⟩ else flagAt r.newFlags j

variable {i stop : Nat} {newFlags : List UInt32}

theorem within (rehashing : Rehashing content start newBits oldBits original size r held)
    (slot : i < 2 ^ newBits) : i < r.keys.length ∧ i < r.vals.length := by
  have := rehashing.keys
  have := rehashing.vals
  omega

theorem slots_put (rehashing : Rehashing content start newBits oldBits original size r held)
    (put : Put newBits r i newFlags) (key : κ) (val : Option ν) :
    slots newFlags (r.keys.set i (some key)) (r.vals.set i val) =
      Function.update (slots r.newFlags r.keys r.vals) i (.full (key, val)) :=
  slots_set put.flagged (rehashing.within put.slot).1 (rehashing.within put.slot).2 key val

theorem filled_put (rehashing : Rehashing content start newBits oldBits original size r held)
    (put : Put newBits r i newFlags) (key : κ) :
    Filled newBits newFlags (r.keys.set i (some key)) :=
  rehashing.new.set put.length (fun j here => by rw [put.flagged, if_neg here])
    (rehashing.within put.slot).1 key

theorem clean_put (rehashing : Rehashing content start newBits oldBits original size r held)
    (put : Put newBits r i newFlags) : ∀ j < 2 ^ newBits, ∃ e, flagAt newFlags j = some ⟨e, false⟩ := by
  intro j slot
  rw [put.flagged]
  split
  · exact ⟨false, rfl⟩
  · exact rehashing.clean j slot

/-- The entry is put into a bucket that holds no entry of the old table. -/
theorem place
    (rehashing : Rehashing content start newBits oldBits original size r (some (key, val)))
    (put : Put newBits r (probe newBits (start (content key)) stop) newFlags)
    (used : ∀ before < stop,
      slots r.newFlags r.keys r.vals (probe newBits (start (content key)) before) ≠ .empty)
    (empty : slots r.newFlags r.keys r.vals (probe newBits (start (content key)) stop) = .empty)
    (vacant : probe newBits (start (content key)) stop < 2 ^ oldBits →
      ∀ e, slots r.flags r.keys r.vals (probe newBits (start (content key)) stop) ≠ .full e) :
    Rehashing content start newBits oldBits original size
      { r with
        newFlags
        keys := r.keys.set (probe newBits (start (content key)) stop) (some key)
        vals := r.vals.set (probe newBits (start (content key)) stop) val } none := by
  have same (j : Nat) (slot : j < 2 ^ oldBits) :=
    slots_set_vacant rehashing.old r.vals slot (i := probe newBits (start (content key)) stop)
      (fun here => here ▸ vacant (here ▸ slot)) (some key) val
  refine ⟨rehashing.filled_put put key,
    rehashing.old.set rfl (fun _ _ => rfl) (rehashing.within put.slot).1 key,
    by simpa using rehashing.keys, by simpa using rehashing.vals, rehashing.clean_put put,
    fun j slot slot' nonempty => ?_, ?_⟩
  · rw [same j slot']
    by_cases here : j = probe newBits (start (content key)) stop
    · rw [here]
      exact vacant (here ▸ slot')
    · rw [rehashing.slots_put put, Function.update_of_ne here] at nonempty
      exact rehashing.apart j slot slot' nonempty
  · rw [rehashing.slots_put put]
    exact (rehashing.moving.place used empty).congr_old same

/-- An entry of the old table is kicked out. -/
theorem kick {key' : κ} {val' : Option ν} {flags : List UInt32}
    (rehashing : Rehashing content start newBits oldBits original size r (some (key, val)))
    (put : Put newBits r (probe newBits (start (content key)) stop) newFlags)
    (used : ∀ before < stop,
      slots r.newFlags r.keys r.vals (probe newBits (start (content key)) before) ≠ .empty)
    (empty : slots r.newFlags r.keys r.vals (probe newBits (start (content key)) stop) = .empty)
    (slot : probe newBits (start (content key)) stop < 2 ^ oldBits)
    (full : slots r.flags r.keys r.vals (probe newBits (start (content key)) stop) =
      .full (key', val'))
    (length : flags.length = r.flags.length)
    (flagged : ∀ j, flagAt flags j = if j = probe newBits (start (content key)) stop then
      some ⟨false, true⟩ else flagAt r.flags j) :
    Rehashing content start newBits oldBits original size
      { flags
        newFlags
        keys := r.keys.set (probe newBits (start (content key)) stop) (some key)
        vals := r.vals.set (probe newBits (start (content key)) stop) val } (some (key', val')) ∧
    slots flags (r.keys.set (probe newBits (start (content key)) stop) (some key))
        (r.vals.set (probe newBits (start (content key)) stop) val) =
      Function.update (slots r.flags r.keys r.vals) (probe newBits (start (content key)) stop)
        .deleted := by
  have within := rehashing.within put.slot
  have deleted := slots_set (f := ⟨false, true⟩) flagged within.1 within.2 key val
  refine ⟨⟨rehashing.filled_put put key,
    rehashing.old.set length (fun j here => by rw [flagged, if_neg here]) within.1 key,
    by simpa using rehashing.keys, by simpa using rehashing.vals, rehashing.clean_put put,
    fun j slot slot' nonempty => ?_, ?_⟩, deleted⟩
  · rw [deleted]
    by_cases here : j = probe newBits (start (content key)) stop
    · rw [here, Function.update_self]
      exact fun e => by simp [slotOf]
    · rw [rehashing.slots_put put, Function.update_of_ne here] at nonempty
      rw [Function.update_of_ne here]
      exact rehashing.apart j slot slot' nonempty
  · rw [rehashing.slots_put put, deleted]
    exact rehashing.moving.kick used empty slot full

end Rehashing

theorem kickOut_spec (hashes : ∀ k, (hash k).toNat = start (content k)) (high : newBits ≤ 31)
    (room : size ≤ 2 ^ newBits) {fuel : Nat}
    (rehashing : Rehashing content start newBits oldBits original size r (some (key, val)))
    (enough : count (fun i => (slots r.flags r.keys r.vals i).isFull = true) (2 ^ oldBits) < fuel) :
    ∃ r', kickOut hash (2 ^ oldBits) (2 ^ newBits - 1) fuel r key val = some r' ∧
      Rehashing content start newBits oldBits original size r' none ∧
      ∀ i < 2 ^ oldBits, (slots r'.flags r'.keys r'.vals i).isFull = true →
        (slots r.flags r.keys r.vals i).isFull = true := by
  induction fuel generalizing r key val with
  | zero => omega
  | succ fuel ih =>
      obtain ⟨stop, bound, used, empty⟩ := rehashing.moving.exists_empty room
      have first : (hash key).toNat &&& (2 ^ newBits - 1) =
          probe newBits (start (content key)) 0 := by
        rw [mask_eq, probe_zero, hashes]
      have found := emptyBucket_spec high rehashing.new r.vals used empty (Nat.zero_le stop)
        (show stop - 0 < 2 * (2 ^ newBits - 1 + 1) by omega)
      have slot : probe newBits (start (content key)) stop < 2 ^ newBits := probe_lt ..
      have within := rehashing.within slot
      obtain ⟨e, flag⟩ := rehashing.clean _ slot
      obtain ⟨newFlags, set, length, flagged⟩ := acSetIsemptyFalse_spec flag
      have put : Rehashing.Put newBits r _ newFlags := ⟨slot, length, flagged⟩
      -- what comes before the test
      rw [kickOut]
      simp only [first, entryKey] at found ⊢
      simp only [found, set, assign_eq within.1, assign_eq within.2, Option.bind_eq_bind,
        Option.bind_some]
      have placed (vacant : probe newBits (start (content key)) stop < 2 ^ oldBits →
          ∀ e, slots r.flags r.keys r.vals (probe newBits (start (content key)) stop) ≠ .full e) :=
        rehashing.place put used empty vacant
      have same (vacant : probe newBits (start (content key)) stop < 2 ^ oldBits →
          ∀ e, slots r.flags r.keys r.vals (probe newBits (start (content key)) stop) ≠ .full e)
          (j : Nat) (slot : j < 2 ^ oldBits) :=
        slots_set_vacant rehashing.old r.vals slot (i := probe newBits (start (content key)) stop)
          (fun here => here ▸ vacant (here ▸ slot)) (some key) val
      by_cases inside : probe newBits (start (content key)) stop < 2 ^ oldBits
      · rcases rehashing.old.bucket inside r.vals with
          ⟨⟨d, flag⟩, is⟩ | ⟨flag, is⟩ | ⟨key', flag, read, is⟩
        · have vacant : ∀ e, slots r.flags r.keys r.vals
              (probe newBits (start (content key)) stop) ≠ .full e := fun e => by simp [is]
          refine ⟨_, by simp [inside, acIseither_eq, flag], placed fun _ => vacant,
            fun j slot full => ?_⟩
          rwa [same (fun _ => vacant) j slot] at full
        · have vacant : ∀ e, slots r.flags r.keys r.vals
              (probe newBits (start (content key)) stop) ≠ .full e := fun e => by simp [is]
          refine ⟨_, by simp [inside, acIseither_eq, flag], placed fun _ => vacant,
            fun j slot full => ?_⟩
          rwa [same (fun _ => vacant) j slot] at full
        · obtain ⟨flags, set', length', flagged'⟩ := acSetIsdelTrue_spec flag
          obtain ⟨kicked, deleted⟩ := rehashing.kick put used empty inside is length' flagged'
          have fewer := Moving.count_deleted inside is
          obtain ⟨r', rest, done, less⟩ := ih kicked (by rw [deleted]; omega)
          refine ⟨r', ?_, done, fun j slot full => ?_⟩
          · have read' : r.vals[probe newBits (start (content key)) stop]? =
                some r.vals[probe newBits (start (content key)) stop]?.join := by
              rw [List.getElem?_eq_getElem within.2]
              rfl
            simp only [inside, if_true, acIseither_eq, flag, Option.map_some, Option.bind_some, read,
              Option.join_some, set', Bool.or_false, Bool.not_false]
            rw [read']
            exact rest
          · have full' := less j slot full
            rw [deleted] at full'
            by_cases here : j = probe newBits (start (content key)) stop
            · rw [here, Function.update_self] at full'
              cases full'
            · rwa [Function.update_of_ne here] at full'
      · refine ⟨_, by simp [inside], placed fun less => absurd less inside, fun j slot full => ?_⟩
        rwa [same (fun less => absurd less inside) j slot] at full

/-- The entry of a bucket is taken out of the old table. -/
theorem Rehashing.lift {j : Nat} {flags : List UInt32}
    (rehashing : Rehashing content start newBits oldBits original size r none)
    (slot : j < 2 ^ oldBits) (full : slots r.flags r.keys r.vals j = .full (key, val))
    (length : flags.length = r.flags.length)
    (flagged : ∀ i, flagAt flags i = if i = j then some ⟨false, true⟩ else flagAt r.flags i) :
    Rehashing content start newBits oldBits original size { r with flags } (some (key, val)) ∧
      slots flags r.keys r.vals = Function.update (slots r.flags r.keys r.vals) j .deleted := by
  have deleted := slots_flag r.keys r.vals flagged
  rw [show slotOf ⟨false, true⟩ r.keys[j]?.join r.vals[j]?.join = Slot.deleted from rfl] at deleted
  refine ⟨⟨rehashing.new, rehashing.old.flag length flagged (by decide), rehashing.keys,
    rehashing.vals, rehashing.clean, fun i slot slot' nonempty => ?_, ?_⟩, deleted⟩
  · rw [deleted, Function.update_apply]
    split
    · exact fun e => by simp
    · exact rehashing.apart i slot slot' nonempty
  · rw [deleted]
    exact rehashing.moving.lift slot full

/-- The loop of `kh_resize` leaves no entry in the old table. -/
theorem rehash_spec (hashes : ∀ k, (hash k).toNat = start (content k)) (high : newBits ≤ 31)
    (room : size ≤ 2 ^ newBits) {left j : Nat} (all : j + left = 2 ^ oldBits)
    (rehashing : Rehashing content start newBits oldBits original size r none)
    (moved : ∀ i < j, (slots r.flags r.keys r.vals i).isFull = false) :
    ∃ r', rehash hash (2 ^ oldBits) (2 ^ newBits - 1) left j r = some r' ∧
      Rehashing content start newBits oldBits original size r' none ∧
      ∀ i < 2 ^ oldBits, (slots r'.flags r'.keys r'.vals i).isFull = false := by
  induction left generalizing j r with
  | zero => exact ⟨r, rfl, rehashing, fun i slot => moved i (by omega)⟩
  | succ left ih =>
      have slot : j < 2 ^ oldBits := by omega
      have skip (here : (slots r.flags r.keys r.vals j).isFull = false) :
          ∀ i < j + 1, (slots r.flags r.keys r.vals i).isFull = false := by
        intro i less
        rcases Nat.lt_succ_iff_lt_or_eq.mp less with less | rfl
        · exact moved i less
        · exact here
      rw [rehash, acIseither_eq]
      rcases rehashing.old.bucket slot r.vals with ⟨⟨d, flag⟩, is⟩ | ⟨flag, is⟩ | ⟨key, flag, read, is⟩
      · obtain ⟨r', rest, done⟩ := ih (j := j + 1) (by omega) rehashing (skip (by rw [is]; rfl))
        exact ⟨r', by simpa [flag] using rest, done⟩
      · obtain ⟨r', rest, done⟩ := ih (j := j + 1) (by omega) rehashing (skip (by rw [is]; rfl))
        exact ⟨r', by simpa [flag] using rest, done⟩
      · obtain ⟨flags, set, length, flagged⟩ := acSetIsdelTrue_spec flag
        obtain ⟨lifted, deleted⟩ := rehashing.lift slot is length flagged
        obtain ⟨r₁, kicked, rehashing₁, less₁⟩ := kickOut_spec hashes high room lifted
          (Nat.lt_succ_of_le (count_le _ _))
        have moved₁ : ∀ i < j + 1, (slots r₁.flags r₁.keys r₁.vals i).isFull = false := by
          intro i less
          by_contra full
          have full' := less₁ i (by omega) (by simpa using full)
          rw [deleted, Function.update_apply] at full'
          split at full'
          · cases full'
          · next here =>
              rw [moved i (by omega)] at full'
              cases full'
        obtain ⟨r', rest, done⟩ := ih (j := j + 1) (by omega) rehashing₁ moved₁
        have read' : r.vals[j]? = some r.vals[j]?.join := by
          have := rehashing.vals
          rw [List.getElem?_eq_getElem (by omega : j < r.vals.length)]
          rfl
        refine ⟨r', ?_, done⟩
        simp only [flag, Option.map_some, Option.bind_eq_bind, Option.bind_some, Bool.or_false,
          Bool.false_eq_true, if_false, read, Option.join_some, set]
        rw [read', Option.bind_some, kicked, Option.bind_some]
        exact rest

end Rehash

/-! ## Tables that keep their invariant -/

/-- The invariant of a table with `2 ^ bits` buckets. -/
structure Good (content : κ → β) (start : β → Nat) (h : Kh κ ν) (bits : Nat) : Prop
    extends Shape h bits where
  upper : h.upperBound = upperOf (2 ^ bits)
  size : h.size = count (fun i => (h.slots i).isFull = true) (2 ^ bits)
  occupied : h.nOccupied = count (fun i => (h.slots i).isEmpty = false) (2 ^ bits)
  room : h.nOccupied ≤ h.upperBound
  sound : Sound bits start (entryKey content) h.slots

section Resize

variable {hash : κ → UInt32} {content : κ → β} {start : β → Nat} {h : Kh κ ν} {bits newBits : Nat}
  {original : κ × Option ν → Prop}

theorem length_krealloc {α : Type} (array : List (Option α)) (n : Nat) :
    (krealloc array n).length = n := by
  rw [krealloc, List.length_append, List.length_take, List.length_replicate]
  omega

theorem getElem?_krealloc {α : Type} (array : List (Option α)) {n i : Nat} (less : i < n)
    (within : i < array.length) : (krealloc array n)[i]? = array[i]? := by
  rw [krealloc, List.getElem?_append_left (by rw [List.length_take]; omega), List.getElem?_take,
    if_pos less]

theorem slots_congr (flags : List UInt32) {keys keys' : List (Option κ)}
    {vals vals' : List (Option ν)} {i : Nat} (same : keys'[i]? = keys[i]?) (same' : vals'[i]? = vals[i]?) :
    slots flags keys' vals' i = slots flags keys vals i := by
  rw [slots, slots, same, same']

theorem filled_fresh (bits : Nat) (keys : List (Option κ)) :
    Filled bits (freshFlags (2 ^ bits)) keys where
  words := List.length_replicate
  live i slot f there live := by
    rw [flagAt_freshFlags slot] at there
    cases there
    cases live.1

theorem slots_fresh {i : Nat} (keys : List (Option κ)) (vals : List (Option ν)) (slot : i < 2 ^ bits) :
    slots (freshFlags (2 ^ bits)) keys vals i = .empty := by
  rw [slots, flagAt_freshFlags slot]
  rfl

/-- The new table after the last entry has been moved. -/
theorem Rehashing.good {oldBits size : Nat} {r : Rehash κ ν} {keys : List (Option κ)}
    {vals : List (Option ν)} (low : 2 ≤ newBits) (high : newBits ≤ 31)
    (room : size < upperOf (2 ^ newBits))
    (rehashing : Rehashing content start newBits oldBits original size r none)
    (moved : ∀ i < 2 ^ oldBits, (slots r.flags r.keys r.vals i).isFull = false)
    (keys_eq : ∀ i < 2 ^ newBits, keys[i]? = r.keys[i]?) (keys_length : keys.length = 2 ^ newBits)
    (vals_eq : ∀ i < 2 ^ newBits, vals[i]? = r.vals[i]?) (vals_length : vals.length = 2 ^ newBits) :
    Good content start
      { nBuckets := 2 ^ newBits, size, nOccupied := size, upperBound := upperOf (2 ^ newBits),
        flags := r.newFlags, keys, vals } newBits ∧
    ∀ e, Has newBits (slots r.newFlags keys vals) e ↔ original e := by
  have same (i : Nat) (slot : i < 2 ^ newBits) :
      slots r.newFlags keys vals i = slots r.newFlags r.keys r.vals i :=
    slots_congr _ (keys_eq i slot) (vals_eq i slot)
  have has (e : κ × Option ν) : Has newBits (slots r.newFlags keys vals) e ↔
      Has newBits (slots r.newFlags r.keys r.vals) e := by
    constructor
    · rintro ⟨i, slot, full⟩
      exact ⟨i, slot, (same i slot).symm.trans full⟩
    · rintro ⟨i, slot, full⟩
      exact ⟨i, slot, (same i slot).trans full⟩
  have nothing (e : κ × Option ν) : ¬ Has oldBits (slots r.flags r.keys r.vals) e := by
    rintro ⟨i, slot, full⟩
    have gone := moved i slot
    rw [full] at gone
    cases gone
  have none_left : count (fun i => (slots r.flags r.keys r.vals i).isFull = true) (2 ^ oldBits) = 0 :=
    count_eq_zero fun i slot => by simp [moved i slot]
  have counted := rehashing.moving.counted
  rw [none_left, Option.toList_none, List.length_nil, Nat.add_zero] at counted
  have full_iff (i : Nat) (slot : i < 2 ^ newBits) :
      (slots r.newFlags keys vals i).isFull = true ↔
        (slots r.newFlags r.keys r.vals i).isFull = true := by rw [same i slot]
  have used_iff (i : Nat) (slot : i < 2 ^ newBits) :
      (slots r.newFlags keys vals i).isEmpty = false ↔
        (slots r.newFlags r.keys r.vals i).isFull = true := by
    rw [same i slot]
    cases is : slots r.newFlags r.keys r.vals i with
    | empty | full => simp [Slot.isEmpty, Slot.isFull]
    | deleted => exact absurd is (rehashing.moving.solid i slot)
  refine ⟨{
    nBuckets := rfl, low, high
    filled := ⟨rehashing.new.words, fun i slot f there live => ?_⟩
    keys := keys_length, vals := vals_length, upper := rfl
    size := ?_, occupied := ?_, room := room.le
    sound := ⟨fun i slot e full => ?_, fun i slot j slot' e e' full full' => ?_⟩ }, fun e => ?_⟩
  · rw [keys_eq i slot]
    exact rehashing.new.live i slot f there live
  · exact counted.symm.trans (count_congr full_iff).symm
  · exact counted.symm.trans (count_congr used_iff).symm
  · rw [Kh.slots, same i slot] at full
    obtain ⟨step, met, used⟩ := rehashing.moving.sound.met i slot e full
    refine ⟨step, met, fun before less => ?_⟩
    rw [Kh.slots, same _ (probe_lt ..)]
    exact used before less
  · rw [Kh.slots, same i slot] at full
    rw [Kh.slots, same j slot'] at full'
    exact rehashing.moving.sound.distinct i slot j slot' e e' full full'
  · rw [has, ← rehashing.moving.entries e]
    simp [nothing e]

variable (content start) in
/-- A table without entries and deleted buckets. -/
theorem good_fresh (h : Kh κ ν) (low : 2 ≤ bits) (high : bits ≤ 31) (nBuckets : h.nBuckets = 2 ^ bits)
    (upper : h.upperBound = upperOf (2 ^ bits)) (size : h.size = 0) (occupied : h.nOccupied = 0)
    (flags : h.flags = freshFlags (2 ^ bits)) (keys : h.keys.length = 2 ^ bits)
    (vals : h.vals.length = 2 ^ bits) :
    Good content start h bits ∧ ∀ e, ¬ Has bits h.slots e := by
  have empty (i : Nat) (slot : i < 2 ^ bits) : h.slots i = .empty := by
    rw [Kh.slots, flags, slots_fresh _ _ slot]
  refine ⟨{
    nBuckets, low, high, keys, vals, upper
    filled := flags ▸ filled_fresh bits h.keys
    size := ?_, occupied := ?_
    room := occupied.le.trans (Nat.zero_le _)
    sound := sound_of_empty empty }, ?_⟩
  · rw [size, count_eq_zero fun i slot => by simp [empty i slot, Slot.isFull]]
  · rw [occupied, count_eq_zero fun i slot => by simp [empty i slot, Slot.isEmpty]]
  · rintro e ⟨i, slot, full⟩
    rw [empty i slot] at full
    cases full

/-- The number of buckets that `kh_resize` makes of the number it is asked for: 4 where `kroundup32`
gives 0. -/
theorem roundedBuckets (m : Nat) :
    ∃ bits, 2 ≤ bits ∧ bits ≤ 31 ∧ (if kroundup32 m < 4 then 4 else kroundup32 m) = 2 ^ bits ∧
      (1 ≤ m → m ≤ 2 ^ 31 → m ≤ 2 ^ bits ∧ (bits = 2 ∨ 2 ^ (bits - 1) < m)) := by
  rcases kroundup32_spec m with ⟨rounded, outside⟩ | ⟨bits, bound, rounded, near⟩
  · exact ⟨2, le_rfl, by decide, by rw [rounded]; rfl, fun low high => absurd ⟨low, high⟩ outside⟩
  · by_cases few : bits < 2
    · have small : 2 ^ bits < 4 := Nat.pow_lt_pow_right (by decide) few
      refine ⟨2, le_rfl, by decide, by rw [rounded, if_pos small]; rfl, fun low high => ?_⟩
      exact ⟨by have := (near low high).1; omega, .inl rfl⟩
    · have large : 2 ^ 2 ≤ 2 ^ bits := Nat.pow_le_pow_right two_pos (by omega)
      exact ⟨bits, by omega, bound, by rw [rounded, if_neg (by omega)], fun low high =>
        (near low high).imp_right fun least => least.imp_left fun zero => by omega⟩

/-- What `kh_resize` works on at first. -/
theorem Good.rehashing (good : Good content start h bits) (newBits : Nat) :
    Rehashing content start newBits bits (Has bits h.slots) h.size
      { flags := h.flags
        newFlags := freshFlags (2 ^ newBits)
        keys := if h.nBuckets < 2 ^ newBits then krealloc h.keys (2 ^ newBits) else h.keys
        vals := if h.nBuckets < 2 ^ newBits then krealloc h.vals (2 ^ newBits) else h.vals } none := by
  -- the arrays begin with those of the table
  have start_eq {α : Type} (array : List (Option α)) (length : array.length = 2 ^ bits) (i : Nat)
      (slot : i < 2 ^ bits) :
      (if h.nBuckets < 2 ^ newBits then krealloc array (2 ^ newBits) else array)[i]? = array[i]? := by
    rw [good.nBuckets]
    split
    · exact getElem?_krealloc array (by omega) (by omega)
    · rfl
  have room {α : Type} (array : List (Option α)) (length : array.length = 2 ^ bits) :
      (if h.nBuckets < 2 ^ newBits then krealloc array (2 ^ newBits) else array).length =
        max (2 ^ newBits) (2 ^ bits) := by
    rw [good.nBuckets]
    split
    · rw [length_krealloc]
      omega
    · omega
  have same (i : Nat) (slot : i < 2 ^ bits) := slots_congr h.flags
    (start_eq h.keys good.keys i slot) (start_eq h.vals good.vals i slot)
  have empty (i : Nat) (slot : i < 2 ^ newBits) := slots_fresh
    (if h.nBuckets < 2 ^ newBits then krealloc h.keys (2 ^ newBits) else h.keys)
    (if h.nBuckets < 2 ^ newBits then krealloc h.vals (2 ^ newBits) else h.vals) slot
  have nothing (e : κ × Option ν) (has : Has newBits (slots (freshFlags (2 ^ newBits))
      (if h.nBuckets < 2 ^ newBits then krealloc h.keys (2 ^ newBits) else h.keys)
      (if h.nBuckets < 2 ^ newBits then krealloc h.vals (2 ^ newBits) else h.vals)) e) : False := by
    obtain ⟨i, slot, full⟩ := has
    rw [empty i slot] at full
    cases full
  have moving : Moving newBits bits start (entryKey content) (Has bits h.slots) h.size
      (slots (freshFlags (2 ^ newBits))
        (if h.nBuckets < 2 ^ newBits then krealloc h.keys (2 ^ newBits) else h.keys)
        (if h.nBuckets < 2 ^ newBits then krealloc h.vals (2 ^ newBits) else h.vals))
      h.slots none := by
    refine ⟨sound_of_empty empty, fun i slot => by simp [empty i slot], good.sound.distinct,
      fun e e' has => (nothing e has).elim, fun e none => (by cases none), fun e => ?_, ?_⟩
    · simp only [reduceCtorEq, or_false]
      exact or_iff_right (nothing e)
    · rw [count_eq_zero fun i slot => by simp [empty i slot, Slot.isFull], ← good.size]
      simp
  refine ⟨filled_fresh newBits _, ⟨good.filled.words, fun i slot f there live => ?_⟩,
    room h.keys good.keys, room h.vals good.vals, fun i slot => ⟨true, flagAt_freshFlags slot⟩,
    fun i slot _ nonempty => absurd (empty i slot) nonempty, moving.congr_old same⟩
  have read := start_eq h.keys good.keys i slot
  rw [read]
  exact good.filled.live i slot f there live

/-- `kh_resize` keeps the entries; it does nothing where the size that it is asked for is too small. -/
theorem khResize_spec (hashes : ∀ k, (hash k).toNat = start (content k))
    (good : Good content start h bits) (m : Nat) :
    ∃ h' bits', khResize hash h m = some h' ∧ Good content start h' bits' ∧ h'.size = h.size ∧
      (∀ e, Has bits' h'.slots e ↔ Has bits h.slots e) ∧
      (1 ≤ m → m ≤ 2 ^ 31 → ∀ newBits, m ≤ 2 ^ newBits →
        (newBits = 2 ∨ 2 ^ (newBits - 1) < m) → 2 ≤ newBits →
        h.size < upperOf (2 ^ newBits) → bits' = newBits ∧ h'.nOccupied = h.size) := by
  obtain ⟨newBits, two_le, le, rounded, near⟩ := roundedBuckets m
  have unique (low : 1 ≤ m) (high : m ≤ 2 ^ 31) (other : Nat) (enough' : m ≤ 2 ^ other)
      (least' : other = 2 ∨ 2 ^ (other - 1) < m) (two_le' : 2 ≤ other) : other = newBits := by
    obtain ⟨enough, least⟩ := near low high
    by_contra different
    rcases Nat.lt_or_gt_of_ne different with less | less
    · have := Nat.pow_le_pow_right (show 0 < 2 by decide) (show other ≤ newBits - 1 by omega)
      omega
    · have := Nat.pow_le_pow_right (show 0 < 2 by decide) (show newBits ≤ other - 1 by omega)
      omega
  unfold khResize
  simp only [rounded]
  by_cases few : h.size ≥ upperOf (2 ^ newBits)
  · refine ⟨h, bits, by rw [if_pos few], good, rfl, fun _ => Iff.rfl, ?_⟩
    intro low high other enough' least' two_le' fits
    rw [unique low high other enough' least' two_le'] at fits
    omega
  · have fits : h.size < upperOf (2 ^ newBits) := by omega
    have room : h.size ≤ 2 ^ newBits := (fits.trans (upperOf_lt two_le le)).le
    obtain ⟨r, run, done, moved⟩ := rehash_spec hashes le room
      (Nat.zero_add (2 ^ bits)) (good.rehashing newBits) (fun i less => by omega)
    have shrunk {α : Type} (array : List (Option α))
        (length : array.length = max (2 ^ newBits) (2 ^ bits)) :
        (∀ i < 2 ^ newBits,
          (if 2 ^ newBits < h.nBuckets then krealloc array (2 ^ newBits) else array)[i]? = array[i]?) ∧
        (if 2 ^ newBits < h.nBuckets then krealloc array (2 ^ newBits) else array).length =
          2 ^ newBits := by
      rw [good.nBuckets]
      split
      · exact ⟨fun i slot => getElem?_krealloc array slot (by omega), length_krealloc ..⟩
      · exact ⟨fun _ _ => rfl, by omega⟩
    obtain ⟨made, has⟩ := done.good two_le le fits moved (shrunk r.keys done.keys).1
      (shrunk r.keys done.keys).2 (shrunk r.vals done.vals).1 (shrunk r.vals done.vals).2
    refine ⟨_, newBits, ?_, made, rfl, has, fun low high other enough' least' two_le' _ =>
      ⟨(unique low high other enough' least' two_le').symm, rfl⟩⟩
    rw [if_neg few]
    rw [good.nBuckets] at run ⊢
    rw [run]
    rfl

end Resize

end Khash
end Pone
