import Pone.Khash.Resize

/-!
# What the operations of a table do

`kh_put` makes room first, and then takes the entry with the key, a deleted bucket on the way to an
empty one, or the empty one.
-/

namespace Pone
namespace Khash

open OpenAddressing

variable {κ ν β : Type} {hash : κ → UInt32} {content : κ → β} {start : β → Nat}
  {h : Kh κ ν} {bits : Nat} {key : κ}

/-- The table before the first `kh_put`, or one that keeps the invariant. -/
def Fit (content : κ → β) (start : β → Nat) (h : Kh κ ν) : Prop :=
  h = khInit ∨ ∃ bits, Good content start h bits

/-- The entry is in the table. -/
def Kh.Has (h : Kh κ ν) (e : κ × Option ν) : Prop := ∃ i < h.nBuckets, h.slots i = .full e

theorem Good.has_iff (good : Good content start h bits) (e : κ × Option ν) :
    h.Has e ↔ Has bits h.slots e := by
  rw [Kh.Has, good.nBuckets]
  rfl

theorem not_has_init (e : κ × Option ν) : ¬ (khInit : Kh κ ν).Has e := by
  rintro ⟨i, less, -⟩
  cases less

theorem khResize_init (hash : κ → UInt32) (content : κ → β) (start : β → Nat) (m : Nat) :
    ∃ h' : Kh κ ν, khResize hash khInit m = some h' ∧ (∃ bits, Good content start h' bits) ∧
      h'.size = 0 ∧ h'.nOccupied < h'.upperBound ∧ ∀ e, ¬ h'.Has e := by
  obtain ⟨bits, two_le, le, rounded, -⟩ := roundedBuckets m
  have half := half_lt_upperOf two_le le
  have none_needed : ¬ (khInit : Kh κ ν).size ≥ upperOf (2 ^ bits) := by
    change ¬ 0 ≥ upperOf (2 ^ bits)
    omega
  have grows : (khInit : Kh κ ν).nBuckets < 2 ^ bits := Nat.two_pow_pos bits
  have keeps : ¬ 2 ^ bits < (khInit : Kh κ ν).nBuckets := Nat.not_lt_zero _
  unfold khResize
  simp only [rounded, if_neg none_needed, if_pos grows, if_neg keeps, Option.bind_eq_bind]
  obtain ⟨good, nothing⟩ := good_fresh content start
    { nBuckets := 2 ^ bits, size := 0, nOccupied := 0, upperBound := upperOf (2 ^ bits),
      flags := freshFlags (2 ^ bits), keys := krealloc ([] : List (Option κ)) (2 ^ bits),
      vals := krealloc ([] : List (Option ν)) (2 ^ bits) }
    two_le le rfl rfl rfl rfl rfl (length_krealloc ..) (length_krealloc ..)
  refine ⟨_, rfl, ⟨bits, good⟩, rfl, ?_, fun e has => nothing e ((good.has_iff e).mp has)⟩
  show 0 < upperOf (2 ^ bits)
  omega

/-- `kh_put` begins with a table that has room for one more entry. -/
theorem room_spec (hashes : ∀ k, (hash k).toNat = start (content k)) (fit : Fit content start h)
    (small : h.size < 2 ^ 30) :
    ∃ h₁ bits, khRoom hash h = some h₁ ∧
      Good content start h₁ bits ∧ h₁.size = h.size ∧ h₁.nOccupied < h₁.upperBound ∧
      ∀ e, Has bits h₁.slots e ↔ h.Has e := by
  unfold khRoom
  rcases fit with rfl | ⟨bits, good⟩
  · obtain ⟨h₁, made, ⟨bits, good⟩, size, room, nothing⟩ :=
      khResize_init (ν := ν) hash content start 1
    refine ⟨h₁, bits, made, good, size, room, fun e => ?_⟩
    rw [← good.has_iff e]
    exact iff_of_false (nothing e) (not_has_init e)
  · by_cases full : h.nOccupied ≥ h.upperBound
    · have double : khint (h.size <<< 1) = 2 * h.size := by
        rw [Nat.shiftLeft_eq, khint_of_lt] <;> omega
      have four : 2 ^ 2 ≤ 2 ^ bits := Nat.pow_le_pow_right two_pos good.low
      have half : 2 ^ bits = 2 * 2 ^ (bits - 1) := by
        rw [← Nat.pow_succ', Nat.succ_eq_add_one, Nat.sub_add_cancel (by have := good.low; omega)]
      have top : 2 ^ bits ≤ 2 ^ 31 := Nat.pow_le_pow_right two_pos good.high
      rw [if_pos full, double, good.nBuckets]
      by_cases sparse : 2 ^ bits > 2 * h.size
      · obtain ⟨h₁, bits₁, made, good₁, size, has, chosen⟩ := khResize_spec hashes good
          (2 ^ bits - 1)
        have fits : h.size < upperOf (2 ^ bits) := by
          have := half_lt_upperOf good.low good.high
          omega
        obtain ⟨rfl, occupied⟩ := chosen (by omega) (by omega) bits (by omega) (.inr (by omega))
          good.low fits
        rw [if_pos sparse]
        refine ⟨h₁, bits₁, made, good₁, size, ?_, fun e => by rw [has, good.has_iff]⟩
        rw [occupied, good₁.upper]
        exact fits
      · have low : bits + 1 ≤ 31 := by
          by_contra! beyond
          have := Nat.pow_le_pow_right (show 0 < 2 by decide) (show 31 ≤ bits by omega)
          omega
        obtain ⟨h₁, bits₁, made, good₁, size, has, chosen⟩ := khResize_spec hashes good
          (2 ^ bits + 1)
        have small_bits := Nat.pow_le_pow_right (show 0 < 2 by decide) (show bits ≤ 30 by omega)
        have fits : h.size < upperOf (2 ^ (bits + 1)) := by
          have := half_lt_upperOf (show 2 ≤ bits + 1 by have := good.low; omega) low
          have := good.size.trans_le (count_le _ _)
          rw [Nat.pow_succ] at *
          omega
        obtain ⟨rfl, occupied⟩ := chosen (by omega) (by omega) (bits + 1) (by rw [Nat.pow_succ]; omega)
          (.inr (by rw [Nat.add_sub_cancel]; omega)) (by have := good.low; omega) fits
        rw [if_neg sparse]
        refine ⟨h₁, bits + 1, made, good₁, size, ?_, fun e => by rw [has, good.has_iff]⟩
        rw [occupied, good₁.upper]
        exact fits
    · rw [if_neg full]
      exact ⟨h, bits, rfl, good, rfl, by omega, fun e => (good.has_iff e).symm⟩

/-- Where there is room, there is an empty bucket. -/
theorem Good.exists_ends (good : Good content start h bits) (b : β) :
    ∃ stop < 2 ^ bits, Ends bits start (entryKey content) h.slots b stop := by
  have below := good.room.trans_lt (good.upper ▸ upperOf_lt good.low good.high)
  rw [good.occupied] at below
  obtain ⟨i, slot, unused⟩ := exists_not_of_count_lt below
  exact OpenAddressing.exists_ends b slot (isEmpty_iff.mp (by simpa using unused))

theorem first_bucket (hashes : ∀ k, (hash k).toNat = start (content k)) (key : κ) (bits : Nat) :
    (hash key).toNat &&& (2 ^ bits - 1) = probe bits (start (content key)) 0 := by
  rw [mask_eq, probe_zero, hashes]

/-- An entry is put into a bucket without one. -/
theorem Good.insert {stop last : Nat} {h' : Kh κ ν} {e : κ × Option ν}
    (good : Good content start h bits) (room : h.nOccupied < h.upperBound)
    (ends : Ends bits start (entryKey content) h.slots (entryKey content e) stop)
    (within : last ≤ stop)
    (fresh : ∀ e', Has bits h.slots e' → entryKey content e' ≠ entryKey content e)
    (vacant : ∀ e', h.slots (probe bits (start (entryKey content e)) last) ≠ .full e')
    (shape : Shape h' bits) (upper : h'.upperBound = h.upperBound)
    (now : h'.slots =
      Function.update h.slots (probe bits (start (entryKey content e)) last) (.full e))
    (size : h'.size = h.size + 1)
    (occupied : h'.nOccupied = h.nOccupied +
      if (h.slots (probe bits (start (entryKey content e)) last)).isEmpty then 1 else 0) :
    Good content start h' bits ∧ ∀ e', Has bits h'.slots e' ↔ e' = e ∨ Has bits h.slots e' := by
  have slot : probe bits (start (entryKey content e)) last < 2 ^ bits := probe_lt ..
  have off (i : Nat) (here : i ≠ probe bits (start (entryKey content e)) last) :
      Function.update h.slots (probe bits (start (entryKey content e)) last) (.full e) i =
        h.slots i := Function.update_of_ne here ..
  refine ⟨{ toShape := shape, upper := upper.trans good.upper, size := ?_, occupied := ?_,
            room := ?_, sound := ?_ }, fun e' => ?_⟩
  · rw [size, good.size, now]
    refine (count_of_added slot (fun i here => by rw [off i here]) ?_ ?_).symm
    · rw [isFull_iff]
      rintro ⟨e', full⟩
      exact vacant e' full
    · rw [Function.update_self]
      rfl
  · rw [occupied, good.occupied, now]
    split
    · next unused =>
        refine (count_of_added slot (fun i here => by rw [off i here]) ?_ ?_).symm
        · rw [unused]
          exact Bool.noConfusion
        · rw [Function.update_self]
          rfl
    · next used =>
        refine count_congr fun i _ => ?_
        by_cases here : i = probe bits (start (entryKey content e)) last
        · rw [here, Function.update_self]
          exact iff_of_true (by simpa using used) rfl
        · rw [off i here]
  · rw [occupied, upper]
    split <;> omega
  · rw [now]
    exact good.sound.insert ends fresh within
  · rw [now]
    exact has_update_full slot vacant

/-- The value of an entry is assigned. -/
theorem Good.assign {x : Nat} {h' : Kh κ ν} {e e' : κ × Option ν}
    (good : Good content start h bits) (slot : x < 2 ^ bits) (full : h.slots x = .full e)
    (same : entryKey content e' = entryKey content e) (shape : Shape h' bits)
    (upper : h'.upperBound = h.upperBound) (now : h'.slots = Function.update h.slots x (.full e'))
    (size : h'.size = h.size) (occupied : h'.nOccupied = h.nOccupied) :
    Good content start h' bits ∧ ∀ e₁, Has bits h'.slots e₁ ↔
      e₁ = e' ∨ entryKey content e₁ ≠ entryKey content e ∧ Has bits h.slots e₁ := by
  refine ⟨{ toShape := shape, upper := upper.trans good.upper, size := ?_, occupied := ?_,
            room := ?_, sound := ?_ }, fun e₁ => ?_⟩
  · rw [size, good.size, now]
    refine (count_congr fun i _ => ?_).symm
    by_cases here : i = x
    · rw [here, full, Function.update_self]
      exact Iff.rfl
    · rw [Function.update_of_ne here]
  · rw [occupied, good.occupied, now]
    refine (count_congr fun i _ => ?_).symm
    by_cases here : i = x
    · rw [here, full, Function.update_self]
      exact Iff.rfl
    · rw [Function.update_of_ne here]
  · rw [occupied, upper]
    exact good.room
  · rw [now]
    exact good.sound.replace slot full same
  · rw [now, good.sound.has_update slot full, Slot.full.injEq, eq_comm]

/-- The entry of a bucket is deleted. -/
theorem Good.delete {x : Nat} {h' : Kh κ ν} {e : κ × Option ν} (good : Good content start h bits)
    (slot : x < 2 ^ bits) (full : h.slots x = .full e) (shape : Shape h' bits)
    (upper : h'.upperBound = h.upperBound) (now : h'.slots = Function.update h.slots x .deleted)
    (size : h'.size = h.size - 1) (occupied : h'.nOccupied = h.nOccupied) :
    Good content start h' bits ∧ ∀ e', Has bits h'.slots e' ↔
      entryKey content e' ≠ entryKey content e ∧ Has bits h.slots e' := by
  refine ⟨{ toShape := shape, upper := upper.trans good.upper, size := ?_, occupied := ?_,
            room := ?_, sound := ?_ }, fun e' => ?_⟩
  · have fewer := count_of_removed (p := fun i => (h.slots i).isFull = true)
      (q := fun i => (h'.slots i).isFull = true) slot
      (fun i here => by rw [now, Function.update_of_ne here]) (by rw [full]; rfl)
      (by rw [now, Function.update_self]; exact Bool.false_ne_true)
    rw [size, good.size]
    omega
  · rw [occupied, good.occupied, now]
    refine (count_congr fun i _ => ?_).symm
    by_cases here : i = x
    · rw [here, full, Function.update_self]
      exact Iff.rfl
    · rw [Function.update_of_ne here]
  · rw [occupied, upper]
    exact good.room
  · rw [now]
    exact good.sound.delete x
  · rw [now, good.sound.has_update slot full]
    simp

section Put

variable [DecidableEq β]

/-- The bucket that `kh_put` takes. -/
theorem khPutBucket_spec (hashes : ∀ k, (hash k).toNat = start (content k))
    (good : Good content start h bits) (key : κ) :
    ∃ stop last, Ends bits start (entryKey content) h.slots (content key) stop ∧ last ≤ stop ∧
      khPutBucket hash content h key = some (probe bits (start (content key)) last) ∧
      (last = stop ∨ h.slots (probe bits (start (content key)) stop) = .empty ∧
        h.slots (probe bits (start (content key)) last) = .deleted) := by
  obtain ⟨stop, bound, ends⟩ := good.exists_ends (content key)
  obtain ⟨last, within, loop, chosen⟩ := khPutLoop_spec good.toShape ends bound
    (Nat.zero_le stop) (show stop - 0 < 2 * h.nBuckets by rw [good.nBuckets]; omega) (.inl rfl)
  unfold khPutBucket
  rw [good.nBuckets] at loop ⊢
  simp only [first_bucket hashes, acIsempty_eq]
  rcases good.filled.bucket (probe_lt bits (start (content key)) 0) h.vals with
    ⟨⟨d, flag⟩, is⟩ | ⟨flag, -⟩ | ⟨k, flag, -, -⟩
  · -- the bucket that the hash value says is empty
    obtain rfl : stop = 0 := by
      by_contra! later
      exact ends.goes 0 (Nat.pos_of_ne_zero later) (.inl is)
    exact ⟨0, 0, ends, le_rfl, by simp [flag], .inl rfl⟩
  · exact ⟨stop, last, ends, within, by simpa [flag] using loop, chosen⟩
  · exact ⟨stop, last, ends, within, by simpa [flag] using loop, chosen⟩

/-- `kh_put` and the assignment of the value: an entry with the key keeps its key and gets the value,
or there is a new entry. -/
theorem khStore_spec (hashes : ∀ k, (hash k).toNat = start (content k)) (fit : Fit content start h)
    (small : h.size < 2 ^ 30) (key : κ) (value : ν) :
    ∃ h', khStore hash content h key value = some h' ∧ Fit content start h' ∧
      ((∃ e, h.Has e ∧ content e.1 = content key ∧ h'.size = h.size ∧
        ∀ e', h'.Has e' ↔ e' = (e.1, some value) ∨ content e'.1 ≠ content key ∧ h.Has e') ∨
      (∀ e, h.Has e → content e.1 ≠ content key) ∧ h'.size = h.size + 1 ∧
        ∀ e', h'.Has e' ↔ e' = (key, some value) ∨ h.Has e') := by
  obtain ⟨h₁, bits, made, good, size, room, has⟩ := room_spec hashes fit small
  obtain ⟨stop, last, ends, within, chosen, site⟩ := khPutBucket_spec hashes good key
  have slot : probe bits (start (content key)) last < 2 ^ bits := probe_lt ..
  have inside : probe bits (start (content key)) last < h₁.keys.length := by rwa [good.keys]
  have inside' : probe bits (start (content key)) last < h₁.vals.length := by rwa [good.vals]
  have fresh (unfilled : ∀ e, h₁.slots (probe bits (start (content key)) last) ≠ .full e) :
      ∀ e, Has bits h₁.slots e → content e.1 ≠ content key := by
    intro e there same
    have found := good.sound.finds ends there same
    rcases site with rfl | ⟨empty, -⟩
    · exact unfilled e found
    · rw [empty] at found
      cases found
  have whole (put : Kh κ ν × Nat × Nat)
      (done : khPutKey h₁ (probe bits (start (content key)) last) key = some put) :
      khStore hash content h key value = khAssignVal put.1 put.2.1 value := by
    simp [khStore, khPut, made, chosen, done]
  -- a bucket without an entry takes the key
  have inserted (occupied ret : Nat) {flags : List UInt32}
      (unfilled : ∀ e, h₁.slots (probe bits (start (content key)) last) ≠ .full e)
      (length : flags.length = h₁.flags.length)
      (flagged : ∀ j, flagAt flags j = if j = probe bits (start (content key)) last then
        some ⟨false, false⟩ else flagAt h₁.flags j)
      (done : khPutKey h₁ (probe bits (start (content key)) last) key = some
        ({ h₁ with
            keys := h₁.keys.set (probe bits (start (content key)) last) (some key)
            flags, size := h₁.size + 1, nOccupied := occupied },
          probe bits (start (content key)) last, ret))
      (counted : occupied = h₁.nOccupied +
        if (h₁.slots (probe bits (start (content key)) last)).isEmpty then 1 else 0) :
      ∃ h', khStore hash content h key value = some h' ∧ Fit content start h' ∧
        (∀ e, h.Has e → content e.1 ≠ content key) ∧ h'.size = h.size + 1 ∧
          ∀ e', h'.Has e' ↔ e' = (key, some value) ∨ h.Has e' := by
    have now := slots_set (f := ⟨false, false⟩) flagged inside inside' key (some value)
    rw [show slotOf ⟨false, false⟩ (some key) (some value) = Slot.full (key, some value) from rfl]
      at now
    obtain ⟨good', has'⟩ := good.insert (e := (key, some value))
      room ends within (fresh unfilled) unfilled
      (show Shape { h₁ with
            keys := h₁.keys.set (probe bits (start (content key)) last) (some key)
            flags, size := h₁.size + 1, nOccupied := occupied
            vals := h₁.vals.set (probe bits (start (content key)) last) (some value) } bits from
        ⟨good.nBuckets, good.low, good.high,
          good.filled.set length (fun j here => by rw [flagged, if_neg here]) inside key,
          by simpa using good.keys, by simpa using good.vals⟩) rfl now rfl counted
    refine ⟨_, by rw [whole _ done, khAssignVal, assign_eq inside']; rfl, .inr ⟨bits, good'⟩,
      fun e there => fresh unfilled e ((has e).mpr there), by rw [size], fun e => ?_⟩
    rw [good'.has_iff, has', has]
  rcases good.filled.bucket slot h₁.vals with ⟨⟨d, flag⟩, is⟩ | ⟨flag, is⟩ | ⟨k, flag, read, is⟩
  · obtain ⟨flags, set, length, flagged⟩ := acSetIsbothFalse_spec flag
    have unfilled : ∀ e, h₁.slots (probe bits (start (content key)) last) ≠ .full e :=
      fun e full => by
        rw [Kh.slots, is] at full
        cases full
    obtain ⟨h', stored, fit', rest⟩ := inserted (h₁.nOccupied + 1) 1 unfilled
      length flagged
      (by simp [khPutKey, acIsempty_eq, flag, assign_eq inside, set])
      (by rw [Kh.slots, is]; rfl)
    exact ⟨h', stored, fit', .inr rest⟩
  · obtain ⟨flags, set, length, flagged⟩ := acSetIsbothFalse_spec flag
    have unfilled : ∀ e, h₁.slots (probe bits (start (content key)) last) ≠ .full e :=
      fun e full => by
        rw [Kh.slots, is] at full
        cases full
    obtain ⟨h', stored, fit', rest⟩ := inserted h₁.nOccupied 2 unfilled
      length flagged
      (by simp [khPutKey, acIsempty_eq, acIsdel_eq, flag, assign_eq inside, set])
      (by rw [Kh.slots, is]; rfl)
    exact ⟨h', stored, fit', .inr rest⟩
  · -- the entry with the key
    obtain rfl : last = stop := by
      rcases site with same | ⟨-, deleted⟩
      · exact same
      · rw [Kh.slots, is] at deleted
        cases deleted
    have same : content k = content key := by
      rcases ends.stops with empty | ⟨e, full, same⟩
      · rw [Kh.slots, is] at empty
        cases empty
      · rw [Kh.slots, is] at full
        cases full
        exact same
    have done : khPutKey h₁ (probe bits (start (content key)) last) key =
        some (h₁, probe bits (start (content key)) last, 0) := by
      simp [khPutKey, acIsempty_eq, acIsdel_eq, flag]
    have now := slots_val flag read inside' (some value)
    obtain ⟨good', has'⟩ := good.assign slot is
      (show entryKey content (k, some value) =
        entryKey content (k, h₁.vals[probe bits (start (content key)) last]?.join) from rfl)
      (show Shape { h₁ with
          vals := h₁.vals.set (probe bits (start (content key)) last) (some value) } bits from
        ⟨good.nBuckets, good.low, good.high, good.filled, good.keys, by simpa using good.vals⟩)
      rfl now rfl rfl
    refine ⟨_, by rw [whole _ done, khAssignVal, assign_eq inside']; rfl, .inr ⟨bits, good'⟩,
      .inl ⟨_, (has _).mp ⟨_, slot, is⟩, same, size, fun e => ?_⟩⟩
    rw [good'.has_iff, has', has]
    simp only [entryKey, same]

end Put

end Khash
end Pone
