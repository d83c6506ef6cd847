import Pone.Khash.Operations

/-!
# Tables refine finite maps

A table reads as a finite map when its entries are those of the map, and every operation changes the
table as it changes the map.  So does every sequence of operations in which at most `2 ^ 30` entries
are put, from `kh_init` on.
-/

namespace Pone
namespace Khash

open OpenAddressing

variable {κ ν β : Type} {hash : κ → UInt32} {content : κ → β} {start : β → Nat} {h : Kh κ ν}
  {bits : Nat} {m : β → Option ν}

/-- The entries of the table are those of the map, and no key has two of them. -/
structure Reads (content : κ → β) (start : β → Nat) (h : Kh κ ν) (m : β → Option ν) : Prop where
  fit : Fit content start h
  valued : ∀ e, h.Has e → ∃ v, e.2 = some v
  entries : ∀ b v, (∃ k, content k = b ∧ h.Has (k, some v)) ↔ m b = some v

theorem Fit.unique (fit : Fit content start h) {e e' : κ × Option ν} (has : h.Has e)
    (has' : h.Has e') (same : content e.1 = content e'.1) : e = e' := by
  rcases fit with rfl | ⟨bits, good⟩
  · exact absurd has (not_has_init e)
  · exact good.sound.unique ((good.has_iff e).mp has) ((good.has_iff e').mp has') same

namespace Reads

/-- An entry of the table is that of the map. -/
theorem of_has (reads : Reads content start h m) {e : κ × Option ν} (has : h.Has e) :
    e.2 = m (content e.1) := by
  obtain ⟨v, value⟩ := reads.valued e has
  rw [value]
  refine ((reads.entries _ v).mp ⟨e.1, rfl, ?_⟩).symm
  rwa [← value]

theorem init (content : κ → β) (start : β → Nat) :
    Reads content start (khInit : Kh κ ν) fun _ => none where
  fit := .inl rfl
  valued e has := absurd has (not_has_init e)
  entries b v := by
    refine iff_of_false ?_ (by simp)
    rintro ⟨k, -, has⟩
    exact not_has_init _ has

/-- Other entries with the same map. -/
theorem congr (reads : Reads content start h m) {h' : Kh κ ν} (fit : Fit content start h')
    (same : ∀ e, h'.Has e ↔ h.Has e) : Reads content start h' m where
  fit := fit
  valued e has := reads.valued e ((same e).mp has)
  entries b v := by simp only [same, reads.entries]

theorem clear (reads : Reads content start h m) :
    Reads content start (khClear h) fun _ => none := by
  unfold khClear
  rcases reads.fit with rfl | ⟨bits, good⟩
  · rw [if_pos (show (khInit : Kh κ ν).flags = [] from rfl)]
    exact init content start
  · have words : h.flags ≠ [] := by
      intro none
      have length := good.filled.words
      rw [none, List.length_nil, acFsize] at length
      split at length
      · cases length
      · next many =>
          rw [Nat.shiftRight_eq_div_pow] at length
          omega
    rw [if_neg words]
    obtain ⟨good', bare⟩ := good_fresh content start
      { h with flags := freshFlags h.nBuckets, size := 0, nOccupied := 0 }
      good.low good.high good.nBuckets good.upper rfl rfl (by rw [good.nBuckets]) good.keys good.vals
    have nothing (e : κ × Option ν) : ¬ Kh.Has _ e := fun has => bare e ((good'.has_iff e).mp has)
    refine ⟨.inr ⟨bits, good'⟩, fun e has => absurd has (nothing e), fun b v => ?_⟩
    refine iff_of_false ?_ (by simp)
    rintro ⟨k, -, has⟩
    exact nothing _ has

theorem resize (hashes : ∀ k, (hash k).toNat = start (content k)) (reads : Reads content start h m)
    (request : Nat) :
    ∃ h', khResize hash h request = some h' ∧ Reads content start h' m ∧ h'.size = h.size := by
  rcases reads.fit with rfl | ⟨bits, good⟩
  · obtain ⟨h', made, fit, size, -, none⟩ :=
      khResize_init (ν := ν) hash content start request
    exact ⟨h', made, reads.congr (.inr fit) fun e => iff_of_false (none e) (not_has_init e), size⟩
  · obtain ⟨h', bits', made, good', size, has, -⟩ := khResize_spec hashes good request
    refine ⟨h', made, reads.congr (.inr ⟨bits', good'⟩) fun e => ?_, size⟩
    rw [good'.has_iff, good.has_iff, has]

end Reads

section Decidable

variable [DecidableEq β] {key : κ}

/-- Where `kh_get` finds a key. -/
theorem khGet_spec (hashes : ∀ k, (hash k).toNat = start (content k)) (reads : Reads content start h m)
    (key : κ) :
    ∃ x, khGet hash content h key = some x ∧
      (x = h.nBuckets ∧ m (content key) = none ∨
        ∃ bits k v, Good content start h bits ∧ x < 2 ^ bits ∧ h.slots x = .full (k, some v) ∧
          content k = content key ∧ m (content key) = some v) := by
  rcases reads.fit with rfl | ⟨bits, good⟩
  · refine ⟨0, rfl, .inl ⟨rfl, ?_⟩⟩
    by_contra some
    obtain ⟨v, found⟩ := Option.ne_none_iff_exists'.mp some
    obtain ⟨k, -, has⟩ := (reads.entries _ v).mpr found
    exact not_has_init _ has
  · obtain ⟨stop, bound, ends⟩ := good.exists_ends (content key)
    obtain ⟨x, loop, chosen⟩ := khGetLoop_spec good.toShape ends bound
      (Nat.zero_le stop) (show stop - 0 < 2 * h.nBuckets by rw [good.nBuckets]; omega)
    have some_buckets : 2 ^ bits ≠ 0 := (Nat.two_pow_pos bits).ne'
    refine ⟨x, ?_, ?_⟩
    · unfold khGet
      rw [good.nBuckets] at loop ⊢
      rw [if_pos some_buckets]
      simp only [first_bucket hashes]
      exact loop
    · rcases chosen with ⟨empty, rfl⟩ | ⟨used, rfl⟩
      · refine .inl ⟨rfl, ?_⟩
        by_contra some
        obtain ⟨v, found⟩ := Option.ne_none_iff_exists'.mp some
        obtain ⟨k, same, has⟩ := (reads.entries _ v).mpr found
        have full := good.sound.finds ends ((good.has_iff _).mp has) same
        rw [empty] at full
        cases full
      · rcases ends.stops with empty | ⟨⟨k, value⟩, full, same⟩
        · exact absurd empty used
        · have has : h.Has (k, value) := (good.has_iff _).mpr ⟨_, probe_lt .., full⟩
          obtain ⟨v, rfl⟩ := reads.valued _ has
          exact .inr ⟨bits, k, v, good, probe_lt .., full, same,
            (reads.entries _ v).mp ⟨k, same, has⟩⟩

/-- `kh_get` and `kh_val` give what the map has. -/
theorem Reads.find (hashes : ∀ k, (hash k).toNat = start (content k))
    (reads : Reads content start h m) (key : κ) :
    khFind hash content h key = some (m (content key)) := by
  obtain ⟨x, got, ⟨rfl, absent⟩ | ⟨bits, k, v, good, slot, full, same, found⟩⟩ :=
    khGet_spec hashes reads key
  · simp [khFind, got, absent]
  · have apart : x ≠ h.nBuckets := by
      rw [good.nBuckets]
      exact slot.ne
    have value : h.vals[x]?.join = some v := by
      rcases good.filled.bucket slot h.vals with ⟨-, is⟩ | ⟨-, is⟩ | ⟨k', -, -, is⟩
      · rw [Kh.slots, is] at full
        cases full
      · rw [Kh.slots, is] at full
        cases full
      · rw [Kh.slots, is] at full
        exact congrArg Prod.snd (Slot.full.inj full)
    simp [khFind, got, apart, value, found]

/-- An entry with the key has the value, and those with other keys are as before. -/
theorem Reads.update (reads : Reads content start h m) {h' : Kh κ ν} (fit : Fit content start h')
    {k : κ} {value : ν} (entries : ∀ e, h'.Has e ↔
      e = (k, some value) ∨ content e.1 ≠ content k ∧ h.Has e) :
    Reads content start h' (Function.update m (content k) (some value)) where
  fit := fit
  valued e has := by
    rcases (entries e).mp has with rfl | ⟨-, has⟩
    · exact ⟨value, rfl⟩
    · exact reads.valued e has
  entries b v := by
    simp only [entries]
    by_cases here : b = content k
    · subst here
      rw [Function.update_self]
      constructor
      · rintro ⟨k', same, equal | ⟨different, -⟩⟩
        · exact congrArg Prod.snd equal.symm
        · exact absurd same different
      · rintro ⟨⟩
        exact ⟨k, rfl, .inl rfl⟩
    · rw [Function.update_of_ne here, ← reads.entries]
      constructor
      · rintro ⟨k', rfl, equal | ⟨-, has⟩⟩
        · cases equal
          exact absurd rfl here
        · exact ⟨k', rfl, has⟩
      · rintro ⟨k', rfl, has⟩
        exact ⟨k', rfl, .inr ⟨here, has⟩⟩

/-- `kh_put` and the assignment of the value assign in the map. -/
theorem Reads.store (hashes : ∀ k, (hash k).toNat = start (content k))
    (reads : Reads content start h m) (small : h.size < 2 ^ 30) (key : κ) (value : ν) :
    ∃ h', khStore hash content h key value = some h' ∧
      Reads content start h' (Function.update m (content key) (some value)) ∧
      h'.size = h.size + if (m (content key)).isSome then 0 else 1 := by
  obtain ⟨h', stored, fit, ⟨e, has, same, size, entries⟩ | ⟨fresh, size, entries⟩⟩ :=
    khStore_spec hashes reads.fit small key value
  · have known : (m (content key)).isSome := by
      obtain ⟨v, value⟩ := reads.valued e has
      rw [← same, ← reads.of_has has, value]
      rfl
    refine ⟨h', stored, ?_, by rw [size, if_pos known]; rfl⟩
    rw [← same] at entries ⊢
    exact reads.update fit entries
  · have unknown : ¬ (m (content key)).isSome := by
      intro known
      obtain ⟨v, found⟩ := Option.isSome_iff_exists.mp known
      obtain ⟨k, same, has⟩ := (reads.entries _ v).mpr found
      exact fresh _ has same
    refine ⟨h', stored, reads.update fit fun e => ?_, by rw [size, if_neg unknown]⟩
    rw [entries, and_iff_right_of_imp (fresh e)]

/-- `kh_get` and `kh_del` remove the key from the map. -/
theorem Reads.remove (hashes : ∀ k, (hash k).toNat = start (content k))
    (reads : Reads content start h m) (key : κ) :
    ∃ h', khRemove hash content h key = some h' ∧
      Reads content start h' (Function.update m (content key) none) ∧
      h'.size = h.size - if (m (content key)).isSome then 1 else 0 := by
  obtain ⟨x, got, ⟨rfl, absent⟩ | ⟨bits, k, v, good, slot, full, same, found⟩⟩ :=
    khGet_spec hashes reads key
  · refine ⟨h, by simp [khRemove, got, khDel], ?_, by simp [absent]⟩
    rwa [← absent, Function.update_eq_self]
  · have apart : x ≠ h.nBuckets := by
      rw [good.nBuckets]
      exact slot.ne
    have flag : flagAt h.flags x = some ⟨false, false⟩ := by
      rcases good.filled.bucket slot h.vals with ⟨-, is⟩ | ⟨-, is⟩ | ⟨k', flag, -, -⟩
      · rw [Kh.slots, is] at full
        cases full
      · rw [Kh.slots, is] at full
        cases full
      · exact flag
    obtain ⟨flags, set, length, flagged⟩ := acSetIsdelTrue_spec flag
    have now := slots_flag h.keys h.vals flagged
    obtain ⟨good', entries⟩ := good.delete slot full
      (show Shape { h with flags, size := h.size - 1 } bits from
        ⟨good.nBuckets, good.low, good.high, good.filled.flag length flagged (by decide), good.keys,
          good.vals⟩) rfl now rfl rfl
    refine ⟨_, by simp [khRemove, got, khDel, apart, acIseither_eq, flag, set]; rfl, ?_,
      by rw [found]; rfl⟩
    refine ⟨.inr ⟨bits, good'⟩, fun e has => ?_, fun b w => ?_⟩
    · rw [good'.has_iff, entries] at has
      exact reads.valued e ((good.has_iff e).mpr has.2)
    · simp only [good'.has_iff, entries, entryKey, same, ← good.has_iff]
      by_cases here : b = content key
      · subst here
        rw [Function.update_self]
        refine iff_of_false ?_ (by simp)
        rintro ⟨k', same', different, -⟩
        exact different same'
      · rw [Function.update_of_ne here, ← reads.entries]
        constructor
        · rintro ⟨k', same', -, has⟩
          exact ⟨k', same', has⟩
        · rintro ⟨k', rfl, has⟩
          exact ⟨k', rfl, here, has⟩

end Decidable

/-! ## The entries in the order of the buckets -/

/-- What `kh_foreach` passes on of a slot. -/
def listed : Slot (κ × Option ν) → Option (κ × ν)
  | .full (k, some v) => some (k, v)
  | _ => none

theorem listed_eq_some {s : Slot (κ × Option ν)} {e : κ × ν} :
    listed s = some e ↔ s = .full (e.1, some e.2) := by
  obtain ⟨k, v⟩ := e
  cases s with
  | empty | deleted => simp [listed]
  | full entry =>
      obtain ⟨k', value⟩ := entry
      cases value <;> simp [listed]

theorem khForeach_eq (good : Good content start h bits)
    (valued : ∀ e, Has bits h.slots e → ∃ v, e.2 = some v) {left i : Nat} (all : i + left = 2 ^ bits) :
    khForeach h left i = some ((List.range' i left).filterMap fun j => listed (h.slots j)) := by
  induction left generalizing i with
  | zero => rfl
  | succ left ih =>
      rw [khForeach, ih (by omega), List.range'_succ, List.filterMap_cons, acIseither_eq]
      have slot : i < 2 ^ bits := by omega
      rcases good.filled.bucket slot h.vals with ⟨⟨d, flag⟩, is⟩ | ⟨flag, is⟩ | ⟨k, flag, read, is⟩
      · simp [flag, Kh.slots, is, listed]
      · simp [flag, Kh.slots, is, listed]
      · obtain ⟨v, value⟩ := valued _ ⟨i, slot, is⟩
        simp only at value
        rw [value] at is
        simp [flag, Kh.slots, is, listed, read, value]

/-- A table lists each entry of its map once. -/
theorem Reads.foreach (reads : Reads content start h m) :
    ∃ entries, khEntries h = some entries ∧ (entries.map fun e => content e.1).Nodup ∧
      (∀ b v, (∃ e ∈ entries, content e.1 = b ∧ e.2 = v) ↔ m b = some v) ∧
      entries.length = h.size := by
  have reads' := reads
  obtain ⟨fit, valued, map⟩ := reads'
  rcases fit with rfl | ⟨bits, good⟩
  · refine ⟨[], rfl, List.nodup_nil, fun b v => ?_, rfl⟩
    rw [← map]
    refine iff_of_false ?_ ?_
    · rintro ⟨e, member, -⟩
      cases member
    · rintro ⟨k, -, has⟩
      exact not_has_init _ has
  · have valued' (e : κ × Option ν) (has : Has bits h.slots e) : ∃ v, e.2 = some v :=
      valued e ((good.has_iff e).mpr has)
    have listing := khForeach_eq good valued' (Nat.zero_add (2 ^ bits))
    rw [← List.range_eq_range'] at listing
    have member (e : κ × ν) :
        e ∈ (List.range (2 ^ bits)).filterMap (fun j => listed (h.slots j)) ↔
          h.Has (e.1, some e.2) := by
      rw [List.mem_filterMap, good.has_iff]
      simp only [List.mem_range, listed_eq_some]
      rfl
    refine ⟨_, by rw [khEntries, good.nBuckets, listing], ?_, fun b v => ?_, ?_⟩
    · rw [List.Nodup, List.pairwise_map, List.pairwise_filterMap]
      refine List.nodup_range.imp_of_mem fun {i j} slot slot' different e is e' is' same => ?_
      rw [listed_eq_some] at is is'
      exact different (good.sound.distinct i (List.mem_range.mp slot) j (List.mem_range.mp slot')
        _ _ is is' same)
    · rw [← map]
      constructor
      · rintro ⟨e, among, rfl, rfl⟩
        exact ⟨e.1, rfl, (member e).mp among⟩
      · rintro ⟨k, rfl, has⟩
        exact ⟨(k, v), (member (k, v)).mpr has, rfl, rfl⟩
    · rw [List.length_filterMap_eq_countP, good.size, count_eq_countP]
      refine List.countP_congr fun i slot => ?_
      cases is : h.slots i with
      | empty | deleted => simp [listed, Slot.isFull]
      | full e =>
          obtain ⟨v, value⟩ := valued' e ⟨i, List.mem_range.mp slot, is⟩
          obtain ⟨k, w⟩ := e
          simp only at value
          simp [listed, Slot.isFull, value]

/-! ## Sequences of operations -/

/-- The operations on a table. -/
inductive Op (κ ν : Type) where
  | store (key : κ) (value : ν)
  | remove (key : κ)
  | resize (request : Nat)
  | clear

def Op.isStore : Op κ ν → Bool
  | .store .. => true
  | .remove _ | .resize _ | .clear => false

section Run

variable [DecidableEq β] (hash content) in
def step (h : Kh κ ν) : Op κ ν → Option (Kh κ ν)
  | .store key value => khStore hash content h key value
  | .remove key => khRemove hash content h key
  | .resize request => khResize hash h request
  | .clear => some (khClear h)

variable [DecidableEq β] (hash content) in
def run (h : Kh κ ν) : List (Op κ ν) → Option (Kh κ ν)
  | [] => some h
  | op :: rest => (step hash content h op).bind fun h => run h rest

variable [DecidableEq β] (content) in
/-- What an operation does to a finite map. -/
def change (m : β → Option ν) : Op κ ν → β → Option ν
  | .store key value => Function.update m (content key) (some value)
  | .remove key => Function.update m (content key) none
  | .resize _ => m
  | .clear => fun _ => none

variable [DecidableEq β]

theorem step_reads (hashes : ∀ k, (hash k).toNat = start (content k))
    (reads : Reads content start h m) {op : Op κ ν}
    (small : h.size + (if op.isStore then 1 else 0) ≤ 2 ^ 30) :
    ∃ h', step hash content h op = some h' ∧ Reads content start h' (change content m op) ∧
      h'.size ≤ h.size + if op.isStore then 1 else 0 := by
  cases op with
  | store key value =>
      obtain ⟨h', stored, reads', size⟩ := reads.store hashes (Nat.lt_of_succ_le small) key value
      refine ⟨h', stored, reads', ?_⟩
      rw [size]
      exact Nat.add_le_add_left (by split <;> simp [Op.isStore]) _
  | remove key =>
      obtain ⟨h', removed, reads', size⟩ := reads.remove hashes key
      exact ⟨h', removed, reads', size.trans_le (Nat.sub_le ..)⟩
  | resize n =>
      obtain ⟨h', resized, reads', size⟩ := reads.resize hashes n
      exact ⟨h', resized, reads', size.le⟩
  | clear =>
      refine ⟨_, rfl, reads.clear, ?_⟩
      show (khClear h).size ≤ h.size
      unfold khClear
      split
      · exact le_rfl
      · exact Nat.zero_le _

theorem run_reads (hashes : ∀ k, (hash k).toNat = start (content k))
    (reads : Reads content start h m) {ops : List (Op κ ν)}
    (few : h.size + ops.countP Op.isStore ≤ 2 ^ 30) :
    ∃ h', run hash content h ops = some h' ∧
      Reads content start h' (ops.foldl (change content) m) := by
  induction ops generalizing h m with
  | nil => exact ⟨h, rfl, reads⟩
  | cons op rest ih =>
      rw [List.countP_cons] at few
      have room : h.size + (if op.isStore then 1 else 0) ≤ 2 ^ 30 := by omega
      obtain ⟨h₁, stepped, reads₁, size⟩ := step_reads hashes reads room
      obtain ⟨h', ran, reads'⟩ := ih reads₁ (by omega)
      exact ⟨h', by rw [run, stepped]; exact ran, reads'⟩

/-- After every sequence of operations that puts at most `2 ^ 30` entries, `kh_get` finds what the
finite map has, and `kh_foreach` lists its entries, each once, as many as `kh_size` says. -/
theorem run_refines {hashOf : β → UInt32} (hashes : ∀ k, hash k = hashOf (content k))
    (ops : List (Op κ ν)) (few : ops.countP Op.isStore ≤ 2 ^ 30) :
    ∃ h entries, run hash content khInit ops = some h ∧
      (∀ key, khFind hash content h key =
        some (ops.foldl (change content) (fun _ => none) (content key))) ∧
      khEntries h = some entries ∧ (entries.map fun e => content e.1).Nodup ∧
      (∀ b v, (∃ e ∈ entries, content e.1 = b ∧ e.2 = v) ↔
        ops.foldl (change content) (fun _ => none) b = some v) ∧
      entries.length = h.size := by
  obtain ⟨start, hashes'⟩ : ∃ start : β → Nat, ∀ k, (hash k).toNat = start (content k) :=
    ⟨fun b => (hashOf b).toNat, fun k => by rw [hashes]⟩
  obtain ⟨h, ran, reads⟩ :=
    run_reads hashes' (Reads.init content start) ((Nat.zero_add _).trans_le few)
  obtain ⟨entries, listed, nodup, map, size⟩ := reads.foreach
  exact ⟨h, entries, ran, reads.find hashes', listed, nodup, map, size⟩

/-- Nine numbers with three hash values; one of them is removed, and a deleted bucket is taken.
The request for 100 buckets makes 128; that for none changes nothing, as 4 are too few. -/
def collisions : List (Op Nat Nat) :=
  (List.range 9).map (fun k => .store k (10 * k)) ++
    [.remove 2, .store 5 0, .store 11 1, .resize 100, .resize 0]

theorem run_refines_collisions :
    ∃ h entries, run (fun k => UInt32.ofNat (k % 3)) id khInit collisions = some h ∧
      (∀ key, khFind (fun k => UInt32.ofNat (k % 3)) id h key =
        some (collisions.foldl (change id) (fun _ => none) key)) ∧
      khEntries h = some entries ∧ (entries.map fun e => e.1).Nodup ∧
      (∀ b v, (∃ e ∈ entries, e.1 = b ∧ e.2 = v) ↔
        collisions.foldl (change id) (fun _ => none) b = some v) ∧
      entries.length = h.size := by
  exact @run_refines _ _ _ _ id _ (fun k => UInt32.ofNat (k % 3)) (fun _ => rfl) collisions
    (by decide)

end Run

end Khash
end Pone
