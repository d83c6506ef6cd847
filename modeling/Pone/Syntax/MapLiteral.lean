import Pone.Khash.Map
import Pone.Syntax.Results

/-!
# Map literals, from the text to the table

The rule `hash` gives a node of pairs with printed keys, for which `_pone_compile` prints a call of
`pone_map_assign_keys` with two arguments for each pair and their number before them.  Reading them
in twos, the function makes the map in which the last of equal keys stands.
-/

namespace Pone
namespace Syntax

open Greg
open Map (Vals Halt HashBody keyOf Hashes)

/-- An argument of the printed call. -/
inductive MapArg where
  /-- The bytes of an identifier, as they are. -/
  | raw (pv : List UInt8)
  /-- The code of a node. -/
  | code (node : Tree)

/-- The two arguments for a child of a HASH, which must have two children itself. -/
def compilePair : Tree → Option (List MapArg)
  | .children _ (.string .ident pv :: value :: _) => some [.raw pv, .code value]
  | .children _ (key :: value :: _) => some [.code key, .code value]
  | _ => none

/-- The number and the arguments that `_pone_compile` prints for a HASH. -/
def compileHash (nodes : List Tree) : Option (Nat × List MapArg) := do
  let args ← nodes.mapM compilePair
  some (2 * nodes.length, args.flatten)

/-- The loop over the arguments, of which `n - i` are announced: `none` where `va_arg` reads behind
the last. -/
def vaPairs {α : Type} : Nat → List α → Option (List (α × α))
  | 0, _ => some []
  | left + 1, k :: v :: list => (vaPairs (left - 1) list).map ((k, v) :: ·)
  | _, _ => none

theorem compilePair_text {key value : Tree} (isText : key.IsText) :
    compilePair (.children .pair [key, value]) = some [.code key, .code value] := by
  cases key with
  | string type pv =>
      have different : type ≠ .ident := by
        rintro rfl
        rcases isText with is | is <;> cases is
      cases type
      case ident => contradiction
      all_goals rfl
  | children | int | number => rfl

/-- The keys and the values of pairs with printed keys. -/
theorem exists_entries {nodes : List Tree} (all : ∀ node ∈ nodes, node.IsPair) :
    ∃ entries : List (Tree × Tree), entries.length = nodes.length ∧ (∀ e ∈ entries, e.1.IsText) ∧
      nodes.mapM compilePair = some (entries.map fun e => [.code e.1, .code e.2]) := by
  induction nodes with
  | nil => exact ⟨[], rfl, fun _ member => (List.not_mem_nil member).elim, rfl⟩
  | cons node rest ih =>
      obtain ⟨key, value, rfl, isText⟩ := all node List.mem_cons_self
      obtain ⟨entries, length, texts, compiled⟩ :=
        ih fun other member => all other (List.mem_cons_of_mem _ member)
      refine ⟨(key, value) :: entries, by simp [length], ?_, ?_⟩
      · intro e member
        rcases List.mem_cons.mp member with rfl | later
        · exact isText
        · exact texts e later
      · rw [List.mapM_cons, compilePair_text isText, compiled]
        rfl

/-- As many arguments as are announced are read, in twos. -/
theorem vaPairs_eq {α : Type} (entries : List (α × α)) :
    vaPairs (2 * entries.length) (entries.flatMap fun e => [e.1, e.2]) = some entries := by
  induction entries with
  | nil => rfl
  | cons e rest ih =>
      rw [List.length_cons, Nat.mul_succ, List.flatMap_cons]
      simp only [List.cons_append, List.nil_append, vaPairs, Nat.add_sub_cancel, ih,
        Option.map_some]

section Runtime

variable {α : Type} {vals : Vals α} {nil : α}

/-- The printed call, with the values of its arguments. -/
def callHash (vals : Vals α) (eval : MapArg → α) (call : Nat × List MapArg) :
    Option (Except Halt (HashBody (Khash.Kh α α))) :=
  (vaPairs call.1 (call.2.map eval)).map (Khash.mapAssignKeys vals Khash.mapNew)

/-- The entries, with the values of their arguments and the strings under which keys are stored. -/
def stored (vals : Vals α) (eval : MapArg → α) (entries : List (Tree × Tree)) : List (α × α) :=
  entries.map fun e => (keyOf vals (eval (.code e.1)), eval (.code e.2))

/-- The map that is made of the values of the arguments. -/
theorem callHash_eq (eval : MapArg → α) {entries : List (Tree × Tree)}
    (few : entries.length ≤ 2 ^ 30)
    (hashes : ∀ e ∈ entries, Hashes vals (keyOf vals (eval (.code e.1)))) :
    ∃ body, callHash vals eval
        (2 * entries.length, entries.flatMap fun e => [.code e.1, .code e.2]) = some (.ok body) ∧
      body.len = entries.length ∧ ∀ key, Hashes vals key → Khash.mapAtKey vals nil body key =
        .ok ((HashTable.assigned vals.bytes (fun _ => none) (stored vals eval entries)
          (vals.bytes key)).getD nil) := by
  have start : Khash.ReadsMap vals (Khash.mapNew : HashBody (Khash.Kh α α)).h fun _ => none :=
    Khash.Reads.init vals.bytes _
  have values : (entries.flatMap fun e => [MapArg.code e.1, .code e.2]).map eval =
      (entries.map fun e => (eval (.code e.1), eval (.code e.2))).flatMap fun e => [e.1, e.2] := by
    simp [List.map_flatMap, List.flatMap_map]
  have few' : (Khash.mapNew : HashBody (Khash.Kh α α)).h.size +
      (entries.map fun e => (eval (.code e.1), eval (.code e.2))).length ≤ 2 ^ 30 := by
    rw [List.length_map]
    exact (Nat.zero_add _).trans_le few
  obtain ⟨body, assigned, counted, reads, buckets⟩ :=
    Khash.mapAssignKeys_reads start few' fun e member => by
      obtain ⟨entry, among, rfl⟩ := List.mem_map.mp member
      exact hashes entry among
  rw [List.map_map] at reads
  have reads' : Khash.ReadsMap vals body.h
      (HashTable.assigned vals.bytes (fun _ => none) (stored vals eval entries)) := reads
  refine ⟨body, ?_, ?_, fun key hashed => ?_⟩
  · have read := vaPairs_eq (entries.map fun e => (eval (.code e.1), eval (.code e.2)))
    rw [List.length_map] at read
    rw [callHash, values, read, Option.map_some, assigned]
  · rw [counted, List.length_map]
    exact Int.zero_add _
  · obtain ⟨n, hashed⟩ := hashed
    unfold Khash.mapAtKey
    rw [Khash.valFind_eq reads', hashed]
    by_cases empty : body.h.nBuckets = 0
    · obtain ⟨-, none⟩ := buckets.mp empty
      obtain rfl := List.map_eq_nil_iff.mp none
      rw [if_pos empty]
      rfl
    · rw [if_neg empty]
      cases HashTable.assigned vals.bytes (fun _ => none) (stored vals eval entries)
        (vals.bytes key) <;> rfl

/-- `a` is assigned twice. -/
def repeatedLiteral : List UInt8 := bytes "\x7ba=>1,b=>2,a=>3\x7d"

end Runtime

end Syntax
end Pone
