import Pone.Str.Forms

/-!
# String forms behind `use`, `Range#Str` and `Pair#Str`

A `use` tries the files of every directory in order and leaves the string forms of the directories
as they were, exactly when the `Str` method of every directory that it comes to gives a new string.
`Range#Str` changes the string form of an endpoint exactly where the `Str` method of the lower one
does so.
-/

namespace Pone
namespace Str

open Simulation (Agrees Follows)

/-- The file of a module as the compiler takes it. -/
def pnPath (dir : List UInt8) (name : CString) : List UInt8 :=
  dir ++ ascii "/" ++ name.bytes ++ ascii ".pn"

def dllPath (dir : List UInt8) (name : CString) : List UInt8 :=
  dir ++ ascii "/" ++ name.bytes ++ ascii "." ++ dllExt

def specTryLoadPn (fs : FileSystem) (dir : List UInt8) (name : CString) : Outcome :=
  if fs.opens (pnPath dir name) then .loaded (pnPath dir name)
  else if fs.stats (pnPath dir name) then
    .throws (ascii "Cannot open " ++ pnPath dir name ++ ascii ": " ++ fs.strerror (pnPath dir name))
  else .missing

def specLoadModule (fs : FileSystem) (dir : List UInt8) (name : CString) : Outcome :=
  if fs.stats (dllPath dir name) then .loaded (dllPath dir name) else .missing

/-- For every directory in order, the one path and then the other. -/
def specScan (fs : FileSystem) (name : CString) : List (List UInt8) → List (List UInt8) × Outcome
  | [] => ([], .missing)
  | dir :: rest =>
      match specTryLoadPn fs dir name with
      | .missing =>
          match specLoadModule fs dir name with
          | .missing =>
              let (tried, outcome) := specScan fs name rest
              (pnPath dir name :: dllPath dir name :: tried, outcome)
          | outcome => ([pnPath dir name, dllPath dir name], outcome)
      | outcome => ([pnPath dir name], outcome)

/-- A `use` over the string forms of the directories. -/
def specUse (dirs : List (List UInt8)) (fs : FileSystem) (name : CString) :
    List (List UInt8) × Outcome :=
  match specScan fs name dirs with
  | (tried, .missing) =>
      (tried, .throws (ascii "Could not load module '" ++ name.bytes ++
        ascii "': no such module in:\n\n" ++
        dirs.flatMap fun dir => ascii "    - " ++ dir ++ ascii "\n"))
  | result => result

/-- A directory whose `Str` method gives a new string that may be written and that is a C string. -/
structure Form.Clean (base : List Text) (form : Form) : Prop where
  scope : form.InScope base.length
  fresh : form.Fresh
  no_nul : 0 ∉ form.text base

variable {base : List Text} {s : State}

theorem not_mem_ascii {text : String} (no_nul : (ascii text).all (· ≠ 0) = true) :
    0 ∉ ascii text := by
  intro found
  have := List.all_eq_true.mp no_nul 0 found
  simp at this

theorem not_mem_pnPath {dir : List UInt8} (no_nul : 0 ∉ dir) (name : CString) :
    0 ∉ pnPath dir name := by
  have slash : 0 ∉ ascii "/" := not_mem_ascii (by decide)
  have ext : 0 ∉ ascii ".pn" := not_mem_ascii (by decide)
  simp only [pnPath, List.mem_append, not_or]
  exact ⟨⟨⟨no_nul, slash⟩, name.no_nul⟩, ext⟩

theorem not_mem_dllPath {dir : List UInt8} (no_nul : 0 ∉ dir) (name : CString) :
    0 ∉ dllPath dir name := by
  have slash : 0 ∉ ascii "/" := not_mem_ascii (by decide)
  have dot : 0 ∉ ascii "." := not_mem_ascii (by decide)
  have ext : 0 ∉ dllExt := not_mem_ascii (by decide)
  simp only [dllPath, List.mem_append, not_or]
  exact ⟨⟨⟨⟨no_nul, slash⟩, name.no_nul⟩, dot⟩, ext⟩

/-- What the parts of the path add to a directory. -/
theorem flatten_pnPath (dir : List UInt8) (name : CString) :
    dir ++ [ascii "/", name.bytes, ascii ".pn"].flatten = pnPath dir name := by
  simp [pnPath]

theorem tryLoadPn_spec (keeps : Keeps base s) (fs : FileSystem) (moves : Moves) {dir : Form}
    (clean : dir.Clean base) (name : CString) :
    ∃ s', tryLoadPn fs moves s dir name =
        .ok (s', [pnPath (dir.text base) name], specTryLoadPn fs (dir.text base) name) ∧
      Keeps base s' := by
  obtain ⟨s₁, n, given, temp₁⟩ := keeps.stringify clean.scope clean.fresh
  obtain ⟨s₂, appended, temp₂⟩ := temp₁.appendAll moves [ascii "/", name.bytes, ascii ".pn"]
  rw [flatten_pnPath] at temp₂
  obtain ⟨s₃, taken, keeps₃⟩ := temp₂.strCStr (not_mem_pnPath clean.no_nul name)
  refine ⟨s₃, ?_, keeps₃⟩
  simp only [tryLoadPn, given, appended, taken, specTryLoadPn]
  split_ifs <;> rfl

/-- `load_module` makes its path anew, whatever it gets. -/
theorem loadModule_spec {texts : List Text} (shows : Shows s texts) (sane : Sane s)
    (fs : FileSystem) {dir : Form} (scope : dir.InScope texts.length)
    (no_nul : 0 ∉ dir.text texts) (name : CString) :
    ∃ s' extra, loadModule fs s dir name =
        .ok (s', [dllPath (dir.text texts) name], specLoadModule fs (dir.text texts) name) ∧
      Sane s' ∧ Shows s' (texts ++ extra) := by
  obtain ⟨s₁, n, extra₁, given, sane₁, shows₁, found₁⟩ := shows.stringify sane scope
  obtain ⟨s₂, extra₂, taken, sane₂, shows₂⟩ := shows₁.strCStr sane₁ found₁ no_nul
  let path := dllPath (dir.text texts) name
  obtain ⟨sane₃, shows₃⟩ := shows₂.new sane₂ false (path ++ [0]) path.length (by simp)
  rw [List.take_left] at shows₃
  have last : (texts ++ extra₁ ++ extra₂ ++ [{ isConst := false, bytes := path }])[
      (strNewVprintf s₂ path).strs.length - 1]? = some { isConst := false, bytes := path } := by
    change (texts ++ extra₁ ++ extra₂ ++ [_])[(s₂.strs ++ [_]).length - 1]? = _
    simp [shows₂.length_eq]
  obtain ⟨s₄, extra₄, taken', sane₄, shows₄⟩ :=
    shows₃.strCStr sane₃ last (not_mem_dllPath no_nul name)
  rw [List.append_assoc, List.append_assoc, List.append_assoc] at shows₄
  have taken'' : strCStr (strNewVprintf s₂ path) ((strNewVprintf s₂ path).strs.length - 1) =
      .ok (s₄, some path) := taken'
  refine ⟨s₄, _, ?_, sane₄, shows₄⟩
  simp only [loadModule, given, taken]
  rw [← dllPath, taken'']
  simp only [specLoadModule]
  split_ifs <;> rfl

/-- Every directory up to the one in which the module is found is clean. -/
def ReachesClean (base : List Text) (fs : FileSystem) (name : CString) : List Form → Prop
  | [] => True
  | dir :: rest =>
      dir.Clean base ∧
        (specTryLoadPn fs (dir.text base) name = .missing →
          specLoadModule fs (dir.text base) name = .missing → ReachesClean base fs name rest)

theorem scanInc_spec (keeps : Keeps base s) (fs : FileSystem) (moves : Moves) (name : CString)
    {inc : List Form} (clean : ReachesClean base fs name inc) :
    ∃ s', scanInc fs moves name s inc = .ok (s', specScan fs name (inc.map (Form.text base))) ∧
      Keeps base s' := by
  induction inc generalizing s with
  | nil => exact ⟨s, rfl, keeps⟩
  | cons dir rest ih =>
      obtain ⟨clean_dir, clean_rest⟩ := clean
      obtain ⟨s₁, pn, keeps₁⟩ := tryLoadPn_spec keeps fs moves clean_dir name
      rw [scanInc, pn, List.map_cons, specScan]
      cases first : specTryLoadPn fs (dir.text base) name with
      | loaded path => exact ⟨s₁, rfl, keeps₁⟩
      | throws message => exact ⟨s₁, rfl, keeps₁⟩
      | missing =>
          obtain ⟨extra₁, shows₁⟩ := keeps₁.shows
          have text_eq : dir.text (base ++ extra₁) = dir.text base := Form.text_append clean_dir.scope
          obtain ⟨s₂, extra₂, dll, sane₂, shows₂⟩ := loadModule_spec shows₁ keeps₁.sane fs
            (clean_dir.scope.mono (by simp)) (by rw [text_eq]; exact clean_dir.no_nul) name
          rw [List.append_assoc] at shows₂
          have keeps₂ : Keeps base s₂ := ⟨sane₂, _, shows₂⟩
          rw [text_eq] at dll
          simp only [dll]
          cases second : specLoadModule fs (dir.text base) name with
          | loaded path => exact ⟨s₂, rfl, keeps₂⟩
          | throws message => exact ⟨s₂, rfl, keeps₂⟩
          | missing =>
              obtain ⟨s₃, scanned, keeps₃⟩ := ih keeps₂ (clean_rest first second)
              refine ⟨s₃, ?_, keeps₃⟩
              simp only [scanned]
              rfl

theorem listInc_spec {n : Nat} {bytes : List UInt8} (temp : Temp base s n bytes) (moves : Moves)
    {inc : List Form} (scope : ∀ dir ∈ inc, dir.InScope base.length) :
    ∃ s', listInc moves n s inc = .ok (s', .done) ∧
      Temp base s' n (bytes ++ (inc.map (Form.text base)).flatMap fun dir =>
        ascii "    - " ++ dir ++ ascii "\n") := by
  induction inc generalizing s bytes with
  | nil => exact ⟨s, rfl, by simpa using temp⟩
  | cons dir rest ih =>
      obtain ⟨s₁, indented, temp₁⟩ := temp.appendC (moves s) (ascii "    - ")
      obtain ⟨s₂, named, temp₂⟩ := temp₁.appendForm moves (scope dir List.mem_cons_self)
      obtain ⟨s₃, ended, temp₃⟩ := temp₂.appendC (moves s₂) (ascii "\n")
      obtain ⟨s₄, listed, temp₄⟩ :=
        ih temp₃ fun dir' found => scope dir' (List.mem_cons_of_mem _ found)
      have indented' : strAppendC (moves s) s n (.outside (ascii "    - ")) 6 = .ok (s₁, .done) :=
        indented
      have ended' : strAppendC (moves s₂) s₂ n (.outside (ascii "\n")) 1 = .ok (s₃, .done) :=
        ended
      refine ⟨s₄, ?_, by simpa using temp₄⟩
      rw [listInc, indented']
      simp only [named, ended']
      exact listed

/-- One `use`. -/
theorem use_spec (keeps : Keeps base s) (fs : FileSystem) (moves : Moves) (name : CString)
    {inc : List Form} (scope : ∀ dir ∈ inc, dir.InScope base.length)
    (clean : ReachesClean base fs name inc) :
    ∃ s', use fs moves inc s name = .ok (s', specUse (inc.map (Form.text base)) fs name) ∧
      Keeps base s' := by
  obtain ⟨s₁, scanned, keeps₁⟩ := scanInc_spec keeps fs moves name clean
  rw [use, scanned, specUse]
  cases specScan fs name (inc.map (Form.text base)) with
  | mk tried outcome =>
      cases outcome with
      | loaded path => exact ⟨s₁, rfl, keeps₁⟩
      | throws message => exact ⟨s₁, rfl, keeps₁⟩
      | missing =>
          have temp₁ := keeps₁.printf (ascii "Could not load module '" ++ name.bytes ++
            ascii "': no such module in:\n\n")
          obtain ⟨s₂, listed, temp₂⟩ :=
            listInc_spec temp₁ moves scope
          obtain ⟨extra, shows, found⟩ := temp₂.shows
          refine ⟨s₂, ?_, temp₂.keeps⟩
          simp only [listed, shows.bytes, found]
          rfl

/-- A `use` statement: the module and what the file system and `realloc` do. -/
structure Using where
  name : CString
  fs : FileSystem
  moves : Moves

/-- Every `use` tries the files of all directories in order, with the string forms that the
directories have at the beginning, and they are the same after it. -/
def UsesKeepForms (s : State) (inc : List Form) (uses : List Using) : Prop :=
  Follows (fun s u => use u.fs u.moves inc s u.name) (fun dirs u => (dirs, specUse dirs u.fs u.name))
    (fun s dirs => inc.map (formText s) = dirs) s (inc.map (formText s)) uses

/-- `Range#Str` leaves the string forms of the endpoints as they were. -/
def RangeKeepsForms (moves : Moves) (s : State) (min max : Form) : Prop :=
  ∃ s' answer, methRangeStr moves s min max = .ok (s', answer) ∧
    formText s' min = formText s min ∧ formText s' max = formText s max

def PairKeepsForms (moves : Moves) (s : State) (key value : Form) : Prop :=
  ∃ s' answer, methPairStr moves s key value = .ok (s', answer) ∧
    formText s' key = formText s key ∧ formText s' value = formText s value

/-- The `Str` method gives a string that its object holds and that may be written. -/
def GivesOwn (s : State) (form : Form) : Prop :=
  ∃ (string : Nat) (v : PoneString),
    form = .stored string ∧ s.strs[string]? = some v ∧ v.isConst = false

theorem Keeps.forms_eq (shows : Shows s base) {s' : State} (keeps : Keeps base s') {form : Form}
    (scope : form.InScope base.length) : Str.formText s' form = Str.formText s form := by
  rw [keeps.formText scope, shows.formText scope]

/-- Only the first `n` bytes that a pointer leads to matter. -/
theorem strAppendC_take (moved : Bool) (s : State) (i n : Nat) (bytes : List UInt8) :
    strAppendC moved s i (.outside bytes) n = strAppendC moved s i (.outside (bytes.take n)) n := by
  have read (mem : Nat → Option (List UInt8)) :
      (CharPtr.outside bytes).read mem n = (CharPtr.outside (bytes.take n)).read mem n := by
    simp [CharPtr.read, List.take_take]
  simp only [strAppendC, appendMutable, read]

/-- A copy of the string that the key gives is appended to. -/
theorem pairKeepsForms (sane : Sane s) (shows : Shows s base) (moves : Moves) {key value : Form}
    (scope : key.InScope base.length) (scope' : value.InScope base.length) :
    PairKeepsForms moves s key value := by
  obtain ⟨s₁, n, extra, given, sane₁, shows₁, found⟩ := shows.stringify sane scope
  have inside := (List.getElem?_eq_some_iff.mp found).1
  obtain ⟨sane₂, shows₂⟩ := shows₁.copy sane₁ inside
  have temp : Temp base (strCopy s₁ n) s₁.strs.length (bytesAt (base ++ extra) n) := by
    rw [shows₁.length_eq]
    exact Temp.new sane₂ (List.prefix_append ..) shows₂
  obtain ⟨s₃, appended, temp₃⟩ := temp.appendC (moves (strCopy s₁ n)) [61]
  obtain ⟨s₄, named, temp₄⟩ := temp₃.appendForm moves scope'
  have arrow : strAppendC (moves (strCopy s₁ n)) (strCopy s₁ n) s₁.strs.length
      (.outside (ascii "=>")) 1 = .ok (s₃, .done) := by
    rw [strAppendC_take]
    exact appended
  refine ⟨s₄, .done, ?_, temp₄.keeps.forms_eq shows scope, temp₄.keeps.forms_eq shows scope'⟩
  simp only [methPairStr, given, arrow, named]

theorem rangeKeepsForms_of_not_givesOwn (sane : Sane s) (shows : Shows s base) (moves : Moves)
    {min max : Form} (scope : min.InScope base.length) (scope' : max.InScope base.length)
    (foreign : ¬ GivesOwn s min) : RangeKeepsForms moves s min max := by
  have keeps : Keeps base s := ⟨sane, [], by simpa using shows⟩
  by_cases fresh : min.Fresh
  · obtain ⟨s₁, n, given, temp₁⟩ := keeps.stringify scope fresh
    obtain ⟨s₂, appended, temp₂⟩ := temp₁.appendC (moves s₁) (ascii "..")
    obtain ⟨s₃, named, temp₃⟩ := temp₂.appendForm moves scope'
    have dots : strAppendC (moves s₁) s₁ n (.outside (ascii "..")) 2 = .ok (s₂, .done) := appended
    refine ⟨s₃, .done, ?_, temp₃.keeps.forms_eq shows scope, temp₃.keeps.forms_eq shows scope'⟩
    simp only [methRangeStr, given, dots, named]
  · -- the string is a constant
    obtain ⟨s₁, n, v, given, found, const, keeps₁⟩ : ∃ s₁ n v, stringify s min = (s₁, n) ∧
        s₁.strs[n]? = some v ∧ v.isConst = true ∧ Keeps base s₁ := by
      cases min with
      | copyOf string => exact absurd trivial fresh
      | stored string =>
          obtain ⟨v, t, found, -⟩ := shows.get sane scope
          refine ⟨s, string, v, rfl, found, ?_, keeps⟩
          by_contra writable
          exact foreign ⟨string, v, rfl, found, eq_false_of_ne_true writable⟩
      | made isConst text =>
          obtain ⟨sane', shows'⟩ := shows.new sane isConst (text ++ [0]) text.length (by simp)
          exact ⟨_, _, _, rfl, List.getElem?_concat_length, eq_true_of_ne_false fresh,
            sane', _, shows'⟩
    refine ⟨s₁, .throws "You can't modify immutable string", ?_, keeps₁.forms_eq shows scope,
      keeps₁.forms_eq shows scope'⟩
    simp only [methRangeStr, given, strAppendC_const keeps₁.sane found const]

/-- A string that is held and may be written is longer afterwards. -/
theorem not_rangeKeepsForms_of_givesOwn (sane : Sane s) (shows : Shows s base) (moves : Moves)
    {min max : Form} (scope' : max.InScope base.length) (own : GivesOwn s min) :
    ¬ RangeKeepsForms moves s min max := by
  obtain ⟨i, v, rfl, found, writable⟩ := own
  rintro ⟨s', answer, done, kept, -⟩
  have inside : i < base.length := by
    rw [← shows.length_eq]
    exact (List.getElem?_eq_some_iff.mp found).1
  obtain ⟨v', t, found', found_t, const, -⟩ := shows.get sane inside
  rw [found] at found'
  cases found'
  obtain ⟨isConst, bytes⟩ := t
  obtain rfl : isConst = false := const.symm.trans writable
  obtain ⟨s₁, texts, dots, sane₁, shows₁, count, found₁⟩ :=
    shows.appendC_own sane found_t (moves s) (ascii "..")
  have dots' : strAppendC (moves s) s i (.outside (ascii "..")) 2 = .ok (s₁, .done) := dots
  simp only [methRangeStr, Str.stringify, dots'] at done
  obtain ⟨p, shown⟩ := shows₁.appendForm_own sane₁ found₁ (count.symm ▸ scope') done
  have before : content s i = some bytes := by
    rw [shows.bytes, found_t]
    rfl
  have longer := congrArg List.length kept
  simp [formText, shown, before, ascii] at longer

/-- A directory whose string is a constant or holds a NUL: nothing is tried. -/
theorem tryLoadPn_refused {texts : List Text} (shows : Shows s texts) (sane : Sane s)
    (fs : FileSystem) (moves : Moves) {dir : Form} (scope : dir.InScope texts.length)
    (name : CString) (refused : dir.isConst texts = true ∨ 0 ∈ dir.text texts) :
    ∃ s' message, tryLoadPn fs moves s dir name = .ok (s', [], .throws message) := by
  obtain ⟨s₁, n, extra, given, sane₁, shows₁, found⟩ := shows.stringify sane scope
  cases const : dir.isConst texts with
  | true =>
      obtain ⟨v, t, found_v, found_t, const_v, -⟩ :=
        shows₁.get sane₁ (List.getElem?_eq_some_iff.mp found).1
      rw [found] at found_t
      cases found_t
      refine ⟨s₁, ascii "You can't modify immutable string", ?_⟩
      simp only [tryLoadPn, given, appendAll,
        strAppendC_const sane₁ found_v (const_v.trans const)]
  | false =>
      rw [const] at found
      obtain ⟨s₂, texts₂, appended, sane₂, shows₂, found₂⟩ :=
        shows₁.appendAll_own sane₁ found moves [ascii "/", name.bytes, ascii ".pn"]
      have nul : 0 ∈ dir.text texts := refused.resolve_left (by simp [const])
      rw [flatten_pnPath] at found₂
      have inner : 0 ∈ (pnPath (dir.text texts) name).dropLast := by
        have ext : ascii ".pn" ≠ [] := by decide
        rw [pnPath, List.dropLast_append_of_ne_nil ext]
        simp [nul]
      have taken := shows₂.strCStr_nul found₂ inner
      refine ⟨s₂, ascii "You can't convert string to c-string. Since it contains \\0.", ?_⟩
      simp only [tryLoadPn, given, appended, taken]

/-- A string that the directory holds is the path afterwards. -/
theorem tryLoadPn_own {texts : List Text} (shows : Shows s texts) (sane : Sane s)
    (fs : FileSystem) (moves : Moves) {i : Nat} {bytes : List UInt8}
    (found : texts[i]? = some { isConst := false, bytes }) (no_nul : 0 ∉ bytes) (name : CString) :
    ∃ s' texts', tryLoadPn fs moves s (.stored i) name =
        .ok (s', [pnPath bytes name], specTryLoadPn fs bytes name) ∧
      Sane s' ∧ Shows s' texts' ∧
      texts'[i]? = some { isConst := false, bytes := pnPath bytes name } := by
  obtain ⟨s₁, texts₁, appended, sane₁, shows₁, found₁⟩ :=
    shows.appendAll_own sane found moves [ascii "/", name.bytes, ascii ".pn"]
  rw [flatten_pnPath] at found₁
  obtain ⟨s₂, extra, taken, sane₂, shows₂⟩ :=
    shows₁.strCStr sane₁ found₁ (not_mem_pnPath no_nul name)
  refine ⟨s₂, texts₁ ++ extra, ?_, sane₂, shows₂, ?_⟩
  · simp only [tryLoadPn, stringify, appended, taken, specTryLoadPn]
    split_ifs <;> rfl
  · rw [List.getElem?_append_left (List.getElem?_eq_some_iff.mp found₁).1, found₁]

theorem length_pnPath (dir : List UInt8) (name : CString) :
    (pnPath dir name).length = dir.length + name.bytes.length + 4 := by
  simp [pnPath, ascii]
  omega

theorem length_dllPath (dir : List UInt8) (name : CString) :
    (dllPath dir name).length = dir.length + name.bytes.length + 4 := by
  simp [dllPath, dllExt, ascii]
  omega

/-- Other paths are tried than should be, or the search ends and the string form of a directory has
changed. -/
def Strays (base : List Text) (fs : FileSystem) (name : CString) (inc : List Form) :
    Except Halt (State × List (List UInt8) × Outcome) → Prop
  | .error _ => True
  | .ok (s', tried, outcome) =>
      tried ≠ (specScan fs name (inc.map (Form.text base))).1 ∨
        outcome ≠ .missing ∧ ∃ dir ∈ inc, formText s' dir ≠ dir.text base

theorem specScan_second {fs : FileSystem} {name : CString} {dir : List UInt8}
    {rest : List (List UInt8)} (first : specTryLoadPn fs dir name = .missing) :
    (specScan fs name (dir :: rest)).1[1]? = some (dllPath dir name) := by
  rw [specScan, first]
  simp only
  cases specLoadModule fs dir name <;> rfl

/-- The first directory that is not clean. -/
theorem strays_head (keeps : Keeps base s) (fs : FileSystem) (moves : Moves) (name : CString)
    {dir : Form} {rest : List Form} (scope : dir.InScope base.length) (unclean : ¬ dir.Clean base) :
    Strays base fs name (dir :: rest) (scanInc fs moves name s (dir :: rest)) := by
  obtain ⟨extra, shows⟩ := keeps.shows
  have scope' : dir.InScope (base ++ extra).length := scope.mono (by simp)
  have text_eq : dir.text (base ++ extra) = dir.text base := Form.text_append scope
  have spec_tried : (specScan fs name ((dir :: rest).map (Form.text base))).1 ≠ [] := by
    rw [List.map_cons, specScan]
    split
    · split <;> simp
    · simp
  by_cases refused : dir.isConst (base ++ extra) = true ∨ 0 ∈ dir.text (base ++ extra)
  · obtain ⟨s₁, message, pn⟩ := tryLoadPn_refused shows keeps.sane fs moves scope' name refused
    rw [scanInc, pn]
    exact .inl spec_tried.symm
  · rw [not_or, text_eq, Form.isConst_append scope] at refused
    cases dir with
    | copyOf string => exact absurd ⟨scope, trivial, refused.2⟩ unclean
    | made isConst text => exact absurd ⟨scope, eq_false_of_ne_true refused.1, refused.2⟩ unclean
    | stored string =>
        have found : (base ++ extra)[string]? =
            some { isConst := false, bytes := bytesAt base string } := by
          have const := eq_false_of_ne_true refused.1
          rw [getElem?_eq_stored scope', Form.isConst_append scope, const, text_eq, Form.text]
        obtain ⟨s₁, texts₁, pn, sane₁, shows₁, found₁⟩ :=
          tryLoadPn_own shows keeps.sane fs moves found refused.2 name
        have scope₁ := (List.getElem?_eq_some_iff.mp found₁).1
        have changed : formText s₁ (.stored string) = pnPath (bytesAt base string) name := by
          have scope₁' : (Form.stored string).InScope texts₁.length := scope₁
          rw [shows₁.formText scope₁', Form.text, bytesAt_eq found₁]
        have differs : formText s₁ (.stored string) ≠ (Form.stored string).text base := by
          intro same
          rw [changed, Form.text] at same
          have := congrArg List.length same
          rw [length_pnPath] at this
          omega
        rw [scanInc, pn]
        cases first : specTryLoadPn fs (bytesAt base string) name with
        | loaded path => exact .inr ⟨by simp, _, List.mem_cons_self, differs⟩
        | throws message => exact .inr ⟨by simp, _, List.mem_cons_self, differs⟩
        | missing =>
            -- the directory of the second path is the first path
            have text₁ : (Form.stored string).text texts₁ = pnPath (bytesAt base string) name :=
              bytesAt_eq found₁
            have scope₁' : (Form.stored string).InScope texts₁.length := scope₁
            obtain ⟨s₂, extra₂, dll, -⟩ := loadModule_spec shows₁ sane₁ fs scope₁'
              (text₁ ▸ not_mem_pnPath refused.2 name) name
            rw [text₁] at dll
            have second (tried : List (List UInt8)) :
                [pnPath (bytesAt base string) name] ++
                  [dllPath (pnPath (bytesAt base string) name) name] ++ tried ≠
                (specScan fs name ((Form.stored string :: rest).map (Form.text base))).1 := by
              intro same
              have at_one := congrArg (·[1]?) same
              rw [List.map_cons] at at_one
              simp only [specScan_second (show specTryLoadPn fs ((Form.stored string).text base) name
                = .missing from first)] at at_one
              have := congrArg List.length (Option.some.inj at_one)
              rw [length_dllPath, length_pnPath, length_dllPath, Form.text] at this
              omega
            simp only [dll]
            cases specLoadModule fs (pnPath (bytesAt base string) name) name with
            | loaded path => exact .inl (second [])
            | throws message => exact .inl (second [])
            | missing =>
                simp only
                cases scanInc fs moves name s₂ rest with
                | error halt => trivial
                | ok result => exact .inl (second _)

theorem strays_of_not_reachesClean (keeps : Keeps base s) (fs : FileSystem) (moves : Moves)
    (name : CString) {inc : List Form} (scope : ∀ dir ∈ inc, dir.InScope base.length)
    (unclean : ¬ ReachesClean base fs name inc) :
    Strays base fs name inc (scanInc fs moves name s inc) := by
  induction inc generalizing s with
  | nil => exact absurd trivial unclean
  | cons dir rest ih =>
      by_cases clean : dir.Clean base
      · rw [ReachesClean, not_and] at unclean
        have missed := unclean clean
        push Not at missed
        obtain ⟨first, second, unclean_rest⟩ := missed
        obtain ⟨s₁, pn, keeps₁⟩ := tryLoadPn_spec keeps fs moves clean name
        obtain ⟨extra₁, shows₁⟩ := keeps₁.shows
        have text_eq : dir.text (base ++ extra₁) = dir.text base := Form.text_append clean.scope
        obtain ⟨s₂, extra₂, dll, sane₂, shows₂⟩ := loadModule_spec shows₁ keeps₁.sane fs
          (clean.scope.mono (by simp)) (by rw [text_eq]; exact clean.no_nul) name
        rw [List.append_assoc] at shows₂
        rw [text_eq] at dll
        have strays := ih ⟨sane₂, _, shows₂⟩
          (fun dir' found => scope dir' (List.mem_cons_of_mem _ found)) unclean_rest
        rw [scanInc, pn, first]
        simp only [dll, second]
        cases scanned : scanInc fs moves name s₂ rest with
        | error halt => trivial
        | ok result =>
            obtain ⟨s₃, tried, outcome⟩ := result
            rw [scanned] at strays
            rcases strays with other | ⟨ended, dir', found, changed⟩
            · refine .inl fun same => other ?_
              rw [List.map_cons, specScan, first] at same
              simp only [second] at same
              exact List.append_cancel_left same
            · exact .inr ⟨ended, dir', List.mem_cons_of_mem _ found, changed⟩
      · exact strays_head keeps fs moves name (scope dir List.mem_cons_self) clean

/-- The message behind a search that finds nothing does not change what has been tried. -/
theorem use_of_scan {fs : FileSystem} {moves : Moves} {name : CString} {inc : List Form}
    {s₁ s' : State} {tried : List (List UInt8)} {outcome : Outcome}
    {result : List (List UInt8) × Outcome}
    (scanned : scanInc fs moves name s inc = .ok (s₁, tried, outcome))
    (done : use fs moves inc s name = .ok (s', result)) :
    result.1 = tried ∧ (outcome ≠ .missing → s' = s₁) := by
  rw [use, scanned] at done
  cases outcome with
  | loaded path =>
      cases done
      exact ⟨rfl, fun _ => rfl⟩
  | throws message =>
      cases done
      exact ⟨rfl, fun _ => rfl⟩
  | missing =>
      refine ⟨?_, fun ended => absurd rfl ended⟩
      simp only at done
      split at done
      · cases done
      · cases done
        rfl
      · split at done
        · cases done
        · cases done
          rfl

/-- A `use` does what it should exactly when every directory that it comes to is clean. -/
theorem use_iff (keeps : Keeps base s) (fs : FileSystem) (moves : Moves) (name : CString)
    {inc : List Form} (scope : ∀ dir ∈ inc, dir.InScope base.length) :
    Agrees (fun s' dirs => inc.map (formText s') = dirs)
        (inc.map (Form.text base), specUse (inc.map (Form.text base)) fs name)
        (use fs moves inc s name) ↔
      ReachesClean base fs name inc := by
  constructor
  · rintro ⟨s', done, kept⟩
    by_contra unclean
    have strays := strays_of_not_reachesClean keeps fs moves name scope unclean
    have tried_eq : (specUse (inc.map (Form.text base)) fs name).1 =
        (specScan fs name (inc.map (Form.text base))).1 := by
      rw [specUse]
      split
      · next same => rw [same]
      · rfl
    cases scanned : scanInc fs moves name s inc with
    | error halt =>
        rw [use, scanned] at done
        cases done
    | ok result =>
        obtain ⟨s₁, tried, outcome⟩ := result
        obtain ⟨same, same_state⟩ := use_of_scan scanned done
        rw [scanned] at strays
        rcases strays with other | ⟨ended, dir, found, changed⟩
        · exact other (same.symm.trans tried_eq)
        · rw [← same_state ended] at changed
          exact changed (List.map_inj_left.mp kept dir found)
  · intro clean
    obtain ⟨s', done, keeps'⟩ := use_spec keeps fs moves name scope clean
    exact ⟨s', done, List.map_congr_left fun dir found => keeps'.formText (scope dir found)⟩

theorem usesKeepForms_iff (sane : Sane s) (shows : Shows s base) {inc : List Form}
    (scope : ∀ dir ∈ inc, dir.InScope base.length) (uses : List Using) :
    UsesKeepForms s inc uses ↔ ∀ u ∈ uses, ReachesClean base u.fs u.name inc := by
  have forms (s' : State) (keeps : Keeps base s') :
      inc.map (formText s') = inc.map (Form.text base) :=
    List.map_congr_left fun dir found => keeps.formText (scope dir found)
  have keeps : Keeps base s := ⟨sane, [], by simpa using shows⟩
  rw [UsesKeepForms, forms s keeps]
  clear sane shows
  induction uses generalizing s with
  | nil => exact iff_of_true (fun k => by rw [List.take_nil]; exact ⟨s, rfl, forms s keeps⟩) nofun
  | cons u rest ih =>
      refine Iff.trans (Simulation.follows_cons_iff (forms s keeps)) ?_
      rw [use_iff keeps u.fs u.moves u.name scope, List.forall_mem_cons]
      refine and_congr_right fun clean => ?_
      obtain ⟨s', done, keeps'⟩ := use_spec keeps u.fs u.moves u.name scope clean
      refine Iff.trans ?_ (ih keeps')
      constructor
      · intro follows
        exact follows s' _ done
      · intro follows s'' answer done'
        rw [done] at done'
        cases done'
        exact follows

/-- The string forms of directories are kept, and the files looked for, exactly when every directory
that a `use` comes to gives a new string; `Range#Str` keeps the string forms exactly when the lower
endpoint does not give a string of its own; `Pair#Str` always does. -/
theorem stringForms_iff (reach : Reachable s) (shows : Shows s base) :
    (∀ inc : List Form, (∀ dir ∈ inc, dir.InScope base.length) → ∀ uses : List Using,
      (UsesKeepForms s inc uses ↔ ∀ u ∈ uses, ReachesClean base u.fs u.name inc)) ∧
    (∀ (moves : Moves) (min max : Form), min.InScope base.length → max.InScope base.length →
      (RangeKeepsForms moves s min max ↔ ¬ GivesOwn s min)) ∧
    (∀ (moves : Moves) (key value : Form), key.InScope base.length → value.InScope base.length →
      PairKeepsForms moves s key value) := by
  have sane := reach.sane
  refine ⟨fun inc scope uses => usesKeepForms_iff sane shows scope uses,
    fun moves min max scope scope' => ⟨fun keeps own => ?_, fun foreign => ?_⟩,
    fun moves key value scope scope' => pairKeepsForms sane shows moves scope scope'⟩
  · exact not_rangeKeepsForms_of_givesOwn sane shows moves scope' own keeps
  · exact rangeKeepsForms_of_not_givesOwn sane shows moves scope scope' foreign

/-- A program with the string `t`. -/
def oneString : State := strNewStrdup start [116]

theorem reachable_oneString : Reachable oneString := by
  have made : step start false (.newStrdup [116]) = .ok (oneString, .done) := rfl
  have valid : Op.InDomain [] (.newStrdup [116]) := trivial
  exact .step .start shows_start valid made

theorem shows_oneString : Shows oneString [{ isConst := false, bytes := [116] }] :=
  (shows_start.new sane_start false ([116] ++ [0]) 1 (by simp)).2

/-- `use A` where there are no files -/
def useA : Using where
  name := { bytes := [65], no_nul := by decide }
  fs := { opens := fun _ => false, stats := fun _ => false, strerror := fun _ => [] }
  moves := fun _ => false

/-- A string in `$*INC`. -/
theorem stringForms_iff_string : UsesKeepForms oneString [.copyOf 0] [useA, useA] := by
  refine ((stringForms_iff reachable_oneString shows_oneString).1 [.copyOf 0] ?_ _).mpr ?_
  · intro dir found
    rw [List.mem_singleton.mp found]
    exact Nat.zero_lt_one
  · intro u found
    have scope : (Form.copyOf 0).InScope 1 := Nat.zero_lt_one
    refine ⟨⟨scope, trivial, ?_⟩, fun _ _ => trivial⟩
    simp [Form.text, bytesAt]

/-- A `Path` in `$*INC`, which gives the string that it holds. -/
theorem path_in_inc_changes :
    ¬ ∀ (s : State) (base : List Text), Reachable s → Shows s base → ∀ inc : List Form,
      (∀ dir ∈ inc, dir.InScope base.length) → ∀ uses : List Using, UsesKeepForms s inc uses := by
  intro holds
  have scope : ∀ dir ∈ [Form.stored 0], dir.InScope 1 := by
    intro dir found
    rw [List.mem_singleton.mp found]
    exact Nat.zero_lt_one
  have keeps := holds oneString _ reachable_oneString shows_oneString _ scope [useA, useA]
  have reaches := (usesKeepForms_iff reachable_oneString.sane shows_oneString scope _).mp keeps
  exact (reaches useA List.mem_cons_self).1.fresh

end Str
end Pone
