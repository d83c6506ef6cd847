import Mathlib.Data.Int.Init
import Mathlib.Logic.Function.Basic
import Pone.Execution

/-!
# The slots of the handler stack

The three arrays of `exc.c`, with the registration that has written each slot.  Slot 0 is filled by
hand: `main` writes its `jmp_buf` only, `thread_start` also its lex, and nobody its number of callers.
-/

namespace Pone
namespace Try
namespace Handlers

/-- What a slot of an array holds and the registration that has written it. -/
structure Slot (α : Type) where
  registration : Nat
  value : α
  deriving DecidableEq

/-- The handler stack of a world, and of the rest what it saves.  `none` was never written. -/
structure World where
  lex : Option Nat
  /-- `pone_ary_size(world->caller_stack)`. -/
  callers : Nat
  /-- The registration whose `setjmp` has filled the `jmp_buf`. -/
  errHandlers : Int → Option Nat
  errHandlerLexs : Int → Option (Slot (Option Nat))
  errHandlerCallers : Int → Option (Slot Nat)
  errHandlerIdx : Int
  errHandlerMax : Int
  /-- The number of registrations so far. -/
  registered : Nat
  /-- The registrations whose `setjmp` is in an active function, the innermost first. -/
  active : List Nat

inductive Event where
  /-- Scopes and calls between the registrations. -/
  | setLex (lex : Option Nat)
  | setCallers (callers : Nat)
  /-- `pone_try` registers its handler. -/
  | enter
  /-- The code of the innermost `pone_try` returns. -/
  | leave
  /-- `pone_throw`; the arguments are found in slots that were never written. -/
  | throw (lex : Option Nat) (callers : Nat)
  deriving DecidableEq

/-- The outermost `setjmp`. -/
inductive Entry where
  | main
  | threadStart
  deriving DecidableEq

/-- The state after the outermost `setjmp`. -/
def start (entry : Entry) (lex : Option Nat) : World where
  lex := lex
  callers := 0
  errHandlers := Function.update (fun _ => none) 0 (some 0)
  errHandlerLexs :=
    match entry with
    | .main => fun _ => none
    | .threadStart => Function.update (fun _ => none) 0 (some ⟨0, lex⟩)
  errHandlerCallers := fun _ => none
  errHandlerIdx := 0
  errHandlerMax := 10
  registered := 1
  active := [0]

/-- `err_handler_max` after the test at the head of `pone_exc_handler_push`. -/
def grownMax (w : World) : Int :=
  if w.errHandlerIdx = w.errHandlerMax then 2 * w.errHandlerMax else w.errHandlerMax

/-- `realloc` where the arrays grow: the new slots were never written. -/
def grown (w : World) {α : Type} (slots : Int → Option α) : Int → Option α :=
  if w.errHandlerIdx = w.errHandlerMax then fun i => if i < w.errHandlerMax then slots i else none
  else slots

/-- `pone_exc_handler_push` and the `setjmp` of `pone_try`. -/
def excHandlerPush (w : World) : World :=
  let idx := w.errHandlerIdx + 1
  { w with
    errHandlers := Function.update (grown w w.errHandlers) idx (some w.registered)
    errHandlerLexs := Function.update (grown w w.errHandlerLexs) idx (some ⟨w.registered, w.lex⟩)
    errHandlerCallers :=
      Function.update (grown w w.errHandlerCallers) idx (some ⟨w.registered, w.callers⟩)
    errHandlerIdx := idx
    errHandlerMax := grownMax w
    registered := w.registered + 1
    active := w.registered :: w.active }

/-- `pone_throw`, which jumps to the `setjmp` of the current slot.  There is no step to a `setjmp` that
never was or whose function has returned. -/
def excThrow (w : World) (lex : Option Nat) (callers : Nat) : Option World :=
  let idx := w.errHandlerIdx
  match w.errHandlers idx with
  | some registration =>
      if registration ∈ w.active then
        some { w with
          lex := ((w.errHandlerLexs idx).map Slot.value).getD lex
          callers := min w.callers (((w.errHandlerCallers idx).map Slot.value).getD callers)
          errHandlerIdx := idx - 1
          active := (w.active.dropWhile (· ≠ registration)).tail }
      else none
  | none => none

/-- `pone_exc_handler_pop`, at the end of a `pone_try`; the outermost `setjmp` belongs to none. -/
def excHandlerPop (w : World) : Option World :=
  match w.active with
  | registration :: outer =>
      if registration = 0 then none
      else some { w with errHandlerIdx := w.errHandlerIdx - 1, active := outer }
  | [] => none

def step (w : World) : Event → Option World
  | .setLex lex => some { w with lex := lex }
  | .setCallers callers => some { w with callers := callers }
  | .enter => some (excHandlerPush w)
  | .leave => excHandlerPop w
  | .throw lex callers => excThrow w lex callers

/-- The slots that a step writes and reads are inside of the arrays, and those read were written in all
three arrays by the innermost active registration. -/
def SlotsValid (w : World) : Event → Prop
  | .enter => 0 ≤ w.errHandlerIdx + 1 ∧ w.errHandlerIdx + 1 < grownMax w
  | .throw _ _ =>
      0 ≤ w.errHandlerIdx ∧ w.errHandlerIdx < w.errHandlerMax ∧
        ∃ registration ∈ w.active.head?, w.errHandlers w.errHandlerIdx = some registration ∧
          (w.errHandlerLexs w.errHandlerIdx).map Slot.registration = some registration ∧
          (w.errHandlerCallers w.errHandlerIdx).map Slot.registration = some registration
  | .setLex _ | .setCallers _ | .leave => True

/-- A step touches valid slots, and the code that runs after it may throw. -/
def Safe (w : World) (e : Event) : Prop :=
  SlotsValid w e ∧ ∀ next, step w e = some next → 0 ≤ next.errHandlerIdx

/-- A registration does not find the last slot in use, and a `pone_try` is active at each throw. -/
def Fits (w : World) : Event → Prop
  | .enter => w.errHandlerIdx + 1 ≠ w.errHandlerMax
  | .throw _ _ => 0 < w.errHandlerIdx
  | .setLex _ | .setCallers _ | .leave => True

/-- The slots up to an index belong to the active registrations. -/
inductive Filled (w : World) : List Nat → Int → Prop where
  | base (handler : w.errHandlers 0 = some 0) (callers : w.errHandlerCallers 0 = none) :
      Filled w [0] 0
  | attempt {outer : List Nat} {idx : Int} {registration : Nat} (below : Filled w outer idx)
      (inner : registration ≠ 0) (handler : w.errHandlers (idx + 1) = some registration)
      (lex : (w.errHandlerLexs (idx + 1)).map Slot.registration = some registration)
      (callers : (w.errHandlerCallers (idx + 1)).map Slot.registration = some registration) :
      Filled w (registration :: outer) (idx + 1)

structure Invariant (w : World) : Prop where
  filled : Filled w w.active w.errHandlerIdx
  within : w.errHandlerIdx < w.errHandlerMax
  registered : w.registered ≠ 0

variable {w w' : World} {outer : List Nat} {idx : Int}

theorem Filled.nonneg (filled : Filled w outer idx) : 0 ≤ idx := by
  induction filled with
  | base => exact Int.le_refl 0
  | attempt _ _ _ _ _ ih => omega

/-- Only the slots up to the index count. -/
theorem Filled.stable (filled : Filled w outer idx)
    (handlers : ∀ i ≤ idx, w'.errHandlers i = w.errHandlers i)
    (lexs : ∀ i ≤ idx, w'.errHandlerLexs i = w.errHandlerLexs i)
    (callers : ∀ i ≤ idx, w'.errHandlerCallers i = w.errHandlerCallers i) : Filled w' outer idx := by
  induction filled with
  | base handler unset =>
      refine .base ?_ ?_
      · rw [handlers 0 (Int.le_refl 0), handler]
      · rw [callers 0 (Int.le_refl 0), unset]
  | attempt below inner handler lex size ih =>
      have lower {i idx : Int} (within : i ≤ idx) : i ≤ idx + 1 := by omega
      refine .attempt (ih ?_ ?_ ?_) inner ?_ ?_ ?_
      · exact fun i within => handlers i (lower within)
      · exact fun i within => lexs i (lower within)
      · exact fun i within => callers i (lower within)
      · rw [handlers _ (Int.le_refl _), handler]
      · rw [lexs _ (Int.le_refl _), lex]
      · rw [callers _ (Int.le_refl _), size]

/-- A handler other than the outermost. -/
theorem Filled.inner (filled : Filled w outer idx) (positive : 0 < idx) :
    ∃ registration rest, outer = registration :: rest ∧ Filled w rest (idx - 1) ∧
      w.errHandlers idx = some registration ∧
      (w.errHandlerLexs idx).map Slot.registration = some registration ∧
      (w.errHandlerCallers idx).map Slot.registration = some registration := by
  cases filled with
  | base => exact absurd positive (Int.lt_irrefl 0)
  | @attempt rest below_idx registration below inner handler lex callers =>
      refine ⟨registration, rest, rfl, ?_, handler, lex, callers⟩
      rwa [Int.add_sub_cancel]

/-- Slot 0 has no number of callers. -/
theorem Filled.outermost (filled : Filled w outer idx) (last : ¬ 0 < idx) :
    idx = 0 ∧ outer = [0] ∧ w.errHandlerCallers 0 = none := by
  cases filled with
  | base _ callers => exact ⟨rfl, rfl, callers⟩
  | attempt below =>
      have := below.nonneg
      omega

theorem start_invariant (entry : Entry) (lex : Option Nat) : Invariant (start entry lex) :=
  ⟨.base rfl rfl, show (0 : Int) < 10 by decide, Nat.one_ne_zero⟩

/-! ## Steps -/

/-- A registration below the last slot leaves the arrays as they are. -/
private theorem not_full (invariant : Invariant w) : w.errHandlerIdx ≠ w.errHandlerMax :=
  Int.ne_of_lt invariant.within

private theorem push_invariant (invariant : Invariant w)
    (free : w.errHandlerIdx + 1 ≠ w.errHandlerMax) : Invariant (excHandlerPush w) := by
  have full := not_full invariant
  have within := invariant.within
  have kept {α : Type} (slots : Int → Option α) (new : Option α) : ∀ i ≤ w.errHandlerIdx,
      Function.update (grown w slots) (w.errHandlerIdx + 1) new i = slots i := by
    intro i below
    rw [grown, if_neg full]
    exact Function.update_of_ne (by omega) _ _
  refine ⟨.attempt (invariant.filled.stable (kept _ _) (kept _ _) (kept _ _)) invariant.registered
    ?_ ?_ ?_, ?_, ?_⟩
  · exact Function.update_self _ _ _
  · simp only [excHandlerPush, Function.update_self, Option.map_some]
  · simp only [excHandlerPush, Function.update_self, Option.map_some]
  · simp only [excHandlerPush, grownMax, if_neg full]
    omega
  · exact Nat.succ_ne_zero _

private theorem pop_invariant (invariant : Invariant w) (popped : excHandlerPop w = some w') :
    Invariant w' := by
  have filled := invariant.filled
  simp only [excHandlerPop] at popped
  split at popped
  case h_1 registration outer active =>
    split at popped
    · cases popped
    case isFalse inner =>
      cases popped
      rw [active] at filled
      have positive : 0 < w.errHandlerIdx := by
        by_contra last
        obtain ⟨-, same, -⟩ := filled.outermost last
        cases same
        exact inner rfl
      obtain ⟨_, rest, same, below, -⟩ := filled.inner positive
      cases same
      exact ⟨below.stable (fun _ _ => rfl) (fun _ _ => rfl) fun _ _ => rfl,
        Int.lt_trans (Int.sub_one_lt_of_le (Int.le_refl _)) invariant.within, invariant.registered⟩
  · cases popped

/-- A throw that a `pone_try` catches ends that `pone_try`. -/
private theorem throw_invariant {lex : Option Nat} {callers : Nat} (invariant : Invariant w)
    (caught : 0 < w.errHandlerIdx) (thrown : excThrow w lex callers = some w') : Invariant w' := by
  obtain ⟨registration, rest, active, below, handler, -, -⟩ := invariant.filled.inner caught
  simp only [excThrow, handler, active, List.mem_cons_self, if_true] at thrown
  cases thrown
  refine ⟨?_, Int.lt_trans (Int.sub_one_lt_of_le (Int.le_refl _)) invariant.within,
    invariant.registered⟩
  simp only [ne_eq, not_true_eq_false, decide_false, Bool.false_eq_true, not_false_eq_true,
    List.dropWhile_cons_of_neg, List.tail_cons]
  exact below.stable (fun _ _ => rfl) (fun _ _ => rfl) fun _ _ => rfl

theorem invariant_step {e : Event} (invariant : Invariant w) (fits : Fits w e)
    (taken : step w e = some w') : Invariant w' := by
  cases e with
  | setLex lex =>
      cases taken
      exact ⟨invariant.filled.stable (fun _ _ => rfl) (fun _ _ => rfl) fun _ _ => rfl,
        invariant.within, invariant.registered⟩
  | setCallers callers =>
      cases taken
      exact ⟨invariant.filled.stable (fun _ _ => rfl) (fun _ _ => rfl) fun _ _ => rfl,
        invariant.within, invariant.registered⟩
  | enter =>
      cases taken
      exact push_invariant invariant fits
  | leave => exact pop_invariant invariant taken
  | throw lex callers => exact throw_invariant invariant fits taken

/-- A step is safe exactly if it fits. -/
theorem safe_iff_fits {e : Event} (invariant : Invariant w) : Safe w e ↔ Fits w e := by
  have nonneg := invariant.filled.nonneg
  have within := invariant.within
  constructor
  · rintro ⟨valid, -⟩
    cases e with
    | enter =>
        simp only [SlotsValid, grownMax, if_neg (not_full invariant)] at valid
        exact Int.ne_of_lt valid.2
    | throw lex callers =>
        obtain ⟨-, -, registration, -, -, -, saved⟩ := valid
        by_contra last
        obtain ⟨zero, -, unset⟩ := invariant.filled.outermost last
        rw [zero, unset] at saved
        cases saved
    | setLex | setCallers | leave => trivial
  · intro fits
    refine ⟨?_, fun next taken => (invariant_step invariant fits taken).filled.nonneg⟩
    cases e with
    | enter =>
        simp only [Fits] at fits
        simp only [SlotsValid, grownMax, if_neg (not_full invariant)]
        omega
    | throw lex callers =>
        obtain ⟨registration, rest, active, -, handler, saved_lex, saved_callers⟩ :=
          invariant.filled.inner fits
        exact ⟨nonneg, within, registration, by rw [active]; rfl, handler, saved_lex, saved_callers⟩
    | setLex | setCallers | leave => trivial

/-- In every run from `main` or `thread_start`, all slots touched are valid and the index never gets
negative exactly when no registration finds the last slot in use and each throw is caught. -/
theorem handlers_safe_iff (entry : Entry) (lex : Option Nat) (events : List Event) :
    Execution.Along step Safe (start entry lex) events ↔
      Execution.Along step Fits (start entry lex) events :=
  Execution.along_iff_along invariant_step safe_iff_fits (start_invariant entry lex)

/-- An exception that nobody catches: its throw reads a slot that was never written, and the default
handler runs with index -1.  The tenth nested `pone_try` writes slot 10 of 10. -/
theorem handlers_unsafe :
    ¬ Execution.Along step Safe (start .main (some 0)) [.throw none 0] ∧
      ((step (start .main (some 0)) (.throw none 0)).map World.errHandlerIdx) = some (-1) ∧
      ¬ Execution.Along step Safe (start .threadStart (some 0)) (List.replicate 10 .enter) := by
  refine ⟨?_, rfl, ?_⟩
  · rintro ⟨⟨⟨-, -, _, -, -, -, saved⟩, -⟩, -⟩
    cases saved
  · rw [Execution.along_iff_along invariant_step safe_iff_fits (start_invariant _ _)]
    intro along
    have split : Execution.Along step Fits (start .threadStart (some 0))
        (List.replicate 9 Event.enter ++ [.enter]) := along
    have last := (Execution.along_append rfl split).2.1
    exact last rfl

end Handlers
end Try
end Pone
