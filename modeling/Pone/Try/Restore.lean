import Pone.Try.Model

/-!
# `pone_try` restores the interpreter

`Layers` relates the C stack above a given `pone_try` to the handler stack and to the caller stack:
one handler entry for each active `pone_try`, one row for each active `pone_code_vcall`.  A step
keeps the layers or leaves the given `pone_try`, and then everything is as it was at its call.
-/

namespace Pone
namespace Try

variable {ρ ν : Type*} {nil : ν}

/-- The C stack `stack`, with handler index `idx` and caller rows `rows`, is built of calls and
tries on top of the `pone_try` that was called in the world `entry`; its own call saved `saved`. -/
inductive Layers (entry : World ρ ν) (base : List ρ) (saved : Option (Option Nat))
    (w : World ρ ν) : List (Frame ρ) → Int → List ρ → Prop where
  | first (row : ρ) (depth : w.errHandlers (entry.errHandlerIdx + 1) = entry.cstack.length)
      (lex : w.errHandlerLexs (entry.errHandlerIdx + 1) = entry.lex)
      (callers : w.errHandlerCallers (entry.errHandlerIdx + 1) = base.length) :
      Layers entry base saved w (.vcall row saved :: .attempt :: entry.cstack)
        (entry.errHandlerIdx + 1) (base ++ [row])
  | vcall (row : ρ) (origLex : Option (Option Nat)) {stack : List (Frame ρ)} {idx : Int}
      {rows : List ρ} (below : Layers entry base saved w stack idx rows) :
      Layers entry base saved w (.vcall row origLex :: stack) idx (rows ++ [row])
  | attempt (row : ρ) (origLex : Option (Option Nat)) {stack : List (Frame ρ)} {idx : Int}
      {rows : List ρ} (below : Layers entry base saved w stack idx rows)
      (depth : w.errHandlers (idx + 1) = stack.length)
      (callers : w.errHandlerCallers (idx + 1) = rows.length) :
      Layers entry base saved w (.vcall row origLex :: .attempt :: stack) (idx + 1) (rows ++ [row])

variable {entry w : World ρ ν} {base : List ρ} {saved : Option (Option Nat)}

/-- The layers depend on the handler entries up to the current index only. -/
theorem Layers.stable {stack : List (Frame ρ)} {idx : Int} {rows : List ρ}
    (layers : Layers entry base saved w stack idx rows) {w' : World ρ ν}
    (handlers : ∀ i ≤ idx, w'.errHandlers i = w.errHandlers i)
    (lexs : ∀ i ≤ idx, w'.errHandlerLexs i = w.errHandlerLexs i)
    (callers : ∀ i ≤ idx, w'.errHandlerCallers i = w.errHandlerCallers i) :
    Layers entry base saved w' stack idx rows := by
  induction layers with
  | first row depth lex size =>
      refine .first row ?_ ?_ ?_
      · rw [handlers _ (Int.le_refl _), depth]
      · rw [lexs _ (Int.le_refl _), lex]
      · rw [callers _ (Int.le_refl _), size]
  | vcall row origLex below ih => exact .vcall row origLex (ih handlers lexs callers)
  | attempt row origLex below depth size ih =>
      have lower {i idx : Int} (within : i ≤ idx) : i ≤ idx + 1 := by omega
      refine .attempt row origLex (ih ?_ ?_ ?_) ?_ ?_
      · exact fun i within => handlers i (lower within)
      · exact fun i within => lexs i (lower within)
      · exact fun i within => callers i (lower within)
      · rw [handlers _ (Int.le_refl _), depth]
      · rw [callers _ (Int.le_refl _), size]

theorem Layers.higher {stack : List (Frame ρ)} {idx : Int} {rows : List ρ}
    (layers : Layers entry base saved w stack idx rows) : entry.cstack.length < stack.length := by
  induction layers with
  | first row =>
      simp only [List.length_cons]
      omega
  | vcall row origLex below ih =>
      rw [List.length_cons]
      omega
  | attempt row origLex below _ _ ih =>
      simp only [List.length_cons]
      omega

theorem Layers.head {stack : List (Frame ρ)} {idx : Int} {rows : List ρ}
    (layers : Layers entry base saved w stack idx rows) :
    ∃ row origLex below, stack = .vcall row origLex :: below := by
  cases layers <;> exact ⟨_, _, _, rfl⟩

theorem Layers.rows_eq {stack : List (Frame ρ)} {idx : Int} {rows : List ρ}
    (layers : Layers entry base saved w stack idx rows) (counted : base = activeRows entry.cstack) :
    rows = activeRows stack := by
  induction layers with
  | first => simp [activeRows, counted]
  | vcall row origLex below ih => rw [activeRows, ih]
  | attempt row origLex below _ _ ih => rw [activeRows, activeRows, ih]

/-- What the innermost handler entry describes: the given `pone_try`, or a later one whose layers
are still there. -/
theorem Layers.innermost {stack : List (Frame ρ)} {idx : Int} {rows : List ρ}
    (layers : Layers entry base saved w stack idx rows) :
    ∃ inner target kept, stack = inner ++ target ∧ w.errHandlers idx = target.length ∧
      w.errHandlerCallers idx = kept.length ∧ kept <+: rows ∧
      ((target = entry.cstack ∧ kept = base ∧ idx = entry.errHandlerIdx + 1 ∧
          w.errHandlerLexs idx = entry.lex) ∨
        Layers entry base saved w target (idx - 1) kept) := by
  induction layers with
  | first row depth lex callers =>
      exact ⟨[.vcall row saved, .attempt], entry.cstack, base, rfl, depth, callers,
        List.prefix_append base [row], .inl ⟨rfl, rfl, rfl, lex⟩⟩
  | @vcall row origLex stack idx rows below ih =>
      obtain ⟨inner, target, kept, stack_eq, depth, callers, within, which⟩ := ih
      refine ⟨.vcall row origLex :: inner, target, kept, ?_, depth, callers, ?_, which⟩
      · rw [stack_eq, List.cons_append]
      · exact within.trans (List.prefix_append rows [row])
  | @attempt row origLex stack idx rows below depth callers ih =>
      refine ⟨[.vcall row origLex, .attempt], stack, rows, rfl, depth, callers,
        List.prefix_append rows [row], .inr ?_⟩
      rwa [show idx + 1 - 1 = idx by omega]

/-- The world runs inside the given `pone_try`. -/
def Inside (entry : World ρ ν) (base : List ρ) (saved : Option (Option Nat)) (w : World ρ ν) :
    Prop :=
  ∃ rows, w.callerStack = some rows ∧ Layers entry base saved w w.cstack w.errHandlerIdx rows

/-- The given `pone_try` has returned in the step from `w` to `w'`: the handler stack and the caller
stack are as at its call, and the lex is that of the handler or the one its own call had saved. -/
structure Restored (entry : World ρ ν) (base : List ρ) (saved : Option (Option Nat))
    (w : World ρ ν) (e : Event ρ ν) (w' : World ρ ν) : Prop where
  cstack : w'.cstack = entry.cstack
  idx : w'.errHandlerIdx = entry.errHandlerIdx
  lex : w'.lex = entry.lex ∨ (∃ val, e = .ret val) ∧ w'.lex = saved.getD w.lex
  callers : w'.callerStack = some base

/-- A collection that `pone_code_vcall` runs finds `world->caller_stack` on `tmpstack`. -/
def FindsCallerStack (w : World ρ ν) : Event ρ ν → Prop
  | .vcall _ _ | .attempt _ _ => w.gcRequested = true → .callerStack ∈ w.tmpstack
  | _ => True

instance (w : World ρ ν) : (e : Event ρ ν) → Decidable (FindsCallerStack w e)
  | .vcall _ _ | .attempt _ _ =>
      inferInstanceAs (Decidable (w.gcRequested = true → .callerStack ∈ w.tmpstack))
  | .pushScope _ | .popScope | .setLex _ | .alloc | .requestGc | .ret _ | .throw _ =>
      .isTrue trivial

/-- `pone_code_vcall` adds its frame and its row, and leaves the handler stack alone. -/
structure Called (w w' : World ρ ν) (row : ρ) (lex : Option Nat) : Prop where
  handlers : w'.errHandlers = w.errHandlers
  lexs : w'.errHandlerLexs = w.errHandlerLexs
  callersAt : w'.errHandlerCallers = w.errHandlerCallers
  idx : w'.errHandlerIdx = w.errHandlerIdx
  cstack : w'.cstack = .vcall row (lex.map fun _ => w.lex) :: w.cstack
  callers : w'.callerStack = w.callerStack.map (· ++ [row])

theorem codeVcall_called (w : World ρ ν) (row : ρ) (lex : Option Nat)
    (finds : w.gcRequested = true → .callerStack ∈ w.tmpstack) :
    Called w (codeVcall w row lex) row lex := by
  cases requested : w.gcRequested with
  | false =>
      cases lex <;> constructor <;> simp [codeVcall, requested, pushCaller, World.saveTmp]
  | true =>
      have kept := finds requested
      cases lex <;> constructor <;>
        simp [codeVcall, requested, pushCaller, World.saveTmp, gcRun, kept]

theorem excHandlerPush_eq_some {pushed : World ρ ν} (taken : excHandlerPush w = some pushed) :
    ∃ rows, w.callerStack = some rows ∧ pushed.callerStack = some rows ∧
      pushed.lex = w.lex ∧ pushed.gcRequested = w.gcRequested ∧ pushed.tmpstack = w.tmpstack ∧
      pushed.errHandlerIdx = w.errHandlerIdx + 1 ∧
      pushed.errHandlerLexs = Function.update w.errHandlerLexs (w.errHandlerIdx + 1) w.lex ∧
      pushed.errHandlerCallers =
        Function.update w.errHandlerCallers (w.errHandlerIdx + 1) rows.length ∧
      pushed.errHandlers =
        Function.update w.errHandlers (w.errHandlerIdx + 1) w.cstack.length := by
  cases counted : w.callerStack with
  | none => simp [excHandlerPush, counted] at taken
  | some rows =>
      simp only [excHandlerPush, counted] at taken
      split at taken
      · obtain rfl := Option.some.inj taken
        exact ⟨rows, rfl, rfl, rfl, rfl, rfl, rfl, rfl, rfl, rfl⟩
      · cases taken

/-- What `pone_try` has done when its code starts. -/
structure Attempted (w w' : World ρ ν) (row : ρ) (lex : Option Nat) (rows : List ρ) : Prop where
  before : w.callerStack = some rows
  handlers : w'.errHandlers =
    Function.update w.errHandlers (w.errHandlerIdx + 1) w.cstack.length
  lexs : w'.errHandlerLexs = Function.update w.errHandlerLexs (w.errHandlerIdx + 1) w.lex
  callersAt : w'.errHandlerCallers =
    Function.update w.errHandlerCallers (w.errHandlerIdx + 1) rows.length
  idx : w'.errHandlerIdx = w.errHandlerIdx + 1
  cstack : w'.cstack = .vcall row (lex.map fun _ => w.lex) :: .attempt :: w.cstack
  callers : w'.callerStack = some (rows ++ [row])

theorem excTry_attempted {w' : World ρ ν} {row : ρ} {lex : Option Nat}
    (finds : w.gcRequested = true → .callerStack ∈ w.tmpstack)
    (taken : excTry w row lex = some w') : ∃ rows, Attempted w w' row lex rows := by
  obtain ⟨pushed, push_taken, rfl⟩ := Option.map_eq_some_iff.mp taken
  obtain ⟨rows, before, callers, lex_eq, gc_eq, tmp_eq, idx, lexs, callersAt, handlers⟩ :=
    excHandlerPush_eq_some push_taken
  have called := codeVcall_called { pushed with cstack := .attempt :: w.cstack } row lex
    (by rwa [gc_eq, tmp_eq])
  refine ⟨rows, before, ?_, ?_, ?_, ?_, ?_, ?_⟩
  · rw [called.handlers, handlers]
  · rw [called.lexs, lexs]
  · rw [called.callersAt, callersAt]
  · rw [called.idx, idx]
  · rw [called.cstack, lex_eq]
  · rw [called.callers, callers, Option.map_some]

private theorem vcall_inside {row : ρ} {lex : Option Nat} (inside : Inside entry base saved w)
    (finds : w.gcRequested = true → .callerStack ∈ w.tmpstack) :
    Inside entry base saved (codeVcall w row lex) := by
  obtain ⟨rows, counted, layers⟩ := inside
  obtain ⟨handlers, lexs, callersAt, idx, cstack, callers⟩ := codeVcall_called w row lex finds
  refine ⟨rows ++ [row], by rw [callers, counted, Option.map_some], ?_⟩
  rw [cstack, idx]
  refine .vcall row _ (layers.stable ?_ ?_ ?_)
  · exact fun i _ => congrFun handlers i
  · exact fun i _ => congrFun lexs i
  · exact fun i _ => congrFun callersAt i

private theorem attempt_inside {w' : World ρ ν} {row : ρ} {lex : Option Nat}
    (inside : Inside entry base saved w) (finds : w.gcRequested = true → .callerStack ∈ w.tmpstack)
    (taken : excTry w row lex = some w') : Inside entry base saved w' := by
  obtain ⟨rows, counted, layers⟩ := inside
  obtain ⟨_, attempted⟩ := excTry_attempted finds taken
  obtain rfl := Option.some.inj (counted.symm.trans attempted.before)
  refine ⟨rows ++ [row], attempted.callers, ?_⟩
  rw [attempted.cstack, attempted.idx]
  -- the entries up to the old index are not written
  have lower {i : Int} (within : i ≤ w.errHandlerIdx) : i ≠ w.errHandlerIdx + 1 := by omega
  refine .attempt row _ (layers.stable ?_ ?_ ?_) ?_ ?_
  · intro i within
    rw [attempted.handlers, Function.update_of_ne (lower within)]
  · intro i within
    rw [attempted.lexs, Function.update_of_ne (lower within)]
  · intro i within
    rw [attempted.callersAt, Function.update_of_ne (lower within)]
  · rw [attempted.handlers, Function.update_self]
  · rw [attempted.callersAt, Function.update_self]

private theorem return_inside {w' : World ρ ν} {val : ν} (inside : Inside entry base saved w)
    (taken : codeReturn w val = some w') :
    Inside entry base saved w' ∨ Restored entry base saved w (.ret val) w' := by
  obtain ⟨rows, counted, layers⟩ := inside
  have popped (front : List ρ) (row : ρ) (split : rows = front ++ [row]) :
      w.callerStack.map List.dropLast = some front := by
    rw [counted, split, Option.map_some, List.dropLast_concat]
  generalize stack_eq : w.cstack = stack at layers
  generalize idx_eq : w.errHandlerIdx = idx at layers
  cases layers with
  | first row depth lex callers =>
      simp only [codeReturn, stack_eq] at taken
      obtain rfl := Option.some.inj taken
      refine .inr ⟨rfl, ?_, .inr ⟨⟨val, rfl⟩, rfl⟩, popped base row rfl⟩
      show w.errHandlerIdx - 1 = entry.errHandlerIdx
      omega
  | @vcall row origLex stack idx front below =>
      obtain ⟨next_row, next_lex, rest, rfl⟩ := below.head
      simp only [codeReturn, stack_eq] at taken
      obtain rfl := Option.some.inj taken
      refine .inl ⟨front, popped front row rfl, ?_⟩
      show Layers entry base saved _ (.vcall next_row next_lex :: rest) w.errHandlerIdx front
      rw [idx_eq]
      refine below.stable ?_ ?_ ?_ <;> exact fun _ _ => rfl
  | @attempt row origLex stack idx front below depth callers =>
      simp only [codeReturn, stack_eq] at taken
      obtain rfl := Option.some.inj taken
      refine .inl ⟨front, popped front row rfl, ?_⟩
      show Layers entry base saved _ stack (w.errHandlerIdx - 1) front
      rw [show w.errHandlerIdx - 1 = idx by omega]
      refine below.stable ?_ ?_ ?_ <;> exact fun _ _ => rfl

private theorem throw_inside {w' : World ρ ν} {val : ν} (inside : Inside entry base saved w)
    (taken : excThrow nil w val = some w') :
    w'.errvar = val ∧ w'.result = nil ∧
      (Inside entry base saved w' ∨ Restored entry base saved w (.throw val) w') := by
  obtain ⟨rows, counted, layers⟩ := inside
  obtain ⟨inner, target, kept, stack_eq, depth, callers, ⟨dropped, rfl⟩, which⟩ := layers.innermost
  simp only [excThrow, counted] at taken
  split at taken
  · obtain rfl := Option.some.inj taken
    refine ⟨rfl, rfl, ?_⟩
    have cut : w.cstack.drop (w.cstack.length - w.errHandlers w.errHandlerIdx) = target := by
      rw [depth, stack_eq, List.length_append, Nat.add_sub_cancel]
      exact List.drop_left
    have rewound : (kept ++ dropped).take (w.errHandlerCallers w.errHandlerIdx) = kept := by
      rw [callers]
      exact List.take_left
    rcases which with ⟨rfl, rfl, idx, lex⟩ | below
    · refine .inr ⟨cut, ?_, .inl lex, congrArg some rewound⟩
      simp only
      omega
    · refine .inl ⟨kept, congrArg some rewound, ?_⟩
      simp only [cut]
      refine below.stable ?_ ?_ ?_ <;> exact fun _ _ => rfl
  · cases taken

/-- A step inside the given `pone_try` stays inside or leaves it with everything restored; a throw
that leaves it returns nil and sets `errvar`. -/
theorem inside_step {w' : World ρ ν} {e : Event ρ ν} (inside : Inside entry base saved w)
    (finds : FindsCallerStack w e) (taken : step nil w e = some w') :
    Inside entry base saved w' ∨
      Restored entry base saved w e w' ∧
        ∀ val, e = .throw val → w'.result = nil ∧ w'.errvar = val := by
  cases e with
  | pushScope lex =>
      obtain rfl := Option.some.inj taken
      obtain ⟨rows, counted, layers⟩ := inside
      refine .inl ⟨rows, counted, layers.stable ?_ ?_ ?_⟩ <;> exact fun _ _ => rfl
  | popScope =>
      simp only [step, popScope] at taken
      split at taken
      · obtain rfl := Option.some.inj taken
        obtain ⟨rows, counted, layers⟩ := inside
        refine .inl ⟨rows, counted, layers.stable ?_ ?_ ?_⟩ <;> exact fun _ _ => rfl
      · cases taken
  | setLex lex | alloc | requestGc =>
      obtain rfl := Option.some.inj taken
      obtain ⟨rows, counted, layers⟩ := inside
      refine .inl ⟨rows, counted, layers.stable ?_ ?_ ?_⟩ <;> exact fun _ _ => rfl
  | vcall row lex =>
      obtain rfl := Option.some.inj taken
      exact .inl (vcall_inside inside finds)
  | attempt row lex => exact .inl (attempt_inside inside finds taken)
  | ret val =>
      rcases return_inside inside taken with stays | leaves
      · exact .inl stays
      · exact .inr ⟨leaves, nofun⟩
  | throw val =>
      obtain ⟨errvar, result, stays | leaves⟩ := throw_inside inside taken
      · exact .inl stays
      · refine .inr ⟨leaves, fun thrown same => ?_⟩
        obtain rfl := Event.throw.inj same
        exact ⟨result, errvar⟩

/-- The caller stack has one row for each active call, the innermost last. -/
def OneRowPerCall (w : World ρ ν) : Prop := w.callerStack = some (activeRows w.cstack)

instance [DecidableEq ρ] (w : World ρ ν) : Decidable (OneRowPerCall w) :=
  inferInstanceAs (Decidable (_ = _))

/-- A `pone_try` that is called in `entry` runs `body` inside and is left by `last`. -/
structure TryRun (nil : ν) (entry : World ρ ν) (row : ρ) (lex : Option Nat)
    (body : List (Event ρ ν)) (last : Event ρ ν) (entered final : World ρ ν) : Prop where
  start : step nil entry (.attempt row lex) = some entered
  running : Execution.Always (step nil) (fun w => entry.cstack.length < w.cstack.length) entered
    body
  leaves : ∃ w, Execution.run (step nil) entered body = some w ∧ step nil w last = some final
  returned : final.cstack.length ≤ entry.cstack.length

theorem inside_run {body : List (Event ρ ν)} (inside : Inside entry base saved w)
    (finds : Execution.Along (step nil) FindsCallerStack w body)
    (running : Execution.Always (step nil) (fun w => entry.cstack.length < w.cstack.length) w
      body) :
    Execution.Always (step nil) (Inside entry base saved) w body := by
  induction body generalizing w with
  | nil => exact inside
  | cons e body ih =>
      refine ⟨inside, fun next taken => ?_⟩
      have rest_running := running.2 next taken
      rcases inside_step inside finds.1 taken with stays | ⟨restored, -⟩
      · exact ih stays (finds.2 next taken) rest_running
      · have higher := rest_running.head
        rw [restored.cstack] at higher
        omega

theorem attempted_inside {entered : World ρ ν} {row : ρ} {lex : Option Nat} {rows : List ρ}
    (attempted : Attempted entry entered row lex rows) :
    Inside entry rows (lex.map fun _ => entry.lex) entered := by
  refine ⟨rows ++ [row], attempted.callers, ?_⟩
  rw [attempted.cstack, attempted.idx]
  refine .first row ?_ ?_ ?_
  · rw [attempted.handlers, Function.update_self]
  · rw [attempted.lexs, Function.update_self]
  · rw [attempted.callersAt, Function.update_self]

/-- A code without a lex of its own returns with `world->lex` as it found it. -/
def KeepsLex (nil : ν) (entry : World ρ ν) (lex : Option Nat) (body : List (Event ρ ν))
    (last : Event ρ ν) (entered : World ρ ν) : Prop :=
  lex = none → (∃ val, last = .ret val) →
    ∀ w, Execution.run (step nil) entered body = some w → w.lex = entry.lex

/-- When every collection finds the caller stack, and the code has a lex or keeps `world->lex`,
`pone_try` restores the interpreter whatever the code does; a throw that nothing inside catches
gives nil and sets `errvar`; and on the way there is one row for each active call. -/
theorem try_restores (nil : ν) {entry entered final : World ρ ν} {row : ρ} {lex : Option Nat}
    {body : List (Event ρ ν)} {last : Event ρ ν} (counted : OneRowPerCall entry)
    (attempt : TryRun nil entry row lex body last entered final)
    (keeps : KeepsLex nil entry lex body last entered)
    (finds : Execution.Along (step nil) FindsCallerStack entry
      (.attempt row lex :: (body ++ [last]))) :
    final.errHandlerIdx = entry.errHandlerIdx ∧ final.lex = entry.lex ∧
      final.callerStack = entry.callerStack ∧ final.cstack = entry.cstack ∧
      (∀ val, last = .throw val → final.result = nil ∧ final.errvar = val) ∧
      Execution.Always (step nil) OneRowPerCall entered body := by
  obtain ⟨rows, attempted⟩ := excTry_attempted finds.1 attempt.start
  obtain rfl := Option.some.inj (counted.symm.trans attempted.before)
  obtain ⟨w, executed, leaves⟩ := attempt.leaves
  obtain ⟨finds_body, finds_last⟩ :=
    Execution.along_append executed (finds.2 entered attempt.start)
  have always := inside_run (attempted_inside attempted) finds_body attempt.running
  have one_row : Execution.Always (step nil) OneRowPerCall entered body := by
    refine always.mono fun state inside => ?_
    obtain ⟨rows, callers, layers⟩ := inside
    rw [OneRowPerCall, callers, layers.rows_eq rfl]
  rcases inside_step (always.final executed) finds_last.1 leaves with stays | ⟨restored, thrown⟩
  · obtain ⟨_, _, layers⟩ := stays
    exact absurd layers.higher (Nat.not_lt.mpr attempt.returned)
  · have lex_eq : final.lex = entry.lex := by
      rcases restored.lex with handler | ⟨returns, saved⟩
      · exact handler
      · cases lex with
        | none => exact saved.trans (keeps rfl returns w executed)
        | some codeLex => exact saved
    exact ⟨restored.idx, lex_eq, restored.callers.trans counted.symm, restored.cstack, thrown,
      one_row⟩

/-- The body calls a sub whose nested try returns; the sub then throws. -/
def throwInCall : List (Event Nat Nat) :=
  [.pushScope 1, .vcall 11 (some 0), .pushScope 2, .attempt 12 (some 2), .ret 5]

theorem try_restores_throwInCall :
    ∃ entered final : World Nat Nat,
      TryRun 0 (worldNew 0) 10 (some 0) throwInCall (.throw 7) entered final ∧
        final.errHandlerIdx = 0 ∧ final.lex = some 0 ∧ final.callerStack = some [] ∧
        final.cstack = [] ∧
        (∀ val, (.throw 7 : Event Nat Nat) = .throw val → final.result = 0 ∧ final.errvar = val) ∧
        Execution.Always (step 0) OneRowPerCall entered throwInCall := by
  obtain ⟨entered, final, attempt⟩ : ∃ entered final : World Nat Nat,
      TryRun 0 (worldNew 0) 10 (some 0) throwInCall (.throw 7) entered final :=
    ⟨_, _, rfl, by decide, ⟨_, rfl, rfl⟩, by decide⟩
  exact ⟨entered, final, attempt, try_restores 0 (by decide) attempt nofun (by decide)⟩

/-- The second job of a worker, after its world was released. -/
def secondJob : List (Event Nat Nat) :=
  [.pushScope 2, .vcall 11 (some 0)]

/-- A collection inside a try of the second job of a worker frees the caller stack. -/
theorem try_loses_callers :
    ∃ released entry w : World Nat Nat,
      (Execution.run (step 0) (worldNew 0) [.pushScope 1, .vcall 10 (some 0), .ret 0]).map
          worldRelease = some released ∧
        Execution.run (step 0) released secondJob = some entry ∧ OneRowPerCall entry ∧
        Execution.run (step 0) entry [.attempt 12 (some 2), .requestGc, .vcall 13 (some 2)] =
          some w ∧
        w.callerStack = none ∧ ¬ OneRowPerCall w := by
  refine ⟨_, _, _, rfl, rfl, ?_, rfl, rfl, ?_⟩ <;> decide

end Try
end Pone
