import Mathlib.Data.List.Basic

/-!
# Runs that agree with a specification

An operation changes a state and gives an answer, or halts.  If one operation agrees with the
specification exactly when it is allowed, a sequence of operations agrees after each of them exactly
when every operation on the way is allowed.
-/

namespace Simulation

variable {σ χ ω α η : Type*}

/-- What a program reads or makes; it halts where there is nothing. -/
def orHalt (halt : η) : Option α → Except η α
  | some a => .ok a
  | none => .error halt

/-- A sequence of operations with its answers. -/
def run (step : σ → ω → Except η (σ × α)) (s : σ) : List ω → Except η (σ × List α)
  | [] => .ok (s, [])
  | op :: rest =>
      match step s op with
      | .error halt => .error halt
      | .ok (s', answer) =>
          match run step s' rest with
          | .error halt => .error halt
          | .ok (s'', answers) => .ok (s'', answer :: answers)

def specRun (spec : χ → ω → χ × α) (x : χ) : List ω → χ × List α
  | [] => (x, [])
  | op :: rest =>
      ((specRun spec (spec x op).1 rest).1, (spec x op).2 :: (specRun spec (spec x op).1 rest).2)

/-- The outcome is the state and the answers of the specification. -/
def Agrees {β : Type*} (shows : σ → χ → Prop) (x : χ × β) (outcome : Except η (σ × β)) : Prop :=
  ∃ s, outcome = .ok (s, x.2) ∧ shows s x.1

/-- The run agrees after the first operations, as many as one likes. -/
def Follows (step : σ → ω → Except η (σ × α)) (spec : χ → ω → χ × α) (shows : σ → χ → Prop)
    (s : σ) (x : χ) (ops : List ω) : Prop :=
  ∀ k, Agrees shows (specRun spec x (ops.take k)) (run step s (ops.take k))

/-- Every operation on the way is allowed. -/
def Always (step : σ → ω → Except η (σ × α)) (spec : χ → ω → χ × α) (allowed : σ → χ → ω → Prop)
    (s : σ) (x : χ) : List ω → Prop
  | [] => True
  | op :: rest =>
      allowed s x op ∧
        ∀ s' answer, step s op = .ok (s', answer) →
          Always step spec allowed s' (spec x op).1 rest

/-- Every operation is one that the specification is about. -/
def Within (spec : χ → ω → χ × α) (domain : χ → ω → Prop) (x : χ) : List ω → Prop
  | [] => True
  | op :: rest => domain x op ∧ Within spec domain (spec x op).1 rest

theorem agrees_ok_iff {β : Type*} {shows : σ → χ → Prop} {x : χ × β} {s : σ} {answers : β} :
    Agrees shows x (.ok (s, answers) : Except η (σ × β)) ↔ answers = x.2 ∧ shows s x.1 := by
  constructor
  · rintro ⟨s', same, shown⟩
    cases same
    exact ⟨rfl, shown⟩
  · rintro ⟨rfl, shown⟩
    exact ⟨s, rfl, shown⟩

theorem not_agrees_error {β : Type*} {shows : σ → χ → Prop} {x : χ × β} {halt : η} :
    ¬ Agrees shows x (.error halt : Except η (σ × β)) := by
  rintro ⟨s, same, -⟩
  cases same

variable {step : σ → ω → Except η (σ × α)} {spec : χ → ω → χ × α} {shows : σ → χ → Prop}
  {allowed : σ → χ → ω → Prop}

/-- Behind an operation that agrees, only the others matter. -/
theorem agrees_run_cons_iff {s s' : σ} {x : χ} {op : ω} {ops : List ω}
    (done : step s op = .ok (s', (spec x op).2)) :
    Agrees shows (specRun spec x (op :: ops)) (run step s (op :: ops)) ↔
      Agrees shows (specRun spec (spec x op).1 ops) (run step s' ops) := by
  rw [run, specRun, done]
  simp only
  cases run step s' ops with
  | error halt => exact iff_of_false not_agrees_error not_agrees_error
  | ok result =>
      refine agrees_ok_iff.trans (Iff.trans ?_ agrees_ok_iff.symm)
      simp

theorem follows_cons_iff {s : σ} {x : χ} {op : ω} {ops : List ω} (shown : shows s x) :
    Follows step spec shows s x (op :: ops) ↔
      Agrees shows (spec x op) (step s op) ∧
        ∀ s' answer, step s op = .ok (s', answer) →
          Follows step spec shows s' (spec x op).1 ops := by
  constructor
  · intro follows
    have first := follows 1
    rw [List.take_succ_cons, List.take_zero, run] at first
    cases outcome : step s op with
    | error halt =>
        rw [outcome] at first
        exact absurd first not_agrees_error
    | ok result =>
        obtain ⟨s', answer⟩ := result
        rw [outcome] at first
        obtain ⟨answers, shown'⟩ := agrees_ok_iff.mp first
        obtain rfl : answer = (spec x op).2 := (List.cons.inj answers).1
        refine ⟨agrees_ok_iff.mpr ⟨rfl, shown'⟩, fun _ _ same k => ?_⟩
        cases same
        exact (agrees_run_cons_iff outcome).mp (follows (k + 1))
  · rintro ⟨⟨s', done, -⟩, follows⟩ k
    cases k with
    | zero => exact ⟨s, rfl, shown⟩
    | succ k => exact (agrees_run_cons_iff done).mpr (follows s' _ done k)

/-- A sequence agrees with the specification exactly when all that is done on the way is allowed. -/
theorem follows_iff (sane : σ → Prop) (domain : χ → ω → Prop)
    (one : ∀ s x op, sane s → shows s x → domain x op →
      (Agrees shows (spec x op) (step s op) ↔ allowed s x op) ∧
        ∀ s' answer, step s op = .ok (s', answer) → sane s')
    {s : σ} {x : χ} {ops : List ω} (sane_s : sane s) (shown : shows s x)
    (within : Within spec domain x ops) :
    Follows step spec shows s x ops ↔ Always step spec allowed s x ops := by
  induction ops generalizing s x with
  | nil =>
      refine iff_of_true (fun k => ?_) trivial
      rw [List.take_nil]
      exact ⟨s, rfl, shown⟩
  | cons op rest ih =>
      obtain ⟨agrees, leaves⟩ := one s x op sane_s shown within.1
      rw [follows_cons_iff shown, agrees, Always]
      refine and_congr_right fun permitted => forall₃_congr fun s' answer done => ?_
      obtain ⟨s'', done', shown'⟩ := agrees.mpr permitted
      rw [done] at done'
      cases done'
      exact ih (leaves s' _ done) shown' within.2

end Simulation
