import Downhill.Method.Newton
import Downhill.Proofs.Determinism
import Downhill.Proofs.Loop

/-!
# Runs of Newton descent

How a run of Newton descent succeeds, over every arithmetic. `minimize_eq_run` presents it as a
`Routine`; `start_cases` and `step_cases` say what its first stage is and what an iteration makes of
a stage.
-/

namespace Downhill.Newton

variable {σ α : Type} [Scalar α] {n : Nat} {config : Config α} {f : Objective σ α n} {x : Vec α n}
  {s s' : State α n}

/-- The tolerance of accepted settings is not zero or less. -/
theorem Config.not_le_of_validate (h : config.validate = .ok ()) : ¬ config.tolerance ≤ 0 := by
  unfold Config.validate at h
  split_ifs at h with htol
  exact htol

/-! ### The parts of a run -/

/-- The first stage has the value and the gradient at the start. -/
theorem start_cases (h : (start f x).Yields s) :
    ∃ value gradient, (f.value x).Yields value ∧ (f.gradient x).Yields gradient ∧
      s = ⟨x, value, gradient, 0, 1, #[value]⟩ := by
  unfold start at h
  obtain ⟨value, hvalue, h⟩ := Run.exists_of_yields_bind h
  obtain ⟨gradient, hgradient, h⟩ := Run.exists_of_yields_bind h
  exact ⟨value, gradient, hvalue, hgradient, Run.eq_of_yields_pure h⟩

/-- The stage after a step to `point`. -/
def State.moveTo (s : State α n) (point : Vec α n) (value : α) (gradient : Vec α n) : State α n :=
  { point, value, gradient, iterations := s.iterations + 1, evaluations := s.evaluations + 1,
    history := s.history.push value }

/-- A step solves the linear system with the Hessian and moves by the solution. -/
theorem step_cases (h : (step config f s).Yields s') :
    ∃ hessian solution value gradient, (f.hessian s.point).Yields hessian ∧
      (ConjugateGradient.solve { tolerance := config.solveTolerance } hessian.mat
        (-s.gradient) : Run σ α _).Yields solution ∧
      (f.value (s.point + solution.point)).Yields value ∧
      (f.gradient (s.point + solution.point)).Yields gradient ∧
      s' = s.moveTo (s.point + solution.point) value gradient := by
  unfold step at h
  obtain ⟨hessian, hhessian, h⟩ := Run.exists_of_yields_bind h
  obtain ⟨solution, hsolution, h⟩ := Run.exists_of_yields_bind h
  obtain ⟨value, hvalue, h⟩ := Run.exists_of_yields_bind h
  obtain ⟨gradient, hgradient, h⟩ := Run.exists_of_yields_bind h
  replace h := Run.yields_of_bind_unit h
  exact ⟨hessian, solution, value, gradient, hhessian, hsolution, hvalue, hgradient,
    Run.eq_of_yields_pure h⟩

/-- The first stage is determined by the objective. -/
theorem determined_start (hf : f.Deterministic) (x : Vec α n) : (start f x).Determined :=
  (hf.value x).bind fun _ => (hf.gradient x).bind fun _ => Run.determined_pure _

theorem determined_step (config : Config α) (hf : f.Deterministic) (s : State α n) :
    (step config f s).Determined :=
  (hf.hessian _).bind fun _ => (ConjugateGradient.determined_solve _ _ _).bind fun _ =>
    (hf.value _).bind fun _ => (hf.gradient _).bind fun _ =>
      (Run.determined_record _).bind fun _ => Run.determined_pure _

/-! ### A run as a routine -/

/-- The outcome of a run that ends at a stage. -/
def State.outcome (s : State α n) : Outcome α n where
  point := s.point
  value := s.value
  stationarity := s.gradient.norm
  iterations := s.iterations
  valueEvaluations := s.evaluations
  gradientEvaluations := s.evaluations
  history := s.history

/-- The loop of a run. -/
def loop (config : Config α) (f : Objective σ α n) : Loop σ α (State α n) where
  step := step config f
  continues s := config.tolerance < s.gradient.norm
  decideContinues _ := inferInstance
  exhausted cap s := .capReached cap (some s.value) (some s.gradient.norm) config.tolerance

/-- A run: its loop, with what comes before and after it. -/
def routine (config : Config α) (f : Objective σ α n) (x : Vec α n) :
    Routine σ α (State α n) (Outcome α n) where
  start := do
    config.validate
    Run.report config.verbose "start Newton descent" [("dimension", .count n)]
    start f x
  loop := loop config f
  finish s := do
    Run.report config.verbose "Newton descent terminated"
      [("iterations", .count s.iterations), ("gradient_norm", .number s.gradient.norm)]
    pure s.outcome

theorem iterate_eq_run (remaining : Nat) (s : State α n) :
    iterate config f remaining s = (loop config f).run config.maxIterations remaining s := by
  -- both recursions end at the cap and go on with the same step
  induction remaining generalizing s with
  | zero =>
    rw [iterate]
    rfl
  | succ remaining ih =>
    rw [iterate]
    simp only [ih]
    rfl

theorem minimize_eq_run (config : Config α) (f : Objective σ α n) (x : Vec α n) :
    minimize config f x = (routine config f x).run config.maxIterations := by
  unfold minimize Routine.run
  simp only [iterate_eq_run, routine, bind_assoc]
  rfl

/-- Nothing in the routine depends on more than the objective. -/
theorem deterministic_routine (config : Config α) (hf : f.Deterministic) (x : Vec α n) :
    (routine config f x).Deterministic where
  start := (Run.determined_liftM _).bind fun _ => (Run.determined_record _).bind fun _ =>
    determined_start hf x
  step := determined_step config hf
  finish _ := (Run.determined_record _).bind fun _ => Run.determined_pure _

/-- A first stage is that of a run with valid settings. -/
theorem start_of_yields_routine (h : (routine config f x).start.Yields s) :
    config.validate = .ok () ∧ (start f x).Yields s := by
  obtain ⟨_, hvalid, h⟩ := Run.exists_of_yields_bind h
  exact ⟨Run.ok_of_yields_liftM hvalid, Run.yields_of_bind_unit h⟩

/-- The outcome of a run is that of the stage where the gradient is not above the tolerance. -/
theorem minimize_cases {outcome : Outcome α n} (h : (minimize config f x).Yields outcome) :
    ∃ k ≤ config.maxIterations, ∃ last, (routine config f x).Holds k last ∧
      ¬ config.tolerance < last.gradient.norm ∧ outcome = last.outcome := by
  rw [minimize_eq_run] at h
  obtain ⟨k, hk, last, hlast, hend, h⟩ := Routine.exists_of_yields_run h
  exact ⟨k, hk, last, hlast, hend, Run.eq_of_yields_pure (Run.yields_of_bind_unit h)⟩

/-- A run ends at once where the gradient is within the tolerance. -/
theorem computes_minimize_of_start (hvalid : config.validate = .ok ())
    (hstart : (start f x).Computes s) (hend : ¬ config.tolerance < s.gradient.norm) :
    (minimize config f x).Computes s.outcome := by
  rw [minimize_eq_run]
  refine ((Run.computes_liftM hvalid).bind ((Run.computes_record _).bind hstart)).bind ?_
  -- the loop ends before its first step
  rw [Loop.run_of_not_continues hend]
  exact (Run.computes_pure _).bind ((Run.computes_record _).bind (Run.computes_pure _))

end Downhill.Newton
