import Downhill.Method.LevenbergMarquardt
import Downhill.Proofs.Determinism
import Downhill.Proofs.Loop

/-!
# Runs of Levenberg-Marquardt descent

How a fit succeeds, over every arithmetic. `minimizeWithDamping_eq_run` presents it as a `Routine`;
`start_cases` and `step_cases` say what its first stage is and what a trial makes of a stage.
-/

namespace Downhill.LevenbergMarquardt

variable {σ α : Type} [Scalar α] {m : Nat} {config : Config α} {model : ResidualModel σ α m}
  {p : Vec α m} {s s' : State α m}

/-- The tolerance of accepted settings is not zero or less. -/
theorem Config.not_le_of_validate (h : config.validate = .ok ()) : ¬ config.tolerance ≤ 0 := by
  unfold Config.validate at h
  split_ifs at h with htol
  exact htol

/-! ### The parts of a run -/

/-- The first stage at the parameters `p`, where the residuals and their linearization are given. -/
def State.first (p : Vec α m) (damping : α) (residual : Array α) (l : Linearization α) :
    State α m where
  point := p
  model := l
  value := halfNormSq residual
  damping := damping
  trials := 0
  rejected := 0
  evaluations := 1
  dampings := #[]
  history := #[halfNormSq residual]

/-- The first stage has the residuals and the Jacobian at the start. -/
theorem start_cases (h : (start config model p).Yields s) :
    ∃ residual jacobian l, (model.residual p).Yields residual ∧
      (model.jacobian p).Yields jacobian ∧ Linearization.make residual jacobian = .ok l ∧
      s = .first p config.initialDamping residual l := by
  unfold start at h
  obtain ⟨residual, hresidual, h⟩ := Run.exists_of_yields_bind h
  obtain ⟨jacobian, hjacobian, h⟩ := Run.exists_of_yields_bind h
  obtain ⟨l, hl, h⟩ := Run.exists_of_yields_bind h
  exact ⟨residual, jacobian, l, hresidual, hjacobian, Run.ok_of_yields_liftM hl,
    Run.eq_of_yields_pure h⟩

/-- The stage after a trial that was accepted. -/
def State.accept (s : State α m) (config : Config α) (point : Vec α m) (residual : Array α)
    (l : Linearization α) : State α m where
  point := point
  model := l
  value := halfNormSq residual
  damping := config.initialDamping
  trials := s.trials + 1
  rejected := s.rejected
  evaluations := s.evaluations + 1
  dampings := s.dampings.push s.damping
  history := s.history.push (halfNormSq residual)

/-- The stage after a trial that was rejected. -/
def State.reject (s : State α m) (config : Config α) : State α m :=
  { s with
    damping := s.damping * config.dampingGrowth, trials := s.trials + 1,
    rejected := s.rejected + 1, evaluations := s.evaluations + 1,
    dampings := s.dampings.push s.damping }

/-- A trial is accepted with a smaller value, or rejected. -/
theorem step_cases (h : (step config model s).Yields s') :
    ∃ point residual, (trialPoint config s : Run σ α _).Yields point ∧
      (model.residual point).Yields residual ∧
      ((halfNormSq residual < s.value ∧ ∃ jacobian l, (model.jacobian point).Yields jacobian ∧
          Linearization.make residual jacobian = .ok l ∧ s' = s.accept config point residual l) ∨
        (¬ halfNormSq residual < s.value ∧ s' = s.reject config)) := by
  unfold step at h
  obtain ⟨point, hpoint, h⟩ := Run.exists_of_yields_bind h
  obtain ⟨residual, hresidual, h⟩ := Run.exists_of_yields_bind h
  refine ⟨point, residual, hpoint, hresidual, ?_⟩
  dsimp only at h
  -- the test of the trial decides
  split_ifs at h with hless
  · obtain ⟨jacobian, hjacobian, h⟩ := Run.exists_of_yields_bind h
    obtain ⟨l, hl, h⟩ := Run.exists_of_yields_bind h
    replace h := Run.yields_of_bind_unit h
    exact .inl ⟨hless, jacobian, l, hjacobian, Run.ok_of_yields_liftM hl, Run.eq_of_yields_pure h⟩
  · replace h := Run.yields_of_bind_unit h
    exact .inr ⟨hless, Run.eq_of_yields_pure h⟩

/-- A trial with a smaller value is accepted. -/
theorem computes_step_of_lt {point : Vec α m} {residual : Array α} {J : AnyMat α}
    {l : Linearization α} (hpoint : (trialPoint config s : Run σ α _).Computes point)
    (hresidual : (model.residual point).Computes residual) (hless : halfNormSq residual < s.value)
    (hjacobian : (model.jacobian point).Computes J) (hl : Linearization.make residual J = .ok l) :
    (step config model s).Computes (s.accept config point residual l) := by
  refine hpoint.bind (hresidual.bind ?_)
  dsimp only
  rw [if_pos hless]
  exact hjacobian.bind ((Run.computes_liftM hl).bind ((Run.computes_record _).bind
    (Run.computes_pure _)))

/-- The first stage is determined by the model. -/
theorem determined_start (config : Config α) (hmodel : model.Deterministic) (p : Vec α m) :
    (start config model p).Determined :=
  (hmodel.residual p).bind fun _ => (hmodel.jacobian p).bind fun _ =>
    (Run.determined_liftM _).bind fun _ => Run.determined_pure _

/-- The parameters of a trial are determined by the stage. -/
theorem determined_trialPoint (config : Config α) (s : State α m) :
    (trialPoint config s : Run σ α _).Determined :=
  (Run.determined_liftM _).bind fun _ => (ConjugateGradient.determined_solve _ _ _).bind fun _ =>
    (Run.determined_liftM _).bind fun _ => Run.determined_pure _

theorem determined_step (config : Config α) (hmodel : model.Deterministic) (s : State α m) :
    (step config model s).Determined := by
  refine (determined_trialPoint _ _).bind fun _ => (hmodel.residual _).bind fun _ => ?_
  dsimp only
  -- only an accepted trial asks for a Jacobian
  split_ifs
  · exact (hmodel.jacobian _).bind fun _ => (Run.determined_liftM _).bind fun _ =>
      (Run.determined_record _).bind fun _ => Run.determined_pure _
  · exact (Run.determined_record _).bind fun _ => Run.determined_pure _

/-! ### A fit as a routine -/

/-- The result of a fit that ends at a stage. -/
def State.result (s : State α m) : Result α m where
  outcome :=
    { point := s.point, value := s.value, stationarity := s.stationarity, iterations := s.trials,
      valueEvaluations := s.evaluations, gradientEvaluations := s.history.size,
      history := s.history }
  dampings := s.dampings
  rejected := s.rejected

/-- The loop of a fit. -/
def loop (config : Config α) (model : ResidualModel σ α m) : Loop σ α (State α m) where
  step := step config model
  continues s := config.tolerance < s.stationarity
  decideContinues _ := inferInstance
  exhausted cap s := .capReached cap (some s.value) (some s.stationarity) config.tolerance

/-- A fit: its loop, with what comes before and after it. -/
def routine (config : Config α) (model : ResidualModel σ α m) (p : Vec α m) :
    Routine σ α (State α m) (Result α m) where
  start := do
    config.validate
    Run.report config.verbose "start Levenberg-Marquardt descent" [("parameters", .count m)]
    start config model p
  loop := loop config model
  finish s := do
    Run.report config.verbose "Levenberg-Marquardt descent terminated"
      [("iterations", .count s.trials), ("rejected", .count s.rejected),
       ("gradient_norm", .number s.stationarity)]
    pure s.result

theorem iterate_eq_run (remaining : Nat) (s : State α m) :
    iterate config model remaining s =
      (loop config model).run config.maxIterations remaining s := by
  induction remaining generalizing s with
  | zero =>
    rw [iterate]
    rfl
  | succ remaining ih =>
    rw [iterate]
    simp only [ih]
    rfl

theorem minimizeWithDamping_eq_run (config : Config α) (model : ResidualModel σ α m)
    (p : Vec α m) :
    minimizeWithDamping config model p = (routine config model p).run config.maxIterations := by
  unfold minimizeWithDamping Routine.run
  simp only [iterate_eq_run, routine, bind_assoc]
  rfl

/-- Nothing in the routine depends on more than the model. -/
theorem deterministic_routine (config : Config α) (hmodel : model.Deterministic) (p : Vec α m) :
    (routine config model p).Deterministic where
  start := (Run.determined_liftM _).bind fun _ => (Run.determined_record _).bind fun _ =>
    determined_start config hmodel p
  step := determined_step config hmodel
  finish _ := (Run.determined_record _).bind fun _ => Run.determined_pure _

/-- A first stage is that of a fit with valid settings. -/
theorem start_of_yields_routine (h : (routine config model p).start.Yields s) :
    config.validate = .ok () ∧ (start config model p).Yields s := by
  obtain ⟨_, hvalid, h⟩ := Run.exists_of_yields_bind h
  exact ⟨Run.ok_of_yields_liftM hvalid, Run.yields_of_bind_unit h⟩

/-- The result of a fit is that of the stage where `Jᵀ r` is not above the tolerance. -/
theorem minimizeWithDamping_cases {result : Result α m}
    (h : (minimizeWithDamping config model p).Yields result) :
    ∃ k ≤ config.maxIterations, ∃ last, (routine config model p).Holds k last ∧
      ¬ config.tolerance < last.stationarity ∧ result = last.result := by
  rw [minimizeWithDamping_eq_run] at h
  obtain ⟨k, hk, last, hlast, hend, h⟩ := Routine.exists_of_yields_run h
  exact ⟨k, hk, last, hlast, hend, Run.eq_of_yields_pure (Run.yields_of_bind_unit h)⟩

/-- A fit without its record has the outcome of one with it. -/
theorem minimize_cases {outcome : Outcome α m} (h : (minimize config model p).Yields outcome) :
    ∃ result, (minimizeWithDamping config model p).Yields result ∧ outcome = result.outcome := by
  obtain ⟨result, hresult, h⟩ := Run.exists_of_yields_bind h
  exact ⟨result, hresult, Run.eq_of_yields_pure h⟩

end Downhill.LevenbergMarquardt
