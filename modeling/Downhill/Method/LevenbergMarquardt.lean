import Downhill.Method.Outcome
import Downhill.Residual.LeastSquares
import Downhill.Solve.ConjugateGradient

/-!
# Levenberg-Marquardt descent

Minimizes `½ ‖r(p)‖²` for a residual model. Each trial solves the damped normal equations
`(Jᵀ J + α I) y = Jᵀ r` by preconditioned conjugate gradients and looks at `p - y`. A trial that
lowers the value is accepted, and the damping `α` returns to its initial value; otherwise the
damping grows and the next trial starts from the same parameters.
-/

namespace Downhill.LevenbergMarquardt

variable {σ α : Type} [Scalar α] {m : Nat}

/-- The name of the routine. -/
def name : String := "Levenberg-Marquardt"

/-- The settings of a run. -/
structure Config (α : Type) [Scalar α] where
  /-- The tolerance on the norm of `Jᵀ r`. -/
  tolerance : α := 1e-4
  /-- The damping at the start and after every accepted trial. -/
  initialDamping : α := 1e-3
  /-- The factor by which a rejected trial lets the damping grow. -/
  dampingGrowth : α := 100.0
  /-- The tolerance of the linear solves. -/
  innerTolerance : α := Scalar.solveTolerance
  /-- The cap on trials. -/
  maxIterations : Nat := 1000
  /-- Whether progress is recorded at level `info`. -/
  verbose : Bool := false

/-- Fails if the tolerances or the initial damping are zero or less, or if the damping would not
grow. -/
def Config.validate (config : Config α) : Except (Failure α) Unit :=
  if config.tolerance ≤ 0 then .error (.invalidSetting .tolerance (.number config.tolerance))
  else if config.initialDamping ≤ 0 then
    .error (.invalidSetting .initialDamping (.number config.initialDamping))
  else if config.dampingGrowth ≤ 1 then
    .error (.invalidSetting .dampingGrowth (.number config.dampingGrowth))
  else if config.innerTolerance ≤ 0 then
    .error (.invalidSetting .innerTolerance (.number config.innerTolerance))
  else .ok ()

/-- A stage of a run. -/
structure State (α : Type) (m : Nat) where
  /-- The parameters. -/
  point : Vec α m
  /-- Residuals and Jacobian at the parameters. -/
  model : Linearization α
  /-- Half the squared norm of the residuals. -/
  value : α
  /-- The damping of the next trial. -/
  damping : α
  /-- The number of trials so far. -/
  trials : Nat
  /-- How many of them were rejected. -/
  rejected : Nat
  /-- How often the residuals were computed so far. -/
  evaluations : Nat
  /-- The damping of every trial so far. -/
  dampings : Array α
  /-- The value at the start and after every accepted trial. -/
  history : Array α

namespace State

/-- The stopping functional: the norm of `Jᵀ r`. -/
def stationarity (s : State α m) : α := s.model.gradient.norm

end State

/-- The first stage. -/
def start (config : Config α) (model : ResidualModel σ α m) (p : Vec α m) :
    Run σ α (State α m) := do
  let residual ← model.residual p
  let jacobian ← model.jacobian p
  let value := halfNormSq residual
  let linearization ← Linearization.make residual jacobian
  pure { point := p, model := linearization, value, damping := config.initialDamping, trials := 0,
         rejected := 0, evaluations := 1, dampings := #[], history := #[value] }

/-- The parameters that a trial looks at. -/
def trialPoint (config : Config α) (s : State α m) : Run σ α (Vec α m) := do
  let A ← s.model.normalMatrix m s.damping
  let solution ← ConjugateGradient.solve { tolerance := config.innerTolerance } A s.model.gradient
  let y ← solution.point.fit m
  pure (s.point + -y)

/-- One trial. -/
def step (config : Config α) (model : ResidualModel σ α m) (s : State α m) :
    Run σ α (State α m) := do
  let point ← trialPoint config s
  let residual ← model.residual point
  let value := halfNormSq residual
  let trials := s.trials + 1
  let evaluations := s.evaluations + 1
  let dampings := s.dampings.push s.damping
  if value < s.value then
    let jacobian ← model.jacobian point
    let linearization ← Linearization.make residual jacobian
    Run.trace "Levenberg-Marquardt step accepted"
      [("iteration", .count trials), ("value", .number value),
       ("gradient_norm", .number linearization.gradient.norm)]
    pure { point, model := linearization, value, damping := config.initialDamping, trials,
           rejected := s.rejected, evaluations, dampings, history := s.history.push value }
  else
    let damping := s.damping * config.dampingGrowth
    Run.trace "Levenberg-Marquardt step rejected"
      [("iteration", .count trials), ("damping", .number damping)]
    pure { s with damping, trials, rejected := s.rejected + 1, evaluations, dampings }

/-- Trials until `Jᵀ r` is within the tolerance, at most `remaining` of them. -/
def iterate (config : Config α) (model : ResidualModel σ α m) :
    (remaining : Nat) → State α m → Run σ α (State α m)
  | remaining, s =>
    if config.tolerance < s.stationarity then
      match remaining with
      | 0 => throw (.capReached config.maxIterations (some s.value) (some s.stationarity)
          config.tolerance)
      | remaining + 1 => do
        let s ← step config model s
        iterate config model remaining s
    else pure s

/-- What a run gives. -/
structure Result (α : Type) (m : Nat) where
  /-- The outcome. -/
  outcome : Outcome α m
  /-- The damping of every trial. -/
  dampings : Array α
  /-- How many trials were rejected. -/
  rejected : Nat

/-- Fits the parameters of a model from `p`, with the record of the damping. -/
def minimizeWithDamping (config : Config α) (model : ResidualModel σ α m) (p : Vec α m) :
    Run σ α (Result α m) := do
  config.validate
  Run.report config.verbose "start Levenberg-Marquardt descent" [("parameters", .count m)]
  let s ← start config model p
  let s ← iterate config model config.maxIterations s
  Run.report config.verbose "Levenberg-Marquardt descent terminated"
    [("iterations", .count s.trials), ("rejected", .count s.rejected),
     ("gradient_norm", .number s.stationarity)]
  pure
    { outcome :=
        { point := s.point, value := s.value, stationarity := s.stationarity,
          iterations := s.trials, valueEvaluations := s.evaluations,
          gradientEvaluations := s.history.size, history := s.history }
      dampings := s.dampings
      rejected := s.rejected }

/-- Fits the parameters of a model from `p`. -/
def minimize (config : Config α) (model : ResidualModel σ α m) (p : Vec α m) :
    Run σ α (Outcome α m) := do
  let result ← minimizeWithDamping config model p
  pure result.outcome

end Downhill.LevenbergMarquardt
