import Downhill.Method.Outcome
import Downhill.Objective.Basic
import Downhill.Solve.ConjugateGradient

/-!
# Newton descent

Each iteration solves `∇²f(x) d = -∇f(x)` by preconditioned conjugate gradients and takes the full
step `d`, until the norm of the gradient is within the tolerance.
-/

namespace Downhill.Newton

variable {σ α : Type} [Scalar α] {n : Nat}

/-- The name of the routine. -/
def name : String := "Newton"

/-- The settings of a run. -/
structure Config (α : Type) [Scalar α] where
  /-- The tolerance on the norm of the gradient. -/
  tolerance : α := Scalar.gradientTolerance
  /-- A bound on the tolerance of the linear solves. -/
  innerTolerance : α := Scalar.solveTolerance
  /-- The cap on iterations. -/
  maxIterations : Nat := 1000
  /-- Whether progress is recorded at level `info`. -/
  verbose : Bool := false

namespace Config

/-- Fails if one of the tolerances is zero or less. -/
def validate (config : Config α) : Except (Failure α) Unit :=
  if config.tolerance ≤ 0 then .error (.invalidSetting .tolerance (.number config.tolerance))
  else if config.innerTolerance ≤ 0 then
    .error (.invalidSetting .innerTolerance (.number config.innerTolerance))
  else .ok ()

/-- The tolerance of the linear solves: a tenth of the outer one, or less. -/
def solveTolerance (config : Config α) : α :=
  Scalar.min config.innerTolerance (0.1 * config.tolerance)

end Config

/-- A stage of a run. -/
structure State (α : Type) (n : Nat) where
  /-- The point. -/
  point : Vec α n
  /-- The value at the point. -/
  value : α
  /-- The gradient at the point. -/
  gradient : Vec α n
  /-- The number of iterations so far. -/
  iterations : Nat
  /-- How many values, and as many gradients, were computed so far. -/
  evaluations : Nat
  /-- The values so far. -/
  history : Array α

/-- The first stage. -/
def start (f : Objective σ α n) (x : Vec α n) : Run σ α (State α n) := do
  let value ← f.value x
  let gradient ← f.gradient x
  pure { point := x, value, gradient, iterations := 0, evaluations := 1, history := #[value] }

/-- One iteration. -/
def step (config : Config α) (f : Objective σ α n) (s : State α n) : Run σ α (State α n) := do
  let hessian ← f.hessian s.point
  let solution ← ConjugateGradient.solve { tolerance := config.solveTolerance }
    hessian.mat (-s.gradient)
  let point := s.point + solution.point
  let value ← f.value point
  let gradient ← f.gradient point
  let iterations := s.iterations + 1
  Run.trace "Newton step" [("iteration", .count iterations), ("value", .number value),
    ("gradient_norm", .number gradient.norm)]
  pure { point, value, gradient, iterations, evaluations := s.evaluations + 1,
         history := s.history.push value }

/-- Iterations until the gradient is within the tolerance, at most `remaining` of them. -/
def iterate (config : Config α) (f : Objective σ α n) :
    (remaining : Nat) → State α n → Run σ α (State α n)
  | remaining, s =>
    if config.tolerance < s.gradient.norm then
      match remaining with
      | 0 => throw (.capReached config.maxIterations (some s.value) (some s.gradient.norm)
          config.tolerance)
      | remaining + 1 => do
        let s ← step config f s
        iterate config f remaining s
    else pure s

/-- Minimizes `f` from `x`. -/
def minimize (config : Config α) (f : Objective σ α n) (x : Vec α n) :
    Run σ α (Outcome α n) := do
  config.validate
  Run.report config.verbose "start Newton descent" [("dimension", .count n)]
  let s ← start f x
  let s ← iterate config f config.maxIterations s
  let stationarity := s.gradient.norm
  Run.report config.verbose "Newton descent terminated"
    [("iterations", .count s.iterations), ("gradient_norm", .number stationarity)]
  pure { point := s.point, value := s.value, stationarity, iterations := s.iterations,
         valueEvaluations := s.evaluations, gradientEvaluations := s.evaluations,
         history := s.history }

end Downhill.Newton
