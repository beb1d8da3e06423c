import Downhill.Method.Outcome
import Downhill.Search.ProjectedBacktracking

/-!
# Projected inexact Newton descent

Minimizes an objective over a closed convex set, given by its projection `P`. The stopping
functional is the projected stationarity `‖x - P(x - ∇f(x))‖`.

Each iteration runs truncated conjugate gradients on the reduced Hessian, which is the identity on
the active coordinates and the Hessian on the others (`reducedHessian`). The loop stops when the
residual is below the forcing term, or when the curvature along its direction is not positive. The
direction that it found is followed by projected backtracking.
-/

namespace Downhill.ProjectedNewton

variable {σ α : Type} [Scalar α] {n k : Nat}

/-- The name of the routine. -/
def name : String := "Projected Newton-CG"

/-- The settings of a run. -/
structure Config (α : Type) [Scalar α] where
  /-- The tolerance on the projected stationarity, and the least curvature of the inner loop. -/
  tolerance : α := Scalar.gradientTolerance
  /-- The parameters of the line search. -/
  search : SearchParams α := .projectedBacktracking
  /-- The cap on inner steps per iteration, by default ten per variable. -/
  maxInnerIterations : Option Nat := none
  /-- The cap on iterations. -/
  maxIterations : Nat := 1000
  /-- Whether progress is recorded at level `info`. -/
  verbose : Bool := false

namespace Config

/-- Fails if the tolerance is zero or less, or if the line search refuses its parameters. -/
def validate (config : Config α) : Except (Failure α) Unit :=
  if config.tolerance ≤ 0 then .error (.invalidSetting .tolerance (.number config.tolerance))
  else config.search.validateBacktracking

/-- The cap on inner steps for `n` variables. -/
def innerCap (config : Config α) (n : Nat) : Nat := config.maxInnerIterations.getD (10 * n)

end Config

/-! ### The reduced Hessian -/

/-- The reduced Hessian at `x` applied to `d`: active coordinates pass unchanged, the others get the
Hessian applied to `d` without its active coordinates. -/
def reducedHessian (f : Objective σ α n) (P : Projection α n) (x d : Vec α n) :
    Run σ α (Vec α n) := do
  let active ← P.active x
  let image ← f.hessianProduct x (d.overwrite .zero active)
  pure (image.overwrite d active)

/-- The reduced Hessian applied to a vector of any length. -/
def reducedHessianAny (f : Objective σ α n) (P : Projection α n) (x : Vec α n) (d : Vec α k) :
    Run σ α (Vec α n) := do
  let d ← d.ofLength n
  reducedHessian f P x d

/-! ### The inner loop -/

/-- A stage of the inner loop. -/
structure Inner (α : Type) (n : Nat) where
  /-- The point. -/
  point : Vec α n
  /-- The residual. -/
  residual : Vec α n
  /-- The direction of the next step. -/
  direction : Vec α n
  /-- The number of steps so far. -/
  steps : Nat

/-- One inner step at the outer point `x`; `none` if the curvature is not positive. -/
def innerStep (config : Config α) (f : Objective σ α n) (P : Projection α n) (x : Vec α n)
    (s : Inner α n) : Run σ α (Option (Inner α n)) := do
  let image ← reducedHessian f P x s.direction
  let curvature := s.direction.dot image
  if curvature ≤ config.tolerance * s.direction.normSq then
    Run.trace "non-positive curvature in truncated CG" [("cg_steps", .count (s.steps + 1))]
    pure none
  else
    let t := s.residual.normSq / curvature
    let residual := s.residual + t * image
    let β := residual.normSq / s.residual.normSq
    pure (some
      { point := s.point + t * s.direction, residual, direction := β * s.direction - residual,
        steps := s.steps + 1 })

/-- What the inner loop at the point `x` with value `value` works on. -/
structure InnerProblem (σ α : Type) [Scalar α] (n : Nat) where
  /-- The settings of the run. -/
  config : Config α
  /-- The objective. -/
  objective : Objective σ α n
  /-- The projection. -/
  projection : Projection α n
  /-- The outer point `x`. -/
  base : Vec α n
  /-- The value at `x`. -/
  value : α
  /-- The forcing term: the loop ends when the residual is no larger. -/
  forcing : α

/-- Inner steps until the residual is below the forcing term, at most `remaining` of them. Gives the
last point and the number of steps, a step that only found a curvature that is not positive
included. -/
def innerIterate (p : InnerProblem σ α n) :
    (remaining : Nat) → Inner α n → Run σ α (Vec α n × Nat)
  | remaining, s =>
    if p.forcing < s.residual.norm then
      match remaining with
      | 0 =>
        throw (.capReached (p.config.innerCap n) (some p.value) (some s.residual.norm) p.forcing)
      | remaining + 1 => do
        match ← innerStep p.config p.objective p.projection p.base s with
        | none => pure (s.point, s.steps + 1)
        | some s => innerIterate p remaining s
    else pure (s.point, s.steps)

/-! ### The outer loop -/

/-- A stage of a run. -/
structure State (α : Type) (n : Nat) where
  /-- The point. -/
  point : Vec α n
  /-- The value at the point. -/
  value : α
  /-- The gradient at the point. -/
  gradient : Vec α n
  /-- The projected stationarity at the point. -/
  stationarity : α
  /-- The number of iterations so far. -/
  iterations : Nat
  /-- The evaluations so far. -/
  tally : Tally
  /-- The values so far. -/
  history : Array α

/-- The projected stationarity at `x` where the gradient is `g`. -/
def stationarity (P : Projection α n) (x g : Vec α n) : Except (Failure α) α := do
  let step ← P.gradientStep x g
  pure step.norm

/-- The first stage. -/
def start (f : Objective σ α n) (P : Projection α n) (x : Vec α n) : Run σ α (State α n) := do
  let point ← P.project x
  let value ← f.value point
  let gradient ← f.gradient point
  let stationarity ← stationarity P point gradient
  pure { point, value, gradient, stationarity, iterations := 0, tally := ⟨1, 1⟩,
         history := #[value] }

/-- The inner loop at a stage. -/
def innerProblem (config : Config α) (f : Objective σ α n) (P : Projection α n) (s : State α n) :
    InnerProblem σ α n where
  config := config
  objective := f
  projection := P
  base := s.point
  value := s.value
  forcing := Scalar.min Scalar.half s.stationarity * s.stationarity

/-- The first stage of the inner loop. -/
def innerStart (s : State α n) : Inner α n where
  point := s.point
  residual := s.gradient
  direction := -s.gradient
  steps := 0

/-- The direction to the point that the inner loop found, or steepest descent if that point hardly
differs from the present one. -/
def direction (s : State α n) (inner : Vec α n) : Vec α n :=
  if inner.agree 1e-8 1e-5 s.point then -s.gradient else inner - s.point

/-- One iteration. -/
def step (config : Config α) (f : Objective σ α n) (P : Projection α n) (s : State α n) :
    Run σ α (State α n) := do
  let (inner, steps) ← innerIterate (innerProblem config f P s) (config.innerCap n) (innerStart s)
  let found ← ProjectedBacktracking.search f P s.point (direction s inner) config.search
  let gradient ← f.gradient found.point
  let stationarity ← stationarity P found.point gradient
  let iterations := s.iterations + 1
  Run.trace "projected Newton-CG step"
    [("iteration", .count iterations), ("cg_steps", .count steps), ("step", .number found.size),
     ("stationarity", .number stationarity)]
  pure { point := found.point, value := found.value, gradient, stationarity, iterations,
         tally := (s.tally + found.tally).gradient, history := s.history.push found.value }

/-- Iterations until the projected stationarity is within the tolerance, at most `remaining` of
them. -/
def iterate (config : Config α) (f : Objective σ α n) (P : Projection α n) :
    (remaining : Nat) → State α n → Run σ α (State α n)
  | remaining, s =>
    if config.tolerance < s.stationarity then
      match remaining with
      | 0 => throw (.capReached config.maxIterations (some s.value) (some s.stationarity)
          config.tolerance)
      | remaining + 1 => do
        let s ← step config f P s
        iterate config f P remaining s
    else pure s

/-- Minimizes `f` over the set of `P`, from the projection of `x`. -/
def minimize (config : Config α) (f : Objective σ α n) (P : Projection α n) (x : Vec α n) :
    Run σ α (Outcome α n) := do
  config.validate
  Run.report config.verbose "start projected Newton-CG" [("dimension", .count n)]
  let s ← start f P x
  let s ← iterate config f P config.maxIterations s
  Run.report config.verbose "projected Newton-CG terminated"
    [("iterations", .count s.iterations), ("stationarity", .number s.stationarity)]
  pure { point := s.point, value := s.value, stationarity := s.stationarity,
         iterations := s.iterations, valueEvaluations := s.tally.values,
         gradientEvaluations := s.tally.gradients, history := s.history }

end Downhill.ProjectedNewton
