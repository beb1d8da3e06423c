import Downhill.Method.Outcome
import Downhill.Search.WolfePowell

/-!
# Quasi-Newton descent

The BFGS method keeps an approximation `B` of the inverse Hessian. Each iteration searches along
`d = -B ∇f(x)` for a Wolfe-Powell step and updates `B` with the step `s` and the change `y` of the
gradient:

`B' = (I - ρ s yᵀ) B (I - ρ y sᵀ) + ρ s sᵀ` with `ρ = 1 / (yᵀ s)`.

`B` is reset to the identity when `d` is not a direction of descent, and when `yᵀ s` is not
positive, where the update would lose definiteness.
-/

namespace Downhill.QuasiNewton

variable {σ α : Type} [Scalar α] {n k r c : Nat}

/-- The name of the routine. -/
def name : String := "BFGS"

/-- The settings of a run. -/
structure Config (α : Type) [Scalar α] where
  /-- The tolerance on the norm of the gradient. -/
  tolerance : α := Scalar.gradientTolerance
  /-- The parameters of the line search. -/
  search : SearchParams α := .wolfePowell
  /-- The cap on iterations. -/
  maxIterations : Nat := 10000
  /-- Whether progress is recorded at level `info`. -/
  verbose : Bool := false

/-- Fails if the tolerance is zero or less, or if the line search refuses its parameters. -/
def Config.validate (config : Config α) : Except (Failure α) Unit :=
  if config.tolerance ≤ 0 then .error (.invalidSetting .tolerance (.number config.tolerance))
  else config.search.validateWolfePowell

/-! ### The update -/

/-- The update of `B` by a step `s` and a change `y` of the gradient; `none` if `yᵀ s` is zero or
less. -/
def update (B : Mat α n n) (s y : Vec α n) : Option (Mat α n n) :=
  let curvature := y.dot s
  if curvature ≤ 0 then none
  else
    let ρ := 1 / curvature
    let left : Mat α n n := .identity - ρ * Mat.outer s y
    let right : Mat α n n := .identity - ρ * Mat.outer y s
    some (left * B * right + ρ * Mat.outer s s)

/-- The update for operands of any shapes, where no check is made. -/
def updateAny (B : Mat α r c) (s : Vec α n) (y : Vec α k) :
    Except (Failure α) (Option (Mat α n n)) := do
  let y ← y.fit n
  if y.dot s ≤ 0 then pure none
  else
    let B ← B.fit n n
    pure (update B s y)

/-! ### The iteration -/

/-- A stage of a run. -/
structure State (α : Type) (n : Nat) where
  /-- The point. -/
  point : Vec α n
  /-- The value at the point. -/
  value : α
  /-- The gradient at the point. -/
  gradient : Vec α n
  /-- The approximation `B` of the inverse Hessian. -/
  inverse : Mat α n n
  /-- How often `B` was reset. -/
  resets : Nat
  /-- The number of iterations so far. -/
  iterations : Nat
  /-- The evaluations so far. -/
  tally : Tally
  /-- The values so far. -/
  history : Array α

namespace State

/-- The direction `-B ∇f(x)`. -/
def direction (s : State α n) : Vec α n := -(s.inverse * s.gradient)

/-- The stage with `B` reset. -/
def reset (s : State α n) : State α n := { s with inverse := .identity, resets := s.resets + 1 }

end State

/-- The first stage. -/
def start (f : Objective σ α n) (x : Vec α n) (B : Mat α n n) : Run σ α (State α n) := do
  let value ← f.value x
  let gradient ← f.gradient x
  pure { point := x, value, gradient, inverse := B, resets := 0, iterations := 0, tally := ⟨1, 1⟩,
         history := #[value] }

/-- The direction of the next search, with the stage after a reset that it may have needed. -/
def descend (config : Config α) (s : State α n) : Run σ α (Vec α n × State α n) :=
  if 0 ≤ s.direction.dot s.gradient then do
    Run.report config.verbose "reset BFGS matrix: no descent direction"
      [("iteration", .count s.iterations)]
    pure (-s.gradient, s.reset)
  else pure (s.direction, s)

/-- The stage with `B` updated by the step to `point` and the gradient there, or reset. -/
def learn (config : Config α) (s : State α n) (point gradient : Vec α n) :
    Run σ α (State α n) :=
  match update s.inverse (point - s.point) (gradient - s.gradient) with
  | some B => pure { s with inverse := B }
  | none => do
    Run.report config.verbose "reset BFGS matrix: yᵀs is not positive"
      [("iteration", .count s.iterations)]
    pure s.reset

/-- One iteration. -/
def step (config : Config α) (f : Objective σ α n) (s : State α n) : Run σ α (State α n) := do
  let (direction, s) ← descend config s
  let found ← WolfePowell.searchFrom f s.point s.value s.gradient direction config.search
  let s ← learn config s found.point found.gradient
  let iterations := s.iterations + 1
  Run.trace "BFGS step" [("iteration", .count iterations), ("step", .number found.size),
    ("value", .number found.value), ("gradient_norm", .number found.gradient.norm)]
  pure { s with
    point := found.point, value := found.value, gradient := found.gradient, iterations,
    tally := s.tally + found.tally, history := s.history.push found.value }

/-- Iterations until the gradient is within the tolerance, at most `remaining` of them. -/
def iterate (config : Config α) (f : Objective σ α n) :
    (remaining : Nat) → State α n → Run σ α (State α n)
  | remaining, s =>
    if config.tolerance < s.gradient.norm then
      match remaining with
      | 0 => throw (.capReached config.maxIterations (some s.value) (some s.gradient.norm)
          config.tolerance)
      | remaining + 1 => do
        let s ← step config f s
        iterate config f remaining s
    else pure s

/-! ### Minimizing -/

/-- What a run gives. -/
structure Result (α : Type) (n : Nat) where
  /-- The outcome. -/
  outcome : Outcome α n
  /-- The final approximation of the inverse Hessian. -/
  inverse : Mat α n n
  /-- How often it was reset. -/
  resets : Nat

/-- Minimizes `f` from `x`, starting with the approximation `B` of the inverse Hessian. -/
def minimizeFrom (config : Config α) (f : Objective σ α n) (x : Vec α n) (B : Mat α r c) :
    Run σ α (Result α n) := do
  config.validate
  let B ← B.ofOrder n
  Run.report config.verbose "start BFGS descent" [("dimension", .count n)]
  let s ← start f x B
  let s ← iterate config f config.maxIterations s
  let stationarity := s.gradient.norm
  Run.report config.verbose "BFGS descent terminated"
    [("iterations", .count s.iterations), ("resets", .count s.resets),
     ("gradient_norm", .number stationarity)]
  pure
    { outcome :=
        { point := s.point, value := s.value, stationarity, iterations := s.iterations,
          valueEvaluations := s.tally.values, gradientEvaluations := s.tally.gradients,
          history := s.history }
      inverse := s.inverse
      resets := s.resets }

/-- Minimizes `f` from `x`, starting with the identity. -/
def minimizeWithInverse (config : Config α) (f : Objective σ α n) (x : Vec α n) :
    Run σ α (Result α n) :=
  minimizeFrom config f x (.identity : Mat α n n)

/-- Minimizes `f` from `x`. -/
def minimize (config : Config α) (f : Objective σ α n) (x : Vec α n) :
    Run σ α (Outcome α n) := do
  let result ← minimizeWithInverse config f x
  pure result.outcome

end Downhill.QuasiNewton
