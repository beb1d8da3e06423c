import Downhill.Method.Outcome
import Downhill.Projection.Box
import Downhill.Objective.Basic

/-!
# Implicit filtering

Minimizes an objective with noisy values over a closed convex set. Derivatives are replaced by
simplex gradients at a sequence of scales: large scales step over the noise, small ones refine.

At one scale `h` a projected descent with the simplex gradient `g` and the step
`d = -min(1, 10 h / ‖g‖) g` runs from the best point so far. It ends at a stencil failure, when
`‖x - P(x - g)‖` is at most the tolerance times `h`, after ten steps per variable, or when
backtracking finds no step (`descend`). A sweep visits every scale; sweeps repeat until one leaves
the best point where it was.
-/

namespace Downhill.ImplicitFiltering

variable {σ α : Type} [Scalar α] {n : Nat}

/-- The name of the routine. -/
def name : String := "Implicit Filtering"

/-- The settings of a run. -/
structure Config (α : Type) [Scalar α] where
  /-- The scales, in the order in which a sweep visits them. -/
  scales : List α := [1, 1e-1, 1e-2, 1e-3, 1e-4, 1e-5]
  /-- The tolerance on the projected simplex gradient, relative to the scale. -/
  tolerance : α := Scalar.gradientTolerance
  /-- The decrease parameter of the backtracking. -/
  sigma : α := 1e-4
  /-- The number of halvings after which backtracking gives up. -/
  maxHalvings : Nat := 10
  /-- The cap on sweeps. -/
  maxSweeps : Nat := 100
  /-- Whether progress is recorded at level `info`. -/
  verbose : Bool := false

/-- Fails if there is no scale, if a scale or the tolerance is zero or less, or if the decrease
parameter lies outside `(0, 1)`. -/
def Config.validate (config : Config α) : Except (Failure α) Unit :=
  if config.scales.isEmpty then .error (.invalidSetting .someScale .emptyList)
  else match config.scales.find? (· ≤ 0) with
    | some h => .error (.invalidSetting .positiveScales (.number h))
    | none =>
      if config.tolerance ≤ 0 then .error (.invalidSetting .tolerance (.number config.tolerance))
      else if config.sigma ≤ 0 || 1 ≤ config.sigma then
        .error (.invalidSetting .filteringDecrease (.number config.sigma))
      else .ok ()

/-! ### One scale -/

/-- Why the descent at a scale ended. -/
inductive Stop where
  /-- No point of the stencil improves on its center. -/
  | stencilFailure
  /-- The projected simplex gradient is within the tolerance. -/
  | stationary
  /-- The cap on steps was reached. -/
  | stepLimit
  /-- Backtracking found no step. -/
  | lineSearchFailure
deriving DecidableEq, Repr

/-- The name of a reason to stop. -/
def Stop.name : Stop → String
  | .stencilFailure => "StencilFailure"
  | .stationary => "Stationary"
  | .stepLimit => "StepLimit"
  | .lineSearchFailure => "LineSearchFailure"

/-- The factor `-min(1, 10 h / ‖g‖)` of the simplex gradient in the direction of a step. -/
def factor (h : α) (g : Vec α n) : α := -Scalar.min 1 (10.0 * h / g.norm)

/-- A descent at one scale. -/
structure Scale (σ α : Type) [Scalar α] (n : Nat) where
  /-- The settings of the run. -/
  config : Config α
  /-- The objective. -/
  objective : Objective σ α n
  /-- The projection. -/
  projection : Projection α n
  /-- The scale `h`. -/
  scale : α

namespace Scale

/-- Backtracks from `x`, where the value is `value` and the simplex gradient `g`, after `used` values
were computed: the first point with sufficient decrease, if one is found within `remaining` halvings
of `t`, and the count of values. -/
def backtrack (s : Scale σ α n) (x g : Vec α n) (value : α) :
    (remaining : Nat) → (t : α) → (used : Nat) → Run σ α (Option (Vec α n) × Nat)
  | remaining, t, used => do
    let trial ← s.projection.project (x + t * (factor s.scale g * g))
    let trialValue ← s.objective.value trial
    let gap ← s.projection.gradientStep x (t * g)
    if trialValue ≤ value - s.config.sigma / t * gap.normSq then pure (some trial, used + 1)
    else
      match remaining with
      | 0 => pure (none, used + 1)
      | remaining + 1 => s.backtrack x g value remaining (t * Scalar.half) (used + 1)

/-- How many values a descent counts for the gradient and the stencil test at one point. -/
def stencilCost (n : Nat) : Nat := 4 * n + 1

/-- Steps from `x` until the descent ends, at most `remaining` of them, after `used` values. Gives
the last point, the reason to stop and the count of values. -/
def iterate (s : Scale σ α n) :
    (remaining : Nat) → (x : Vec α n) → (used : Nat) → Run σ α (Vec α n × Stop × Nat)
  | remaining, x, used => do
    let g ← Stencil.simplexGradient s.objective x s.scale
    let failed ← Stencil.isFailure s.objective x s.scale
    let used := used + stencilCost n
    if failed then pure (x, .stencilFailure, used)
    else
      let gap ← s.projection.gradientStep x g
      if gap.norm ≤ s.config.tolerance * s.scale then pure (x, .stationary, used)
      else
        match remaining with
        | 0 => pure (x, .stepLimit, used)
        | remaining + 1 => do
          let value ← s.objective.value x
          let (found, used) ← s.backtrack x g value s.config.maxHalvings 1 (used + 1)
          match found with
          | some x => s.iterate remaining x used
          | none => pure (x, .lineSearchFailure, used)

/-- The descent from the projection of `x`, with at most ten steps per variable. -/
def descend (s : Scale σ α n) (x : Vec α n) : Run σ α (Vec α n × Stop × Nat) := do
  let x ← s.projection.project x
  s.iterate (10 * n) x 0

end Scale

/-! ### Sweeps -/

/-- A stage of a run. -/
structure State (α : Type) (n : Nat) where
  /-- The best point so far. -/
  best : Vec α n
  /-- The value there. -/
  value : α
  /-- The number of sweeps so far. -/
  sweeps : Nat
  /-- The count of values so far. -/
  evaluations : Nat
  /-- The best value at the start and after every sweep. -/
  history : Array α

/-- Visits the scale `h` in a sweep: descends from the best point, and keeps what it finds if that
is another point with a smaller value. -/
def visit (config : Config α) (f : Objective σ α n) (P : Projection α n) (s : State α n) (h : α) :
    Run σ α (State α n) := do
  let scale : Scale σ α n := { config, objective := f, projection := P, scale := h }
  let (candidate, stop, used) ← scale.descend s.best
  let value ← f.value candidate
  Run.trace "scale finished"
    [("sweep", .count s.sweeps), ("scale", .number h), ("stop", .name stop.name),
     ("value", .number value)]
  let s := { s with evaluations := s.evaluations + (used + 1) }
  if !(candidate == s.best) && value < s.value then pure { s with best := candidate, value }
  else pure s

/-- One sweep over all scales. -/
def sweep (config : Config α) (f : Objective σ α n) (P : Projection α n) (s : State α n) :
    Run σ α (State α n) := do
  let s ← config.scales.foldlM (visit config f P) { s with sweeps := s.sweeps + 1 }
  Run.report config.verbose "implicit filtering sweep"
    [("sweep", .count s.sweeps), ("value", .number s.value)]
  pure { s with history := s.history.push s.value }

/-- Sweeps until one leaves the best point where it was, at most `remaining` of them. -/
def iterate (config : Config α) (f : Objective σ α n) (P : Projection α n) :
    (remaining : Nat) → State α n → Run σ α (State α n)
  | 0, s => throw (.capReached config.maxSweeps (some s.value) none config.tolerance)
  | remaining + 1, s => do
    let next ← sweep config f P s
    if next.best == s.best then pure next else iterate config f P remaining next

/-- The first stage. -/
def start (f : Objective σ α n) (P : Projection α n) (x : Vec α n) : Run σ α (State α n) := do
  let best ← P.project x
  let value ← f.value best
  pure { best, value, sweeps := 0, evaluations := 1, history := #[value] }

/-- The smallest scale; zero if there is none. -/
def finest (config : Config α) : α :=
  match config.scales with
  | [] => 0
  | h :: hs => Scalar.least h hs

/-- Minimizes `f` over the set of `P`, from the projection of `x`. -/
def minimize (config : Config α) (f : Objective σ α n) (P : Projection α n) (x : Vec α n) :
    Run σ α (Outcome α n) := do
  config.validate
  Run.report config.verbose "start implicit filtering"
    [("dimension", .count n), ("scales", .count config.scales.length)]
  let s ← start f P x
  let s ← iterate config f P config.maxSweeps s
  let g ← Stencil.simplexGradient f s.best (finest config)
  let gap ← P.gradientStep s.best g
  let stationarity := gap.norm
  Run.report config.verbose "implicit filtering terminated"
    [("sweeps", .count s.sweeps), ("stationarity", .number stationarity)]
  pure { point := s.best, value := s.value, stationarity, iterations := s.sweeps,
         valueEvaluations := s.evaluations + 2 * n, history := s.history }

end Downhill.ImplicitFiltering
