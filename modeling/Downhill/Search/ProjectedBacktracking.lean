import Downhill.Objective.Basic
import Downhill.Projection.Box
import Downhill.Search.Params

/-!
# The projected backtracking line search

Along a direction `d` from a point `x`, the search looks for the largest step `t` among
`1, 1/2, 1/4, …` with the projected sufficient decrease

`f(P(x + t d)) ≤ f(x) - (σ / t) ‖x - P(x - t g)‖²`,

where `P` is the projection to the feasible set and `g` the gradient at `P(x)`.
-/

namespace Downhill.ProjectedBacktracking

variable {σ α : Type} [Scalar α] {n k : Nat}

/-- The name of the search. -/
def name : String := "Projected Backtracking"

/-- An accepted step. -/
structure Step (α : Type) (n : Nat) where
  /-- The step `t`. -/
  size : α
  /-- The point `P(x + t d)`. -/
  point : Vec α n
  /-- The value at that point. -/
  value : α
  /-- The evaluations that the search made. -/
  tally : Tally

/-- The path `t ↦ P(x + t d)` that a search runs along. -/
structure Path (σ α : Type) [Scalar α] (n : Nat) where
  /-- The objective. -/
  objective : Objective σ α n
  /-- The projection to the feasible set. -/
  projection : Projection α n
  /-- The point `x` that the path starts from. -/
  base : Vec α n
  /-- The direction `d`. -/
  direction : Vec α n
  /-- The value at `x`. -/
  value : α
  /-- The gradient `g` at `P(x)`. -/
  gradient : Vec α n
  /-- The decrease parameter. -/
  sigma : α

namespace Path

/-- The point `P(x + t d)`. -/
def point (path : Path σ α n) (t : α) : Except (Failure α) (Vec α n) :=
  path.projection.project (path.base + t * path.direction)

/-- The bound `f(x) - (σ / t) ‖x - P(x - t g)‖²` on the value at step `t`. -/
def bound (path : Path σ α n) (t : α) : Except (Failure α) α := do
  let gap ← path.projection.gradientStep path.base (t * path.gradient)
  pure (path.value - path.sigma / t * gap.normSq)

/-- Halves the step until the decrease is sufficient, at most `remaining` times after `taken`
halvings. -/
def backtrack (path : Path σ α n) :
    (remaining taken : Nat) → (t : α) → Tally → Run σ α (Step α n)
  | remaining, taken, t, tally => do
    let point ← path.point t
    let value ← path.objective.value point
    let bound ← path.bound t
    if value ≤ bound then pure { size := t, point, value, tally := tally.value }
    else
      match remaining with
      | 0 => throw (.searchFailed .backtracking taken t path.value)
      | remaining + 1 =>
        Run.trace "projected backtracking halving" [("step", .number (t * Scalar.half))]
        path.backtrack remaining (taken + 1) (t * Scalar.half) tally.value

end Path

/-- Searches from `x` along `d` inside the feasible set of `P`. -/
def search (f : Objective σ α n) (P : Projection α n) (x : Vec α n) (d : Vec α k)
    (params : SearchParams α) : Run σ α (Step α n) := do
  let d ← d.ofLength n
  let feasible ← P.project x
  let gradient ← f.gradient feasible
  let slope ← slope gradient d
  if 0 ≤ slope then throw (.ascent slope)
  params.validateBacktracking
  let value ← f.value x
  Run.report params.verbose "start projected backtracking search" [("value", .number value)]
  let full ← P.project (x + d)
  if full == x then throw (.searchFailed .stationary 0 1 value)
  let path : Path σ α n :=
    { objective := f, projection := P, base := x, direction := d, value, gradient,
      sigma := params.sigma }
  let step ← path.backtrack params.maxIterations 0 1 ⟨1, 1⟩
  Run.report params.verbose "projected backtracking search terminated"
    [("step", .number step.size), ("value", .number step.value)]
  pure step

end Downhill.ProjectedBacktracking
