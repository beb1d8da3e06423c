import Downhill.Objective.Basic
import Downhill.Search.Params

/-!
# The Wolfe-Powell line search

Along a direction `d` of descent from a point `x`, the search looks for a step `t` with

* sufficient decrease: `f(x + t d) ≤ f(x) + t σ s`;
* the curvature condition: `∇f(x + t d)ᵀ d ≥ ρ s`,

where `s = ∇f(x)ᵀ d < 0` is the slope at `x`. It starts with `t = 1` and has three phases:

1. `halve`: while the decrease is not sufficient, `t` is halved; then `t` and `2 t` bracket a step;
2. `double`: while it is sufficient, and the curvature condition failed at one, `t` is doubled;
   then the last two steps bracket a step;
3. `bisect`: while the curvature condition fails at the lower end of the bracket, the midpoint
   replaces the lower end if its decrease is sufficient and the upper end otherwise.

The decrease is sufficient at the lower end throughout, so the step that is returned satisfies both
conditions.
-/

namespace Downhill.WolfePowell

variable {σ α : Type} [Scalar α] {n k g : Nat}

/-- The name of the search. -/
def name : String := "Wolfe-Powell"

/-- A step that satisfies both conditions, and what is known at its end. -/
structure Step (α : Type) (n : Nat) where
  /-- The step `t`. -/
  size : α
  /-- The point `x + t d`. -/
  point : Vec α n
  /-- The value at that point. -/
  value : α
  /-- The gradient at that point. -/
  gradient : Vec α n
  /-- The evaluations that the search made. -/
  tally : Tally

/-- The ray that a search runs along. -/
structure Ray (σ α : Type) [Scalar α] (n : Nat) where
  /-- The objective. -/
  objective : Objective σ α n
  /-- The point `x` that the ray starts from. -/
  base : Vec α n
  /-- The direction `d`. -/
  direction : Vec α n
  /-- The value at `x`. -/
  value : α
  /-- The slope `s` at `x`. -/
  slope : α
  /-- The parameters of the search. -/
  params : SearchParams α

/-- A point on the ray with its value. -/
structure Trial (α : Type) (n : Nat) where
  /-- The step `t`. -/
  size : α
  /-- The point `x + t d`. -/
  point : Vec α n
  /-- The value at that point. -/
  value : α

namespace Ray

/-- The point at step `t` with its value. -/
def trial (ray : Ray σ α n) (t : α) : Run σ α (Trial α n) := do
  let point := ray.base + t * ray.direction
  let value ← ray.objective.value point
  pure { size := t, point, value }

/-- Whether the decrease at a trial is sufficient. -/
def decreases (ray : Ray σ α n) (trial : Trial α n) : Bool :=
  trial.value ≤ ray.value + trial.size * ray.params.sigma * ray.slope

/-- The least slope that the curvature condition admits. -/
def slopeBound (ray : Ray σ α n) : α := ray.params.rho * ray.slope

/-- The failure of a phase at the step `t`. -/
def failure (ray : Ray σ α n) (cause : SearchFailure) (iterations : Nat) (t : α) : Failure α :=
  .searchFailed cause iterations t ray.value

/-! ### The phases -/

/-- Halves the step until the decrease is sufficient, at most `remaining` times after `taken`
halvings. -/
def halve (ray : Ray σ α n) :
    (remaining taken : Nat) → (t : α) → Tally → Run σ α (Trial α n × Tally)
  | 0, taken, t, _ => throw (ray.failure .halving taken t)
  | remaining + 1, taken, t, tally => do
    let trial ← ray.trial (t * Scalar.half)
    Run.trace "Wolfe-Powell halving" [("step", .number trial.size)]
    if ray.decreases trial then pure (trial, tally.value)
    else ray.halve remaining (taken + 1) trial.size tally.value

/-- Lower end of a bracket, with the gradient there if it is known, and the upper end. -/
structure Bracket (α : Type) (n : Nat) where
  /-- A trial with sufficient decrease. -/
  lower : Trial α n
  /-- The gradient at that trial, if it is known. -/
  gradient : Option (Vec α n)
  /-- A step without sufficient decrease. -/
  upper : α

/-- Doubles the step until the decrease is no longer sufficient, at most `remaining` times after
`taken` doublings. -/
def double (ray : Ray σ α n) :
    (remaining taken : Nat) → (lower : Trial α n) → (gradient : Option (Vec α n)) → Tally →
      Run σ α (Bracket α n × Tally)
  | 0, taken, lower, _, _ => throw (ray.failure .doubling taken lower.size)
  | remaining + 1, taken, lower, gradient, tally => do
    let trial ← ray.trial (lower.size * Scalar.two)
    Run.trace "Wolfe-Powell doubling" [("step", .number trial.size)]
    if ray.decreases trial then ray.double remaining (taken + 1) trial none tally.value
    else pure ({ lower, gradient, upper := trial.size }, tally.value)

/-- Whether the curvature condition fails for the gradient at a trial. -/
def tooSteep (ray : Ray σ α n) (gradient : Vec α n) : Bool :=
  gradient.dot ray.direction < ray.slopeBound

/-- Bisects the bracket until the curvature condition holds at its lower end, at most `remaining`
times after `taken` bisections. -/
def bisect (ray : Ray σ α n) :
    (remaining taken : Nat) → (lower : Trial α n) → (gradient : Vec α n) → (upper : α) → Tally →
      Run σ α (Step α n)
  | remaining, taken, lower, gradient, upper, tally =>
    if ray.tooSteep gradient then
      match remaining with
      | 0 => throw (ray.failure .bisection taken lower.size)
      | remaining + 1 => do
        let middle ← ray.trial ((lower.size + upper) * Scalar.half)
        Run.trace "Wolfe-Powell bisection" [("step", .number middle.size)]
        if ray.decreases middle then
          let gradient ← ray.objective.gradient middle.point
          ray.bisect remaining (taken + 1) middle gradient upper tally.value.gradient
        else
          ray.bisect remaining (taken + 1) lower gradient middle.size tally.value
    else pure { size := lower.size, point := lower.point, value := lower.value, gradient, tally }

/-- Bisects a bracket, evaluating the gradient at its lower end where it is not known. -/
def refine (ray : Ray σ α n) (bracket : Bracket α n) (tally : Tally) : Run σ α (Step α n) := do
  let cap := ray.params.maxIterations
  match bracket.gradient with
  | some gradient => ray.bisect cap 0 bracket.lower gradient bracket.upper tally
  | none =>
    let gradient ← ray.objective.gradient bracket.lower.point
    ray.bisect cap 0 bracket.lower gradient bracket.upper tally.gradient

/-- The search along the ray. -/
def search (ray : Ray σ α n) (tally : Tally) : Run σ α (Step α n) := do
  let cap := ray.params.maxIterations
  let first ← ray.trial 1
  let tally := tally.value
  if ray.decreases first then
    let gradient ← ray.objective.gradient first.point
    let tally := tally.gradient
    if ray.slopeBound ≤ gradient.dot ray.direction then
      pure { size := first.size, point := first.point, value := first.value, gradient, tally }
    else
      let (bracket, tally) ← ray.double cap 0 first (some gradient) tally
      ray.refine bracket tally
  else
    let (lower, tally) ← ray.halve cap 0 first.size tally
    ray.refine { lower, gradient := none, upper := lower.size * Scalar.two } tally

end Ray

/-! ### Entry points -/

/-- The search from `x` along `d` with the value and gradient at `x` given. -/
def run (f : Objective σ α n) (x : Vec α n) (value : α) (gradient d : Vec α n)
    (params : SearchParams α) (tally : Tally) : Run σ α (Step α n) := do
  let slope ← slope gradient d
  if 0 ≤ slope then throw (.ascent slope)
  params.validateWolfePowell
  Run.report params.verbose "start Wolfe-Powell search"
    [("value", .number value), ("descent", .number slope)]
  let ray : Ray σ α n :=
    { objective := f, base := x, direction := d, value, slope, params }
  let step ← ray.search tally
  Run.report params.verbose "Wolfe-Powell search terminated"
    [("step", .number step.size), ("value", .number step.value)]
  pure step

/-- Searches from `x` along `d`. -/
def search (f : Objective σ α n) (x : Vec α n) (d : Vec α k) (params : SearchParams α) :
    Run σ α (Step α n) := do
  let d ← d.ofLength n
  let value ← f.value x
  let gradient ← f.gradient x
  run f x value gradient d params ⟨1, 1⟩

/-- Searches from `x` along `d`, with the value and gradient at `x` from the caller. -/
def searchFrom (f : Objective σ α n) (x : Vec α n) (value : α) (gradient : Vec α g) (d : Vec α k)
    (params : SearchParams α) : Run σ α (Step α n) := do
  let d ← d.ofLength n
  let gradient ← gradient.ofLength n
  run f x value gradient d params .none

end Downhill.WolfePowell
