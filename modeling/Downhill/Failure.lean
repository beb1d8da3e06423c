/-!
# Failures

What can go wrong in a routine of this library, by cause. The families are

* settings outside their range (`invalidSetting`), found before anything is computed;
* a line search along a direction that is not one of descent (`ascent`);
* a loop that used up its cap (`searchFailed`, `capReached`);
* breakdowns of the arithmetic (`breakdown`), wrong dimensions (`dimension`) and capabilities an
  objective lacks (`missing`);
* `shapeFault`: an operation on vectors or matrices whose shapes do not fit, which no check caught.

The texts are written in `Downhill.Failure.Message`.
-/

namespace Downhill

/-- A setting together with the range that it has to lie in. -/
inductive Setting where
  /-- The tolerance of a stopping functional is positive. -/
  | tolerance
  /-- The tolerance of the inner linear solves is positive. -/
  | innerTolerance
  /-- The damping that a run starts with is positive. -/
  | initialDamping
  /-- The growth factor of the damping exceeds one. -/
  | dampingGrowth
  /-- The decrease parameter of the Wolfe-Powell search lies in `(0, 1/2)`. -/
  | wolfeDecrease
  /-- The curvature parameter of the Wolfe-Powell search lies between the decrease parameter and
  one. -/
  | wolfeCurvature
  /-- The decrease parameter of the backtracking search lies in `(0, 1)`. -/
  | backtrackingDecrease
  /-- The decrease parameter of implicit filtering lies in `(0, 1)`. -/
  | filteringDecrease
  /-- The cap of a line search is at least one. -/
  | searchCap
  /-- There is at least one stencil scale. -/
  | someScale
  /-- All stencil scales are positive. -/
  | positiveScales
  /-- The scale of one stencil is positive. -/
  | stencilScale
  /-- The increment of the diagonal shift is positive. -/
  | shiftIncrement
  /-- The radius of a ball is positive. -/
  | radius
  /-- A lower bound does not exceed the upper bound of the same coordinate. -/
  | bounds (coordinate : Nat)
  /-- The penalty of an augmented Lagrangian is positive. -/
  | penalty
  /-- A setting that is described in words. -/
  | other (reason parameter : String)
deriving DecidableEq, Repr

/-- The value that a setting had. -/
inductive SettingValue (α : Type) where
  /-- A number. -/
  | number (x : α)
  /-- A count. -/
  | count (n : Nat)
  /-- A list without entries. -/
  | emptyList
  /-- A value that is given as text. -/
  | text (s : String)
deriving Repr

/-- Why a line search found no step. -/
inductive SearchFailure where
  /-- Halving never reached a sufficient decrease. -/
  | halving
  /-- Doubling never lost the sufficient decrease. -/
  | doubling
  /-- Bisection never reached the curvature condition. -/
  | bisection
  /-- The projected full step does not move the point. -/
  | stationary
  /-- Backtracking never reached the projected sufficient decrease. -/
  | backtracking
  /-- A cause that is described in words. -/
  | other (reason : String)
deriving DecidableEq, Repr

/-- How the arithmetic broke down. -/
inductive Breakdown where
  /-- A directional derivative is not finite. -/
  | slope
  /-- A matrix that has to be positive definite is not. -/
  | indefinite
  /-- The residual of a linear solve is not finite. -/
  | residual
  /-- No diagonal shift that was tried made a factorization succeed. -/
  | shiftsExhausted (attempts : Nat)
  /-- A triangular factor has a zero on the diagonal. -/
  | singularFactor
  /-- A guarded objective was evaluated outside its domain. -/
  | outsideDomain
  /-- A cause that is described in words. -/
  | other (reason : String)
deriving DecidableEq, Repr

/-- The dimensions of an operand. -/
inductive Extent where
  /-- The length of a vector. -/
  | length (n : Nat)
  /-- The shape of a matrix. -/
  | shape (rows cols : Nat)
  /-- The number of measurement points. -/
  | measurements (n : Nat)
  /-- Dimensions that are described in words. -/
  | other (description : String)
deriving DecidableEq, Repr

/-- What an objective does not provide. -/
inductive Capability where
  /-- The Hessian matrix. -/
  | hessian
  /-- A capability that is described in words. -/
  | other (description : String)
deriving DecidableEq, Repr

/-- What can go wrong, over scalars `α`. -/
inductive Failure (α : Type) where
  /-- A setting lies outside its range. -/
  | invalidSetting (setting : Setting) (value : SettingValue α)
  /-- The slope along a search direction is not negative. -/
  | ascent (slope : α)
  /-- A line search found no step within its cap. -/
  | searchFailed (cause : SearchFailure) (iterations : Nat) (lastStep startValue : α)
  /-- A loop used up its cap. The objective value and the stopping functional are those of the last
  iterate, where the loop has them. -/
  | capReached (cap : Nat) (value stopping : Option α) (tolerance : α)
  /-- The arithmetic broke down. -/
  | breakdown (cause : Breakdown)
  /-- An operand has the wrong dimensions. -/
  | dimension (expected actual : Extent)
  /-- An objective lacks a capability. -/
  | missing (capability : Capability)
  /-- An operation was applied to operands whose shapes do not fit. -/
  | shapeFault
deriving Repr

/-- Whether a failure says that a loop used up its cap. -/
def Failure.isNonConvergence {α : Type} : Failure α → Bool
  | .searchFailed .. | .capReached .. => true
  | _ => false

end Downhill
