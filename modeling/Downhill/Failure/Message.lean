import Downhill.Failure
import Downhill.Scalar.Binary

/-!
# The texts of failures

`Failure.message` words a failure. Numbers are written with the fewest digits that read back in
the scalar type, except the slope of an ascent direction, which is written as a double.
-/

namespace Downhill

/-- What a setting violated, in words. -/
def Setting.reason : Setting → String
  | .tolerance => "tolerance must be positive"
  | .innerTolerance => "CG tolerance must be positive"
  | .initialDamping => "initial damping must be positive"
  | .dampingGrowth => "damping growth must exceed 1"
  | .wolfeDecrease => "sigma must lie in (0, 0.5)"
  | .wolfeCurvature => "rho must lie in (sigma, 1)"
  | .backtrackingDecrease => "sigma must lie in (0, 1)"
  | .filteringDecrease => "sigma must be in (0, 1)"
  | .searchCap => "maximum iterations must be at least 1"
  | .someScale => "at least one scale is required"
  | .positiveScales => "scales must be positive"
  | .stencilScale => "stencil scale must be positive"
  | .shiftIncrement => "shift increment must be positive"
  | .radius => "radius must be positive"
  | .bounds _ => "lower bound exceeds upper bound"
  | .penalty => "penalty must be positive"
  | .other reason _ => reason

/-- The name of a setting. -/
def Setting.parameter : Setting → String
  | .tolerance => "tolerance"
  | .innerTolerance => "cg_tolerance"
  | .initialDamping => "initial_damping"
  | .dampingGrowth => "damping_growth"
  | .wolfeDecrease | .backtrackingDecrease | .filteringDecrease => "sigma"
  | .wolfeCurvature => "rho"
  | .searchCap => "max_iterations"
  | .someScale | .positiveScales => "scales"
  | .stencilScale => "h"
  | .shiftIncrement => "increment"
  | .radius => "radius"
  | .bounds coordinate => s!"lower[{coordinate}]"
  | .penalty => "gamma"
  | .other _ parameter => parameter

/-- The value of a setting as text. -/
def SettingValue.toText {α : Type} [Binary α] : SettingValue α → String
  | .number x => Binary.text x
  | .count n => toString n
  | .emptyList => "[]"
  | .text s => s

/-- Why a line search failed, in words. -/
def SearchFailure.reason : SearchFailure → String
  | .halving => "step halving did not reach sufficient decrease"
  | .doubling => "step doubling kept sufficient decrease"
  | .bisection => "bisection did not reach the curvature condition"
  | .stationary => "point is stationary for the projection"
  | .backtracking => "projected sufficient decrease not reached"
  | .other reason => reason

/-- How the arithmetic broke down, in words. -/
def Breakdown.reason : Breakdown → String
  | .slope => "directional derivative is not finite"
  | .indefinite => "matrix is not positive definite"
  | .residual => "PCG residual is not finite"
  | .shiftsExhausted attempts =>
    s!"incomplete Cholesky broke down after {attempts} diagonal shifts"
  | .singularFactor => "singular incomplete Cholesky factor"
  | .outsideDomain => "outside the guarded domain"
  | .other reason => reason

/-- Dimensions in words. -/
def Extent.toText : Extent → String
  | .length n => toString n
  | .shape rows cols => s!"{rows}x{cols} matrix"
  | .measurements n => s!"{n} measurement points"
  | .other description => description

/-- A capability in words. -/
def Capability.toText : Capability → String
  | .hessian => "Hessian computation not implemented for this objective"
  | .other description => description

/-- A failure in words. -/
def Failure.message {α : Type} [Binary α] : Failure α → String
  | .invalidSetting setting value =>
    "Invalid optimizer configuration: " ++ setting.reason ++ " (" ++ setting.parameter ++ " = "
      ++ value.toText ++ ")"
  | .ascent slope =>
    "Invalid search direction: not a descent direction (directional derivative "
      ++ Binary.text (Binary.widen slope) ++ ")"
  | .searchFailed cause _ _ _ => "Line search failed: " ++ cause.reason
  | .capReached cap _ _ _ => s!"Maximum iterations ({cap}) reached without convergence"
  | .breakdown cause => "Numerical instability detected: " ++ cause.reason
  | .dimension expected actual =>
    "Dimension mismatch: expected " ++ expected.toText ++ ", got " ++ actual.toText
  | .missing capability => "Feature not implemented: " ++ capability.toText
  | .shapeFault => "operand shapes do not fit"

end Downhill
