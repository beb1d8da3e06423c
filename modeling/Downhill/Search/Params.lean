import Downhill.Scalar.Basic
import Downhill.Failure

/-!
# Parameters of the line searches

Both line searches share their parameters: the decrease parameter `sigma`, the curvature parameter
`rho`, which only the Wolfe-Powell search uses, and a cap on the iterations of each phase.
-/

namespace Downhill

/-- The parameters of a line search. -/
structure SearchParams (α : Type) where
  /-- The sufficient decrease parameter `σ`. -/
  sigma : α
  /-- The curvature parameter `ρ`. -/
  rho : α
  /-- The cap on the iterations of each phase. -/
  maxIterations : Nat
  /-- Whether progress is recorded at level `info`. -/
  verbose : Bool

namespace SearchParams

variable {α : Type} [Scalar α]

/-- The defaults of the Wolfe-Powell search: `σ = 10⁻³` and `ρ = 10⁻²`. -/
def wolfePowell : SearchParams α := ⟨1e-3, 1e-2, 100, false⟩

/-- The defaults of the projected backtracking search: `σ = 10⁻⁴`. -/
def projectedBacktracking : SearchParams α := { wolfePowell with sigma := 1e-4 }

/-- Fails if the cap is zero. -/
def validateCap (p : SearchParams α) : Except (Failure α) Unit :=
  if p.maxIterations = 0 then .error (.invalidSetting .searchCap (.count 0)) else .ok ()

/-- Fails unless `0 < σ < 1/2` and `σ < ρ < 1`. -/
def validateWolfePowell (p : SearchParams α) : Except (Failure α) Unit :=
  if !(0 < p.sigma && p.sigma < Scalar.half) then
    .error (.invalidSetting .wolfeDecrease (.number p.sigma))
  else if !(p.sigma < p.rho && p.rho < 1) then
    .error (.invalidSetting .wolfeCurvature (.number p.rho))
  else p.validateCap

/-- Fails unless `0 < σ < 1`. -/
def validateBacktracking (p : SearchParams α) : Except (Failure α) Unit :=
  if !(0 < p.sigma && p.sigma < 1) then
    .error (.invalidSetting .backtrackingDecrease (.number p.sigma))
  else p.validateCap

end SearchParams

/-- How often a routine evaluated an objective. -/
structure Tally where
  /-- The number of values. -/
  values : Nat
  /-- The number of gradients. -/
  gradients : Nat
deriving DecidableEq, Repr

namespace Tally

/-- No evaluations. -/
def none : Tally := ⟨0, 0⟩

/-- One more value. -/
def value (t : Tally) : Tally := { t with values := t.values + 1 }

/-- One more gradient. -/
def gradient (t : Tally) : Tally := { t with gradients := t.gradients + 1 }

instance : Add Tally := ⟨fun s t => ⟨s.values + t.values, s.gradients + t.gradients⟩⟩

end Tally

end Downhill
