import Downhill.Objective.Basic

/-!
# Restricted objectives

Objectives that provide less than another one: only its values, only its values and gradients, or
everything but only on a cube around the origin. What is not provided falls back on the defaults of
`Objective`.
-/

namespace Downhill.Objective

variable {σ α : Type} [Scalar α] {n : Nat}

/-- The values of `f` alone. -/
def valueOnly (f : Objective σ α n) : Objective σ α n where
  value := f.value

/-- The values and gradients of `f`. -/
def gradientOnly (f : Objective σ α n) : Objective σ α n where
  value := f.value
  gradient := f.gradient

/-- Whether no coordinate exceeds `limit` or falls below `-limit`. -/
def withinCube (limit : α) (x : Vec α n) : Bool :=
  x.all fun t => !(limit < t || t < -limit)

/-- The objective `f` on the cube `[-limit, limit]ⁿ`; elsewhere every evaluation fails. -/
def guarded (f : Objective σ α n) (limit : α) : Objective σ α n where
  value x := if withinCube limit x then f.value x else throw (.breakdown .outsideDomain)
  gradient x := if withinCube limit x then f.gradient x else throw (.breakdown .outsideDomain)
  hessian x := if withinCube limit x then f.hessian x else throw (.breakdown .outsideDomain)

end Downhill.Objective
