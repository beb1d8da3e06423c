import Downhill.Objective.Basic

/-!
# Augmented Lagrangians

For an objective `f`, a constraint `h(x) = 0`, a multiplier `α` and a penalty `γ > 0` the augmented
Lagrangian is `f(x) + α h(x) + ½ γ h(x)²`. It is an objective again, so any unconstrained routine
can minimize it. The multiplier update of first order is `α + γ h(x)`, which is also the factor of
the gradient of `h` in the gradient of the augmented Lagrangian.
-/

namespace Downhill

/-- The weights of the constraint in an augmented Lagrangian. -/
structure Weights (α : Type) where
  /-- The multiplier `α`. -/
  multiplier : α
  /-- The penalty `γ`. -/
  penalty : α

namespace Weights

variable {σ α : Type} [Scalar α] {n : Nat}

/-- The weights with the given multiplier and penalty, which must not be zero or less. -/
def make (multiplier penalty : α) : Except (Failure α) (Weights α) :=
  if penalty ≤ 0 then .error (.invalidSetting .penalty (.number penalty))
  else .ok { multiplier, penalty }

/-- The same penalty with another multiplier. -/
def withMultiplier (w : Weights α) (multiplier : α) : Weights α := { w with multiplier }

/-- The factor `α + γ h` for the value `h` of the constraint. -/
def factor (w : Weights α) (h : α) : α := w.multiplier + w.penalty * h

/-- The sum of two matrices of any shape and one of order `n`. -/
def hessianSum (A B : AnyMat α) (C : Mat α n n) : Except (Failure α) (AnyMat α) := do
  let A ← A.mat.fit n n
  let B ← B.mat.fit n n
  pure ⟨n, n, A + B + C⟩

/-- The augmented Lagrangian of `f` under the constraint `h`. -/
def lagrangian (w : Weights α) (f h : Objective σ α n) : Objective σ α n where
  value x := do
    let hx ← h.value x
    let fx ← f.value x
    pure (fx + w.multiplier * hx + Scalar.half * w.penalty * hx * hx)
  gradient x := do
    let hx ← h.value x
    let df ← f.gradient x
    let dh ← h.gradient x
    pure (df + w.factor hx * dh)
  hessian x := do
    let hx ← h.value x
    let dh ← h.gradient x
    let Hf ← f.hessian x
    let Hh ← h.hessian x
    hessianSum Hf ⟨Hh.rows, Hh.cols, w.factor hx * Hh.mat⟩ (w.penalty * Mat.outer dh dh)

/-- The multiplier update of first order at a point. -/
def updatedMultiplier (w : Weights α) (h : Objective σ α n) (x : Vec α n) : Run σ α α := do
  let hx ← h.value x
  pure (w.factor hx)

end Weights

end Downhill
