import Downhill.Linear.Mat
import Downhill.Objective.Basic
import Downhill.Run

/-!
# Residual models and fits

A `ResidualModel σ α m` gives, for `m` parameters, a vector of residuals and its Jacobian matrix.
Their numbers of rows are known only when the model is evaluated. `Linearization` is a pair of a
residual vector and a Jacobian whose rows match.

`LeastSquares α` holds a model with parameters, measurement points and measured values. Its
residuals are the differences between model and measurement, one per measurement.
-/

namespace Downhill

/-! ### Residual models -/

/-- Residuals in `m` parameters with their Jacobian. -/
structure ResidualModel (σ α : Type) (m : Nat) where
  /-- The residuals. -/
  residual : Vec α m → Run σ α (Array α)
  /-- The Jacobian: row `k` is the gradient of residual `k`. -/
  jacobian : Vec α m → Run σ α (AnyMat α)

/-- Residuals and Jacobian at one parameter vector. -/
structure Linearization (α : Type) where
  /-- The number of residuals. -/
  rows : Nat
  /-- The number of columns of the Jacobian. -/
  cols : Nat
  /-- The residuals. -/
  residual : Vec α rows
  /-- The Jacobian. -/
  jacobian : Mat α rows cols

namespace Linearization

variable {σ α : Type} [Scalar α] {m : Nat}

/-- Joins residuals with a Jacobian, which needs as many rows. -/
def make (residual : Array α) (J : AnyMat α) : Except (Failure α) (Linearization α) := do
  let jacobian ← J.mat.fit residual.size J.cols
  pure { rows := residual.size, cols := J.cols, residual := ⟨residual, rfl⟩, jacobian }

/-- The gradient `Jᵀ r` of half the squared norm of the residuals. -/
def gradient (l : Linearization α) : Vec α l.cols := l.jacobian.transposeMulVec l.residual

/-- The matrix `Jᵀ J + damping · I` of the damped normal equations in `m` parameters. -/
def normalMatrix (l : Linearization α) (m : Nat) (damping : α) :
    Except (Failure α) (Mat α m m) := do
  let gram ← l.jacobian.gram.fit m m
  pure (gram + damping * (Mat.identity : Mat α m m))

end Linearization

/-- Half the squared norm of the residuals. -/
def halfNormSq {α : Type} [Scalar α] (residual : Array α) : α :=
  Vec.normSq (⟨residual, rfl⟩ : Vec α residual.size) * Scalar.half

/-! ### Measurements -/

/-- A model with parameters together with measurements. -/
structure LeastSquares (α : Type) where
  /-- The model. -/
  model : ParametricModel α
  /-- The length of a measurement point. -/
  pointLength : Nat
  /-- The number of measurements. -/
  count : Nat
  /-- The measurement points, one per column. -/
  points : Mat α pointLength count
  /-- The measured values. -/
  data : Vec α count

namespace LeastSquares

variable {σ α : Type} [Scalar α] {d c k m : Nat}

/-- The fit of a model to measurements, of which there have to be as many points as values. -/
def make (model : ParametricModel α) (points : Mat α d c) (data : Vec α k) :
    Except (Failure α) (LeastSquares α) :=
  if h : c = k then .ok ⟨model, d, k, points.cast rfl h, data⟩
  else .error (.dimension (.measurements k) (.measurements c))

/-- The residuals for the parameters `p`. -/
def residual (s : LeastSquares α) (p : Vec α m) : Except (Failure α) (Vec α s.count) := do
  let p ← p.ofLength s.model.parameterCount
  Vec.tabulateM s.count fun k => do
    let value ← s.model.value (s.points.column k) p
    pure (value - s.data.entry k)

/-- The Jacobian of the residuals for the parameters `p`. -/
def jacobian (s : LeastSquares α) (p : Vec α m) :
    Except (Failure α) (Mat α s.count s.model.parameterCount) := do
  let p ← p.ofLength s.model.parameterCount
  let rows ← Vec.tabulateM s.count fun k => s.model.gradient (s.points.column k) p
  pure ⟨rows⟩

/-- The fit as a residual model in `m` parameters. -/
def residualModel (s : LeastSquares α) (m : Nat) : ResidualModel σ α m where
  residual p := do
    let r ← s.residual p
    pure r.toArray
  jacobian p := do
    let J ← s.jacobian p
    pure ⟨_, _, J⟩

end LeastSquares

end Downhill
