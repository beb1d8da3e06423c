import Downhill.Objective.Basic

/-!
# Two model objectives

Both serve as objectives with fixed parameters and as models in those parameters, which enter
linearly.

* `Valley`: the function `cosh x₀ + p₀ (x₁ - 1)² + p₁` of two variables. For positive `p₀` its only
  minimizer is `(0, 1)`.
* `Banded`: the function `½ xᵀA x - bᵀx + p / τ(x)` of eight variables with `τ(x) = ½ xᵀA x + 1`,
  where `A` is the banded matrix with diagonal 10 and off-diagonals 3 and 1, and
  `b = (10, 3, 1, 0, …, 0)`. It is bounded below but not convex; for `p = 1` it has a local
  minimizer near `(1.02614, 0, …, 0)`.
-/

namespace Downhill

/-! ### The valley -/

/-- The valley with parameters `p`. -/
structure Valley (α : Type) where
  /-- The parameters. -/
  parameters : Vec α 2

namespace Valley

variable {σ α : Type} [Scalar α] {k : Nat}

/-- The valley with the given parameters, of which there have to be two. -/
def make (p : Vec α k) : Except (Failure α) (Valley α) := do
  let p ← p.ofLength 2
  pure ⟨p⟩

/-- The valley with both parameters one. -/
def standard : Valley α := ⟨#v[1, 1]⟩

/-- The value at `x` under the parameters `p`. -/
def valueAt (x p : Vec α 2) : α :=
  let offset := x[1] - 1
  Scalar.cosh x[0] + p[0] * offset * offset + p[1]

/-- The gradient at `x` under the parameters `p`. -/
def gradientAt (x p : Vec α 2) : Vec α 2 :=
  #v[Scalar.sinh x[0], Scalar.two * p[0] * (x[1] - 1)]

/-- The Hessian at `x` under the parameters `p`. -/
def hessianAt (x p : Vec α 2) : Mat α 2 2 :=
  .diagonal #v[Scalar.cosh x[0], Scalar.two * p[0]]

/-- The valley as an objective at points of length `n`. -/
def objective (f : Valley α) (n : Nat) : Objective σ α n where
  value x := do
    let x ← x.ofLength 2
    pure (valueAt x f.parameters)
  gradient x := do
    let x ← x.ofLength 2
    (gradientAt x f.parameters).fit n
  hessian x := do
    let x ← x.ofLength 2
    pure ⟨2, 2, hessianAt x f.parameters⟩

/-- The valley as a model in its two parameters. -/
def model : ParametricModel α where
  parameterCount := 2
  value x p := do
    let x ← x.ofLength 2
    let p ← p.ofLength 2
    pure (valueAt x p)
  gradient x p := do
    let x ← x.ofLength 2
    let _ ← p.ofLength 2
    let offset := x[1] - 1
    pure #v[offset * offset, 1]

end Valley

/-! ### The banded objective -/

/-- The banded objective with parameter `p`. -/
structure Banded (α : Type) where
  /-- The parameter. -/
  parameter : α

namespace Banded

variable {σ α : Type} [Scalar α]

/-- The number of variables. -/
def dimension : Nat := 8

/-- The banded objective with parameter one. -/
def standard : Banded α := ⟨1⟩

/-- The matrix `A`. -/
def matrix : Mat α dimension dimension :=
  .ofFn fun i j =>
    match (i.val - j.val) + (j.val - i.val) with
    | 0 => 10.0
    | 1 => 3.0
    | 2 => 1
    | _ => 0

/-- The vector `b`. -/
def linear : Vec α dimension := #v[10.0, 3.0, 1, 0, 0, 0, 0, 0]

/-- An approximate local minimizer for parameter one. -/
def localMinimizer : Vec α dimension := #v[1.02614, 0, 0, 0, 0, 0, 0, 0]

/-- The product `A x`. -/
def product (x : Vec α dimension) : Vec α dimension := Mat.mulVec matrix x

/-- The function `τ(x) = ½ xᵀA x + 1`. -/
def tau (x : Vec α dimension) : α := Scalar.half * x.dot (product x) + 1

/-- The value at `x` under the parameter `p`. -/
def valueAt (x : Vec α dimension) (p : α) : α := tau x - 1 - linear.dot x + p / tau x

/-- The factor `1 - p / τ²` of `A` in the derivatives. -/
def scale (x : Vec α dimension) (p : α) : α := 1 - p / (tau x * tau x)

/-- The gradient at `x` under the parameter `p`. -/
def gradientAt (x : Vec α dimension) (p : α) : Vec α dimension :=
  scale x p * product x - linear

/-- The Hessian at `x` under the parameter `p`. -/
def hessianAt (x : Vec α dimension) (p : α) : Mat α dimension dimension :=
  scale x p * (matrix : Mat α dimension dimension)
    + (Scalar.two * p / (tau x * tau x * tau x)) * Mat.outer (product x) (product x)

/-- The banded objective at points of length `n`. -/
def objective (f : Banded α) (n : Nat) : Objective σ α n where
  value x := do
    let x ← x.ofLength dimension
    pure (valueAt x f.parameter)
  gradient x := do
    let x ← x.ofLength dimension
    (gradientAt x f.parameter).fit n
  hessian x := do
    let x ← x.ofLength dimension
    pure ⟨dimension, dimension, hessianAt x f.parameter⟩

/-- The banded objective as a model in its parameter. -/
def model : ParametricModel α where
  parameterCount := 1
  value x p := do
    let p ← p.ofLength 1
    let x ← x.ofLength dimension
    pure (valueAt x (p.entry ⟨0, Nat.one_pos⟩))
  gradient x p := do
    let _ ← p.ofLength 1
    let x ← x.ofLength dimension
    pure #v[1 / tau x]

end Banded

end Downhill
