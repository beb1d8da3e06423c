import Downhill.Objective.Basic

/-!
# Quadratic objectives

`Quadratic α m` is the function `½ xᵀA x + bᵀx + c` of `m` variables. Its value and its gradient
`A x + b` refuse points of another length; its Hessian is `A`, whatever the point.
-/

namespace Downhill

/-- The quadratic function `½ xᵀA x + bᵀx + c`. -/
structure Quadratic (α : Type) (m : Nat) where
  /-- The matrix `A`, which should be symmetric. -/
  matrix : Mat α m m
  /-- The linear term `b`. -/
  linear : Vec α m
  /-- The constant term `c`. -/
  constant : α

namespace Quadratic

variable {σ α : Type} [Scalar α] {m r c : Nat}

/-- The quadratic function with the given terms; the matrix has to be square and to fit the linear
term. -/
def make (matrix : Mat α r c) (linear : Vec α m) (constant : α) :
    Except (Failure α) (Quadratic α m) := do
  let matrix ← matrix.ofOrder m
  pure { matrix, linear, constant }

/-- The function `½ ‖x‖²`. -/
def simple (m : Nat) : Quadratic α m := ⟨.identity, .zero, 0⟩

/-- The value at a point. -/
def value (q : Quadratic α m) (x : Vec α m) : α :=
  Scalar.half * x.dot (q.matrix * x) + q.linear.dot x + q.constant

/-- The gradient at a point. -/
def gradient (q : Quadratic α m) (x : Vec α m) : Vec α m := q.matrix * x + q.linear

/-- The quadratic function as an objective at points of length `n`. -/
def objective (q : Quadratic α m) (n : Nat) : Objective σ α n where
  value x := do
    let x ← x.ofLength m
    pure (q.value x)
  gradient x := do
    let x ← x.ofLength m
    (q.gradient x).fit n
  hessian _ := pure ⟨m, m, q.matrix⟩

end Quadratic

end Downhill
