import Downhill.Objective.Separable
import Downhill.Residual.LeastSquares

/-!
# Residual models in closed form

Residuals `A p - b` with a constant Jacobian, the two residuals `10 (p₁ - p₀²)` and `1 - p₀` of the
curved valley of Rosenbrock, and one polynomial per parameter.
-/

namespace Downhill.ResidualModel

variable {σ α : Type} [Scalar α] {r c k m : Nat}

/-- The residuals `A p - b`. -/
def linear (A : Mat α r c) (b : Vec α k) (m : Nat) : ResidualModel σ α m where
  residual p := do
    let p ← p.fit c
    let b ← b.fit r
    pure (A * p - b).toArray
  jacobian _ := pure ⟨r, c, A⟩

/-- The coordinate `i` of a parameter vector, where no check is made that there is one. -/
def coordinate (p : Vec α m) (i : Nat) : Except (Failure α) α :=
  match p[i]? with
  | some t => .ok t
  | none => .error .shapeFault

/-- The residuals `10 (p₁ - p₀²)` and `1 - p₀`. -/
def rosenbrock (m : Nat) : ResidualModel σ α m where
  residual p := do
    let p0 ← coordinate p 0
    let p1 ← coordinate p 1
    pure #[10.0 * (p1 - p0 * p0), 1 - p0]
  jacobian p := do
    let p0 ← coordinate p 0
    pure ⟨2, 2, ⟨#v[#v[-20.0 * p0, 10.0], #v[-1, 0]]⟩⟩

/-- The polynomials applied to the parameters, one each in order; polynomials beyond the last
parameter are left aside, and a parameter without a polynomial is a shape fault. -/
def applyEach (terms : List (Polynomial α)) (p : Vec α m) : Except (Failure α) (Vec α m) :=
  Vec.tabulateM m fun i =>
    match terms[i.val]? with
    | some term => .ok (term.eval (p.entry i))
    | none => .error .shapeFault

/-- One polynomial per parameter, with a diagonal Jacobian. -/
def polynomial (terms : List (Polynomial α)) (m : Nat) : ResidualModel σ α m where
  residual p := do
    let r ← applyEach terms p
    pure r.toArray
  jacobian p := do
    let d ← applyEach (terms.map .derivative) p
    pure ⟨m, m, .diagonal d⟩

end Downhill.ResidualModel
