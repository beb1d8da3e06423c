import Downhill.Objective.Basic
import Downhill.Scalar.Basic

/-!
# Separable objectives

A sum `p₀(x₀) + p₁(x₁) + …` of polynomials, one per coordinate. Its Hessian is diagonal. A
polynomial is the list of its coefficients, the constant one first, and is evaluated by Horner's
rule from the highest coefficient down.
-/

namespace Downhill

/-! ### Polynomials -/

/-- A polynomial: the coefficients, starting with the constant one. -/
abbrev Polynomial (α : Type) := List α

namespace Polynomial

variable {α : Type} [Scalar α]

/-- The value at `x` by Horner's rule; zero without coefficients. -/
def eval (p : Polynomial α) (x : α) : α := p.foldr (fun c acc => acc * x + c) 0

/-- Multiplies the coefficients by `k`, `k + 1`, …. -/
def scaleFrom (k : α) : Polynomial α → Polynomial α
  | [] => []
  | c :: cs => k * c :: scaleFrom (k + 1) cs

/-- The derivative. -/
def derivative (p : Polynomial α) : Polynomial α := scaleFrom 1 p.tail

end Polynomial

/-! ### Sums of polynomials -/

/-- A sum of `m` polynomials in one variable each. -/
structure Separable (α : Type) (m : Nat) where
  /-- The polynomials. -/
  terms : Vector (Polynomial α) m

namespace Separable

variable {σ α : Type} [Scalar α] {m : Nat}

/-- The polynomials applied to the coordinates, one each. -/
def apply (terms : Vector (Polynomial α) m) (x : Vec α m) : Vec α m :=
  terms.zipWith Polynomial.eval x

/-- The sum of polynomials as an objective at points of length `n`. -/
def objective (f : Separable α m) (n : Nat) : Objective σ α n where
  value x := do
    let x ← x.ofLength m
    pure ((apply f.terms x).foldl (· + ·) 0)
  gradient x := do
    let x ← x.ofLength m
    (apply (f.terms.map .derivative) x).fit n
  hessian x := do
    let x ← x.ofLength m
    pure ⟨m, m, .diagonal (apply (f.terms.map fun p => p.derivative.derivative) x)⟩

end Separable

end Downhill
