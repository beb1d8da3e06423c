import Downhill.Scalar.Basic
import Downhill.Linear.Vec

/-!
# Outcomes of a descent

Every routine runs a loop that is steered by a stopping functional: the norm of the gradient, of
the projected gradient step, or of `Jᵀ r` in a least-squares fit. It gives an `Outcome` once the
functional is within the tolerance; running into a cap is a failure, not an outcome.
-/

namespace Downhill

/-- What a descent gives. -/
structure Outcome (α : Type) (n : Nat) where
  /-- The final point. -/
  point : Vec α n
  /-- The value at the final point. -/
  value : α
  /-- The stopping functional at the final point. -/
  stationarity : α
  /-- The number of iterations of the outer loop. -/
  iterations : Nat
  /-- How many values of the objective were computed. -/
  valueEvaluations : Nat := 0
  /-- How many gradients were computed. -/
  gradientEvaluations : Nat := 0
  /-- The value at the start and after every iteration that moved the point. -/
  history : Array α := #[]

/-- Whether no entry of a list exceeds the one before it. -/
def nonincreasing {α : Type} [Scalar α] : List α → Bool
  | a :: b :: rest => b ≤ a && nonincreasing (b :: rest)
  | _ => true

/-- Whether the recorded values never increase. -/
def Outcome.isMonotone {α : Type} [Scalar α] {n : Nat} (o : Outcome α n) : Bool :=
  nonincreasing o.history.toList

end Downhill
