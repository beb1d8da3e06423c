/-!
# Scalars

Every routine of this library is written once, over a type of scalars. `Scalar α` supplies the
arithmetic, the comparisons and the few elementary functions the routines need, together with the
constants that depend on the precision of `α`. It states no laws: the instances in
`Downhill.Scalar.Binary` round and know a not-a-number, and a routine has to behave sensibly there
too.

Comparisons are only ever used in their positive form, so a test that involves a not-a-number
fails. `Scalar.min` and `Scalar.max` prefer a number to a not-a-number.
-/

namespace Downhill

/-- The arithmetic that the descent routines run on. -/
class Scalar (α : Type) extends Zero α, One α, Add α, Sub α, Mul α, Div α, Neg α,
    LT α, LE α, BEq α, OfScientific α where
  /-- Strict comparison can be tested. -/
  decideLt : DecidableLT α
  /-- Weak comparison can be tested. -/
  decideLe : DecidableLE α
  /-- Square root. -/
  sqrt : α → α
  /-- Absolute value. -/
  abs : α → α
  /-- Hyperbolic cosine. -/
  cosh : α → α
  /-- Hyperbolic sine. -/
  sinh : α → α
  /-- Neither infinite nor a not-a-number. -/
  isFinite : α → Bool
  /-- The gap between one and the next larger scalar. -/
  epsilon : α
  /-- Default tolerance of a linear solve. -/
  solveTolerance : α
  /-- Default tolerance of a stopping functional. -/
  gradientTolerance : α
  /-- How close to a bound a coordinate counts as active. -/
  activeTolerance : α

-- `low`: a type with an arithmetic of its own, such as the reals, is used with that arithmetic and
-- not with the projections of the instance that was filled from it.
attribute [instance(low)] Scalar.toZero Scalar.toOne Scalar.toAdd Scalar.toSub Scalar.toMul
  Scalar.toDiv Scalar.toNeg Scalar.toLT Scalar.toLE Scalar.toBEq Scalar.toOfScientific

namespace Scalar

variable {α : Type} [Scalar α]

instance : DecidableLT α := decideLt

instance : DecidableLE α := decideLe

/-- The usual step of a finite difference, `√ε`. -/
def differenceStep : α := sqrt epsilon

/-- One half. -/
def half : α := 0.5

/-- Two. -/
def two : α := 2.0

/-- The smaller of two scalars; of a number and a not-a-number, the number. -/
def min (a b : α) : α :=
  if a ≤ a then if b ≤ a then b else a else b

/-- The larger of two scalars; of a number and a not-a-number, the number. -/
def max (a b : α) : α :=
  if a ≤ a then if a ≤ b then b else a else b

/-- The least entry of the list `a :: as`. -/
def least (a : α) (as : List α) : α := as.foldl min a

/-- Whether `a` and `b` agree up to `absolute`, or up to `relative` times the larger magnitude.
Infinite scalars only agree when they are equal, and a not-a-number agrees with nothing. -/
def agree (absolute relative : α) (a b : α) : Bool :=
  if a == b then true
  else if !(isFinite a && isFinite b) then false
  else
    let gap := abs (a - b)
    if gap ≤ absolute then true
    else
      let size := if abs b < abs a then abs a else abs b
      decide (gap ≤ size * relative)

end Scalar

end Downhill
