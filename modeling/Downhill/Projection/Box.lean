import Downhill.Linear.Mat

/-!
# Projections and boxes

A `Projection α n` sends each point to the nearest point of a closed convex set. It also names the
coordinates that the set pins down at a point, its active coordinates; by default there are none.
A point belongs to the set exactly when the projection does not move it.

The first such set is the box `{x | lower ≤ x ≤ upper}`. A coordinate is active when it is within a
small tolerance of one of its bounds.
-/

namespace Downhill

/-! ### Projections -/

/-- A projection to a closed convex set. -/
structure Projection (α : Type) (n : Nat) where
  /-- The nearest point of the set. -/
  project : Vec α n → Except (Failure α) (Vec α n)
  /-- The active coordinates at a point, in increasing order. -/
  active : Vec α n → Except (Failure α) (List (Fin n)) := fun _ => .ok []

namespace Projection

variable {α : Type} [Scalar α] {n : Nat}

/-- Whether a point belongs to the set. -/
def contains (P : Projection α n) (x : Vec α n) : Except (Failure α) Bool := do
  let y ← P.project x
  pure (y == x)

/-- Whether projecting a point twice is projecting it once. -/
def fixesImage (P : Projection α n) (x : Vec α n) : Except (Failure α) Bool := do
  let y ← P.project x
  let z ← P.project y
  pure (z == y)

/-- The step `x - P(x - g)` of the projected gradient. -/
def gradientStep (P : Projection α n) (x g : Vec α n) : Except (Failure α) (Vec α n) := do
  let y ← P.project (x - g)
  pure (x - y)

/-- The projection to the whole space. -/
def whole (n : Nat) : Projection α n where
  project x := .ok x

end Projection

/-! ### Boxes -/

/-- A box with `m` coordinates. -/
structure Box (α : Type) (m : Nat) where
  /-- The lower bounds. -/
  lower : Vec α m
  /-- The upper bounds. -/
  upper : Vec α m

namespace Box

variable {α : Type} [Scalar α] {m k n : Nat}

/-- The box with the given bounds, of equal number; no lower bound may exceed its upper bound. -/
def make (lower : Vec α m) (upper : Vec α k) : Except (Failure α) (Box α m) := do
  let upper ← upper.ofLength m
  match (List.finRange m).find? fun i => upper.entry i < lower.entry i with
  | some i => throw (.invalidSetting (.bounds i) (.number (lower.entry i)))
  | none => pure { lower, upper }

/-- The nearest point of the box: each coordinate raised to its lower bound, then cut at its upper
bound. -/
def clamp (b : Box α m) (x : Vec α m) : Vec α m :=
  Vector.ofFn fun i => Scalar.min (Scalar.max (x.entry i) (b.lower.entry i)) (b.upper.entry i)

/-- The coordinates within the tolerance of a bound. -/
def activeAt (b : Box α m) (x : Vec α m) : List (Fin m) :=
  (List.finRange m).filter fun i =>
    x.entry i - b.lower.entry i ≤ Scalar.activeTolerance
      || b.upper.entry i - x.entry i ≤ Scalar.activeTolerance

/-- The projection to a box at points of length `n`. -/
def projection (b : Box α m) (n : Nat) : Projection α n where
  project x := do
    let x ← x.ofLength m
    (b.clamp x).fit n
  active x :=
    if h : n = m then .ok ((b.activeAt (x.cast h)).map (Fin.cast h.symm))
    else .error (.dimension (.length m) (.length n))

end Box

end Downhill
