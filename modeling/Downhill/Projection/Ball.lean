import Downhill.Projection.Box

/-!
# Balls

The ball `{x | ‖x - origin‖ ≤ radius}`. No coordinate is ever active.
-/

namespace Downhill

/-- A ball in `m` dimensions. -/
structure Ball (α : Type) (m : Nat) where
  /-- The center. -/
  origin : Vec α m
  /-- The radius. -/
  radius : α

namespace Ball

variable {α : Type} [Scalar α] {m n : Nat}

/-- The ball with the given center and radius, which has to be positive. -/
def make (origin : Vec α m) (radius : α) : Except (Failure α) (Ball α m) :=
  if 0 < radius then .ok { origin, radius }
  else .error (.invalidSetting .radius (.number radius))

/-- The nearest point of the ball: a point outside is drawn back to the sphere along its radius. -/
def shrink (b : Ball α m) (x : Vec α m) : Vec α m :=
  let offset := x - b.origin
  let distance := offset.norm
  if distance ≤ b.radius then x else b.origin + (b.radius / distance) * offset

/-- The projection to a ball at points of length `n`. -/
def projection (b : Ball α m) (n : Nat) : Projection α n where
  project x := do
    let x ← x.ofLength m
    (b.shrink x).fit n

end Ball

end Downhill
