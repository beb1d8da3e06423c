import Downhill.Solve.IncompleteCholesky

/-!
# Preconditioned conjugate gradients

Solves `A x = b` for a symmetric positive definite `A` until `‖A x - b‖` is at most a tolerance.

With the residual `r = A x - b` and a preconditioner `M`, one step along the direction `d` is
`t = (rᵀ z) / (dᵀ A d)`, `x ← x + t d`, `r ← r + t A d`, `z = M⁻¹ r`, `d ← β d - z`, where `β` is the
quotient of the new and the old `rᵀ z`. A curvature `dᵀ A d` that is not positive means that `A` is
not positive definite.

The residual that the steps carry along drifts from `A x - b`. So when it falls below the tolerance
the residual is computed afresh, and the iteration ends only if that one is below the tolerance as
well; otherwise it starts anew from the current point (`settle`).
-/

namespace Downhill.ConjugateGradient

variable {σ α : Type} [Scalar α] {n r c : Nat}

/-- The settings of a solve. -/
structure Config (α : Type) [Scalar α] where
  /-- The tolerance on the norm of the residual. -/
  tolerance : α := Scalar.solveTolerance
  /-- The cap on steps, by default ten per unknown and at least ten. -/
  maxIterations : Option Nat := none
  /-- Whether progress is recorded at level `info`. -/
  verbose : Bool := false

namespace Config

/-- Fails unless the tolerance is positive. -/
def validate (config : Config α) : Except (Failure α) Unit :=
  if 0 < config.tolerance then .ok ()
  else .error (.invalidSetting .tolerance (.number config.tolerance))

/-- The cap on steps for `n` unknowns. -/
def cap (config : Config α) (n : Nat) : Nat :=
  config.maxIterations.getD (max (10 * n) 10)

end Config

/-- What a solve gives. -/
structure Solution (α : Type) (n : Nat) where
  /-- The approximate solution `x`. -/
  point : Vec α n
  /-- The number of steps. -/
  iterations : Nat
  /-- The norm of `A x - b`. -/
  residualNorm : α

/-! ### The iteration -/

/-- A system with a preconditioner and a tolerance. -/
structure Problem (α : Type) (n : Nat) where
  /-- The matrix `A`. -/
  matrix : Mat α n n
  /-- The right-hand side `b`. -/
  rhs : Vec α n
  /-- The preconditioner `M`. -/
  preconditioner : Preconditioner α n
  /-- The tolerance on the norm of the residual. -/
  tolerance : α

/-- A stage of the iteration. -/
structure State (α : Type) (n : Nat) where
  /-- The point `x`. -/
  point : Vec α n
  /-- The residual `r` that the steps carry along. -/
  residual : Vec α n
  /-- The direction `d` of the next step. -/
  direction : Vec α n
  /-- The product `rᵀ M⁻¹ r`. -/
  energy : α
  /-- The number of steps so far. -/
  steps : Nat

namespace Problem

/-- The residual `A x - b` of a point. -/
def residualAt (p : Problem α n) (x : Vec α n) : Vec α n := p.matrix * x - p.rhs

/-- The stage at the point `x` with residual `r`, from which the direction is steepest descent. -/
def restart (p : Problem α n) (x r : Vec α n) (steps : Nat) : Except (Failure α) (State α n) := do
  let z ← p.preconditioner.apply r
  pure { point := x, residual := r, direction := -z, energy := r.dot z, steps }

/-- Whether a residual is within the tolerance. -/
def accepts (p : Problem α n) (r : Vec α n) : Bool := r.norm ≤ p.tolerance

/-- Ends the iteration if the recomputed residual is within the tolerance too (`inl`, with that
residual); otherwise gives the stage to go on from. -/
def settle (p : Problem α n) (s : State α n) : Run σ α (Vec α n ⊕ State α n) :=
  if p.accepts s.residual then
    let residual := p.residualAt s.point
    if p.accepts residual then pure (.inl residual)
    else do
      Run.trace "PCG restart from the true residual"
        [("iteration", .count s.steps), ("residual_norm", .number residual.norm)]
      let s ← p.restart s.point residual s.steps
      pure (.inr s)
  else pure (.inr s)

/-- One step. -/
def step (p : Problem α n) (s : State α n) : Run σ α (State α n) := do
  let image := p.matrix * s.direction
  let curvature := s.direction.dot image
  if !(0 < curvature) then throw (.breakdown .indefinite)
  let t := s.energy / curvature
  let point := s.point + t * s.direction
  let residual := s.residual + t * image
  let z ← p.preconditioner.apply residual
  let energy := residual.dot z
  let direction := (energy / s.energy) * s.direction - z
  Run.trace "PCG step"
    [("iteration", .count (s.steps + 1)), ("residual_norm", .number residual.norm)]
  pure { point, residual, direction, energy, steps := s.steps + 1 }

/-- Steps until the residual is within the tolerance, at most `remaining` of them; `cap` is the cap
that a failure names. Gives the last stage and its recomputed residual. -/
def iterate (p : Problem α n) (cap : Nat) :
    (remaining : Nat) → State α n → Run σ α (State α n × Vec α n)
  | remaining, s => do
    match ← p.settle s with
    | .inl residual => pure (s, residual)
    | .inr s =>
      match remaining with
      | 0 => throw (.capReached cap none (some s.residual.norm) p.tolerance)
      | remaining + 1 =>
        let s ← p.step s
        p.iterate cap remaining s

/-- The whole iteration, from the preconditioned right-hand side. -/
def run (p : Problem α n) (cap : Nat) : Run σ α (State α n × Vec α n) := do
  let x ← p.preconditioner.apply p.rhs
  let s ← p.restart x (p.residualAt x) 0
  p.iterate cap cap s

end Problem

/-! ### Solving -/

/-- Solves `A x = b` with the given preconditioner. -/
def solveWith (config : Config α) (A : Mat α r c) (b : Vec α n) (M : Preconditioner α n) :
    Run σ α (Solution α n) := do
  config.validate
  let A ← A.ofOrder n
  Run.report config.verbose "start PCG solver"
    [("dimension", .count n), ("preconditioner", .name M.name)]
  let (s, residual) ← Problem.run ⟨A, b, M, config.tolerance⟩ (config.cap n)
  let residualNorm := residual.norm
  if !(Scalar.isFinite residualNorm) then throw (.breakdown .residual)
  Run.report config.verbose "PCG solver terminated"
    [("iterations", .count s.steps), ("residual_norm", .number residualNorm)]
  pure { point := s.point, iterations := s.steps, residualNorm }

/-- Solves `A x = b` with the incomplete Cholesky factor of `A` as preconditioner. -/
def solve (config : Config α) (A : Mat α r c) (b : Vec α n) : Run σ α (Solution α n) := do
  config.validate
  let A ← A.ofOrder n
  let factor ← IncompleteCholesky.factorize A IncompleteCholesky.standardIncrement
  solveWith config A b (factor.preconditioner n)

/-- Solves `A x = b` to a tolerance, with the other settings at their defaults. -/
def solveTo (tolerance : α) (A : Mat α r c) (b : Vec α n) : Run σ α (Vec α n) := do
  let solution ← solve { tolerance } A b
  pure solution.point

end Downhill.ConjugateGradient
