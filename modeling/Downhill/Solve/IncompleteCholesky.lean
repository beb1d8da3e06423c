import Downhill.Linear.Mat
import Downhill.Run

/-!
# Preconditioners and incomplete Cholesky factors

A `Preconditioner α n` approximates the inverse of a matrix of order `n`: it sends a residual `r` to
`M⁻¹ r`, and may fail. It has a name, which shows in the journal of a solve.

The zero-fill incomplete Cholesky factor of a square matrix `A` is a lower triangular `L` with
positive diagonal that vanishes wherever `A` does below the diagonal, and whose product `L Lᵀ`
agrees with `A + shift · I` everywhere else on and below the diagonal. For a matrix without zeros
below the diagonal it is the Cholesky factor.

The factor is computed column by column (`factorColumn`). When a pivot is not positive the attempt
fails, and `factorize` tries again with a larger shift: first `increment`, then twice the last one.
If the diagonal has an entry that is not positive, already the first attempt is shifted by
`increment` minus the least diagonal entry.
-/

namespace Downhill

/-! ### Preconditioners -/

/-- An approximate inverse. -/
structure Preconditioner (α : Type) (n : Nat) where
  /-- The image `M⁻¹ r` of a residual. -/
  apply : Vec α n → Except (Failure α) (Vec α n)
  /-- The name. -/
  name : String := "Generic Preconditioner"

namespace Preconditioner

variable {α : Type} [Scalar α] {m : Nat}

/-- The identity. -/
def identity (n : Nat) : Preconditioner α n where
  apply r := .ok r
  name := "Identity"

/-- Multiplication of each coordinate by its weight, where no check of lengths is made. -/
def diagonal (w : Vec α m) (n : Nat) : Preconditioner α n where
  apply r := do
    let w ← w.fit n
    pure (r.zipWith (· * ·) w)

end Preconditioner

/-! ### Incomplete Cholesky factors -/

/-- An incomplete Cholesky factor of order `n`. -/
structure IncompleteCholesky (α : Type) (n : Nat) where
  /-- The lower triangular factor. -/
  factor : Mat α n n
  /-- The shift of the diagonal under which the factor was found. -/
  shift : α

namespace IncompleteCholesky

variable {σ α : Type} [Scalar α] {n m r c : Nat}

/-! ### One attempt -/

/-- Subtracts from `a` the products `L_ij L_kj` of the entries before column `k`, left to right. -/
def deflate (L : Mat α n n) (i k : Fin n) (a : α) : α :=
  (before k).foldl (fun rest j => rest - L.entry i j * L.entry k j) a

/-- The square of the diagonal entry in column `k`, given the columns before. -/
def pivot (A : Mat α n n) (shift : α) (L : Mat α n n) (k : Fin n) : α :=
  deflate L k k (A.entry k k + shift)

/-- Fills in column `k` of the factor; `none` if the pivot is not positive and finite. -/
def factorColumn (A : Mat α n n) (shift : α) (L : Mat α n n) (k : Fin n) : Option (Mat α n n) :=
  let p := pivot A shift L k
  if 0 < p && Scalar.isFinite p then
    let d := Scalar.sqrt p
    some <| .ofFn fun i j =>
      if j = k then
        if i = k then d
        else if k < i && !(A.entry i k == 0) then deflate L i k (A.entry i k) / d
        else L.entry i j
      else L.entry i j
  else none

/-- The factor of `A + shift · I`; `none` on a breakdown. -/
def factorAt (A : Mat α n n) (shift : α) : Option (Mat α n n) :=
  (List.finRange n).foldlM (factorColumn A shift) .zero

/-! ### Shifts -/

/-- How many shifts are tried. -/
def attemptCap : Nat := 64

/-- The default increment of the shift. -/
def standardIncrement : α := 1e-3

/-- The shift of the first attempt: none if all diagonal entries are positive. -/
def firstShift (A : Mat α n n) (increment : α) : α :=
  match (List.finRange n).map fun i => A.entry i i with
  | [] => 0
  | d :: ds =>
    let low := Scalar.least d ds
    if 0 < low then 0 else increment - low

/-- Attempts with growing shifts, at most `remaining` of them, after `failed` failed ones. -/
def attempt (A : Mat α n n) (increment : α) :
    (remaining failed : Nat) → (shift : α) → Run σ α (IncompleteCholesky α n)
  | 0, _, _ => throw (.breakdown (.shiftsExhausted attemptCap))
  | remaining + 1, failed, shift =>
    match factorAt A shift with
    | some factor => do
      if 0 < failed then
        Run.record ⟨.debug, "incomplete Cholesky needed a diagonal shift",
          [("shift", .number shift), ("attempts", .count (failed + 1))]⟩
      pure { factor, shift }
    | none => attempt A increment remaining (failed + 1) (Scalar.max (shift + shift) increment)

/-- The incomplete Cholesky factor of a matrix, which has to be square, with a positive increment
of the shift. -/
def factorize (A : Mat α r c) (increment : α) : Run σ α (IncompleteCholesky α r) := do
  let A ← A.ofOrder r
  if 0 < increment then attempt A increment attemptCap 0 (firstShift A increment)
  else throw (.invalidSetting .shiftIncrement (.number increment))

/-! ### Solving -/

/-- The solution `y` of `L Lᵀ y = b`. -/
def solve (f : IncompleteCholesky α n) (b : Vec α n) : Except (Failure α) (Vec α n) :=
  match f.factor.solveLower b with
  | none => .error (.breakdown .singularFactor)
  | some y =>
    match f.factor.solveLowerTransposed y with
    | none => .error (.breakdown .singularFactor)
    | some z => .ok z

/-- The solution for a right-hand side of any length. -/
def solveAny (f : IncompleteCholesky α n) (b : Vec α m) : Except (Failure α) (Vec α n) := do
  let b ← b.ofLength n
  f.solve b

/-- The factor as a preconditioner at residuals of length `m`. -/
def preconditioner (f : IncompleteCholesky α n) (m : Nat) : Preconditioner α m where
  apply r := do
    let y ← f.solveAny r
    y.fit m
  name := "Incomplete Cholesky"

end IncompleteCholesky

end Downhill
