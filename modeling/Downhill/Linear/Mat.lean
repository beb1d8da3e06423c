import Downhill.Failure
import Downhill.Linear.Vec

/-!
# Matrices

`Mat α r c` is a dense matrix with `r` rows and `c` columns. Products with a vector and with a
matrix add the terms of an entry from left to right (`orderedSum`); products with a transposed
left factor are inner products of columns (`Vec.dot`).

* `Mat.solveLower`, `Mat.solveLowerTransposed`: forward substitution for `L y = b` and backward
  substitution for `Lᵀ y = b`, where only the lower triangle of `L` is read. Both fail exactly when
  they meet a zero on the diagonal.
* `AnyMat α`: a matrix together with its shape, for places where the shape is only known when the
  program runs.
* `Vec.ofLength`, `Mat.ofOrder`: checks of such dimensions, which fail with those that were expected
  and found. The unchecked forms `Vec.fit` and `Mat.fit` fail with `Failure.shapeFault`.
-/

namespace Downhill

/-- Dense matrices with `r` rows and `c` columns. -/
structure Mat (α : Type) (r c : Nat) where
  /-- The rows. -/
  rows : Vec (Vec α c) r
deriving BEq

namespace Mat

variable {α : Type} {r c k : Nat}

/-! ### Entries -/

/-- The entry in row `i` and column `j`. -/
def entry (A : Mat α r c) (i : Fin r) (j : Fin c) : α := (A.rows.entry i).entry j

/-- The matrix with the given entries. -/
def ofFn (f : Fin r → Fin c → α) : Mat α r c :=
  ⟨Vector.ofFn fun i => Vector.ofFn fun j => f i j⟩

@[simp] theorem entry_ofFn (f : Fin r → Fin c → α) (i : Fin r) (j : Fin c) :
    (ofFn f).entry i j = f i j := by
  simp [entry, ofFn]

/-- Matrices are equal when their entries are. -/
@[ext] theorem ext {A B : Mat α r c} (h : ∀ i j, A.entry i j = B.entry i j) : A = B := by
  obtain ⟨A⟩ := A
  obtain ⟨B⟩ := B
  congr 1
  ext i hi j hj
  exact h ⟨i, hi⟩ ⟨j, hj⟩

/-- The row with index `i`. -/
def row (A : Mat α r c) (i : Fin r) : Vec α c := A.rows.entry i

/-- The column with index `j`. -/
def column (A : Mat α r c) (j : Fin c) : Vec α r := Vector.ofFn fun i => A.entry i j

/-- The same matrix under equal dimensions. -/
def cast {r' c' : Nat} (hr : r = r') (hc : c = c') (A : Mat α r c) : Mat α r' c' :=
  hr ▸ hc ▸ A

@[simp] theorem cast_rfl (A : Mat α r c) : A.cast rfl rfl = A := rfl

variable [Scalar α]

/-- The zero matrix. -/
def zero : Mat α r c := ofFn fun _ _ => 0

/-- The identity matrix. -/
def identity : Mat α r r := ofFn fun i j => if i = j then 1 else 0

/-- The diagonal matrix with the given diagonal. -/
def diagonal (d : Vec α r) : Mat α r r := ofFn fun i j => if i = j then d.entry i else 0

@[simp] theorem entry_zero (i : Fin r) (j : Fin c) : (zero : Mat α r c).entry i j = 0 :=
  entry_ofFn _ i j

theorem entry_identity (i j : Fin r) :
    (identity : Mat α r r).entry i j = if i = j then 1 else 0 :=
  entry_ofFn _ i j

theorem entry_diagonal (d : Vec α r) (i j : Fin r) :
    (diagonal d).entry i j = if i = j then d.entry i else 0 :=
  entry_ofFn _ i j

/-! ### Sums and products -/

instance : Add (Mat α r c) := ⟨fun A B => ofFn fun i j => A.entry i j + B.entry i j⟩

instance : Sub (Mat α r c) := ⟨fun A B => ofFn fun i j => A.entry i j - B.entry i j⟩

instance : HMul α (Mat α r c) (Mat α r c) := ⟨fun t A => ofFn fun i j => t * A.entry i j⟩

@[simp] theorem entry_add (A B : Mat α r c) (i : Fin r) (j : Fin c) :
    (A + B).entry i j = A.entry i j + B.entry i j :=
  entry_ofFn _ i j

@[simp] theorem entry_sub (A B : Mat α r c) (i : Fin r) (j : Fin c) :
    (A - B).entry i j = A.entry i j - B.entry i j :=
  entry_ofFn _ i j

@[simp] theorem entry_smul (t : α) (A : Mat α r c) (i : Fin r) (j : Fin c) :
    (t * A).entry i j = t * A.entry i j :=
  entry_ofFn _ i j

/-- The product of a matrix and a vector. -/
def mulVec (A : Mat α r c) (x : Vec α c) : Vec α r :=
  Vector.ofFn fun i => orderedSum ((A.row i).zipWith (· * ·) x).toList

instance : HMul (Mat α r c) (Vec α c) (Vec α r) := ⟨mulVec⟩

/-- The product of two matrices. -/
def mul (A : Mat α r k) (B : Mat α k c) : Mat α r c :=
  ofFn fun i j => orderedSum ((A.row i).zipWith (· * ·) (B.column j)).toList

instance : HMul (Mat α r k) (Mat α k c) (Mat α r c) := ⟨mul⟩

/-- The matrix `x yᵀ`. -/
def outer (x : Vec α r) (y : Vec α c) : Mat α r c := ofFn fun i j => x.entry i * y.entry j

@[simp] theorem entry_outer (x : Vec α r) (y : Vec α c) (i : Fin r) (j : Fin c) :
    (outer x y).entry i j = x.entry i * y.entry j :=
  entry_ofFn _ i j

/-- The product `Aᵀ x`. -/
def transposeMulVec (A : Mat α r c) (x : Vec α r) : Vec α c :=
  Vector.ofFn fun j => (A.column j).dot x

/-- The matrix `Aᵀ A` of the inner products of the columns. -/
def gram (A : Mat α r c) : Mat α c c := ofFn fun i j => (A.column i).dot (A.column j)

@[simp] theorem entry_gram (A : Mat α r c) (i j : Fin c) :
    A.gram.entry i j = (A.column i).dot (A.column j) :=
  entry_ofFn _ i j

end Mat

/-- A matrix of any shape. -/
structure AnyMat (α : Type) where
  /-- The number of rows. -/
  rows : Nat
  /-- The number of columns. -/
  cols : Nat
  /-- The matrix. -/
  mat : Mat α rows cols

/-! ### Triangular systems -/

/-- The indices smaller than `i`, in increasing order. -/
def before {n : Nat} (i : Fin n) : List (Fin n) := (List.finRange n).filter (· < i)

/-- The indices larger than `i`, in increasing order. -/
def after {n : Nat} (i : Fin n) : List (Fin n) := (List.finRange n).filter (i < ·)

namespace Mat

variable {α : Type} [Scalar α] {n : Nat}

/-- Entry `i` of the solution of `L y = b`, from the entries before it. -/
def forwardEntry (L : Mat α n n) (b y : Vec α n) (i : Fin n) : α :=
  (before i).foldl (fun rest j => -y.entry j * L.entry i j + rest) (b.entry i) / L.entry i i

/-- Entry `i` of the solution of `Lᵀ y = b`, from the entries after it. -/
def backwardEntry (L : Mat α n n) (b y : Vec α n) (i : Fin n) : α :=
  (b.entry i - laneSum ((after i).map fun k => L.entry k i * y.entry k)) / L.entry i i

/-- Fills in the entries of `indices` one after the other, each by `entry` from those already
known; `none` if the diagonal of `L` has a zero at one of them. -/
def substitute (L : Mat α n n) (entry : Vec α n → Fin n → α) (indices : List (Fin n)) :
    Option (Vec α n) :=
  indices.foldlM (fun y i => if L.entry i i == 0 then none else some (y.put i (entry y i)))
    Vec.zero

/-- The solution of `L y = b` for a lower triangular `L`. -/
def solveLower (L : Mat α n n) (b : Vec α n) : Option (Vec α n) :=
  L.substitute (L.forwardEntry b) (List.finRange n)

/-- The solution of `Lᵀ y = b` for a lower triangular `L`. -/
def solveLowerTransposed (L : Mat α n n) (b : Vec α n) : Option (Vec α n) :=
  L.substitute (L.backwardEntry b) (List.finRange n).reverse

end Mat

/-! ### Checks of dimensions -/

variable {α : Type} {n m r c : Nat}

/-- The vector `x` as one of length `n`. -/
def Vec.ofLength (n : Nat) (x : Vec α m) : Except (Failure α) (Vec α n) :=
  if h : m = n then .ok (x.cast h) else .error (.dimension (.length n) (.length m))

/-- The vector `x` as one of length `n`, where no check is made. -/
def Vec.fit (n : Nat) (x : Vec α m) : Except (Failure α) (Vec α n) :=
  if h : m = n then .ok (x.cast h) else .error .shapeFault

/-- The matrix `A` as a square one of order `n`. -/
def Mat.ofOrder (n : Nat) (A : Mat α r c) : Except (Failure α) (Mat α n n) :=
  if h : r = n ∧ c = n then .ok (A.cast h.1 h.2)
  else .error (.dimension (.shape n n) (.shape r c))

/-- The matrix `A` as one of shape `n × m`, where no check is made. -/
def Mat.fit (n m : Nat) (A : Mat α r c) : Except (Failure α) (Mat α n m) :=
  if h : r = n ∧ c = m then .ok (A.cast h.1 h.2) else .error .shapeFault

@[simp] theorem Vec.ofLength_self (x : Vec α n) : Vec.ofLength n x = .ok x := by
  simp [Vec.ofLength]

@[simp] theorem Vec.fit_self (x : Vec α n) : Vec.fit n x = .ok x := by
  simp [Vec.fit]

@[simp] theorem Mat.ofOrder_self (A : Mat α n n) : Mat.ofOrder n A = .ok A := by
  simp [Mat.ofOrder]

@[simp] theorem Mat.fit_self (A : Mat α n m) : Mat.fit n m A = .ok A := by
  simp [Mat.fit]

end Downhill
