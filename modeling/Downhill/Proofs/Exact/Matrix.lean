import Downhill.Linear.Mat
import Downhill.Proofs.Exact.Euclidean
import Mathlib.Analysis.InnerProductSpace.Symmetric
import Mathlib.LinearAlgebra.Matrix.NonsingularInverse

/-!
# Exact matrices as linear maps

A matrix over the reals acts on the Euclidean space of vectors: `Mat.toLin` is the product with a
vector as a linear map, and it sends the operations on matrices to those on maps. `Mat.IsSymm` and
`Mat.IsPosDef` say of the entries and of the products that a matrix is symmetric and positive
definite.

`Mat.transposeMulVec` computes the product with the transposed matrix, which is the adjoint of the
product with the matrix (`inner_transposeMulVec`). So the matrix `Aᵀ A` of the inner products of the
columns acts as both products one after the other (`gram_mulVec`), and with a positive multiple of
the identity added it is positive definite (`isPosDef_gram_add`). `Mat.transpose` is the transposed
matrix itself. The entries of `A Aᵀ` are the inner products of the rows (`entry_mul_transpose`).

`A.IsInverse B` says that `A` and `B` are inverse to each other; for square matrices one of the two
products is enough (`isInverse_of_mulVec`). A positive definite matrix has the inverse `A.inverse`
(`IsPosDef.isInverse_inverse`), so its systems can be solved (`IsPosDef.mulVec_inverse_mulVec`).
-/

namespace Downhill.Mat

variable {r k c n : Nat}

/-! ### Products with a vector -/

/-- The entries of a product of a matrix and a vector. -/
theorem getElem_mulVec (A : Mat ℝ r c) (x : Vec ℝ c) (i : Nat) (hi : i < r) :
    (A * x)[i] = ∑ j, A.entry ⟨i, hi⟩ j * x.entry j := by
  show (A.mulVec x)[i] = _
  unfold mulVec row
  rw [Vector.getElem_ofFn, orderedSum_eq_sum, Vec.sum_toList]
  simp [entry]

/-- The product with a vector as a linear map. -/
noncomputable def toLin (A : Mat ℝ r c) : Vec ℝ c →ₗ[ℝ] Vec ℝ r where
  toFun x := A * x
  map_add' x y := by
    ext i hi
    rw [Vector.getElem_add, getElem_mulVec, getElem_mulVec, getElem_mulVec,
      ← Finset.sum_add_distrib]
    refine Finset.sum_congr rfl fun j _ => ?_
    rw [Vec.entry_eq_getElem, Fin.getElem_fin, Vector.getElem_add, mul_add]
    rfl
  map_smul' t x := by
    ext i hi
    rw [RingHom.id_apply, Vector.getElem_smul, getElem_mulVec, getElem_mulVec, smul_eq_mul,
      Finset.mul_sum]
    refine Finset.sum_congr rfl fun j _ => ?_
    rw [Vec.entry_eq_getElem, Fin.getElem_fin, Vector.getElem_smul, smul_eq_mul]
    exact mul_left_comm _ _ _

theorem toLin_apply (A : Mat ℝ r c) (x : Vec ℝ c) : A.toLin x = A * x := rfl

theorem toLin_identity : (identity : Mat ℝ n n).toLin = LinearMap.id := by
  ext x i hi
  rw [toLin_apply, getElem_mulVec]
  simp [entry_identity]

theorem toLin_zero : (zero : Mat ℝ r c).toLin = 0 := by
  ext x i hi
  rw [toLin_apply, getElem_mulVec]
  simp

theorem toLin_add (A B : Mat ℝ r c) : (A + B).toLin = A.toLin + B.toLin := by
  ext x i hi
  rw [LinearMap.add_apply, Vector.getElem_add, toLin_apply, toLin_apply, toLin_apply,
    getElem_mulVec, getElem_mulVec, getElem_mulVec, ← Finset.sum_add_distrib]
  refine Finset.sum_congr rfl fun j _ => ?_
  rw [entry_add, add_mul]

theorem toLin_sub (A B : Mat ℝ r c) : (A - B).toLin = A.toLin - B.toLin := by
  ext x i hi
  rw [LinearMap.sub_apply, Vector.getElem_sub, toLin_apply, toLin_apply, toLin_apply,
    getElem_mulVec, getElem_mulVec, getElem_mulVec, ← Finset.sum_sub_distrib]
  refine Finset.sum_congr rfl fun j _ => ?_
  rw [entry_sub, sub_mul]

theorem toLin_smul (t : ℝ) (A : Mat ℝ r c) : (t * A).toLin = t • A.toLin := by
  ext x i hi
  rw [LinearMap.smul_apply, Vector.getElem_smul, toLin_apply, toLin_apply, getElem_mulVec,
    getElem_mulVec, smul_eq_mul, Finset.mul_sum]
  refine Finset.sum_congr rfl fun j _ => ?_
  rw [entry_smul, mul_assoc]

theorem entry_mul (A : Mat ℝ r k) (B : Mat ℝ k c) (i : Fin r) (j : Fin c) :
    (A * B).entry i j = ∑ l : Fin k, A.entry i l * B.entry l j := by
  show (A.mul B).entry i j = _
  unfold mul row column
  rw [entry_ofFn, orderedSum_eq_sum, Vec.sum_toList]
  simp [entry]

/-- The product of matrices is the composition of their maps. -/
theorem toLin_mul (A : Mat ℝ r k) (B : Mat ℝ k c) : (A * B).toLin = A.toLin ∘ₗ B.toLin := by
  ext x i hi
  rw [LinearMap.comp_apply, toLin_apply, toLin_apply, toLin_apply, getElem_mulVec, getElem_mulVec]
  simp only [entry_mul, Vec.entry_eq_getElem, Fin.getElem_fin, getElem_mulVec, Finset.sum_mul,
    Finset.mul_sum]
  -- the two sums over the inner and the outer index change places
  rw [Finset.sum_comm]
  refine Finset.sum_congr rfl fun l _ => Finset.sum_congr rfl fun j _ => ?_
  rw [mul_assoc]

/-- The matrix `x yᵀ` sends `v` to the multiple `yᵀv` of `x`. -/
theorem toLin_outer (x : Vec ℝ r) (y v : Vec ℝ c) : (outer x y).toLin v = y.dot v • x := by
  ext i hi
  rw [toLin_apply, getElem_mulVec, Vector.getElem_smul, Vec.dot_eq_sum, smul_eq_mul,
    Finset.sum_mul]
  refine Finset.sum_congr rfl fun j _ => ?_
  rw [entry_outer, Vec.entry_eq_getElem x, Fin.getElem_fin]
  ring

/-- The value `xᵀ A y` as a sum over the entries of `A`. -/
theorem dot_mulVec (A : Mat ℝ r c) (x : Vec ℝ r) (y : Vec ℝ c) :
    x.dot (A * y) = ∑ i, ∑ j, x.entry i * A.entry i j * y.entry j := by
  rw [Vec.dot_eq_sum]
  refine Finset.sum_congr rfl fun i _ => ?_
  rw [Vec.entry_eq_getElem (A * y), Fin.getElem_fin, getElem_mulVec, Finset.mul_sum]
  refine Finset.sum_congr rfl fun j _ => ?_
  ring

/-- A matrix sends only vectors of some length to vectors that are longer than a given length. -/
theorem exists_pos_le_norm (A : Mat ℝ r c) {t : ℝ} (ht : 0 < t) :
    ∃ b > 0, ∀ y : Vec ℝ c, t < ‖A * y‖ → b ≤ ‖y‖ := by
  -- one more than the norm of the map, so that it is positive
  set C := ‖A.toLin.toContinuousLinearMap‖ + 1 with hC
  have hpos : 0 < C := by positivity
  refine ⟨t / C, div_pos ht hpos, fun y hy => ?_⟩
  have hbound : ‖A * y‖ ≤ ‖A.toLin.toContinuousLinearMap‖ * ‖y‖ :=
    A.toLin.toContinuousLinearMap.le_opNorm y
  rw [div_le_iff₀' hpos]
  linarith only [hy, hbound, hC, norm_nonneg y, add_mul ‖A.toLin.toContinuousLinearMap‖ 1 ‖y‖]

/-! ### Symmetric and positive definite matrices -/

/-- The matrix is symmetric. -/
def IsSymm (A : Mat ℝ n n) : Prop := ∀ i j, A.entry i j = A.entry j i

/-- The matrix is symmetric and positive definite. -/
structure IsPosDef (A : Mat ℝ n n) : Prop where
  /-- The matrix is symmetric. -/
  symm : A.IsSymm
  /-- Its quadratic form is positive. -/
  pos : ∀ x : Vec ℝ n, x ≠ 0 → 0 < x.dot (A * x)

theorem zero_isSymm : (zero : Mat ℝ n n).IsSymm := by
  intro i j
  rw [entry_zero, entry_zero]

theorem IsSymm.add {A B : Mat ℝ n n} (hA : A.IsSymm) (hB : B.IsSymm) : (A + B).IsSymm := by
  intro i j
  rw [entry_add, entry_add, hA i j, hB i j]

theorem IsSymm.smul {A : Mat ℝ n n} (hA : A.IsSymm) (t : ℝ) : (t * A).IsSymm := by
  intro i j
  rw [entry_smul, entry_smul, hA i j]

theorem outer_isSymm (x : Vec ℝ n) : (outer x x).IsSymm := by
  intro i j
  rw [entry_outer, entry_outer, mul_comm]

/-- The map of a symmetric matrix is symmetric. -/
theorem IsSymm.isSymmetric_toLin {A : Mat ℝ n n} (hA : A.IsSymm) : A.toLin.IsSymmetric := by
  intro x y
  rw [real_inner_comm, Vec.inner_eq_dot, Vec.inner_eq_dot, toLin_apply, toLin_apply, dot_mulVec,
    dot_mulVec, Finset.sum_comm]
  refine Finset.sum_congr rfl fun i _ => Finset.sum_congr rfl fun j _ => ?_
  rw [hA j i]
  ring

/-- The entries of a matrix are its products with unit vectors. -/
theorem entry_eq_dot (A : Mat ℝ n n) (i j : Fin n) :
    A.entry i j = (Vec.unit i).dot (A * Vec.unit j) := by
  rw [dot_mulVec]
  simp [Vec.unit]

theorem isSymm_of_isSymmetric_toLin {A : Mat ℝ n n} (hA : A.toLin.IsSymmetric) : A.IsSymm := by
  intro i j
  rw [entry_eq_dot, entry_eq_dot, ← toLin_apply, ← toLin_apply, ← Vec.inner_eq_dot,
    ← Vec.inner_eq_dot, ← hA, real_inner_comm]

theorem getElem_diagonal_mulVec (w x : Vec ℝ n) (i : Nat) (hi : i < n) :
    (diagonal w * x)[i] = w[i] * x[i] := by
  rw [getElem_mulVec, Finset.sum_eq_single ⟨i, hi⟩]
  · simp [entry_diagonal]
  · intro j _ hj
    rw [entry_diagonal, if_neg hj.symm, zero_mul]
  · simp

/-- A diagonal matrix with positive entries is positive definite. -/
theorem isPosDef_diagonal {w : Vec ℝ n} (hw : ∀ i, 0 < w.entry i) : (diagonal w).IsPosDef where
  symm i j := by
    rw [entry_diagonal, entry_diagonal]
    by_cases h : i = j
    · rw [h]
    · rw [if_neg h, if_neg (Ne.symm h)]
  pos x hx := by
    have hterm : ∀ i, x.entry i * (diagonal w * x).entry i =
        w.entry i * (x.entry i * x.entry i) := by
      intro i
      rw [Vec.entry_eq_getElem (diagonal w * x), Fin.getElem_fin, getElem_diagonal_mulVec]
      exact mul_left_comm _ _ _
    -- the term of an entry that is not zero is positive, and no other one is negative
    obtain ⟨i, hi⟩ : ∃ i, x.entry i ≠ 0 := by
      by_contra hzero
      push Not at hzero
      apply hx
      ext i hi
      simpa using hzero ⟨i, hi⟩
    rw [Vec.dot_eq_sum]
    refine Finset.sum_pos' (fun j _ => ?_) ⟨i, Finset.mem_univ i, ?_⟩
    · rw [hterm]
      exact mul_nonneg (hw j).le (mul_self_nonneg _)
    · rw [hterm]
      exact mul_pos (hw i) (mul_self_pos.mpr hi)

/-- A linear map is symmetric and positive definite. -/
structure IsPosDefMap (P : Vec ℝ n →ₗ[ℝ] Vec ℝ n) : Prop where
  symm : P.IsSymmetric
  pos : ∀ x : Vec ℝ n, x ≠ 0 → 0 < x.dot (P x)

/-- The map of a positive definite matrix is positive definite. -/
theorem IsPosDef.isPosDefMap_toLin {A : Mat ℝ n n} (hA : A.IsPosDef) : IsPosDefMap A.toLin :=
  ⟨hA.symm.isSymmetric_toLin, hA.pos⟩

theorem IsPosDefMap.isPosDef {A : Mat ℝ n n} (hA : IsPosDefMap A.toLin) : A.IsPosDef :=
  ⟨isSymm_of_isSymmetric_toLin hA.symm, hA.pos⟩

/-- A positive definite map takes no negative value at any vector. -/
theorem IsPosDefMap.nonneg {P : Vec ℝ n →ₗ[ℝ] Vec ℝ n} (hP : IsPosDefMap P) (x : Vec ℝ n) :
    0 ≤ x.dot (P x) := by
  by_cases hx : x = 0
  · rw [hx, map_zero, ← Vec.inner_eq_dot, inner_zero_right]
  · exact (hP.pos x hx).le

theorem isPosDefMap_id : IsPosDefMap (LinearMap.id : Vec ℝ n →ₗ[ℝ] Vec ℝ n) where
  symm x y := rfl
  pos x hx := by
    rw [LinearMap.id_apply, ← Vec.inner_eq_dot]
    exact real_inner_self_pos.mpr hx

theorem isPosDef_identity : (identity : Mat ℝ n n).IsPosDef :=
  IsPosDefMap.isPosDef (by rw [toLin_identity]; exact isPosDefMap_id)

/-- A positive definite matrix sends no two vectors to the same one. -/
theorem IsPosDef.mulVec_injective {A : Mat ℝ n n} (hA : A.IsPosDef) {x y : Vec ℝ n}
    (h : A * x = A * y) : x = y := by
  by_contra hne
  have hpos := hA.pos (x - y) (sub_ne_zero.mpr hne)
  -- the form at the difference would vanish
  rw [← toLin_apply, map_sub, toLin_apply, toLin_apply, h, sub_self, ← Vec.inner_eq_dot,
    inner_zero_right] at hpos
  exact lt_irrefl 0 hpos

/-! ### Symmetric matrices of order two -/

/-- The symmetric matrix with the diagonal `a`, `d` and the entry `b` beside it. -/
def symmTwo (a b d : ℝ) : Mat ℝ 2 2 := ⟨#v[#v[a, b], #v[b, d]]⟩

theorem symmTwo_isSymm (a b d : ℝ) : (symmTwo a b d).IsSymm := by
  intro i j
  fin_cases i <;> fin_cases j <;> rfl

theorem symmTwo_mulVec (a b d s t : ℝ) :
    symmTwo a b d * (#v[s, t] : Vec ℝ 2) = #v[a * s + b * t, b * s + d * t] := by
  ext i hi
  rw [getElem_mulVec, Fin.sum_univ_two]
  obtain rfl | rfl : i = 0 ∨ i = 1 := by omega
  · rfl
  · rfl

theorem symmTwo_add (a b d a' b' d' : ℝ) :
    symmTwo a b d + symmTwo a' b' d' = symmTwo (a + a') (b + b') (d + d') := by
  ext i j
  rw [entry_add]
  fin_cases i <;> fin_cases j <;> rfl

theorem symmTwo_smul (t a b d : ℝ) : t * symmTwo a b d = symmTwo (t * a) (t * b) (t * d) := by
  ext i j
  rw [entry_smul]
  fin_cases i <;> fin_cases j <;> rfl

theorem outer_pair (s t : ℝ) :
    outer (#v[s, t] : Vec ℝ 2) (#v[s, t] : Vec ℝ 2) = symmTwo (s * s) (s * t) (t * t) := by
  ext i j
  rw [entry_outer]
  fin_cases i <;> fin_cases j
  · rfl
  · rfl
  · exact mul_comm t s
  · rfl

/-- A matrix of order two is positive definite where both leading minors are positive. -/
theorem symmTwo_isPosDef {a b d : ℝ} (ha : 0 < a) (hdet : b ^ 2 < a * d) :
    (symmTwo a b d).IsPosDef where
  symm := symmTwo_isSymm a b d
  pos x hx := by
    -- the form, completed to a square
    have hform : a * x.dot (symmTwo a b d * x) =
        (a * x.entry 0 + b * x.entry 1) ^ 2 + (a * d - b ^ 2) * x.entry 1 ^ 2 := by
      rw [dot_mulVec]
      simp [Fin.sum_univ_two, symmTwo, entry]
      ring
    rw [← mul_pos_iff_of_pos_left ha, hform]
    have hminor : 0 < a * d - b ^ 2 := sub_pos.mpr hdet
    by_cases hlast : x.entry 1 = 0
    · -- the first entry is left
      have hfirst : x.entry 0 ≠ 0 := by
        intro hzero
        apply hx
        ext i hi
        obtain rfl | rfl : i = 0 ∨ i = 1 := by omega
        · simpa using hzero
        · simpa using hlast
      rw [hlast, mul_zero, add_zero]
      positivity
    · positivity

/-! ### Products with the transposed matrix -/

open scoped InnerProductSpace

/-- The entries of a product with the transposed matrix. -/
theorem getElem_transposeMulVec (A : Mat ℝ r c) (x : Vec ℝ r) (j : Nat) (hj : j < c) :
    (A.transposeMulVec x)[j] = ∑ i, A.entry i ⟨j, hj⟩ * x.entry i := by
  unfold transposeMulVec
  rw [Vector.getElem_ofFn, Vec.dot_eq_sum]
  refine Finset.sum_congr rfl fun i _ => ?_
  rw [Vec.entry_eq_getElem (A.column _), Fin.getElem_fin, column, Vector.getElem_ofFn]

/-- The product with the transposed matrix is adjoint to that with the matrix. -/
theorem inner_transposeMulVec (A : Mat ℝ r c) (x : Vec ℝ r) (y : Vec ℝ c) :
    ⟪A.transposeMulVec x, y⟫_ℝ = ⟪x, A * y⟫_ℝ := by
  rw [Vec.inner_eq_dot, Vec.inner_eq_dot, Vec.dot_eq_sum, dot_mulVec, Finset.sum_comm]
  refine Finset.sum_congr rfl fun j _ => ?_
  rw [Vec.entry_eq_getElem (A.transposeMulVec x), Fin.getElem_fin, getElem_transposeMulVec,
    Finset.sum_mul]
  refine Finset.sum_congr rfl fun i _ => ?_
  rw [mul_comm (A.entry i j) (x.entry i)]

/-- The product with the transposed matrix is additive. -/
theorem transposeMulVec_add (A : Mat ℝ r c) (x y : Vec ℝ r) :
    A.transposeMulVec (x + y) = A.transposeMulVec x + A.transposeMulVec y := by
  refine ext_inner_right ℝ fun z => ?_
  rw [inner_add_left, inner_transposeMulVec, inner_transposeMulVec, inner_transposeMulVec,
    inner_add_left]

theorem gram_mulVec (A : Mat ℝ r c) (x : Vec ℝ c) : A.gram * x = A.transposeMulVec (A * x) := by
  ext i hi
  rw [getElem_mulVec, getElem_transposeMulVec]
  simp only [Vec.entry_eq_getElem (A * x), Fin.getElem_fin, getElem_mulVec, Finset.mul_sum]
  rw [Finset.sum_comm]
  refine Finset.sum_congr rfl fun j _ => ?_
  rw [entry_gram, Vec.dot_eq_sum, Finset.sum_mul]
  refine Finset.sum_congr rfl fun k _ => ?_
  have hentry : ∀ l, (A.column l).entry k = A.entry k l := fun l => Vector.getElem_ofFn k.isLt
  rw [hentry, hentry, mul_assoc]

/-- The inner products of the columns make a symmetric matrix. -/
theorem gram_isSymm (A : Mat ℝ r c) : A.gram.IsSymm := by
  intro i j
  rw [entry_gram, entry_gram, ← Vec.inner_eq_dot, ← Vec.inner_eq_dot, real_inner_comm]

theorem gram_add_mulVec (A : Mat ℝ r c) (t : ℝ) (x : Vec ℝ c) :
    (A.gram + t * (identity : Mat ℝ c c)) * x = A.transposeMulVec (A * x) + t • x := by
  rw [← toLin_apply, toLin_add, toLin_smul, toLin_identity, LinearMap.add_apply,
    LinearMap.smul_apply, LinearMap.id_apply, toLin_apply, gram_mulVec]

theorem inner_gram_add_mulVec (A : Mat ℝ r c) (t : ℝ) (x : Vec ℝ c) :
    ⟪x, (A.gram + t * (identity : Mat ℝ c c)) * x⟫_ℝ = ‖A * x‖ ^ 2 + t * ‖x‖ ^ 2 := by
  rw [gram_add_mulVec, inner_add_right, real_inner_smul_right, real_inner_comm,
    inner_transposeMulVec, real_inner_self_eq_norm_sq, real_inner_self_eq_norm_sq]

/-- A positive multiple of the identity makes `Aᵀ A` positive definite, whatever the rank of `A` is.
-/
theorem isPosDef_gram_add (A : Mat ℝ r c) {t : ℝ} (ht : 0 < t) :
    (A.gram + t * (identity : Mat ℝ c c)).IsPosDef where
  symm i j := by
    rw [entry_add, entry_add, entry_smul, entry_smul, entry_identity, entry_identity,
      gram_isSymm A i j]
    simp only [eq_comm]
  pos x hx := by
    rw [← Vec.inner_eq_dot, inner_gram_add_mulVec]
    have hnorm := norm_pos_iff.mpr hx
    positivity

/-! ### The transposed matrix -/

/-- The matrix with rows and columns exchanged. -/
def transpose {α : Type} (A : Mat α r c) : Mat α c r := ofFn fun j i => A.entry i j

@[simp] theorem entry_transpose {α : Type} (A : Mat α r c) (j : Fin c) (i : Fin r) :
    A.transpose.entry j i = A.entry i j :=
  entry_ofFn _ j i

theorem transpose_mulVec (A : Mat ℝ r c) (x : Vec ℝ r) : A.transpose * x = A.transposeMulVec x := by
  ext j hj
  rw [getElem_mulVec, getElem_transposeMulVec]
  simp only [entry_transpose]

theorem entry_mul_transpose (A : Mat ℝ r c) (i k : Fin r) :
    (A * A.transpose).entry i k = ∑ j, A.entry i j * A.entry k j := by
  rw [entry_mul]
  simp only [entry_transpose]

theorem mul_transpose_isSymm (A : Mat ℝ r c) : (A * A.transpose).IsSymm := by
  intro i k
  rw [entry_mul_transpose, entry_mul_transpose]
  simp only [mul_comm]

/-- The product with `A Aᵀ` in two steps. -/
theorem mul_transpose_mulVec (A : Mat ℝ r c) (x : Vec ℝ r) :
    (A * A.transpose) * x = A * A.transposeMulVec x := by
  rw [← toLin_apply, toLin_mul, LinearMap.comp_apply, toLin_apply, toLin_apply, transpose_mulVec]

/-! ### Inverse matrices -/

variable {A B : Mat ℝ n n}

/-- A matrix is determined by its products with vectors. -/
theorem toLin_injective : Function.Injective (toLin : Mat ℝ n n → Vec ℝ n →ₗ[ℝ] Vec ℝ n) := by
  intro A B h
  ext i j
  rw [entry_eq_dot, entry_eq_dot, ← toLin_apply, ← toLin_apply, h]

/-- The matrices are inverse to each other. -/
structure IsInverse (A B : Mat ℝ n n) : Prop where
  /-- `B` is a right inverse of `A`. -/
  mul_eq : A * B = identity
  /-- `B` is a left inverse of `A`. -/
  mul_eq' : B * A = identity

/-- The product with the inverse is undone by the matrix. -/
theorem IsInverse.mulVec_mulVec (h : A.IsInverse B) (x : Vec ℝ n) : A * (B * x) = x := by
  rw [← toLin_apply, ← toLin_apply, ← LinearMap.comp_apply, ← toLin_mul, h.mul_eq, toLin_identity,
    LinearMap.id_apply]

/-- In finite dimension a right inverse is an inverse. -/
theorem isInverse_of_mulVec (h : ∀ x : Vec ℝ n, A * (B * x) = x) : A.IsInverse B := by
  have hright : A.toLin * B.toLin = 1 := LinearMap.ext h
  have hleft : B.toLin * A.toLin = 1 := mul_eq_one_symm hright
  constructor
  · apply toLin_injective
    rw [toLin_mul, toLin_identity]
    exact hright
  · apply toLin_injective
    rw [toLin_mul, toLin_identity]
    exact hleft

/-! ### The inverse of a positive definite matrix -/

/-- The matrix as a function of two indices. -/
def toMatrix (A : Mat ℝ n n) : Matrix (Fin n) (Fin n) ℝ := Matrix.of A.entry

theorem toMatrix_apply (A : Mat ℝ n n) (i j : Fin n) : A.toMatrix i j = A.entry i j := rfl

/-- The inverse matrix; the zero matrix where there is none. -/
noncomputable def inverse (A : Mat ℝ n n) : Mat ℝ n n := ofFn fun i j => A.toMatrix⁻¹ i j

/-- A positive definite matrix is invertible, because it is injective. -/
theorem IsPosDef.isUnit_toMatrix (hA : A.IsPosDef) : IsUnit A.toMatrix := by
  rw [← Matrix.mulVec_injective_iff_isUnit]
  intro x y hxy
  have himage : A * (Vector.ofFn x : Vec ℝ n) = A * (Vector.ofFn y : Vec ℝ n) := by
    ext i hi
    rw [getElem_mulVec, getElem_mulVec]
    simpa [Matrix.mulVec, dotProduct, toMatrix_apply] using congrFun hxy ⟨i, hi⟩
  funext i
  simpa using congrArg (fun v : Vec ℝ n => v.entry i) (hA.mulVec_injective himage)

/-- The inverse of a positive definite matrix is one on both sides. -/
theorem IsPosDef.isInverse_inverse (hA : A.IsPosDef) : A.IsInverse A.inverse := by
  have hdet : IsUnit A.toMatrix.det := (Matrix.isUnit_iff_isUnit_det _).mp hA.isUnit_toMatrix
  constructor
  · ext i j
    rw [entry_mul, entry_identity, ← Matrix.one_apply, ← Matrix.mul_nonsing_inv _ hdet,
      Matrix.mul_apply]
    refine Finset.sum_congr rfl fun l _ => ?_
    rw [inverse, entry_ofFn, toMatrix_apply]
  · ext i j
    rw [entry_mul, entry_identity, ← Matrix.one_apply, ← Matrix.nonsing_inv_mul _ hdet,
      Matrix.mul_apply]
    refine Finset.sum_congr rfl fun l _ => ?_
    rw [inverse, entry_ofFn, toMatrix_apply]

/-- A system with a positive definite matrix is solved by the inverse. -/
theorem IsPosDef.mulVec_inverse_mulVec (hA : A.IsPosDef) (b : Vec ℝ n) : A * (A.inverse * b) = b :=
  hA.isInverse_inverse.mulVec_mulVec b

/-- The only solution of a system with a positive definite matrix. -/
theorem IsPosDef.inverse_mulVec_eq (hA : A.IsPosDef) {x b : Vec ℝ n} (h : A * x = b) :
    A.inverse * b = x :=
  hA.mulVec_injective ((hA.mulVec_inverse_mulVec b).trans h.symm)

end Downhill.Mat
