import Downhill.Objective.Valley
import Downhill.Proofs.Exact.Quadratic
import Mathlib.Analysis.Calculus.Deriv.Add
import Mathlib.Analysis.Calculus.Deriv.Comp
import Mathlib.Analysis.Calculus.Deriv.Inv

/-!
# The exact banded objective

The banded objective is `φ(τ(x)) - bᵀx` with `φ(s) = s - 1 + p / s` and the quadratic function
`τ(x) = ½ xᵀA x + 1`. As `A` is symmetric, its gradient is `φ'(τ) A x - b`
(`Banded.hasGradientAt_valueAt`) and its Hessian `φ'(τ) A + φ''(τ) (A x)(A x)ᵀ`
(`Banded.hasFDerivAt_gradientAt`).

The matrix is diagonally dominant, so that its quadratic form takes no negative value
(`Mat.dot_mulVec_nonneg_of_dominant`) and `τ` is at least one. All divisions of the objective are by
powers of `τ`, so nothing depends on what a quotient by zero is (`Banded.hessianAt_withDivision` and
the lemmas before it).
-/

namespace Downhill

open scoped InnerProductSpace

/-! ### Diagonally dominant matrices -/

/-- What a product can take from the squares of its factors. -/
theorem neg_half_abs_mul_sq_le (a s t : ℝ) : -((|a| * s ^ 2 + |a| * t ^ 2) / 2) ≤ s * a * t := by
  have hproduct : |s * t| ≤ (s ^ 2 + t ^ 2) / 2 := by
    rw [abs_mul, ← sq_abs s, ← sq_abs t]
    linarith [two_mul_le_add_sq |s| |t|]
  calc -((|a| * s ^ 2 + |a| * t ^ 2) / 2) = -(|a| * ((s ^ 2 + t ^ 2) / 2)) := by ring
    _ ≤ -(|a| * |s * t|) := neg_le_neg (mul_le_mul_of_nonneg_left hproduct (abs_nonneg a))
    _ = -|a * (s * t)| := by rw [abs_mul a]
    _ ≤ a * (s * t) := neg_abs_le _
    _ = s * a * t := by ring

namespace Mat

variable {n : Nat} {A : Mat ℝ n n}

/-- The quadratic form of a symmetric matrix whose diagonal entries are at least the sums of the
other magnitudes in their rows takes no negative value. -/
theorem dot_mulVec_nonneg_of_dominant (hA : A.IsSymm)
    (hdom : ∀ i, ∑ j with j ≠ i, |A.entry i j| ≤ A.entry i i) (x : Vec ℝ n) :
    0 ≤ x.dot (A * x) := by
  -- the magnitudes off the diagonal
  set w : Fin n → Fin n → ℝ := fun i j => if j ≠ i then |A.entry i j| else 0 with hw
  have hsymm : ∀ i j, w i j = w j i := fun i j => by
    simp only [hw, hA i j, ne_comm]
  have hrow : ∀ i, ∑ j, w i j ≤ A.entry i i := fun i => by
    rw [← Finset.sum_filter]
    exact hdom i
  -- each mixed term is met by halves of two squares, one from its row and one from its column
  have hterm : ∀ i j, (if j = i then A.entry i i * x.entry i ^ 2 else 0) -
      (w i j * x.entry i ^ 2 + w i j * x.entry j ^ 2) / 2 ≤
        x.entry i * A.entry i j * x.entry j := by
    intro i j
    by_cases hij : j = i
    · rw [hij, if_pos rfl, hw]
      simp only [ne_eq, not_true_eq_false, if_false]
      exact le_of_eq (by ring)
    · rw [if_neg hij, show w i j = |A.entry i j| from if_pos hij, zero_sub]
      exact neg_half_abs_mul_sq_le _ _ _
  -- by the symmetry the squares taken from the columns are those taken from the rows
  have hswap : ∑ i, ∑ j, w i j * x.entry j ^ 2 = ∑ i, ∑ j, w i j * x.entry i ^ 2 := by
    rw [Finset.sum_comm]
    exact Finset.sum_congr rfl fun i _ => Finset.sum_congr rfl fun j _ => by rw [hsymm]
  -- what the diagonal leaves over is a weight of the square
  rw [dot_mulVec]
  calc (0 : ℝ) ≤ ∑ i, (A.entry i i - ∑ j, w i j) * x.entry i ^ 2 :=
        Finset.sum_nonneg fun i _ => mul_nonneg (sub_nonneg.mpr (hrow i)) (sq_nonneg _)
    _ = ∑ i, A.entry i i * x.entry i ^ 2 - (∑ i, ∑ j, w i j * x.entry i ^ 2 +
          ∑ i, ∑ j, w i j * x.entry j ^ 2) / 2 := by
        rw [hswap]
        simp only [sub_mul, Finset.sum_mul, Finset.sum_sub_distrib]
        ring
    _ = ∑ i, ∑ j, ((if j = i then A.entry i i * x.entry i ^ 2 else 0) -
          (w i j * x.entry i ^ 2 + w i j * x.entry j ^ 2) / 2) := by
        simp only [Finset.sum_sub_distrib, Finset.sum_ite_eq', Finset.mem_univ, if_true,
          ← Finset.sum_div, Finset.sum_add_distrib]
    _ ≤ ∑ i, ∑ j, x.entry i * A.entry i j * x.entry j :=
        Finset.sum_le_sum fun i _ => Finset.sum_le_sum fun j _ => hterm i j

end Mat

/-! ### Functions of one value -/

section Comp

variable {n : Nat} {τ : Vec ℝ n → ℝ} {φ : ℝ → ℝ} {c : ℝ} {g x : Vec ℝ n}

/-- The chain rule for a function of a value. -/
theorem hasGradientAt_comp (hφ : HasDerivAt φ c (τ x)) (hτ : HasGradientAt τ g x) :
    HasGradientAt (fun y => φ (τ y)) (c • g) x := by
  rw [hasGradientAt_iff_hasFDerivAt, map_smul]
  exact hφ.comp_hasFDerivAt x hτ.hasFDerivAt

end Comp

namespace Banded

/-! ### The matrix -/

/-- The entries of the matrix as natural numbers. -/
def band (i j : Fin dimension) : Nat :=
  match (i.val - j.val) + (j.val - i.val) with
  | 0 => 10
  | 1 => 3
  | 2 => 1
  | _ => 0

/-- The entries of the matrix are those of the band. -/
theorem entry_matrix (i j : Fin dimension) :
    (matrix : Mat ℝ dimension dimension).entry i j = band i j := by
  rw [matrix, Mat.entry_ofFn, band]
  -- the entry depends on the distance from the diagonal alone
  generalize (i.val - j.val) + (j.val - i.val) = d
  rcases d with _ | _ | _ | d
  · norm_num
  · norm_num
  · exact Nat.cast_one.symm
  · exact Nat.cast_zero.symm

theorem matrix_isSymm : (matrix : Mat ℝ dimension dimension).IsSymm := by
  intro i j
  rw [matrix, Mat.entry_ofFn, Mat.entry_ofFn, Nat.add_comm]

theorem matrix_dominant (i : Fin dimension) :
    ∑ j with j ≠ i, |(matrix : Mat ℝ dimension dimension).entry i j| ≤
      (matrix : Mat ℝ dimension dimension).entry i i := by
  -- finitely many sums of natural numbers
  have hband : ∀ i, ∑ j with j ≠ i, band i j ≤ band i i := by decide
  simp only [entry_matrix, Nat.abs_cast]
  exact_mod_cast hband i

variable (x : Vec ℝ dimension) (p : ℝ)

theorem one_le_tau : 1 ≤ tau x := by
  have hform : 0 ≤ x.dot (product x) :=
    Mat.dot_mulVec_nonneg_of_dominant matrix_isSymm matrix_dominant x
  rw [tau, Scalar.half_real]
  linarith

theorem tau_ne_zero : tau x ≠ 0 := (zero_lt_one.trans_le (one_le_tau x)).ne'

/-! ### Derivatives -/

/-- The function `τ` as a quadratic function. -/
noncomputable def form : Quadratic ℝ dimension := ⟨matrix, .zero, 1⟩

theorem form_value : form.value x = tau x := by
  rw [Quadratic.value_eq, tau, Scalar.half_real]
  show 1 / 2 * ⟪x, product x⟫_ℝ + ⟪(0 : Vec ℝ dimension), x⟫_ℝ + 1 = _
  rw [inner_zero_left, add_zero, Vec.inner_eq_dot]

theorem hasGradientAt_tau : HasGradientAt tau (product x) x := by
  have hform := form.hasGradientAt matrix_isSymm x
  have hgradient : form.gradient x = product x := add_zero (product x)
  rwa [funext form_value, hgradient] at hform

/-- The value is a function of `τ`, apart from a linear part. -/
theorem hasGradientAt_valueAt : HasGradientAt (fun y => valueAt y p) (gradientAt x p) x := by
  -- the derivative of `φ`, with its quotient as a product
  have hφ : HasDerivAt (fun s : ℝ => s - 1 + p / s) (scale x p) (tau x) := by
    have hquotient : HasDerivAt (fun s : ℝ => s - 1 + p * s⁻¹) _ (tau x) :=
      ((hasDerivAt_id (tau x)).sub_const 1).add ((hasDerivAt_inv (tau_ne_zero x)).const_mul p)
    refine hquotient.congr_deriv ?_
    rw [scale]
    field_simp
    ring
  -- the linear part
  have hlinear : HasFDerivAt (fun y : Vec ℝ dimension => linear.dot y) (innerSL ℝ linear) x :=
    (innerSL ℝ linear).hasFDerivAt
  have hvalue := (hasGradientAt_comp hφ (hasGradientAt_tau x)).hasFDerivAt.sub hlinear
  rw [hasGradientAt_iff_hasFDerivAt]
  refine (hvalue.congr_fderiv ?_).congr_of_eventuallyEq (.of_forall fun y => ?_)
  · rw [gradientAt, Vec.hmul_eq_smul, map_sub]
    rfl
  · show valueAt y p = tau y - 1 + p / tau y - linear.dot y
    rw [valueAt]
    ring

theorem hasDerivAt_scale {s : ℝ} (hs : s ≠ 0) :
    HasDerivAt (fun s : ℝ => 1 - p / (s * s)) (2 * p / (s * s * s)) s := by
  have hsquare : HasDerivAt (fun s : ℝ => s * s) _ s := (hasDerivAt_id s).mul (hasDerivAt_id s)
  have hquotient : HasDerivAt (fun s : ℝ => 1 - p / (s * s)) _ s :=
    ((hasDerivAt_const s p).div hsquare (mul_ne_zero hs hs)).const_sub 1
  refine hquotient.congr_deriv ?_
  simp only [id]
  field_simp
  ring

/-- The derivative of the factor of `A x` adds the matrix of rank one. -/
theorem hasFDerivAt_gradientAt :
    HasFDerivAt (fun y => gradientAt y p) (hessianAt x p).toLin.toContinuousLinearMap x := by
  have hscale : HasGradientAt (fun y => scale y p)
      ((2 * p / (tau x * tau x * tau x)) • product x) x :=
    hasGradientAt_comp (φ := fun s => 1 - p / (s * s)) (hasDerivAt_scale p (tau_ne_zero x))
      (hasGradientAt_tau x)
  have hproduct :
      HasFDerivAt product (matrix : Mat ℝ dimension dimension).toLin.toContinuousLinearMap x :=
    (matrix : Mat ℝ dimension dimension).toLin.toContinuousLinearMap.hasFDerivAt
  -- the product rule, compared with the Hessian at a vector
  simp only [gradientAt, Vec.hmul_eq_smul]
  refine ((hscale.hasFDerivAt.smul hproduct).sub_const linear).congr_fderiv ?_
  ext1 v
  show scale x p • product v + ⟪(2 * p / (tau x * tau x * tau x)) • product x, v⟫_ℝ • product x =
    (hessianAt x p).toLin v
  rw [hessianAt, Mat.toLin_add, Mat.toLin_smul, Mat.toLin_smul, LinearMap.add_apply,
    LinearMap.smul_apply, LinearMap.smul_apply, Mat.toLin_outer, smul_smul, Scalar.two_real,
    real_inner_smul_left, Vec.inner_eq_dot]
  rfl

/-! ### Divisions -/

section Division

variable {div : ℝ → ℝ → ℝ}

theorem tau_withDivision : @tau ℝ (Scalar.withDivision div) x = tau x :=
  congrArg (fun s : ℝ => Scalar.half * s + 1) (Vec.dot_withDivision div x (product x))

variable (hdiv : Scalar.IsDivision div)

include hdiv

theorem valueAt_withDivision : @valueAt ℝ (Scalar.withDivision div) = valueAt := by
  funext x p
  show @tau ℝ (Scalar.withDivision div) x - 1 - @Vec.dot ℝ (Scalar.withDivision div) _ linear x +
    div p (@tau ℝ (Scalar.withDivision div) x) = _
  rw [tau_withDivision, Vec.dot_withDivision, hdiv _ _ (tau_ne_zero x), valueAt]

/-- The division in the factor is by the square of `τ`. -/
theorem scale_withDivision : @scale ℝ (Scalar.withDivision div) x p = scale x p := by
  show 1 - div p (@tau ℝ (Scalar.withDivision div) x * @tau ℝ (Scalar.withDivision div) x) = _
  rw [tau_withDivision, hdiv _ _ (mul_ne_zero (tau_ne_zero x) (tau_ne_zero x)), scale]

/-- All division in the gradient is that of its factor. -/
theorem gradientAt_withDivision : @gradientAt ℝ (Scalar.withDivision div) = gradientAt := by
  funext x p
  show @scale ℝ (Scalar.withDivision div) x p * product x - (linear : Vec ℝ dimension) = _
  rw [scale_withDivision x p hdiv, gradientAt]

/-- The Hessian divides by the square and the cube of `τ`. -/
theorem hessianAt_withDivision : @hessianAt ℝ (Scalar.withDivision div) = hessianAt := by
  funext x p
  have hcube : tau x * tau x * tau x ≠ 0 :=
    mul_ne_zero (mul_ne_zero (tau_ne_zero x) (tau_ne_zero x)) (tau_ne_zero x)
  show @scale ℝ (Scalar.withDivision div) x p * (matrix : Mat ℝ dimension dimension) +
    div (Scalar.two * p) (@tau ℝ (Scalar.withDivision div) x * @tau ℝ (Scalar.withDivision div) x *
      @tau ℝ (Scalar.withDivision div) x) * Mat.outer (product x) (product x) = _
  rw [scale_withDivision x p hdiv, tau_withDivision, hdiv _ _ hcube, hessianAt]

end Division

end Banded

end Downhill
