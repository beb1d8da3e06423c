import Downhill.Objective.AugmentedLagrangian
import Downhill.Objective.Basic
import Downhill.Objective.Quadratic
import Downhill.Proofs.Exact.Euclidean
import Downhill.Proofs.Exact.Matrix
import Downhill.Proofs.Objective
import Mathlib.Analysis.Calculus.Deriv.Add
import Mathlib.Analysis.Calculus.Deriv.Comp
import Mathlib.Analysis.Calculus.Deriv.Mul
import Mathlib.Analysis.Calculus.Gradient.Basic
import Mathlib.Analysis.InnerProductSpace.Calculus

/-!
# Exact gradients, Hessians and quadratic functions

The derivative of a function along a ray is the inner product of its gradient and the direction,
which is the slope that the line searches compute (`hasDerivAt_along`, `slope_eq_dot`).

In exact arithmetic a quadratic objective evaluates its value and its gradient `A x + b`
(`Quadratic.evaluates`). Where `A` is symmetric this is the gradient of the value
(`Quadratic.hasGradientAt`), and the value along a ray is a parabola
(`Quadratic.value_add_smul`).

`Objective.EvaluatesTwice` says that the Hessian of an objective succeeds too, and is that of a
function; `Objective.Represents` says this only of the evaluations that succeed. An objective has an
affine gradient if its gradient is `A x + b` and its Hessian `A` everywhere. The quadratic
objectives are of this kind (`Quadratic.hasAffineGradient`), and so is the augmented Lagrangian of
such an objective under an affine constraint (`Objective.HasAffineGradient.lagrangian`): the penalty
adds a matrix of rank one.

On the plane `Quadratic.bowl` is least at the origin, and `Quadratic.line` vanishes on a line.
-/

namespace Downhill

/-! ### Gradients along a ray -/

variable {n : Nat} {F : Vec ℝ n → ℝ} {G : Vec ℝ n → Vec ℝ n}

/-- The slope that the line searches compute is the inner product, which is always finite. -/
theorem slope_eq_dot (gradient d : Vec ℝ n) : slope gradient d = .ok (gradient.dot d) := by
  unfold slope
  dsimp only
  rw [Scalar.isFinite_real, if_pos rfl]

/-- The derivative of a function along a ray is the slope. -/
theorem hasDerivAt_along {x d : Vec ℝ n} {t : ℝ}
    (hgrad : HasGradientAt F (G (x + t • d)) (x + t • d)) :
    HasDerivAt (fun u : ℝ => F (x + u • d)) ((G (x + t • d)).dot d) t := by
  have hline : HasDerivAt (fun u : ℝ => x + u • d) d t := by
    simpa using ((hasDerivAt_id t).smul_const d).const_add x
  have hcomp := hgrad.hasFDerivAt.comp_hasDerivAt t hline
  rwa [InnerProductSpace.toDual_apply_apply, Vec.inner_eq_dot] at hcomp

/-- The slope along a ray is continuous if the gradient is. -/
theorem continuous_along (hcont : Continuous G) (x d : Vec ℝ n) :
    Continuous fun t : ℝ => (G (x + t • d)).dot d := by
  simp only [← Vec.inner_eq_dot]
  fun_prop

end Downhill

namespace Downhill.Quadratic

/-! ### Quadratic functions -/

variable {σ : Type} {n : Nat}

/-- A quadratic objective evaluates its value and its gradient at points of its own length. -/
theorem evaluates (q : Quadratic ℝ n) :
    (q.objective n : Objective σ ℝ n).Evaluates q.value q.gradient where
  value x := (Run.computes_liftM x.ofLength_self).bind (Run.computes_pure _)
  gradient x :=
    (Run.computes_liftM x.ofLength_self).bind (Run.computes_liftM (q.gradient x).fit_self)

/-- The Hessian is that of the function at every point. -/
theorem computes_hessianProduct (q : Quadratic ℝ n) (x v : Vec ℝ n) :
    ((q.objective n : Objective σ ℝ n).hessianProduct x v).Computes (q.matrix.toLin v) := by
  have hfit : AnyMat.apply ⟨n, n, q.matrix⟩ v = .ok (q.matrix.toLin v) := by
    unfold AnyMat.apply
    rw [Mat.fit_self]
    rfl
  have hhessian : ((q.objective n : Objective σ ℝ n).hessian x).Computes ⟨n, n, q.matrix⟩ :=
    Run.computes_pure _
  exact hhessian.observe.bind (Run.computes_liftM hfit)

/-- The value in terms of the inner product. -/
theorem value_eq (q : Quadratic ℝ n) (x : Vec ℝ n) :
    q.value x = 1 / 2 * inner ℝ x (q.matrix.toLin x) + inner ℝ q.linear x + q.constant := by
  unfold value
  rw [Scalar.half_real]
  rfl

theorem gradient_eq (q : Quadratic ℝ n) (x : Vec ℝ n) :
    q.gradient x = q.matrix.toLin x + q.linear := rfl

theorem value_add_smul (q : Quadratic ℝ n) (hq : q.matrix.IsSymm) (x d : Vec ℝ n) (t : ℝ) :
    q.value (x + t • d) =
      q.value x + t * (q.gradient x).dot d + t ^ 2 / 2 * d.dot (q.matrix * d) := by
  -- by symmetry the two mixed terms are equal
  have hcross : inner ℝ x (q.matrix.toLin d) = inner ℝ d (q.matrix.toLin x) := by
    rw [← hq.isSymmetric_toLin x d, real_inner_comm]
  rw [value_eq, value_eq, gradient_eq, ← Vec.inner_eq_dot, ← Vec.inner_eq_dot, ← Mat.toLin_apply]
  simp only [map_add, map_smul, inner_add_left, inner_add_right, real_inner_smul_left,
    real_inner_smul_right, hcross, real_inner_comm d]
  ring

/-- The value at a point is that of the tangent at another one and half the curvature between
them. -/
theorem value_eq_add_inner_add (q : Quadratic ℝ n) (hq : q.matrix.IsSymm) (x y : Vec ℝ n) :
    q.value y =
      q.value x + inner ℝ (q.gradient x) (y - x) + (y - x).dot (q.matrix * (y - x)) / 2 := by
  have hparabola := q.value_add_smul hq x (y - x) 1
  rw [one_smul, add_sub_cancel, ← Vec.inner_eq_dot] at hparabola
  rw [hparabola]
  ring

/-- The gradient that a quadratic function with a symmetric matrix provides is the true one. -/
theorem hasGradientAt (q : Quadratic ℝ n) (hq : q.matrix.IsSymm) (x : Vec ℝ n) :
    HasGradientAt q.value (q.gradient x) x := by
  have himage := q.matrix.toLin.toContinuousLinearMap.hasFDerivAt (x := x)
  have hform := ((hasFDerivAt_id x).inner ℝ himage).const_mul (1 / 2)
  have hlinear := ((hasFDerivAt_const q.linear x).inner ℝ (hasFDerivAt_id x))
  have hsum := (hform.add hlinear).add_const q.constant
  rw [hasGradientAt_iff_hasFDerivAt]
  refine (hsum.congr_fderiv ?_).congr_of_eventuallyEq (.of_forall fun y => q.value_eq y)
  ext v
  -- both terms of the product rule are the slope of `A x`, because `A` is symmetric
  have hleft : inner ℝ v (q.matrix.toLin x) = inner ℝ (q.matrix.toLin x) v :=
    real_inner_comm _ _
  have hright : inner ℝ x (q.matrix.toLin v) = inner ℝ (q.matrix.toLin x) v :=
    (hq.isSymmetric_toLin x v).symm
  show 1 / 2 * (inner ℝ x (q.matrix.toLin v) + inner ℝ v (q.matrix.toLin x)) +
      (inner ℝ q.linear v + inner ℝ (0 : Vec ℝ n) x) = inner ℝ (q.gradient x) v
  rw [hleft, hright, gradient_eq, inner_add_left, inner_zero_left, add_zero, ← two_mul,
    ← mul_assoc, one_div_mul_cancel two_ne_zero, one_mul]

theorem continuous_gradient (q : Quadratic ℝ n) : Continuous q.gradient :=
  (LinearMap.continuous_of_finiteDimensional q.matrix.toLin).add continuous_const

/-! ### Half the squared norm -/

@[simp] theorem simple_value (x : Vec ℝ n) : (simple n).value x = 1 / 2 * x.dot x := by
  rw [value_eq]
  show 1 / 2 * inner ℝ x ((Mat.identity : Mat ℝ n n).toLin x) + inner ℝ (0 : Vec ℝ n) x + 0 = _
  rw [Mat.toLin_identity, inner_zero_left, add_zero, add_zero]
  rfl

/-- Half the squared norm has the identity as its gradient. -/
@[simp] theorem simple_gradient (x : Vec ℝ n) : (simple n).gradient x = x := by
  show (Mat.identity : Mat ℝ n n).toLin x + (0 : Vec ℝ n) = x
  rw [Mat.toLin_identity, add_zero]
  rfl

theorem simple_matrix_mul (v : Vec ℝ n) : (simple n : Quadratic ℝ n).matrix * v = v :=
  congrArg (· v) (Mat.toLin_identity (n := n))

theorem simple_isSymm : (simple n : Quadratic ℝ n).matrix.IsSymm := by
  intro i j
  show (Mat.identity : Mat ℝ n n).entry i j = (Mat.identity : Mat ℝ n n).entry j i
  rw [Mat.entry_identity, Mat.entry_identity]
  simp only [eq_comm]

end Downhill.Quadratic

namespace Downhill

variable {σ α : Type} [Scalar α] {n : Nat}

namespace Objective

/-! ### Evaluations up to the second order -/

/-- The value, the gradient and the Hessian of `f` are always those of `F`, `G` and `H`. -/
structure EvaluatesTwice (f : Objective σ α n) (F : Vec α n → α) (G : Vec α n → Vec α n)
    (H : Vec α n → Mat α n n) : Prop extends f.Evaluates F G where
  /-- The Hessian never fails. -/
  hessian : ∀ x, (f.hessian x).Computes ⟨n, n, H x⟩

/-- Where the value, the gradient or the Hessian of `f` succeeds, it is that of `F`, `G` or `H`. -/
structure Represents (f : Objective σ α n) (F : Vec α n → α) (G : Vec α n → Vec α n)
    (H : Vec α n → Mat α n n) : Prop where
  /-- The value is that of `F`. -/
  value : ∀ {x v}, (f.value x).Yields v → v = F x
  /-- The gradient is that of `G`. -/
  gradient : ∀ {x g}, (f.gradient x).Yields g → g = G x
  /-- The Hessian is that of `H`. -/
  hessian : ∀ {x A}, (f.hessian x).Yields A → A = ⟨n, n, H x⟩

variable {f h : Objective σ α n} {F K : Vec α n → α} {G D : Vec α n → Vec α n}
  {H J : Vec α n → Mat α n n}

/-- What always succeeds is what there is where it succeeds. -/
theorem EvaluatesTwice.represents (hf : f.EvaluatesTwice F G H) : f.Represents F G H where
  value h := (hf.value _).eq_of_yields h
  gradient h := (hf.gradient _).eq_of_yields h
  hessian h := (hf.hessian _).eq_of_yields h

/-- Matrices of fitting orders pass the checks. -/
theorem hessianSum_eq_ok (A B C : Mat α n n) :
    Weights.hessianSum ⟨n, n, A⟩ ⟨n, n, B⟩ C = .ok ⟨n, n, A + B + C⟩ := by
  unfold Weights.hessianSum
  rw [Mat.fit_self, Mat.fit_self]
  rfl

/-- An augmented Lagrangian evaluates the function that it stands for, its gradient and its
Hessian. -/
theorem EvaluatesTwice.lagrangian (w : Weights α) (hf : f.EvaluatesTwice F G H)
    (hh : h.EvaluatesTwice K D J) :
    (w.lagrangian f h).EvaluatesTwice
      (fun x => F x + w.multiplier * K x + Scalar.half * w.penalty * K x * K x)
      (fun x => G x + w.factor (K x) * D x)
      (fun x => H x + w.factor (K x) * J x + w.penalty * Mat.outer (D x) (D x)) where
  value x := (hh.value x).bind ((hf.value x).bind (Run.computes_pure _))
  gradient x := (hh.value x).bind ((hf.gradient x).bind ((hh.gradient x).bind
    (Run.computes_pure _)))
  hessian x := (hh.value x).bind ((hh.gradient x).bind ((hf.hessian x).bind ((hh.hessian x).bind
    (Run.computes_liftM (hessianSum_eq_ok _ _ _)))))

/-! ### Affine gradients -/

/-- The gradient of `f` is `A x + b`, and its Hessian is `A` at every point. -/
def HasAffineGradient (f : Objective σ α n) (A : Mat α n n) (b : Vec α n) : Prop :=
  ∃ F, f.EvaluatesTwice F (fun x => A * x + b) fun _ => A

/-- The value of `f` is `aᵀx + e`. -/
def IsAffine (f : Objective σ α n) (a : Vec α n) (e : α) : Prop :=
  f.EvaluatesTwice (fun x => a.dot x + e) (fun _ => a) fun _ => .zero

end Objective

/-! ### Quadratic objectives -/

namespace Quadratic

variable (q : Quadratic ℝ n)

/-- The Hessian of a quadratic objective is its matrix, everywhere. -/
theorem evaluatesTwice :
    (q.objective n : Objective σ ℝ n).EvaluatesTwice q.value q.gradient fun _ => q.matrix where
  toEvaluates := q.evaluates
  hessian _ := Run.computes_pure _

/-- The gradient of a quadratic objective is affine. -/
theorem hasAffineGradient :
    (q.objective n : Objective σ ℝ n).HasAffineGradient q.matrix q.linear :=
  ⟨q.value, q.evaluatesTwice⟩

/-- The Hessian is the derivative of the gradient. -/
theorem hasFDerivAt_gradient (x : Vec ℝ n) :
    HasFDerivAt q.gradient q.matrix.toLin.toContinuousLinearMap x :=
  q.matrix.toLin.toContinuousLinearMap.hasFDerivAt.add_const q.linear

/-- Without a matrix the gradient is the linear term. -/
theorem gradient_of_matrix_eq_zero (hq : q.matrix = .zero) (x : Vec ℝ n) :
    q.gradient x = q.linear := by
  rw [gradient_eq, hq, Mat.toLin_zero, LinearMap.zero_apply, zero_add]

/-- Without a matrix the value is affine. -/
theorem value_of_matrix_eq_zero (hq : q.matrix = .zero) (x : Vec ℝ n) :
    q.value x = q.linear.dot x + q.constant := by
  rw [value_eq, hq, Mat.toLin_zero, LinearMap.zero_apply, inner_zero_right, mul_zero, zero_add]
  rfl

/-- A quadratic objective whose matrix is zero is affine. -/
theorem isAffine (hq : q.matrix = .zero) :
    (q.objective n : Objective σ ℝ n).IsAffine q.linear q.constant := by
  have htwice := q.evaluatesTwice (σ := σ)
  rwa [funext (q.value_of_matrix_eq_zero hq), funext (q.gradient_of_matrix_eq_zero hq), hq]
    at htwice

end Quadratic

/-! ### Augmented Lagrangians -/

/-- A penalty keeps a matrix positive definite. -/
theorem Mat.IsPosDef.add_outer {A : Mat ℝ n n} (hA : A.IsPosDef) {t : ℝ} (ht : 0 ≤ t)
    (a : Vec ℝ n) : (A + t * Mat.outer a a).IsPosDef where
  symm := hA.symm.add ((Mat.outer_isSymm a).smul t)
  pos x hx := by
    -- the matrix `a aᵀ` has the curvature `(aᵀx)²` at `x`
    have hsquare : x.dot ((A + t * Mat.outer a a) * x) = x.dot (A * x) + t * a.dot x ^ 2 := by
      rw [← Mat.toLin_apply, Mat.toLin_add, Mat.toLin_smul, LinearMap.add_apply,
        LinearMap.smul_apply, Mat.toLin_outer, ← Vec.inner_eq_dot, ← Vec.inner_eq_dot,
        ← Vec.inner_eq_dot, inner_add_right, real_inner_smul_right, real_inner_smul_right,
        real_inner_comm a x, Mat.toLin_apply]
      ring
    rw [hsquare]
    exact add_pos_of_pos_of_nonneg (hA.pos x hx) (by positivity)

/-- The augmented Lagrangian of an objective with an affine gradient under an affine constraint has
an affine gradient: the penalty adds the matrix `γ a aᵀ`. -/
theorem Objective.HasAffineGradient.lagrangian {f h : Objective σ ℝ n} {A : Mat ℝ n n}
    {b a : Vec ℝ n} {e : ℝ} (w : Weights ℝ) (hf : f.HasAffineGradient A b) (hh : h.IsAffine a e) :
    (w.lagrangian f h).HasAffineGradient (A + w.penalty * Mat.outer a a)
      (b + w.factor e * a) := by
  obtain ⟨F, hf⟩ := hf
  have htwice := hf.lagrangian w hh
  have hgradient : (fun x : Vec ℝ n => A * x + b + w.factor (a.dot x + e) * a) =
      fun x => (A + w.penalty * Mat.outer a a) * x + (b + w.factor e * a) := by
    funext x
    -- the factor of the constraint is affine, so its product with `a` is `γ a aᵀ x` and a constant
    have hfactor : w.factor (a.dot x + e) = w.penalty * a.dot x + w.factor e := by
      unfold Weights.factor
      ring
    rw [← Mat.toLin_apply (A + _), Mat.toLin_add, Mat.toLin_smul, LinearMap.add_apply,
      LinearMap.smul_apply, Mat.toLin_outer, Mat.toLin_apply, hfactor]
    simp only [Vec.hmul_eq_smul]
    module
  -- the Hessian of the constraint vanishes
  have hhessian : (fun x : Vec ℝ n =>
      A + w.factor (a.dot x + e) * (Mat.zero : Mat ℝ n n) + w.penalty * Mat.outer a a) =
      fun _ => A + w.penalty * Mat.outer a a := by
    funext x
    ext i j
    simp
  rw [hgradient, hhessian] at htwice
  exact ⟨_, htwice⟩

/-! ### Functions on the plane -/

namespace Quadratic

/-- The function `½ d ‖x‖² + c` on the plane. -/
noncomputable def bowl (d c : ℝ) : Quadratic ℝ 2 := ⟨.symmTwo d 0 d, .zero, c⟩

theorem bowl_matrix (d c : ℝ) : (bowl d c).matrix = .symmTwo d 0 d := rfl

theorem bowl_isPosDef {d : ℝ} (hd : 0 < d) (c : ℝ) : (bowl d c).matrix.IsPosDef :=
  Mat.symmTwo_isPosDef hd (by rw [zero_pow two_ne_zero]; positivity)

theorem bowl_gradient (d c s t : ℝ) : (bowl d c).gradient #v[s, t] = #v[d * s, d * t] := by
  show Mat.symmTwo d 0 d * (#v[s, t] : Vec ℝ 2) + (0 : Vec ℝ 2) = _
  rw [Mat.symmTwo_mulVec, add_zero, zero_mul, zero_mul, add_zero, zero_add]

theorem bowl_value (d c s t : ℝ) : (bowl d c).value #v[s, t] = d / 2 * (s ^ 2 + t ^ 2) + c := by
  show Scalar.half * Vec.dot #v[s, t] (Mat.symmTwo d 0 d * (#v[s, t] : Vec ℝ 2)) +
    Vec.dot (0 : Vec ℝ 2) #v[s, t] + c = _
  rw [Mat.symmTwo_mulVec, Vec.dot_pair, ← Vec.inner_eq_dot, inner_zero_left, Scalar.half_real]
  ring

/-- The function `x₁ + x₂ + e` on the plane. -/
noncomputable def line (e : ℝ) : Quadratic ℝ 2 := ⟨.zero, .replicate 2 1, e⟩

theorem line_matrix (e : ℝ) : (line e).matrix = .symmTwo 0 0 0 := by
  ext i j
  fin_cases i <;> fin_cases j <;> exact Mat.entry_zero _ _

theorem line_gradient (e : ℝ) (x : Vec ℝ 2) : (line e).gradient x = #v[1, 1] :=
  (line e).gradient_of_matrix_eq_zero rfl x

theorem line_value (e s t : ℝ) : (line e).value #v[s, t] = s + t + e := by
  rw [(line e).value_of_matrix_eq_zero rfl]
  show Vec.dot #v[1, 1] #v[s, t] + e = _
  rw [Vec.dot_pair, one_mul, one_mul]

end Quadratic

end Downhill
