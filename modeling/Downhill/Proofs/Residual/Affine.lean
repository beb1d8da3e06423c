import Downhill.Objective.Valley
import Downhill.Proofs.Exact.Matrix
import Downhill.Proofs.Run
import Downhill.Residual.LeastSquares

/-!
# Affine residuals

A residual model is affine (`ResidualModel.IsAffine`) where its residuals differ from point to point
by what a constant Jacobian makes of the difference. So is the fit of any model that is affine in
its parameters to measurements (`LeastSquares.isAffine`), in particular of the two standard models
(`LeastSquares.IsStandard`), whatever the measurements are and however many of them there are.
-/

namespace Downhill

/-! ### Actions that give the entries of a vector -/

/-- Entries that are given without a failure make the vector of them. -/
theorem Vec.tabulateM_ok {ε β : Type} {n : Nat} (f : Fin n → β) :
    Vec.tabulateM n (fun i => (.ok (f i) : Except ε β)) = .ok (Vector.ofFn f) := by
  induction n with
  | zero => rfl
  | succ n ih =>
    rw [Vec.tabulateM, ih, Vector.ofFn_succ]
    rfl

/-! ### Residual models -/

/-- Residuals with a constant Jacobian `J`. -/
structure ResidualModel.IsAffine {σ : Type} {N m : Nat} (model : ResidualModel σ ℝ m)
    (r : Vec ℝ m → Vec ℝ N) (J : Mat ℝ N m) : Prop where
  /-- The residuals are those of `r`. -/
  residual : ∀ p, (model.residual p).Computes (r p).toArray
  /-- The Jacobian is `J` everywhere. -/
  jacobian : ∀ p, (model.jacobian p).Computes ⟨N, m, J⟩
  /-- The residuals change by the product with `J`. -/
  add : ∀ p d, r (p + d) = r p + J * d

namespace Linearization

variable {N m : Nat}

/-- Residuals and a Jacobian of matching shapes make a linearization. -/
theorem make_toArray (r : Vec ℝ N) (J : Mat ℝ N m) :
    make r.toArray ⟨N, m, J⟩ = .ok ⟨N, m, r, J⟩ := by
  obtain ⟨a, rfl⟩ := r
  unfold make
  rw [Mat.fit_self]
  rfl

/-- The damped normal matrix is `JᵀJ + α I`. -/
theorem normalMatrix_eq (r : Vec ℝ N) (J : Mat ℝ N m) (damping : ℝ) :
    normalMatrix ⟨N, m, r, J⟩ m damping = .ok (J.gram + damping * (Mat.identity : Mat ℝ m m)) := by
  unfold normalMatrix
  rw [Mat.fit_self]
  rfl

end Linearization

/-- The least squares functional is half the squared norm. -/
theorem halfNormSq_toArray {N : Nat} (r : Vec ℝ N) : halfNormSq r.toArray = ‖r‖ ^ 2 / 2 := by
  obtain ⟨a, rfl⟩ := r
  rw [← real_inner_self_eq_norm_sq, halfNormSq, Scalar.half_real, mul_one_div]
  rfl

/-! ### Parametric models -/

/-- At points of length `d` the model is affine in its parameters. -/
structure ParametricModel.IsAffine (model : ParametricModel ℝ) {d : Nat} (base : Vec ℝ d → ℝ)
    (slope : Vec ℝ d → Vec ℝ model.parameterCount) : Prop where
  /-- The value, with the part that does not depend on the parameters. -/
  value : ∀ (x : Vec ℝ d) (p : Vec ℝ model.parameterCount),
    model.value x p = .ok (base x + (slope x).dot p)
  /-- The gradient does not depend on the parameters. -/
  gradient : ∀ (x : Vec ℝ d) (p : Vec ℝ model.parameterCount), model.gradient x p = .ok (slope x)

/-- The value of the model at points and parameters of length two. -/
theorem Valley.model_value (x p : Vec ℝ 2) : Valley.model.value x p = .ok (valueAt x p) := by
  show (x.ofLength 2 >>= fun x => p.ofLength 2 >>= fun p => pure (valueAt x p)) = _
  rw [Vec.ofLength_self, Vec.ofLength_self]
  rfl

/-- The gradient of the valley in its parameters. -/
def Valley.parameterGradient (x : Vec ℝ 2) : Vec ℝ 2 :=
  let offset : ℝ := x.entry 1 - 1
  #v[offset * offset, 1]

theorem Valley.model_gradient (x p : Vec ℝ 2) :
    (Valley.model.gradient x p : Except (Failure ℝ) (Vec ℝ 2)) = .ok (parameterGradient x) := by
  show (x.ofLength 2 >>= fun x => p.ofLength 2 >>= fun _ => pure (parameterGradient x)) = _
  rw [Vec.ofLength_self, Vec.ofLength_self]
  rfl

/-- The valley as an affine function of its parameters. -/
theorem Valley.valueAt_eq (x p : Vec ℝ 2) :
    valueAt x p = Scalar.cosh (x.entry 0) + (parameterGradient x).dot p := by
  rw [Vec.dot_eq_sum, Fin.sum_univ_two]
  have hentry : (parameterGradient x).entry 0 = (x.entry 1 - 1) * (x.entry 1 - 1) := rfl
  have hone : (parameterGradient x).entry 1 = 1 := rfl
  have hvalue : valueAt x p =
      Scalar.cosh (x.entry 0) + p.entry 0 * (x.entry 1 - 1) * (x.entry 1 - 1) + p.entry 1 := rfl
  rw [hentry, hone, hvalue]
  ring

/-- The model of the valley is affine in its parameters. -/
theorem Valley.model_isAffine :
    ParametricModel.IsAffine Valley.model (fun x : Vec ℝ 2 => Scalar.cosh (x.entry 0))
      Valley.parameterGradient where
  value x p := (Valley.model_value x p).trans (congrArg Except.ok (Valley.valueAt_eq x p))
  gradient x p := Valley.model_gradient x p

/-- The value of the model at points and a parameter of the right lengths. -/
theorem Banded.model_value (x : Vec ℝ dimension) (p : Vec ℝ 1) :
    Banded.model.value x p = .ok (valueAt x (p.entry 0)) := by
  show (p.ofLength 1 >>= fun p => x.ofLength dimension >>= fun x =>
    pure (valueAt x (p.entry ⟨0, Nat.one_pos⟩))) = _
  rw [Vec.ofLength_self, Vec.ofLength_self]
  rfl

/-- The gradient of the banded objective in its parameter. -/
noncomputable def Banded.parameterGradient (x : Vec ℝ dimension) : Vec ℝ 1 := #v[1 / tau x]

theorem Banded.model_gradient (x : Vec ℝ dimension) (p : Vec ℝ 1) :
    (Banded.model.gradient x p : Except (Failure ℝ) (Vec ℝ 1)) = .ok (parameterGradient x) := by
  show (p.ofLength 1 >>= fun _ => x.ofLength dimension >>= fun x => pure (parameterGradient x)) = _
  rw [Vec.ofLength_self, Vec.ofLength_self]
  rfl

/-- The banded objective as an affine function of its parameter. -/
theorem Banded.valueAt_eq (x : Vec ℝ dimension) (p : Vec ℝ 1) :
    valueAt x (p.entry 0) = tau x - 1 - linear.dot x + (parameterGradient x).dot p := by
  rw [Vec.dot_eq_sum (parameterGradient x), Fin.sum_univ_one]
  show tau x - 1 - linear.dot x + p.entry 0 / tau x =
    tau x - 1 - linear.dot x + 1 / tau x * p.entry 0
  rw [one_div_mul_eq_div]

/-- The model of the banded objective is affine in its parameter. -/
theorem Banded.model_isAffine :
    ParametricModel.IsAffine Banded.model (fun x : Vec ℝ dimension => tau x - 1 - linear.dot x)
      Banded.parameterGradient where
  value x p := (Banded.model_value x p).trans (congrArg Except.ok (Banded.valueAt_eq x p))
  gradient x p := Banded.model_gradient x p

/-! ### Fits -/

namespace LeastSquares

variable {σ : Type} {s : LeastSquares ℝ}

/-- A fit that is made keeps its model and its data, and has as many points as data. -/
theorem exists_of_make {model : ParametricModel ℝ} {d c k : Nat} {points : Mat ℝ d c}
    {data : Vec ℝ k} (h : make model points data = .ok s) :
    ∃ points', s = ⟨model, d, k, points', data⟩ := by
  unfold make at h
  split_ifs at h with hcount
  cases h
  exact ⟨_, rfl⟩

/-- A fit of one of the two standard models to any number of measurements. -/
inductive IsStandard (s : LeastSquares ℝ) : Prop
  | valley {c k : Nat} (points : Mat ℝ 2 c) (data : Vec ℝ k)
      (h : make Valley.model points data = .ok s)
  | banded {c k : Nat} (points : Mat ℝ Banded.dimension c) (data : Vec ℝ k)
      (h : make Banded.model points data = .ok s)

/-- The residuals of a fit of a model that is affine in its parameters. -/
noncomputable def affineResidual (s : LeastSquares ℝ) (base : Vec ℝ s.pointLength → ℝ)
    (slope : Vec ℝ s.pointLength → Vec ℝ s.model.parameterCount)
    (p : Vec ℝ s.model.parameterCount) : Vec ℝ s.count :=
  Vector.ofFn fun k =>
    base (s.points.column k) + (slope (s.points.column k)).dot p - s.data.entry k

/-- The matrix of the gradients of a model that is affine in its parameters. -/
def affineJacobian (s : LeastSquares ℝ)
    (slope : Vec ℝ s.pointLength → Vec ℝ s.model.parameterCount) :
    Mat ℝ s.count s.model.parameterCount :=
  ⟨Vector.ofFn fun k => slope (s.points.column k)⟩

section Affine

variable {base : Vec ℝ s.pointLength → ℝ}
  {slope : Vec ℝ s.pointLength → Vec ℝ s.model.parameterCount}

/-- The residuals change by the product with the matrix of the gradients. -/
theorem affineResidual_add (p d : Vec ℝ s.model.parameterCount) :
    s.affineResidual base slope (p + d) =
      s.affineResidual base slope p + s.affineJacobian slope * d := by
  ext k hk
  have hrow : ∀ j, (s.affineJacobian slope).entry ⟨k, hk⟩ j =
      (slope (s.points.column ⟨k, hk⟩)).entry j := fun j =>
    congrArg (fun row : Vec ℝ _ => row.entry j) (Vector.getElem_ofFn hk)
  -- in each row the inner product is additive, and the data cancel
  rw [Vector.getElem_add, Mat.getElem_mulVec, affineResidual, affineResidual, Vector.getElem_ofFn,
    Vector.getElem_ofFn]
  simp only [hrow]
  rw [← Vec.dot_eq_sum, ← Vec.inner_eq_dot, ← Vec.inner_eq_dot, ← Vec.inner_eq_dot, inner_add_right]
  ring

variable (h : s.model.IsAffine base slope)

include h

theorem residual_eq (p : Vec ℝ s.model.parameterCount) :
    s.residual p = .ok (s.affineResidual base slope p) := by
  unfold residual
  rw [Vec.ofLength_self]
  simp only [h.value]
  exact Vec.tabulateM_ok _

/-- The Jacobian of the fit, which does not depend on the parameters. -/
theorem jacobian_eq (p : Vec ℝ s.model.parameterCount) :
    s.jacobian p = .ok (s.affineJacobian slope) := by
  unfold jacobian
  rw [Vec.ofLength_self]
  simp only [h.gradient]
  rw [Vec.tabulateM_ok]
  rfl

/-- The fit of a model that is affine in its parameters is affine. -/
theorem isAffine :
    (s.residualModel _ : ResidualModel σ ℝ _).IsAffine (s.affineResidual base slope)
      (s.affineJacobian slope) where
  residual p := (Run.computes_liftM (residual_eq h p)).bind (Run.computes_pure _)
  jacobian p := (Run.computes_liftM (jacobian_eq h p)).bind (Run.computes_pure _)
  add := affineResidual_add

end Affine

/-- A standard fit is that of a model with at most two parameters, which enter linearly. -/
theorem IsStandard.exists_isAffine (h : s.IsStandard) :
    s.model.parameterCount ≤ 2 ∧
      ∃ (base : Vec ℝ s.pointLength → ℝ)
        (slope : Vec ℝ s.pointLength → Vec ℝ s.model.parameterCount),
        s.model.IsAffine base slope := by
  cases h with
  | valley points data h =>
    obtain ⟨points, rfl⟩ := exists_of_make h
    exact ⟨Nat.le_refl 2, _, _, Valley.model_isAffine⟩
  | banded points data h =>
    obtain ⟨points, rfl⟩ := exists_of_make h
    exact ⟨Nat.le_succ 1, _, _, Banded.model_isAffine⟩

end LeastSquares

end Downhill
