import Downhill.Proofs.Exact.Banded
import Downhill.Proofs.Exact.Separable
import Downhill.Proofs.Objective.Derivatives
import Downhill.Proofs.Residual.Affine
import Mathlib.Analysis.SpecialFunctions.Trigonometric.DerivHyp

/-!
# True derivatives of the closed forms

* `closed_forms_differentiate`: in exact arithmetic the gradients and the Hessians of the valley, of
  the banded objective and of the quadratic objectives with a symmetric matrix are the true ones at
  every point, and so are the gradients of the first two in their parameters. No division is by
  zero.

The valley is a sum of functions of one coordinate each (`Valley.valueAt_eq_sum`), and the banded
objective has its derivatives from the module on it. In the parameters both are affine, which is all
that their gradient there depends on (`ParametricModel.IsAffine.differentiatesAt`).
-/

namespace Downhill

variable {σ α : Type} [Scalar α] {n : Nat}

/-! ### Arithmetics -/

/-- Both objectives have the same value, gradient and Hessian, though their arithmetics may
differ. -/
structure Objective.EvaluatesAs {a b : Scalar ℝ} (f : @Objective σ ℝ a n)
    (g : @Objective σ ℝ b n) : Prop where
  /-- The values agree. -/
  value : @Objective.value σ ℝ a n f = @Objective.value σ ℝ b n g
  /-- The gradients agree. -/
  gradient : @Objective.gradient σ ℝ a n f = @Objective.gradient σ ℝ b n g
  /-- The Hessians agree. -/
  hessian : @Objective.hessian σ ℝ a n f = @Objective.hessian σ ℝ b n g

/-! ### Models -/

/-- The gradient `g` of the model at the point `x` and the parameters `p` is that of its value in
the parameters, which is that of `M`. -/
structure ParametricModel.DifferentiatesAt (m : ParametricModel ℝ) (x : Vec ℝ n)
    (M : Vec ℝ m.parameterCount → ℝ) (g p : Vec ℝ m.parameterCount) : Prop where
  /-- The value is that of `M`. -/
  value : ∀ q : Vec ℝ m.parameterCount, m.value x q = .ok (M q)
  /-- The gradient at `p` is `g`. -/
  gradient : m.gradient x p = .ok g
  /-- It is the gradient of `M`. -/
  hasGradientAt : HasGradientAt M g p

/-- The slope of an affine model is its gradient in the parameters. -/
theorem ParametricModel.IsAffine.differentiatesAt {m : ParametricModel ℝ} {base : Vec ℝ n → ℝ}
    {slope : Vec ℝ n → Vec ℝ m.parameterCount} (hm : m.IsAffine base slope) (x : Vec ℝ n)
    (p : Vec ℝ m.parameterCount) :
    m.DifferentiatesAt x (fun q => base x + (slope x).dot q) (slope x) p where
  value := hm.value x
  gradient := hm.gradient x p
  hasGradientAt := by
    rw [hasGradientAt_iff_hasFDerivAt]
    exact (innerSL ℝ (slope x)).hasFDerivAt.const_add (base x)

/-! ### The valley -/

namespace Valley

/-- The objective is the model at its own parameters. -/
theorem value_eq_model (f : Valley α) (x : Vec α n) :
    (f.objective n : Objective σ α n).value x = liftM (model.value x f.parameters) := by
  show (liftM (x.ofLength 2) >>= fun y => pure (valueAt y f.parameters) : Run σ α α) =
    liftM (x.ofLength 2 >>= fun y => f.parameters.ofLength 2 >>= fun p => pure (valueAt y p))
  rw [Vec.ofLength_self]
  cases x.ofLength 2 with
  | error e => rfl
  | ok y => rfl

variable (f : Valley ℝ) (x p : Vec ℝ 2)

/-- The lengths fit, so the valley gives what its formulas say. -/
theorem evaluatesTwice :
    (f.objective 2 : Objective σ ℝ 2).EvaluatesTwice (fun x => valueAt x f.parameters)
      (fun x => gradientAt x f.parameters) fun x => hessianAt x f.parameters where
  value x := (Run.computes_liftM x.ofLength_self).bind (Run.computes_pure _)
  gradient x := (Run.computes_liftM x.ofLength_self).bind (Run.computes_liftM (Vec.fit_self _))
  hessian x := (Run.computes_liftM x.ofLength_self).bind (Run.computes_pure _)

/-- The functions of one coordinate each that the valley with parameters `a` and `b` is the sum
of. -/
noncomputable def parts (a b : ℝ) : Fin 2 → ℝ → ℝ :=
  ![Real.cosh, fun t => a * (t - 1) * (t - 1) + b]

/-- The valley as a sum of functions of one coordinate. -/
theorem valueAt_eq_sum (y : Vec ℝ 2) :
    valueAt y p = ∑ i, parts (p.entry 0) (p.entry 1) i (y.entry i) := by
  rw [Fin.sum_univ_two]
  exact add_assoc _ _ _

/-- Their derivatives are the entries of the gradient. -/
theorem hasDerivAt_parts (i : Fin 2) :
    HasDerivAt (parts (p.entry 0) (p.entry 1) i) ((gradientAt x p).entry i) (x.entry i) := by
  fin_cases i
  · exact Real.hasDerivAt_cosh _
  -- the parabola, as a product of two offsets
  · have hoffset : HasDerivAt (fun t : ℝ => t - 1) 1 (x.entry 1) := (hasDerivAt_id _).sub_const 1
    have hparabola :
        HasDerivAt (fun t => p.entry 0 * (t - 1) * (t - 1) + p.entry 1) _ (x.entry 1) :=
      ((hoffset.const_mul (p.entry 0)).mul hoffset).add_const (p.entry 1)
    refine hparabola.congr_deriv ?_
    show _ = Scalar.two * p.entry 0 * (x.entry 1 - 1)
    rw [Scalar.two_real]
    ring

theorem hasGradientAt_valueAt : HasGradientAt (fun y => valueAt y p) (gradientAt x p) x := by
  rw [funext (valueAt_eq_sum p)]
  exact Separable.hasGradientAt_sum (hasDerivAt_parts x p)

/-- The Hessian is true, as each entry of the gradient depends on one coordinate. -/
theorem hasFDerivAt_gradientAt :
    HasFDerivAt (fun y => gradientAt y p) (hessianAt x p).toLin.toContinuousLinearMap x := by
  refine Separable.hasFDerivAt_diagonal
    (φ := ![Real.sinh, fun t => Scalar.two * p.entry 0 * (t - 1)])
    (fun y => Fin.forall_fin_two.mpr ⟨rfl, rfl⟩)
    (Fin.forall_fin_two.mpr ⟨Real.hasDerivAt_sinh _, ?_⟩)
  have hlinear : HasDerivAt (fun t : ℝ => Scalar.two * p.entry 0 * (t - 1)) _ (x.entry 1) :=
    ((hasDerivAt_id _).sub_const 1).const_mul _
  exact hlinear.congr_deriv (mul_one _)

/-- The valley has true derivatives at every point. -/
theorem differentiatesTwiceAt :
    (f.objective 2 : Objective σ ℝ 2).DifferentiatesTwiceAt (fun y => valueAt y f.parameters)
      (fun y => gradientAt y f.parameters) (hessianAt x f.parameters) x :=
  f.evaluatesTwice.differentiatesTwiceAt (hasGradientAt_valueAt x f.parameters)
    (hasFDerivAt_gradientAt x f.parameters)

theorem model_differentiatesAt :
    model.DifferentiatesAt x (fun q => valueAt x q) (parameterGradient x) p := by
  rw [funext (valueAt_eq x)]
  exact model_isAffine.differentiatesAt x p

end Valley

/-! ### The banded objective -/

namespace Banded

/-- The objective is the model at its own parameter. -/
theorem value_eq_model (f : Banded α) (x : Vec α n) :
    (f.objective n : Objective σ α n).value x = liftM (model.value x #v[f.parameter]) := by
  show (liftM (x.ofLength dimension) >>= fun y => pure (valueAt y f.parameter) : Run σ α α) =
    liftM (Vec.ofLength 1 #v[f.parameter] >>= fun p => x.ofLength dimension >>= fun y =>
      pure (valueAt y (p.entry ⟨0, Nat.one_pos⟩)))
  rw [Vec.ofLength_self]
  cases x.ofLength dimension with
  | error e => rfl
  | ok y => rfl

variable (f : Banded ℝ) (x : Vec ℝ dimension)

/-- The lengths fit, so the banded objective gives what its formulas say. -/
theorem evaluatesTwice :
    (f.objective dimension : Objective σ ℝ dimension).EvaluatesTwice
      (fun x => valueAt x f.parameter) (fun x => gradientAt x f.parameter)
      fun x => hessianAt x f.parameter where
  value x := (Run.computes_liftM x.ofLength_self).bind (Run.computes_pure _)
  gradient x := (Run.computes_liftM x.ofLength_self).bind (Run.computes_liftM (Vec.fit_self _))
  hessian x := (Run.computes_liftM x.ofLength_self).bind (Run.computes_pure _)

/-- The banded objective has true derivatives at every point. -/
theorem differentiatesTwiceAt :
    (f.objective dimension : Objective σ ℝ dimension).DifferentiatesTwiceAt
      (fun y => valueAt y f.parameter) (fun y => gradientAt y f.parameter)
      (hessianAt x f.parameter) x :=
  f.evaluatesTwice.differentiatesTwiceAt (hasGradientAt_valueAt x f.parameter)
    (hasFDerivAt_gradientAt x f.parameter)

theorem model_differentiatesAt (p : Vec ℝ 1) :
    model.DifferentiatesAt x (fun q : Vec ℝ 1 => valueAt x (q.entry 0)) (parameterGradient x)
      p := by
  rw [funext (valueAt_eq x)]
  exact model_isAffine.differentiatesAt x p

section Division

variable {div : ℝ → ℝ → ℝ} (hdiv : Scalar.IsDivision div)

include hdiv

theorem model_withDivision : @model ℝ (Scalar.withDivision div) = model := by
  have hquotient : ∀ y, div 1 (@tau ℝ (Scalar.withDivision div) y) = 1 / tau y := fun y => by
    rw [tau_withDivision]
    exact hdiv _ _ (tau_ne_zero y)
  unfold model
  rw [valueAt_withDivision hdiv]
  -- only the gradients are left to compare, entry by entry
  congr 1
  funext n k y p
  exact congrArg _ (funext fun _ => congrArg _ (funext fun y =>
    congrArg (fun t => pure #v[t]) (hquotient y)))

theorem objective_withDivision :
    (@objective σ ℝ (Scalar.withDivision div) f n).EvaluatesAs (f.objective n) := by
  unfold objective
  rw [valueAt_withDivision hdiv, gradientAt_withDivision hdiv, hessianAt_withDivision hdiv]
  exact ⟨rfl, rfl, rfl⟩

end Division

end Banded

/-! ### All of them -/

/-- **True derivatives of the closed forms**: the gradient and the Hessian of the valley are the
derivatives of its value and of its gradient at every point, and its gradient in the parameters is
that of its value; the objective is the model at its own parameters. The same holds of the banded
objective, where all divisions are by powers of a number that is at least one, and the derivatives
of a quadratic objective are true if its matrix is symmetric. -/
theorem closed_forms_differentiate :
    (∀ (f : Valley ℝ) (x p : Vec ℝ 2),
      (f.objective 2 : Objective σ ℝ 2).DifferentiatesTwiceAt
          (fun y => Valley.valueAt y f.parameters) (fun y => Valley.gradientAt y f.parameters)
          (Valley.hessianAt x f.parameters) x ∧
        Valley.model.DifferentiatesAt x (fun q => Valley.valueAt x q) (Valley.parameterGradient x)
          p ∧
        (f.objective 2 : Objective σ ℝ 2).value x = liftM (Valley.model.value x f.parameters)) ∧
      (∀ (f : Banded ℝ) (x : Vec ℝ Banded.dimension) (p : Vec ℝ 1),
        (f.objective Banded.dimension : Objective σ ℝ Banded.dimension).DifferentiatesTwiceAt
            (fun y => Banded.valueAt y f.parameter) (fun y => Banded.gradientAt y f.parameter)
            (Banded.hessianAt x f.parameter) x ∧
          Banded.model.DifferentiatesAt x (fun q : Vec ℝ 1 => Banded.valueAt x (q.entry 0))
            (Banded.parameterGradient x) p ∧
          (f.objective Banded.dimension : Objective σ ℝ Banded.dimension).value x =
            liftM (Banded.model.value x #v[f.parameter]) ∧
          1 ≤ Banded.tau x) ∧
      (∀ div, Scalar.IsDivision div → @Banded.model ℝ (Scalar.withDivision div) = Banded.model ∧
        ∀ (f : Banded ℝ) (n : Nat),
          (@Banded.objective σ ℝ (Scalar.withDivision div) f n).EvaluatesAs (f.objective n)) ∧
      ∀ (n : Nat) (q : Quadratic ℝ n), q.matrix.IsSymm → ∀ x,
        (q.objective n : Objective σ ℝ n).DifferentiatesTwiceAt q.value q.gradient q.matrix x := by
  refine ⟨fun f x p => ?_, fun f x p => ?_, fun div hdiv => ?_, fun n q hq x => ?_⟩
  · exact ⟨Valley.differentiatesTwiceAt f x, Valley.model_differentiatesAt x p,
      Valley.value_eq_model f x⟩
  · exact ⟨Banded.differentiatesTwiceAt f x, Banded.model_differentiatesAt x p,
      Banded.value_eq_model f x, Banded.one_le_tau x⟩
  · exact ⟨Banded.model_withDivision hdiv, fun f n => Banded.objective_withDivision f hdiv⟩
  · exact q.differentiatesTwiceAt hq x

theorem Banded.product_zero : product (0 : Vec ℝ dimension) = 0 :=
  map_zero (matrix : Mat ℝ dimension dimension).toLin

theorem Banded.tau_zero : tau (0 : Vec ℝ dimension) = 1 := by
  rw [tau, product_zero, ← Vec.inner_eq_dot, inner_zero_left, mul_zero, zero_add]

/-- The parameter one makes the factor of the matrix vanish at the origin. -/
theorem Banded.scale_zero : scale (0 : Vec ℝ dimension) 1 = 0 := by
  rw [scale, tau_zero]
  norm_num

theorem Banded.hessianAt_zero : hessianAt (0 : Vec ℝ dimension) 1 = .zero := by
  ext i j
  -- the matrix of rank one vanishes with the product
  have hentry : (0 : Vec ℝ dimension).entry i = 0 := congrFun (map_zero (Vec.entries dimension)) i
  rw [hessianAt, scale_zero, product_zero, Mat.entry_add, Mat.entry_smul, Mat.entry_smul,
    Mat.entry_outer, hentry, zero_mul, zero_mul, mul_zero, add_zero, Mat.entry_zero]

/-- A valley, the standard banded objective with quotients by zero that are one, and a bowl. -/
theorem closed_forms_differentiate_values :
    (∃ F G, ((⟨#v[2, 3]⟩ : Valley ℝ).objective 2 : Objective Unit ℝ 2).DifferentiatesTwiceAt F G
        (.diagonal #v[1, 4]) #v[0, 2] ∧
      F #v[0, 2] = 6 ∧ G #v[0, 2] = #v[0, 4]) ∧
    (∃ F G, ((⟨1⟩ : Banded ℝ).objective Banded.dimension : Objective Unit ℝ
        Banded.dimension).DifferentiatesTwiceAt F G
        .zero 0 ∧
      F 0 = 1 ∧ G 0 = -Banded.linear) ∧
    (Scalar.IsDivision fun s t => if t = 0 then 1 else s / t) ∧
    @Banded.model ℝ (Scalar.withDivision fun s t => if t = 0 then 1 else s / t) = Banded.model ∧
    (Quadratic.bowl 2 1).matrix.IsSymm ∧
    (∃ F G, ((Quadratic.bowl 2 1).objective 2 : Objective Unit ℝ 2).DifferentiatesTwiceAt F G
        (.symmTwo 2 0 2) #v[1, 2] ∧
      F #v[1, 2] = 6 ∧ G #v[1, 2] = #v[2, 4]) := by
  obtain ⟨hvalley, hbanded, hdivision, hquadratic⟩ := closed_forms_differentiate (σ := Unit)
  have hdiv : Scalar.IsDivision fun s t => if t = 0 then 1 else s / t := fun s t ht => if_neg ht
  have hsymm : (Quadratic.bowl 2 1).matrix.IsSymm := Mat.symmTwo_isSymm 2 0 2
  have hvalleyTwice := (hvalley ⟨#v[2, 3]⟩ #v[0, 2] #v[2, 3]).1
  -- at `(0, 2)` the hyperbolic cosine is one
  have hvalleyHessian : Valley.hessianAt #v[0, 2] #v[2, 3] = .diagonal #v[(1 : ℝ), 4] := by
    show Mat.diagonal #v[Real.cosh 0, Scalar.two * 2] = _
    rw [Real.cosh_zero, Scalar.two_real]
    norm_num
  have hbandedTwice := (hbanded ⟨1⟩ 0 #v[1]).1
  rw [hvalleyHessian] at hvalleyTwice
  rw [Banded.hessianAt_zero] at hbandedTwice
  -- the values and gradients that are named
  refine ⟨⟨_, _, hvalleyTwice, ?_, ?_⟩, ⟨_, _, hbandedTwice, ?_, ?_⟩, hdiv, (hdivision _ hdiv).1,
    hsymm, ⟨_, _, hquadratic 2 _ hsymm _, ?_, ?_⟩⟩
  · show Real.cosh 0 + 2 * ((2 : ℝ) - 1) * (2 - 1) + 3 = 6
    rw [Real.cosh_zero]
    norm_num
  · show (#v[Real.sinh 0, Scalar.two * 2 * (2 - 1)] : Vec ℝ 2) = #v[0, 4]
    rw [Real.sinh_zero, Scalar.two_real]
    norm_num
  · rw [Banded.valueAt, Banded.tau_zero, ← Vec.inner_eq_dot, inner_zero_right]
    norm_num
  · rw [Banded.gradientAt, Banded.scale_zero, Vec.hmul_eq_smul, zero_smul, zero_sub]
  · rw [Quadratic.bowl_value]
    norm_num
  · rw [Quadratic.bowl_gradient]
    norm_num

end Downhill
