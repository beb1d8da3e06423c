import Downhill.Proofs.Exact.Quadratic

/-!
# True derivatives

An objective computes its derivatives by formulas of their own, next to that of its value.
`f.DifferentiatesAt F G x` says that these agree at a point: near `x` the value of `f` is that of
`F`, and the gradient at `x` is the gradient of `F`. `f.DifferentiatesTwiceAt F G H x` adds that the
Hessian at `x` is the derivative of the gradient. Away from `x` the objective may fail.

Quadratic objectives differentiate twice everywhere (`Quadratic.differentiatesTwiceAt`). Augmented
Lagrangians differentiate wherever their objective and their constraint do
(`Objective.lagrangian_differentiates`), so those that are nested do as well.
-/

namespace Downhill

open Filter Topology

open scoped InnerProductSpace

variable {σ : Type} {n : Nat} {x : Vec ℝ n}

/-! ### Objectives that differentiate -/

namespace Objective

/-- The gradient of `f` at `x`, which is that of `G`, is the gradient of its value, which is that of
`F`. -/
structure DifferentiatesAt (f : Objective σ ℝ n) (F : Vec ℝ n → ℝ) (G : Vec ℝ n → Vec ℝ n)
    (x : Vec ℝ n) : Prop where
  /-- Near `x` the value is that of `F`. -/
  value : ∀ᶠ y in 𝓝 x, (f.value y).Computes (F y)
  /-- The gradient at `x` is that of `G`. -/
  gradient : (f.gradient x).Computes (G x)
  /-- It is the gradient of `F`. -/
  hasGradientAt : HasGradientAt F (G x) x

/-- Also the Hessian `H` of `f` at `x` is the derivative of its gradient. -/
structure DifferentiatesTwiceAt (f : Objective σ ℝ n) (F : Vec ℝ n → ℝ) (G : Vec ℝ n → Vec ℝ n)
    (H : Mat ℝ n n) (x : Vec ℝ n) : Prop extends f.DifferentiatesAt F G x where
  /-- Near `x` the gradient is that of `G`. -/
  eventually_gradient : ∀ᶠ y in 𝓝 x, (f.gradient y).Computes (G y)
  /-- The Hessian at `x` is `H`. -/
  hessian : (f.hessian x).Computes ⟨n, n, H⟩
  /-- It is the derivative of `G`. -/
  hasFDerivAt : HasFDerivAt G H.toLin.toContinuousLinearMap x

/-- An objective that gives functions everywhere differentiates where these do. -/
theorem EvaluatesTwice.differentiatesTwiceAt {f : Objective σ ℝ n} {F : Vec ℝ n → ℝ}
    {G : Vec ℝ n → Vec ℝ n} {H : Vec ℝ n → Mat ℝ n n} (hf : f.EvaluatesTwice F G H)
    (hF : HasGradientAt F (G x) x) (hG : HasFDerivAt G (H x).toLin.toContinuousLinearMap x) :
    f.DifferentiatesTwiceAt F G (H x) x where
  value := .of_forall hf.value
  gradient := hf.gradient x
  hasGradientAt := hF
  eventually_gradient := .of_forall hf.gradient
  hessian := hf.hessian x
  hasFDerivAt := hG

end Objective

/-- A quadratic objective with a symmetric matrix differentiates twice everywhere. -/
theorem Quadratic.differentiatesTwiceAt (q : Quadratic ℝ n) (hq : q.matrix.IsSymm) (x : Vec ℝ n) :
    (q.objective n : Objective σ ℝ n).DifferentiatesTwiceAt q.value q.gradient q.matrix x :=
  q.evaluatesTwice.differentiatesTwiceAt (q.hasGradientAt hq x) (q.hasFDerivAt_gradient x)

/-! ### Augmented Lagrangians -/

namespace Weights

variable (w : Weights ℝ) {F K : Vec ℝ n → ℝ} {G D : Vec ℝ n → Vec ℝ n} {A J : Mat ℝ n n}

/-- The chain rule for the squared constraint makes its factor the updated multiplier. -/
theorem hasGradientAt_value {g d : Vec ℝ n} (hF : HasGradientAt F g x)
    (hK : HasGradientAt K d x) :
    HasGradientAt (fun y => F y + w.multiplier * K y + Scalar.half * w.penalty * K y * K y)
      (g + w.factor (K x) * d) x := by
  rw [hasGradientAt_iff_hasFDerivAt] at *
  have hlinear := hK.const_mul w.multiplier
  have hsquare := (hK.const_mul (Scalar.half * w.penalty)).mul hK
  -- the square counts its factor twice, which the half makes up for
  refine ((hF.add hlinear).add hsquare).congr_fderiv ?_
  rw [Scalar.half_real, Vec.hmul_eq_smul, map_add, map_smul]
  unfold factor
  module

/-- The product rule for the factor of the constraint adds the matrix of rank one. -/
theorem hasFDerivAt_gradient (hG : HasFDerivAt G A.toLin.toContinuousLinearMap x)
    (hK : HasGradientAt K (D x) x) (hD : HasFDerivAt D J.toLin.toContinuousLinearMap x) :
    HasFDerivAt (fun y => G y + w.factor (K y) * D y)
      (A + w.factor (K x) * J + w.penalty * Mat.outer (D x) (D x)).toLin.toContinuousLinearMap
      x := by
  have hfactor := ((hasGradientAt_iff_hasFDerivAt.mp hK).const_mul w.penalty).const_add w.multiplier
  simp only [Vec.hmul_eq_smul]
  refine (hG.add (hfactor.smul hD)).congr_fderiv ?_
  -- both derivatives at a vector
  ext1 v
  show A.toLin v + (w.factor (K x) • J.toLin v + (w.penalty * ⟪D x, v⟫_ℝ) • D x) = _
  rw [LinearMap.coe_toContinuousLinearMap', Mat.toLin_add, Mat.toLin_add, Mat.toLin_smul,
    Mat.toLin_smul, LinearMap.add_apply, LinearMap.add_apply, LinearMap.smul_apply,
    LinearMap.smul_apply, Mat.toLin_outer, smul_smul, add_assoc, Vec.inner_eq_dot]

/-- The Hessian of the augmented Lagrangian is symmetric with those of its parts. -/
theorem hessian_isSymm (t : ℝ) (d : Vec ℝ n) (hA : A.IsSymm) (hJ : J.IsSymm) :
    (A + t * J + w.penalty * Mat.outer d d).IsSymm :=
  (hA.add (hJ.smul t)).add ((Mat.outer_isSymm d).smul w.penalty)

end Weights

namespace Objective

variable (w : Weights ℝ) {f h : Objective σ ℝ n} {F K : Vec ℝ n → ℝ} {G D : Vec ℝ n → Vec ℝ n}
  {A J : Mat ℝ n n}

/-- The augmented Lagrangian differentiates with its objective and its constraint. -/
theorem DifferentiatesAt.lagrangian (hf : f.DifferentiatesAt F G x)
    (hh : h.DifferentiatesAt K D x) :
    (w.lagrangian f h).DifferentiatesAt
      (fun y => F y + w.multiplier * K y + Scalar.half * w.penalty * K y * K y)
      (fun y => G y + w.factor (K y) * D y) x where
  value := by
    filter_upwards [hf.value, hh.value] with y hfy hhy
    exact hhy.bind (hfy.bind (Run.computes_pure _))
  gradient :=
    hh.value.self_of_nhds.bind (hf.gradient.bind (hh.gradient.bind (Run.computes_pure _)))
  hasGradientAt := w.hasGradientAt_value hf.hasGradientAt hh.hasGradientAt

/-- It differentiates twice where both do. -/
theorem DifferentiatesTwiceAt.lagrangian (hf : f.DifferentiatesTwiceAt F G A x)
    (hh : h.DifferentiatesTwiceAt K D J x) :
    (w.lagrangian f h).DifferentiatesTwiceAt
      (fun y => F y + w.multiplier * K y + Scalar.half * w.penalty * K y * K y)
      (fun y => G y + w.factor (K y) * D y)
      (A + w.factor (K x) * J + w.penalty * Mat.outer (D x) (D x)) x where
  toDifferentiatesAt := hf.toDifferentiatesAt.lagrangian w hh.toDifferentiatesAt
  eventually_gradient := by
    filter_upwards [hf.eventually_gradient, hh.value, hh.eventually_gradient] with y hfy hhy hdy
    exact hhy.bind (hfy.bind (hdy.bind (Run.computes_pure _)))
  hessian :=
    hh.value.self_of_nhds.bind (hh.gradient.bind (hf.hessian.bind (hh.hessian.bind
      (Run.computes_liftM (hessianSum_eq_ok _ _ _)))))
  hasFDerivAt := w.hasFDerivAt_gradient hf.hasFDerivAt hh.hasGradientAt hh.hasFDerivAt

/-- **Derivatives of an augmented Lagrangian**: where the gradients of the objective `f` and of the
constraint `h` are true, so is that of the augmented Lagrangian, and the factor of `∇h` in it is the
updated multiplier. Where also the Hessians are true, so is that of the augmented Lagrangian, and it
is symmetric with them. -/
theorem lagrangian_differentiates (hf : f.DifferentiatesAt F G x) (hh : h.DifferentiatesAt K D x) :
    (w.lagrangian f h).DifferentiatesAt
        (fun y => F y + w.multiplier * K y + Scalar.half * w.penalty * K y * K y)
        (fun y => G y + w.factor (K y) * D y) x ∧
      (∃ μ, (w.updatedMultiplier h x).Computes μ ∧
        ((w.lagrangian f h).gradient x).Computes (G x + μ * D x)) ∧
      ∀ A J, f.DifferentiatesTwiceAt F G A x → h.DifferentiatesTwiceAt K D J x →
        ∃ H, (w.lagrangian f h).DifferentiatesTwiceAt
            (fun y => F y + w.multiplier * K y + Scalar.half * w.penalty * K y * K y)
            (fun y => G y + w.factor (K y) * D y) H x ∧
          H = A + w.factor (K x) * J + w.penalty * Mat.outer (D x) (D x) ∧
          (A.IsSymm → J.IsSymm → H.IsSymm) := by
  have hlagrangian := hf.lagrangian w hh
  refine ⟨hlagrangian, ⟨w.factor (K x), ?_, hlagrangian.gradient⟩, fun A J hA hJ => ?_⟩
  · exact hh.value.self_of_nhds.bind (Run.computes_pure _)
  · exact ⟨_, hA.lagrangian w hJ, rfl, w.hessian_isSymm _ _⟩

end Objective

open Quadratic

/-- The unit circle as a constraint, and a line as another one of the augmented Lagrangian. -/
theorem lagrangian_differentiates_circle :
    ((bowl 2 1).objective 2 : Objective Unit ℝ 2).DifferentiatesTwiceAt (bowl 2 1).value
        (bowl 2 1).gradient (.symmTwo 2 0 2) #v[2, 2] ∧
      ((bowl 2 (-1)).objective 2 : Objective Unit ℝ 2).DifferentiatesTwiceAt (bowl 2 (-1)).value
        (bowl 2 (-1)).gradient (.symmTwo 2 0 2) #v[2, 2] ∧
      (Weights.updatedMultiplier ⟨-1, 10⟩ ((bowl 2 (-1)).objective 2 : Objective Unit ℝ 2)
        #v[2, 2]).Computes 69 ∧
      ∃ F G, (Weights.lagrangian ⟨-1, 10⟩ ((bowl 2 1).objective 2 : Objective Unit ℝ 2)
          ((bowl 2 (-1)).objective 2)).DifferentiatesTwiceAt F G (.symmTwo 300 160 300) #v[2, 2] ∧
        G #v[2, 2] = #v[280, 280] ∧
        ∃ F' G', (Weights.lagrangian ⟨0, 1⟩ (Weights.lagrangian ⟨-1, 10⟩
            ((bowl 2 1).objective 2 : Objective Unit ℝ 2) ((bowl 2 (-1)).objective 2))
            ((line (-3)).objective 2)).DifferentiatesTwiceAt F' G' (.symmTwo 301 161 301) #v[2, 2] ∧
          G' #v[2, 2] = #v[281, 281] := by
  have hf := (bowl 2 1).differentiatesTwiceAt (σ := Unit) (Mat.symmTwo_isSymm 2 0 2) #v[2, 2]
  have hh := (bowl 2 (-1)).differentiatesTwiceAt (σ := Unit) (Mat.symmTwo_isSymm 2 0 2) #v[2, 2]
  have hk := (line (-3)).differentiatesTwiceAt (σ := Unit) Mat.zero_isSymm #v[2, 2]
  -- the updated multipliers of the circle and of the line
  have hfactor : Weights.factor ⟨-1, 10⟩ ((bowl 2 (-1)).value #v[2, 2]) = 69 := by
    rw [bowl_value]
    norm_num [Weights.factor]
  have hfactor' : Weights.factor ⟨0, 1⟩ ((line (-3)).value #v[2, 2]) = 1 := by
    rw [line_value]
    norm_num [Weights.factor]
  -- the first Lagrangian is the objective of the second
  obtain ⟨hfirst, -, htwice⟩ :=
    Objective.lagrangian_differentiates ⟨-1, 10⟩ hf.toDifferentiatesAt hh.toDifferentiatesAt
  obtain ⟨H, hH, hmatrix, -⟩ := htwice _ _ hf hh
  obtain ⟨-, -, htwice'⟩ :=
    Objective.lagrangian_differentiates ⟨0, 1⟩ hfirst hk.toDifferentiatesAt
  obtain ⟨H', hH', hmatrix', -⟩ := htwice' _ _ hH hk
  have hgradient : (bowl 2 1).gradient #v[2, 2] +
      Weights.factor ⟨-1, 10⟩ ((bowl 2 (-1)).value #v[2, 2]) * (bowl 2 (-1)).gradient #v[2, 2] =
      #v[280, 280] := by
    rw [hfactor, bowl_gradient, bowl_gradient, Vec.hmul_eq_smul, Vec.pair_smul, Vec.pair_add]
    norm_num
  have hgradient' : (bowl 2 1).gradient #v[2, 2] +
      Weights.factor ⟨-1, 10⟩ ((bowl 2 (-1)).value #v[2, 2]) * (bowl 2 (-1)).gradient #v[2, 2] +
      Weights.factor ⟨0, 1⟩ ((line (-3)).value #v[2, 2]) * (line (-3)).gradient #v[2, 2] =
      #v[281, 281] := by
    rw [hgradient, hfactor', line_gradient, Vec.hmul_eq_smul, Vec.pair_smul, Vec.pair_add]
    norm_num
  have hfirstMatrix : H = .symmTwo 300 160 300 := by
    rw [hmatrix, hfactor, bowl_gradient, bowl_matrix, bowl_matrix, Mat.symmTwo_smul,
      Mat.outer_pair, Mat.symmTwo_smul, Mat.symmTwo_add, Mat.symmTwo_add]
    norm_num
  have hsecondMatrix : H' = .symmTwo 301 161 301 := by
    rw [hmatrix', hfactor', hfirstMatrix, line_gradient, line_matrix, Mat.symmTwo_smul,
      Mat.outer_pair, Mat.symmTwo_smul, Mat.symmTwo_add, Mat.symmTwo_add]
    norm_num
  have hupdate : (Weights.updatedMultiplier ⟨-1, 10⟩
      ((bowl 2 (-1)).objective 2 : Objective Unit ℝ 2) #v[2, 2]).Computes 69 := by
    rw [← hfactor]
    exact hh.value.self_of_nhds.bind (Run.computes_pure _)
  rw [hfirstMatrix] at hH
  rw [hsecondMatrix] at hH'
  exact ⟨hf, hh, hupdate, _, _, hH, hgradient, _, _, hH', hgradient'⟩

end Downhill
