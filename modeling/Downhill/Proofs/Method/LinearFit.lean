import Downhill.Proofs.Method.LevenbergMarquardt
import Downhill.Proofs.Residual.Affine
import Downhill.Proofs.Solve.CholeskyFactor

/-!
# Fits with a constant Jacobian

* `standardFit_converges_without_rejection`: in exact arithmetic, the fit of the valley or of the
  banded objective to any measurements rejects no trial, and it succeeds where its cap is large
  enough.

Where the residuals are affine in at most two parameters, the damped normal equations are solved
exactly (`ConjugateGradient.exists_computes_solve`). With their solution `y`, a trial takes `α ‖y‖²`
and more from the value (`normSq_residual_trial`), so it is accepted, and it leaves the gradient `α
y` (`gradient_trial`). While the gradient is above the tolerance, `y` has a least length. So every
trial takes a least amount from the value, which is why there are finitely many. `JᵀJ` may be
singular.
-/

namespace Downhill.LevenbergMarquardt

open scoped InnerProductSpace

variable {σ : Type} {N m : Nat} {config : Config ℝ} {model : ResidualModel σ ℝ m}
  {r : Vec ℝ m → Vec ℝ N} {J : Mat ℝ N m} {a : ℝ} {p y : Vec ℝ m} {k : Nat} {history : Array ℝ}

/-! ### What a trial makes of residuals and gradient -/

/-- The gradient `Jᵀ r'` is what `a (JᵀJ + a I)⁻¹` makes of the gradient `Jᵀ r`. -/
def DampsGradient (J : Mat ℝ N m) (a : ℝ) (r r' : Vec ℝ N) : Prop :=
  ∃ y, (∀ z, (J.gram + a * (Mat.identity : Mat ℝ m m)) * z = J.transposeMulVec r ↔ z = y) ∧
    J.transposeMulVec r' = a • y

section Trial

variable (hadd : ∀ p d, r (p + d) = r p + J * d)
  (hy : (J.gram + a * (Mat.identity : Mat ℝ m m)) * y = J.transposeMulVec (r p))

include hadd

theorem residual_trial : r (p + -y) = r p - J * y := by
  rw [hadd, ← Mat.toLin_apply, map_neg, ← sub_eq_add_neg, Mat.toLin_apply]

include hy

/-- A trial takes from the squared norm of the residuals what the damped equations weigh. -/
theorem normSq_residual_trial :
    ‖r (p + -y)‖ ^ 2 = ‖r p‖ ^ 2 - ‖J * y‖ ^ 2 - 2 * (a * ‖y‖ ^ 2) := by
  have hinner : ⟪r p, J * y⟫_ℝ = ‖J * y‖ ^ 2 + a * ‖y‖ ^ 2 := by
    rw [← Mat.inner_transposeMulVec, ← hy, real_inner_comm, Mat.inner_gram_add_mulVec]
  rw [residual_trial hadd, norm_sub_sq_real, hinner]
  ring

theorem gradient_trial : J.transposeMulVec (r (p + -y)) = a • y := by
  rw [Mat.gram_add_mulVec, ← Mat.gram_mulVec] at hy
  rw [hadd, Mat.transposeMulVec_add, ← hy, ← Mat.gram_mulVec, ← Mat.toLin_apply, ← Mat.toLin_apply,
    map_neg, add_neg_cancel_comm]

theorem dampsGradient_trial (ha : 0 < a) : DampsGradient J a (r p) (r (p + -y)) := by
  refine ⟨y, fun z => ⟨fun hz => ?_, fun hz => ?_⟩, gradient_trial hadd hy⟩
  -- the damped equations have one solution only
  · exact (Mat.isPosDef_gram_add J ha).mulVec_injective (hz.trans hy.symm)
  · rw [hz, hy]

end Trial

/-! ### Stages without a rejected trial -/

/-- The stage of a fit at the parameters `p`, after `k` trials of which none was rejected. -/
noncomputable def State.fitted (config : Config ℝ) (r : Vec ℝ m → Vec ℝ N) (J : Mat ℝ N m)
    (p : Vec ℝ m) (k : Nat) (history : Array ℝ) : State ℝ m where
  point := p
  model := ⟨N, m, r p, J⟩
  value := halfNormSq (r p).toArray
  damping := config.initialDamping
  trials := k
  rejected := 0
  evaluations := k + 1
  dampings := Array.replicate k config.initialDamping
  history := history

/-- An accepted trial leads to such a stage. -/
theorem State.accept_fitted (q : Vec ℝ m) :
    (State.fitted config r J p k history).accept config q (r q).toArray ⟨N, m, r q, J⟩ =
      .fitted config r J q (k + 1) (history.push (halfNormSq (r q).toArray)) := by
  unfold State.accept State.fitted
  rw [← Array.replicate_succ]

theorem Config.pos_of_validate (h : config.validate = .ok ()) :
    0 < config.tolerance ∧ 0 < config.initialDamping ∧ 0 < config.innerTolerance := by
  unfold Config.validate at h
  split_ifs at h with htol hdamping hgrowth hinner
  exact ⟨not_le.mp htol, not_le.mp hdamping, not_le.mp hinner⟩

/-- Above the tolerance the gradient is not zero. -/
theorem gradient_ne_zero (hvalid : config.validate = .ok ())
    (hgo : config.tolerance < ‖J.transposeMulVec (r p)‖) : J.transposeMulVec (r p) ≠ 0 := by
  intro hzero
  rw [hzero, norm_zero] at hgo
  exact (Config.pos_of_validate hvalid).1.not_gt hgo

section Fit

variable (hmodel : model.IsAffine r J)

include hmodel

theorem computes_start :
    (start config model p).Computes (.fitted config r J p 0 #[halfNormSq (r p).toArray]) :=
  (hmodel.residual p).bind ((hmodel.jacobian p).bind
    ((Run.computes_liftM (Linearization.make_toArray (r p) J)).bind (Run.computes_pure _)))

variable (hvalid : config.validate = .ok ()) (hm : m ≤ 2)

include hvalid hm

omit hmodel in
/-- The damped normal equations are solved exactly. -/
theorem exists_computes_trialPoint (p : Vec ℝ m) (k : Nat) (history : Array ℝ) :
    ∃ y, (J.gram + config.initialDamping * (Mat.identity : Mat ℝ m m)) * y =
        J.transposeMulVec (r p) ∧
      (trialPoint config (.fitted config r J p k history) : Run σ ℝ _).Computes (p + -y) := by
  obtain ⟨-, hdamping, hinner⟩ := Config.pos_of_validate hvalid
  set inner : ConjugateGradient.Config ℝ := { tolerance := config.innerTolerance }
  have hinner : 0 < inner.tolerance := hinner
  -- with at most two parameters there is nothing to fill in, so the solve is exact
  obtain ⟨y, hy, hsolve⟩ := ConjugateGradient.exists_computes_solve (σ := σ) hinner
    (Mat.isPosDef_gram_add J hdamping) (Mat.noFill_of_le_two hm _) (J.transposeMulVec (r p))
  refine ⟨y, hy, (Run.computes_liftM (Linearization.normalMatrix_eq (r p) J _)).bind ?_⟩
  exact hsolve.bind ((Run.computes_liftM y.fit_self).bind (Run.computes_pure _))

/-- Where the gradient is not zero, the trial is accepted. -/
theorem exists_computes_step (hgradient : J.transposeMulVec (r p) ≠ 0) (k : Nat)
    (history : Array ℝ) :
    ∃ y, (J.gram + config.initialDamping * (Mat.identity : Mat ℝ m m)) * y =
        J.transposeMulVec (r p) ∧
      (step config model (.fitted config r J p k history)).Computes
        (.fitted config r J (p + -y) (k + 1)
          (history.push (halfNormSq (r (p + -y)).toArray))) := by
  obtain ⟨y, hy, hpoint⟩ := exists_computes_trialPoint (σ := σ) hvalid hm p k history
  obtain ⟨-, hdamping, -⟩ := Config.pos_of_validate hvalid
  -- a step of length zero would solve the equations for the gradient zero only
  have hne : y ≠ 0 := by
    rintro rfl
    rw [← Mat.toLin_apply, map_zero] at hy
    exact hgradient hy.symm
  -- so the value falls by the weight of the damping at least
  have hless : halfNormSq (r (p + -y)).toArray < halfNormSq (r p).toArray := by
    rw [halfNormSq_toArray, halfNormSq_toArray]
    have hnorm := norm_pos_iff.mpr hne
    have hweight : 0 < config.initialDamping * ‖y‖ ^ 2 := by positivity
    have himage := sq_nonneg ‖J * y‖
    linarith only [normSq_residual_trial hmodel.add hy, hweight, himage]
  refine ⟨y, hy, ?_⟩
  rw [← State.accept_fitted]
  exact computes_step_of_lt hpoint (hmodel.residual _) hless (hmodel.jacobian _)
    (Linearization.make_toArray _ J)

theorem dampsGradient_of_yields (hgo : config.tolerance < ‖J.transposeMulVec (r p)‖)
    {u : State ℝ m} (hu : (step config model (.fitted config r J p k history)).Yields u) :
    ∃ q, u = .fitted config r J q (k + 1) (history.push (halfNormSq (r q).toArray)) ∧
      DampsGradient J config.initialDamping (r p) (r q) := by
  obtain ⟨y, hy, hcomputes⟩ :=
    exists_computes_step hmodel hvalid hm (gradient_ne_zero hvalid hgo) k history
  exact ⟨_, hcomputes.eq_of_yields hu,
    dampsGradient_trial hmodel.add hy (Config.pos_of_validate hvalid).2.1⟩

/-! ### All stages -/

/-- Every stage of a fit is one without a rejected trial. -/
theorem exists_eq_fitted {t : State ℝ m} (h : (routine config model p).Holds k t) :
    ∃ q history, t = .fitted config r J q k history := by
  refine h.invariant (I := fun k t => ∃ q history, t = .fitted config r J q k history) ?_ ?_
  · intro t ht
    exact ⟨p, _, (computes_start hmodel).eq_of_yields (start_of_yields_routine ht).2⟩
  · rintro k _ u - ⟨q, history, rfl⟩ hgo hu
    obtain ⟨y, -, hstep⟩ :=
      exists_computes_step hmodel hvalid hm (gradient_ne_zero hvalid hgo) k history
    exact ⟨_, _, hstep.eq_of_yields hu⟩

/-! ### The number of trials -/

omit hmodel hvalid hm in
/-- If a number falls by `d`, then `d` fits into it once less. -/
theorem floor_div_lt {b c d : ℝ} (hd : 0 < d) (hb : 0 ≤ b) (h : b + d ≤ c) :
    ⌊b / d⌋₊ < ⌊c / d⌋₊ := by
  have hquotient : b / d + 1 ≤ c / d := by
    rw [← div_self hd.ne', ← add_div]
    exact div_le_div_of_nonneg_right h hd.le
  rw [← Nat.add_one_le_iff, ← Nat.floor_add_one (div_nonneg hb hd.le)]
  exact Nat.floor_le_floor hquotient

omit hmodel hm in
/-- While the loop goes on, every trial takes a fixed amount from the value. -/
theorem exists_amount (hadd : ∀ p d, r (p + d) = r p + J * d) :
    ∃ amount > 0, ∀ p y,
      (J.gram + config.initialDamping * (Mat.identity : Mat ℝ m m)) * y = J.transposeMulVec (r p) →
      config.tolerance < ‖J.transposeMulVec (r p)‖ →
        halfNormSq (r (p + -y)).toArray + amount ≤ halfNormSq (r p).toArray := by
  obtain ⟨htol, hdamping, -⟩ := Config.pos_of_validate hvalid
  obtain ⟨b, hb, hlength⟩ := Mat.exists_pos_le_norm
    (J.gram + config.initialDamping * (Mat.identity : Mat ℝ m m)) htol
  -- the length of a step that solves the equations is bounded from below
  refine ⟨config.initialDamping * b ^ 2, by positivity, fun p y hy hgo => ?_⟩
  have hy' : b ^ 2 ≤ ‖y‖ ^ 2 := pow_le_pow_left₀ hb.le (hlength y (by rwa [hy])) 2
  have himage := sq_nonneg ‖J * y‖
  have hweight := mul_le_mul_of_nonneg_left hy' hdamping.le
  rw [halfNormSq_toArray, halfNormSq_toArray]
  linarith only [normSq_residual_trial hadd hy, himage, hweight]

/-- From a stage without a rejected trial the loop gets to the end of the fit. -/
theorem exists_computes_loop (p : Vec ℝ m) (k : Nat) (history : Array ℝ) :
    ∃ bound q j history', ∀ cap remaining, bound ≤ remaining →
      ((loop config model).run cap remaining (.fitted config r J p k history)).Computes
        (.fitted config r J q j history') := by
  obtain ⟨amount, hamount, hdecrease⟩ := exists_amount hvalid hmodel.add
  -- the measure is how often the amount still fits into the value
  have hstep : ∀ t : State ℝ m, (∃ q j history', t = .fitted config r J q j history') →
      (loop config model).continues t → ∃ u, ((loop config model).step t).Computes u ∧
        (∃ q j history', u = .fitted config r J q j history') ∧
        ⌊u.value / amount⌋₊ < ⌊t.value / amount⌋₊ := by
    rintro t ⟨q, j, history', rfl⟩ hgo
    obtain ⟨y, hy, hcomputes⟩ :=
      exists_computes_step hmodel hvalid hm (gradient_ne_zero hvalid hgo) j history'
    have hnonneg : 0 ≤ halfNormSq (r (q + -y)).toArray := by
      rw [halfNormSq_toArray]
      positivity
    exact ⟨_, hcomputes, ⟨_, _, _, rfl⟩, floor_div_lt hamount hnonneg (hdecrease q y hy hgo)⟩
  obtain ⟨t, ⟨q, j, history', rfl⟩, -, hrun⟩ := Loop.exists_computes_run hstep ⟨p, k, history, rfl⟩
    le_rfl
  exact ⟨_, q, j, history', hrun⟩

/-- A fit succeeds where its cap is large enough, with one and the same result. -/
theorem exists_computes_minimizeWithDamping (p : Vec ℝ m) :
    ∃ bound result, ∀ cap ≥ bound,
      (minimizeWithDamping { config with maxIterations := cap } model p).Computes result := by
  obtain ⟨bound, q, j, history, hloop⟩ :=
    exists_computes_loop hmodel hvalid hm p 0 #[halfNormSq (r p).toArray]
  refine ⟨bound, (State.fitted config r J q j history).result, fun cap hcap => ?_⟩
  have hstart : (routine { config with maxIterations := cap } model p).start.Computes
      (.fitted config r J p 0 #[halfNormSq (r p).toArray]) :=
    (Run.computes_liftM hvalid).bind ((Run.computes_record _).bind (computes_start hmodel))
  rw [minimizeWithDamping_eq_run]
  exact hstart.bind ((hloop cap cap hcap).bind
    ((Run.computes_record _).bind (Run.computes_pure _)))

end Fit

/-! ### Standard fits -/

/-- **Standard fits**: in exact arithmetic, whatever the measurements, the valid settings and the
start. The residuals are affine with a constant Jacobian `J`. No stage and no result counts a
rejected trial, and each trial is made with the initial damping `a`; it maps the gradient `Jᵀ r` to
`a (JᵀJ + a I)⁻¹ Jᵀ r`. From some cap on the fit succeeds. -/
theorem standardFit_converges_without_rejection {s : LeastSquares ℝ} (hs : s.IsStandard)
    {config : Config ℝ} (hvalid : config.validate = .ok ()) (p : Vec ℝ s.model.parameterCount) :
    ∃ J : Mat ℝ s.count s.model.parameterCount,
      (∀ q : Vec ℝ s.model.parameterCount, s.jacobian q = .ok J) ∧
      (∀ q d : Vec ℝ s.model.parameterCount,
        ∃ r, s.residual q = .ok r ∧ s.residual (q + d) = .ok (r + J * d)) ∧
      (∀ k t, (routine config (s.residualModel (σ := σ) _) p).Holds k t →
        t.rejected = 0 ∧ t.dampings = Array.replicate k config.initialDamping ∧
        ∃ r, s.residual t.point = .ok r ∧ t.model = ⟨_, _, r, J⟩ ∧
          (config.tolerance < t.stationarity →
            ∀ u, (step config (s.residualModel (σ := σ) _) t).Yields u →
              ∃ r', s.residual u.point = .ok r' ∧ u.model = ⟨_, _, r', J⟩ ∧
                DampsGradient J config.initialDamping r r')) ∧
      (∀ result, (minimizeWithDamping config (s.residualModel (σ := σ) _) p).Yields result →
        result.rejected = 0 ∧
          result.dampings = Array.replicate result.outcome.iterations config.initialDamping) ∧
      ∃ N result, ∀ cap ≥ N,
        (minimizeWithDamping { config with maxIterations := cap } (s.residualModel (σ := σ) _)
          p).Computes result ∧
        (minimize { config with maxIterations := cap } (s.residualModel (σ := σ) _)
          p).Computes result.outcome := by
  obtain ⟨hm, base, slope, haffine⟩ := hs.exists_isAffine
  have hmodel := LeastSquares.isAffine (σ := σ) haffine
  have hresidual := LeastSquares.residual_eq haffine
  obtain ⟨N, result, hresult⟩ := exists_computes_minimizeWithDamping hmodel hvalid hm p
  refine ⟨s.affineJacobian slope, LeastSquares.jacobian_eq haffine, fun q d => ?_, fun k t ht => ?_,
    fun result h => ?_, N, result, fun cap hcap => ⟨hresult cap hcap, ?_⟩⟩
  · exact ⟨_, hresidual q, by rw [hresidual, LeastSquares.affineResidual_add]⟩
  · obtain ⟨q, history, rfl⟩ := exists_eq_fitted hmodel hvalid hm ht
    refine ⟨rfl, rfl, _, hresidual q, rfl, fun hgo u hu => ?_⟩
    obtain ⟨q', rfl, hdamps⟩ := dampsGradient_of_yields hmodel hvalid hm hgo hu
    exact ⟨_, hresidual q', rfl, hdamps⟩
  · obtain ⟨k, -, last, hlast, -, rfl⟩ := minimizeWithDamping_cases h
    obtain ⟨q, history, rfl⟩ := exists_eq_fitted hmodel hvalid hm hlast
    exact ⟨rfl, rfl⟩
  · exact (hresult cap hcap).bind (Run.computes_pure _)

/-- One measurement, of the value zero at the point `(0, 1)`. It says nothing about the first
parameter of the valley, so `JᵀJ` is singular. -/
noncomputable def singleMeasurement : LeastSquares ℝ :=
  ⟨Valley.model, 2, 1, ⟨#v[.singleton 0, .singleton 1]⟩, .singleton 0⟩

theorem jacobian_singleMeasurement (q : Vec ℝ 2) :
    (singleMeasurement.jacobian q : Except (Failure ℝ) (Mat ℝ 1 2)) = .ok ⟨#v[#v[0, 1]]⟩ := by
  have hslope : Valley.parameterGradient #v[0, 1] = #v[0, 1] := by
    show (#v[((1 : ℝ) - 1) * (1 - 1), 1] : Vec ℝ 2) = _
    rw [sub_self, zero_mul]
  rw [← hslope]
  exact LeastSquares.jacobian_eq (s := singleMeasurement) Valley.model_isAffine q

/-- The fit of the valley to a single measurement with the standard settings, from zero. -/
theorem standardFit_converges_singleMeasurement :
    singleMeasurement.IsStandard ∧ ({} : Config ℝ).validate = .ok () ∧
    (∀ q : Vec ℝ 2, singleMeasurement.jacobian q = .ok (⟨#v[#v[0, 1]]⟩ : Mat ℝ 1 2)) ∧
    ∃ N, ∀ cap ≥ N, ∃ result,
      (minimizeWithDamping { maxIterations := cap }
        (singleMeasurement.residualModel 2 : ResidualModel Unit ℝ 2) #v[0, 0]).Computes result ∧
      result.rejected = 0 := by
  have hstandard : singleMeasurement.IsStandard :=
    .valley ⟨#v[.singleton 0, .singleton 1]⟩ (.singleton 0) rfl
  have hvalid : ∀ cap, ({ maxIterations := cap } : Config ℝ).validate = .ok () := fun cap => by
    norm_num [Config.validate, Scalar.solveTolerance]
  refine ⟨hstandard, hvalid _, jacobian_singleMeasurement, ?_⟩
  obtain ⟨-, -, -, -, -, N, result, hresult⟩ :=
    standardFit_converges_without_rejection (σ := Unit) hstandard (hvalid 1000) #v[0, 0]
  refine ⟨N, fun cap hcap => ⟨result, (hresult cap hcap).1, ?_⟩⟩
  obtain ⟨-, -, -, -, hrejected, -⟩ :=
    standardFit_converges_without_rejection (σ := Unit) hstandard (hvalid cap) #v[0, 0]
  exact (hrejected result (hresult cap hcap).1.yields).1

end Downhill.LevenbergMarquardt
