import Downhill.Proofs.Exact.Separable
import Downhill.Proofs.Method.Decrease
import Downhill.Proofs.Method.LinearFit
import Downhill.Residual.Analytic

/-!
# Rejected trials of a fit

* `rejections_bounded`: in exact arithmetic, at parameters where a model is differentiable and the
  gradient is above the tolerance, all trials with a large enough damping are accepted. So there is a
  bound on the number of trials from there that are rejected one after the other.

A trial solves the damped normal equations up to a tolerance that is less than the length of the
gradient `g`. As the damping grows its step `y` gets short (`mul_norm_le_of_damped`), and the part
of the equations without the damping loses its weight against `g`; what remains keeps `y` within a
fixed angle of `g` (`exists_angle_of_damped`). Short steps at such an angle lead downhill
(`eventually_lt_of_hasGradientAt`). Each rejected trial lets the damping grow by a factor above one,
hence beyond every bound.
-/

namespace Downhill

open Asymptotics Filter Topology

open scoped InnerProductSpace

variable {σ : Type} {N m n : Nat}

/-! ### Steps downhill -/

/-- Short steps against the gradient, up to a fixed angle, lower a differentiable function. -/
theorem eventually_lt_of_hasGradientAt {φ : Vec ℝ n → ℝ} {g p : Vec ℝ n}
    (h : HasGradientAt φ g p) {c : ℝ} (hc : 0 < c) :
    ∀ᶠ y in 𝓝 (0 : Vec ℝ n), y ≠ 0 → c * ‖y‖ ≤ ⟪g, y⟫_ℝ → φ (p + -y) < φ p := by
  have hclose := isLittleO_iff.mp (hasFDerivAt_iff_isLittleO_nhds_zero.mp h.hasFDerivAt)
    (half_pos hc)
  have hneg : Tendsto (fun y : Vec ℝ n => -y) (𝓝 0) (𝓝 0) := by
    have htendsto := (continuous_neg (G := Vec ℝ n)).tendsto 0
    rwa [neg_zero] at htendsto
  -- the error of the derivative is at most half of what the angle gives
  filter_upwards [hneg.eventually hclose] with y hy hne hangle
  rw [InnerProductSpace.toDual_apply_apply, inner_neg_right, norm_neg, Real.norm_eq_abs] at hy
  have hlength : 0 < c / 2 * ‖y‖ := mul_pos (half_pos hc) (norm_pos_iff.mpr hne)
  linarith [(abs_le.mp hy).2]

/-- The gradient of half the squared norm. -/
theorem hasGradientAt_half_normSq {r : Vec ℝ m → Vec ℝ N} {J : Mat ℝ N m} {p : Vec ℝ m}
    (h : HasFDerivAt r J.toLin.toContinuousLinearMap p) :
    HasGradientAt (fun q => ‖r q‖ ^ 2 / 2) (J.transposeMulVec (r p)) p := by
  rw [hasGradientAt_iff_hasFDerivAt]
  refine (h.norm_sq.mul_const (1 / 2 : ℝ)).congr_fderiv ?_ |>.congr_of_eventuallyEq ?_
  · ext v
    show (1 / 2 : ℝ) • (2 • ⟪r p, J * v⟫_ℝ) = ⟪J.transposeMulVec (r p), v⟫_ℝ
    rw [Mat.inner_transposeMulVec]
    simp
  · exact .of_forall fun q => by ring

/-! ### Steps that solve damped equations -/

section Damped

variable {J : Mat ℝ N m} {g y : Vec ℝ m} {a ε : ℝ}

/-- The step is at most as long as the damping allows. -/
theorem mul_norm_le_of_damped
    (hy : ‖(J.gram + a * (Mat.identity : Mat ℝ m m)) * y - g‖ ≤ ε) : a * ‖y‖ ≤ ‖g‖ + ε := by
  by_cases hzero : y = 0
  · rw [hzero, norm_zero, mul_zero]
    exact add_nonneg (norm_nonneg _) ((norm_nonneg _).trans hy)
  · set b := (J.gram + a * (Mat.identity : Mat ℝ m m)) * y with hb
    have himage : ‖b‖ ≤ ‖g‖ + ε := by
      have htriangle := norm_sub_norm_le b g
      linarith
    -- the damping is a lower bound on the form of the damped matrix
    have hform : a * ‖y‖ ^ 2 ≤ ‖y‖ * ‖b‖ := by
      refine le_trans ?_ (real_inner_le_norm y b)
      rw [hb, Mat.inner_gram_add_mulVec]
      exact le_add_of_nonneg_left (sq_nonneg _)
    have hpos := norm_pos_iff.mpr hzero
    refine le_of_mul_le_mul_left ?_ hpos
    calc ‖y‖ * (a * ‖y‖) = a * ‖y‖ ^ 2 := by ring
      _ ≤ ‖y‖ * ‖b‖ := hform
      _ ≤ ‖y‖ * (‖g‖ + ε) := mul_le_mul_of_nonneg_left himage hpos.le

/-- A short step is not zero and stays within a fixed angle of the right-hand side, if this is
longer than the tolerance. -/
theorem exists_angle_of_damped (J : Mat ℝ N m) (hε : 0 ≤ ε) (hg : ε < ‖g‖) :
    ∃ c > 0, ∃ δ > 0, ∀ a : ℝ, 0 < a → ∀ y : Vec ℝ m,
      ‖(J.gram + a * (Mat.identity : Mat ℝ m m)) * y - g‖ ≤ ε → ‖y‖ < δ →
        y ≠ 0 ∧ c * ‖y‖ ≤ ⟪g, y⟫_ℝ := by
  set L := J.toLin.toContinuousLinearMap with hL
  set gap := ‖g‖ - ε with hgap
  have hgap_pos : 0 < gap := sub_pos.mpr hg
  have hg_pos : 0 < ‖g‖ := hε.trans_lt hg
  have hsum_pos : 0 < ‖g‖ + ε := add_pos_of_pos_of_nonneg hg_pos hε
  refine ⟨‖g‖ * (gap / 2) / (‖g‖ + ε), by positivity, gap / 2 / (‖L‖ ^ 2 + 1), by positivity,
    fun a ha y hy hshort => ?_⟩
  -- what `JᵀJ` makes of a short step is small
  have hcross : ⟪g, J.transposeMulVec (J * y)⟫_ℝ ≤ ‖g‖ * (gap / 2) := by
    rw [real_inner_comm, Mat.inner_transposeMulVec]
    have hbound : ∀ v : Vec ℝ m, ‖J * v‖ ≤ ‖L‖ * ‖v‖ := L.le_opNorm
    have hsmall : (‖L‖ ^ 2 + 1) * ‖y‖ ≤ gap / 2 := by
      rw [lt_div_iff₀' (by positivity)] at hshort
      exact hshort.le
    calc ⟪J * y, J * g⟫_ℝ ≤ ‖J * y‖ * ‖J * g‖ := real_inner_le_norm _ _
      _ ≤ ‖L‖ * ‖y‖ * (‖L‖ * ‖g‖) := by gcongr <;> exact hbound _
      _ = ‖g‖ * (‖L‖ ^ 2 * ‖y‖) := by ring
      _ ≤ ‖g‖ * (gap / 2) := by
        gcongr
        linarith [norm_nonneg y]
  -- so the damped part of the step makes up for the right-hand side, up to the tolerance
  have halign : ‖g‖ * (gap / 2) ≤ a * ⟪g, y⟫_ℝ := by
    set e := (J.gram + a * (Mat.identity : Mat ℝ m m)) * y - g with he
    have hequation : a * ⟪g, y⟫_ℝ = ‖g‖ ^ 2 + ⟪g, e⟫_ℝ - ⟪g, J.transposeMulVec (J * y)⟫_ℝ := by
      rw [he, Mat.gram_add_mulVec, inner_sub_right, inner_add_right, real_inner_smul_right,
        real_inner_self_eq_norm_sq]
      ring
    have herror : -(‖g‖ * ε) ≤ ⟪g, e⟫_ℝ := by
      refine neg_le_of_abs_le ((abs_real_inner_le_norm g e).trans ?_)
      gcongr
    have hsquare : ‖g‖ * gap = ‖g‖ ^ 2 - ‖g‖ * ε := by
      rw [hgap]
      ring
    linarith
  -- the step is not zero, and the bound of its length gives the angle
  constructor
  · rintro rfl
    rw [inner_zero_right, mul_zero] at halign
    exact halign.not_gt (by positivity)
  · refine le_of_mul_le_mul_left ?_ ha
    calc a * (‖g‖ * (gap / 2) / (‖g‖ + ε) * ‖y‖)
        = ‖g‖ * (gap / 2) / (‖g‖ + ε) * (a * ‖y‖) := by ring
      _ ≤ ‖g‖ * (gap / 2) / (‖g‖ + ε) * (‖g‖ + ε) := by
        gcongr
        exact mul_norm_le_of_damped hy
      _ = ‖g‖ * (gap / 2) := div_mul_cancel₀ _ hsum_pos.ne'
      _ ≤ a * ⟪g, y⟫_ℝ := halign

/-- So it leads downhill, if the damping is large enough. -/
theorem exists_damping {φ : Vec ℝ m → ℝ} {p : Vec ℝ m} (hφ : HasGradientAt φ g p)
    {Q : Vec ℝ m → Prop} (hQ : ∀ᶠ q in 𝓝 p, Q q) (J : Mat ℝ N m) (hε : 0 ≤ ε) (hg : ε < ‖g‖) :
    ∃ bound : ℝ, ∀ a, bound < a → ∀ y : Vec ℝ m,
      ‖(J.gram + a * (Mat.identity : Mat ℝ m m)) * y - g‖ ≤ ε →
        φ (p + -y) < φ p ∧ Q (p + -y) := by
  obtain ⟨c, hc, δ, hδ, hangle⟩ := exists_angle_of_damped J hε hg
  have htrial : Tendsto (fun y : Vec ℝ m => p + -y) (𝓝 0) (𝓝 p) := by
    have hcont : Continuous fun y : Vec ℝ m => p + -y := by fun_prop
    have htendsto := hcont.tendsto 0
    rwa [neg_zero, add_zero] at htendsto
  obtain ⟨δ', hδ', hnear⟩ := Metric.eventually_nhds_iff.mp
    ((eventually_lt_of_hasGradientAt hφ hc).and (htrial.eventually hQ))
  have hmin : 0 < min δ δ' := lt_min hδ hδ'
  have hsum : 0 < ‖g‖ + ε := add_pos_of_pos_of_nonneg (hε.trans_lt hg) hε
  refine ⟨(‖g‖ + ε) / min δ δ', fun a ha y hy => ?_⟩
  have ha' : 0 < a := (div_pos hsum hmin).trans ha
  -- the damping makes the step as short as both bounds ask
  have hshort : ‖y‖ < min δ δ' := by
    rw [div_lt_iff₀ hmin] at ha
    exact lt_of_mul_lt_mul_left ((mul_norm_le_of_damped hy).trans_lt ha) ha'.le
  obtain ⟨hne, hle⟩ := hangle a ha' y hy (hshort.trans_le (min_le_left _ _))
  obtain ⟨hless, hnearby⟩ := hnear (show dist y 0 < δ' by
    rw [dist_zero_right]
    exact hshort.trans_le (min_le_right _ _))
  exact ⟨hless hne hle, hnearby⟩

end Damped

/-! ### Models that are differentiable at some parameters -/

/-- At the parameters `p` the model is differentiable: close to `p` it computes the residuals of a
map `r` with the derivative `J`, as far as it succeeds, and `J` is the Jacobian that it computes at
`p`. -/
structure ResidualModel.HasJacobianAt (model : ResidualModel σ ℝ m) (r : Vec ℝ m → Vec ℝ N)
    (J : Mat ℝ N m) (p : Vec ℝ m) : Prop where
  /-- The residuals are those of `r`. -/
  residual : ∀ᶠ q in 𝓝 p, ∀ v, (model.residual q).Yields v → v = (r q).toArray
  /-- The Jacobian at `p` is `J`. -/
  jacobian : ∀ A, (model.jacobian p).Yields A → A = ⟨N, m, J⟩
  /-- It is the derivative of `r`. -/
  hasFDerivAt : HasFDerivAt r J.toLin.toContinuousLinearMap p

namespace ResidualModel

theorem applyEach_toList (terms : Vector (Polynomial ℝ) m) (p : Vec ℝ m) :
    applyEach terms.toList p = .ok (Separable.apply terms p) := by
  have hofFn : Separable.apply terms p = Vector.ofFn (Separable.apply terms p).entry := by
    ext i hi
    rw [Vector.getElem_ofFn]
    rfl
  unfold applyEach
  rw [hofFn, ← Vec.tabulateM_ok]
  congr 1
  funext i
  have hterm : terms.toList[i.val]? = some (terms.get i) := by
    rw [List.getElem?_eq_getElem (by simp)]
    rfl
  rw [hterm, Separable.entry_apply]

/-- Polynomial residuals are differentiable everywhere. -/
theorem polynomial_hasJacobianAt (terms : Vector (Polynomial ℝ) m) (p : Vec ℝ m) :
    (polynomial terms.toList m : ResidualModel σ ℝ m).HasJacobianAt (Separable.apply terms)
      (.diagonal (Separable.apply (terms.map .derivative) p)) p where
  residual := by
    refine .of_forall fun q v hv => ?_
    obtain ⟨r, hr, h⟩ := Run.exists_of_yields_bind hv
    replace hr := Run.ok_of_yields_liftM hr
    rw [applyEach_toList] at hr
    cases hr
    exact Run.eq_of_yields_pure h
  jacobian A hA := by
    obtain ⟨d, hd, h⟩ := Run.exists_of_yields_bind hA
    replace hd := Run.ok_of_yields_liftM hd
    rw [← Vector.toList_map, applyEach_toList] at hd
    cases hd
    exact Run.eq_of_yields_pure h
  hasFDerivAt := Separable.hasFDerivAt_apply terms p

end ResidualModel

namespace LevenbergMarquardt

variable {config : Config ℝ} {model : ResidualModel σ ℝ m} {r : Vec ℝ m → Vec ℝ N}
  {J : Mat ℝ N m} {p q x : Vec ℝ m} {s t : State ℝ m} {j k : Nat}

/-! ### Trials at one point -/

/-- The stage knows the residuals, the Jacobian and the value at `p`. -/
structure State.At (r : Vec ℝ m → Vec ℝ N) (J : Mat ℝ N m) (p : Vec ℝ m) (s : State ℝ m) :
    Prop where
  point_eq : s.point = p
  model_eq : s.model = ⟨N, m, r p, J⟩
  value_eq : s.value = halfNormSq (r p).toArray

/-- A stage at `p` knows what the model says there. -/
theorem State.Faithful.at (hJ : model.HasJacobianAt r J p) (h : s.Faithful model x k)
    (hpoint : s.point = p) : s.At r J p := by
  subst hpoint
  have hresidual := hJ.residual.self_of_nhds
  obtain ⟨residual, jacobian, hyields, hyields', hmake⟩ := h.model_at
  obtain ⟨_, -, hrecorded⟩ := h.recorded
  rw [hresidual _ hyields, hJ.jacobian _ hyields', Linearization.make_toArray] at hmake
  obtain ⟨residual', hyields'', hvalue⟩ := Run.exists_of_yields_bind hrecorded.value_at
  rw [hresidual _ hyields''] at hvalue
  exact ⟨rfl, (Except.ok.inj hmake).symm, Run.eq_of_yields_pure hvalue⟩

/-- A trial takes a step that solves the damped normal equations within the tolerance. -/
theorem exists_step_of_yields_trialPoint {residual : Vec ℝ N}
    (hmodel : s.model = ⟨N, m, residual, J⟩) (h : (trialPoint config s : Run σ ℝ _).Yields q) :
    ∃ y, q = s.point + -y ∧
      ‖(J.gram + s.damping * (Mat.identity : Mat ℝ m m)) * y - J.transposeMulVec residual‖ ≤
        config.innerTolerance := by
  obtain ⟨point, _, _, damping⟩ := s
  dsimp only at hmodel
  subst hmodel
  obtain ⟨A, hA, h⟩ := Run.exists_of_yields_bind h
  replace hA := Run.ok_of_yields_liftM hA
  rw [Linearization.normalMatrix_eq] at hA
  cases hA
  obtain ⟨solution, hsolution, h⟩ := Run.exists_of_yields_bind h
  obtain ⟨y, hy, h⟩ := Run.exists_of_yields_bind h
  replace hy := Run.ok_of_yields_liftM hy
  rw [Vec.fit_self] at hy
  cases hy
  -- a solve that succeeds leaves a residual within its tolerance
  obtain ⟨A', hA', hcertified⟩ := ConjugateGradient.certified_of_yields_solve hsolution
  rw [Mat.ofOrder_self] at hA'
  cases hA'
  exact ⟨_, Run.eq_of_yields_pure h, hcertified.residualNorm_eq.symm.trans_le hcertified.within⟩

/-- Above the bound, every step that solves the damped equations leads close by and downhill. -/
def Descends (config : Config ℝ) (model : ResidualModel σ ℝ m) (r : Vec ℝ m → Vec ℝ N)
    (J : Mat ℝ N m) (p : Vec ℝ m) (bound : ℝ) : Prop :=
  ∀ a, bound < a → ∀ y : Vec ℝ m,
    ‖(J.gram + a * (Mat.identity : Mat ℝ m m)) * y - J.transposeMulVec (r p)‖ ≤
        config.innerTolerance →
      halfNormSq (r (p + -y)).toArray < halfNormSq (r p).toArray ∧
        ∀ v, (model.residual (p + -y)).Yields v → v = (r (p + -y)).toArray

/-- Where the gradient is not too small, there is such a bound. -/
theorem exists_descends (hJ : model.HasJacobianAt r J p) (hinner : 0 ≤ config.innerTolerance)
    (habove : config.innerTolerance < ‖J.transposeMulVec (r p)‖) :
    ∃ bound, Descends config model r J p bound := by
  obtain ⟨bound, hbound⟩ := exists_damping (hasGradientAt_half_normSq hJ.hasFDerivAt) hJ.residual J
    hinner habove
  refine ⟨bound, fun a ha y hy => ?_⟩
  rw [halfNormSq_toArray, halfNormSq_toArray]
  exact hbound a ha y hy

/-! ### Trials that are rejected one after the other -/

section Rejected

variable {bound : ℝ}

/-- Above the bound a trial is not rejected. -/
theorem State.At.rejected_eq (hs : s.At r J p) (hbound : Descends config model r J p bound)
    (hlarge : bound < s.damping) (h : (step config model s).Yields t) :
    t.rejected = s.rejected := by
  obtain ⟨q, residual, hq, hresidual, ⟨-, _, _, _, _, rfl⟩ | ⟨hnot, -⟩⟩ := step_cases h
  · rfl
  · obtain ⟨y, rfl, hy⟩ := exists_step_of_yields_trialPoint hs.model_eq hq
    obtain ⟨hless, hvalue⟩ := hbound _ hlarge y hy
    rw [hs.point_eq] at hresidual
    rw [hvalue _ hresidual, hs.value_eq] at hnot
    exact absurd hless hnot

theorem State.At.reject (hs : s.At r J p) : (s.reject config).At r J p :=
  ⟨hs.point_eq, hs.model_eq, hs.value_eq⟩

theorem Config.one_lt_dampingGrowth (hvalid : config.validate = .ok ()) :
    1 < config.dampingGrowth := by
  unfold Config.validate at hvalid
  split_ifs at hvalid with _ _ hgrowth
  exact not_le.mp hgrowth

variable (hvalid : config.validate = .ok ())

include hvalid

/-- The damping is never below the initial one. -/
theorem initialDamping_le_of_holds (h : (routine config model x).Holds k s) :
    config.initialDamping ≤ s.damping := by
  have hdamping := (Config.pos_of_validate hvalid).2.1
  have hgrowth := Config.one_lt_dampingGrowth hvalid
  -- each trial resets the damping or lets it grow
  refine h.invariant (I := fun _ s => config.initialDamping ≤ s.damping) ?_ ?_
  · intro s hs
    obtain ⟨_, _, _, _, _, _, rfl⟩ := start_cases (start_of_yields_routine hs).2
    exact le_rfl
  · intro k s t _ hs _ hstep
    obtain ⟨_, _, _, _, ⟨_, _, _, _, _, rfl⟩ | ⟨_, rfl⟩⟩ := step_cases hstep
    · exact le_rfl
    · exact hs.trans (le_mul_of_one_le_right (hdamping.le.trans hs) hgrowth.le)

/-- Trials from a stage at `p` that are all rejected are no more than it takes for the damping to
grow beyond the bound. -/
theorem State.At.le_of_rejected (hs : s.At r J p) (hbound : Descends config model r J p bound)
    (hdamping : config.initialDamping ≤ s.damping) {most : Nat}
    (hmost : bound < config.initialDamping * config.dampingGrowth ^ most)
    (h : (loop config model).Reaches s k t) (hrejected : t.rejected = s.rejected + k) :
    k ≤ most := by
  have hgrowth := zero_lt_one.trans (Config.one_lt_dampingGrowth hvalid)
  -- as long as every trial was rejected, the stage is at `p` and its damping has grown each time
  refine ((h.invariant (I := fun i u => u.rejected ≤ s.rejected + i ∧
    (u.rejected = s.rejected + i → u.At r J p ∧
      config.initialDamping * config.dampingGrowth ^ i ≤ u.damping ∧ i ≤ most)) ?_ ?_).2
    hrejected).2.2
  · rintro i u w ⟨hle, hu⟩ - hstep
    have haccepted := fun (hat : u.At r J p) (hlarge : bound < u.damping) =>
      hat.rejected_eq hbound hlarge hstep
    obtain ⟨_, _, _, _, ⟨_, _, _, _, _, rfl⟩ | ⟨_, rfl⟩⟩ := step_cases hstep
    · exact ⟨hle.trans (Nat.le_succ _), fun h => absurd h (Nat.lt_succ_of_le hle).ne⟩
    · refine ⟨Nat.succ_le_succ hle, fun h => ?_⟩
      obtain ⟨hat, hgrown, hi⟩ := hu (Nat.succ.inj h)
      refine ⟨hat.reject, ?_, Nat.lt_of_le_of_ne hi ?_⟩
      · show _ ≤ u.damping * config.dampingGrowth
        rw [pow_succ, ← mul_assoc]
        exact mul_le_mul_of_nonneg_right hgrown hgrowth.le
      · rintro rfl
        exact absurd (haccepted hat (hmost.trans_le hgrown)) (Nat.succ_ne_self _)
  · refine ⟨le_rfl, fun _ => ⟨hs, ?_, Nat.zero_le _⟩⟩
    rwa [pow_zero, mul_one]

end Rejected

/-- **Bounded rejections**: at parameters where the model is differentiable and the gradient is above
the tolerance, with valid settings whose linear solves are more precise than the tolerance. There is
a bound above which all dampings lead downhill, whichever step is within the tolerance of the damped
normal equations; and from every stage of every fit that gets to these parameters, no more than a
fixed number of trials is rejected one after the other. -/
theorem rejections_bounded (hvalid : config.validate = .ok ())
    (hinner : config.innerTolerance < config.tolerance) (hJ : model.HasJacobianAt r J p)
    (habove : config.tolerance < ‖J.transposeMulVec (r p)‖) :
    (∃ bound : ℝ, ∀ a, bound < a → ∀ y : Vec ℝ m,
      ‖(J.gram + a * (Mat.identity : Mat ℝ m m)) * y - J.transposeMulVec (r p)‖ ≤
          config.innerTolerance →
        halfNormSq (r (p + -y)).toArray < halfNormSq (r p).toArray ∧
          ∀ v, (model.residual (p + -y)).Yields v → v = (r (p + -y)).toArray) ∧
    ∃ most, ∀ x j s, (routine config model x).Holds j s → s.point = p →
      ∀ k t, (loop config model).Reaches s k t → t.rejected = s.rejected + k → k ≤ most := by
  obtain ⟨-, hdamping, htolerance⟩ := Config.pos_of_validate hvalid
  obtain ⟨bound, hbound⟩ := exists_descends hJ htolerance.le (hinner.trans habove)
  obtain ⟨most, hmost⟩ := pow_unbounded_of_one_lt (bound / config.initialDamping)
    (Config.one_lt_dampingGrowth hvalid)
  rw [div_lt_iff₀' hdamping] at hmost
  refine ⟨⟨bound, hbound⟩, most, fun x j s hs hpoint k t ht hrejected => ?_⟩
  exact ((faithful_of_holds hs).at hJ hpoint).le_of_rejected hvalid hbound
    (initialDamping_le_of_holds hvalid hs) hmost ht hrejected

/-- The residual `p ^ 2` at one, where the gradient is two, with the standard settings. -/
theorem rejections_bounded_square :
    ∃ most, ∀ x j s,
      (routine {} (.polynomial [[0, 0, 1]] 1 : ResidualModel Unit ℝ 1) x).Holds j s →
      s.point = #v[1] → ∀ k t,
        (loop {} (.polynomial [[0, 0, 1]] 1 : ResidualModel Unit ℝ 1)).Reaches s k t →
          t.rejected = s.rejected + k → k ≤ most := by
  have hvalid : ({} : Config ℝ).validate = .ok () := by
    norm_num [Config.validate, Scalar.solveTolerance]
  have hinner : ({} : Config ℝ).innerTolerance < ({} : Config ℝ).tolerance := by
    show (1e-6 : ℝ) < 1e-4
    norm_num
  have hderivative : Separable.apply (#v[[0, 0, 1]].map .derivative) (#v[1] : Vec ℝ 1) = #v[2] := by
    rw [Vec.eq_singleton (Separable.apply _ _)]
    simp [Separable.apply, Polynomial.eval, Polynomial.derivative, Polynomial.scaleFrom]
    norm_num
  have hresidual : Separable.apply #v[[0, 0, 1]] (#v[1] : Vec ℝ 1) = #v[1] := by
    rw [Vec.eq_singleton (Separable.apply _ _)]
    simp [Separable.apply, Polynomial.eval]
  have hgradient : (Mat.diagonal #v[2]).transposeMulVec (#v[1] : Vec ℝ 1) = #v[2] := by
    rw [Vec.eq_singleton (Mat.transposeMulVec _ _), Mat.getElem_transposeMulVec]
    simp [Mat.entry_diagonal]
  refine (rejections_bounded hvalid hinner
    (ResidualModel.polynomial_hasJacobianAt #v[[0, 0, 1]] #v[1]) ?_).2
  rw [hderivative, hresidual, hgradient, Vec.norm_singleton]
  show (1e-4 : ℝ) < |2|
  norm_num

end LevenbergMarquardt

end Downhill
