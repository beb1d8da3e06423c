import Downhill.Proofs.Exact.Quadratic
import Downhill.Proofs.Method.InnerLoop
import Downhill.Proofs.Projection.Nearest

/-!
# Descent in projected inexact Newton runs

* `minimize_descends`: in exact arithmetic, for a deterministic objective with linear and symmetric
  Hessians, over every box and every ball: at each stage of a run above the tolerance the inner loop
  makes at most `n` steps, a cap of at least `n` suffices for it, and the direction that it leads to
  is one of descent. So no run is refused by the line search for its direction.

All stages are `State.Consistent` with the objective and the projection. In particular the gradient
is at least as long as the stationarity, so it is not zero above the tolerance. The inner loop moves
downhill from there, unless it ends before its first step; then steepest descent takes its place.
-/

namespace Downhill.ProjectedNewton

open scoped InnerProductSpace

variable {σ : Type} {n : Nat} {config : Config ℝ} {f : Objective σ ℝ n} {P : Projection ℝ n}
  {F : Vec ℝ n → ℝ} {G π : Vec ℝ n → Vec ℝ n} {H : Vec ℝ n → Vec ℝ n →ₗ[ℝ] Vec ℝ n}
  {x : Vec ℝ n} {s s' : State ℝ n}

/-! ### Consistent stages -/

/-- The point of the stage is feasible, and its gradient and its stationarity are those there. -/
structure State.Consistent (π G : Vec ℝ n → Vec ℝ n) (s : State ℝ n) : Prop where
  feasible : π s.point = s.point
  gradient_eq : s.gradient = G s.point
  stationarity_eq : s.stationarity = ‖s.point - π (s.point - s.gradient)‖

theorem stationarity_eq_ok (hP : P.Nearest π) (y g : Vec ℝ n) :
    stationarity P y g = .ok ‖y - π (y - g)‖ := by
  unfold stationarity
  rw [hP.gradientStep_eq]
  rfl

theorem Reached.consistent (hP : P.Nearest π) (hf : f.Evaluates F G)
    (hs : Reached config f P x s) : s.Consistent π G := by
  induction hs with
  | start _ h =>
    obtain ⟨point, value, gradient, stat, hpoint, _, hgradient, hstat, rfl⟩ := start_cases h
    rw [hP.project] at hpoint
    rw [stationarity_eq_ok hP] at hstat
    cases hpoint
    cases hstat
    exact ⟨hP.idem x, (hf.gradient _).eq_of_yields hgradient, rfl⟩
  | step _ _ h _ =>
    obtain ⟨v, steps, found, gradient, stat, _, hfound, hgradient, hstat, rfl⟩ := step_cases h
    obtain ⟨⟨y, hy⟩, _⟩ := ProjectedBacktracking.evaluated_of_yields_search hfound
    rw [hP.project] at hy
    rw [stationarity_eq_ok hP] at hstat
    cases hstat
    refine ⟨?_, (hf.gradient _).eq_of_yields hgradient, rfl⟩
    show π found.point = found.point
    rw [← Except.ok.inj hy, hP.idem]

/-- Where the gradient vanishes the projected step does not move, so that the run ends there. -/
theorem State.Consistent.gradient_ne_zero (hs : s.Consistent π G) (hpos : 0 < s.stationarity) :
    s.gradient ≠ 0 := by
  intro hzero
  rw [hs.stationarity_eq, hzero, sub_zero, hs.feasible, sub_self, norm_zero] at hpos
  exact lt_irrefl _ hpos

/-! ### The direction -/

theorem agree_self (y : Vec ℝ n) (absolute relative : ℝ) : y.agree absolute relative y = true := by
  unfold Vec.agree
  simp [Scalar.agree]

/-- The direction to the point of an exact stage is one of descent. -/
theorem slope_direction_neg {R : Vec ℝ n →ₗ[ℝ] Vec ℝ n} {last : Inner ℝ n} (hg : s.gradient ≠ 0)
    (hlast : last.Exact R s.point s.gradient) : s.gradient.dot (direction s last.point) < 0 := by
  unfold direction
  split_ifs with hagree
  · rw [← Vec.inner_eq_dot, inner_neg_right]
    exact neg_lt_zero.mpr (real_inner_self_pos.mpr hg)
  · -- a loop without a step would have ended at the point itself
    refine hlast.downhill fun hzero => hagree ?_
    rw [hlast.point_eq hzero]
    exact agree_self _ _ _

/-! ### One stage -/

theorem validate_tolerance_pos (h : config.validate = .ok ()) : 0 < config.tolerance :=
  not_le.mp (Config.not_le_of_validate h)

theorem forcing_nonneg (hpos : 0 ≤ s.stationarity) : 0 ≤ (innerProblem config f P s).forcing := by
  show 0 ≤ Scalar.min Scalar.half s.stationarity * s.stationarity
  rw [Scalar.min_real, Scalar.half_real]
  exact mul_nonneg (le_min one_half_pos.le hpos) hpos

section Stage

variable (hP : P.Nearest π) (hf : f.Evaluates F G)
  (hH : ∀ y v, (f.hessianProduct y v).Computes (H y v)) (hsymm : ∀ y, (H y).IsSymmetric)
  (hs : Reached config f P x s) (habove : config.tolerance < s.stationarity)

include hP hf hH hsymm hs habove

/-- The inner loop at a stage applies a symmetric map, makes at most `n` steps and leads
downhill. -/
theorem Reached.exists_applies :
    ∃ R : Vec ℝ n →ₗ[ℝ] Vec ℝ n, R.IsSymmetric ∧ (innerProblem config f P s).Applies R ∧
      ∀ last steps,
        Truncates R config.tolerance (innerProblem config f P s).forcing (innerStart s) last steps →
        steps ≤ n ∧ s.gradient.dot (direction s last.point) < 0 := by
  obtain ⟨is, his⟩ := hP.active s.point
  have htol := validate_tolerance_pos hs.validate
  have hpos := htol.trans habove
  -- the reduced Hessian is symmetric whatever the active coordinates are
  have hR : (reduced (H s.point) is).IsSymmetric := reduced_isSymmetric (hsymm s.point)
  refine ⟨_, hR, computes_reducedHessian his (hH s.point), fun last steps hlast => ?_⟩
  -- at the first stage the residual is the negative gradient and no step has been made
  have hstart : (innerStart s).Exact (reduced (H s.point) is) s.point s.gradient := .start _ _ _
  exact ⟨hlast.steps_le hR htol.le (forcing_nonneg hpos.le) hstart,
    slope_direction_neg ((hs.consistent hP hf).gradient_ne_zero hpos)
      (hlast.exact hR htol.le (forcing_nonneg hpos.le) hstart)⟩

/-- Whatever its cap, the inner loop makes at most `n` steps and leads downhill. -/
theorem Reached.descends {cap steps : Nat} {v : Vec ℝ n}
    (h : (innerIterate (innerProblem config f P s) cap (innerStart s)).Yields (v, steps)) :
    steps ≤ n ∧ s.gradient.dot (direction s v) < 0 := by
  obtain ⟨R, _, happlies, hends⟩ := hs.exists_applies hP hf hH hsymm habove
  obtain ⟨last, hlast, rfl⟩ := truncates_of_yields happlies h
  exact hends last steps hlast

/-- A cap of at least `n` suffices for the inner loop. -/
theorem Reached.exists_computes_inner {cap : Nat} (hcap : n ≤ cap) :
    ∃ v steps,
      (innerIterate (innerProblem config f P s) cap (innerStart s)).Computes (v, steps) := by
  obtain ⟨R, hR, happlies, hends⟩ := hs.exists_applies hP hf hH hsymm habove
  have htol := validate_tolerance_pos hs.validate
  have hforcing : 0 ≤ (innerProblem config f P s).forcing :=
    forcing_nonneg (htol.trans habove).le
  have hstart : (innerStart s).Exact R s.point s.gradient := .start _ _ _
  obtain ⟨last, steps, hlast⟩ := exists_truncates hR htol.le hforcing hstart (Nat.le_add_left n _)
  refine ⟨last.point, steps, hlast.computes happlies rfl rfl ?_⟩
  have hle := (hends last steps hlast).1
  show steps ≤ 0 + cap
  omega

/-- An iteration can only fail with the cap of its inner loop, its settings or its search. -/
theorem Reached.fails_step {e : Failure ℝ} (h : (ProjectedNewton.step config f P s).Fails e) :
    (inner config f P s).Fails e ∧
        (∃ stopping, e = .capReached (config.innerCap n) (some s.value) (some stopping)
          (innerProblem config f P s).forcing) ∨
      config.search.validateBacktracking = .error e ∨
      ∃ cause iterations t value, e = .searchFailed cause iterations t value := by
  -- the projection is onto a box or ball of the right dimension and never fails
  have hproject : ∀ y e', P.project y ≠ .error e' := by
    intro y e' hy
    rw [hP.project] at hy
    cases hy
  -- inner loop, line search, gradient at the new point, stopping functional
  rcases ProjectedNewton.fails_step h with h | ⟨v, steps, hv, h⟩ | h | ⟨y, g, h⟩
  · obtain ⟨R, _, happlies, _⟩ := hs.exists_applies hP hf hH hsymm habove
    rcases fails_innerIterate h with hcap | ⟨d, hd⟩
    · exact .inl ⟨h, hcap⟩
    · exact absurd hd (happlies d).not_fails
  · rcases ProjectedBacktracking.search_fails h with
      (⟨y, hy⟩ | h) | ⟨feasible, gradient, hfeasible, hgradient, hslope⟩ | h | h
    · exact absurd hy (hproject y e)
    · exact absurd h (hf.not_canFail e)
    · -- the search finds the point and the gradient of the stage, so the slope is negative
      have hconsistent := hs.consistent hP hf
      have heq : feasible = s.point := by
        rw [hP.project, hconsistent.feasible] at hfeasible
        exact (Except.ok.inj hfeasible).symm
      rw [(hf.gradient _).eq_of_yields hgradient, heq, ← hconsistent.gradient_eq] at hslope
      have hneg := (hs.descends hP hf hH hsymm habove hv).2
      rcases hslope with hslope | ⟨slope, hslope, hascent, rfl⟩
      -- the slope is a product of vectors of one length, so the search can compute it
      · rw [slope_eq_dot] at hslope
        cases hslope
      · rw [slope_eq_dot] at hslope
        cases hslope
        exact absurd hneg (not_lt.mpr hascent)
    · exact .inr (.inl h)
    · exact .inr (.inr h)
  · exact absurd h (hf.not_canFail e)
  · rw [stationarity_eq_ok hP] at h
    cases h

end Stage

/-! ### The runs -/

theorem Config.le_innerCap (hcap : ∀ cap ∈ config.maxInnerIterations, n ≤ cap) :
    n ≤ config.innerCap n := by
  unfold Config.innerCap
  cases h : config.maxInnerIterations with
  | none =>
    show n ≤ 10 * n
    omega
  | some cap => exact hcap cap h

theorem validate_eq_error {e : Failure ℝ} (h : config.validate = .error e) :
    ∃ setting value, e = .invalidSetting setting value := by
  unfold Config.validate SearchParams.validateBacktracking SearchParams.validateCap at h
  split_ifs at h <;> cases h <;> exact ⟨_, _, rfl⟩

theorem fails_start_of_nearest (hP : P.Nearest π) (hf : f.Evaluates F G) {e : Failure ℝ} :
    ¬ (start f P x).Fails e := by
  intro h
  rcases fails_start h with ⟨y, hy⟩ | h | ⟨y, g, h⟩
  · rw [hP.project] at hy
    cases hy
  · exact hf.not_canFail e h
  · rw [stationarity_eq_ok hP] at h
    cases h

/-- A run fails because of its settings, with its own cap, with the cap of an inner loop, or with a
line search that found no step. -/
theorem fails_minimize_of_nearest (hP : P.Nearest π) (hf : f.Evaluates F G)
    (hH : ∀ y v, (f.hessianProduct y v).Computes (H y v)) (hsymm : ∀ y, (H y).IsSymmetric)
    {e : Failure ℝ} (h : (minimize config f P x).Fails e) :
    (∃ setting value, e = .invalidSetting setting value) ∨
      (∃ value stopping, e = .capReached config.maxIterations value stopping config.tolerance) ∨
      (∃ s value stopping tolerance, Reached config f P x s ∧ config.tolerance < s.stationarity ∧
        (inner config f P s).Fails e ∧
        e = .capReached (config.innerCap n) value stopping tolerance) ∨
      ∃ cause iterations t value, e = .searchFailed cause iterations t value := by
  rcases fails_minimize h with h | h | ⟨s, hs, habove, h | h⟩
  · exact .inl (validate_eq_error h)
  · exact absurd h (fails_start_of_nearest hP hf)
  · exact .inr (.inl ⟨_, _, h⟩)
  · rcases hs.fails_step hP hf hH hsymm habove h with ⟨hinner, _, rfl⟩ | h | h
    · exact .inr (.inr (.inl ⟨s, _, _, _, hs, habove, hinner, rfl⟩))
    -- the settings of the search were checked with those of the run
    · rw [Config.validateBacktracking_of_validate hs.validate] at h
      cases h
    · exact .inr (.inr (.inr h))

section Error

variable {e₁ e₂ : Extent} (hP : ∀ y, P.project y = .error (.dimension e₁ e₂))

include hP

/-- A run does not get past its start if the start cannot be projected. -/
theorem not_reached_of_error : ¬ Reached config f P x s := by
  intro hs
  induction hs with
  | start _ h =>
    -- the start begins with a projection
    obtain ⟨point, _, _, _, hpoint, _⟩ := start_cases h
    rw [hP] at hpoint
    cases hpoint
  | step _ _ _ ih => exact ih

/-- With a projection that refuses every point a run fails for its settings or the dimension. -/
theorem fails_minimize_of_error (hf : f.Evaluates F G) {e : Failure ℝ}
    (h : (minimize config f P x).Fails e) :
    (∃ setting value, e = .invalidSetting setting value) ∨ e = .dimension e₁ e₂ := by
  rcases fails_minimize h with h | h | ⟨s, hs, _⟩
  · exact .inl (validate_eq_error h)
  · rcases fails_start h with ⟨y, hy⟩ | h | ⟨y, g, h⟩
    · rw [hP] at hy
      exact .inr (Except.error.inj hy).symm
    · exact absurd h (hf.not_canFail e)
    · unfold stationarity Projection.gradientStep at h
      rw [hP] at h
      exact .inr (Except.error.inj h).symm
  · exact absurd hs (not_reached_of_error hP)

end Error

/-- **Descent**: for a deterministic objective with linear and symmetric Hessians `H`, over a box or
a ball,

* at each stage above the tolerance the inner loop, whatever its cap, makes at most `n` steps and
  leads to a direction of descent, and a cap of at least `n` suffices for it to end;
* no run fails because its direction does not descend;
* if the cap on inner steps is the default or at least `n`, the inner loop of each iteration ends,
  and where a run fails with a cap it is its own cap on iterations. -/
theorem minimize_descends (hP : P.IsBoxOrBall) (hf : f.Evaluates F G)
    (hH : ∀ y v, (f.hessianProduct y v).Computes (H y v)) (hsymm : ∀ y, (H y).IsSymmetric)
    (config : Config ℝ) (x : Vec ℝ n) :
    (∀ s, Reached config f P x s → config.tolerance < s.stationarity →
      (∀ cap v steps,
        (innerIterate (innerProblem config f P s) cap (innerStart s)).Yields (v, steps) →
        steps ≤ n ∧ (G s.point).dot (direction s v) < 0) ∧
      ∀ cap, n ≤ cap → ∃ v steps,
        (innerIterate (innerProblem config f P s) cap (innerStart s)).Computes (v, steps)) ∧
    (∀ slope, ¬ (minimize config f P x).Fails (.ascent slope)) ∧
    ((∀ cap ∈ config.maxInnerIterations, n ≤ cap) →
      (∀ s, Reached config f P x s → config.tolerance < s.stationarity →
        ∃ v steps, (inner config f P s).Computes (v, steps)) ∧
      ∀ cap value stopping tolerance,
        (minimize config f P x).Fails (.capReached cap value stopping tolerance) →
        cap = config.maxIterations ∧ tolerance = config.tolerance) := by
  -- a box or a ball of another dimension refuses every point
  rcases hP.nearest_or_error with ⟨π, hP⟩ | ⟨e₁, e₂, hP⟩
  · refine ⟨fun s hs habove => ⟨fun cap v steps h => ?_, fun cap hcap => ?_⟩, fun slope h => ?_,
      fun hcap => ⟨fun s hs habove => ?_, fun cap value stopping tolerance h => ?_⟩⟩
    -- the gradient that the stage keeps is the one at its point
    · rw [← (hs.consistent hP hf).gradient_eq]
      exact hs.descends hP hf hH hsymm habove h
    · exact hs.exists_computes_inner hP hf hH hsymm habove hcap
    · rcases fails_minimize_of_nearest hP hf hH hsymm h with
        ⟨_, _, h⟩ | ⟨_, _, h⟩ | ⟨_, _, _, _, _, _, _, h⟩ | ⟨_, _, _, _, h⟩ <;> cases h
    · exact hs.exists_computes_inner hP hf hH hsymm habove (Config.le_innerCap hcap)
    · rcases fails_minimize_of_nearest hP hf hH hsymm h with
        ⟨_, _, h⟩ | ⟨_, _, h⟩ | ⟨s, _, _, _, hs, habove, hinner, _⟩ | ⟨_, _, _, _, h⟩
      · cases h
      · cases h
        exact ⟨rfl, rfl⟩
      -- the cap of the inner loop is excluded, since that loop ends
      · obtain ⟨v, steps, hends⟩ :=
          hs.exists_computes_inner hP hf hH hsymm habove (Config.le_innerCap hcap)
        exact absurd hinner hends.not_fails
      · cases h
  · refine ⟨fun s hs => absurd hs (not_reached_of_error hP), fun slope h => ?_,
      fun _ => ⟨fun s hs => absurd hs (not_reached_of_error hP), fun _ _ _ _ h => ?_⟩⟩ <;>
    rcases fails_minimize_of_error hP hf h with ⟨_, _, h⟩ | h <;> cases h

/-- The box from `-r` to `r`. -/
noncomputable def interval (r : ℝ) : Box ℝ 1 := ⟨#v[-r], #v[r]⟩

theorem clamp_interval {r t : ℝ} (hlower : -r ≤ t) (hupper : t ≤ r) :
    (interval r).clamp #v[t] = #v[t] := by
  refine Box.clamp_of_mem fun i => ?_
  obtain rfl : i = 0 := Subsingleton.elim _ _
  exact ⟨hlower, hupper⟩

/-- The box from `-10` to `10`. -/
noncomputable def wideBox : Box ℝ 1 := interval 10

theorem clamp_wideBox {t : ℝ} (hlower : -10 ≤ t) (hupper : t ≤ 10) :
    wideBox.clamp #v[t] = #v[t] := clamp_interval hlower hupper

theorem projectedBacktracking_valid :
    (SearchParams.projectedBacktracking : SearchParams ℝ).validateBacktracking = .ok () := by
  norm_num [SearchParams.validateBacktracking, SearchParams.validateCap,
    SearchParams.projectedBacktracking, SearchParams.wolfePowell]

theorem default_validate : Config.validate ({} : Config ℝ) = .ok () := by
  have htol : ¬ (1e-3 : ℝ) ≤ 0 := by norm_num
  unfold Config.validate
  exact (if_neg htol).trans projectedBacktracking_valid

theorem reached_simple :
    Reached {} ((Quadratic.simple 1).objective 1 : Objective Unit ℝ 1) (wideBox.projection 1) #v[1]
      ⟨#v[1], (Quadratic.simple 1).value #v[1], #v[1], 1, 0, ⟨1, 1⟩,
        #[(Quadratic.simple 1).value #v[1]]⟩ := by
  have hproject : (wideBox.projection 1).project #v[1] = .ok #v[1] := by
    rw [wideBox.projection_eq, clamp_wideBox (by norm_num) (by norm_num)]
  have hgradient : (((Quadratic.simple 1).objective 1 : Objective Unit ℝ 1).gradient #v[1]).Computes
      #v[1] := by
    have h := (Quadratic.simple 1).evaluates (σ := Unit) |>.gradient (#v[1] : Vec ℝ 1)
    rwa [Quadratic.simple_gradient] at h
  have hstat : stationarity (wideBox.projection 1) #v[1] #v[1] = .ok 1 := by
    rw [stationarity_eq_ok wideBox.nearest, Vec.singleton_sub, clamp_wideBox (by norm_num)
      (by norm_num), Vec.singleton_sub, Vec.norm_singleton]
    norm_num
  exact .start default_validate
    (computes_start hproject ((Quadratic.simple 1).evaluates.value _) hgradient hstat).yields

/-- Half the squared norm in the box from `-10` to `10`: the start at one is above the tolerance,
and from there the inner loop makes at most one step and leads downhill. -/
theorem minimize_descends_simple :
    (∃ s : State ℝ 1,
      Reached {} ((Quadratic.simple 1).objective 1 : Objective Unit ℝ 1) (wideBox.projection 1)
        #v[1] s ∧ (1e-3 : ℝ) < s.stationarity ∧
      ∃ v steps, (inner {} ((Quadratic.simple 1).objective 1 : Objective Unit ℝ 1)
          (wideBox.projection 1) s).Computes (v, steps) ∧
        steps ≤ 1 ∧ s.point.dot (direction s v) < 0) ∧
    ∀ slope, ¬ (minimize {} ((Quadratic.simple 1).objective 1 : Objective Unit ℝ 1)
      (wideBox.projection 1) #v[1]).Fails (.ascent slope) := by
  obtain ⟨hstages, hrun, hcap⟩ := minimize_descends
    (f := ((Quadratic.simple 1).objective 1 : Objective Unit ℝ 1)) (.box wideBox)
    (Quadratic.simple 1).evaluates (Quadratic.simple 1).computes_hessianProduct
    (fun _ => Quadratic.simple_isSymm.isSymmetric_toLin) {} #v[1]
  have habove : (1e-3 : ℝ) < 1 := by norm_num
  -- without a cap on inner steps there is nothing to check
  have hnone : ∀ cap ∈ Config.maxInnerIterations ({} : Config ℝ), 1 ≤ cap := by
    intro cap h
    cases h
  obtain ⟨v, steps, hinner⟩ := (hcap hnone).1 _ reached_simple habove
  obtain ⟨hsteps, hslope⟩ := (hstages _ reached_simple habove).1 _ _ _ hinner.yields
  rw [Quadratic.simple_gradient] at hslope
  exact ⟨⟨_, reached_simple, habove, v, steps, hinner, hsteps, hslope⟩, hrun⟩

end Downhill.ProjectedNewton
