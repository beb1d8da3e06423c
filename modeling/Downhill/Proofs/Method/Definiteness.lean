import Downhill.Proofs.Exact.Quadratic
import Downhill.Proofs.Method.SecantUpdate
import Downhill.Proofs.Method.QuasiNewton
import Downhill.Proofs.Search.WolfeConditions

/-!
# Definiteness in quasi-Newton descent

* `minimizeFrom_definite`: in exact arithmetic, whatever the objective and the first matrix, a run
  is never refused by the line search for its direction, never resets the matrix because of the
  curvature, and resets it at most once; after a reset, and for a positive definite first matrix
  from the start on, the matrix is positive definite.

All stages of a run are `Definite`: a direction of descent leads to a step with positive curvature
(`curvature_pos`), which makes an update possible that keeps definiteness, and a positive definite
matrix gives a direction of descent (`direction_descends`). A first matrix of another kind is used
as long as its directions happen to descend; the first that does not makes the only reset.
-/

namespace Downhill.QuasiNewton

variable {σ : Type} {n : Nat} {config : Config ℝ} {f : Objective σ ℝ n} {x d : Vec ℝ n}
  {B : Mat ℝ n n} {s s' t : State ℝ n}

/-! ### Definite stages -/

theorem validate_eq_ok (h : config.validate = .ok ()) :
    0 < config.tolerance ∧ config.search.rho < 1 := by
  unfold Config.validate SearchParams.validateWolfePowell at h
  split_ifs at h with htol hsigma hrho
  simp only [Bool.not_eq_true', Bool.and_eq_false_iff, decide_eq_false_iff_not, not_or,
    not_not] at hrho
  exact ⟨not_le.mp htol, hrho.2⟩

/-- The matrix has been reset at most once. It is positive definite if it was so at the start, and
then it has not been reset, and after a reset. -/
structure Definite (B : Mat ℝ n n) (s : State ℝ n) : Prop where
  resets_le : s.resets ≤ 1
  resets_eq : B.IsPosDef → s.resets = 0
  isPosDef : B.IsPosDef ∨ s.resets ≠ 0 → s.inverse.IsPosDef

theorem Definite.start (h : (start f x B).Yields s) : Definite B s := by
  unfold QuasiNewton.start at h
  obtain ⟨_, _, h⟩ := Run.exists_of_yields_bind h
  obtain ⟨_, _, h⟩ := Run.exists_of_yields_bind h
  cases Run.eq_of_yields_pure h
  refine ⟨Nat.zero_le _, fun _ => rfl, ?_⟩
  rintro (hB | hreset)
  · exact hB
  · exact absurd rfl hreset

/-- With a positive definite matrix the direction is one of descent. -/
theorem direction_descends (hB : s.inverse.IsPosDef) (hg : s.gradient ≠ 0) :
    s.direction.dot s.gradient < 0 := by
  have hpos := hB.pos s.gradient hg
  show (-(s.inverse * s.gradient)).dot s.gradient < 0
  rw [← Vec.inner_eq_dot, inner_neg_left, real_inner_comm, Vec.inner_eq_dot]
  linarith

/-- A reset leaves a definite stage, because it was not needed before. -/
theorem Definite.descend (hs : Definite B s) (hg : s.gradient ≠ 0)
    (h : (descend config s : Run σ ℝ _).Yields (d, t)) :
    Definite B t ∧ t.gradient = s.gradient ∧ s.gradient.dot d < 0 := by
  rcases descend_cases h with ⟨hascent, rfl, rfl⟩ | ⟨hdescent, rfl, rfl⟩
  -- a definite matrix would have given a direction of descent
  · have hnot : ¬ (B.IsPosDef ∨ s.resets ≠ 0) :=
      fun hB => absurd hascent (not_le.mpr (direction_descends (hs.isPosDef hB) hg))
    have hzero : s.resets = 0 := by
      by_contra hne
      exact hnot (.inr hne)
    refine ⟨⟨?_, fun hB => absurd (.inl hB) hnot, fun _ => Mat.isPosDef_identity⟩, rfl, ?_⟩
    · show s.resets + 1 ≤ 1
      omega
    · rw [← Vec.inner_eq_dot, inner_neg_right]
      exact neg_lt_zero.mpr (real_inner_self_pos.mpr hg)
  · refine ⟨hs, rfl, ?_⟩
    rw [← Vec.inner_eq_dot, real_inner_comm, Vec.inner_eq_dot]
    exact not_le.mp hdescent

/-- A Wolfe-Powell step along a direction of descent has positive curvature. -/
theorem curvature_pos {value : ℝ} {point gradient : Vec ℝ n} {params : SearchParams ℝ}
    {found : WolfePowell.Step ℝ n} (hrho : params.rho < 1) (hdescent : gradient.dot d < 0)
    (h : (WolfePowell.searchFrom f point value gradient d params).Yields found) :
    0 < (found.gradient - gradient).dot (found.point - point) := by
  obtain ⟨⟨d', gradient', hd, hgradient, hstep⟩, hsize⟩ :=
    WolfePowell.isWolfeStep_of_yields_searchFrom WolfePowell.Ray.reachable_pos h
  rw [Vec.ofLength_self] at hd hgradient
  cases hd
  cases hgradient
  have hslope : params.rho * gradient.dot d ≤ found.gradient.dot d := hstep.curvature
  rw [hstep.point_eq, Vec.hmul_eq_smul, add_sub_cancel_left, ← Vec.inner_eq_dot,
    real_inner_smul_right, inner_sub_left, Vec.inner_eq_dot, Vec.inner_eq_dot]
  -- `ρ s` exceeds the slope `s < 0` at the start of the step
  exact mul_pos hsize (by nlinarith)

/-- The update is always possible, and it keeps a stage definite. -/
theorem Definite.learn (ht : Definite B t) {found : WolfePowell.Step ℝ n}
    (hcurv : 0 < (found.gradient - t.gradient).dot (found.point - t.point))
    (h : (learn config t found.point found.gradient : Run σ ℝ _).Yields s) :
    Definite B (s.moveTo found) := by
  rcases learn_cases h with ⟨B', hB', rfl⟩ | ⟨hnone, rfl⟩
  · exact ⟨ht.resets_le, ht.resets_eq, fun hB => update_isPosDef (ht.isPosDef hB) hB'⟩
  · rw [update_eq_none] at hnone
    exact absurd hcurv (not_lt.mpr hnone)

/-- Above the tolerance the gradient is not zero. -/
theorem gradient_ne_zero (htol : 0 < config.tolerance)
    (habove : config.tolerance < s.gradient.norm) : s.gradient ≠ 0 := by
  intro hzero
  rw [hzero, Vec.norm_eq, norm_zero] at habove
  exact lt_asymm htol habove

/-- A step leads from a definite stage to a definite one. -/
theorem Definite.step (hvalid : config.validate = .ok ()) (hs : Definite B s)
    (habove : config.tolerance < s.gradient.norm) (h : (step config f s).Yields s') :
    Definite B s' := by
  obtain ⟨htol, hrho⟩ := validate_eq_ok hvalid
  obtain ⟨d, t, found, u, hdescend, hfound, hlearn, rfl⟩ := step_cases h
  obtain ⟨ht, hgradient, hdescent⟩ := hs.descend (gradient_ne_zero htol habove) hdescend
  rw [← hgradient] at hdescent
  exact ht.learn (curvature_pos hrho hdescent hfound) hlearn

theorem Reached.definite (hs : Reached config f x B s) : Definite B s := by
  induction hs with
  | start _ h => exact .start h
  | step hs habove h ih => exact ih.step hs.validate habove h

/-! ### Directions that the search refuses -/

/-- A stage above the tolerance has a direction of descent. -/
theorem Reached.descends (hs : Reached config f x B s)
    (habove : config.tolerance < s.gradient.norm)
    (h : (descend config s : Run σ ℝ _).Yields (d, t)) :
    Definite B t ∧ t.gradient.dot d < 0 := by
  obtain ⟨htol, _⟩ := validate_eq_ok hs.validate
  obtain ⟨ht, hgradient, hdescent⟩ := hs.definite.descend (gradient_ne_zero htol habove) h
  exact ⟨ht, by rwa [hgradient]⟩

/-- A search along a direction of descent is refused by the objective only. -/
theorem canFail_of_fails_searchFrom {value slope : ℝ} {point gradient : Vec ℝ n}
    {params : SearchParams ℝ} (hdescent : gradient.dot d < 0)
    (h : (WolfePowell.searchFrom f point value gradient d params).Fails (.ascent slope)) :
    f.CanFail (.ascent slope) := by
  unfold WolfePowell.searchFrom at h
  replace h := (Run.computes_liftM d.ofLength_self).fails_of_bind h
  replace h := (Run.computes_liftM gradient.ofLength_self).fails_of_bind h
  -- all other failures of the search have a form of their own
  rcases WolfePowell.run_fails h with h | ⟨hascent, _⟩ | h | ⟨_, _, _, h⟩ | h
  · rw [slope_eq_dot] at h
    cases h
  · exact absurd hdescent (not_lt.mpr hascent)
  · unfold SearchParams.validateWolfePowell SearchParams.validateCap at h
    split_ifs at h <;> cases h
  · cases h
  · exact h

/-- That a direction is not one of descent is never found by a run itself. -/
theorem canFail_of_fails_minimizeFrom {slope : ℝ}
    (h : (minimizeFrom config f x B).Fails (.ascent slope)) : f.CanFail (.ascent slope) := by
  rcases fails_minimizeFrom h with h | h | ⟨s, hs, habove, h | h⟩
  · unfold Config.validate SearchParams.validateWolfePowell SearchParams.validateCap at h
    split_ifs at h <;> cases h
  · exact h
  · cases h
  · obtain ⟨d, t, hdescend, h⟩ := fails_step h
    exact canFail_of_fails_searchFrom (hs.descends habove hdescend).2 h

/-! ### The runs -/

/-- The update after a step is made, and not a reset. -/
theorem Reached.exists_update (hs : Reached config f x B s)
    (habove : config.tolerance < s.gradient.norm)
    (h : (descend config s : Run σ ℝ _).Yields (d, t)) {found : WolfePowell.Step ℝ n}
    (hfound : (WolfePowell.searchFrom f t.point t.value t.gradient d config.search).Yields found) :
    ∃ B', update t.inverse (found.point - t.point) (found.gradient - t.gradient) = some B' := by
  have hcurv := curvature_pos (validate_eq_ok hs.validate).2 (hs.descends habove h).2 hfound
  rw [← Option.ne_none_iff_exists', ne_eq, update_eq_none, not_le]
  exact hcurv

/-- Nor is it found by a run from the identity. -/
theorem canFail_of_fails_minimize {slope : ℝ}
    (h : (minimize config f x).Fails (.ascent slope)) : f.CanFail (.ascent slope) := by
  rcases Run.fails_or_of_fails_bind h with h | ⟨_, _, h⟩
  · exact canFail_of_fails_minimizeFrom h
  · exact absurd h Run.not_fails_pure

/-- What the stages of a run say about its result. -/
theorem definite_of_yields_minimizeFrom {result : Result ℝ n}
    (h : (minimizeFrom config f x B).Yields result) :
    result.resets ≤ 1 ∧ (B.IsPosDef → result.resets = 0) ∧
      (B.IsPosDef ∨ result.resets ≠ 0 → result.inverse.IsPosDef) := by
  obtain ⟨s, hs, rfl⟩ := Reached.of_yields_minimizeFrom h
  exact ⟨hs.definite.resets_le, hs.definite.resets_eq, hs.definite.isPosDef⟩

/-- **Definiteness**: whatever the objective, its start and the first matrix `B`,

* a run that is refused for a direction that does not descend was refused so by the objective
  itself;
* a stage has been reset at most once, also after a reset for its direction, and the update by the
  step that the line search then finds is made;
* a result has been reset at most once, and not at all if `B` is positive definite; in that case and
  after a reset its matrix is positive definite.

With the identity as the first matrix no result has been reset. -/
theorem minimizeFrom_definite (config : Config ℝ) (f : Objective σ ℝ n) (x : Vec ℝ n)
    (B : Mat ℝ n n) :
    (∀ slope, (minimizeFrom config f x B).Fails (.ascent slope) → f.CanFail (.ascent slope)) ∧
      (∀ s, Reached config f x B s → s.resets ≤ 1) ∧
      (∀ s d t found, Reached config f x B s → config.tolerance < s.gradient.norm →
        (descend config s : Run σ ℝ _).Yields (d, t) →
        (WolfePowell.searchFrom f t.point t.value t.gradient d config.search).Yields found →
        t.resets ≤ 1 ∧
          ∃ B', update t.inverse (found.point - t.point) (found.gradient - t.gradient) =
            some B') ∧
      (∀ result, (minimizeFrom config f x B).Yields result →
        result.resets ≤ 1 ∧ (B.IsPosDef → result.resets = 0) ∧
          (B.IsPosDef ∨ result.resets ≠ 0 → result.inverse.IsPosDef)) ∧
      (∀ result, (minimizeWithInverse config f x).Yields result →
        result.resets = 0 ∧ result.inverse.IsPosDef) ∧
      (∀ slope, (minimize config f x).Fails (.ascent slope) → f.CanFail (.ascent slope)) ∧
      ∀ outcome, (minimize config f x).Yields outcome →
        ∃ result, (minimizeWithInverse config f x).Yields result ∧ outcome = result.outcome := by
  refine ⟨fun slope => canFail_of_fails_minimizeFrom, fun s hs => hs.definite.resets_le, ?_,
    fun result => definite_of_yields_minimizeFrom, ?_, fun slope => canFail_of_fails_minimize,
    fun outcome => minimize_cases⟩
  · intro s d t found hs habove hdescend hfound
    exact ⟨(hs.descends habove hdescend).1.resets_le, hs.exists_update habove hdescend hfound⟩
  · intro result h
    obtain ⟨_, hresets, hinverse⟩ := definite_of_yields_minimizeFrom h
    exact ⟨hresets Mat.isPosDef_identity, hinverse (.inl Mat.isPosDef_identity)⟩

/-! ### A run with a reset -/

/-- The default settings of the search are accepted. -/
theorem wolfePowell_valid :
    (SearchParams.wolfePowell : SearchParams ℝ).validateWolfePowell = .ok () := by
  refine WolfePowell.validateWolfePowell_eq_ok ?_ ?_ ?_ ?_ ?_ <;>
    norm_num [SearchParams.wolfePowell]

/-- Half the squared norm is minimized by one step of steepest descent. -/
theorem computes_searchFrom_simple {y : Vec ℝ n} (hy : y ≠ 0) :
    (WolfePowell.searchFrom ((Quadratic.simple n).objective n : Objective σ ℝ n) y
      ((Quadratic.simple n).value y) y (-y) SearchParams.wolfePowell).Computes
        ⟨1, 0, 0, 0, ⟨1, 1⟩⟩ := by
  have hdescent : y.dot (-y) < 0 := by
    rw [← Vec.inner_eq_dot, inner_neg_right]
    exact neg_lt_zero.mpr (real_inner_self_pos.mpr hy)
  let ray : WolfePowell.Ray σ ℝ n := ⟨(Quadratic.simple n).objective n, y, -y,
    (Quadratic.simple n).value y, y.dot (-y), .wolfePowell⟩
  -- the step of size one leads to the origin
  have hpoint : ray.pointAt 1 = 0 := by
    show y + (1 : ℝ) • -y = 0
    rw [one_smul, add_neg_cancel]
  have hvalue : (Quadratic.simple n).value (0 : Vec ℝ n) = 0 := by
    rw [Quadratic.simple_value, ← Vec.inner_eq_dot, inner_zero_left, mul_zero]
  have hstep : ray.stepAt (Quadratic.simple n).value (Quadratic.simple n).gradient 1 ⟨1, 1⟩ =
      ⟨1, 0, 0, 0, ⟨1, 1⟩⟩ := by
    rw [WolfePowell.Ray.stepAt, hpoint, hvalue, Quadratic.simple_gradient]
  have hsuff : ray.Sufficient (Quadratic.simple n).value 1 := by
    show (Quadratic.simple n).value (ray.pointAt 1) ≤
      (Quadratic.simple n).value y + 1 * 1e-3 * y.dot (-y)
    have hneg : y.dot (-y) = -y.dot y := by
      rw [← Vec.inner_eq_dot, inner_neg_right, Vec.inner_eq_dot]
    have hnonneg := Vec.dot_self_nonneg y
    rw [hpoint, hvalue, Quadratic.simple_value, hneg]
    linarith
  have hcurv : ray.slopeBound ≤
      ((Quadratic.simple n).gradient (ray.pointAt 1)).dot ray.direction := by
    show 1e-2 * y.dot (-y) ≤ ((Quadratic.simple n).gradient (ray.pointAt 1)).dot (-y)
    rw [hpoint, Quadratic.simple_gradient, ← Vec.inner_eq_dot 0, inner_zero_left]
    linarith
  rw [← hstep]
  exact WolfePowell.computes_searchFrom_of_run (WolfePowell.computes_run hdescent
    wolfePowell_valid (WolfePowell.Ray.computes_search_of_curvature
      (Quadratic.simple n).evaluates hsuff hcurv .none))

/-- From a stage that needs a reset one step leads to zero. -/
theorem exists_computes_step_simple (hsearch : config.search = .wolfePowell) (hne : s.point ≠ 0)
    (hvalue : s.value = (Quadratic.simple n).value s.point) (hgradient : s.gradient = s.point)
    (hascent : 0 ≤ s.direction.dot s.gradient) :
    ∃ s', (step config ((Quadratic.simple n).objective n : Objective σ ℝ n) s).Computes s' ∧
      s'.gradient = 0 ∧ s'.resets = s.resets + 1 ∧ s'.history = s.history.push 0 := by
  have hdescend : (descend config s : Run σ ℝ _).Computes (-s.point, s.reset) := by
    rw [← hgradient]
    exact computes_descend_of_ascent hascent
  have hfound : (WolfePowell.searchFrom ((Quadratic.simple n).objective n : Objective σ ℝ n)
      s.reset.point s.reset.value s.reset.gradient (-s.point) config.search).Computes
      ⟨1, 0, 0, 0, ⟨1, 1⟩⟩ := by
    show (WolfePowell.searchFrom _ s.point s.value s.gradient (-s.point) config.search).Computes _
    rw [hvalue, hgradient, hsearch]
    exact computes_searchFrom_simple hne
  obtain ⟨B', hB'⟩ : ∃ B', update s.reset.inverse (0 - s.reset.point) (0 - s.reset.gradient) =
      some B' := by
    rw [← Option.ne_none_iff_exists', ne_eq, update_eq_none, not_le]
    show 0 < (0 - s.gradient).dot (0 - s.point)
    rw [hgradient, zero_sub, ← Vec.inner_eq_dot]
    exact real_inner_self_pos.mpr (neg_ne_zero.mpr hne)
  exact ⟨_, computes_step hdescend hfound (computes_learn hB'), rfl, rfl, rfl⟩

/-- The first stage at one with the matrix `-1`, which leads uphill. -/
noncomputable def uphill : State ℝ 1 where
  point := .singleton 1
  value := (Quadratic.simple 1).value (.singleton 1)
  gradient := .singleton 1
  inverse := .diagonal (.singleton (-1))
  resets := 0
  iterations := 0
  tally := ⟨1, 1⟩
  history := #[(Quadratic.simple 1).value (.singleton 1)]

/-- The run from one with this matrix starts there. -/
theorem computes_start_uphill :
    (start ((Quadratic.simple 1).objective 1 : Objective σ ℝ 1) #v[1]
      (Mat.diagonal #v[-1])).Computes uphill := by
  refine ((Quadratic.simple 1).evaluates.value #v[1]).bind ?_
  refine ((Quadratic.simple 1).evaluates.gradient #v[1]).bind ?_
  rw [Quadratic.simple_gradient]
  exact Run.computes_pure _

theorem uphill_ascends : 0 ≤ uphill.direction.dot uphill.gradient := by
  show 0 ≤ Vec.dot (-(Mat.diagonal (#v[-1] : Vec ℝ 1) * (#v[1] : Vec ℝ 1))) #v[1]
  rw [Vec.dot_eq_sum]
  simp [Mat.getElem_diagonal_mulVec]

theorem norm_uphill : uphill.gradient.norm = 1 := by
  show √(Vec.dot (#v[1] : Vec ℝ 1) #v[1]) = 1
  rw [Vec.dot_eq_sum]
  simp

theorem default_validate : Config.validate ({} : Config ℝ) = .ok () := by
  have htol : ¬ (1e-3 : ℝ) ≤ 0 := by norm_num
  unfold Config.validate
  exact (if_neg htol).trans wolfePowell_valid

/-- The first matrix `-1` is reset once at one; then a step leads to zero, where the run ends. -/
theorem computes_minimizeFrom_uphill :
    ∃ last : State ℝ 1,
      (minimizeFrom {} ((Quadratic.simple 1).objective 1 : Objective σ ℝ 1) #v[1]
        (Mat.diagonal #v[-1] : Mat ℝ 1 1)).Computes last.result ∧
      last.resets = 1 ∧ last.history = uphill.history.push 0 := by
  have hne : uphill.point ≠ 0 := fun h => one_ne_zero (congrArg (fun x : Vec ℝ 1 => x[0]) h)
  obtain ⟨last, hstep, hzero, hresets, hhistory⟩ : ∃ last,
      (step {} ((Quadratic.simple 1).objective 1 : Objective σ ℝ 1) uphill).Computes last ∧
        last.gradient = 0 ∧ last.resets = uphill.resets + 1 ∧
        last.history = uphill.history.push 0 :=
    exists_computes_step_simple rfl hne rfl rfl uphill_ascends
  have habove : (1e-3 : ℝ) < uphill.gradient.norm := by
    rw [norm_uphill]
    norm_num
  have hwithin : ¬ (1e-3 : ℝ) < last.gradient.norm := by
    rw [hzero, Vec.norm_eq, norm_zero]
    norm_num
  have hiterate : (iterate {} ((Quadratic.simple 1).objective 1 : Objective σ ℝ 1) 10000
      uphill).Computes last :=
    computes_iterate_of_step habove hstep (computes_iterate_of_not_lt hwithin)
  exact ⟨last, computes_minimizeFrom default_validate computes_start_uphill hiterate, hresets,
    hhistory⟩

/-- Half the square is minimized with one reset, after which the matrix is positive definite. -/
theorem minimizeFrom_definite_uphill :
    ∃ result : Result ℝ 1,
      (minimizeFrom {} ((Quadratic.simple 1).objective 1 : Objective Unit ℝ 1) #v[1]
        (Mat.diagonal #v[-1] : Mat ℝ 1 1)).Computes result ∧
      result.resets = 1 ∧ result.inverse.IsPosDef := by
  obtain ⟨last, hrun, hone, -⟩ := computes_minimizeFrom_uphill (σ := Unit)
  obtain ⟨-, -, -, hresult, -⟩ := minimizeFrom_definite {}
    ((Quadratic.simple 1).objective 1 : Objective Unit ℝ 1) #v[1] (Mat.diagonal #v[-1])
  have hreset : last.result.resets ≠ 0 := by
    rw [show last.result.resets = 1 from hone]
    exact one_ne_zero
  exact ⟨last.result, hrun, hone, (hresult _ hrun.yields).2.2 (.inr hreset)⟩

end Downhill.QuasiNewton
