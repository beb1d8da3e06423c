import Downhill.Proofs.Method.Decrease
import Downhill.Proofs.Method.Definiteness
import Downhill.Proofs.Method.QuadraticSearch
import Downhill.Proofs.Solve.CholeskyFactor

/-!
# Strict descent

* `outcomes_strictly_descend`: in exact arithmetic the recorded values of every run strictly
  decrease for quasi-Newton and Levenberg-Marquardt descent and for projected inexact Newton descent
  over a box or a ball. For implicit filtering they do up to the last sweep, which repeats the value
  before it. So no point is visited twice.

Runs on squares show all four: they are carried out by hand, stage by stage.
-/

namespace Downhill

variable {σ : Type} {m n : Nat}

/-- No two stages of a run have the same point. -/
def Routine.NeverRevisits {S β : Type} (R : Routine σ ℝ S β) (point : S → Vec ℝ n) : Prop :=
  ∀ j k s t, R.Holds j s → R.Holds k t → j < k → point t ≠ point s

/-- **Strict descent**: in exact arithmetic, whatever the deterministic objective or model, the
settings and the start. The recorded values of quasi-Newton, Levenberg-Marquardt and, over a box or
a ball, projected inexact Newton descent strictly decrease; those of implicit filtering do so up to
the last, which is repeated. No stage has the point of an earlier one, where a fit keeps its
parameters while trials are rejected, and implicit filtering keeps its best point in the sweep that
ends it. -/
theorem outcomes_strictly_descend :
    (∀ f : Objective σ ℝ n, f.Deterministic →
      (∀ (config : QuasiNewton.Config ℝ) (x : Vec ℝ n),
        (∀ (r c : Nat) (A : Mat ℝ r c),
          (∀ result, (QuasiNewton.minimizeFrom config f x A).Yields result →
            result.outcome.StrictlyDescends) ∧
          (QuasiNewton.routine config f x A).NeverRevisits QuasiNewton.State.point) ∧
        (∀ result, (QuasiNewton.minimizeWithInverse config f x).Yields result →
          result.outcome.StrictlyDescends) ∧
        ∀ o, (QuasiNewton.minimize config f x).Yields o → o.StrictlyDescends) ∧
      (∀ (config : ProjectedNewton.Config ℝ) (P : Projection ℝ n) (x : Vec ℝ n), P.IsBoxOrBall →
        (∀ o, (ProjectedNewton.minimize config f P x).Yields o → o.StrictlyDescends) ∧
        (ProjectedNewton.routine config f P x).NeverRevisits ProjectedNewton.State.point) ∧
      ∀ (config : ImplicitFiltering.Config ℝ) (P : Projection ℝ n) (x : Vec ℝ n),
        (∀ o, (ImplicitFiltering.minimize config f P x).Yields o → o.DescendsAndSettles) ∧
        ∀ j k a b, (ImplicitFiltering.routine config f P x).Holds j a →
          (ImplicitFiltering.routine config f P x).Holds k b → j < k → b.1.best = a.1.best →
            k = j + 1 ∧ b.2 = true) ∧
    ∀ model : ResidualModel σ ℝ m, model.Deterministic →
      ∀ (config : LevenbergMarquardt.Config ℝ) (p : Vec ℝ m),
        (∀ result, (LevenbergMarquardt.minimizeWithDamping config model p).Yields result →
          result.outcome.StrictlyDescends) ∧
        (∀ o, (LevenbergMarquardt.minimize config model p).Yields o → o.StrictlyDescends) ∧
        ∀ j k s t, (LevenbergMarquardt.routine config model p).Holds j s →
          (LevenbergMarquardt.routine config model p).Holds k t → j ≤ k → t.point = s.point →
            t.rejected = s.rejected + (k - j) := by
  refine ⟨fun f hf => ⟨fun config x => ⟨fun r c A => ⟨fun _ => QuasiNewton.strictlyDescends,
    fun _ _ _ _ => QuasiNewton.point_ne_of_lt hf⟩, fun _ => QuasiNewton.strictlyDescends,
    fun o h => ?_⟩, fun config P x hP => ?_, fun config P x =>
    ⟨fun _ => ImplicitFiltering.descendsAndSettles hf, fun _ _ _ _ =>
      ImplicitFiltering.settled_of_best_eq hf⟩⟩, fun model hmodel config p =>
    ⟨fun _ => LevenbergMarquardt.strictlyDescends, fun o h => ?_,
      fun _ _ _ _ => LevenbergMarquardt.rejected_eq_of_point_eq hmodel⟩⟩
  · obtain ⟨result, hresult, rfl⟩ := QuasiNewton.minimize_cases h
    exact QuasiNewton.strictlyDescends hresult
  · rcases hP.nearest_or_error with ⟨π, hP⟩ | ⟨_, _, herror⟩
    · refine ⟨fun o h => ?_, fun _ _ _ _ => ProjectedNewton.point_ne_of_lt hP hf⟩
      obtain ⟨k, -, last, hlast, -, rfl⟩ := ProjectedNewton.minimize_cases h
      exact (ProjectedNewton.decreasing_of_holds hP hf hlast).strictlyDescends
    · -- a projection of another dimension leaves nothing to show
      refine ⟨fun o h => ?_, fun _ _ _ _ hs => ?_⟩
      · obtain ⟨k, -, last, hlast, -⟩ := ProjectedNewton.minimize_cases h
        exact absurd hlast (ProjectedNewton.not_holds_of_error (herror x))
      · exact absurd hs (ProjectedNewton.not_holds_of_error (herror x))
  · obtain ⟨result, hresult, rfl⟩ := LevenbergMarquardt.minimize_cases h
    exact LevenbergMarquardt.strictlyDescends hresult

/-! ### A run of projected inexact Newton descent -/

namespace ProjectedNewton

/-- The line search accepts the full step from one to zero. -/
theorem computes_search_parabola :
    (ProjectedBacktracking.search ((parabola 2).objective 1 : Objective σ ℝ 1)
      (wideBox.projection 1) #v[1] #v[-1] .projectedBacktracking).Computes
        ⟨1, #v[0], (parabola 2).value #v[0], ⟨2, 1⟩⟩ := by
  have heval := (parabola 2).evaluates (σ := σ)
  have hslope : ((parabola 2).gradient #v[1]).dot #v[-1] < 0 := by
    rw [parabola_gradient, Vec.dot_singleton]
    norm_num
  have hzero : wideBox.clamp #v[0] = #v[0] := clamp_wideBox (by norm_num) (by norm_num)
  have hone : wideBox.clamp #v[1] = #v[1] := clamp_wideBox (by norm_num) (by norm_num)
  have hfull : (wideBox.projection 1).project (#v[1] + #v[-1]) = .ok #v[0] := by
    rw [Vec.singleton_add, add_neg_cancel, wideBox.projection_eq, hzero]
  -- the full step leads to another point
  have hmove : (#v[0] : Vec ℝ 1) ≠ #v[1] := fun h =>
    zero_ne_one (congrArg (fun y : Vec ℝ 1 => y[0]) h)
  refine ProjectedBacktracking.computes_search (by rw [wideBox.projection_eq, hone])
    (heval.gradient _) (slope_eq_dot _ _) (not_le.mpr hslope) projectedBacktracking_valid
    (heval.value _) hfull (beq_eq_false_iff_ne.mpr hmove)
    (ProjectedBacktracking.Path.computes_backtrack_of_le ?_ (heval.value _)
      (ProjectedBacktracking.Path.bound_eq wideBox.nearest 1) ?_)
  · rw [ProjectedBacktracking.Path.point_eq wideBox.nearest, one_smul, Vec.singleton_add,
      add_neg_cancel, hzero]
  · have hback : wideBox.clamp (#v[1] - (1 : ℝ) • (parabola 2).gradient #v[1]) = #v[-1] := by
      rw [one_smul, parabola_gradient, Vec.singleton_sub, clamp_wideBox (by norm_num) (by norm_num)]
      norm_num
    dsimp only
    rw [hback, Vec.singleton_sub, Vec.norm_singleton, parabola_value, parabola_value]
    norm_num [SearchParams.projectedBacktracking, SearchParams.wolfePowell]

/-- The square in the box from `-10` to `10`: one iteration leads from one to zero. -/
theorem exists_yields_minimize_parabola [Inhabited σ] :
    ∃ o, (minimize {} ((parabola 2).objective 1 : Objective σ ℝ 1)
      (wideBox.projection 1) #v[1]).Yields o ∧ o.history = #[1, 0] := by
  set f : Objective σ ℝ 1 := (parabola 2).objective 1
  set last : State ℝ 1 :=
    (parabolaStage 2).moveTo ⟨1, #v[0], (parabola 2).value #v[0], ⟨2, 1⟩⟩ #v[0] 0
  have hgradient : (f.gradient #v[0]).Computes #v[0] := by
    have h := (parabola 2).evaluates (σ := σ) |>.gradient (#v[0] : Vec ℝ 1)
    rwa [parabola_gradient, mul_zero] at h
  have hstat : stationarity (wideBox.projection 1) #v[0] #v[0] = .ok 0 := by
    rw [stationarity_eq_ok wideBox.nearest, Vec.singleton_sub, sub_self,
      clamp_wideBox (by norm_num) (by norm_num), Vec.singleton_sub, Vec.norm_singleton, sub_self,
      abs_zero]
  have habove : ({} : Config ℝ).tolerance < 2 := by
    show (1e-3 : ℝ) < 2
    norm_num
  have hwithin : ¬ ({} : Config ℝ).tolerance < 0 := by
    show ¬ (1e-3 : ℝ) < 0
    norm_num
  -- the inner loop ends at zero, and the search takes the full step there
  have hinner := computes_inner_parabola (σ := σ) (L := 2) (r := 10) habove one_le_two
    (by norm_num) (by decide)
  have hsearch : (ProjectedBacktracking.search f (wideBox.projection 1) (parabolaStage 2).point
      (direction (parabolaStage 2) #v[0]) .projectedBacktracking).Computes
        ⟨1, #v[0], (parabola 2).value #v[0], ⟨2, 1⟩⟩ := by
    rw [direction_parabola]
    exact computes_search_parabola
  have hfirst : (routine {} f (wideBox.projection 1) #v[1]).start.Yields (parabolaStage 2) :=
    ((Run.computes_liftM default_validate).bind ((Run.computes_record _).bind
      (computes_start_parabola two_pos (by norm_num)))).yields
  -- so the stage after one step is the last one
  have hlast : (routine {} f (wideBox.projection 1) #v[1]).Holds 1 last :=
    ⟨_, hfirst, .step .refl habove (computes_step hinner hsearch hgradient hstat).yields⟩
  have hfinish : ((routine {} f (wideBox.projection 1) #v[1]).finish last).Computes last.outcome :=
    (Run.computes_record _).bind (Run.computes_pure _)
  have hrun : (minimize {} f (wideBox.projection 1) #v[1]).Computes last.outcome := by
    rw [minimize_eq_run]
    exact hlast.computes_run (deterministic_routine {} ((parabola 2).deterministic 1) _ _) hwithin
      hfinish.yields (by decide)
  refine ⟨_, hrun.yields, ?_⟩
  show #[(parabola 2).value #v[1], (parabola 2).value #v[0]] = _
  rw [parabola_value, parabola_value]
  norm_num

end ProjectedNewton

/-! ### A run of implicit filtering -/

namespace ImplicitFiltering

theorem computes_value_simple (x : ℝ) :
    (((Quadratic.simple 1).objective 1 : Objective σ ℝ 1).value #v[x]).Computes (x ^ 2 / 2) := by
  have h := (Quadratic.simple 1).evaluates (σ := σ) |>.value (#v[x] : Vec ℝ 1)
  rw [Quadratic.simple_value, Vec.dot_singleton] at h
  convert h using 1
  ring

/-- Central differences of half the square are exact. -/
theorem computes_simplexGradient_simple {h : ℝ} (hh : 0 < h) (x : ℝ) :
    (Stencil.simplexGradient ((Quadratic.simple 1).objective 1 : Objective σ ℝ 1) #v[x]
      h).Computes #v[x] := by
  have hentry : (centralDifference ((Quadratic.simple 1).objective 1 : Objective σ ℝ 1).value #v[x]
      h (Fin.last 0)).Computes x := by
    refine (computes_value_simple (x + h)).bind ((computes_value_simple (x - h)).bind ?_)
    convert Run.computes_pure (σ := σ) x using 2
    field_simp
    ring
  exact (Run.computes_liftM (if_pos hh)).bind
    ((Run.computes_pure _).bind (hentry.bind (Run.computes_pure _)))

/-- The test compares both neighbours with the center. -/
theorem computes_isFailure_simple {h : ℝ} (hh : 0 < h) (x : ℝ) :
    (Stencil.isFailure ((Quadratic.simple 1).objective 1 : Objective σ ℝ 1) #v[x] h).Computes
      (!((x + h) ^ 2 / 2 < x ^ 2 / 2 || (x - h) ^ 2 / 2 < x ^ 2 / 2)) := by
  have hnoBetter : (Stencil.noBetter ((Quadratic.simple 1).objective 1 : Objective σ ℝ 1) #v[x] h
      (x ^ 2 / 2) 0).Computes
      (!((x + h) ^ 2 / 2 < x ^ 2 / 2 || (x - h) ^ 2 / 2 < x ^ 2 / 2)) :=
    (computes_value_simple (x + h)).bind ((computes_value_simple (x - h)).bind
      (Run.computes_pure _))
  refine (Run.computes_liftM (if_pos hh)).bind ((computes_value_simple x).bind
    (hnoBetter.bind ?_))
  -- the test of the only coordinate is the whole test
  cases !((x + h) ^ 2 / 2 < x ^ 2 / 2 || (x - h) ^ 2 / 2 < x ^ 2 / 2) <;>
    exact Run.computes_pure _

/-- The one scale one. -/
noncomputable def oneScale : Config ℝ := { scales := [1] }

/-- The descent at that scale for half the square. -/
noncomputable def simpleScale : Scale σ ℝ 1 :=
  ⟨oneScale, (Quadratic.simple 1).objective 1, .whole 1, 1⟩

/-- At zero no point of the stencil is better. -/
theorem computes_iterate_zero (remaining used : Nat) :
    ((simpleScale : Scale σ ℝ 1).iterate remaining #v[0] used).Computes
      (#v[0], .stencilFailure, used + 5) := by
  have hfailed := computes_isFailure_simple (σ := σ) one_pos 0
  norm_num at hfailed
  rw [Scale.iterate]
  exact (computes_simplexGradient_simple one_pos 0).bind (hfailed.bind (Run.computes_pure _))

/-- From one the first step leads to zero. -/
theorem computes_iterate_one (remaining used : Nat) :
    ((simpleScale : Scale σ ℝ 1).iterate (remaining + 1) #v[1] used).Computes
      (#v[0], .stencilFailure, used + 5 + 1 + 1 + 5) := by
  set one : Vec ℝ 1 := #v[1] with hone
  -- the gradient is shorter than ten scales, so the full step is tried first
  have hfactor : factor 1 one = -1 := by
    unfold factor
    rw [Scalar.min_real, Vec.norm_eq, hone, Vec.norm_singleton, abs_one, min_eq_left]
    norm_num
  have htrial : one + (1 : ℝ) * (factor 1 one * one) = #v[0] := by
    rw [hfactor, Vec.hmul_eq_smul, Vec.hmul_eq_smul, one_smul, neg_one_smul, hone,
      Vec.singleton_neg, Vec.singleton_add, add_neg_cancel]
  have hgap : (simpleScale : Scale σ ℝ 1).projection.gradientStep one one = .ok one :=
    congrArg Except.ok (sub_sub_cancel one one)
  have hgap' : (simpleScale : Scale σ ℝ 1).projection.gradientStep one ((1 : ℝ) * one) =
      .ok one := by
    rw [Vec.hmul_eq_smul, one_smul]
    exact hgap
  have hbetter := computes_isFailure_simple (σ := σ) one_pos 1
  norm_num at hbetter
  have hzero := computes_value_simple (σ := σ) 0
  -- at zero the decrease is sufficient
  have hbacktrack : ((simpleScale : Scale σ ℝ 1).backtrack one one (1 ^ 2 / 2) 10 1
      (used + 5 + 1)).Computes (some #v[0], used + 5 + 1 + 1) := by
    rw [Scale.backtrack]
    refine (Run.computes_liftM (congrArg Except.ok htrial)).bind
      (hzero.bind ((Run.computes_liftM hgap').bind ?_))
    rw [if_pos]
    · exact Run.computes_pure _
    · show (0 : ℝ) ^ 2 / 2 ≤ 1 ^ 2 / 2 - 1e-4 / 1 * Vec.dot one one
      rw [hone, Vec.dot_singleton]
      norm_num
  rw [Scale.iterate]
  refine (computes_simplexGradient_simple one_pos 1).bind
    (hbetter.bind ((Run.computes_liftM hgap).bind ?_))
  rw [if_neg]
  · exact (computes_value_simple 1).bind (hbacktrack.bind (computes_iterate_zero _ _))
  · show ¬ Vec.norm one ≤ 1e-3 * 1
    rw [Vec.norm_eq, hone, Vec.norm_singleton]
    norm_num

theorem computes_visit_one (sweeps evaluations : Nat) (history : Array ℝ) :
    (visit oneScale ((Quadratic.simple 1).objective 1 : Objective σ ℝ 1) (.whole 1)
      ⟨#v[1], 1 ^ 2 / 2, sweeps, evaluations, history⟩ 1).Computes
        ⟨#v[0], 0 ^ 2 / 2, sweeps, evaluations + 13, history⟩ := by
  have hne : ((#v[0] : Vec ℝ 1) == #v[1]) = false :=
    beq_eq_false_iff_ne.mpr fun h => zero_ne_one (congrArg (fun y : Vec ℝ 1 => y[0]) h)
  have hless : (0 : ℝ) ^ 2 / 2 < 1 ^ 2 / 2 := by norm_num
  refine ((Run.computes_liftM rfl).bind (computes_iterate_one 9 0)).bind
    ((computes_value_simple 0).bind ((Run.computes_record _).bind ?_))
  dsimp only
  rw [hne, decide_eq_true hless]
  exact Run.computes_pure _

theorem computes_visit_zero (sweeps evaluations : Nat) (history : Array ℝ) :
    (visit oneScale ((Quadratic.simple 1).objective 1 : Objective σ ℝ 1) (.whole 1)
      ⟨#v[0], 0 ^ 2 / 2, sweeps, evaluations, history⟩ 1).Computes
        ⟨#v[0], 0 ^ 2 / 2, sweeps, evaluations + 6, history⟩ := by
  refine ((Run.computes_liftM rfl).bind (computes_iterate_zero 10 0)).bind
    ((computes_value_simple 0).bind ((Run.computes_record _).bind ?_))
  dsimp only
  rw [beq_self_eq_true]
  exact Run.computes_pure _

/-- A step of the loop is a sweep over the one scale. -/
theorem computes_step_oneScale {f : Objective σ ℝ n} {P : Projection ℝ n} {s t : State ℝ n}
    (h : (visit oneScale f P { s with sweeps := s.sweeps + 1 } 1).Computes t) :
    ((loop oneScale f P).step (s, false)).Computes (t.close, t.best == s.best) := by
  have hsweep : (sweep oneScale f P s).Computes t.close :=
    (h.bind (Run.computes_pure t)).bind ((Run.computes_record _).bind (Run.computes_pure t.close))
  exact hsweep.bind (Run.computes_pure (t.close, t.best == s.best))

theorem computes_start_simple :
    (start ((Quadratic.simple 1).objective 1 : Objective σ ℝ 1) (.whole 1) #v[1]).Computes
      ⟨#v[1], 1 ^ 2 / 2, 0, 1, #[1 ^ 2 / 2]⟩ :=
  (Run.computes_liftM rfl).bind ((computes_value_simple 1).bind (Run.computes_pure _))

/-- Half the square: the first sweep leads from one to zero, the second one stays there. -/
theorem exists_yields_minimize_simple [Inhabited σ] :
    ∃ o, (minimize oneScale ((Quadratic.simple 1).objective 1 : Objective σ ℝ 1) (.whole 1)
      #v[1]).Yields o ∧ o.history = #[1 / 2, 0, 0] := by
  set R := routine oneScale ((Quadratic.simple 1).objective 1 : Objective σ ℝ 1) (.whole 1) #v[1]
    with hR
  have hvalid : oneScale.validate = .ok () := by
    norm_num [Config.validate, oneScale, Scalar.gradientTolerance]
  have hfirst : R.start.Computes (⟨#v[1], 1 ^ 2 / 2, 0, 1, #[1 ^ 2 / 2]⟩, false) := by
    refine (Run.computes_liftM hvalid).bind ((Run.computes_record _).bind ?_)
    exact computes_start_simple.bind (Run.computes_pure (_, false))
  have hne : ((#v[0] : Vec ℝ 1) == #v[1]) = false :=
    beq_eq_false_iff_ne.mpr fun h => zero_ne_one (congrArg (fun y : Vec ℝ 1 => y[0]) h)
  -- the first sweep moves to zero
  have hmoves : (R.loop.step (⟨#v[1], 1 ^ 2 / 2, 0, 1, #[1 ^ 2 / 2]⟩, false)).Computes
      (⟨#v[0], 0 ^ 2 / 2, 1, 14, #[1 ^ 2 / 2, 0 ^ 2 / 2]⟩, false) := by
    have h := computes_step_oneScale (s := ⟨#v[1], 1 ^ 2 / 2, 0, 1, #[1 ^ 2 / 2]⟩)
      (computes_visit_one (σ := σ) 1 1 _)
    rw [hne] at h
    exact h
  -- the second one stays there and ends the run
  have hstays : (R.loop.step (⟨#v[0], 0 ^ 2 / 2, 1, 14, #[1 ^ 2 / 2, 0 ^ 2 / 2]⟩, false)).Computes
      (⟨#v[0], 0 ^ 2 / 2, 2, 20, #[1 ^ 2 / 2, 0 ^ 2 / 2, 0 ^ 2 / 2]⟩, true) := by
    have h := computes_step_oneScale
      (s := ⟨#v[0], 0 ^ 2 / 2, 1, 14, #[1 ^ 2 / 2, 0 ^ 2 / 2]⟩)
      (computes_visit_zero (σ := σ) 2 14 _)
    rw [beq_self_eq_true] at h
    exact h
  set last : State ℝ 1 := ⟨#v[0], 0 ^ 2 / 2, 2, 20, #[1 ^ 2 / 2, 0 ^ 2 / 2, 0 ^ 2 / 2]⟩
  have hlast : R.Holds 2 (last, true) :=
    ⟨_, hfirst.yields, (Loop.Reaches.refl.step rfl hmoves.yields).step rfl hstays.yields⟩
  have hfinish : (R.finish (last, true)).Computes
      (last.outcome (Vec.norm (last.best - (last.best - #v[0])))) := by
    refine (computes_simplexGradient_simple one_pos 0).bind ((Run.computes_liftM rfl).bind ?_)
    exact (Run.computes_record _).bind (Run.computes_pure (last.outcome _))
  have hhistory : last.history = #[1 / 2, 0, 0] := by norm_num [last]
  have hrun := hlast.computes_run
    (deterministic_routine _ ((Quadratic.simple 1).deterministic 1) _ _) Bool.true_eq_false.mp
    hfinish.yields (show 2 ≤ oneScale.maxSweeps by decide)
  rw [← minimize_eq_run] at hrun
  exact ⟨_, hrun.yields, hhistory⟩

end ImplicitFiltering

/-! ### A fit -/

namespace LevenbergMarquardt

/-- The matrix of order one with the entry `a`. -/
noncomputable def scaling (a : ℝ) : Mat ℝ 1 1 := .diagonal (.replicate 1 a)

/-- The residual `a p`. -/
noncomputable def lineResidual (a : ℝ) : ResidualModel σ ℝ 1 :=
  .linear (scaling a) (#v[0] : Vec ℝ 1) 1

/-- Its linearization at `p`. -/
noncomputable def lineModel (a p : ℝ) : Linearization ℝ :=
  ⟨1, 1, #v[a * p], scaling a⟩

section

variable (a p : ℝ)

theorem scaling_mulVec : scaling a * (#v[p] : Vec ℝ 1) = #v[a * p] := by
  unfold scaling
  rw [Vec.eq_singleton (Mat.diagonal _ * (#v[p] : Vec ℝ 1)), Mat.getElem_diagonal_mulVec]
  rfl

theorem column_scaling : (scaling a).column 0 = #v[a] := by
  rw [Vec.eq_singleton (Mat.column _ _)]
  unfold Mat.column scaling
  rw [Vector.getElem_ofFn, Mat.entry_diagonal]
  rfl

theorem deterministic_lineResidual : (lineResidual a : ResidualModel σ ℝ 1).Deterministic where
  residual _ := (Run.determined_liftM _).bind fun _ => (Run.determined_liftM _).bind fun _ =>
    Run.determined_pure _
  jacobian _ := Run.determined_pure _

theorem computes_lineResidual :
    ((lineResidual a : ResidualModel σ ℝ 1).residual #v[p]).Computes #[a * p] := by
  have hentry : scaling a * (#v[p] : Vec ℝ 1) - #v[0] = #v[a * p] := by
    rw [scaling_mulVec, Vec.singleton_sub, sub_zero]
  have h := congrArg Vector.toArray hentry
  refine (Run.computes_liftM (Vec.fit_self _)).bind ((Run.computes_liftM (Vec.fit_self _)).bind ?_)
  rw [h]
  exact Run.computes_pure _

/-- The linearization is made from the residual and the slope. -/
theorem make_lineModel :
    Linearization.make #[a * p] ⟨1, 1, scaling a⟩ = .ok (lineModel a p) := by
  unfold Linearization.make
  rfl

theorem gradient_lineModel : (lineModel a p).gradient = #v[a * (a * p)] := by
  show Mat.transposeMulVec (scaling a) #v[a * p] = _
  rw [Vec.eq_singleton (Mat.transposeMulVec _ _)]
  unfold Mat.transposeMulVec
  rw [Vector.getElem_ofFn, show (⟨0, Nat.one_pos⟩ : Fin 1) = 0 from rfl, column_scaling,
    Vec.dot_singleton]

theorem stationarity_lineModel : (lineModel a p).gradient.norm = |a * (a * p)| := by
  rw [gradient_lineModel]
  exact Vec.norm_singleton _

theorem halfNormSq_singleton : halfNormSq #[a] = a ^ 2 / 2 := by
  show Vec.dot (#v[a] : Vec ℝ 1) #v[a] * Scalar.half = _
  rw [Vec.dot_singleton, Scalar.half_real]
  ring

variable {a} {damping : ℝ}

/-- With a damping that completes the normal matrix to the identity. -/
theorem normalMatrix_lineModel (h : a * a + damping = 1) :
    (lineModel a p).normalMatrix 1 damping = .ok .identity := by
  -- the only entry is `a² + α`
  have hgram : (scaling a).gram + damping * (Mat.identity : Mat ℝ 1 1) = Mat.identity := by
    ext i j
    obtain rfl : i = 0 := Subsingleton.elim _ _
    obtain rfl : j = 0 := Subsingleton.elim _ _
    rw [Mat.entry_add, Mat.entry_smul, Mat.entry_gram, column_scaling, Vec.dot_singleton,
      Mat.entry_identity, if_pos rfl, mul_one, h]
  have hfit : (scaling a).gram.fit 1 1 = .ok (scaling a).gram := Mat.fit_self _
  rw [← hgram]
  show ((scaling a).gram.fit 1 1 >>= fun gram =>
    pure (gram + damping * (Mat.identity : Mat ℝ 1 1))) = _
  rw [hfit]
  rfl

/-- The trial with that damping is a gradient step. -/
theorem computes_trialPoint_line {config : Config ℝ} (hinner : 0 < config.innerTolerance)
    (h : a * a + damping = 1) (residual : Array ℝ) :
    (trialPoint config (.first #v[p] damping residual (lineModel a p)) : Run σ ℝ _).Computes
      #v[damping * p] := by
  have hpos : 0 < ({ tolerance := config.innerTolerance } : ConjugateGradient.Config ℝ).tolerance :=
    hinner
  have hpoint : (#v[p] : Vec ℝ 1) + -#v[a * (a * p)] = #v[damping * p] := by
    rw [Vec.singleton_neg, Vec.singleton_add,
      show p + -(a * (a * p)) = damping * p by linear_combination -p * h]
  -- the system is that of the identity
  obtain ⟨y, hy, hsolve⟩ := ConjugateGradient.exists_computes_solve (σ := σ) hpos
    (Mat.isPosDef_identity (n := 1)) (Mat.noFill_of_le_two (by decide) _) #v[a * (a * p)]
  rw [← Mat.toLin_apply, Mat.toLin_identity, LinearMap.id_apply] at hy
  subst hy
  rw [← hpoint, ← gradient_lineModel]
  rw [← gradient_lineModel] at hsolve
  exact (Run.computes_liftM (normalMatrix_lineModel p h)).bind (hsolve.bind
    ((Run.computes_liftM (Vec.fit_self _)).bind (Run.computes_pure _)))

end

/-- A tolerance that one trial reaches from two, with a damping that makes it easy to solve for. -/
noncomputable def damped : Config ℝ := { tolerance := 0.4, initialDamping := 0.75 }

/-- Half the residual from two: one trial is accepted and leads within the tolerance. -/
theorem exists_yields_minimize_half [Inhabited σ] :
    ∃ result, (minimizeWithDamping damped (lineResidual (1 / 2) : ResidualModel σ ℝ 1) #v[2]).Yields
      result ∧ result.outcome.history = #[1 / 2, 9 / 32] := by
  set half : ResidualModel σ ℝ 1 := lineResidual (1 / 2)
  set first : State ℝ 1 := .first #v[2] 0.75 #[1 / 2 * 2] (lineModel (1 / 2) 2)
  set last : State ℝ 1 :=
    first.accept damped #v[0.75 * 2] #[1 / 2 * (0.75 * 2)] (lineModel (1 / 2) (0.75 * 2))
  have hvalid : damped.validate = .ok () := by
    norm_num [Config.validate, damped, Scalar.solveTolerance]
  have hinner : 0 < damped.innerTolerance := by
    show (0 : ℝ) < 1e-6
    norm_num
  have hstart : (start damped half #v[2]).Computes first :=
    (computes_lineResidual _ 2).bind ((Run.computes_pure _).bind
      ((Run.computes_liftM (make_lineModel _ 2)).bind (Run.computes_pure first)))
  -- the trial lowers the value from one half to 9 / 32
  have hless : halfNormSq #[1 / 2 * (0.75 * 2)] < first.value := by
    show _ < halfNormSq #[(1 / 2 * 2 : ℝ)]
    rw [halfNormSq_singleton, halfNormSq_singleton]
    norm_num
  have hstep : (step damped half first).Computes last :=
    computes_step_of_lt (computes_trialPoint_line 2 hinner (by norm_num) _)
      (computes_lineResidual _ _) hless (Run.computes_pure _) (make_lineModel _ _)
  have habove : damped.tolerance < first.stationarity := by
    show (0.4 : ℝ) < (lineModel (1 / 2) 2).gradient.norm
    rw [stationarity_lineModel]
    norm_num
  have hwithin : ¬ damped.tolerance < last.stationarity := by
    show ¬ (0.4 : ℝ) < (lineModel (1 / 2) (0.75 * 2)).gradient.norm
    rw [stationarity_lineModel]
    norm_num
  have hrun : (minimizeWithDamping damped half #v[2]).Computes last.result := by
    have hfirst : (routine damped half #v[2]).start.Computes first :=
      (Run.computes_liftM hvalid).bind ((Run.computes_record _).bind hstart)
    have hfinish : ((routine damped half #v[2]).finish last).Computes last.result :=
      (Run.computes_record _).bind (Run.computes_pure last.result)
    have hlast : (routine damped half #v[2]).Holds 1 last :=
      ⟨first, hfirst.yields, .step .refl habove hstep.yields⟩
    rw [minimizeWithDamping_eq_run]
    exact hlast.computes_run (deterministic_routine _ (deterministic_lineResidual _) _) hwithin
      hfinish.yields (show 1 ≤ 1000 by decide)
  refine ⟨_, hrun.yields, ?_⟩
  show #[halfNormSq #[1 / 2 * 2], halfNormSq #[1 / 2 * (0.75 * 2)]] = _
  rw [halfNormSq_singleton, halfNormSq_singleton]
  norm_num

end LevenbergMarquardt

/-! ### Strict descent in these runs -/

/-- One iteration of the first three methods, and a sweep of implicit filtering before the one that
ends it. -/
theorem outcomes_strictly_descend_squares :
    (∃ result, (QuasiNewton.minimizeFrom {} ((Quadratic.simple 1).objective 1 : Objective Unit ℝ 1)
        #v[1] (Mat.diagonal #v[-1] : Mat ℝ 1 1)).Yields result ∧
      result.outcome.history = #[1 / 2, 0] ∧ result.outcome.StrictlyDescends) ∧
    (∃ o, (ProjectedNewton.minimize {} ((ProjectedNewton.parabola 2).objective 1 :
        Objective Unit ℝ 1) (ProjectedNewton.wideBox.projection 1) #v[1]).Yields o ∧
      o.history = #[1, 0] ∧ o.StrictlyDescends) ∧
    (∃ o, (ImplicitFiltering.minimize ImplicitFiltering.oneScale
        ((Quadratic.simple 1).objective 1 : Objective Unit ℝ 1) (.whole 1) #v[1]).Yields o ∧
      o.history = #[1 / 2, 0, 0] ∧ o.DescendsAndSettles) ∧
    ∃ result, (LevenbergMarquardt.minimizeWithDamping LevenbergMarquardt.damped
        (LevenbergMarquardt.lineResidual (1 / 2) : ResidualModel Unit ℝ 1) #v[2]).Yields result ∧
      result.outcome.history = #[1 / 2, 9 / 32] ∧ result.outcome.StrictlyDescends := by
  obtain ⟨hdescents, hfits⟩ := outcomes_strictly_descend (σ := Unit) (n := 1) (m := 1)
  obtain ⟨hquasi, -, hfiltering⟩ := hdescents _ ((Quadratic.simple 1).deterministic 1)
  obtain ⟨-, hprojected, -⟩ := hdescents _ ((ProjectedNewton.parabola 2).deterministic 1)
  refine ⟨?_, ?_, ?_, ?_⟩
  · obtain ⟨last, hlast, -, hhistory⟩ := QuasiNewton.computes_minimizeFrom_uphill (σ := Unit)
    have hfirst : QuasiNewton.uphill.history = #[1 / 2] := by
      show #[(Quadratic.simple 1).value (#v[1] : Vec ℝ 1)] = _
      rw [Quadratic.simple_value, Vec.dot_singleton, mul_one, mul_one]
    rw [hfirst] at hhistory
    exact ⟨_, hlast.yields, hhistory, ((hquasi {} #v[1]).1 1 1 _).1 _ hlast.yields⟩
  · obtain ⟨o, ho, hhistory⟩ := ProjectedNewton.exists_yields_minimize_parabola (σ := Unit)
    exact ⟨o, ho, hhistory, (hprojected {} _ _ (.box _)).1 o ho⟩
  · obtain ⟨o, ho, hhistory⟩ := ImplicitFiltering.exists_yields_minimize_simple (σ := Unit)
    exact ⟨o, ho, hhistory, (hfiltering _ _ _).1 o ho⟩
  · obtain ⟨result, hresult, hhistory⟩ :=
      LevenbergMarquardt.exists_yields_minimize_half (σ := Unit)
    exact ⟨result, hresult, hhistory,
      (hfits _ (LevenbergMarquardt.deterministic_lineResidual _) _ _).1 result hresult⟩

end Downhill
