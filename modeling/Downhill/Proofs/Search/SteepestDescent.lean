import Downhill.Proofs.Exact.Quadratic
import Downhill.Proofs.Projection.Nearest
import Downhill.Proofs.Search.LeastHalving

/-!
# Backtracking along steepest descent

In exact arithmetic, and with a projection `π` to nearest points, the trial of a step is a
comparison of real numbers (`Path.Accepts`). The outcome of a search along a direction of descent
that the projection does not take back depends on its cap only as long as the cap is too small:

* `exists_computes_search`: if one of the steps `1, 1/2, 1/4, …` is accepted then the search gives
  the same result for every cap that admits it;
* `raises_search_of_not_accepts`: if no step is accepted it fails with every cap.

Along the negative gradient the search succeeds on every quadratic function whose curvature is at
most `L`.

* `search_along_steepest_descent`: with every nonzero cap that reaches a step of at most
  `2 (1 - σ) / L`, the search finds a step, and it is the full step or longer than `(1 - σ) / L`.
  A cap of zero is refused.

For a step along the negative gradient the two projections of a trial are the same point `y`. The
angle at `y` makes the slope towards it steep, `‖x - y‖² ≤ t ⟪g, x - y⟫`
(`Projection.Nearest.sq_norm_sub_le`), and the curvature takes back at most `L / 2 ‖x - y‖²`, so
that each step up to `2 (1 - σ) / L` is accepted (`Path.accepts_of_le`). A step that is not full is
half of one that was not accepted.
-/

namespace Downhill.ProjectedBacktracking

/-! ### Searches that end -/

variable {σ : Type} {n : Nat} {π : Vec ℝ n → Vec ℝ n} {F : Vec ℝ n → ℝ}

namespace Path

variable {path : Path σ ℝ n} {t : ℝ}

/-- The step has the projected sufficient decrease. -/
def Accepts (path : Path σ ℝ n) (π : Vec ℝ n → Vec ℝ n) (F : Vec ℝ n → ℝ) (t : ℝ) : Prop :=
  F (π (path.base + t • path.direction)) ≤
    path.value - path.sigma / t * ‖path.base - π (path.base - t • path.gradient)‖ ^ 2

theorem accepts_iff : path.Accepts π F t ↔ path.Decreases π F t := by
  unfold Accepts Decreases
  rw [Vec.hmul_eq_smul, Vec.hmul_eq_smul, ← real_inner_self_eq_norm_sq]
  rfl

variable (hP : path.projection.Nearest π) (hF : ∀ y, (path.objective.value y).Computes (F y))

include hP

theorem point_eq (t : ℝ) : path.point t = .ok (π (path.base + t • path.direction)) := by
  unfold point
  rw [Vec.hmul_eq_smul, hP.project]

theorem bound_eq (t : ℝ) :
    path.bound t =
      .ok (path.value - path.sigma / t * ‖path.base - π (path.base - t • path.gradient)‖ ^ 2) := by
  unfold bound
  rw [Vec.hmul_eq_smul, hP.gradientStep_eq, ← real_inner_self_eq_norm_sq]
  rfl

include hF

theorem tries (t : ℝ) : path.Tries π F t :=
  ⟨hP.project _, hF _, hP.project _⟩

end Path

variable {f : Objective σ ℝ n} {P : Projection ℝ n} {G : Vec ℝ n → Vec ℝ n} {x d : Vec ℝ n}
  {params : SearchParams ℝ}

section Search

variable (hP : P.Nearest π) (hf : f.Evaluates F G) (hx : π x = x) (hslope : (G x).dot d < 0)
  (hmove : π (x + d) ≠ x)

include hP hf hx

/-- From a feasible point every search evaluates what it asks for. -/
theorem evaluated_of_nearest (params : SearchParams ℝ) :
    Evaluated f P x d params π F (G x) where
  feasible := hP.project x
  gradient := by
    rw [hx]
    exact hf.gradient x
  value := hf.value x
  full := hP.project _
  trial _ _ _ _ := Path.tries hP hf.value _

include hslope hmove

/-- Every cap of at least `k` admits the step `1 / 2 ^ k`. -/
theorem exists_computes_search {k : Nat}
    (haccept : Path.Accepts ⟨f, P, x, d, F x, G x, params.sigma⟩ π F ((1 / 2) ^ k)) :
    ∃ found : Step ℝ n, π found.point = found.point ∧
      ∀ cap, k ≤ cap → { params with maxIterations := cap }.validateBacktracking = .ok () →
        (search f P x d { params with maxIterations := cap }).Computes found := by
  have haccepts : (pathOf f P x d params F (G x)).Decreases π F (Scalar.halved k) :=
    Path.accepts_iff.mp (by rwa [Scalar.halved_real])
  -- an earlier step may be accepted as well, and then ends the search first
  obtain ⟨m, hm, hfirst, hearlier⟩ := Path.exists_first haccepts
  refine ⟨(pathOf f P x d params F (G x)).stepAt π F m, hP.idem _, fun cap hcap hvalid => ?_⟩
  exact computes_search_least (slope_eq_dot _ _) (not_le.mpr hslope)
    (evaluated_of_nearest hP hf hx _) hvalid (beq_eq_false_iff_ne.mpr hmove) (hm.trans hcap)
    hearlier hfirst

/-- If no step is accepted, the search fails whatever its cap. -/
theorem raises_search_of_not_accepts (hvalid : params.validateBacktracking = .ok ())
    (hnone : ∀ t, 0 < t → t ≤ 1 →
      ¬ Path.Accepts ⟨f, P, x, d, F x, G x, params.sigma⟩ π F t) :
    ∃ t, (search f P x d params).Raises
      (.searchFailed .backtracking params.maxIterations t (F x)) := by
  refine ⟨_, raises_search_cap (slope_eq_dot _ _) (not_le.mpr hslope)
    (evaluated_of_nearest hP hf hx _) hvalid (beq_eq_false_iff_ne.mpr hmove) fun k _ => ?_⟩
  -- the trials are powers of one half, so they lie in `(0, 1]`
  rw [← Path.accepts_iff, Scalar.halved_real]
  exact hnone _ (by positivity) (pow_le_one₀ (by norm_num) (by norm_num))

end Search

end Downhill.ProjectedBacktracking

namespace Downhill

/-! ### Steepest descent -/

open scoped InnerProductSpace

variable {σ : Type} {n : Nat}

/-- The projected step `t` against `g` goes downhill by at least `1 / t` times its squared length. -/
theorem Projection.Nearest.sq_norm_sub_le {P : Projection ℝ n} {π : Vec ℝ n → Vec ℝ n}
    (h : P.Nearest π) {x : Vec ℝ n} (hx : π x = x) (g : Vec ℝ n) (t : ℝ) :
    ‖x - π (x - t • g)‖ ^ 2 ≤ t * ⟪g, x - π (x - t • g)⟫_ℝ := by
  -- the angle at the projected point, seen from `x`
  have hobtuse := h.obtuse (x - t • g) x hx
  rw [sub_right_comm, inner_sub_left, real_inner_self_eq_norm_sq, real_inner_smul_left] at hobtuse
  linarith

/-- A quadratic function lies below the parabola of the largest curvature. -/
theorem Quadratic.value_le {q : Quadratic ℝ n} {L : ℝ} (hq : q.matrix.IsSymm)
    (hcurvature : ∀ v : Vec ℝ n, v.dot (q.matrix * v) ≤ L * ‖v‖ ^ 2) (x y : Vec ℝ n) :
    q.value y ≤ q.value x - ⟪q.gradient x, x - y⟫_ℝ + L / 2 * ‖x - y‖ ^ 2 := by
  -- the second-order expansion is exact
  have htangent := q.value_eq_add_inner_add hq x y
  rw [← neg_sub x y, inner_neg_right, neg_sub x y] at htangent
  have hterm := hcurvature (y - x)
  rw [norm_sub_rev] at hterm
  linarith

namespace ProjectedBacktracking

variable {f : Objective σ ℝ n} {P : Projection ℝ n} {π : Vec ℝ n → Vec ℝ n} {F : Vec ℝ n → ℝ}
  {G : Vec ℝ n → Vec ℝ n} {x : Vec ℝ n} {params : SearchParams ℝ} {L t : ℝ}

/-! ### Accepted steps -/

/-- Along steepest descent a step of at most `2 (1 - σ) / L` has the projected sufficient
decrease. -/
theorem Path.accepts_of_le (hP : P.Nearest π) (hx : π x = x)
    (hupper : ∀ y, F y ≤ F x - ⟪G x, x - y⟫_ℝ + L / 2 * ‖x - y‖ ^ 2) {c : ℝ} (ht : 0 < t)
    (hle : t * L ≤ 2 * (1 - c)) : Path.Accepts ⟨f, P, x, -G x, F x, G x, c⟩ π F t := by
  show F (π (x + t • -G x)) ≤ F x - c / t * ‖x - π (x - t • G x)‖ ^ 2
  rw [smul_neg, ← sub_eq_add_neg]
  set y := π (x - t • G x) with hy
  have hslope : ‖x - y‖ ^ 2 / t ≤ ⟪G x, x - y⟫_ℝ := by
    rw [div_le_iff₀' ht]
    exact hP.sq_norm_sub_le hx (G x) t
  -- the bound on the step, divided by it
  have hfactor : L / 2 ≤ 1 / t - c / t := by
    rw [← sub_div, le_div_iff₀ ht]
    linarith
  calc F y ≤ F x - ⟪G x, x - y⟫_ℝ + L / 2 * ‖x - y‖ ^ 2 := hupper y
    _ ≤ F x - ‖x - y‖ ^ 2 / t + (1 / t - c / t) * ‖x - y‖ ^ 2 := by gcongr
    _ = F x - c / t * ‖x - y‖ ^ 2 := by ring

/-! ### The search -/

section Search

variable (hP : P.Nearest π) (hf : f.Evaluates F G) (hx : π x = x) (hmove : π (x - G x) ≠ x)

include hx hmove in
/-- A gradient whose step moves the point is a direction of ascent. -/
theorem slope_neg_gradient_neg : (G x).dot (-G x) < 0 := by
  have hne : G x ≠ 0 := fun hzero => hmove (by rw [hzero, sub_zero, hx])
  rw [← Vec.inner_eq_dot, inner_neg_right, neg_lt_zero]
  exact real_inner_self_pos.mpr hne

include hP hf hx hmove

theorem raises_search_of_zero_cap (hpos : 0 < params.sigma) (hlt : params.sigma < 1)
    (hcap : params.maxIterations = 0) :
    (search f P x (-G x) params).Raises (.invalidSetting .searchCap (.count 0)) := by
  have heval := evaluated_of_nearest hP hf hx params (d := -G x)
  refine raises_search_of_invalid (slope_eq_dot _ _)
    (not_le.mpr (slope_neg_gradient_neg hx hmove)) heval.feasible heval.gradient ?_
  rw [SearchParams.validateBacktracking_eq hpos hlt]
  exact if_pos hcap

/-- If all small steps are accepted, the search finds a step that is full or not small. -/
theorem exists_computes_search_of_small (hvalid : params.validateBacktracking = .ok ()) {T : ℝ}
    (haccept : ∀ t, 0 < t → t ≤ T →
      Path.Accepts ⟨f, P, x, -G x, F x, G x, params.sigma⟩ π F t)
    (hcap : (1 / 2) ^ params.maxIterations ≤ T) :
    ∃ found, (search f P x (-G x) params).Computes found ∧
      (found.size = 1 ∨ T / 2 < found.size) := by
  have hsmall : ∀ k : Nat, (1 / 2) ^ k ≤ T →
      (pathOf f P x (-G x) params F (G x)).Decreases π F (Scalar.halved k) := by
    intro k hk
    refine Path.accepts_iff.mp ?_
    rw [Scalar.halved_real]
    exact haccept _ (by positivity) hk
  have hmove' : π (x + -G x) ≠ x := by rwa [← sub_eq_add_neg]
  -- some step within the cap is accepted, and the search ends with the first one
  obtain ⟨m, hm, hfirst, hearlier⟩ := Path.exists_first (hsmall _ hcap)
  refine ⟨_, computes_search_least (slope_eq_dot _ _)
    (not_le.mpr (slope_neg_gradient_neg hx hmove)) (evaluated_of_nearest hP hf hx params) hvalid
    (beq_eq_false_iff_ne.mpr hmove') hm hearlier hfirst, ?_⟩
  show (Scalar.halved m : ℝ) = 1 ∨ T / 2 < Scalar.halved m
  rw [Scalar.halved_real]
  cases m with
  | zero => exact .inl (pow_zero _)
  | succ k =>
    -- the step before the accepted one is not accepted, so it is not small
    have hlarge : T < (1 / 2) ^ k :=
      not_le.mp fun hle => hearlier k (Nat.lt_succ_self k) (hsmall k hle)
    right
    rw [pow_succ]
    linarith

end Search

/-- **Steepest descent**: a search with `0 < σ < 1` along the negative gradient of a quadratic
function with curvature at most `L`, from a point of a box or a ball that the projected gradient
step moves. With a nonzero cap that admits a step of at most `2 (1 - σ) / L` it succeeds, and the
step is one or longer than `(1 - σ) / L`. With a cap of zero the settings are refused. -/
theorem search_along_steepest_descent {q : Quadratic ℝ n} (hq : q.matrix.IsSymm) (hL : 0 < L)
    (hcurvature : ∀ v : Vec ℝ n, v.dot (q.matrix * v) ≤ L * ‖v‖ ^ 2) (hP : P.IsBoxOrBall)
    (hx : P.project x = .ok x) (hmove : P.project (x - q.gradient x) ≠ .ok x)
    (hpos : 0 < params.sigma) (hlt : params.sigma < 1) :
    (1 ≤ params.maxIterations → (1 / 2) ^ params.maxIterations ≤ 2 * (1 - params.sigma) / L →
      ∃ found,
        (search (q.objective n : Objective σ ℝ n) P x (-q.gradient x) params).Computes found ∧
          (found.size = 1 ∨ (1 - params.sigma) / L < found.size)) ∧
    (params.maxIterations = 0 →
      (search (q.objective n : Objective σ ℝ n) P x (-q.gradient x) params).Raises
        (.invalidSetting .searchCap (.count 0))) := by
  obtain ⟨π, hπ⟩ | ⟨e, e', herror⟩ := hP.nearest_or_error
  · rw [hπ.project, Except.ok.injEq] at hx
    rw [hπ.project, ne_eq, Except.ok.injEq] at hmove
    refine ⟨fun hone hcap => ?_, raises_search_of_zero_cap hπ q.evaluates hx hmove hpos hlt⟩
    have hvalid : params.validateBacktracking = .ok () := by
      rw [SearchParams.validateBacktracking_eq hpos hlt]
      exact if_neg (by omega)
    have haccept : ∀ t, 0 < t → t ≤ 2 * (1 - params.sigma) / L →
        Path.Accepts ⟨(q.objective n : Objective σ ℝ n), P, x, -q.gradient x, q.value x,
          q.gradient x, params.sigma⟩ π q.value t := fun t ht hle =>
      Path.accepts_of_le hπ hx (q.value_le hq hcurvature x) ht ((le_div_iff₀ hL).mp hle)
    have hhalf : 2 * (1 - params.sigma) / L / 2 = (1 - params.sigma) / L := by ring
    rw [← hhalf]
    exact exists_computes_search_of_small hπ q.evaluates hx hmove hvalid haccept hcap
  · -- a projection that refuses every point fixes none
    rw [herror] at hx
    cases hx

/-! ### Half a square on an interval -/

/-- The interval from minus one to one, as a ball. -/
noncomputable def spanBall : Ball ℝ 1 := ⟨.singleton 0, 1⟩

/-- The assumptions on the function, the set and the point hold for half a square at one. -/
theorem steepest_simple :
    (Quadratic.simple 1 : Quadratic ℝ 1).matrix.IsSymm ∧
    (∀ v : Vec ℝ 1, v.dot ((Quadratic.simple 1 : Quadratic ℝ 1).matrix * v) ≤ 1 * ‖v‖ ^ 2) ∧
    (spanBall.projection 1).IsBoxOrBall ∧
    (spanBall.projection 1).project #v[1] = .ok #v[1] ∧
    (spanBall.projection 1).project (#v[1] - (Quadratic.simple 1).gradient #v[1]) ≠ .ok #v[1] := by
  -- points within the radius stay where they are
  have hinside : ∀ a : ℝ, |a| ≤ 1 → (spanBall.projection 1).project #v[a] = .ok #v[a] := by
    intro a ha
    refine (spanBall.projection_eq _).trans (congrArg Except.ok (Ball.shrink_of_le ?_))
    show ‖(#v[a] : Vec ℝ 1) - #v[0]‖ ≤ 1
    rwa [Vec.singleton_sub, sub_zero, Vec.norm_singleton]
  refine ⟨Quadratic.simple_isSymm, fun v => ?_, .ball spanBall one_pos, hinside 1 (by norm_num), ?_⟩
  · rw [Quadratic.simple_matrix_mul, one_mul, ← Vec.inner_eq_dot, real_inner_self_eq_norm_sq]
  · rw [Quadratic.simple_gradient, Vec.singleton_sub, sub_self, hinside 0 (by norm_num)]
    intro h
    exact zero_ne_one (congrArg (fun y : Vec ℝ 1 => y[0]) (Except.ok.inj h))

/-- With one halving the search from one finds the full step, or one that is nearly full. -/
theorem search_along_steepest_descent_simple :
    ∃ found, (search ((Quadratic.simple 1).objective 1 : Objective Unit ℝ 1) (spanBall.projection 1)
        #v[1] (-(Quadratic.simple 1).gradient #v[1])
        { SearchParams.projectedBacktracking with maxIterations := 1 }).Computes found ∧
      (found.size = 1 ∨ (1 - 1e-4) / 1 < found.size) := by
  obtain ⟨hsymm, hcurvature, hP, hx, hmove⟩ := steepest_simple
  have hpos : (0 : ℝ) < 1e-4 := by norm_num
  have hlt : (1e-4 : ℝ) < 1 := by norm_num
  have hreach : ((1 / 2) ^ 1 : ℝ) ≤ 2 * (1 - 1e-4) / 1 := by norm_num
  set params : SearchParams ℝ := { SearchParams.projectedBacktracking with maxIterations := 1 }
  have hsigma : 0 < params.sigma ∧ params.sigma < 1 := ⟨hpos, hlt⟩
  exact (search_along_steepest_descent hsymm one_pos hcurvature hP hx hmove hsigma.1 hsigma.2).1
    le_rfl hreach

/-- Without a halving the search is refused, although even the full step is short enough. -/
theorem search_along_steepest_descent_refused :
    (Quadratic.simple 1 : Quadratic ℝ 1).matrix.IsSymm ∧
    (∀ v : Vec ℝ 1, v.dot ((Quadratic.simple 1 : Quadratic ℝ 1).matrix * v) ≤ 1 * ‖v‖ ^ 2) ∧
    (spanBall.projection 1).IsBoxOrBall ∧
    (spanBall.projection 1).project #v[1] = .ok #v[1] ∧
    (spanBall.projection 1).project (#v[1] - (Quadratic.simple 1).gradient #v[1]) ≠ .ok #v[1] ∧
    (0 : ℝ) < 1e-4 ∧ (1e-4 : ℝ) < 1 ∧ ((1 / 2) ^ 0 : ℝ) ≤ 2 * (1 - 1e-4) / 1 ∧
    (search ((Quadratic.simple 1).objective 1 : Objective Unit ℝ 1) (spanBall.projection 1) #v[1]
      (-(Quadratic.simple 1).gradient #v[1])
      { SearchParams.projectedBacktracking with sigma := 1e-4, maxIterations := 0 }).Raises
        (.invalidSetting .searchCap (.count 0)) := by
  obtain ⟨hsymm, hcurvature, hP, hx, hmove⟩ := steepest_simple
  have hpos : (0 : ℝ) < 1e-4 := by norm_num
  have hlt : (1e-4 : ℝ) < 1 := by norm_num
  refine ⟨hsymm, hcurvature, hP, hx, hmove, hpos, hlt, by norm_num, ?_⟩
  have hnearest := Ball.nearest (b := spanBall) one_pos
  rw [hnearest.project, Except.ok.injEq] at hx
  rw [hnearest.project, ne_eq, Except.ok.injEq] at hmove
  exact raises_search_of_zero_cap hnearest (Quadratic.simple 1).evaluates hx hmove hpos hlt rfl

end ProjectedBacktracking

end Downhill
