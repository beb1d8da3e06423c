import Downhill.Proofs.Method.SplitLoop
import Downhill.Proofs.Method.TruncatedDescent
import Downhill.Proofs.Search.SteepestDescent
import Mathlib.Analysis.SpecificLimits.Basic

/-!
# The line search of projected inexact Newton runs on quadratics

* `minimize_finds_steps`: in exact arithmetic, for a strictly convex quadratic whose curvature is at
  most `L ≥ 1`, over every box: if the decrease parameter is below `1 - L / 4` or, from `L = 2` on,
  below `1 / L`, then every direction of the inner loop has steps with the projected sufficient
  decrease, and no run with a large enough cap on the line search fails with it.
* `minimize_finds_no_step`: without this condition there is a run that fails with it, whatever its
  cap. From `L = 2` on the limit is sharp (`raises_minimize_parabola`).

The sufficient decrease compares the slope along the tangent of the direction with the square of the
tangent of steepest descent, which has no factor for the curvature. Close enough to the start every
step has it if the first exceeds the second times the decrease parameter (`eventually_accepts`).
-/

namespace Downhill.ProjectedNewton

open Filter ProjectedBacktracking Topology

open scoped InnerProductSpace

variable {σ : Type} {n : Nat} {q : Quadratic ℝ n} {b : Box ℝ n} {config : Config ℝ} {L : ℝ}
  {κ : ℝ} {s : State ℝ n}

/-! ### Sufficient decrease -/

/-- If the slope along the tangent is steeper than the decrease that is asked for, all small steps
have that decrease. -/
theorem eventually_accepts (hq : q.matrix.IsSymm) (f : Objective σ ℝ n) (P : Projection ℝ n)
    {x d : Vec ℝ n} {c : ℝ} (hx : b.clamp x = x)
    (hsteep : c * ⟪b.tangent x (-q.gradient x), b.tangent x (-q.gradient x)⟫_ℝ <
      -⟪q.gradient x, b.tangent x d⟫_ℝ) :
    ∀ᶠ t in 𝓝[>] (0 : ℝ),
      Path.Accepts ⟨f, P, x, d, q.value x, q.gradient x, c⟩ b.clamp q.value t := by
  set g := q.gradient x with hg
  set v := b.tangent x d with hv
  set w := ⟪b.tangent x (-g), b.tangent x (-g)⟫_ℝ with hw
  -- for small `t` the curvature takes less than the slope leaves over
  have hsmall := (Box.tendsto_add_mul 0 (v.dot (q.matrix * v))).eventually_lt_const
    (mul_pos two_pos (sub_pos.mpr hsteep))
  filter_upwards [Box.eventually_clamp_add_smul hx d, Box.eventually_clamp_add_smul hx (-g),
    hsmall, self_mem_nhdsWithin] with t hpath hgradient ht hpos
  -- the projected step of steepest descent is its tangent
  have hstep : x - b.clamp (x - t • g) = -(t • b.tangent x (-g)) := by
    rw [sub_eq_add_neg x (t • g), ← smul_neg, hgradient, sub_add_cancel_left]
  have hbound : c / t * ‖x - b.clamp (x - t • g)‖ ^ 2 = c * t * w := by
    rw [hstep, ← real_inner_self_eq_norm_sq, inner_neg_neg, real_inner_smul_left,
      real_inner_smul_right, ← hw]
    field_simp
  -- the value is a parabola along the tangent, and the bound is linear in `t`
  show q.value (b.clamp (x + t • d)) ≤ q.value x - c / t * ‖x - b.clamp (x - t • g)‖ ^ 2
  rw [hbound, hpath, q.value_add_smul hq, ← hg, ← Vec.inner_eq_dot]
  have hscaled := mul_le_mul_of_nonneg_left ht.le (le_of_lt hpos)
  linarith

/-! ### Stages -/

/-- Above the tolerance the tangent of steepest descent is not zero. -/
theorem State.Consistent.tangent_pos (hs : s.Consistent b.clamp q.gradient)
    (hpos : 0 < s.stationarity) :
    0 < ⟪b.tangent s.point (-s.gradient), b.tangent s.point (-s.gradient)⟫_ℝ := by
  rw [real_inner_self_pos]
  intro hzero
  rw [← Box.clamp_add_eq_iff hs.feasible, ← sub_eq_add_neg] at hzero
  rw [hs.stationarity_eq, hzero, sub_self, norm_zero] at hpos
  exact lt_irrefl _ hpos

/-- The tangent of the direction descends as fast as the factor promises. -/
theorem slope_tangent_direction {R : Vec ℝ n →ₗ[ℝ] Vec ℝ n} {last : Inner ℝ n}
    (hκ : DecreaseFactor L κ)
    (hlast : last.Split R κ (b.activeAt s.point) s.point s.gradient) :
    κ * ⟪b.tangent s.point (-s.gradient), b.tangent s.point (-s.gradient)⟫_ℝ ≤
      -⟪s.gradient, b.tangent s.point (direction s last.point)⟫_ℝ := by
  unfold direction
  split_ifs with hagree
  · rw [← inner_neg_left, b.inner_tangent_self]
    exact mul_le_of_le_one_left real_inner_self_nonneg hκ.le_one
  · rcases hlast.stage with ⟨hzero, _⟩ | hdeep
    · -- a loop without a step would have ended at the point itself
      refine absurd ?_ hagree
      rw [sub_eq_zero.mp hzero]
      exact agree_self _ _ _
    · exact slope_tangent_of_deep hκ.pos.le hdeep hlast.keep_point

/-- The reduced Hessian of the quadratic at a stage. -/
noncomputable def stageMap (q : Quadratic ℝ n) (b : Box ℝ n) (s : State ℝ n) :
    Vec ℝ n →ₗ[ℝ] Vec ℝ n :=
  reduced q.matrix.toLin (b.activeAt s.point)

theorem stageMap_isSymmetric (hq : q.matrix.IsSymm) : (stageMap q b s).IsSymmetric :=
  reduced_isSymmetric hq.isSymmetric_toLin

/-- The inner loop at the stage applies it. -/
theorem applies_stageMap (config : Config ℝ) (q : Quadratic ℝ n) (b : Box ℝ n) (s : State ℝ n) :
    (innerProblem config (q.objective n : Objective σ ℝ n) (b.projection n) s).Applies
      (stageMap q b s) :=
  computes_reducedHessian (b.projection_active s.point) (q.computes_hessianProduct s.point)

section Stage

variable (hq : q.matrix.IsPosDef) (hL : 1 ≤ L)
  (hform : ∀ v : Vec ℝ n, v.dot (q.matrix * v) ≤ L * v.dot v) (hκ : DecreaseFactor L κ)
  (htol : 0 < config.tolerance)
  {last : Inner ℝ n} {steps : Nat} {forcing : ℝ} (hforcing : 0 ≤ forcing)
  (hlast : Truncates (stageMap q b s) config.tolerance forcing (innerStart s) last steps)

include hq hL hform hκ htol hforcing hlast

/-- The direction of the inner loop keeps the promise of the factor. -/
theorem slope_tangent_le :
    κ * ⟪b.tangent s.point (-s.gradient), b.tangent s.point (-s.gradient)⟫_ℝ ≤
      -⟪s.gradient, b.tangent s.point (direction s last.point)⟫_ℝ := by
  -- the splitting of the stages is an invariant of the inner loop
  have hsplit : last.Split (stageMap q b s) κ (b.activeAt s.point) s.point s.gradient := by
    refine hlast.invariant (fun stage hbelow hflat h => ?_) (.start _ _ _ _ _)
    exact h.advance hq.isPosDefMap_toLin hL hform hκ htol.le
      (norm_pos_iff.mp (hforcing.trans_lt hbelow)) hflat
  exact slope_tangent_direction hκ hsplit

variable (hs : s.Consistent b.clamp q.gradient) (habove : config.tolerance < s.stationarity)

include hs habove

/-- The projection does not take the direction back. -/
theorem State.Consistent.clamp_add_direction_ne :
    b.clamp (s.point + direction s last.point) ≠ s.point := by
  rw [Ne, Box.clamp_add_eq_iff hs.feasible]
  intro hzero
  have hle := slope_tangent_le hq hL hform hκ htol hforcing hlast
  rw [hzero, inner_zero_right, neg_zero] at hle
  exact hle.not_gt (mul_pos hκ.pos (hs.tangent_pos (htol.trans habove)))

/-- All small steps along the direction have sufficient decrease. -/
theorem State.Consistent.eventually_accepts {c : ℝ} (hc : c < κ)
    (f : Objective σ ℝ n) (P : Projection ℝ n) :
    ∀ᶠ t in 𝓝[>] (0 : ℝ),
      Path.Accepts ⟨f, P, s.point, direction s last.point, q.value s.point, q.gradient s.point, c⟩
        b.clamp q.value t := by
  have hle := slope_tangent_le hq hL hform hκ htol hforcing hlast
  have hstrict := mul_lt_mul_of_pos_right hc (hs.tangent_pos (htol.trans habove))
  rw [hs.gradient_eq] at hle hstrict
  exact ProjectedNewton.eventually_accepts hq.symm f P hs.feasible (hstrict.trans_le hle)

end Stage

/-! ### Runs with a large cap on the line search -/

/-- The settings with another cap on the line search. -/
def Config.withSearchCap (config : Config ℝ) (cap : Nat) : Config ℝ :=
  { config with search := { config.search with maxIterations := cap } }

theorem Config.validate_withSearchCap (h : config.validate = .ok ()) {cap : Nat} (hcap : cap ≠ 0) :
    (config.withSearchCap cap).validate = .ok () := by
  unfold Config.validate SearchParams.validateBacktracking SearchParams.validateCap at h ⊢
  split_ifs at h with htol hsigma
  exact (if_neg htol).trans ((if_neg hsigma).trans (if_neg hcap))

/-- The inner loop does not depend on that cap. -/
theorem computes_inner_withSearchCap {last : Inner ℝ n} {steps : Nat}
    (hlast : Truncates (stageMap q b s) config.tolerance
      (innerProblem config (q.objective n : Objective σ ℝ n) (b.projection n) s).forcing
      (innerStart s) last steps)
    (hsteps : steps ≤ n) (hcap : n ≤ config.innerCap n) (cap : Nat) :
    (inner (config.withSearchCap cap) (q.objective n : Objective σ ℝ n) (b.projection n)
      s).Computes (last.point, steps) := by
  refine hlast.computes (applies_stageMap (config.withSearchCap cap) q b s) rfl rfl ?_
  show steps ≤ 0 + config.innerCap n
  omega

theorem exists_computes_start (q : Quadratic ℝ n) (b : Box ℝ n) (x : Vec ℝ n) :
    ∃ first : State ℝ n,
      (start (q.objective n : Objective σ ℝ n) (b.projection n) x).Computes first ∧
        first.Consistent b.clamp q.gradient :=
  ⟨_, computes_start (b.nearest.project x) (q.evaluates.value _) (q.evaluates.gradient _)
    (stationarity_eq_ok b.nearest _ _), ⟨b.nearest.idem x, rfl, rfl⟩⟩

/-- No line search of the action fails. -/
def SearchNeverFails {β : Type} (action : Run σ ℝ β) : Prop :=
  ∀ cause iterations t value, ¬ action.Fails (.searchFailed cause iterations t value)

section Run

variable (hq : q.matrix.IsPosDef) (hL : 1 ≤ L)
  (hform : ∀ v : Vec ℝ n, v.dot (q.matrix * v) ≤ L * v.dot v)
  (hκ : DecreaseFactor L κ) (hvalid : config.validate = .ok ())
  (hsigma : config.search.sigma < κ)
  (hcap : ∀ cap ∈ config.maxInnerIterations, n ≤ cap)

include hq hL hform hκ hvalid hsigma hcap

/-- With a large enough cap on the line search an iteration leads to the same next stage. -/
theorem State.Consistent.exists_computes_step (hs : s.Consistent b.clamp q.gradient)
    (habove : config.tolerance < s.stationarity) :
    ∃ s' : State ℝ n, s'.Consistent b.clamp q.gradient ∧ ∃ N, ∀ cap, N ≤ cap →
      (ProjectedNewton.step (config.withSearchCap cap) (q.objective n : Objective σ ℝ n)
        (b.projection n) s).Computes s' := by
  have htol := validate_tolerance_pos hvalid
  have hforcing : 0 ≤ (innerProblem config (q.objective n : Objective σ ℝ n) (b.projection n)
      s).forcing := forcing_nonneg (htol.trans habove).le
  have hmap := stageMap_isSymmetric (b := b) (s := s) hq.symm
  have hstart : (innerStart s).Exact (stageMap q b s) s.point s.gradient := .start _ _ _
  obtain ⟨last, steps, hlast⟩ :=
    exists_truncates hmap htol.le hforcing hstart (Nat.le_add_left n _)
  -- the line search ends, because the direction descends and its small steps are accepted
  have hslope := slope_direction_neg (hs.gradient_ne_zero (htol.trans habove))
    (hlast.exact hmap htol.le hforcing hstart)
  rw [hs.gradient_eq] at hslope
  have hlim : Tendsto (fun k : Nat => (1 / 2 : ℝ) ^ k) atTop (𝓝[>] 0) :=
    tendsto_pow_atTop_nhdsWithin_zero_of_lt_one (by norm_num) (by norm_num)
  obtain ⟨k, hk⟩ := (hlim.eventually (hs.eventually_accepts hq hL hform hκ htol hforcing hlast habove
    hsigma (q.objective n : Objective σ ℝ n) (b.projection n))).exists
  obtain ⟨found, hfeasible, hfound⟩ := exists_computes_search b.nearest q.evaluates hs.feasible
    hslope (hs.clamp_add_direction_ne hq hL hform hκ htol hforcing hlast habove) hk
  refine ⟨s.moveTo found (q.gradient found.point)
    ‖found.point - b.clamp (found.point - q.gradient found.point)‖, ⟨hfeasible, rfl, rfl⟩, k + 1,
    fun cap hle => ?_⟩
  have hpos : cap ≠ 0 := by omega
  have hsearch := hfound cap (by omega)
    (Config.validateBacktracking_of_validate (Config.validate_withSearchCap hvalid hpos))
  exact computes_step (computes_inner_withSearchCap hlast
    (hlast.steps_le hmap htol.le hforcing hstart) (Config.le_innerCap hcap) cap) hsearch
    (q.evaluates.gradient _) (stationarity_eq_ok b.nearest _ _)

/-- From a cap on the line search on, no line search of the loop fails. -/
theorem State.Consistent.exists_forall_iterate :
    ∀ {remaining : Nat} {s : State ℝ n}, s.Consistent b.clamp q.gradient →
      ∃ N, ∀ cap, N ≤ cap → SearchNeverFails
        (iterate (config.withSearchCap cap) (q.objective n : Objective σ ℝ n) (b.projection n)
          remaining s) := by
  intro remaining
  -- by induction on the iterations that are left
  induction remaining with
  | zero =>
    intro s _
    refine ⟨0, fun cap _ cause iterations t value h => ?_⟩
    obtain ⟨_, h | ⟨k, hk, _⟩⟩ := iterate_fails h
    · cases h
    · omega
  | succ remaining ih =>
    intro s hs
    by_cases habove : config.tolerance < s.stationarity
    · -- all caps from `N` on lead to the same next stage, so one bound serves the rest of the run
      obtain ⟨s', hs', N, hstep⟩ :=
        hs.exists_computes_step (σ := σ) hq hL hform hκ hvalid hsigma hcap habove
      obtain ⟨N', hrest⟩ := ih hs'
      refine ⟨max N N', fun cap hle cause iterations t value h => ?_⟩
      have hnext := hstep cap ((le_max_left _ _).trans hle)
      obtain ⟨_, h | ⟨k, hk, h | ⟨next, hyields, h⟩⟩⟩ := iterate_fails h
      · cases h
      · exact hnext.not_fails h
      · obtain rfl : remaining = k := by omega
        rw [hnext.eq_of_yields hyields] at h
        exact hrest cap ((le_max_right _ _).trans hle) _ _ _ _ h
    · exact ⟨0, fun cap _ cause iterations t value h => habove (iterate_fails h).1⟩

theorem exists_forall_minimize (b : Box ℝ n) (x : Vec ℝ n) :
    ∃ N, ∀ cap, N ≤ cap → SearchNeverFails
      (minimize (config.withSearchCap cap) (q.objective n : Objective σ ℝ n) (b.projection n)
        x) := by
  obtain ⟨first, hfirst, hconsistent⟩ := exists_computes_start (σ := σ) q b x
  obtain ⟨N, hN⟩ := hconsistent.exists_forall_iterate (σ := σ) hq hL hform hκ hvalid hsigma hcap
  refine ⟨N, fun cap hle cause iterations t value h => ?_⟩
  -- neither the settings nor the start are a failed line search
  rcases minimize_fails h with h | h | ⟨first', _, hyields, h⟩
  · obtain ⟨_, _, h⟩ := validate_eq_error h
    cases h
  · exact fails_start_of_nearest b.nearest q.evaluates h
  · rw [hfirst.eq_of_yields hyields] at h
    exact hN cap hle _ _ _ _ h

end Run

/-! ### Parabolas -/

/-- The function `L / 2 x²`. -/
noncomputable def parabola (L : ℝ) : Quadratic ℝ 1 := ⟨.diagonal (.singleton L), .zero, 0⟩

section Parabola

variable {L r x : ℝ}

theorem parabola_mulVec (L x : ℝ) : (parabola L).matrix * #v[x] = #v[L * x] := by
  rw [Vec.eq_singleton ((parabola L).matrix * #v[x])]
  exact congrArg (fun y => #v[y]) (Mat.getElem_diagonal_mulVec _ _ 0 Nat.one_pos)

theorem parabola_gradient (L x : ℝ) : (parabola L).gradient #v[x] = #v[L * x] := by
  rw [Quadratic.gradient_eq, Mat.toLin_apply, parabola_mulVec]
  exact add_zero _

theorem parabola_value (L x : ℝ) : (parabola L).value #v[x] = L / 2 * x ^ 2 := by
  have hlinear : ⟪(parabola L).linear, #v[x]⟫_ℝ = 0 := inner_zero_left (#v[x] : Vec ℝ 1)
  rw [Quadratic.value_eq, Mat.toLin_apply, parabola_mulVec, hlinear, Vec.inner_eq_dot,
    Vec.dot_singleton]
  show 1 / 2 * (x * (L * x)) + 0 + 0 = _
  ring

theorem parabola_isPosDef (hL : 0 < L) : (parabola L).matrix.IsPosDef :=
  Mat.isPosDef_diagonal fun i => by
    obtain rfl : i = 0 := Subsingleton.elim _ _
    exact hL

/-- Away from the ends of the interval no coordinate is active. -/
theorem activeAt_interval (hlower : 1 - r ≤ x) (hupper : x ≤ r - 1) :
    (interval r).activeAt #v[x] = [] := by
  unfold Box.activeAt
  rw [List.filter_eq_nil_iff]
  intro i _
  obtain rfl : i = 0 := Subsingleton.elim _ _
  have htol : (Scalar.activeTolerance : ℝ) < 1 := by
    show (1e-6 : ℝ) < 1
    norm_num
  rw [Bool.or_eq_true, decide_eq_true_eq, decide_eq_true_eq, not_or, not_le, not_le]
  show Scalar.activeTolerance < x - -r ∧ Scalar.activeTolerance < r - x
  constructor <;> linarith

/-- The first stage at one. -/
noncomputable def parabolaStage (L : ℝ) : State ℝ 1 :=
  ⟨.singleton 1, (parabola L).value (.singleton 1), .singleton L, L, 0, ⟨1, 1⟩,
    #[(parabola L).value (.singleton 1)]⟩

/-- At one the stationarity is the length of the gradient. -/
theorem stationarity_parabola (hL : 0 < L) (hr : L + 1 ≤ r) :
    stationarity ((interval r).projection 1) #v[1] #v[L] = .ok L := by
  rw [stationarity_eq_ok (interval r).nearest, Vec.singleton_sub,
    clamp_interval (by linarith) (by linarith), Vec.singleton_sub, Vec.norm_singleton,
    sub_sub_cancel, abs_of_pos hL]

theorem computes_start_parabola (hL : 0 < L) (hr : L + 1 ≤ r) :
    (start ((parabola L).objective 1 : Objective σ ℝ 1) ((interval r).projection 1)
      #v[1]).Computes (parabolaStage L) := by
  have hvalue := (parabola L).evaluates (σ := σ) |>.value (#v[1] : Vec ℝ 1)
  have hgradient := (parabola L).evaluates (σ := σ) |>.gradient (#v[1] : Vec ℝ 1)
  rw [parabola_gradient, mul_one] at hgradient
  refine computes_start ?_ hvalue hgradient (stationarity_parabola hL hr)
  rw [(interval r).projection_eq, clamp_interval (by linarith) (by linarith)]
  rfl

/-- There the reduced Hessian is the Hessian. -/
theorem stageMap_parabola (hL : 1 ≤ L) (hr : L + 1 ≤ r) (x : ℝ) :
    stageMap (parabola L) (interval r) (parabolaStage L) #v[x] = #v[L * x] := by
  have hactive : (interval r).activeAt (parabolaStage L).point = [] :=
    activeAt_interval (by linarith) (by linarith)
  unfold stageMap
  rw [hactive, reduced_nil, Mat.toLin_apply, parabola_mulVec]

/-- The inner loop reaches the minimum with its first step. -/
theorem computes_inner_parabola (htol : config.tolerance < L) (hL : 1 ≤ L) (hr : L + 1 ≤ r)
    (hcap : 1 ≤ config.innerCap 1) :
    (inner config ((parabola L).objective 1 : Objective σ ℝ 1) ((interval r).projection 1)
      (parabolaStage L)).Computes (#v[0], 1) := by
  have hpos : 0 < L := by linarith
  set R := stageMap (parabola L) (interval r) (parabolaStage L) with hR
  set s := innerStart (parabolaStage L) with hs
  have hdirection : s.direction = #v[-L] := Vec.singleton_neg L
  have himage : R s.direction = #v[L * -L] := by
    rw [hdirection, hR, stageMap_parabola hL hr]
  -- the step has the length `1 / L`, which is exact
  have hstep : ⟪s.residual, s.residual⟫_ℝ / ⟪s.direction, R s.direction⟫_ℝ = 1 / L := by
    show Vec.dot #v[L] #v[L] / Vec.dot s.direction (R s.direction) = 1 / L
    rw [himage, hdirection, Vec.dot_singleton, Vec.dot_singleton]
    field_simp
  have hpoint : (s.advance (R s.direction)).point = #v[0] := by
    rw [← sub_add_cancel (s.advance (R s.direction)).point s.point, Inner.advance_point_sub, hstep,
      hdirection, sub_self, zero_add, Vec.singleton_smul]
    show #v[1 / L * -L] + #v[1] = (#v[0] : Vec ℝ 1)
    rw [Vec.singleton_add, mul_neg, one_div_mul_cancel hpos.ne', neg_add_cancel]
  have hresidual : (s.advance (R s.direction)).residual = #v[0] := by
    rw [Inner.advance_residual, hstep, himage]
    show #v[L] + (1 / L) • #v[L * -L] = (#v[0] : Vec ℝ 1)
    rw [Vec.singleton_smul, Vec.singleton_add, ← mul_assoc, one_div_mul_cancel hpos.ne', one_mul,
      add_neg_cancel]
  have hlast : Truncates R config.tolerance (1 / 2 * L) s (s.advance (R s.direction)) 1 := by
    refine .step ?_ ?_ (.within ?_)
    · show 1 / 2 * L < ‖(#v[L] : Vec ℝ 1)‖
      rw [Vec.norm_singleton, abs_of_pos hpos]
      linarith
    · show ¬ Vec.dot s.direction (R s.direction) ≤
        config.tolerance * Vec.dot s.direction s.direction
      have hcurv := mul_lt_mul_of_pos_right htol (mul_pos hpos hpos)
      rw [himage, hdirection, Vec.dot_singleton, Vec.dot_singleton, not_le]
      linarith
    · rw [hresidual, Vec.norm_singleton, abs_zero, not_lt]
      linarith
  -- the forcing term is half the gradient at most
  have hforcing : (innerProblem config ((parabola L).objective 1 : Objective σ ℝ 1)
      ((interval r).projection 1) (parabolaStage L)).forcing = 1 / 2 * L := by
    show Scalar.min Scalar.half L * L = 1 / 2 * L
    rw [Scalar.min_real, Scalar.half_real, min_eq_left (by linarith)]
  have hends := hlast.computes (applies_stageMap config (parabola L) (interval r) _) rfl hforcing
    (hcap.trans (Nat.le_add_left _ _))
  rwa [hpoint] at hends

/-- The direction leads from one to zero. -/
theorem direction_parabola (L : ℝ) : direction (parabolaStage L) #v[0] = #v[-1] := by
  -- zero and one are no neighbours, so this is the point of the inner loop
  have hagree : Vec.agree 1e-8 1e-5 (#v[0] : Vec ℝ 1) #v[1] = false := by
    norm_num [Vec.agree, Scalar.agree]
  unfold direction
  rw [if_neg (by rw [Bool.not_eq_true]; exact hagree)]
  show (#v[0] : Vec ℝ 1) - #v[1] = _
  rw [Vec.singleton_sub, zero_sub]

/-- No step leads as far down as it is asked to. -/
theorem not_accepts_parabola {c t : ℝ} (hc : 1 ≤ c * L) (hL : 0 < L) (hr : L + 1 ≤ r)
    (f : Objective σ ℝ 1) (P : Projection ℝ 1) (hpos : 0 < t) (hle : t ≤ 1) :
    ¬ Path.Accepts ⟨f, P, #v[1], #v[-1], L / 2, #v[L], c⟩ (interval r).clamp (parabola L).value
      t := by
  have hstep : 0 < t * L := mul_pos hpos hL
  have hstep' : t * L ≤ L := mul_le_of_le_one_left hL.le hle
  unfold Path.Accepts
  dsimp only
  rw [Vec.singleton_smul, Vec.singleton_add, clamp_interval (by linarith) (by linarith),
    parabola_value, Vec.singleton_smul, Vec.singleton_sub, clamp_interval (by linarith)
    (by linarith), Vec.singleton_sub, Vec.norm_singleton, sq_abs, sub_sub_cancel, not_le]
  -- the step of steepest descent is not cut off
  have hbound : c / t * (t * L) ^ 2 = c * L * (t * L) := by
    field_simp
  have hasked := mul_le_mul_of_nonneg_right hc hstep.le
  have hsquare : 0 < L * t ^ 2 := by positivity
  rw [hbound]
  linarith

/-- Settings that ask for at least `1 / L` of the decrease make the line search fail, whatever its
cap. -/
theorem raises_minimize_parabola (hvalid : config.validate = .ok ()) (htol : config.tolerance < L)
    (hL : 1 ≤ L) (hr : L + 1 ≤ r) (hsigma : 1 ≤ config.search.sigma * L)
    (hinner : 1 ≤ config.innerCap 1) (hcap : config.maxIterations ≠ 0) :
    ∃ t, (minimize config ((parabola L).objective 1 : Objective σ ℝ 1) ((interval r).projection 1)
      #v[1]).Raises (.searchFailed .backtracking config.search.maxIterations t (L / 2)) := by
  have hpos : 0 < L := by linarith
  have hvalue : (parabola L).value #v[1] = L / 2 := by rw [parabola_value, one_pow, mul_one]
  have hgradient : (parabola L).gradient #v[1] = #v[L] := by rw [parabola_gradient, mul_one]
  have hx : (interval r).clamp #v[1] = #v[1] := clamp_interval (by linarith) (by linarith)
  have hslope : ((parabola L).gradient #v[1]).dot #v[-1] < 0 := by
    rw [hgradient, Vec.dot_singleton]
    linarith
  -- the direction is not taken back by the projection
  have hmove : (interval r).clamp (#v[1] + #v[-1]) ≠ #v[1] := by
    rw [Vec.singleton_add, add_neg_cancel, clamp_interval (by linarith) (by linarith)]
    intro h
    exact zero_ne_one (congrArg (fun y : Vec ℝ 1 => y[0]) h)
  obtain ⟨t, h⟩ := raises_search_of_not_accepts (interval r).nearest
    ((parabola L).evaluates (σ := σ)) hx hslope hmove
    (Config.validateBacktracking_of_validate hvalid) fun t ht hle => by
      rw [hvalue, hgradient]
      exact not_accepts_parabola hsigma hpos hr _ _ ht hle
  rw [hvalue] at h
  refine ⟨t, raises_minimize hvalid (computes_start_parabola hpos hr) htol hcap
    (raises_step (computes_inner_parabola htol hL hr hinner) ?_)⟩
  rw [direction_parabola]
  exact h

end Parabola

/-! ### The line search -/

/-- **The line search finds steps** along the directions of the inner loop: for a strictly convex
quadratic with curvature of at most `L`, a box, and valid settings that ask for less decrease than
`1 - L / 4` or, from `L = 2` on, than `1 / L`,

* from each stage above the tolerance, all small enough steps along the direction have the projected
  sufficient decrease;
* no run with a large enough cap on the line search fails with it. -/
theorem minimize_finds_steps {m : Nat} (hq : q.matrix.IsPosDef) (hL : 1 ≤ L)
    (hform : ∀ v : Vec ℝ n, v.dot (q.matrix * v) ≤ L * v.dot v) (b : Box ℝ m)
    (hvalid : config.validate = .ok ())
    (hsigma : config.search.sigma < if L ≤ 2 then 1 - L / 4 else 1 / L)
    (hcap : ∀ cap ∈ config.maxInnerIterations, n ≤ cap) (x : Vec ℝ n) :
    (∀ s v steps,
      Reached config (q.objective n : Objective σ ℝ n) (b.projection n) x s →
      config.tolerance < s.stationarity →
      (inner config (q.objective n : Objective σ ℝ n) (b.projection n) s).Yields (v, steps) →
      ∃ ε > 0, ∀ t, 0 < t → t < ε → ∃ y z,
        (b.projection n).project (s.point + t • direction s v) = .ok y ∧
        (b.projection n).project (s.point - t • q.gradient s.point) = .ok z ∧
        q.value y ≤ q.value s.point - config.search.sigma / t * ‖s.point - z‖ ^ 2) ∧
    ∃ N, ∀ cap, N ≤ cap → SearchNeverFails
      (minimize (config.withSearchCap cap) (q.objective n : Objective σ ℝ n) (b.projection n)
        x) := by
  have hκ := decreaseFactor_ite (zero_le_one.trans hL)
  by_cases hm : m = n
  · subst hm
    refine ⟨fun s v steps hs habove hinner => ?_, ?_⟩
    · have htol := validate_tolerance_pos hvalid
      have hconsistent := hs.consistent b.nearest q.evaluates
      obtain ⟨last, hlast, rfl⟩ := truncates_of_yields (applies_stageMap config q b s) hinner
      have haccepts := hconsistent.eventually_accepts hq hL hform hκ htol
        (forcing_nonneg (htol.trans habove).le) hlast habove hsigma
        (q.objective m : Objective σ ℝ m) (b.projection m)
      obtain ⟨ε, hε, hsmall⟩ := mem_nhdsGT_iff_exists_Ioo_subset.mp haccepts
      exact ⟨ε, hε, fun t hpos hlt =>
        ⟨_, _, b.projection_eq _, b.projection_eq _, hsmall ⟨hpos, hlt⟩⟩⟩
    · exact exists_forall_minimize hq hL hform hκ hvalid hsigma hcap b x
  · -- a box of another dimension refuses every point
    refine ⟨fun s _ _ hs => absurd hs (not_reached_of_error (b.project_eq_error hm)),
      0, fun cap _ cause iterations t value h => ?_⟩
    rcases fails_minimize_of_error (b.project_eq_error hm) q.evaluates h with ⟨_, _, h⟩ | h <;>
      cases h

/-- The square in the box from `-10` to `10`: at one, all small steps along the direction have
sufficient decrease. -/
theorem minimize_finds_steps_parabola :
    (∃ ε > 0, ∀ t : ℝ, 0 < t → t < ε → ∃ y z,
      (wideBox.projection 1).project (#v[1] + t • #v[-1]) = .ok y ∧
      (wideBox.projection 1).project (#v[1] - t • #v[2]) = .ok z ∧
      (parabola 2).value y ≤ 1 - 1e-4 / t * ‖#v[1] - z‖ ^ 2) ∧
    ∃ N, ∀ cap, N ≤ cap → SearchNeverFails
      (minimize (Config.withSearchCap {} cap) ((parabola 2).objective 1 : Objective Unit ℝ 1)
        (wideBox.projection 1) #v[1]) := by
  have hform : ∀ v : Vec ℝ 1, v.dot ((parabola 2).matrix * v) ≤ 2 * v.dot v := by
    intro v
    rw [Vec.eq_singleton v, parabola_mulVec, Vec.dot_singleton, Vec.dot_singleton]
    exact le_of_eq (by ring)
  have hsigma : ({} : Config ℝ).search.sigma < if (2 : ℝ) ≤ 2 then 1 - 2 / 4 else 1 / 2 := by
    show (1e-4 : ℝ) < _
    norm_num
  have hcap : ∀ cap ∈ Config.maxInnerIterations ({} : Config ℝ), 1 ≤ cap := by
    intro cap h
    cases h
  obtain ⟨hstages, hrun⟩ := minimize_finds_steps (σ := Unit) (parabola_isPosDef two_pos) one_le_two
    hform wideBox default_validate hsigma hcap #v[1]
  have hfirst : Reached {} ((parabola 2).objective 1 : Objective Unit ℝ 1) (wideBox.projection 1)
      #v[1] (parabolaStage 2) :=
    .start default_validate (computes_start_parabola two_pos (by norm_num)).yields
  have habove : ({} : Config ℝ).tolerance < 2 := by
    show (1e-3 : ℝ) < 2
    norm_num
  have hinner := computes_inner_parabola (σ := Unit) (L := 2) (r := 10) habove one_le_two
    (by norm_num) (by decide)
  have hsmall := hstages _ _ _ hfirst habove hinner.yields
  have hpoint : (parabolaStage 2).point = #v[1] := rfl
  have hvalue : (parabola 2).value #v[1] = 1 := by
    rw [parabola_value]
    norm_num
  rw [direction_parabola, hpoint, hvalue, parabola_gradient, mul_one] at hsmall
  exact ⟨hsmall, hrun⟩

/-- Default settings that ask for nine tenths of the decrease. -/
noncomputable def demanding : Config ℝ :=
  { search := { SearchParams.projectedBacktracking with sigma := 0.9 } }

/-- Half of the decrease is all that there is, so no cap on the line search is large enough for nine
tenths. -/
theorem minimize_finds_no_step :
    (parabola 2).matrix.IsPosDef ∧ demanding.validate = .ok () ∧
      demanding.maxInnerIterations = none ∧
      ¬ ∃ N, ∀ cap, N ≤ cap → SearchNeverFails
        (minimize (demanding.withSearchCap cap) ((parabola 2).objective 1 : Objective Unit ℝ 1)
          (wideBox.projection 1) #v[1]) := by
  have htol : ¬ demanding.tolerance ≤ 0 := by
    show ¬ (1e-3 : ℝ) ≤ 0
    norm_num
  have hsearch : demanding.search.validateBacktracking = .ok () := by
    norm_num [SearchParams.validateBacktracking, SearchParams.validateCap, demanding,
      SearchParams.projectedBacktracking, SearchParams.wolfePowell]
  have hvalid : demanding.validate = .ok () := by
    unfold Config.validate
    exact (if_neg htol).trans hsearch
  have hbelow : demanding.tolerance < 2 := by
    show (1e-3 : ℝ) < 2
    norm_num
  have hasked : 1 ≤ demanding.search.sigma * 2 := by
    show (1 : ℝ) ≤ 0.9 * 2
    norm_num
  refine ⟨parabola_isPosDef two_pos, hvalid, rfl, ?_⟩
  -- every cap is admitted, so the one after the bound would have to do
  rintro ⟨N, hN⟩
  obtain ⟨t, h⟩ := raises_minimize_parabola (σ := Unit) (L := 2) (r := 10)
    (Config.validate_withSearchCap hvalid N.succ_ne_zero) hbelow one_le_two (by norm_num)
    hasked (show 1 ≤ 10 * 1 by decide) (show 1000 ≠ 0 by decide)
  exact hN (N + 1) (Nat.le_succ N) _ _ _ _ h.fails

end Downhill.ProjectedNewton
