import Downhill.Proofs.Exact.Quadratic
import Downhill.Proofs.Search.WolfePhases
import Mathlib.Analysis.Calculus.Deriv.MeanValue
import Mathlib.Analysis.SpecificLimits.Basic
import Mathlib.Topology.UniformSpace.HeineCantor

/-!
# The Wolfe-Powell search ends

* `search_computes_of_boundedBelow`: in exact arithmetic, along a direction of descent of a function
  that is bounded below on the ray and has a continuous gradient, the search finds a step for every
  sufficiently large cap.

The three phases end for three reasons, which are facts about a curve `φ` with a negative slope at
zero:

* close to zero the curve lies below every line of a flatter slope
  (`exists_sufficient_of_hasDerivAt`), so halving ends;
* a line with a negative slope falls below every bound (`exists_not_sufficient_of_bounded`), so
  doubling ends;
* between a point below the line and a later one above it the curve is somewhere steeper than the
  line, hence by uniform continuity also at the first point, if the two are close
  (`exists_width_of_bracket`). Bisection halves the bracket, so it ends.
-/

namespace Downhill.WolfePowell

open Filter Topology

/-! ### Curves that start downhill -/

section Curve

variable {φ φ' : ℝ → ℝ} {s σ ρ : ℝ}

/-- Close to zero a curve that starts downhill lies below a flatter line. -/
theorem exists_sufficient_of_hasDerivAt (hφ : HasDerivAt φ s 0) (hs : s < 0) (hσ : σ < 1) :
    ∃ m : ℕ, φ (1 / 2 ^ (m + 1)) ≤ φ 0 + 1 / 2 ^ (m + 1) * σ * s := by
  -- the difference quotients at `2⁻ᵐ` tend to `s`, which is below the slope `σ s` of the line
  have hflatter : s < σ * s := by nlinarith
  have hquotient : ∀ᶠ t in 𝓝[>] (0 : ℝ), t⁻¹ • (φ (0 + t) - φ 0) < σ * s :=
    hφ.tendsto_slope_zero_right.eventually_lt_const hflatter
  have hpow : Tendsto (fun m : ℕ => (1 / 2 : ℝ) ^ (m + 1)) atTop (𝓝[>] 0) :=
    (tendsto_pow_atTop_nhdsWithin_zero_of_lt_one one_half_pos one_half_lt_one).comp
      (tendsto_add_atTop_nat 1)
  obtain ⟨m, hm⟩ := (hpow.eventually hquotient).exists
  refine ⟨m, ?_⟩
  have hpos : (0 : ℝ) < (1 / 2) ^ (m + 1) := by positivity
  rw [smul_eq_mul, zero_add, inv_mul_lt_iff₀ hpos] at hm
  rw [← one_div_pow]
  linarith

/-- A curve that is bounded below does not stay below a falling line. -/
theorem exists_not_sufficient_of_bounded {B : ℝ} (hs : s < 0) (hσ : 0 < σ)
    (hB : ∀ t, 0 ≤ t → B ≤ φ t) :
    ∃ m : ℕ, ¬ φ (1 * 2 ^ (m + 1)) ≤ φ 0 + 1 * 2 ^ (m + 1) * σ * s := by
  have hpos : 0 < σ * -s := mul_pos hσ (neg_pos.mpr hs)
  -- where the line has fallen below the bound
  obtain ⟨m, hm⟩ := pow_unbounded_of_one_lt ((φ 0 - B) / (σ * -s)) (one_lt_two (α := ℝ))
  refine ⟨m, fun hsuff => ?_⟩
  rw [div_lt_iff₀ hpos] at hm
  have hbound := hB (1 * 2 ^ (m + 1)) (by positivity)
  have hgrow : (2 : ℝ) ^ m * (σ * -s) ≤ 2 ^ (m + 1) * (σ * -s) := by
    rw [pow_succ]
    nlinarith [pow_pos (two_pos (α := ℝ)) m]
  nlinarith

/-- In every short bracket the curve is at its lower end not steeper than the condition allows. -/
theorem exists_width_of_bracket (hφ : ∀ t, HasDerivAt φ (φ' t) t) (hφ' : Continuous φ')
    (hs : s < 0) (hρ : σ < ρ) (c T : ℝ) :
    ∃ δ > 0, ∀ a b, 0 ≤ a → b ≤ T → b - a < δ → a < b → φ a ≤ c + a * σ * s →
      ¬ φ b ≤ c + b * σ * s → ρ * s ≤ φ' a := by
  have huniform : UniformContinuousOn φ' (Set.Icc 0 T) :=
    isCompact_Icc.uniformContinuousOn_of_continuous hφ'.continuousOn
  obtain ⟨δ, hδ, hclose⟩ :=
    Metric.uniformContinuousOn_iff.mp huniform ((ρ - σ) * -s) (by nlinarith)
  refine ⟨δ, hδ, fun a b ha hb hwidth hlt hlower hupper => ?_⟩
  obtain ⟨u, ⟨hau, hub⟩, hslope⟩ := exists_hasDerivAt_eq_slope φ φ' hlt
    (fun t _ => (hφ t).continuousAt.continuousWithinAt) (fun t _ => hφ t)
  -- between the ends the curve is somewhere steeper than the line
  have hsteeper : σ * s < φ' u := by
    rw [hslope, lt_div_iff₀ (by linarith)]
    linarith
  -- at the lower end the slope is almost the same
  have hdist := hclose u ⟨by linarith, by linarith⟩ a ⟨ha, by linarith⟩ (by
    rw [Real.dist_eq, abs_of_pos (by linarith)]
    linarith)
  rw [Real.dist_eq] at hdist
  have hnear := (abs_lt.mp hdist).2
  linarith

end Curve

variable {σ : Type} {n : Nat} {F : Vec ℝ n → ℝ} {G : Vec ℝ n → Vec ℝ n}

/-! ### The search along a ray -/

namespace Ray

variable {ray : Ray σ ℝ n}

/-- The search finds a step if its cap suffices for each phase. -/
theorem exists_computes_search (hf : ray.objective.Evaluates F G) {m k : Nat} {δ : ℝ}
    (hhalve : ray.Sufficient F (1 / 2 ^ (m + 1))) (hm : m < ray.params.maxIterations)
    (hdouble : ¬ ray.Sufficient F (1 * 2 ^ (k + 1))) (hk : k < ray.params.maxIterations)
    (hshort : ∀ a b, 0 ≤ a → b ≤ 2 ^ (k + 1) → b - a < δ → ray.Brackets F a b →
      ray.params.rho * ray.slope ≤ (G (ray.pointAt a)).dot ray.direction)
    (hδ : 2 ^ (k + 1) < δ * 2 ^ ray.params.maxIterations) (tally : Tally) :
    ∃ step, (ray.search tally).Computes step := by
  classical
  have hone : (1 : ℝ) ≤ 2 ^ (k + 1) := one_le_pow₀ one_le_two
  by_cases hsuff : ray.Sufficient F 1
  · by_cases hcurv : ray.slopeBound ≤ (G (ray.pointAt 1)).dot ray.direction
    · exact ⟨_, computes_search_of_curvature hf hsuff hcurv tally⟩
    · -- the first doubling without a sufficient decrease
      have hex : ∃ j, ¬ ray.Sufficient F (1 * 2 ^ (j + 1)) := ⟨k, hdouble⟩
      obtain ⟨j, hj, hbefore, hjk⟩ : ∃ j, ¬ ray.Sufficient F (1 * 2 ^ (j + 1)) ∧
          (∀ i < j, ray.Sufficient F (1 * 2 ^ (i + 1))) ∧ j ≤ k :=
        ⟨Nat.find hex, Nat.find_spec hex, fun i hi => not_not.mp (Nat.find_min hex hi),
          Nat.find_min' hex hdouble⟩
      obtain ⟨gradient, tally', hphase, hcarried⟩ :=
        computes_double hf j _ 0 1 (some (G (ray.pointAt 1))) tally.value.gradient
          (hjk.trans_lt hk) (carried_some _) hbefore hj
      have hpos : (0 : ℝ) < 2 ^ j := by positivity
      have hle : (2 : ℝ) ^ (j + 1) ≤ 2 ^ (k + 1) :=
        pow_le_pow_right₀ one_le_two (by omega)
      have hbracket : ray.Brackets F (1 * 2 ^ j) (1 * 2 ^ (j + 1)) := by
        refine ⟨by rw [pow_succ]; linarith, ?_, hj⟩
        rcases j with _ | j
        · rwa [pow_zero, mul_one]
        · exact hbefore j (Nat.lt_succ_self j)
      obtain ⟨step, hstep⟩ := computes_refine hf hshort hbracket (by positivity) (by linarith)
        (by linarith) hcarried tally'
      exact ⟨step, computes_search_of_double hf hsuff hcurv hphase hstep⟩
  · -- the first halving with a sufficient decrease
    have hex : ∃ j, ray.Sufficient F (1 / 2 ^ (j + 1)) := ⟨m, hhalve⟩
    obtain ⟨j, hj, hbefore, hjm⟩ : ∃ j, ray.Sufficient F (1 / 2 ^ (j + 1)) ∧
        (∀ i < j, ¬ ray.Sufficient F (1 / 2 ^ (i + 1))) ∧ j ≤ m :=
      ⟨Nat.find hex, Nat.find_spec hex, fun i hi => Nat.find_min hex hi,
        Nat.find_min' hex hhalve⟩
    obtain ⟨tally', hphase⟩ :=
      computes_halve hf j _ 0 1 tally.value (hjm.trans_lt hm) hbefore hj
    have hpos : (0 : ℝ) < 1 / 2 ^ (j + 1) := by positivity
    have htwice : (1 : ℝ) / 2 ^ (j + 1) * 2 = 1 / 2 ^ j := by
      rw [pow_succ]
      field_simp
    have hle : (1 : ℝ) / 2 ^ j ≤ 1 := by
      rw [div_le_one (by positivity)]
      exact one_le_pow₀ one_le_two
    have hbracket : ray.Brackets F (1 / 2 ^ (j + 1)) (1 / 2 ^ (j + 1) * 2) := by
      refine ⟨by linarith, hj, ?_⟩
      rw [htwice]
      rcases j with _ | j
      · rwa [pow_zero, div_one]
      · exact hbefore j (Nat.lt_succ_self j)
    obtain ⟨step, hstep⟩ := computes_refine hf hshort hbracket hpos.le (by linarith)
      (by linarith) (carried_none _) tally'
    exact ⟨step, computes_search_of_halve hf hsuff hphase hstep⟩

/-- One cap suffices for all rays that differ in their caps only. -/
theorem exists_cap {f : Objective σ ℝ n} (hf : f.Evaluates F G)
    (hgrad : ∀ y, HasGradientAt F (G y) y) (hcont : Continuous G) {x d : Vec ℝ n}
    (hdescent : (G x).dot d < 0) (hbelow : ∃ B, ∀ t : ℝ, 0 ≤ t → B ≤ F (x + t • d))
    {params : SearchParams ℝ} (hsigma : 0 < params.sigma) (hsigma' : params.sigma < 1 / 2)
    (hrho : params.sigma < params.rho) :
    ∃ N, ∀ cap, N ≤ cap → ∀ tally, ∃ step, (Ray.search ⟨f, x, d, F x, (G x).dot d,
      { params with maxIterations := cap }⟩ tally).Computes step := by
  obtain ⟨B, hB⟩ := hbelow
  have hderiv : ∀ t : ℝ, HasDerivAt (fun u : ℝ => F (x + u • d)) ((G (x + t • d)).dot d) t :=
    fun t => hasDerivAt_along (hgrad _)
  have hzero : x + (0 : ℝ) • d = x := by rw [zero_smul, add_zero]
  have hstart : HasDerivAt (fun u : ℝ => F (x + u • d)) ((G x).dot d) 0 := by
    have := hderiv 0
    rwa [hzero] at this
  -- `m` halvings and `k` doublings are enough
  obtain ⟨m, hm⟩ := exists_sufficient_of_hasDerivAt hstart hdescent
    (hsigma'.trans one_half_lt_one)
  obtain ⟨k, hk⟩ := exists_not_sufficient_of_bounded hdescent hsigma hB
  rw [hzero] at hm hk
  obtain ⟨δ, hδ, hshort⟩ := exists_width_of_bracket hderiv (continuous_along hcont x d) hdescent
    hrho (F x) (2 ^ (k + 1))
  -- `l` bisections make every bracket below `2 ^ (k + 1)` shorter than `δ`
  obtain ⟨l, hl⟩ := pow_unbounded_of_one_lt ((2 : ℝ) ^ (k + 1) / δ) one_lt_two
  refine ⟨max (max (m + 1) (k + 1)) l, fun cap hcap tally => ?_⟩
  have hmk : max (m + 1) (k + 1) ≤ cap := (le_max_left _ _).trans hcap
  have hmcap : m + 1 ≤ cap := (le_max_left _ _).trans hmk
  have hkcap : k + 1 ≤ cap := (le_max_right _ _).trans hmk
  have hwidth : (2 : ℝ) ^ (k + 1) < δ * 2 ^ cap := by
    rw [div_lt_iff₀' hδ] at hl
    have hpow : (2 : ℝ) ^ l ≤ 2 ^ cap :=
      pow_le_pow_right₀ one_le_two ((le_max_right _ _).trans hcap)
    exact hl.trans_le (mul_le_mul_of_nonneg_left hpow hδ.le)
  -- the three facts about the curve are those about the ray
  let ray : Ray σ ℝ n :=
    ⟨f, x, d, F x, (G x).dot d, { params with maxIterations := cap }⟩
  have hf' : ray.objective.Evaluates F G := hf
  have hhalve : ray.Sufficient F (1 / 2 ^ (m + 1)) := hm
  have hdouble : ¬ ray.Sufficient F (1 * 2 ^ (k + 1)) := hk
  refine exists_computes_search hf' hhalve hmcap hdouble hkcap ?_ hwidth tally
  intro a b ha hb hab hbracket
  exact hshort a b ha hb hab hbracket.lt hbracket.lower hbracket.upper

end Ray

/-! ### The entry points -/

/-- **Termination**: along a direction of descent of a function that is bounded below on the ray
and has a continuous gradient, both entry points find a step for every sufficiently large cap. -/
theorem search_computes_of_boundedBelow {f : Objective σ ℝ n} (hf : f.Evaluates F G)
    (hgrad : ∀ y, HasGradientAt F (G y) y) (hcont : Continuous G) {x d : Vec ℝ n}
    (hdescent : (G x).dot d < 0) (hbelow : ∃ B, ∀ t : ℝ, 0 ≤ t → B ≤ F (x + t • d))
    {params : SearchParams ℝ} (hsigma : 0 < params.sigma) (hsigma' : params.sigma < 1 / 2)
    (hrho : params.sigma < params.rho) (hrho' : params.rho < 1) :
    ∃ N, ∀ cap, N ≤ cap →
      (∃ step, (search f x d { params with maxIterations := cap }).Computes step) ∧
      ∃ step, (searchFrom f x (F x) (G x) d { params with maxIterations := cap }).Computes
        step := by
  obtain ⟨N, hN⟩ := Ray.exists_cap hf hgrad hcont hdescent hbelow hsigma hsigma' hrho
  -- the check of the parameters asks for a positive cap
  refine ⟨N + 1, fun cap hcap => ?_⟩
  have hvalid : SearchParams.validateWolfePowell { params with maxIterations := cap } = .ok () :=
    validateWolfePowell_eq_ok hsigma hsigma' hrho hrho' (by show 0 < cap; omega)
  have hsearch := hN cap (by omega)
  constructor
  · obtain ⟨step, hstep⟩ := hsearch ⟨1, 1⟩
    exact ⟨step, computes_search_of_run hf (computes_run hdescent hvalid hstep)⟩
  · obtain ⟨step, hstep⟩ := hsearch .none
    exact ⟨step, computes_searchFrom_of_run (computes_run hdescent hvalid hstep)⟩

/-- Half the squared norm is bounded below, so with the default parameters the search along steepest
descent from one ends. -/
theorem search_computes_simple :
    ∃ N, ∀ cap, N ≤ cap →
      (∃ step, (search ((Quadratic.simple 1).objective 1 : Objective Unit ℝ 1) #v[1]
        (#v[-1] : Vec ℝ 1) { SearchParams.wolfePowell with maxIterations := cap }).Computes step) ∧
      ∃ step, (searchFrom ((Quadratic.simple 1).objective 1 : Objective Unit ℝ 1) #v[1]
        ((Quadratic.simple 1).value #v[1]) ((Quadratic.simple 1).gradient #v[1])
        (#v[-1] : Vec ℝ 1) { SearchParams.wolfePowell with maxIterations := cap }).Computes
          step := by
  have hdescent : ((Quadratic.simple 1).gradient (#v[1] : Vec ℝ 1)).dot #v[-1] < 0 := by
    simp [Vec.dot_eq_sum]
  have hbelow : ∀ t : ℝ, 0 ≤ t →
      0 ≤ (Quadratic.simple 1).value ((#v[1] : Vec ℝ 1) + t • (#v[-1] : Vec ℝ 1)) := by
    intro t _
    rw [Quadratic.simple_value]
    have hnonneg := Vec.dot_self_nonneg ((#v[1] : Vec ℝ 1) + t • (#v[-1] : Vec ℝ 1))
    linarith
  have hsigma : 0 < (SearchParams.wolfePowell : SearchParams ℝ).sigma := by
    norm_num [SearchParams.wolfePowell]
  have hsigma' : (SearchParams.wolfePowell : SearchParams ℝ).sigma < 1 / 2 := by
    norm_num [SearchParams.wolfePowell]
  have hrho : (SearchParams.wolfePowell : SearchParams ℝ).sigma < SearchParams.wolfePowell.rho := by
    norm_num [SearchParams.wolfePowell]
  have hrho' : (SearchParams.wolfePowell : SearchParams ℝ).rho < 1 := by
    norm_num [SearchParams.wolfePowell]
  exact search_computes_of_boundedBelow (Quadratic.simple 1).evaluates
    ((Quadratic.simple 1).hasGradientAt Quadratic.simple_isSymm)
    (Quadratic.simple 1).continuous_gradient hdescent ⟨0, hbelow⟩ hsigma hsigma' hrho hrho'

end Downhill.WolfePowell
