import Downhill.Proofs.Exact.Quadratic
import Downhill.Proofs.Search.WolfePhases

/-!
# The conditions at a step of the Wolfe-Powell search

`IsWolfeStep` says what a step promises: its point lies on the ray, its value and its gradient are
those at its point, and both Wolfe conditions hold as the search computes them.

* `found_isWolfeStep`: every step that one of the two entry points gives is of this kind, whatever
  the objective and over every arithmetic with total comparisons; over the reals it is positive.
* `run_fails`: the search refuses its direction or its parameters before it starts; after that only
  a cap or an evaluation of the objective can make it fail.

The search changes its trial in three loops. What they all preserve is `Ray.Accepts`: the trial
belongs to its step, and its decrease is sufficient. A gradient is carried beside a trial only in
`Ray.Bracket` and in the arguments of `Ray.bisect`, and there it was evaluated at that trial's
point (`Ray.Holds`). That a step stays positive is carried along as a property `P` of steps that
one, halves, doubles and midpoints have (`Ray.Reachable`).
-/

namespace Downhill

theorem SearchParams.sigma_pos_of_validateWolfePowell {α : Type} [Scalar α]
    {params : SearchParams α} (h : params.validateWolfePowell = .ok ()) : 0 < params.sigma := by
  unfold validateWolfePowell at h
  split_ifs at h with hsigma
  rw [Bool.not_eq_true', Bool.not_eq_false, Bool.and_eq_true] at hsigma
  exact of_decide_eq_true hsigma.1

namespace WolfePowell

variable {σ α : Type} [Scalar α] {n k g : Nat}

/-- What a step `step` promises of the objective `f` along `d` from `x`, where the value and the
gradient at `x` are `value` and `gradient`. -/
structure IsWolfeStep (f : Objective σ α n) (params : SearchParams α) (x d : Vec α n) (value : α)
    (gradient : Vec α n) (step : Step α n) : Prop where
  /-- The point is the one at the step. -/
  point_eq : step.point = x + step.size * d
  /-- The value was evaluated at the point. -/
  value_at : (f.value step.point).Yields step.value
  /-- The gradient was evaluated at the point. -/
  gradient_at : (f.gradient step.point).Yields step.gradient
  /-- The decrease is sufficient. -/
  decrease : step.value ≤ value + step.size * params.sigma * gradient.dot d
  /-- The curvature condition holds. -/
  curvature : params.rho * gradient.dot d ≤ step.gradient.dot d

namespace Ray

variable {ray : Ray σ α n} {P : α → Prop}

/-! ### Trials -/

/-- A property of steps that the search cannot leave. -/
structure Reachable (P : α → Prop) : Prop where
  one : P 1
  half : ∀ {t}, P t → P (t * Scalar.half)
  double : ∀ {t}, P t → P (t * Scalar.two)
  middle : ∀ {s t}, P s → P t → P ((s + t) * Scalar.half)

/-- A trial that belongs to its step, with a sufficient decrease. -/
structure Accepts (ray : Ray σ α n) (P : α → Prop) (trial : Trial α n) : Prop where
  size : P trial.size
  point_eq : trial.point = ray.base + trial.size * ray.direction
  value_at : (ray.objective.value trial.point).Yields trial.value
  decreases : ray.decreases trial = true

theorem size_of_yields_trial {t : α} {trial : Trial α n} (h : (ray.trial t).Yields trial) :
    trial.size = t := by
  unfold Ray.trial at h
  obtain ⟨value, -, h⟩ := Run.exists_of_yields_bind h
  rw [Run.eq_of_yields_pure h]

theorem accepts_of_yields_trial {t : α} {trial : Trial α n} (h : (ray.trial t).Yields trial)
    (ht : P t) (hdec : ray.decreases trial = true) : ray.Accepts P trial := by
  unfold Ray.trial at h
  obtain ⟨value, hvalue, h⟩ := Run.exists_of_yields_bind h
  obtain rfl := Run.eq_of_yields_pure h
  exact ⟨ht, rfl, hvalue, hdec⟩

/-! ### The phases -/

theorem accepts_of_yields_halve (hP : Reachable P) :
    ∀ {remaining taken : Nat} {t : α} {tally tally' : Tally} {trial : Trial α n},
      P t → (ray.halve remaining taken t tally).Yields (trial, tally') → ray.Accepts P trial := by
  -- by induction on the halvings left
  intro remaining
  induction remaining with
  | zero =>
    intro taken t tally tally' trial _ h
    exact absurd h Run.not_yields_throw
  | succ remaining ih =>
    intro taken t tally tally' trial ht h
    rw [Ray.halve] at h
    obtain ⟨next, hnext, h⟩ := Run.exists_of_yields_bind h
    replace h := Run.yields_of_bind_unit h
    split_ifs at h with hdec
    · cases Run.eq_of_yields_pure h
      exact accepts_of_yields_trial hnext (hP.half ht) hdec
    · -- halving goes on from the half
      refine ih ?_ h
      rw [size_of_yields_trial hnext]
      exact hP.half ht

/-- A bracket with an accepted lower end, whose gradient, where it is known, was evaluated
there. -/
structure Holds (ray : Ray σ α n) (P : α → Prop) (bracket : Bracket α n) : Prop where
  lower : ray.Accepts P bracket.lower
  gradient_at : ∀ g ∈ bracket.gradient, (ray.objective.gradient bracket.lower.point).Yields g
  upper : P bracket.upper

theorem holds_of_yields_double (hP : Reachable P) :
    ∀ {remaining taken : Nat} {lower : Trial α n} {gradient : Option (Vec α n)}
      {tally tally' : Tally} {bracket : Bracket α n},
      ray.Accepts P lower →
      (∀ g ∈ gradient, (ray.objective.gradient lower.point).Yields g) →
      (ray.double remaining taken lower gradient tally).Yields (bracket, tally') →
      ray.Holds P bracket := by
  intro remaining
  -- by induction on the doublings left
  induction remaining with
  | zero =>
    intro taken lower gradient tally tally' bracket _ _ h
    exact absurd h Run.not_yields_throw
  | succ remaining ih =>
    intro taken lower gradient tally tally' bracket hlower hgradient h
    rw [Ray.double] at h
    obtain ⟨next, hnext, h⟩ := Run.exists_of_yields_bind h
    replace h := Run.yields_of_bind_unit h
    have hsize : P next.size := by
      rw [size_of_yields_trial hnext]
      exact hP.double hlower.size
    split_ifs at h with hdec
    · -- the lower end moves, so the gradient that was known is dropped
      refine ih ?_ (by simp) h
      exact accepts_of_yields_trial hnext (hP.double hlower.size) hdec
    · -- the lower end stays, and so does the gradient there
      cases Run.eq_of_yields_pure h
      exact ⟨hlower, hgradient, hsize⟩

/-- What the search knows of the step that it ends with: the trial is accepted, its gradient was
evaluated at its point, and one of the two tests of the curvature condition did not keep it. -/
structure Ends (ray : Ray σ α n) (P : α → Prop) (step : Step α n) : Prop where
  accepts : ray.Accepts P ⟨step.size, step.point, step.value⟩
  gradient_at : (ray.objective.gradient step.point).Yields step.gradient
  curvature : ray.slopeBound ≤ step.gradient.dot ray.direction ∨
    ¬ ray.tooSteep step.gradient = true

theorem ends_of_yields_bisect (hP : Reachable P) :
    ∀ {remaining taken : Nat} {lower : Trial α n} {gradient : Vec α n} {upper : α}
      {tally : Tally} {step : Step α n},
      ray.Accepts P lower → (ray.objective.gradient lower.point).Yields gradient → P upper →
      (ray.bisect remaining taken lower gradient upper tally).Yields step →
      ray.Ends P step := by
  intro remaining
  induction remaining with
  | zero =>
    -- with no bisection left only a bracket that needs none gives a step
    intro taken lower gradient upper tally step hlower hgradient _ h
    rw [Ray.bisect] at h
    split_ifs at h with hsteep
    · exact absurd h Run.not_yields_throw
    · cases Run.eq_of_yields_pure h
      exact ⟨hlower, hgradient, .inr hsteep⟩
  | succ remaining ih =>
    intro taken lower gradient upper tally step hlower hgradient hupper h
    rw [Ray.bisect] at h
    split_ifs at h with hsteep
    · obtain ⟨middle, hmiddle, h⟩ := Run.exists_of_yields_bind h
      replace h := Run.yields_of_bind_unit h
      have hsize : P middle.size := by
        rw [size_of_yields_trial hmiddle]
        exact hP.middle hlower.size hupper
      split_ifs at h with hdec
      · -- the midpoint becomes the lower end, and the gradient is evaluated there
        obtain ⟨gradient', hgradient', h⟩ := Run.exists_of_yields_bind h
        refine ih ?_ hgradient' hupper h
        exact accepts_of_yields_trial hmiddle (hP.middle hlower.size hupper) hdec
      · -- the midpoint becomes the upper end, and the lower one keeps its gradient
        exact ih hlower hgradient hsize h
    · cases Run.eq_of_yields_pure h
      exact ⟨hlower, hgradient, .inr hsteep⟩

theorem ends_of_yields_refine (hP : Reachable P) {bracket : Bracket α n} {tally : Tally}
    {step : Step α n} (hbracket : ray.Holds P bracket)
    (h : (ray.refine bracket tally).Yields step) : ray.Ends P step := by
  obtain ⟨lower, gradient, upper⟩ := bracket
  cases gradient with
  | some gradient =>
    -- doubling stopped at once, so the gradient at the lower end is that of the first trial
    exact ends_of_yields_bisect hP hbracket.lower (hbracket.gradient_at gradient rfl)
      hbracket.upper h
  | none =>
    -- otherwise it is evaluated before the first bisection
    obtain ⟨gradient, hgradient, h⟩ := Run.exists_of_yields_bind h
    exact ends_of_yields_bisect hP hbracket.lower hgradient hbracket.upper h

/-- What a search without failure ends with. -/
theorem ends_of_yields_search (hP : Reachable P) {tally : Tally} {step : Step α n}
    (h : (ray.search tally).Yields step) : ray.Ends P step := by
  unfold Ray.search at h
  obtain ⟨first, hfirst, h⟩ := Run.exists_of_yields_bind h
  have hsize : P first.size := by
    rw [size_of_yields_trial hfirst]
    exact hP.one
  dsimp only at h
  split_ifs at h with hdec
  · -- the first trial decreases: it is the step, or doubling starts with its gradient
    have haccepts := accepts_of_yields_trial hfirst hP.one hdec
    obtain ⟨gradient, hgradient, h⟩ := Run.exists_of_yields_bind h
    split_ifs at h with hcurv
    · cases Run.eq_of_yields_pure h
      exact ⟨haccepts, hgradient, .inl hcurv⟩
    · obtain ⟨⟨bracket, tally'⟩, hbracket, h⟩ := Run.exists_of_yields_bind h
      refine ends_of_yields_refine hP (holds_of_yields_double hP haccepts ?_ hbracket) h
      rintro _ ⟨⟩
      exact hgradient
  · -- it does not: after halving the gradient is not known
    obtain ⟨⟨lower, tally'⟩, hlower, h⟩ := Run.exists_of_yields_bind h
    have haccepts := accepts_of_yields_halve hP hsize hlower
    exact ends_of_yields_refine hP ⟨haccepts, by simp, hP.double haccepts.size⟩ h

/-- What the search promises of a step. -/
structure Promises (ray : Ray σ α n) (P : α → Prop) (step : Step α n) : Prop where
  accepts : ray.Accepts P ⟨step.size, step.point, step.value⟩
  gradient_at : (ray.objective.gradient step.point).Yields step.gradient
  curvature : ray.slopeBound ≤ step.gradient.dot ray.direction

/-- Where comparisons are total, the two tests of the curvature condition agree. -/
theorem slopeBound_le_of_not_tooSteep [Scalar.Total α] {gradient : Vec α n}
    (h : ¬ ray.tooSteep gradient = true) : ray.slopeBound ≤ gradient.dot ray.direction := by
  apply Scalar.Total.le_of_not_lt
  simpa [Ray.tooSteep] using h

theorem promises_of_yields_search [Scalar.Total α] (hP : Reachable P) {tally : Tally}
    {step : Step α n} (h : (ray.search tally).Yields step) : ray.Promises P step := by
  obtain ⟨haccepts, hgradient, hcurv⟩ := ends_of_yields_search hP h
  -- the loop left off because its test failed, which says the condition only if comparisons are
  -- total
  exact ⟨haccepts, hgradient, hcurv.elim id slopeBound_le_of_not_tooSteep⟩

theorem reachable_true : Reachable fun _ : α => True := by
  constructor <;> simp

/-- Positivity is a property of steps that the search cannot leave. -/
theorem reachable_pos : Reachable fun t : ℝ => 0 < t where
  one := one_pos
  half ht := by
    rw [Scalar.half_real]
    exact mul_pos ht one_half_pos
  double ht := by
    rw [Scalar.two_real]
    exact mul_pos ht two_pos
  middle hs ht := by
    rw [Scalar.half_real]
    exact mul_pos (add_pos hs ht) one_half_pos

end Ray

/-! ### The entry points -/

theorem eq_dot_of_slope {gradient d : Vec α n} {s : α} (h : slope gradient d = .ok s) :
    s = gradient.dot d := by
  unfold slope at h
  dsimp only at h
  split_ifs at h
  exact (Except.ok.inj h).symm

/-- A step is found along a direction of descent, with valid parameters. -/
theorem run_cases {f : Objective σ α n} {x : Vec α n} {value : α} {gradient d : Vec α n}
    {params : SearchParams α} {tally : Tally} {step : Step α n}
    (h : (run f x value gradient d params tally).Yields step) :
    ¬ 0 ≤ gradient.dot d ∧ params.validateWolfePowell = .ok () ∧
      (Ray.search ⟨f, x, d, value, gradient.dot d, params⟩ tally).Yields step := by
  unfold run at h
  -- the slope is computed first
  obtain ⟨s, hs, h⟩ := Run.exists_of_yields_bind h
  obtain rfl := eq_dot_of_slope (Run.ok_of_yields_liftM hs)
  dsimp only at h
  split_ifs at h with hascent
  · -- a direction that is not one of descent gives no step
    obtain ⟨_, hthrow, _⟩ := Run.exists_of_yields_bind h
    exact absurd hthrow Run.not_yields_throw
  · obtain ⟨_, hvalid, h⟩ := Run.exists_of_yields_bind h
    replace h := Run.yields_of_bind_unit h
    obtain ⟨found, hfound, h⟩ := Run.exists_of_yields_bind h
    replace h := Run.yields_of_bind_unit h
    cases Run.eq_of_yields_pure h
    exact ⟨hascent, Run.ok_of_yields_liftM hvalid, hfound⟩

/-- The step of a run after the checks of lengths. -/
theorem isWolfeStep_of_yields_run [Scalar.Total α] {P : α → Prop} (hP : Ray.Reachable P)
    {f : Objective σ α n} {x : Vec α n} {value : α} {gradient d : Vec α n}
    {params : SearchParams α} {tally : Tally} {step : Step α n}
    (h : (run f x value gradient d params tally).Yields step) :
    IsWolfeStep f params x d value gradient step ∧ P step.size := by
  obtain ⟨_, _, hfound⟩ := run_cases h
  have hpromise := Ray.promises_of_yields_search hP hfound
  refine ⟨⟨hpromise.accepts.point_eq, hpromise.accepts.value_at, hpromise.gradient_at, ?_,
    hpromise.curvature⟩, hpromise.accepts.size⟩
  simpa [Ray.decreases] using hpromise.accepts.decreases

theorem isWolfeStep_of_yields_search [Scalar.Total α] {P : α → Prop} (hP : Ray.Reachable P)
    {f : Objective σ α n} {x : Vec α n} {d : Vec α k} {params : SearchParams α} {step : Step α n}
    (h : (search f x d params).Yields step) :
    (∃ d' value gradient, d.ofLength n = .ok d' ∧ (f.value x).Yields value ∧
      (f.gradient x).Yields gradient ∧ IsWolfeStep f params x d' value gradient step) ∧
    P step.size := by
  unfold search at h
  obtain ⟨d', hd, h⟩ := Run.exists_of_yields_bind h
  obtain ⟨value, hvalue, h⟩ := Run.exists_of_yields_bind h
  obtain ⟨gradient, hgradient, h⟩ := Run.exists_of_yields_bind h
  obtain ⟨hstep, hsize⟩ := isWolfeStep_of_yields_run hP h
  exact ⟨⟨d', value, gradient, Run.ok_of_yields_liftM hd, hvalue, hgradient, hstep⟩, hsize⟩

theorem isWolfeStep_of_yields_searchFrom [Scalar.Total α] {P : α → Prop} (hP : Ray.Reachable P)
    {f : Objective σ α n} {x : Vec α n} {value : α} {gradient : Vec α g} {d : Vec α k}
    {params : SearchParams α} {step : Step α n}
    (h : (searchFrom f x value gradient d params).Yields step) :
    (∃ d' gradient', d.ofLength n = .ok d' ∧ gradient.ofLength n = .ok gradient' ∧
      IsWolfeStep f params x d' value gradient' step) ∧
    P step.size := by
  unfold searchFrom at h
  obtain ⟨d', hd, h⟩ := Run.exists_of_yields_bind h
  obtain ⟨gradient', hgradient, h⟩ := Run.exists_of_yields_bind h
  obtain ⟨hstep, hsize⟩ := isWolfeStep_of_yields_run hP h
  exact ⟨⟨d', gradient', Run.ok_of_yields_liftM hd, Run.ok_of_yields_liftM hgradient, hstep⟩,
    hsize⟩

/-- The checks of lengths pass where the vectors have the length of the point. -/
theorem run_of_yields_searchFrom {f : Objective σ α n} {x : Vec α n} {value : α}
    {gradient d : Vec α n} {params : SearchParams α} {step : Step α n}
    (h : (searchFrom f x value gradient d params).Yields step) :
    (run f x value gradient d params .none).Yields step := by
  unfold searchFrom at h
  obtain ⟨d', hd, h⟩ := Run.exists_of_yields_bind h
  obtain ⟨gradient', hgradient, h⟩ := Run.exists_of_yields_bind h
  replace hd := Run.ok_of_yields_liftM hd
  replace hgradient := Run.ok_of_yields_liftM hgradient
  rw [Vec.ofLength_self] at hd hgradient
  cases hd
  cases hgradient
  exact h

/-- The value and the gradient of a step were evaluated at its point, over every arithmetic. -/
theorem evaluated_of_yields_searchFrom {f : Objective σ α n} {x : Vec α n} {value : α}
    {gradient d : Vec α n} {params : SearchParams α} {step : Step α n}
    (h : (searchFrom f x value gradient d params).Yields step) :
    (f.value step.point).Yields step.value ∧ (f.gradient step.point).Yields step.gradient := by
  have hends := Ray.ends_of_yields_search Ray.reachable_true
    (run_cases (run_of_yields_searchFrom h)).2.2
  exact ⟨hends.accepts.value_at, hends.gradient_at⟩

/-! ### A search that halves -/

/-- From one along minus four on half the squared norm: the step is halved twice. -/
noncomputable def halvingRay : Ray Unit ℝ 1 where
  objective := (Quadratic.simple 1).objective 1
  base := .singleton 1
  direction := .singleton (-4)
  value := (Quadratic.simple 1).value (.singleton 1)
  slope := ((Quadratic.simple 1).gradient (.singleton 1)).dot (.singleton (-4))
  params := ⟨0.25, 0.5, 100, false⟩

theorem sufficient_halvingRay (t : ℝ) :
    halvingRay.Sufficient (Quadratic.simple 1).value t ↔
      1 / 2 * (1 - 4 * t) ^ 2 ≤ 1 / 2 - t := by
  -- along the ray the objective is a parabola in the step
  have hparabola : (Quadratic.simple 1).value (halvingRay.pointAt t) =
      1 / 2 * (1 - 4 * t) ^ 2 := by
    simp [halvingRay, Ray.pointAt, Vec.dot_eq_sum]
    ring
  have hline : halvingRay.value + t * halvingRay.params.sigma * halvingRay.slope = 1 / 2 - t := by
    simp [halvingRay, Vec.dot_eq_sum]
    ring
  rw [Ray.Sufficient, hparabola, hline]

theorem run_halvingRay (tally : Tally) :
    ∃ step, (run halvingRay.objective #v[1] ((Quadratic.simple 1).value #v[1])
      ((Quadratic.simple 1).gradient #v[1]) #v[-4] halvingRay.params tally).Computes step ∧
      step.size = 1 / 4 := by
  have hf : halvingRay.objective.Evaluates (Quadratic.simple 1).value
      (Quadratic.simple 1).gradient := (Quadratic.simple 1).evaluates
  -- neither one nor a half decreases enough
  have hone : ¬ halvingRay.Sufficient (Quadratic.simple 1).value 1 := by
    rw [sufficient_halvingRay]
    norm_num
  have hhalf : ∀ j < 1, ¬ halvingRay.Sufficient (Quadratic.simple 1).value (1 / 2 ^ (j + 1)) := by
    intro j hj
    obtain rfl : j = 0 := by omega
    rw [sufficient_halvingRay]
    norm_num
  -- a quarter does, and the slope there is small enough to end without a bisection
  have hquarter : halvingRay.Sufficient (Quadratic.simple 1).value (1 / 2 ^ (1 + 1)) := by
    rw [sufficient_halvingRay]
    norm_num
  obtain ⟨tally₁, hhalve⟩ :=
    Ray.computes_halve hf 1 100 0 1 tally.value (by norm_num) hhalf hquarter
  have hcurv : halvingRay.slopeBound ≤ ((Quadratic.simple 1).gradient
      (halvingRay.pointAt (1 / 2 ^ (1 + 1)))).dot halvingRay.direction := by
    simp [halvingRay, Ray.slopeBound, Ray.pointAt, Vec.dot_eq_sum]
    norm_num
  obtain ⟨tally₂, hrefine⟩ :=
    Ray.computes_refine_of_curvature hf (Ray.carried_none _) hcurv tally₁
  have hsearch := Ray.computes_search_of_halve hf hone hhalve hrefine
  have hvalid : halvingRay.params.validateWolfePowell = .ok () := by
    apply validateWolfePowell_eq_ok <;> norm_num [halvingRay]
  refine ⟨_, computes_run (by simp [Vec.dot_eq_sum]) hvalid hsearch, ?_⟩
  show (1 : ℝ) / 2 ^ (1 + 1) = 1 / 4
  norm_num

/-! ### Soundness -/

/-- **Soundness**: a step that one of the entry points gives satisfies both Wolfe conditions, with
the value and the gradient at its own point, and over the reals it is positive. -/
theorem found_isWolfeStep :
    (∀ {σ α : Type} [Scalar α] [Scalar.Total α] {n k g : Nat} (f : Objective σ α n) (x : Vec α n)
        (d : Vec α k) (params : SearchParams α) (step : Step α n),
      ((search f x d params).Yields step →
        ∃ d' value gradient, d.ofLength n = .ok d' ∧ (f.value x).Yields value ∧
          (f.gradient x).Yields gradient ∧ IsWolfeStep f params x d' value gradient step) ∧
      ∀ (value : α) (gradient : Vec α g), (searchFrom f x value gradient d params).Yields step →
        ∃ d' gradient', d.ofLength n = .ok d' ∧ gradient.ofLength n = .ok gradient' ∧
          IsWolfeStep f params x d' value gradient' step) ∧
    ∀ {σ : Type} {n k g : Nat} (f : Objective σ ℝ n) (x : Vec ℝ n) (d : Vec ℝ k)
        (params : SearchParams ℝ) (step : Step ℝ n),
      ((search f x d params).Yields step → 0 < step.size) ∧
      ∀ (value : ℝ) (gradient : Vec ℝ g), (searchFrom f x value gradient d params).Yields step →
        0 < step.size := by
  constructor
  · intro σ α _ _ n k g f x d params step
    -- over any arithmetic nothing is said about the size of a step
    have htrue : Ray.Reachable fun _ : α => True := by constructor <;> simp
    constructor
    · intro h
      exact (isWolfeStep_of_yields_search htrue h).1
    · intro value gradient h
      exact (isWolfeStep_of_yields_searchFrom htrue h).1
  · intro σ n k g f x d params step
    constructor
    · intro h
      exact (isWolfeStep_of_yields_search Ray.reachable_pos h).2
    · intro value gradient h
      exact (isWolfeStep_of_yields_searchFrom Ray.reachable_pos h).2

/-- Both entry points find the step `1 / 4` on `halvingRay`. -/
theorem found_isWolfeStep_halvingRay :
    ∃ step step' : Step ℝ 1,
      (search halvingRay.objective #v[1] (#v[-4] : Vec ℝ 1) halvingRay.params).Yields step ∧
      IsWolfeStep halvingRay.objective halvingRay.params #v[1] #v[-4]
        ((Quadratic.simple 1).value #v[1]) ((Quadratic.simple 1).gradient #v[1]) step ∧
      0 < step.size ∧ step.size = 1 / 4 ∧
      (searchFrom halvingRay.objective #v[1] ((Quadratic.simple 1).value #v[1])
        ((Quadratic.simple 1).gradient #v[1]) (#v[-4] : Vec ℝ 1) halvingRay.params).Yields step' ∧
      IsWolfeStep halvingRay.objective halvingRay.params #v[1] #v[-4]
        ((Quadratic.simple 1).value #v[1]) ((Quadratic.simple 1).gradient #v[1]) step' ∧
      0 < step'.size ∧ step'.size = 1 / 4 := by
  have hf : halvingRay.objective.Evaluates (Quadratic.simple 1).value
      (Quadratic.simple 1).gradient := (Quadratic.simple 1).evaluates
  obtain ⟨step, hrun, hquarter⟩ := run_halvingRay ⟨1, 1⟩
  obtain ⟨step', hrun', hquarter'⟩ := run_halvingRay .none
  have hsearch : (search halvingRay.objective #v[1] (#v[-4] : Vec ℝ 1)
      halvingRay.params).Yields step := (computes_search_of_run hf hrun).yields
  have hsearchFrom := (computes_searchFrom_of_run hrun').yields
  have hsound := found_isWolfeStep.1 (k := 1) (g := 1) halvingRay.objective #v[1] #v[-4]
    halvingRay.params
  have hpos := found_isWolfeStep.2 (k := 1) (g := 1) halvingRay.objective #v[1] #v[-4]
    halvingRay.params
  refine ⟨step, step', hsearch, ?_, (hpos step).1 hsearch, hquarter, hsearchFrom, ?_,
    (hpos step').2 _ _ hsearchFrom, hquarter'⟩
  · obtain ⟨d, value, gradient, hd, hvalue, hgradient, hstep⟩ := (hsound step).1 hsearch
    rw [Vec.ofLength_self] at hd
    cases hd
    -- the value and gradient that the search evaluates are those of the quadratic
    rwa [(hf.value _).eq_of_yields hvalue, (hf.gradient _).eq_of_yields hgradient] at hstep
  · obtain ⟨d, gradient, hd, hgradient, hstep⟩ := (hsound step').2 _ _ hsearchFrom
    rw [Vec.ofLength_self] at hd hgradient
    cases hd
    cases hgradient
    exact hstep

/-! ### Failures -/

variable {e : Failure α}

namespace Ray

variable {ray : Ray σ α n}

/-- The failure says that a phase has used up its cap, or comes from an evaluation. -/
def Stuck (ray : Ray σ α n) (e : Failure α) : Prop :=
  (∃ cause iterations t, e = ray.failure cause iterations t) ∨ ray.objective.CanFail e

theorem stuck_of_fails_trial {t : α} (h : (ray.trial t).Fails e) : ray.Stuck e := by
  rcases Run.fails_or_of_fails_bind h with h | ⟨_, _, h⟩
  · exact .inr ⟨_, .inl h⟩
  · exact absurd h Run.not_fails_pure

theorem stuck_of_fails_halve :
    ∀ {remaining taken : Nat} {t : α} {tally : Tally},
      (ray.halve remaining taken t tally).Fails e → ray.Stuck e := by
  intro remaining
  induction remaining with
  | zero =>
    intro taken t tally h
    exact .inl ⟨_, _, _, Run.eq_of_fails_throw h⟩
  | succ remaining ih =>
    intro taken t tally h
    rw [Ray.halve] at h
    -- the trial fails, or the halvings after it
    rcases Run.fails_or_of_fails_bind h with h | ⟨trial, _, h⟩
    · exact stuck_of_fails_trial h
    · replace h := Run.fails_of_record_bind h
      split_ifs at h
      · exact absurd h Run.not_fails_pure
      · exact ih h

theorem stuck_of_fails_double :
    ∀ {remaining taken : Nat} {lower : Trial α n} {gradient : Option (Vec α n)} {tally : Tally},
      (ray.double remaining taken lower gradient tally).Fails e → ray.Stuck e := by
  intro remaining
  induction remaining with
  | zero =>
    intro taken lower gradient tally h
    exact .inl ⟨_, _, _, Run.eq_of_fails_throw h⟩
  | succ remaining ih =>
    intro taken lower gradient tally h
    rw [Ray.double] at h
    rcases Run.fails_or_of_fails_bind h with h | ⟨trial, _, h⟩
    · exact stuck_of_fails_trial h
    · replace h := Run.fails_of_record_bind h
      split_ifs at h
      · exact ih h
      · exact absurd h Run.not_fails_pure

theorem stuck_of_fails_bisect :
    ∀ {remaining taken : Nat} {lower : Trial α n} {gradient : Vec α n} {upper : α}
      {tally : Tally},
      (ray.bisect remaining taken lower gradient upper tally).Fails e → ray.Stuck e := by
  intro remaining
  induction remaining with
  | zero =>
    intro taken lower gradient upper tally h
    rw [Ray.bisect] at h
    split_ifs at h
    · exact .inl ⟨_, _, _, Run.eq_of_fails_throw h⟩
    · exact absurd h Run.not_fails_pure
  | succ remaining ih =>
    intro taken lower gradient upper tally h
    rw [Ray.bisect] at h
    -- the midpoint fails, the gradient there does, or the bisections after it
    split_ifs at h
    · rcases Run.fails_or_of_fails_bind h with h | ⟨middle, _, h⟩
      · exact stuck_of_fails_trial h
      · replace h := Run.fails_of_record_bind h
        split_ifs at h
        · rcases Run.fails_or_of_fails_bind h with h | ⟨_, _, h⟩
          · exact .inr ⟨_, .inr h⟩
          · exact ih h
        · exact ih h
    · exact absurd h Run.not_fails_pure

theorem stuck_of_fails_refine {bracket : Bracket α n} {tally : Tally}
    (h : (ray.refine bracket tally).Fails e) : ray.Stuck e := by
  obtain ⟨lower, gradient, upper⟩ := bracket
  cases gradient with
  | some gradient => exact stuck_of_fails_bisect h
  | none =>
    rcases Run.fails_or_of_fails_bind h with h | ⟨_, _, h⟩
    · exact .inr ⟨_, .inr h⟩
    · exact stuck_of_fails_bisect h

theorem stuck_of_fails_search {tally : Tally} (h : (ray.search tally).Fails e) : ray.Stuck e := by
  unfold Ray.search at h
  rcases Run.fails_or_of_fails_bind h with h | ⟨first, _, h⟩
  · exact stuck_of_fails_trial h
  dsimp only at h
  -- doubling after a sufficient decrease, halving otherwise
  split_ifs at h
  · rcases Run.fails_or_of_fails_bind h with h | ⟨gradient, _, h⟩
    · exact .inr ⟨_, .inr h⟩
    split_ifs at h
    · exact absurd h Run.not_fails_pure
    · rcases Run.fails_or_of_fails_bind h with h | ⟨_, _, h⟩
      · exact stuck_of_fails_double h
      · exact stuck_of_fails_refine h
  · rcases Run.fails_or_of_fails_bind h with h | ⟨_, _, h⟩
    · exact stuck_of_fails_halve h
    · exact stuck_of_fails_refine h

end Ray

/-! ### Failures of the entry points -/

/-- The failures of a run after the checks of lengths. -/
theorem run_fails {f : Objective σ α n} {x : Vec α n} {value : α} {gradient d : Vec α n}
    {params : SearchParams α} {tally : Tally}
    (h : (run f x value gradient d params tally).Fails e) :
    slope gradient d = .error e ∨ (0 ≤ gradient.dot d ∧ e = .ascent (gradient.dot d)) ∨
      params.validateWolfePowell = .error e ∨
      (∃ cause iterations t, e = .searchFailed cause iterations t value) ∨ f.CanFail e := by
  unfold run at h
  rcases Run.fails_or_of_fails_bind h with h | ⟨s, hs, h⟩
  · exact .inl (Run.error_of_fails_liftM h)
  -- the slope could be computed, so the lengths agree
  obtain rfl := eq_dot_of_slope (Run.ok_of_yields_liftM hs)
  dsimp only at h
  split_ifs at h with hascent
  · rcases Run.fails_or_of_fails_bind h with h | ⟨_, hthrow, _⟩
    · exact .inr (.inl ⟨hascent, Run.eq_of_fails_throw h⟩)
    · exact absurd hthrow Run.not_yields_throw
  · rcases Run.fails_or_of_fails_bind h with h | ⟨_, _, h⟩
    · exact .inr (.inr (.inl (Run.error_of_fails_liftM h)))
    · replace h := Run.fails_of_record_bind h
      rcases Run.fails_or_of_fails_bind h with h | ⟨_, _, h⟩
      · exact .inr (.inr (.inr (Ray.stuck_of_fails_search h)))
      · exact absurd (Run.fails_of_record_bind h) Run.not_fails_pure

end WolfePowell

end Downhill
