import Downhill.Proofs.Exact.Quadratic
import Downhill.Proofs.Objective
import Downhill.Search.WolfePowell

/-!
# The phases of the Wolfe-Powell search in exact arithmetic

For an objective that evaluates `F` and `G` a trial is a function of its step (`Ray.trialAt`), so
each phase is described by where on the ray the decrease is sufficient (`Ray.Sufficient`):

* `computes_halve`: halving stops at the first of `t / 2`, `t / 4`, … with a sufficient decrease;
* `computes_double`: doubling stops at the last of `t`, `2 t`, … before the first without;
* `computes_bisect`: bisection ends once the bracket is so short that the curvature condition
  cannot fail at the lower end of any bracket of this length.

Each needs only as large a cap as it makes steps.
-/

namespace Downhill.WolfePowell

variable {σ : Type} {n : Nat} {F : Vec ℝ n → ℝ} {G : Vec ℝ n → Vec ℝ n}

namespace Ray

variable {ray : Ray σ ℝ n}

/-! ### Trials -/

/-- The point of the ray at the step `t`. -/
def pointAt (ray : Ray σ ℝ n) (t : ℝ) : Vec ℝ n := ray.base + t • ray.direction

/-- The trial at the step `t`. -/
def trialAt (ray : Ray σ ℝ n) (F : Vec ℝ n → ℝ) (t : ℝ) : Trial ℝ n :=
  ⟨t, ray.pointAt t, F (ray.pointAt t)⟩

@[simp] theorem trialAt_size (t : ℝ) : (ray.trialAt F t).size = t := rfl

/-- The step `t` with what is known at its end. -/
def stepAt (ray : Ray σ ℝ n) (F : Vec ℝ n → ℝ) (G : Vec ℝ n → Vec ℝ n) (t : ℝ) (tally : Tally) :
    Step ℝ n :=
  ⟨t, ray.pointAt t, F (ray.pointAt t), G (ray.pointAt t), tally⟩

/-- The decrease at the step `t` is sufficient. -/
def Sufficient (ray : Ray σ ℝ n) (F : Vec ℝ n → ℝ) (t : ℝ) : Prop :=
  F (ray.pointAt t) ≤ ray.value + t * ray.params.sigma * ray.slope

theorem decreases_trialAt (t : ℝ) :
    ray.decreases (ray.trialAt F t) = true ↔ ray.Sufficient F t := by
  unfold Ray.decreases Sufficient
  rw [decide_eq_true_iff]
  rfl

theorem tooSteep_iff (gradient : Vec ℝ n) :
    ray.tooSteep gradient = true ↔
      gradient.dot ray.direction < ray.params.rho * ray.slope := by
  unfold Ray.tooSteep Ray.slopeBound
  rw [decide_eq_true_iff]

theorem computes_trial (hf : ray.objective.Evaluates F G) (t : ℝ) :
    (ray.trial t).Computes (ray.trialAt F t) := by
  unfold Ray.trial
  dsimp only
  rw [Vec.hmul_eq_smul]
  exact (hf.value _).bind (Run.computes_pure _)

/-! ### Halving and doubling -/

/-- The first `m` halvings fail, and the next one succeeds. -/
theorem computes_halve (hf : ray.objective.Evaluates F G) (m : Nat) :
    ∀ (remaining taken : Nat) (t : ℝ) (tally : Tally), m < remaining →
      (∀ j < m, ¬ ray.Sufficient F (t / 2 ^ (j + 1))) → ray.Sufficient F (t / 2 ^ (m + 1)) →
      ∃ tally', (ray.halve remaining taken t tally).Computes
        (ray.trialAt F (t / 2 ^ (m + 1)), tally') := by
  induction m with
  | zero =>
    intro remaining taken t tally hlt _ hsuff
    obtain ⟨remaining, rfl⟩ : ∃ r, remaining = r + 1 := ⟨remaining - 1, by omega⟩
    rw [zero_add, pow_one] at hsuff ⊢
    refine ⟨tally.value, (computes_trial hf _).bind ((Run.computes_record _).bind ?_)⟩
    rw [Scalar.half_real, mul_one_div, if_pos ((decreases_trialAt _).mpr hsuff)]
    exact Run.computes_pure _
  | succ m ih =>
    intro remaining taken t tally hlt hfail hsuff
    obtain ⟨remaining, rfl⟩ : ∃ r, remaining = r + 1 := ⟨remaining - 1, by omega⟩
    -- the steps after the first halving are those that halve `t / 2`
    have hhalf : ∀ j : Nat, t / 2 ^ (j + 1 + 1) = t / 2 / 2 ^ (j + 1) := by
      intro j
      rw [div_div, ← pow_succ']
    have hfirst : ¬ ray.Sufficient F (t / 2) := by
      have := hfail 0 (by omega)
      rwa [zero_add, pow_one] at this
    obtain ⟨tally', htally⟩ := ih remaining (taken + 1) (t / 2) tally.value (by omega)
      (fun j hj => by rw [← hhalf]; exact hfail (j + 1) (by omega)) (by rwa [← hhalf])
    refine ⟨tally', (computes_trial hf _).bind ((Run.computes_record _).bind ?_)⟩
    rw [Scalar.half_real, mul_one_div, if_neg (mt (decreases_trialAt _).mp hfirst), hhalf]
    exact htally

/-- A gradient that is carried beside the trial at `t` is the gradient there. -/
def Carried (ray : Ray σ ℝ n) (G : Vec ℝ n → Vec ℝ n) (t : ℝ) (gradient : Option (Vec ℝ n)) :
    Prop :=
  ∀ g ∈ gradient, g = G (ray.pointAt t)

theorem carried_none (t : ℝ) : ray.Carried G t none := by simp [Carried]

theorem carried_some (t : ℝ) : ray.Carried G t (some (G (ray.pointAt t))) := by simp [Carried]

/-- The first `m` doublings succeed, and the next one fails. -/
theorem computes_double (hf : ray.objective.Evaluates F G) (m : Nat) :
    ∀ (remaining taken : Nat) (t : ℝ) (gradient : Option (Vec ℝ n)) (tally : Tally),
      m < remaining → ray.Carried G t gradient →
      (∀ j < m, ray.Sufficient F (t * 2 ^ (j + 1))) → ¬ ray.Sufficient F (t * 2 ^ (m + 1)) →
      ∃ gradient' tally',
        (ray.double remaining taken (ray.trialAt F t) gradient tally).Computes
          (⟨ray.trialAt F (t * 2 ^ m), gradient', t * 2 ^ (m + 1)⟩, tally') ∧
        ray.Carried G (t * 2 ^ m) gradient' := by
  induction m with
  | zero =>
    intro remaining taken t gradient tally hlt hcarried _ hfail
    obtain ⟨remaining, rfl⟩ : ∃ r, remaining = r + 1 := ⟨remaining - 1, by omega⟩
    rw [zero_add, pow_one] at hfail ⊢
    rw [pow_zero, mul_one]
    -- the lower end stays where it is and keeps its gradient
    refine ⟨gradient, tally.value,
      (computes_trial hf _).bind ((Run.computes_record _).bind ?_), hcarried⟩
    rw [Scalar.two_real, trialAt_size, if_neg (mt (decreases_trialAt _).mp hfail)]
    exact Run.computes_pure _
  | succ m ih =>
    intro remaining taken t gradient tally hlt _ hsuff hfail
    obtain ⟨remaining, rfl⟩ : ∃ r, remaining = r + 1 := ⟨remaining - 1, by omega⟩
    -- the steps after the first doubling are those that double `t * 2`
    have htwice : ∀ j : Nat, t * 2 ^ (j + 1) = t * 2 * 2 ^ j := by
      intro j
      rw [mul_assoc, ← pow_succ']
    have hfirst : ray.Sufficient F (t * 2) := by
      have := hsuff 0 (by omega)
      rwa [zero_add, pow_one] at this
    -- the lower end moves, so that its gradient is not known
    obtain ⟨gradient', tally', hdouble, hcarried⟩ :=
      ih remaining (taken + 1) (t * 2) none tally.value (by omega) (carried_none _)
        (fun j hj => by rw [← htwice]; exact hsuff (j + 1) (by omega)) (by rwa [← htwice])
    rw [htwice m, htwice (m + 1)]
    refine ⟨gradient', tally',
      (computes_trial hf _).bind ((Run.computes_record _).bind ?_), hcarried⟩
    rw [Scalar.two_real, trialAt_size, if_pos ((decreases_trialAt _).mpr hfirst)]
    exact hdouble

/-! ### Bisection -/

/-- The steps `a` and `b` bracket a step: the decrease is sufficient at the lower end and not at the
upper one. -/
structure Brackets (ray : Ray σ ℝ n) (F : Vec ℝ n → ℝ) (a b : ℝ) : Prop where
  lt : a < b
  lower : ray.Sufficient F a
  upper : ¬ ray.Sufficient F b

/-- The midpoint of a bracket replaces one of its ends. -/
theorem Brackets.middle {a b : ℝ} (h : ray.Brackets F a b) :
    (ray.Sufficient F ((a + b) / 2) → ray.Brackets F ((a + b) / 2) b) ∧
      (¬ ray.Sufficient F ((a + b) / 2) → ray.Brackets F a ((a + b) / 2)) := by
  have hlt := h.lt
  constructor
  · intro hsuff
    exact ⟨by linarith, hsuff, h.upper⟩
  · intro hfail
    exact ⟨by linarith, h.lower, hfail⟩

/-- Bisection ends where the curvature condition holds at the lower end. -/
theorem computes_bisect_of_curvature {remaining taken : Nat} {a b : ℝ} {tally : Tally}
    (hcurv : ray.slopeBound ≤ (G (ray.pointAt a)).dot ray.direction) :
    (ray.bisect remaining taken (ray.trialAt F a) (G (ray.pointAt a)) b tally).Computes
      (ray.stepAt F G a tally) := by
  have hsteep : ¬ ray.tooSteep (G (ray.pointAt a)) = true := by
    rw [tooSteep_iff]
    exact not_lt.mpr hcurv
  unfold Ray.bisect
  rw [if_neg hsteep]
  exact Run.computes_pure _

/-- Bisection of a bracket within `[low, high]` ends if the curvature condition holds at the lower
end of every bracket there that is shorter than `δ`. -/
theorem computes_bisect (hf : ray.objective.Evaluates F G) {δ low high : ℝ}
    (hshort : ∀ a b, low ≤ a → b ≤ high → b - a < δ → ray.Brackets F a b →
      ray.params.rho * ray.slope ≤ (G (ray.pointAt a)).dot ray.direction) :
    ∀ (remaining taken : Nat) (a b : ℝ) (tally : Tally),
      ray.Brackets F a b → low ≤ a → b ≤ high → b - a < δ * 2 ^ remaining →
      ∃ step, (ray.bisect remaining taken (ray.trialAt F a) (G (ray.pointAt a)) b tally).Computes
        step := by
  intro remaining
  -- with every bisection left the bracket may be twice as wide
  induction remaining with
  | zero =>
    intro taken a b tally hab hlow hhigh hwidth
    rw [pow_zero, mul_one] at hwidth
    exact ⟨_, computes_bisect_of_curvature (hshort a b hlow hhigh hwidth hab)⟩
  | succ remaining ih =>
    intro taken a b tally hab hlow hhigh hwidth
    have hlt := hab.lt
    rw [pow_succ] at hwidth
    by_cases hcurv : ray.slopeBound ≤ (G (ray.pointAt a)).dot ray.direction
    · exact ⟨_, computes_bisect_of_curvature hcurv⟩
    · rw [Ray.bisect, if_pos ((tooSteep_iff _).mpr (not_le.mp hcurv))]
      have hmid : ((ray.trialAt F a).size + b) * Scalar.half = (a + b) / 2 := by
        rw [Scalar.half_real, mul_one_div, trialAt_size]
      rw [hmid]
      -- the bracket halves, whichever end the midpoint replaces
      by_cases hsuff : ray.Sufficient F ((a + b) / 2)
      · obtain ⟨step, hstep⟩ := ih (taken + 1) ((a + b) / 2) b tally.value.gradient
          (hab.middle.1 hsuff) (by linarith) hhigh (by linarith)
        refine ⟨step, (computes_trial hf _).bind ((Run.computes_record _).bind ?_)⟩
        rw [if_pos ((decreases_trialAt _).mpr hsuff)]
        exact (hf.gradient _).bind hstep
      · obtain ⟨step, hstep⟩ := ih (taken + 1) a ((a + b) / 2) tally.value
          (hab.middle.2 hsuff) hlow (by linarith) (by linarith)
        refine ⟨step, (computes_trial hf _).bind ((Run.computes_record _).bind ?_)⟩
        rw [if_neg (mt (decreases_trialAt _).mp hsuff)]
        exact hstep

theorem computes_refine_of_curvature (hf : ray.objective.Evaluates F G) {a b : ℝ}
    {gradient : Option (Vec ℝ n)} (hcarried : ray.Carried G a gradient)
    (hcurv : ray.slopeBound ≤ (G (ray.pointAt a)).dot ray.direction) (tally : Tally) :
    ∃ tally', (ray.refine ⟨ray.trialAt F a, gradient, b⟩ tally).Computes
      (ray.stepAt F G a tally') := by
  cases gradient with
  | some gradient =>
    rw [hcarried gradient rfl]
    exact ⟨tally, computes_bisect_of_curvature hcurv⟩
  | none => exact ⟨tally.gradient, (hf.gradient _).bind (computes_bisect_of_curvature hcurv)⟩

/-- A bracket is refined to a step, whether or not the gradient at its lower end is known. -/
theorem computes_refine (hf : ray.objective.Evaluates F G) {δ low high a b : ℝ}
    (hshort : ∀ a b, low ≤ a → b ≤ high → b - a < δ → ray.Brackets F a b →
      ray.params.rho * ray.slope ≤ (G (ray.pointAt a)).dot ray.direction)
    {gradient : Option (Vec ℝ n)} (hab : ray.Brackets F a b) (hlow : low ≤ a)
    (hhigh : b ≤ high) (hwidth : b - a < δ * 2 ^ ray.params.maxIterations)
    (hcarried : ray.Carried G a gradient) (tally : Tally) :
    ∃ step, (ray.refine ⟨ray.trialAt F a, gradient, b⟩ tally).Computes step := by
  cases gradient with
  | some gradient =>
    rw [hcarried gradient rfl]
    exact computes_bisect hf hshort _ 0 a b tally hab hlow hhigh hwidth
  | none =>
    obtain ⟨step, hstep⟩ :=
      computes_bisect hf hshort _ 0 a b tally.gradient hab hlow hhigh hwidth
    exact ⟨step, (hf.gradient _).bind hstep⟩

/-! ### The search -/

/-- The search takes the first trial if both conditions hold there. -/
theorem computes_search_of_curvature (hf : ray.objective.Evaluates F G)
    (hsuff : ray.Sufficient F 1)
    (hcurv : ray.slopeBound ≤ (G (ray.pointAt 1)).dot ray.direction) (tally : Tally) :
    (ray.search tally).Computes (ray.stepAt F G 1 tally.value.gradient) := by
  refine (computes_trial hf 1).bind ?_
  rw [if_pos ((decreases_trialAt 1).mpr hsuff)]
  refine (hf.gradient _).bind ?_
  show Run.Computes (ite (ray.slopeBound ≤ (G (ray.pointAt 1)).dot ray.direction) _ _) _
  rw [if_pos hcurv]
  exact Run.computes_pure _

/-- The search doubles if the decrease at the first trial is sufficient but the curvature condition
fails there. -/
theorem computes_search_of_double (hf : ray.objective.Evaluates F G)
    (hsuff : ray.Sufficient F 1)
    (hcurv : ¬ ray.slopeBound ≤ (G (ray.pointAt 1)).dot ray.direction)
    {bracket : Bracket ℝ n} {tally tally' : Tally} {step : Step ℝ n}
    (hphase : (ray.double ray.params.maxIterations 0 (ray.trialAt F 1)
      (some (G (ray.pointAt 1))) tally.value.gradient).Computes (bracket, tally'))
    (hstep : (ray.refine bracket tally').Computes step) :
    (ray.search tally).Computes step := by
  refine (computes_trial hf 1).bind ?_
  rw [if_pos ((decreases_trialAt 1).mpr hsuff)]
  refine (hf.gradient _).bind ?_
  show Run.Computes (ite (ray.slopeBound ≤ (G (ray.pointAt 1)).dot ray.direction) _ _) _
  rw [if_neg hcurv]
  exact hphase.bind hstep

/-- The search halves if the decrease at the first trial is not sufficient. -/
theorem computes_search_of_halve (hf : ray.objective.Evaluates F G)
    (hfail : ¬ ray.Sufficient F 1) {t : ℝ} {tally tally' : Tally} {step : Step ℝ n}
    (hphase : (ray.halve ray.params.maxIterations 0 1 tally.value).Computes
      (ray.trialAt F t, tally'))
    (hstep : (ray.refine ⟨ray.trialAt F t, none, t * 2⟩ tally').Computes step) :
    (ray.search tally).Computes step := by
  refine (computes_trial hf 1).bind ?_
  rw [if_neg (mt (decreases_trialAt 1).mp hfail)]
  refine hphase.bind ?_
  rw [Scalar.two_real]
  exact hstep

end Ray

/-! ### The entry points -/

theorem validateWolfePowell_eq_ok {params : SearchParams ℝ} (hsigma : 0 < params.sigma)
    (hsigma' : params.sigma < 1 / 2) (hrho : params.sigma < params.rho) (hrho' : params.rho < 1)
    (hcap : 0 < params.maxIterations) : params.validateWolfePowell = .ok () := by
  have hhalf : params.sigma < 2⁻¹ := by rwa [← one_div]
  simp [SearchParams.validateWolfePowell, SearchParams.validateCap, hsigma, hhalf, hrho, hrho',
    hcap.ne']

variable {f : Objective σ ℝ n} {x gradient d : Vec ℝ n} {value : ℝ} {params : SearchParams ℝ}
  {step : Step ℝ n}

theorem computes_run (hdescent : gradient.dot d < 0) (hvalid : params.validateWolfePowell = .ok ())
    {tally : Tally}
    (hsearch : (Ray.search ⟨f, x, d, value, gradient.dot d, params⟩ tally).Computes step) :
    (run f x value gradient d params tally).Computes step := by
  refine (Run.computes_liftM (slope_eq_dot gradient d)).bind ?_
  dsimp only
  -- the checks pass: a direction of descent, then valid parameters
  rw [if_neg (not_le.mpr hdescent)]
  refine (Run.computes_liftM hvalid).bind ?_
  refine (Run.computes_record _).bind ?_
  exact hsearch.bind ((Run.computes_record _).bind (Run.computes_pure _))

theorem computes_search_of_run (hf : f.Evaluates F G)
    (hrun : (run f x (F x) (G x) d params ⟨1, 1⟩).Computes step) :
    (search f x d params).Computes step := by
  refine (Run.computes_liftM d.ofLength_self).bind ?_
  exact (hf.value x).bind ((hf.gradient x).bind hrun)

theorem computes_searchFrom_of_run (hrun : (run f x value gradient d params .none).Computes step) :
    (searchFrom f x value gradient d params).Computes step := by
  refine (Run.computes_liftM d.ofLength_self).bind ?_
  exact (Run.computes_liftM gradient.ofLength_self).bind hrun

end Downhill.WolfePowell
