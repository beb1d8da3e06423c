import Downhill.Proofs.Search.WolfeConditions

/-!
# Caps and brackets of the Wolfe-Powell search

In exact arithmetic halving fails at its cap if none of its steps has a sufficient decrease
(`Ray.raises_halve_of_cap`), and doubling if all of them have (`Ray.raises_double_of_cap`).

Where they end they leave a step whose double has no sufficient decrease
(`Ray.not_sufficient_of_yields_halve`, `Ray.not_sufficient_of_yields_double`). If each such step
satisfies the curvature condition then the search does not bisect, whatever its cap
(`Ray.records_search_of_double`).
-/

namespace Downhill.WolfePowell

variable {σ : Type} {n : Nat} {F : Vec ℝ n → ℝ} {G : Vec ℝ n → Vec ℝ n}

/-- The event is not that of a bisection. -/
def NotBisection (e : Event ℝ) : Prop := e.message ≠ "Wolfe-Powell bisection"

namespace Ray

variable {ray : Ray σ ℝ n}

/-! ### Phases that use up their cap -/

/-- Halving fails if none of its steps has a sufficient decrease. -/
theorem raises_halve_of_cap (hf : ray.objective.Evaluates F G) :
    ∀ {remaining taken : Nat} {t : ℝ} {tally : Tally},
      (∀ j < remaining, ¬ ray.Sufficient F (t / 2 ^ (j + 1))) →
      (ray.halve remaining taken t tally).Raises
        (ray.failure .halving (taken + remaining) (t / 2 ^ remaining)) := by
  intro remaining
  induction remaining with
  | zero =>
    intro taken t tally _
    rw [Ray.halve, pow_zero, div_one, Nat.add_zero]
    exact Run.raises_throw _
  | succ remaining ih =>
    intro taken t tally hfail
    -- the steps after the first halving are those that halve `t / 2`
    have hhalf : ∀ j : Nat, t / 2 ^ (j + 1) = t / 2 / 2 ^ j := by
      intro j
      rw [div_div, ← pow_succ']
    have hfirst : ¬ ray.Sufficient F (t / 2) := by
      have := hfail 0 (Nat.succ_pos _)
      rwa [zero_add, pow_one] at this
    refine (computes_trial hf _).bind_raises ((Run.computes_record _).bind_raises ?_)
    -- the first halving counts as taken, and the induction hypothesis covers the others
    rw [Scalar.half_real, mul_one_div, if_neg (mt (decreases_trialAt _).mp hfirst), hhalf,
      ← Nat.add_assoc, Nat.add_right_comm]
    refine ih fun j hj => ?_
    rw [trialAt_size, ← hhalf]
    exact hfail (j + 1) (Nat.succ_lt_succ hj)

/-- Doubling fails if all of its steps have a sufficient decrease. -/
theorem raises_double_of_cap (hf : ray.objective.Evaluates F G) :
    ∀ {remaining taken : Nat} {t : ℝ} {gradient : Option (Vec ℝ n)} {tally : Tally},
      (∀ j < remaining, ray.Sufficient F (t * 2 ^ (j + 1))) →
      (ray.double remaining taken (ray.trialAt F t) gradient tally).Raises
        (ray.failure .doubling (taken + remaining) (t * 2 ^ remaining)) := by
  intro remaining
  induction remaining with
  | zero =>
    intro taken t gradient tally _
    rw [Ray.double, pow_zero, mul_one, Nat.add_zero]
    exact Run.raises_throw _
  | succ remaining ih =>
    intro taken t gradient tally hsuff
    -- the steps after the first doubling are those that double `t * 2`
    have htwice : ∀ j : Nat, t * 2 ^ (j + 1) = t * 2 * 2 ^ j := by
      intro j
      rw [mul_assoc, ← pow_succ']
    have hfirst : ray.Sufficient F (t * 2) := by
      have := hsuff 0 (Nat.succ_pos _)
      rwa [zero_add, pow_one] at this
    refine (computes_trial hf _).bind_raises ((Run.computes_record _).bind_raises ?_)
    rw [Scalar.two_real, trialAt_size, if_pos ((decreases_trialAt _).mpr hfirst), htwice,
      ← Nat.add_assoc, Nat.add_right_comm]
    refine ih fun j hj => ?_
    rw [← htwice]
    exact hsuff (j + 1) (Nat.succ_lt_succ hj)

theorem raises_search_of_halve (hf : ray.objective.Evaluates F G) (hfail : ¬ ray.Sufficient F 1)
    {tally : Tally} {e : Failure ℝ}
    (hphase : (ray.halve ray.params.maxIterations 0 1 tally.value).Raises e) :
    (ray.search tally).Raises e := by
  refine (computes_trial hf 1).bind_raises ?_
  rw [if_neg (mt (decreases_trialAt 1).mp hfail)]
  exact hphase.bind

theorem raises_search_of_double (hf : ray.objective.Evaluates F G) (hsuff : ray.Sufficient F 1)
    (hcurv : ¬ ray.slopeBound ≤ (G (ray.pointAt 1)).dot ray.direction) {tally : Tally}
    {e : Failure ℝ}
    (hphase : (ray.double ray.params.maxIterations 0 (ray.trialAt F 1)
      (some (G (ray.pointAt 1))) tally.value.gradient).Raises e) :
    (ray.search tally).Raises e := by
  refine (computes_trial hf 1).bind_raises ?_
  rw [if_pos ((decreases_trialAt 1).mpr hsuff)]
  refine (hf.gradient _).bind_raises ?_
  show Run.Raises (ite (ray.slopeBound ≤ (G (ray.pointAt 1)).dot ray.direction) _ _) _
  rw [if_neg hcurv]
  exact hphase.bind

/-! ### Searches that halve or double -/

section Powers

variable {m : Nat} (hf : ray.objective.Evaluates F G) (tally : Tally)

include hf

/-- The first power of two below one with a sufficient decrease is the step of the search if the
curvature condition holds there. -/
theorem computes_search_of_halvings (hm : m < ray.params.maxIterations)
    (hfail : ∀ j ≤ m, ¬ ray.Sufficient F (1 / 2 ^ j)) (hsuff : ray.Sufficient F (1 / 2 ^ (m + 1)))
    (hcurv : ray.slopeBound ≤ (G (ray.pointAt (1 / 2 ^ (m + 1)))).dot ray.direction) :
    ∃ tally', (ray.search tally).Computes (ray.stepAt F G (1 / 2 ^ (m + 1)) tally') := by
  obtain ⟨halved, hphase⟩ := computes_halve hf m ray.params.maxIterations 0 1 tally.value hm
    (fun j hj => hfail (j + 1) hj) hsuff
  -- after halving the gradient is evaluated, and the bracket needs no bisection
  obtain ⟨tally', hstep⟩ := computes_refine_of_curvature hf (carried_none _) hcurv halved
  refine ⟨tally', computes_search_of_halve hf ?_ hphase hstep⟩
  have hfirst := hfail 0 (Nat.zero_le m)
  rwa [pow_zero, div_one] at hfirst

/-- Halving fails if the cap admits no sufficient decrease. -/
theorem raises_search_of_halvings
    (hfail : ∀ j ≤ ray.params.maxIterations, ¬ ray.Sufficient F (1 / 2 ^ j)) :
    (ray.search tally).Raises
      (ray.failure .halving ray.params.maxIterations (1 / 2 ^ ray.params.maxIterations)) := by
  -- the first trial stands for the power zero
  have hfirst := hfail 0 (Nat.zero_le _)
  rw [pow_zero, div_one] at hfirst
  have hphase : (ray.halve ray.params.maxIterations 0 1 tally.value).Raises
      (ray.failure .halving (0 + ray.params.maxIterations) (1 / 2 ^ ray.params.maxIterations)) :=
    raises_halve_of_cap hf fun j hj => hfail (j + 1) hj
  rw [Nat.zero_add] at hphase
  exact raises_search_of_halve hf hfirst hphase

variable (hcurv : ¬ ray.slopeBound ≤ (G (ray.pointAt 1)).dot ray.direction)

include hcurv

/-- The last power of two with a sufficient decrease is the step of the search if the curvature
condition holds there, but not at one. -/
theorem computes_search_of_doublings (hm : m < ray.params.maxIterations)
    (hsuff : ∀ j ≤ m, ray.Sufficient F (2 ^ j)) (hfail : ¬ ray.Sufficient F (2 ^ (m + 1)))
    (hcurv' : ray.slopeBound ≤ (G (ray.pointAt (2 ^ m))).dot ray.direction) :
    ∃ tally', (ray.search tally).Computes (ray.stepAt F G (2 ^ m) tally') := by
  -- doubling starts at one, with the gradient of the first trial
  obtain ⟨gradient, doubled, hphase, hcarried⟩ := computes_double hf m ray.params.maxIterations 0 1
    (some (G (ray.pointAt 1))) tally.value.gradient hm (carried_some _)
    (fun j hj => by rw [one_mul]; exact hsuff (j + 1) hj) (by rwa [one_mul])
  rw [one_mul] at hphase hcarried
  obtain ⟨tally', hstep⟩ := computes_refine_of_curvature hf hcarried hcurv' doubled
  refine ⟨tally', computes_search_of_double hf ?_ hcurv hphase hstep⟩
  have hfirst := hsuff 0 (Nat.zero_le m)
  rwa [pow_zero] at hfirst

/-- Doubling fails if all decreases are sufficient that the cap admits. -/
theorem raises_search_of_doublings
    (hsuff : ∀ j ≤ ray.params.maxIterations, ray.Sufficient F (2 ^ j)) :
    (ray.search tally).Raises
      (ray.failure .doubling ray.params.maxIterations (2 ^ ray.params.maxIterations)) := by
  have hfirst := hsuff 0 (Nat.zero_le _)
  rw [pow_zero] at hfirst
  have hphase : (ray.double ray.params.maxIterations 0 (ray.trialAt F 1)
      (some (G (ray.pointAt 1))) tally.value.gradient).Raises
      (ray.failure .doubling (0 + ray.params.maxIterations) (1 * 2 ^ ray.params.maxIterations)) :=
    raises_double_of_cap hf fun j hj => by
      rw [one_mul]
      exact hsuff (j + 1) hj
  rw [Nat.zero_add, one_mul] at hphase
  exact raises_search_of_double hf hfirst hcurv hphase

end Powers

/-! ### Searches without a bisection -/

section Events

variable {P : Event ℝ → Prop}

/-- Whatever halving ends with, the double of its step has no sufficient decrease. -/
theorem not_sufficient_of_yields_halve (hf : ray.objective.Evaluates F G) :
    ∀ {remaining taken : Nat} {t : ℝ} {tally tally' : Tally} {trial : Trial ℝ n},
      0 < t → ¬ ray.Sufficient F t →
      (ray.halve remaining taken t tally).Yields (trial, tally') →
      ∃ u, 0 < u ∧ trial = ray.trialAt F u ∧ ¬ ray.Sufficient F (u * 2) := by
  intro remaining
  induction remaining with
  | zero =>
    intro taken t tally tally' trial _ _ h
    exact absurd h Run.not_yields_throw
  | succ remaining ih =>
    intro taken t tally tally' trial ht hfail h
    rw [Ray.halve] at h
    obtain ⟨next, hnext, h⟩ := Run.exists_of_yields_bind h
    obtain rfl := (computes_trial hf _).eq_of_yields hnext
    replace h := Run.yields_of_bind_unit h
    have hpos : 0 < t * Scalar.half := reachable_pos.half ht
    split_ifs at h with hdec
    · cases Run.eq_of_yields_pure h
      -- the double of the half is the step before, which failed
      refine ⟨_, hpos, rfl, ?_⟩
      rwa [Scalar.half_real, mul_assoc, one_div_mul_cancel two_ne_zero, mul_one]
    · exact ih hpos (mt (decreases_trialAt _).mpr hdec) h

/-- Whatever doubling ends with, the double of its step has no sufficient decrease. -/
theorem not_sufficient_of_yields_double (hf : ray.objective.Evaluates F G) :
    ∀ {remaining taken : Nat} {t : ℝ} {gradient : Option (Vec ℝ n)} {tally tally' : Tally}
      {bracket : Bracket ℝ n},
      0 < t → ray.Carried G t gradient →
      (ray.double remaining taken (ray.trialAt F t) gradient tally).Yields (bracket, tally') →
      ∃ u, 0 < u ∧ bracket.lower = ray.trialAt F u ∧ ray.Carried G u bracket.gradient ∧
        ¬ ray.Sufficient F (u * 2) := by
  intro remaining
  induction remaining with
  | zero =>
    intro taken t gradient tally tally' bracket _ _ h
    exact absurd h Run.not_yields_throw
  | succ remaining ih =>
    intro taken t gradient tally tally' bracket ht hcarried h
    rw [Ray.double] at h
    obtain ⟨next, hnext, h⟩ := Run.exists_of_yields_bind h
    obtain rfl := (computes_trial hf _).eq_of_yields hnext
    replace h := Run.yields_of_bind_unit h
    split_ifs at h with hdec
    · exact ih (reachable_pos.double ht) (carried_none _) h
    -- doubling ends at a double that failed
    · cases Run.eq_of_yields_pure h
      rw [Scalar.two_real] at hdec
      exact ⟨t, ht, rfl, hcarried, mt (decreases_trialAt _).mpr hdec⟩

section Quiet

variable (hvalue : ∀ y, (ray.objective.value y).Records P)
  (hgradient : ∀ y, (ray.objective.gradient y).Records P)

include hvalue in
theorem records_trial (t : ℝ) : (ray.trial t).Records P :=
  (hvalue _).bind fun _ _ => Run.records_pure _ _

include hvalue in
theorem records_halve (hP : ∀ fields, P ⟨.trace, "Wolfe-Powell halving", fields⟩) :
    ∀ {remaining taken : Nat} {t : ℝ} {tally : Tally},
      (ray.halve remaining taken t tally).Records P := by
  intro remaining
  induction remaining with
  | zero => exact Run.records_throw _ _
  | succ remaining ih =>
    intro taken t tally
    rw [Ray.halve]
    refine (records_trial hvalue _).bind fun trial _ => ?_
    refine (Run.records_record (hP _)).bind fun _ _ => ?_
    split_ifs
    · exact Run.records_pure _ _
    · exact ih

include hvalue in
theorem records_double (hP : ∀ fields, P ⟨.trace, "Wolfe-Powell doubling", fields⟩) :
    ∀ {remaining taken : Nat} {lower : Trial ℝ n} {gradient : Option (Vec ℝ n)} {tally : Tally},
      (ray.double remaining taken lower gradient tally).Records P := by
  intro remaining
  induction remaining with
  | zero => exact Run.records_throw _ _
  | succ remaining ih =>
    intro taken lower gradient tally
    rw [Ray.double]
    refine (records_trial hvalue _).bind fun trial _ => ?_
    refine (Run.records_record (hP _)).bind fun _ _ => ?_
    split_ifs
    · exact ih
    · exact Run.records_pure _ _

/-- A bracket whose lower end satisfies the curvature condition is not bisected. -/
theorem records_bisect_of_curvature {remaining taken : Nat} {lower : Trial ℝ n}
    {gradient : Vec ℝ n} {upper : ℝ} {tally : Tally}
    (hcurv : ray.slopeBound ≤ gradient.dot ray.direction) :
    (ray.bisect remaining taken lower gradient upper tally).Records P := by
  unfold Ray.bisect
  rw [if_neg (by rw [tooSteep_iff]; exact not_lt.mpr hcurv)]
  exact Run.records_pure _ _

include hgradient in
theorem records_refine_of_curvature (hf : ray.objective.Evaluates F G) {bracket : Bracket ℝ n}
    {t : ℝ} (hlower : bracket.lower = ray.trialAt F t) (hcarried : ray.Carried G t bracket.gradient)
    (hcurv : ray.slopeBound ≤ (G (ray.pointAt t)).dot ray.direction) {tally : Tally} :
    (ray.refine bracket tally).Records P := by
  obtain ⟨lower, gradient, upper⟩ := bracket
  cases gradient with
  | some g =>
    refine records_bisect_of_curvature ?_
    rwa [hcarried g rfl]
  | none =>
    -- the gradient at the lower end is evaluated, which records nothing of its own
    refine (hgradient _).bind fun g hg => records_bisect_of_curvature ?_
    rw [hlower] at hg
    rwa [(hf.gradient _).eq_of_yields hg]

end Quiet

/-- If each step whose double has no sufficient decrease satisfies the curvature condition, the
search does not bisect. -/
theorem records_search_of_double (hf : ray.objective.Evaluates F G)
    (hvalue : ∀ y, (ray.objective.value y).Records NotBisection)
    (hgradient : ∀ y, (ray.objective.gradient y).Records NotBisection)
    (hcurv : ∀ t, 0 < t → ¬ ray.Sufficient F (t * 2) →
      ray.slopeBound ≤ (G (ray.pointAt t)).dot ray.direction) (tally : Tally) :
    (ray.search tally).Records NotBisection := by
  -- the messages of the other two phases differ from that of a bisection
  have hhalving : ∀ fields, NotBisection ⟨.trace, "Wolfe-Powell halving", fields⟩ := by
    intro fields
    show "Wolfe-Powell halving" ≠ "Wolfe-Powell bisection"
    decide
  have hdoubling : ∀ fields, NotBisection ⟨.trace, "Wolfe-Powell doubling", fields⟩ := by
    intro fields
    show "Wolfe-Powell doubling" ≠ "Wolfe-Powell bisection"
    decide
  unfold Ray.search
  refine (records_trial hvalue 1).bind fun first hfirst => ?_
  obtain rfl := (computes_trial hf 1).eq_of_yields hfirst
  dsimp only
  split_ifs with hdec
  · refine (hgradient _).bind fun g hg => ?_
    obtain rfl := (hf.gradient _).eq_of_yields hg
    split_ifs
    · exact Run.records_pure _ _
    · refine (records_double hvalue hdoubling).bind fun ⟨bracket, tally'⟩ hbracket => ?_
      obtain ⟨u, hu, hlower, hcarried, hfail⟩ :=
        not_sufficient_of_yields_double hf one_pos (carried_some _) hbracket
      exact records_refine_of_curvature hgradient hf hlower hcarried (hcurv u hu hfail)
  -- the bracket that halving leaves has no gradient yet
  · refine (records_halve hvalue hhalving).bind fun ⟨trial, tally'⟩ htrial => ?_
    obtain ⟨u, hu, rfl, hfail⟩ :=
      not_sufficient_of_yields_halve hf one_pos (mt (decreases_trialAt 1).mpr hdec) htrial
    exact records_refine_of_curvature hgradient hf rfl (carried_none _) (hcurv u hu hfail)

end Events

end Ray

end Downhill.WolfePowell
