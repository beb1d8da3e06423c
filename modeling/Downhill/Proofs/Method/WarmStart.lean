import Downhill.Proofs.Binary
import Downhill.Proofs.Method.Report

/-!
# Warm starts

* `warm_starts_continue`: a quasi-Newton run that was stopped by a tolerance, and was started again
  with a smaller one from the point and the matrix that it gave, does what a single run with the
  smaller tolerance does. So does a fit that was started again from the parameters that it gave.

A result has to hold all of the stage that the loop ended at. For quasi-Newton descent the value and
the gradient are evaluated again, and are the same. For a fit the damping has to be the initial one:
a rejected trial leaves the parameters where they are, so the loop can only end at the start or
after an accepted trial (`LevenbergMarquardt.damping_eq_or_of_holds`).

The stages of the second run and those of the single run then differ by offsets of their counters
and records only, which the steps do not look at (`State.Follows`).
-/

namespace Downhill

variable {σ α : Type} {m n : Nat}

/-- The outcome `whole` of a single run is put together from that of a first run and that of a
second one from where the first one ended. -/
structure Outcome.Continues (first rest whole : Outcome α n) : Prop where
  /-- The runs end at the same point. -/
  point : whole.point = rest.point
  /-- The runs end with the same value. -/
  value : whole.value = rest.value
  /-- The runs end with the same stopping functional. -/
  stationarity : whole.stationarity = rest.stationarity
  /-- The iterations add up. -/
  iterations : whole.iterations = first.iterations + rest.iterations
  /-- The values follow on each other, but for the value in between, which both parts have. -/
  history : ∃ v later, first.history.back? = some v ∧ rest.history = #[v] ++ later ∧
    whole.history = first.history ++ later

variable [Scalar α]

/-! ### Quasi-Newton descent -/

namespace QuasiNewton

/-- The result `whole` of a single run is put together from those of a first and a second one. -/
structure Result.Continues (first rest whole : Result α n) : Prop where
  /-- The outcomes are put together. -/
  outcome : first.outcome.Continues rest.outcome whole.outcome
  /-- The runs end with the same matrix. -/
  inverse : whole.inverse = rest.inverse
  /-- The resets add up. -/
  resets : whole.resets = first.resets + rest.resets

/-- The stage `s` of a single run follows on its stage `base` as `t` does in a run that was started
there. -/
structure State.Follows (base t s : State α n) : Prop where
  /-- The points are the same. -/
  point : s.point = t.point
  /-- The values are the same. -/
  value : s.value = t.value
  /-- The gradients are the same. -/
  gradient : s.gradient = t.gradient
  /-- The matrices are the same. -/
  inverse : s.inverse = t.inverse
  /-- The resets add up. -/
  resets : s.resets = base.resets + t.resets
  /-- The iterations add up. -/
  iterations : s.iterations = base.iterations + t.iterations
  /-- The histories go on in the same way. -/
  history : ∃ later, t.history = #[base.value] ++ later ∧ s.history = base.history ++ later

variable {config : Config α} {f : Objective σ α n} {base s t : State α n}

namespace State.Follows

theorem reset (h : State.Follows base t s) : State.Follows base t.reset s.reset :=
  { h with inverse := rfl, resets := congrArg (· + 1) h.resets }

theorem agree_descend (h : State.Follows base t s) :
    Run.Agree (fun a b => a.1 = b.1 ∧ State.Follows base a.2 b.2)
      (descend config t : Run σ α _) (descend config s) := by
  -- the direction is made of the matrix and the gradient, which are the same
  have hdirection : s.direction = t.direction := by
    unfold State.direction
    rw [h.inverse, h.gradient]
  unfold descend
  rw [hdirection, h.gradient]
  split_ifs
  -- an ascent direction resets the matrix in both runs
  · exact (Run.agree_record _ _).bind fun _ _ _ => Run.agree_pure ⟨rfl, h.reset⟩
  · exact Run.agree_pure ⟨rfl, h⟩

theorem agree_learn (h : State.Follows base t s) (point gradient : Vec α n) :
    Run.Agree (State.Follows base) (learn config t point gradient : Run σ α _)
      (learn config s point gradient) := by
  have hupdate : update s.inverse (point - s.point) (gradient - s.gradient) =
      update t.inverse (point - t.point) (gradient - t.gradient) := by
    rw [h.point, h.gradient, h.inverse]
  unfold learn
  rw [hupdate]
  split
  · exact Run.agree_pure { h with inverse := rfl }
  · exact (Run.agree_record _ _).bind fun _ _ _ => Run.agree_pure h.reset

/-- One iteration keeps the two runs together. -/
theorem agree_step (hf : f.Deterministic) (h : State.Follows base t s) :
    Run.Agree (State.Follows base) (step config f t) (step config f s) := by
  refine h.agree_descend.bind ?_
  rintro ⟨d, t⟩ ⟨_, s⟩ ⟨rfl, h⟩
  dsimp only
  rw [h.point, h.value, h.gradient]
  -- from one point, value and gradient the searches give one step
  refine (WolfePowell.determined_searchFrom hf _ _ _ _ _).agree.bind ?_
  rintro found _ rfl
  refine (h.agree_learn _ _).bind fun t s h => (Run.agree_record _ _).bind fun _ _ _ => ?_
  -- both histories grow by the value at this step
  obtain ⟨later, hrest, hwhole⟩ := h.history
  refine Run.agree_pure { h with
    point := rfl, value := rfl, gradient := rfl, iterations := congrArg (· + 1) h.iterations,
    history := ⟨later.push found.value, ?_, ?_⟩ }
  · rw [hrest, Array.append_push]
  · rw [hwhole, Array.append_push]

end State.Follows

theorem State.Follows.continues (h : State.Follows base t s)
    (hback : base.history.back? = some base.value) :
    base.result.Continues t.result s.result where
  outcome :=
    { point := h.point
      value := h.value
      stationarity := congrArg Vec.norm h.gradient
      iterations := h.iterations
      history := by
        obtain ⟨later, hrest, hwhole⟩ := h.history
        exact ⟨base.value, later, hback, hrest, hwhole⟩ }
  inverse := h.inverse
  resets := h.resets

variable {x : Vec α n} {r c : Nat} {A : Mat α r c}

/-- A stage of a run gives the first stage of one that is started there. -/
theorem computes_start_of_holds (hf : f.Deterministic) {k : Nat}
    (h : (routine config f x A).Holds k s) :
    (start f s.point s.inverse).Computes
      ⟨s.point, s.value, s.gradient, s.inverse, 0, 0, ⟨1, 1⟩, #[s.value]⟩ := by
  -- the value and gradient of a stage are those at its point, so evaluating them again changes
  -- nothing
  obtain ⟨hrecorded, hgradient, -⟩ := faithful_of_holds h
  exact ((hf.value _).computes_of_yields hrecorded.value_at).bind
    (((hf.gradient _).computes_of_yields hgradient).bind (Run.computes_pure _))

/-- A run that gives a result has not reached its cap. -/
theorem not_exhausts_of_yields (hf : f.Deterministic) {result : Result α n}
    (h : (minimizeFrom config f x A).Yields result) :
    ¬ (routine config f x A).Exhausts config.maxIterations := by
  rw [minimizeFrom_eq_run] at h
  exact Routine.not_exhausts_of_yields (deterministic_routine config hf x A) h

variable [Scalar.Ordered α] {eps : α}

/-- A run with a smaller tolerance has the stages of one with a larger tolerance. -/
theorem holds_of_tolerance_le [Inhabited σ] (hf : f.Deterministic) (heps : eps ≤ config.tolerance)
    (hvalid : Config.validate { config with tolerance := eps } = .ok ()) {k : Nat}
    (h : (routine config f x A).Holds k s) :
    (routine { config with tolerance := eps } f x A).Holds k s := by
  obtain ⟨first, hfirst, hreaches⟩ := h
  obtain ⟨-, B, hB, hfirst⟩ := start_of_yields_routine hfirst
  have hstart : (routine { config with tolerance := eps } f x A).start.Computes first :=
    (Run.computes_liftM hvalid).bind ((Run.computes_liftM hB).bind ((Run.computes_record _).bind
      ((determined_start hf x B).computes_of_yields hfirst)))
  exact ⟨first, hstart.yields, hreaches.of_continues (L := loop config f) rfl fun s habove =>
    Scalar.Ordered.lt_of_le_of_lt heps habove⟩

/-- The run from the result agrees with the single run. -/
theorem agree_minimizeFrom (hf : f.Deterministic) (heps : eps ≤ config.tolerance)
    {first : Result α n} (h : (minimizeFrom config f x A).Yields first)
    (hcap : ¬ (routine { config with tolerance := eps } f x A).Exhausts config.maxIterations) :
    Run.Agree first.Continues
      (minimizeFrom { config with tolerance := eps } f first.outcome.point first.inverse)
      (minimizeFrom { config with tolerance := eps } f x A) := by
  obtain ⟨session, _, _⟩ := id h
  have : Inhabited σ := ⟨session.memory⟩
  cases hvalid : Config.validate { config with tolerance := eps } with
  -- settings that the check refuses end both runs with its failure
  | error e => exact .inr ⟨e, (Run.raises_liftM hvalid).bind, (Run.raises_liftM hvalid).bind⟩
  | ok =>
    -- the single run passes through the stage that the first run ended at
    obtain ⟨k, hk, base, hbase, -, rfl⟩ := minimizeFrom_cases h
    have hrecorded := (faithful_of_holds hbase).recorded
    have hstart : (routine { config with tolerance := eps } f base.point
        base.inverse).start.Computes
        ⟨base.point, base.value, base.gradient, base.inverse, 0, 0, ⟨1, 1⟩, #[base.value]⟩ :=
      (Run.computes_liftM hvalid).bind ((Run.computes_liftM base.inverse.ofOrder_self).bind
        ((Run.computes_record _).bind (computes_start_of_holds hf hbase)))
    rw [minimizeFrom_eq_run, minimizeFrom_eq_run]
    refine (holds_of_tolerance_le hf heps hvalid hbase).agree_run (Q := State.Follows base)
      (deterministic_routine _ hf x A) rfl (fun t s h => ?_) (fun t s h => h.agree_step hf)
      (fun t s h => ?_) (fun t s h => ?_) hk hcap hstart
      ⟨rfl, rfl, rfl, rfl, rfl, rfl, #[], rfl, (Array.append_empty).symm⟩
    · show eps < t.gradient.norm ↔ eps < s.gradient.norm
      rw [h.gradient]
    · show Failure.capReached _ (some t.value) (some t.gradient.norm) eps = _
      rw [← h.value, ← h.gradient]
      rfl
    · exact (Run.agree_record _ _).bind fun _ _ _ =>
        Run.agree_pure (h.continues hrecorded.back)

end QuasiNewton

/-! ### Levenberg-Marquardt descent -/

namespace LevenbergMarquardt

/-- The result `whole` of a single fit is put together from those of a first and a second one. -/
structure Result.Continues (first rest whole : Result α m) : Prop where
  /-- The outcomes are put together. -/
  outcome : first.outcome.Continues rest.outcome whole.outcome
  /-- The dampings of the trials follow on each other. -/
  dampings : whole.dampings = first.dampings ++ rest.dampings
  /-- The rejected trials add up. -/
  rejected : whole.rejected = first.rejected + rest.rejected

/-- The stage `s` of a single fit follows on its stage `base` as `t` does in a fit that was started
there. -/
structure State.Follows (base t s : State α m) : Prop where
  /-- The parameters are the same. -/
  point : s.point = t.point
  /-- The linearizations are the same. -/
  model : s.model = t.model
  /-- The values are the same. -/
  value : s.value = t.value
  /-- The dampings of the next trial are the same. -/
  damping : s.damping = t.damping
  /-- The trials add up. -/
  trials : s.trials = base.trials + t.trials
  /-- The rejected trials add up. -/
  rejected : s.rejected = base.rejected + t.rejected
  /-- The dampings follow on those of the first trials. -/
  dampings : s.dampings = base.dampings ++ t.dampings
  /-- The histories go on in the same way. -/
  history : ∃ later, t.history = #[base.value] ++ later ∧ s.history = base.history ++ later

variable {config : Config α} {model : ResidualModel σ α m} {p : Vec α m} {base s t : State α m}

/-- Parameters that a rejected trial has left where they are do not end the loop. -/
theorem damping_eq_or_of_holds {k : Nat} (h : (routine config model p).Holds k s) :
    s.damping = config.initialDamping ∨ config.tolerance < s.stationarity := by
  refine h.invariant (I := fun _ s =>
    s.damping = config.initialDamping ∨ config.tolerance < s.stationarity) ?_ ?_
  · intro s hs
    obtain ⟨_, _, _, _, _, _, rfl⟩ := start_cases (start_of_yields_routine hs).2
    exact .inl rfl
  -- an accepted trial starts again with the initial damping, a rejected one stays above the
  -- tolerance
  · intro k s t _ _ habove hstep
    obtain ⟨_, _, _, _, ⟨_, _, _, _, _, rfl⟩ | ⟨_, rfl⟩⟩ := step_cases hstep
    · exact .inl rfl
    · exact .inr habove

namespace State.Follows

theorem stationarity (h : State.Follows base t s) : s.stationarity = t.stationarity := by
  unfold State.stationarity
  rw [h.model]

/-- One trial keeps the two fits together. -/
theorem agree_step (hmodel : model.Deterministic) (h : State.Follows base t s) :
    Run.Agree (State.Follows base) (step config model t) (step config model s) := by
  -- the trial point is made of the linearization, the damping and the point
  have htrial : (trialPoint config s : Run σ α _) = trialPoint config t := by
    unfold trialPoint
    rw [h.model, h.damping, h.point]
  have htrials := congrArg (· + 1) h.trials
  have hdampings : s.dampings.push s.damping = base.dampings ++ t.dampings.push t.damping := by
    rw [h.dampings, h.damping, Array.append_push]
  unfold step
  rw [htrial]
  refine (determined_trialPoint config t).agree.bind ?_
  rintro point _ rfl
  refine (hmodel.residual point).agree.bind ?_
  rintro residual _ rfl
  dsimp only
  rw [h.value]
  split_ifs
  -- accepted in both fits
  · refine (hmodel.jacobian point).agree.bind ?_
    rintro jacobian _ rfl
    refine (Run.determined_liftM _).agree.bind ?_
    rintro l _ rfl
    obtain ⟨later, hrest, hwhole⟩ := h.history
    refine (Run.agree_record _ _).bind fun _ _ _ => Run.agree_pure
      ⟨rfl, rfl, rfl, rfl, htrials, h.rejected, hdampings, later.push (halfNormSq residual), ?_, ?_⟩
    · rw [hrest, Array.append_push]
    · rw [hwhole, Array.append_push]
  -- rejected in both fits
  · refine (Run.agree_record _ _).bind fun _ _ _ => Run.agree_pure ?_
    exact { h with
      value := rfl, damping := congrArg (· * config.dampingGrowth) h.damping, trials := htrials,
      rejected := congrArg (· + 1) h.rejected, dampings := hdampings }

theorem continues (h : State.Follows base t s) (hback : base.history.back? = some base.value) :
    base.result.Continues t.result s.result where
  outcome :=
    { point := h.point
      value := h.value
      stationarity := h.stationarity
      iterations := h.trials
      history := by
        obtain ⟨later, hrest, hwhole⟩ := h.history
        exact ⟨base.value, later, hback, hrest, hwhole⟩ }
  dampings := h.dampings
  rejected := h.rejected

end State.Follows

/-- A stage of a fit gives the first stage of one that is started there. -/
theorem computes_start_of_holds (hmodel : model.Deterministic) (config' : Config α) {k : Nat}
    (h : (routine config model p).Holds k s) :
    (start config' model s.point).Computes
      ⟨s.point, s.model, s.value, config'.initialDamping, 0, 0, 1, #[], #[s.value]⟩ := by
  obtain ⟨⟨residual, jacobian, hresidual, hjacobian, hl⟩, -, _, -, hrecorded⟩ := faithful_of_holds h
  have hvalue : s.value = halfNormSq residual :=
    ((hmodel.value _).computes_of_yields (yields_value hresidual)).eq_of_yields
      hrecorded.value_at
  rw [hvalue]
  exact ((hmodel.residual _).computes_of_yields hresidual).bind
    (((hmodel.jacobian _).computes_of_yields hjacobian).bind ((Run.computes_liftM hl).bind
      (Run.computes_pure _)))

/-- A fit that gives a result has not reached its cap. -/
theorem not_exhausts_of_yields (hmodel : model.Deterministic) {result : Result α m}
    (h : (minimizeWithDamping config model p).Yields result) :
    ¬ (routine config model p).Exhausts config.maxIterations := by
  rw [minimizeWithDamping_eq_run] at h
  exact Routine.not_exhausts_of_yields (deterministic_routine config hmodel p) h

variable [Scalar.Ordered α] {eps : α}

/-- A fit with a smaller tolerance has the stages of one with a larger tolerance. -/
theorem holds_of_tolerance_le [Inhabited σ] (hmodel : model.Deterministic)
    (heps : eps ≤ config.tolerance)
    (hvalid : Config.validate { config with tolerance := eps } = .ok ()) {k : Nat}
    (h : (routine config model p).Holds k s) :
    (routine { config with tolerance := eps } model p).Holds k s := by
  obtain ⟨first, hfirst, hreaches⟩ := h
  have hstart : (routine { config with tolerance := eps } model p).start.Computes first :=
    (Run.computes_liftM hvalid).bind ((Run.computes_record _).bind
      ((determined_start config hmodel p).computes_of_yields (start_of_yields_routine hfirst).2))
  exact ⟨first, hstart.yields, hreaches.of_continues (L := loop config model) rfl fun s habove =>
    Scalar.Ordered.lt_of_le_of_lt heps habove⟩

/-- The fit from the result agrees with the single fit. -/
theorem agree_minimizeWithDamping (hmodel : model.Deterministic) (heps : eps ≤ config.tolerance)
    {first : Result α m} (h : (minimizeWithDamping config model p).Yields first)
    (hcap : ¬ (routine { config with tolerance := eps } model p).Exhausts config.maxIterations) :
    Run.Agree first.Continues
      (minimizeWithDamping { config with tolerance := eps } model first.outcome.point)
      (minimizeWithDamping { config with tolerance := eps } model p) := by
  obtain ⟨session, _, _⟩ := id h
  have : Inhabited σ := ⟨session.memory⟩
  cases hvalid : Config.validate { config with tolerance := eps } with
  -- settings that the check refuses end both fits with its failure
  | error e => exact .inr ⟨e, (Run.raises_liftM hvalid).bind, (Run.raises_liftM hvalid).bind⟩
  | ok =>
    obtain ⟨k, hk, base, hbase, hend, rfl⟩ := minimizeWithDamping_cases h
    obtain ⟨-, -, _, -, hrecorded⟩ := faithful_of_holds hbase
    -- the second fit forgets the damping, which is the initial one as the first fit ended here
    have hdamping := (damping_eq_or_of_holds hbase).resolve_right hend
    have hstart : (routine { config with tolerance := eps } model base.point).start.Computes
        ⟨base.point, base.model, base.value, config.initialDamping, 0, 0, 1, #[], #[base.value]⟩ :=
      (Run.computes_liftM hvalid).bind ((Run.computes_record _).bind
        (computes_start_of_holds hmodel { config with tolerance := eps } hbase))
    rw [minimizeWithDamping_eq_run, minimizeWithDamping_eq_run]
    refine (holds_of_tolerance_le hmodel heps hvalid hbase).agree_run (Q := State.Follows base)
      (deterministic_routine _ hmodel p) rfl (fun t s h => ?_) (fun t s h => h.agree_step hmodel)
      (fun t s h => ?_) (fun t s h => ?_) hk hcap hstart
      ⟨rfl, rfl, rfl, hdamping, rfl, rfl, Array.append_empty.symm, #[], rfl,
        Array.append_empty.symm⟩
    · show eps < t.stationarity ↔ eps < s.stationarity
      rw [h.stationarity]
    · show Failure.capReached _ (some t.value) (some t.stationarity) eps = _
      rw [← h.value, ← h.stationarity]
      rfl
    · exact (Run.agree_record _ _).bind fun _ _ _ =>
        Run.agree_pure (h.continues hrecorded.back)

end LevenbergMarquardt

/-! ### Both methods -/

/-- **Warm starts**, in any arithmetic with an order. A run with one tolerance gave a result. Then
the run with a smaller tolerance from the point and the matrix of this result agrees with the single
run with the smaller tolerance from the start, unless the cap is too small for that one: both raise
the same failure, or the result of the single run is put together from those of the other two. The
same holds of a fit from the parameters of a result. -/
theorem warm_starts_continue [Scalar.Ordered α] :
    (∀ f : Objective σ α n, f.Deterministic →
      ∀ (config : QuasiNewton.Config α) (eps : α), eps ≤ config.tolerance →
        ∀ (x : Vec α n) (r c : Nat) (A : Mat α r c) first,
        (QuasiNewton.minimizeFrom config f x A).Yields first →
        ¬ (QuasiNewton.routine { config with tolerance := eps } f x A).Exhausts
          config.maxIterations →
        Run.Agree first.Continues
          (QuasiNewton.minimizeFrom { config with tolerance := eps } f first.outcome.point
            first.inverse)
          (QuasiNewton.minimizeFrom { config with tolerance := eps } f x A)) ∧
    ∀ model : ResidualModel σ α m, model.Deterministic →
      ∀ (config : LevenbergMarquardt.Config α) (eps : α), eps ≤ config.tolerance →
        ∀ p first, (LevenbergMarquardt.minimizeWithDamping config model p).Yields first →
        ¬ (LevenbergMarquardt.routine { config with tolerance := eps } model p).Exhausts
          config.maxIterations →
        Run.Agree first.Continues
          (LevenbergMarquardt.minimizeWithDamping { config with tolerance := eps } model
            first.outcome.point)
          (LevenbergMarquardt.minimizeWithDamping { config with tolerance := eps } model p) :=
  ⟨fun _ hf _ _ heps _ _ _ _ _ h hcap => QuasiNewton.agree_minimizeFrom hf heps h hcap,
    fun _ hmodel _ _ heps _ _ h hcap =>
      LevenbergMarquardt.agree_minimizeWithDamping hmodel heps h hcap⟩

/-- A descent that ends early. -/
def earlyDescent : QuasiNewton.Config Float := { tolerance := 5 }

/-- The first of two iterations, and the first three of six trials, of which two are rejected in
each half. -/
theorem warm_starts_continue_doubles :
    (∃ first rest whole : QuasiNewton.Result Float 1,
      (QuasiNewton.minimizeFrom earlyDescent doubleObjective #v[3]
        (.identity : Mat Float 1 1)).Yields first ∧
      (QuasiNewton.minimizeFrom { earlyDescent with tolerance := 0.001 } doubleObjective
        first.outcome.point first.inverse).Computes rest ∧
      (QuasiNewton.minimizeFrom { earlyDescent with tolerance := 0.001 } doubleObjective #v[3]
        (.identity : Mat Float 1 1)).Computes whole ∧
      first.Continues rest whole ∧ first.outcome.iterations = 1 ∧ whole.outcome.iterations = 2) ∧
    ∃ first rest whole : LevenbergMarquardt.Result Float 1,
      (LevenbergMarquardt.minimizeWithDamping looseFit doubleResidual #v[0.3]).Yields first ∧
      (LevenbergMarquardt.minimizeWithDamping { looseFit with tolerance := 0.45 } doubleResidual
        first.outcome.point).Computes rest ∧
      (LevenbergMarquardt.minimizeWithDamping { looseFit with tolerance := 0.45 } doubleResidual
        #v[0.3]).Computes whole ∧
      first.Continues rest whole ∧ (first.outcome.iterations, first.rejected) = (3, 2) ∧
      (whole.outcome.iterations, whole.rejected) = (6, 4) := by
  obtain ⟨hquasi, hfits⟩ := warm_starts_continue (σ := Unit) (α := Float) (n := 1) (m := 1)
  refine ⟨?_, ?_⟩
  · have hdet := doubleParabola.deterministic (σ := Unit) 1
    obtain ⟨first, hfirst, hone⟩ : ∃ first : QuasiNewton.Result Float 1,
        (QuasiNewton.minimizeFrom earlyDescent doubleObjective #v[3]
          (.identity : Mat Float 1 1)).Yields first ∧ first.outcome.iterations = 1 :=
      Run.exists_yields_of_start (fun result : QuasiNewton.Result Float 1 =>
        result.outcome.iterations) () (by decide +kernel)
    obtain ⟨whole, hwhole, htwo⟩ : ∃ whole : QuasiNewton.Result Float 1,
        (QuasiNewton.minimizeFrom { earlyDescent with tolerance := 0.001 } doubleObjective #v[3]
          (.identity : Mat Float 1 1)).Yields whole ∧ whole.outcome.iterations = 2 :=
      Run.exists_yields_of_start (fun result : QuasiNewton.Result Float 1 =>
        result.outcome.iterations) () (by decide +kernel)
    -- a run that gave a result did not reach its cap
    have hcap := QuasiNewton.not_exhausts_of_yields hdet hwhole
    obtain ⟨rest, hrest, hwhole, hcontinues⟩ := (hquasi _ hdet earlyDescent 0.001
      (by decide +kernel) _ _ _ _ _ hfirst hcap).exists_of_yields hwhole
    exact ⟨first, rest, whole, hfirst, hrest, hwhole, hcontinues, hone, htwo⟩
  · have hdet := ResidualModel.deterministic_polynomial (σ := Unit) [([1, 0, 1] : List Float)] 1
    obtain ⟨first, hfirst, hthree⟩ : ∃ first : LevenbergMarquardt.Result Float 1,
        (LevenbergMarquardt.minimizeWithDamping looseFit doubleResidual #v[0.3]).Yields first ∧
          (first.outcome.iterations, first.rejected) = (3, 2) :=
      Run.exists_yields_of_start (fun result : LevenbergMarquardt.Result Float 1 =>
        (result.outcome.iterations, result.rejected)) () (by decide +kernel)
    obtain ⟨whole, hwhole, hsix⟩ : ∃ whole : LevenbergMarquardt.Result Float 1,
        (LevenbergMarquardt.minimizeWithDamping { looseFit with tolerance := 0.45 } doubleResidual
          #v[0.3]).Yields whole ∧ (whole.outcome.iterations, whole.rejected) = (6, 4) :=
      Run.exists_yields_of_start (fun result : LevenbergMarquardt.Result Float 1 =>
        (result.outcome.iterations, result.rejected)) () (by decide +kernel)
    have hcap := LevenbergMarquardt.not_exhausts_of_yields hdet hwhole
    obtain ⟨rest, hrest, hwhole, hcontinues⟩ := (hfits _ hdet looseFit 0.45 (by decide +kernel) _ _
      hfirst hcap).exists_of_yields hwhole
    exact ⟨first, rest, whole, hfirst, hrest, hwhole, hcontinues, hthree, hsix⟩

end Downhill
