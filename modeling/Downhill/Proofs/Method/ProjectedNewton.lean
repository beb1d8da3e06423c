import Downhill.Method.ProjectedNewton
import Downhill.Proofs.Determinism
import Downhill.Proofs.Loop
import Downhill.Proofs.Search.ProjectedBacktracking

/-!
# Runs of projected inexact Newton descent

How the parts of an iteration end, over every arithmetic:

* `innerStep_cases`, `innerIterate_cases`, `start_cases` and `step_cases` list the ways in which
  they succeed;
* `fails_innerIterate`, `fails_start`, `fails_step`, `iterate_fails` and `fails_minimize` list the
  ways in which they fail.

`minimize_eq_run` presents a run as a `Routine`. `Reached` says which stages it passes through,
without counting the steps.
-/

namespace Downhill.ProjectedNewton

variable {σ α : Type} [Scalar α] {n : Nat} {config : Config α} {f : Objective σ α n}
  {P : Projection α n} {x d : Vec α n} {e : Failure α}

/-- The tolerance of accepted settings is not zero or less. -/
theorem Config.not_le_of_validate (h : config.validate = .ok ()) : ¬ config.tolerance ≤ 0 := by
  unfold Config.validate at h
  split_ifs at h with htol
  exact htol

/-- Accepted settings have accepted settings of the line search. -/
theorem Config.validateBacktracking_of_validate (h : config.validate = .ok ()) :
    config.search.validateBacktracking = .ok () := by
  unfold Config.validate at h
  split_ifs at h
  exact h

/-! ### The inner loop -/

/-- The stage after an inner step, where the reduced Hessian sends the direction to `image`. -/
def Inner.advance (s : Inner α n) (image : Vec α n) : Inner α n :=
  let t := s.residual.normSq / s.direction.dot image
  let residual := s.residual + t * image
  { point := s.point + t * s.direction
    residual
    direction := (residual.normSq / s.residual.normSq) * s.direction - residual
    steps := s.steps + 1 }

/-- The curvature along the direction of a stage is not positive. -/
def Inner.Flat (tolerance : α) (s : Inner α n) (image : Vec α n) : Prop :=
  s.direction.dot image ≤ tolerance * s.direction.normSq

/-- An inner step finds that the curvature is flat, or advances. -/
theorem innerStep_cases {s : Inner α n} {next : Option (Inner α n)}
    (h : (innerStep config f P x s).Yields next) :
    ∃ image, (reducedHessian f P x s.direction).Yields image ∧
      (s.Flat config.tolerance image ∧ next = none ∨
        ¬ s.Flat config.tolerance image ∧ next = some (s.advance image)) := by
  unfold innerStep at h
  obtain ⟨image, himage, h⟩ := Run.exists_of_yields_bind h
  refine ⟨image, himage, ?_⟩
  dsimp only at h
  split_ifs at h with hflat
  · exact .inl ⟨hflat, Run.eq_of_yields_pure (Run.yields_of_bind_unit h)⟩
  · exact .inr ⟨hflat, Run.eq_of_yields_pure h⟩

theorem computes_innerStep_of_flat {s : Inner α n} {image : Vec α n}
    (himage : (reducedHessian f P x s.direction).Computes image)
    (hflat : s.Flat config.tolerance image) : (innerStep config f P x s).Computes none := by
  unfold innerStep
  refine himage.bind ?_
  unfold Inner.Flat at hflat
  dsimp only
  rw [if_pos hflat]
  exact (Run.computes_record _).bind (Run.computes_pure _)

/-- Any other one makes the stage advance. -/
theorem computes_innerStep_of_not_flat {s : Inner α n} {image : Vec α n}
    (himage : (reducedHessian f P x s.direction).Computes image)
    (hflat : ¬ s.Flat config.tolerance image) :
    (innerStep config f P x s).Computes (some (s.advance image)) := by
  unfold innerStep
  refine himage.bind ?_
  unfold Inner.Flat at hflat
  dsimp only
  rw [if_neg hflat]
  exact Run.computes_pure _

/-- An inner step fails with the reduced Hessian only. -/
theorem fails_innerStep {s : Inner α n} (h : (innerStep config f P x s).Fails e) :
    (reducedHessian f P x s.direction).Fails e := by
  unfold innerStep at h
  rcases Run.fails_or_of_fails_bind h with h | ⟨image, _, h⟩
  · exact h
  dsimp only at h
  split_ifs at h
  · replace h := Run.fails_of_record_bind h
    exact absurd h Run.not_fails_pure
  · exact absurd h Run.not_fails_pure

section Loop

variable {p : InnerProblem σ α n} {remaining : Nat} {s s' : Inner α n} {inner : Vec α n}
  {steps : Nat}

/-- The inner loop ends at this stage or makes a step. -/
theorem innerIterate_cases (h : (innerIterate p remaining s).Yields (inner, steps)) :
    (¬ p.forcing < s.residual.norm ∧ inner = s.point ∧ steps = s.steps) ∨
      p.forcing < s.residual.norm ∧ ∃ k, remaining = k + 1 ∧
        ((innerStep p.config p.objective p.projection p.base s).Yields none ∧
            inner = s.point ∧ steps = s.steps + 1 ∨
          ∃ next, (innerStep p.config p.objective p.projection p.base s).Yields (some next) ∧
            (innerIterate p k next).Yields (inner, steps)) := by
  unfold innerIterate at h
  split_ifs at h with habove
  · cases remaining with
    | zero => exact absurd h Run.not_yields_throw
    | succ k =>
      obtain ⟨next, hnext, h⟩ := Run.exists_of_yields_bind h
      refine .inr ⟨habove, k, rfl, ?_⟩
      cases next with
      | none =>
        cases Run.eq_of_yields_pure h
        exact .inl ⟨hnext, rfl, rfl⟩
      | some next => exact .inr ⟨next, hnext, h⟩
  · cases Run.eq_of_yields_pure h
    exact .inl ⟨habove, rfl, rfl⟩

/-- A residual below the forcing term ends the loop. -/
theorem computes_innerIterate_of_not_lt (h : ¬ p.forcing < s.residual.norm) :
    (innerIterate p remaining s).Computes (s.point, s.steps) := by
  unfold innerIterate
  rw [if_neg h]
  exact Run.computes_pure _

/-- So does a flat curvature, whose step is counted. -/
theorem computes_innerIterate_of_none (habove : p.forcing < s.residual.norm)
    (hstep : (innerStep p.config p.objective p.projection p.base s).Computes none) :
    (innerIterate p (remaining + 1) s).Computes (s.point, s.steps + 1) := by
  rw [innerIterate, if_pos habove]
  exact hstep.bind (Run.computes_pure _)

/-- Otherwise the loop goes on from the next stage. -/
theorem computes_innerIterate_of_some (habove : p.forcing < s.residual.norm)
    (hstep : (innerStep p.config p.objective p.projection p.base s).Computes (some s'))
    (hrest : (innerIterate p remaining s').Computes (inner, steps)) :
    (innerIterate p (remaining + 1) s).Computes (inner, steps) := by
  rw [innerIterate, if_pos habove]
  exact hstep.bind hrest

/-- The inner loop fails with its cap or with the reduced Hessian. -/
theorem fails_innerIterate :
    ∀ {remaining : Nat} {s : Inner α n}, (innerIterate p remaining s).Fails e →
      (∃ stopping, e = .capReached (p.config.innerCap n) (some p.value) (some stopping) p.forcing) ∨
        ∃ d, (reducedHessian p.objective p.projection p.base d).Fails e := by
  intro remaining
  -- by induction on the steps that the cap admits
  induction remaining with
  | zero =>
    intro s h
    rw [innerIterate] at h
    split_ifs at h
    · exact .inl ⟨_, Run.eq_of_fails_throw h⟩
    · exact absurd h Run.not_fails_pure
  | succ remaining ih =>
    intro s h
    rw [innerIterate] at h
    split_ifs at h
    · rcases Run.fails_or_of_fails_bind h with h | ⟨next, _, h⟩
      · exact .inr ⟨_, fails_innerStep h⟩
      · cases next with
        | none => exact absurd h Run.not_fails_pure
        | some next => exact ih h
    · exact absurd h Run.not_fails_pure

end Loop

/-! ### The parts of an iteration -/

section Iteration

variable {s s' : State α n}

/-- The stage after a step that was found. -/
def State.moveTo (s : State α n) (found : ProjectedBacktracking.Step α n) (gradient : Vec α n)
    (stationarity : α) : State α n :=
  { point := found.point, value := found.value, gradient, stationarity,
    iterations := s.iterations + 1, tally := (s.tally + found.tally).gradient,
    history := s.history.push found.value }

/-- The inner loop of an iteration. -/
def inner (config : Config α) (f : Objective σ α n) (P : Projection α n) (s : State α n) :
    Run σ α (Vec α n × Nat) :=
  innerIterate (innerProblem config f P s) (config.innerCap n) (innerStart s)

/-- An iteration truncates the inner loop, searches, and evaluates the gradient where the search
ends. -/
theorem step_cases (h : (step config f P s).Yields s') :
    ∃ v steps found gradient stat, (inner config f P s).Yields (v, steps) ∧
      (ProjectedBacktracking.search f P s.point (direction s v) config.search).Yields found ∧
      (f.gradient found.point).Yields gradient ∧
      stationarity P found.point gradient = .ok stat ∧ s' = s.moveTo found gradient stat := by
  unfold step at h
  obtain ⟨⟨v, steps⟩, hinner, h⟩ := Run.exists_of_yields_bind h
  obtain ⟨found, hfound, h⟩ := Run.exists_of_yields_bind h
  obtain ⟨gradient, hgradient, h⟩ := Run.exists_of_yields_bind h
  obtain ⟨stat, hstat, h⟩ := Run.exists_of_yields_bind h
  replace h := Run.yields_of_bind_unit h
  exact ⟨v, steps, found, gradient, stat, hinner, hfound, hgradient, Run.ok_of_yields_liftM hstat,
    Run.eq_of_yields_pure h⟩

/-- Where these parts are certain, so is the iteration. -/
theorem computes_step {v : Vec α n} {steps : Nat} {found : ProjectedBacktracking.Step α n}
    {gradient : Vec α n} {stat : α} (hinner : (inner config f P s).Computes (v, steps))
    (hfound :
      (ProjectedBacktracking.search f P s.point (direction s v) config.search).Computes found)
    (hgradient : (f.gradient found.point).Computes gradient)
    (hstat : stationarity P found.point gradient = .ok stat) :
    (step config f P s).Computes (s.moveTo found gradient stat) :=
  hinner.bind (hfound.bind (hgradient.bind ((Run.computes_liftM hstat).bind
    ((Run.computes_record _).bind (Run.computes_pure _)))))

/-- An iteration fails with its inner loop, its line search, or at the point that was found. -/
theorem fails_step (h : (step config f P s).Fails e) :
    (inner config f P s).Fails e ∨
      (∃ v steps, (inner config f P s).Yields (v, steps) ∧
        (ProjectedBacktracking.search f P s.point (direction s v) config.search).Fails e) ∨
      f.CanFail e ∨ ∃ y g, stationarity P y g = .error e := by
  unfold step at h
  rcases Run.fails_or_of_fails_bind h with h | ⟨⟨v, steps⟩, hinner, h⟩
  · exact .inl h
  rcases Run.fails_or_of_fails_bind h with h | ⟨found, _, h⟩
  · exact .inr (.inl ⟨v, steps, hinner, h⟩)
  rcases Run.fails_or_of_fails_bind h with h | ⟨gradient, _, h⟩
  · exact .inr (.inr (.inl ⟨_, .inr h⟩))
  rcases Run.fails_or_of_fails_bind h with h | ⟨stat, _, h⟩
  · exact .inr (.inr (.inr ⟨_, _, Run.error_of_fails_liftM h⟩))
  · exact absurd (Run.fails_of_record_bind h) Run.not_fails_pure

/-- An iteration fails as its line search does. -/
theorem raises_step {v : Vec α n} {steps : Nat} (hinner : (inner config f P s).Computes (v, steps))
    (hsearch :
      (ProjectedBacktracking.search f P s.point (direction s v) config.search).Raises e) :
    (step config f P s).Raises e :=
  hinner.bind_raises hsearch.bind

/-- The loop fails at its cap, with a step, or after one. -/
theorem iterate_fails {remaining : Nat} (h : (iterate config f P remaining s).Fails e) :
    config.tolerance < s.stationarity ∧
      (e = .capReached config.maxIterations (some s.value) (some s.stationarity)
          config.tolerance ∨
        ∃ k, remaining = k + 1 ∧ ((step config f P s).Fails e ∨
          ∃ next, (step config f P s).Yields next ∧ (iterate config f P k next).Fails e)) := by
  unfold iterate at h
  split_ifs at h with habove
  · refine ⟨habove, ?_⟩
    cases remaining with
    | zero => exact .inl (Run.eq_of_fails_throw h)
    | succ k =>
      rcases Run.fails_or_of_fails_bind h with h | ⟨next, hnext, h⟩
      · exact .inr ⟨k, rfl, .inl h⟩
      · exact .inr ⟨k, rfl, .inr ⟨next, hnext, h⟩⟩
  · exact absurd h Run.not_fails_pure

/-- A product with the reduced Hessian is determined by the objective. -/
theorem determined_reducedHessian (hf : f.Deterministic) (P : Projection α n) (x d : Vec α n) :
    (reducedHessian f P x d).Determined :=
  (Run.determined_liftM _).bind fun _ => (hf.hessianProduct _ _).bind fun _ =>
    Run.determined_pure _

theorem determined_innerStep (config : Config α) (hf : f.Deterministic) (P : Projection α n)
    (x : Vec α n) (s : Inner α n) : (innerStep config f P x s).Determined := by
  refine (determined_reducedHessian hf _ _ _).bind fun _ => ?_
  dsimp only
  split_ifs
  · exact (Run.determined_record _).bind fun _ => Run.determined_pure _
  · exact Run.determined_pure _

theorem determined_innerIterate {p : InnerProblem σ α n} (hf : p.objective.Deterministic) :
    ∀ (remaining : Nat) (s : Inner α n), (innerIterate p remaining s).Determined := by
  intro remaining
  induction remaining with
  | zero =>
    intro s
    rw [innerIterate]
    split_ifs
    · exact Run.determined_throw _
    · exact Run.determined_pure _
  | succ remaining ih =>
    intro s
    rw [innerIterate]
    split_ifs
    · refine (determined_innerStep _ hf _ _ _).bind fun next => ?_
      cases next with
      | none => exact Run.determined_pure _
      | some next => exact ih next
    · exact Run.determined_pure _

theorem determined_step (config : Config α) (hf : f.Deterministic) (P : Projection α n)
    (s : State α n) : (step config f P s).Determined :=
  (determined_innerIterate hf _ _).bind fun _ =>
    (ProjectedBacktracking.determined_search hf _ _ _ _).bind fun _ => (hf.gradient _).bind fun _ =>
      (Run.determined_liftM _).bind fun _ => (Run.determined_record _).bind fun _ =>
        Run.determined_pure _

/-! ### The start -/

/-- The first stage is at the projection of the start. -/
theorem start_cases (h : (start f P x).Yields s) :
    ∃ point value gradient stat, P.project x = .ok point ∧ (f.value point).Yields value ∧
      (f.gradient point).Yields gradient ∧ stationarity P point gradient = .ok stat ∧
      s = ⟨point, value, gradient, stat, 0, ⟨1, 1⟩, #[value]⟩ := by
  unfold start at h
  obtain ⟨point, hpoint, h⟩ := Run.exists_of_yields_bind h
  obtain ⟨value, hvalue, h⟩ := Run.exists_of_yields_bind h
  obtain ⟨gradient, hgradient, h⟩ := Run.exists_of_yields_bind h
  obtain ⟨stat, hstat, h⟩ := Run.exists_of_yields_bind h
  exact ⟨point, value, gradient, stat, Run.ok_of_yields_liftM hpoint, hvalue, hgradient,
    Run.ok_of_yields_liftM hstat, Run.eq_of_yields_pure h⟩

/-- Where its evaluations are certain, so is the first stage. -/
theorem computes_start {point gradient : Vec α n} {value stat : α}
    (hpoint : P.project x = .ok point) (hvalue : (f.value point).Computes value)
    (hgradient : (f.gradient point).Computes gradient)
    (hstat : stationarity P point gradient = .ok stat) :
    (start f P x).Computes ⟨point, value, gradient, stat, 0, ⟨1, 1⟩, #[value]⟩ :=
  (Run.computes_liftM hpoint).bind (hvalue.bind (hgradient.bind
    ((Run.computes_liftM hstat).bind (Run.computes_pure _))))

/-- The start fails with the projection, an evaluation or the stationarity. -/
theorem fails_start (h : (start f P x).Fails e) :
    (∃ y, P.project y = .error e) ∨ f.CanFail e ∨ ∃ y g, stationarity P y g = .error e := by
  unfold start at h
  rcases Run.fails_or_of_fails_bind h with h | ⟨point, _, h⟩
  · exact .inl ⟨_, Run.error_of_fails_liftM h⟩
  rcases Run.fails_or_of_fails_bind h with h | ⟨value, _, h⟩
  · exact .inr (.inl ⟨_, .inl h⟩)
  rcases Run.fails_or_of_fails_bind h with h | ⟨gradient, _, h⟩
  · exact .inr (.inl ⟨_, .inr h⟩)
  rcases Run.fails_or_of_fails_bind h with h | ⟨stat, _, h⟩
  · exact .inr (.inr ⟨_, _, Run.error_of_fails_liftM h⟩)
  · exact absurd h Run.not_fails_pure

/-- The stationarity is the length of a projected gradient step. -/
theorem stationarity_cases {g : Vec α n} {v : α} (h : stationarity P x g = .ok v) :
    ∃ gap, P.gradientStep x g = .ok gap ∧ v = gap.norm := by
  unfold stationarity at h
  cases hgap : P.gradientStep x g with
  | error e =>
    rw [hgap] at h
    cases h
  | ok gap =>
    rw [hgap] at h
    exact ⟨gap, rfl, (Except.ok.inj h).symm⟩

/-- The first stage is determined by the objective. -/
theorem determined_start (hf : f.Deterministic) (P : Projection α n) (x : Vec α n) :
    (start f P x).Determined :=
  (Run.determined_liftM _).bind fun _ => (hf.value _).bind fun _ => (hf.gradient _).bind fun _ =>
    (Run.determined_liftM _).bind fun _ => Run.determined_pure _

/-! ### A run as a routine -/

/-- The outcome of a run that ends at a stage. -/
def State.outcome (s : State α n) : Outcome α n where
  point := s.point
  value := s.value
  stationarity := s.stationarity
  iterations := s.iterations
  valueEvaluations := s.tally.values
  gradientEvaluations := s.tally.gradients
  history := s.history

/-- The loop of a run. -/
def loop (config : Config α) (f : Objective σ α n) (P : Projection α n) :
    Loop σ α (State α n) where
  step := step config f P
  continues s := config.tolerance < s.stationarity
  decideContinues _ := inferInstance
  exhausted cap s := .capReached cap (some s.value) (some s.stationarity) config.tolerance

/-- A run: its loop, with what comes before and after it. -/
def routine (config : Config α) (f : Objective σ α n) (P : Projection α n) (x : Vec α n) :
    Routine σ α (State α n) (Outcome α n) where
  start := do
    config.validate
    Run.report config.verbose "start projected Newton-CG" [("dimension", .count n)]
    start f P x
  loop := loop config f P
  finish s := do
    Run.report config.verbose "projected Newton-CG terminated"
      [("iterations", .count s.iterations), ("stationarity", .number s.stationarity)]
    pure s.outcome

theorem iterate_eq_run (remaining : Nat) (s : State α n) :
    iterate config f P remaining s = (loop config f P).run config.maxIterations remaining s := by
  induction remaining generalizing s with
  | zero =>
    rw [iterate]
    rfl
  | succ remaining ih =>
    rw [iterate]
    simp only [ih]
    rfl

theorem minimize_eq_run (config : Config α) (f : Objective σ α n) (P : Projection α n)
    (x : Vec α n) :
    minimize config f P x = (routine config f P x).run config.maxIterations := by
  unfold minimize Routine.run
  simp only [iterate_eq_run, routine, bind_assoc]
  rfl

/-- Nothing in the routine depends on more than the objective. -/
theorem deterministic_routine (config : Config α) (hf : f.Deterministic) (P : Projection α n)
    (x : Vec α n) : (routine config f P x).Deterministic where
  start := (Run.determined_liftM _).bind fun _ => (Run.determined_record _).bind fun _ =>
    determined_start hf P x
  step := determined_step config hf P
  finish _ := (Run.determined_record _).bind fun _ => Run.determined_pure _

/-- A first stage is that of a run with valid settings. -/
theorem start_of_yields_routine (h : (routine config f P x).start.Yields s) :
    config.validate = .ok () ∧ (start f P x).Yields s := by
  obtain ⟨_, hvalid, h⟩ := Run.exists_of_yields_bind h
  exact ⟨Run.ok_of_yields_liftM hvalid, Run.yields_of_bind_unit h⟩

/-- The outcome of a run is that of the stage where the stationarity is not above the tolerance. -/
theorem minimize_cases {outcome : Outcome α n} (h : (minimize config f P x).Yields outcome) :
    ∃ k ≤ config.maxIterations, ∃ last, (routine config f P x).Holds k last ∧
      ¬ config.tolerance < last.stationarity ∧ outcome = last.outcome := by
  rw [minimize_eq_run] at h
  obtain ⟨k, hk, last, hlast, hend, h⟩ := Routine.exists_of_yields_run h
  exact ⟨k, hk, last, hlast, hend, Run.eq_of_yields_pure (Run.yields_of_bind_unit h)⟩

/-! ### The stages of a run -/

/-- The stages that a run from `x` passes through. -/
inductive Reached (config : Config α) (f : Objective σ α n) (P : Projection α n) (x : Vec α n) :
    State α n → Prop
  | start {s : State α n} (hvalid : config.validate = .ok ()) (h : (start f P x).Yields s) :
      Reached config f P x s
  | step {s s' : State α n} (hs : Reached config f P x s)
      (habove : config.tolerance < s.stationarity) (h : (step config f P s).Yields s') :
      Reached config f P x s'

/-- A run that reaches a stage has accepted settings. -/
theorem Reached.validate (hs : Reached config f P x s) : config.validate = .ok () := by
  induction hs with
  | start hvalid _ => exact hvalid
  | step _ _ _ ih => exact ih

/-- The loop only leads to stages that are reached. -/
theorem Reached.of_reaches {k : Nat} (hs : Reached config f P x s)
    (h : (loop config f P).Reaches s k s') : Reached config f P x s' := by
  induction h with
  | refl => exact hs
  | step _ habove hstep ih => exact ih.step habove hstep

/-- The loop fails at a reached stage, with its cap or with a step. -/
theorem fails_iterate {remaining : Nat} (hs : Reached config f P x s)
    (h : (iterate config f P remaining s).Fails e) :
    ∃ s', Reached config f P x s' ∧ config.tolerance < s'.stationarity ∧
      (e = .capReached config.maxIterations (some s'.value) (some s'.stationarity)
        config.tolerance ∨ (step config f P s').Fails e) := by
  rw [iterate_eq_run] at h
  rcases Loop.fails_run h with ⟨t, ht, habove, h⟩ | ⟨_, _, t, ht, habove, h⟩
  · exact ⟨t, hs.of_reaches ht, habove, .inl h⟩
  · exact ⟨t, hs.of_reaches ht, habove, .inr h⟩

/-- A failure of the first iteration is one of the run. -/
theorem raises_minimize (hvalid : config.validate = .ok ()) (hstart : (start f P x).Computes s)
    (habove : config.tolerance < s.stationarity) (hcap : config.maxIterations ≠ 0)
    (hstep : (step config f P s).Raises e) : (minimize config f P x).Raises e := by
  -- the cap admits the first iteration
  have hiterate : (iterate config f P config.maxIterations s).Raises e := by
    obtain ⟨k, hk⟩ := Nat.exists_eq_succ_of_ne_zero hcap
    rw [hk, iterate, if_pos habove]
    exact hstep.bind
  exact (Run.computes_liftM hvalid).bind_raises ((Run.computes_record _).bind_raises
    (hstart.bind_raises hiterate.bind))

/-- A run fails because of its settings, at the start, or in its loop. -/
theorem minimize_fails (h : (minimize config f P x).Fails e) :
    config.validate = .error e ∨ (start f P x).Fails e ∨
      ∃ first, config.validate = .ok () ∧ (start f P x).Yields first ∧
        (iterate config f P config.maxIterations first).Fails e := by
  unfold minimize at h
  rcases Run.fails_or_of_fails_bind h with h | ⟨_, hvalid, h⟩
  · exact .inl (Run.error_of_fails_liftM h)
  replace h := Run.fails_of_record_bind h
  rcases Run.fails_or_of_fails_bind h with h | ⟨first, hfirst, h⟩
  · exact .inr (.inl h)
  rcases Run.fails_or_of_fails_bind h with h | ⟨_, _, h⟩
  · exact .inr (.inr ⟨first, Run.ok_of_yields_liftM hvalid, hfirst, h⟩)
  · exact absurd (Run.fails_of_record_bind h) Run.not_fails_pure

/-- In the loop it fails at a reached stage, with its cap or with a step. -/
theorem fails_minimize (h : (minimize config f P x).Fails e) :
    config.validate = .error e ∨ (start f P x).Fails e ∨
      ∃ s, Reached config f P x s ∧ config.tolerance < s.stationarity ∧
        (e = .capReached config.maxIterations (some s.value) (some s.stationarity)
          config.tolerance ∨ (step config f P s).Fails e) := by
  rcases minimize_fails h with h | h | ⟨first, hvalid, hfirst, h⟩
  · exact .inl h
  · exact .inr (.inl h)
  · exact .inr (.inr (fails_iterate (.start hvalid hfirst) h))

end Iteration

end Downhill.ProjectedNewton
