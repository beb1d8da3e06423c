import Downhill.Method.QuasiNewton
import Downhill.Proofs.Determinism
import Downhill.Proofs.Loop
import Downhill.Proofs.Objective

/-!
# Runs of quasi-Newton descent

How the parts of an iteration end, over every arithmetic:

* `start_cases`, `descend_cases`, `learn_cases` and `step_cases` list the ways in which they
  succeed;
* `fails_step` and `fails_minimizeFrom` list the ways in which a step and a run fail.

`minimizeFrom_eq_run` presents a run as a `Routine`. `Reached` says which stages it passes through,
without counting the steps. A property of all results of a run is one that the first stage has and a
step keeps.
-/

namespace Downhill.QuasiNewton

variable {σ α : Type} [Scalar α] {n : Nat} {config : Config α} {f : Objective σ α n}
  {x d : Vec α n} {B : Mat α n n} {s s' t : State α n} {e : Failure α}

/-- The tolerance of accepted settings is not zero or less. -/
theorem Config.not_le_of_validate (h : config.validate = .ok ()) : ¬ config.tolerance ≤ 0 := by
  unfold Config.validate at h
  split_ifs at h with htol
  exact htol

/-! ### The parts of a run -/

/-- The first stage has the value and the gradient at the start. -/
theorem start_cases (h : (start f x B).Yields s) :
    ∃ value gradient, (f.value x).Yields value ∧ (f.gradient x).Yields gradient ∧
      s = ⟨x, value, gradient, B, 0, 0, ⟨1, 1⟩, #[value]⟩ := by
  unfold start at h
  obtain ⟨value, hvalue, h⟩ := Run.exists_of_yields_bind h
  obtain ⟨gradient, hgradient, h⟩ := Run.exists_of_yields_bind h
  exact ⟨value, gradient, hvalue, hgradient, Run.eq_of_yields_pure h⟩

/-- The stage after a step, where the matrix has been updated or reset before. -/
def State.moveTo (s : State α n) (found : WolfePowell.Step α n) : State α n :=
  { s with
    point := found.point, value := found.value, gradient := found.gradient,
    iterations := s.iterations + 1, tally := s.tally + found.tally,
    history := s.history.push found.value }

/-- A direction that does not descend is replaced after a reset. -/
theorem descend_cases (h : (descend config s : Run σ α _).Yields (d, t)) :
    (0 ≤ s.direction.dot s.gradient ∧ d = -s.gradient ∧ t = s.reset) ∨
      (¬ 0 ≤ s.direction.dot s.gradient ∧ d = s.direction ∧ t = s) := by
  unfold descend at h
  split_ifs at h with hascent
  · replace h := Run.yields_of_bind_unit h
    cases Run.eq_of_yields_pure h
    exact .inl ⟨hascent, rfl, rfl⟩
  · cases Run.eq_of_yields_pure h
    exact .inr ⟨hascent, rfl, rfl⟩

theorem computes_descend_of_ascent (h : 0 ≤ s.direction.dot s.gradient) :
    (descend config s : Run σ α _).Computes (-s.gradient, s.reset) := by
  unfold descend
  rw [if_pos h]
  exact (Run.computes_record _).bind (Run.computes_pure _)

theorem not_fails_descend : ¬ (descend config s : Run σ α _).Fails e := by
  intro h
  unfold descend at h
  split_ifs at h
  · replace h := Run.fails_of_record_bind h
    exact Run.not_fails_pure h
  · exact Run.not_fails_pure h

/-- The matrix is updated, or reset where it cannot be. -/
theorem learn_cases {point gradient : Vec α n}
    (h : (learn config s point gradient : Run σ α _).Yields t) :
    (∃ B, update s.inverse (point - s.point) (gradient - s.gradient) = some B ∧
      t = { s with inverse := B }) ∨
      (update s.inverse (point - s.point) (gradient - s.gradient) = none ∧ t = s.reset) := by
  unfold learn at h
  split at h
  · next B hB => exact .inl ⟨B, hB, Run.eq_of_yields_pure h⟩
  · next hnone => exact .inr ⟨hnone, Run.eq_of_yields_pure (Run.yields_of_bind_unit h)⟩

theorem computes_learn {point gradient : Vec α n}
    (h : update s.inverse (point - s.point) (gradient - s.gradient) = some B) :
    (learn config s point gradient : Run σ α _).Computes { s with inverse := B } := by
  unfold learn
  rw [h]
  exact Run.computes_pure _

theorem not_fails_learn {point gradient : Vec α n} :
    ¬ (learn config s point gradient : Run σ α _).Fails e := by
  intro h
  unfold learn at h
  split at h
  · exact Run.not_fails_pure h
  · replace h := Run.fails_of_record_bind h
    exact Run.not_fails_pure h

/-- A step finds a direction, searches along it and learns from what it found. -/
theorem step_cases (h : (step config f s).Yields s') :
    ∃ d t found u, (descend config s : Run σ α _).Yields (d, t) ∧
      (WolfePowell.searchFrom f t.point t.value t.gradient d config.search).Yields found ∧
      (learn config t found.point found.gradient : Run σ α _).Yields u ∧ s' = u.moveTo found := by
  unfold step at h
  obtain ⟨⟨d, t⟩, hdescend, h⟩ := Run.exists_of_yields_bind h
  obtain ⟨found, hfound, h⟩ := Run.exists_of_yields_bind h
  obtain ⟨u, hlearn, h⟩ := Run.exists_of_yields_bind h
  replace h := Run.yields_of_bind_unit h
  exact ⟨d, t, found, u, hdescend, hfound, hlearn, Run.eq_of_yields_pure h⟩

/-- Where these parts are certain, so is the step. -/
theorem computes_step {found : WolfePowell.Step α n}
    (hdescend : (descend config s : Run σ α _).Computes (d, t))
    (hfound : (WolfePowell.searchFrom f t.point t.value t.gradient d config.search).Computes found)
    (hlearn : (learn config t found.point found.gradient : Run σ α _).Computes s') :
    (step config f s).Computes (s'.moveTo found) :=
  hdescend.bind (hfound.bind (hlearn.bind ((Run.computes_record _).bind (Run.computes_pure _))))

/-- A step fails only with its line search. -/
theorem fails_step (h : (step config f s).Fails e) :
    ∃ d t, (descend config s : Run σ α _).Yields (d, t) ∧
      (WolfePowell.searchFrom f t.point t.value t.gradient d config.search).Fails e := by
  unfold step at h
  obtain ⟨⟨d, t⟩, hdescend, h⟩ := Run.fails_of_fails_bind not_fails_descend h
  rcases Run.fails_or_of_fails_bind h with h | ⟨found, _, h⟩
  · exact ⟨d, t, hdescend, h⟩
  · obtain ⟨u, _, h⟩ := Run.fails_of_fails_bind not_fails_learn h
    exact absurd (Run.fails_of_record_bind h) Run.not_fails_pure

/-- A run ends where the gradient is not above the tolerance. -/
theorem computes_iterate_of_not_lt {remaining : Nat} (h : ¬ config.tolerance < s.gradient.norm) :
    (iterate config f remaining s).Computes s := by
  unfold iterate
  rw [if_neg h]
  exact Run.computes_pure s

/-- Otherwise it goes on from the next stage. -/
theorem computes_iterate_of_step {remaining : Nat} (habove : config.tolerance < s.gradient.norm)
    (hstep : (step config f s).Computes t) (hrest : (iterate config f remaining t).Computes s') :
    (iterate config f (remaining + 1) s).Computes s' := by
  rw [iterate, if_pos habove]
  exact hstep.bind hrest

/-- The first stage is determined by the objective. -/
theorem determined_start (hf : f.Deterministic) (x : Vec α n) (B : Mat α n n) :
    (start f x B).Determined :=
  (hf.value x).bind fun _ => (hf.gradient x).bind fun _ => Run.determined_pure _

/-- The direction is determined by the stage. -/
theorem determined_descend (config : Config α) (s : State α n) :
    (descend config s : Run σ α _).Determined := by
  unfold descend
  split_ifs
  · exact (Run.determined_record _).bind fun _ => Run.determined_pure _
  · exact Run.determined_pure _

theorem determined_learn (config : Config α) (s : State α n) (point gradient : Vec α n) :
    (learn config s point gradient : Run σ α _).Determined := by
  unfold learn
  split
  · exact Run.determined_pure _
  · exact (Run.determined_record _).bind fun _ => Run.determined_pure _

/-- A step is determined by the objective. -/
theorem determined_step (config : Config α) (hf : f.Deterministic) (s : State α n) :
    (step config f s).Determined :=
  (determined_descend _ _).bind fun _ => (WolfePowell.determined_searchFrom hf _ _ _ _ _).bind
    fun _ => (determined_learn _ _ _ _).bind fun _ =>
      (Run.determined_record _).bind fun _ => Run.determined_pure _

/-! ### A run as a routine -/

/-- The result of a run that ends at a stage. -/
def State.result (s : State α n) : Result α n where
  outcome :=
    { point := s.point, value := s.value, stationarity := s.gradient.norm,
      iterations := s.iterations, valueEvaluations := s.tally.values,
      gradientEvaluations := s.tally.gradients, history := s.history }
  inverse := s.inverse
  resets := s.resets

/-- The loop of a run. -/
def loop (config : Config α) (f : Objective σ α n) : Loop σ α (State α n) where
  step := step config f
  continues s := config.tolerance < s.gradient.norm
  decideContinues _ := inferInstance
  exhausted cap s := .capReached cap (some s.value) (some s.gradient.norm) config.tolerance

section Routine

variable {r c : Nat} {A : Mat α r c}

/-- A run: its loop, with what comes before and after it. -/
def routine (config : Config α) (f : Objective σ α n) (x : Vec α n) (A : Mat α r c) :
    Routine σ α (State α n) (Result α n) where
  start := do
    config.validate
    let B ← A.ofOrder n
    Run.report config.verbose "start BFGS descent" [("dimension", .count n)]
    start f x B
  loop := loop config f
  finish s := do
    Run.report config.verbose "BFGS descent terminated"
      [("iterations", .count s.iterations), ("resets", .count s.resets),
       ("gradient_norm", .number s.gradient.norm)]
    pure s.result

theorem iterate_eq_run (remaining : Nat) (s : State α n) :
    iterate config f remaining s = (loop config f).run config.maxIterations remaining s := by
  induction remaining generalizing s with
  | zero =>
    rw [iterate]
    rfl
  | succ remaining ih =>
    rw [iterate]
    simp only [ih]
    rfl

theorem minimizeFrom_eq_run (config : Config α) (f : Objective σ α n) (x : Vec α n)
    (A : Mat α r c) :
    minimizeFrom config f x A = (routine config f x A).run config.maxIterations := by
  unfold minimizeFrom Routine.run
  simp only [iterate_eq_run, routine, bind_assoc]
  rfl

/-- Nothing in the routine depends on more than the objective. -/
theorem deterministic_routine (config : Config α) (hf : f.Deterministic) (x : Vec α n)
    (A : Mat α r c) : (routine config f x A).Deterministic where
  start := (Run.determined_liftM _).bind fun _ => (Run.determined_liftM _).bind fun _ =>
    (Run.determined_record _).bind fun _ => determined_start hf x _
  step := determined_step config hf
  finish _ := (Run.determined_record _).bind fun _ => Run.determined_pure _

/-- A first stage is that of a run with valid settings and a square matrix. -/
theorem start_of_yields_routine (h : (routine config f x A).start.Yields s) :
    config.validate = .ok () ∧ ∃ B, A.ofOrder n = .ok B ∧ (start f x B).Yields s := by
  obtain ⟨_, hvalid, h⟩ := Run.exists_of_yields_bind h
  obtain ⟨B, hB, h⟩ := Run.exists_of_yields_bind h
  exact ⟨Run.ok_of_yields_liftM hvalid, B, Run.ok_of_yields_liftM hB, Run.yields_of_bind_unit h⟩

/-- The result of a run is that of the stage where the gradient is not above the tolerance. -/
theorem minimizeFrom_cases {result : Result α n}
    (h : (minimizeFrom config f x A).Yields result) :
    ∃ k ≤ config.maxIterations, ∃ last, (routine config f x A).Holds k last ∧
      ¬ config.tolerance < last.gradient.norm ∧ result = last.result := by
  rw [minimizeFrom_eq_run] at h
  obtain ⟨k, hk, last, hlast, hend, h⟩ := Routine.exists_of_yields_run h
  exact ⟨k, hk, last, hlast, hend, Run.eq_of_yields_pure (Run.yields_of_bind_unit h)⟩

end Routine

/-- A run from the identity has the outcome of one that keeps its matrix. -/
theorem minimize_cases {outcome : Outcome α n} (h : (minimize config f x).Yields outcome) :
    ∃ result, (minimizeWithInverse config f x).Yields result ∧ outcome = result.outcome := by
  obtain ⟨result, hresult, h⟩ := Run.exists_of_yields_bind h
  exact ⟨result, hresult, Run.eq_of_yields_pure h⟩

/-- Where the start and the iterations are certain, so is the run. -/
theorem computes_minimizeFrom (hvalid : config.validate = .ok ())
    (hstart : (start f x B).Computes s)
    (hiterate : (iterate config f config.maxIterations s).Computes s') :
    (minimizeFrom config f x B).Computes s'.result :=
  (Run.computes_liftM hvalid).bind ((Run.computes_liftM B.ofOrder_self).bind
    ((Run.computes_record _).bind (hstart.bind (hiterate.bind
      ((Run.computes_record _).bind (Run.computes_pure _))))))

/-! ### The stages of a run -/

/-- The stages that a run from `x` with the matrix `B` passes through. -/
inductive Reached (config : Config α) (f : Objective σ α n) (x : Vec α n) (B : Mat α n n) :
    State α n → Prop
  | start {s : State α n} (hvalid : config.validate = .ok ()) (h : (start f x B).Yields s) :
      Reached config f x B s
  | step {s s' : State α n} (hs : Reached config f x B s)
      (habove : config.tolerance < s.gradient.norm) (h : (step config f s).Yields s') :
      Reached config f x B s'

/-- A run that reaches a stage has accepted settings. -/
theorem Reached.validate (hs : Reached config f x B s) : config.validate = .ok () := by
  induction hs with
  | start hvalid _ => exact hvalid
  | step _ _ _ ih => exact ih

/-- The loop only leads to stages that are reached. -/
theorem Reached.of_reaches {k : Nat} (hs : Reached config f x B s)
    (h : (loop config f).Reaches s k s') : Reached config f x B s' := by
  induction h with
  | refl => exact hs
  | step _ habove hstep ih => exact ih.step habove hstep

/-- A run ends at a stage that is reached. -/
theorem Reached.of_yields_minimizeFrom {result : Result α n}
    (h : (minimizeFrom config f x B).Yields result) :
    ∃ s, Reached config f x B s ∧ result = s.result := by
  obtain ⟨k, _, last, ⟨first, hfirst, hreaches⟩, _, hresult⟩ := minimizeFrom_cases h
  obtain ⟨hvalid, B', hB, hfirst⟩ := start_of_yields_routine hfirst
  rw [Mat.ofOrder_self] at hB
  cases hB
  have hreached : Reached config f x B first := .start hvalid hfirst
  exact ⟨last, hreached.of_reaches hreaches, hresult⟩

/-- The loop fails at a reached stage, with its cap or with a step. -/
theorem fails_iterate {remaining : Nat} (hs : Reached config f x B s)
    (h : (iterate config f remaining s).Fails e) :
    ∃ s', Reached config f x B s' ∧ config.tolerance < s'.gradient.norm ∧
      (e = .capReached config.maxIterations (some s'.value) (some s'.gradient.norm)
        config.tolerance ∨ (step config f s').Fails e) := by
  rw [iterate_eq_run] at h
  rcases Loop.fails_run h with ⟨t, ht, habove, h⟩ | ⟨_, _, t, ht, habove, h⟩
  · exact ⟨t, hs.of_reaches ht, habove, .inl h⟩
  · exact ⟨t, hs.of_reaches ht, habove, .inr h⟩

/-- A run fails because of its settings, an evaluation at the start, its cap or a step. -/
theorem fails_minimizeFrom (h : (minimizeFrom config f x B).Fails e) :
    config.validate = .error e ∨ f.CanFail e ∨
      ∃ s, Reached config f x B s ∧ config.tolerance < s.gradient.norm ∧
        (e = .capReached config.maxIterations (some s.value) (some s.gradient.norm)
          config.tolerance ∨ (step config f s).Fails e) := by
  unfold minimizeFrom at h
  rcases Run.fails_or_of_fails_bind h with h | ⟨_, hvalid, h⟩
  · exact .inl (Run.error_of_fails_liftM h)
  -- a square matrix passes its check
  replace h := (Run.computes_liftM B.ofOrder_self).fails_of_bind h
  replace h := Run.fails_of_record_bind h
  rcases Run.fails_or_of_fails_bind h with h | ⟨first, hfirst, h⟩
  · rcases Run.fails_or_of_fails_bind h with h | ⟨_, _, h⟩
    · exact .inr (.inl ⟨x, .inl h⟩)
    · rcases Run.fails_or_of_fails_bind h with h | ⟨_, _, h⟩
      · exact .inr (.inl ⟨x, .inr h⟩)
      · exact absurd h Run.not_fails_pure
  · rcases Run.fails_or_of_fails_bind h with h | ⟨_, _, h⟩
    · exact .inr (.inr (fails_iterate (.start (Run.ok_of_yields_liftM hvalid) hfirst) h))
    · exact absurd (Run.fails_of_record_bind h) Run.not_fails_pure

end Downhill.QuasiNewton
