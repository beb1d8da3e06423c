import Downhill.Method.ImplicitFiltering
import Downhill.Proofs.Determinism
import Downhill.Proofs.Loop

/-!
# Runs of implicit filtering

How a run succeeds, over every arithmetic: `start_cases`, `visit_cases` and `sweep_cases` say what
the first stage is and what a visit of one scale and a sweep make of a stage.

`minimize_eq_run` presents a run as a `Routine`. The test of its loop looks at two stages, before a
sweep and after it, so the loop runs on stages with a flag that says whether the last sweep left the
best point where it was.
-/

namespace Downhill.ImplicitFiltering

variable {σ α : Type} [Scalar α] {n : Nat} {config : Config α} {f : Objective σ α n}
  {P : Projection α n} {x : Vec α n} {s s' : State α n}

/-! ### The parts of a run -/

/-- The first stage is at the projection of the start. -/
theorem start_cases (h : (start f P x).Yields s) :
    ∃ best value, P.project x = .ok best ∧ (f.value best).Yields value ∧
      s = ⟨best, value, 0, 1, #[value]⟩ := by
  unfold start at h
  obtain ⟨best, hbest, h⟩ := Run.exists_of_yields_bind h
  obtain ⟨value, hvalue, h⟩ := Run.exists_of_yields_bind h
  exact ⟨best, value, Run.ok_of_yields_liftM hbest, hvalue, Run.eq_of_yields_pure h⟩

/-- A visit keeps what its descent found, or leaves the best point and its value alone. -/
theorem visit_cases {h : α} (hvisit : (visit config f P s h).Yields s') :
    ∃ candidate stop used value,
      ((⟨config, f, P, h⟩ : Scale σ α n).descend s.best).Yields (candidate, stop, used) ∧
      (f.value candidate).Yields value ∧
      (((candidate == s.best) = false ∧ value < s.value ∧
          s' = { s with best := candidate, value, evaluations := s.evaluations + (used + 1) }) ∨
        (¬ ((candidate == s.best) = false ∧ value < s.value) ∧
          s' = { s with evaluations := s.evaluations + (used + 1) })) := by
  unfold visit at hvisit
  obtain ⟨⟨candidate, stop, used⟩, hdescend, hvisit⟩ := Run.exists_of_yields_bind hvisit
  obtain ⟨value, hvalue, hvisit⟩ := Run.exists_of_yields_bind hvisit
  replace hvisit := Run.yields_of_bind_unit hvisit
  refine ⟨candidate, stop, used, value, hdescend, hvalue, ?_⟩
  dsimp only at hvisit
  split_ifs at hvisit with hbetter
  · rw [Bool.and_eq_true, Bool.not_eq_true', decide_eq_true_iff] at hbetter
    exact .inl ⟨hbetter.1, hbetter.2, Run.eq_of_yields_pure hvisit⟩
  · rw [Bool.and_eq_true, Bool.not_eq_true', decide_eq_true_iff] at hbetter
    exact .inr ⟨hbetter, Run.eq_of_yields_pure hvisit⟩

/-- The stage after a sweep that visited all scales. -/
def State.close (s : State α n) : State α n := { s with history := s.history.push s.value }

/-- A sweep visits the scales one after the other. -/
theorem sweep_cases (h : (sweep config f P s).Yields s') :
    ∃ t, (config.scales.foldlM (visit config f P) { s with sweeps := s.sweeps + 1 }).Yields t ∧
      s' = t.close := by
  unfold sweep at h
  obtain ⟨t, ht, h⟩ := Run.exists_of_yields_bind h
  exact ⟨t, ht, Run.eq_of_yields_pure (Run.yields_of_bind_unit h)⟩

namespace Scale

variable {s : Scale σ α n} (hf : s.objective.Deterministic)

include hf

/-- The line search is determined by the objective. -/
theorem determined_backtrack (x g : Vec α n) (value : α) :
    ∀ (remaining : Nat) (t : α) (used : Nat),
      (s.backtrack x g value remaining t used).Determined := by
  intro remaining
  induction remaining with
  | zero =>
    intro t used
    rw [backtrack]
    refine (Run.determined_liftM _).bind fun _ => (hf.value _).bind fun _ =>
      (Run.determined_liftM _).bind fun _ => ?_
    split_ifs
    · exact Run.determined_pure _
    · exact Run.determined_pure _
  | succ remaining ih =>
    intro t used
    rw [backtrack]
    refine (Run.determined_liftM _).bind fun _ => (hf.value _).bind fun _ =>
      (Run.determined_liftM _).bind fun _ => ?_
    split_ifs
    · exact Run.determined_pure _
    · exact ih _ _

theorem determined_iterate :
    ∀ (remaining : Nat) (x : Vec α n) (used : Nat), (s.iterate remaining x used).Determined := by
  -- by induction on the steps that are left
  intro remaining
  induction remaining with
  | zero =>
    intro x used
    rw [iterate]
    refine (Stencil.determined_simplexGradient hf _ _).bind fun _ =>
      (Stencil.determined_isFailure hf _ _).bind fun _ => ?_
    dsimp only
    split_ifs
    · exact Run.determined_pure _
    refine (Run.determined_liftM _).bind fun _ => ?_
    split_ifs
    · exact Run.determined_pure _
    · exact Run.determined_pure _
  | succ remaining ih =>
    intro x used
    rw [iterate]
    refine (Stencil.determined_simplexGradient hf _ _).bind fun _ =>
      (Stencil.determined_isFailure hf _ _).bind fun _ => ?_
    dsimp only
    split_ifs
    · exact Run.determined_pure _
    refine (Run.determined_liftM _).bind fun _ => ?_
    split_ifs
    · exact Run.determined_pure _
    · refine (hf.value _).bind fun _ => (determined_backtrack hf _ _ _ _ _ _).bind fun outcome => ?_
      obtain ⟨found, used⟩ := outcome
      cases found with
      | some x => exact ih x used
      | none => exact Run.determined_pure _

theorem determined_descend (x : Vec α n) : (s.descend x).Determined :=
  (Run.determined_liftM _).bind fun _ => determined_iterate hf _ _ _

end Scale

theorem determined_start (hf : f.Deterministic) (P : Projection α n) (x : Vec α n) :
    (start f P x).Determined :=
  (Run.determined_liftM _).bind fun _ => (hf.value _).bind fun _ => Run.determined_pure _

theorem determined_visit (config : Config α) (hf : f.Deterministic) (P : Projection α n)
    (s : State α n) (h : α) : (visit config f P s h).Determined := by
  refine (Scale.determined_descend hf _).bind fun _ => (hf.value _).bind fun _ =>
    (Run.determined_record _).bind fun _ => ?_
  dsimp only
  split_ifs
  · exact Run.determined_pure _
  · exact Run.determined_pure _

theorem determined_sweep (config : Config α) (hf : f.Deterministic) (P : Projection α n)
    (s : State α n) : (sweep config f P s).Determined :=
  (Run.determined_foldlM (determined_visit config hf P) _ _).bind fun _ =>
    (Run.determined_record _).bind fun _ => Run.determined_pure _

/-! ### A run as a routine -/

/-- The outcome of a run that ends at a stage with the given stopping functional. -/
def State.outcome (s : State α n) (stationarity : α) : Outcome α n where
  point := s.best
  value := s.value
  stationarity := stationarity
  iterations := s.sweeps
  valueEvaluations := s.evaluations + 2 * n
  history := s.history

/-- The loop of a run. The flag of a stage says whether the sweep that led to it left the best point
where it was. -/
def loop (config : Config α) (f : Objective σ α n) (P : Projection α n) :
    Loop σ α (State α n × Bool) where
  step := fun (s, _) => do
    let next ← sweep config f P s
    pure (next, next.best == s.best)
  continues := fun (_, settled) => settled = false
  decideContinues := fun (_, settled) => inferInstanceAs (Decidable (settled = false))
  exhausted := fun cap (s, _) => .capReached cap (some s.value) none config.tolerance

/-- A run: its loop, with what comes before and after it. -/
def routine (config : Config α) (f : Objective σ α n) (P : Projection α n) (x : Vec α n) :
    Routine σ α (State α n × Bool) (Outcome α n) where
  start := do
    config.validate
    Run.report config.verbose "start implicit filtering"
      [("dimension", .count n), ("scales", .count config.scales.length)]
    let s ← start f P x
    pure (s, false)
  loop := loop config f P
  finish := fun (s, _) => do
    let g ← Stencil.simplexGradient f s.best (finest config)
    let gap ← P.gradientStep s.best g
    Run.report config.verbose "implicit filtering terminated"
      [("sweeps", .count s.sweeps), ("stationarity", .number gap.norm)]
    pure (s.outcome gap.norm)

/-- The sweeps are the loop, without the flag of its last stage. -/
theorem iterate_eq_run (remaining : Nat) (s : State α n) :
    iterate config f P remaining s =
      Prod.fst <$> (loop config f P).run config.maxSweeps remaining (s, false) := by
  induction remaining generalizing s with
  | zero =>
    rw [iterate]
    rfl
  | succ remaining ih =>
    rw [iterate, Loop.run_succ_of_continues rfl, map_bind]
    simp only [loop, bind_assoc, pure_bind]
    refine bind_congr fun next => ?_
    -- the flag decides between a further sweep and the end
    cases hsettled : next.best == s.best with
    | true =>
      rw [Loop.run_of_not_continues (by exact Bool.true_eq_false.mp)]
      rfl
    | false => exact ih next

theorem minimize_eq_run (config : Config α) (f : Objective σ α n) (P : Projection α n)
    (x : Vec α n) :
    minimize config f P x = (routine config f P x).run config.maxSweeps := by
  unfold minimize Routine.run
  simp only [iterate_eq_run, routine, bind_assoc, pure_bind, map_eq_pure_bind]
  rfl

/-- Nothing in the routine depends on more than the objective. -/
theorem deterministic_routine (config : Config α) (hf : f.Deterministic) (P : Projection α n)
    (x : Vec α n) : (routine config f P x).Deterministic where
  start := (Run.determined_liftM _).bind fun _ => (Run.determined_record _).bind fun _ =>
    (determined_start hf P x).bind fun _ => Run.determined_pure _
  step := fun _ => (determined_sweep config hf P _).bind fun _ => Run.determined_pure _
  finish := fun _ => (Stencil.determined_simplexGradient hf _ _).bind fun _ =>
    (Run.determined_liftM _).bind fun _ => (Run.determined_record _).bind fun _ =>
      Run.determined_pure _

/-- A first stage is that of a run with valid settings. -/
theorem start_of_yields_routine {t : State α n × Bool}
    (h : (routine config f P x).start.Yields t) :
    config.validate = .ok () ∧ ∃ s, (start f P x).Yields s ∧ t = (s, false) := by
  obtain ⟨_, hvalid, h⟩ := Run.exists_of_yields_bind h
  obtain ⟨s, hs, h⟩ := Run.exists_of_yields_bind (Run.yields_of_bind_unit h)
  exact ⟨Run.ok_of_yields_liftM hvalid, s, hs, Run.eq_of_yields_pure h⟩

/-- The flag of a stage compares it with the one before. -/
theorem step_cases {t t' : State α n × Bool} (h : ((loop config f P).step t).Yields t') :
    (sweep config f P t.1).Yields t'.1 ∧ t'.2 = (t'.1.best == t.1.best) := by
  obtain ⟨next, hnext, h⟩ := Run.exists_of_yields_bind h
  cases Run.eq_of_yields_pure h
  exact ⟨hnext, rfl⟩

/-- The outcome of a run is that of a stage where the last sweep left the best point alone. -/
theorem minimize_cases {outcome : Outcome α n} (h : (minimize config f P x).Yields outcome) :
    ∃ k ≤ config.maxSweeps, ∃ last, (routine config f P x).Holds k (last, true) ∧
      ∃ g gap, (Stencil.simplexGradient f last.best (finest config)).Yields g ∧
        P.gradientStep last.best g = .ok gap ∧ outcome = last.outcome gap.norm := by
  rw [minimize_eq_run] at h
  obtain ⟨k, hk, ⟨last, settled⟩, hlast, hend, h⟩ := Routine.exists_of_yields_run h
  obtain rfl : settled = true := (Bool.eq_false_or_eq_true settled).resolve_right hend
  obtain ⟨g, hg, h⟩ := Run.exists_of_yields_bind h
  obtain ⟨gap, hgap, h⟩ := Run.exists_of_yields_bind h
  exact ⟨k, hk, last, hlast, g, gap, hg, Run.ok_of_yields_liftM hgap,
    Run.eq_of_yields_pure (Run.yields_of_bind_unit h)⟩

end Downhill.ImplicitFiltering
