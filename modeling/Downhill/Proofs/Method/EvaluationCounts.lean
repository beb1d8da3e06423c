import Downhill.Proofs.Method.FeasibleQueries
import Downhill.Proofs.Calls
import Downhill.Proofs.Tally

/-!
# Evaluation counts

* `evaluations_counted`: over every arithmetic, the evaluations that a line search or a descent
  reports are the values and gradients that it asked its objective for.

The searches count along their phases, the descents add what a search counted to what they ask for
on their own, and Newton descent keeps one counter for both. What an objective does to answer a
call, such as the differences behind a missing gradient, is part of that call.
-/

namespace Downhill

variable {σ α : Type} [Scalar α] {n k g : Nat}

/-! ### The Wolfe-Powell search -/

namespace WolfePowell

namespace Ray

/-- The ray along which the calls are noted. -/
def noted (ray : Ray σ α n) : Ray (σ × List (Query α n)) α n :=
  { ray with objective := ray.objective.noted }

variable (ray : Ray σ α n)

@[simp] theorem noted_decreases (trial : Trial α n) :
    ray.noted.decreases trial = ray.decreases trial := rfl

@[simp] theorem noted_direction : ray.noted.direction = ray.direction := rfl

@[simp] theorem noted_slopeBound : ray.noted.slopeBound = ray.slopeBound := rfl

@[simp] theorem noted_tooSteep (gradient : Vec α n) :
    ray.noted.tooSteep gradient = ray.tooSteep gradient := rfl

theorem tallies_trial (t : α) (tally : Tally) :
    (ray.noted.trial t).Tallies (fun _ => tally.value) tally (ray.trial t) :=
  ray.objective.tallies_value_bind fun _ => Run.tallies_pure rfl

theorem tallies_halve :
    ∀ (remaining taken : Nat) (t : α) (tally : Tally),
      (ray.noted.halve remaining taken t tally).Tallies Prod.snd tally
        (ray.halve remaining taken t tally) := by
  intro remaining
  -- by induction on the halvings that are left
  induction remaining with
  | zero =>
    intro taken t tally
    exact Run.tallies_throw _
  | succ remaining ih =>
    intro taken t tally
    rw [halve, halve]
    refine (ray.tallies_trial _ _).bind fun trial => (Run.silent_record _).bind_tallies fun _ => ?_
    rw [noted_decreases]
    split_ifs
    · exact Run.tallies_pure rfl
    · exact ih _ _ _

theorem tallies_double :
    ∀ (remaining taken : Nat) (lower : Trial α n) (gradient : Option (Vec α n)) (tally : Tally),
      (ray.noted.double remaining taken lower gradient tally).Tallies Prod.snd tally
        (ray.double remaining taken lower gradient tally) := by
  intro remaining
  induction remaining with
  | zero =>
    intro taken lower gradient tally
    exact Run.tallies_throw _
  | succ remaining ih =>
    intro taken lower gradient tally
    rw [double, double]
    refine (ray.tallies_trial _ _).bind fun trial => (Run.silent_record _).bind_tallies fun _ => ?_
    rw [noted_decreases]
    split_ifs
    · exact ih _ _ _ _
    · exact Run.tallies_pure rfl

/-- A bisection is a trial, and a gradient where the trial decreases the value enough. -/
theorem tallies_bisect :
    ∀ (remaining taken : Nat) (lower : Trial α n) (gradient : Vec α n) (upper : α) (tally : Tally),
      (ray.noted.bisect remaining taken lower gradient upper tally).Tallies Step.tally tally
        (ray.bisect remaining taken lower gradient upper tally) := by
  intro remaining
  induction remaining with
  | zero =>
    intro taken lower gradient upper tally
    rw [bisect, bisect, noted_tooSteep]
    split_ifs
    · exact Run.tallies_throw _
    · exact Run.tallies_pure rfl
  | succ remaining ih =>
    intro taken lower gradient upper tally
    rw [bisect, bisect, noted_tooSteep]
    split_ifs
    · refine (ray.tallies_trial _ _).bind fun middle =>
        (Run.silent_record _).bind_tallies fun _ => ?_
      rw [noted_decreases]
      -- the lower end moves, with its gradient, or the upper end moves
      split_ifs
      · exact ray.objective.tallies_gradient_bind fun _ => ih _ _ _ _ _
      · exact ih _ _ _ _ _
    · exact Run.tallies_pure rfl

/-- A bracket without a gradient asks for one first. -/
theorem tallies_refine (bracket : Bracket α n) (tally : Tally) :
    (ray.noted.refine bracket tally).Tallies Step.tally tally (ray.refine bracket tally) := by
  unfold refine
  cases bracket.gradient with
  | some gradient => exact ray.tallies_bisect _ _ _ _ _ _
  | none => exact ray.objective.tallies_gradient_bind fun _ => ray.tallies_bisect _ _ _ _ _ _

theorem tallies_search (tally : Tally) :
    (ray.noted.search tally).Tallies Step.tally tally (ray.search tally) := by
  unfold search
  refine (ray.tallies_trial _ _).bind fun first => ?_
  rw [noted_decreases]
  split_ifs
  · refine ray.objective.tallies_gradient_bind fun gradient => ?_
    dsimp only
    rw [noted_slopeBound, noted_direction]
    split_ifs
    · exact Run.tallies_pure rfl
    · exact (ray.tallies_double _ _ _ _ _).bind fun _ => ray.tallies_refine _ _
  · exact (ray.tallies_halve _ _ _ _).bind fun _ => ray.tallies_refine _ _

end Ray

variable (f : Objective σ α n) (x : Vec α n) (params : SearchParams α)

/-- The checks before a search ask for nothing. -/
theorem tallies_run (value : α) (gradient d : Vec α n) (tally : Tally) :
    (run f.noted x value gradient d params tally).Tallies Step.tally tally
      (run f x value gradient d params tally) := by
  unfold run
  refine (Run.silent_liftM _).bind_tallies fun slope => ?_
  split_ifs
  · exact Run.tallies_throw_bind _
  · refine (Run.silent_liftM _).bind_tallies fun _ => (Run.silent_record _).bind_tallies fun _ => ?_
    refine (Ray.tallies_search ⟨f, x, d, value, slope, params⟩ tally).bind fun step => ?_
    exact (Run.silent_record _).bind_tallies fun _ => Run.tallies_pure rfl

/-- A search without values asks for them at its start. -/
theorem tallies_search (d : Vec α k) :
    (search f.noted x d params).Tallies Step.tally .none (search f x d params) :=
  (Run.silent_liftM _).bind_tallies fun _ => f.tallies_value_bind fun _ =>
    f.tallies_gradient_bind fun _ => tallies_run f x params _ _ _ _

/-- A search that is given them does not. -/
theorem tallies_searchFrom (value : α) (gradient : Vec α g) (d : Vec α k) :
    (searchFrom f.noted x value gradient d params).Tallies Step.tally .none
      (searchFrom f x value gradient d params) :=
  (Run.silent_liftM _).bind_tallies fun _ => (Run.silent_liftM _).bind_tallies fun _ =>
    tallies_run f x params _ _ _ _

end WolfePowell

/-! ### Projected backtracking -/

namespace ProjectedBacktracking

theorem Path.tallies_backtrack (path : Path σ α n) :
    ∀ (remaining taken : Nat) (t : α) (tally : Tally),
      (path.noted.backtrack remaining taken t tally).Tallies Step.tally tally
        (path.backtrack remaining taken t tally) := by
  intro remaining
  induction remaining with
  | zero =>
    intro taken t tally
    rw [backtrack, backtrack]
    refine (Run.silent_liftM _).bind_tallies fun _ => path.objective.tallies_value_bind fun _ =>
      (Run.silent_liftM _).bind_tallies fun _ => ?_
    split_ifs
    · exact Run.tallies_pure rfl
    · exact Run.tallies_throw _
  | succ remaining ih =>
    intro taken t tally
    rw [backtrack, backtrack]
    refine (Run.silent_liftM _).bind_tallies fun _ => path.objective.tallies_value_bind fun _ =>
      (Run.silent_liftM _).bind_tallies fun _ => ?_
    split_ifs
    · exact Run.tallies_pure rfl
    · exact (Run.silent_record _).bind_tallies fun _ => ih _ _ _

/-- A projected search asks for the value and the gradient at its start. -/
theorem tallies_search (f : Objective σ α n) (P : Projection α n) (x : Vec α n) (d : Vec α k)
    (params : SearchParams α) :
    (search f.noted P x d params).Tallies Step.tally .none (search f P x d params) := by
  unfold search
  refine (Run.silent_liftM _).bind_tallies fun d => (Run.silent_liftM _).bind_tallies fun _ =>
    f.tallies_gradient_bind fun g => (Run.silent_liftM _).bind_tallies fun _ => ?_
  dsimp only
  split_ifs
  · exact Run.tallies_throw_bind _
  refine (Run.silent_liftM _).bind_tallies fun _ => f.tallies_value_bind fun v =>
    (Run.silent_record _).bind_tallies fun _ => (Run.silent_liftM _).bind_tallies fun _ => ?_
  split_ifs
  · exact Run.tallies_throw_bind _
  refine (Path.tallies_backtrack ⟨f, P, x, d, v, g, params.sigma⟩ _ _ _ _).bind fun _ => ?_
  exact (Run.silent_record _).bind_tallies fun _ => Run.tallies_pure rfl

end ProjectedBacktracking

/-! ### The descents -/

/-- The evaluations that an outcome reports. -/
def Outcome.tally (o : Outcome α n) : Tally := ⟨o.valueEvaluations, o.gradientEvaluations⟩

namespace Newton

/-- The evaluations up to a stage. -/
def State.tally (s : State α n) : Tally := ⟨s.evaluations, s.evaluations⟩

/-- Newton descent asks for one value and one gradient for each stage. -/
theorem tallies_minimize (config : Config α) (f : Objective σ α n) (x : Vec α n) :
    (minimize config f.noted x).Tallies Outcome.tally .none (minimize config f x) := by
  rw [minimize_eq_run, minimize_eq_run]
  refine Routine.tallies_run (T := State.tally) (fun _ => Iff.rfl) (fun _ => rfl) ?_
    (fun s => ?_) fun s => ?_
  · exact (Run.silent_liftM _).bind_tallies fun _ => (Run.silent_record _).bind_tallies fun _ =>
      f.tallies_value_bind fun _ => f.tallies_gradient_bind fun _ => Run.tallies_pure rfl
  · exact f.tallies_hessian_bind fun _ =>
      (ConjugateGradient.silent_solve _ _ _).bind_tallies fun _ => f.tallies_value_bind fun _ =>
        f.tallies_gradient_bind fun _ => (Run.silent_record _).bind_tallies fun _ =>
          Run.tallies_pure rfl
  · exact (Run.silent_record _).bind_tallies fun _ => Run.tallies_pure rfl

end Newton

namespace QuasiNewton

variable {r c : Nat} {config : Config α} (f : Objective σ α n)

/-- To find a direction asks for nothing. -/
theorem tallies_descend (s : State α n) :
    (descend config s : Run (σ × List (Query α n)) α _).Tallies (fun next => next.2.tally) s.tally
      (descend config s : Run σ α _) := by
  unfold descend
  split_ifs
  · exact (Run.silent_record _).bind_tallies fun _ => Run.tallies_pure rfl
  · exact Run.tallies_pure rfl

/-- Learning from a step does not change the tally, whatever the step took. -/
theorem tallies_learn (s : State α n) (point gradient : Vec α n) (spent : Tally) :
    (learn config s point gradient : Run (σ × List (Query α n)) α _).Tallies
      (fun next => next.tally + spent) (s.tally + spent)
      (learn config s point gradient : Run σ α _) := by
  unfold learn
  split
  · exact Run.tallies_pure rfl
  · exact (Run.silent_record _).bind_tallies fun _ => Run.tallies_pure rfl

/-- A step asks for what its search asks for. -/
theorem tallies_step (s : State α n) :
    (step config f.noted s).Tallies State.tally s.tally (step config f s) :=
  (tallies_descend s).bind fun next =>
    ((WolfePowell.tallies_searchFrom f _ _ _ _ _).after next.2.tally).bind fun found =>
      (tallies_learn next.2 _ _ found.tally).bind fun _ =>
        (Run.silent_record _).bind_tallies fun _ => Run.tallies_pure rfl

/-- A run adds what its searches ask for to the evaluations at its start. -/
theorem tallies_minimizeFrom (config : Config α) (x : Vec α n) (B : Mat α r c) :
    (minimizeFrom config f.noted x B).Tallies (fun result => result.outcome.tally) .none
      (minimizeFrom config f x B) := by
  rw [minimizeFrom_eq_run, minimizeFrom_eq_run]
  refine Routine.tallies_run (T := State.tally) (fun _ => Iff.rfl) (fun _ => rfl) ?_
    (tallies_step f) fun s => ?_
  · exact (Run.silent_liftM _).bind_tallies fun _ => (Run.silent_liftM _).bind_tallies fun _ =>
      (Run.silent_record _).bind_tallies fun _ => f.tallies_value_bind fun _ =>
        f.tallies_gradient_bind fun _ => Run.tallies_pure rfl
  · exact (Run.silent_record _).bind_tallies fun _ => Run.tallies_pure rfl

theorem tallies_minimize (config : Config α) (x : Vec α n) :
    (minimize config f.noted x).Tallies Outcome.tally .none (minimize config f x) :=
  (tallies_minimizeFrom f config x _).bind fun _ => Run.tallies_pure rfl

end QuasiNewton

namespace ProjectedNewton

variable (config : Config α) (f : Objective σ α n) (P : Projection α n)

/-- Products with the Hessian are neither values nor gradients. -/
theorem tallies_innerStep (x : Vec α n) (s : Inner α n) (tally : Tally) :
    (innerStep config f.noted P x s).Tallies (fun _ => tally) tally (innerStep config f P x s) := by
  have hreduced : (reducedHessian f.noted P x s.direction).Tallies (fun _ => tally) tally
      (reducedHessian f P x s.direction) :=
    (Run.silent_liftM _).bind_tallies fun _ => f.tallies_hessianProduct_bind fun _ =>
      Run.tallies_pure rfl
  refine hreduced.bind fun _ => ?_
  dsimp only
  split_ifs
  · exact (Run.silent_record _).bind_tallies fun _ => Run.tallies_pure rfl
  · exact Run.tallies_pure rfl

/-- The inner loop asks for no value and no gradient. -/
theorem tallies_innerIterate (p : InnerProblem σ α n) (tally : Tally) :
    ∀ (remaining : Nat) (s : Inner α n),
      (innerIterate p.noted remaining s).Tallies (fun _ => tally) tally
        (innerIterate p remaining s) := by
  intro remaining
  induction remaining with
  | zero =>
    intro s
    rw [innerIterate, innerIterate, InnerProblem.noted_forcing]
    split_ifs
    · exact Run.tallies_throw _
    · exact Run.tallies_pure rfl
  | succ remaining ih =>
    intro s
    rw [innerIterate, innerIterate, InnerProblem.noted_forcing]
    split_ifs
    · refine (tallies_innerStep p.config p.objective p.projection p.base s tally).bind
        fun next => ?_
      cases next with
      | none => exact Run.tallies_pure rfl
      | some next => exact ih next
    · exact Run.tallies_pure rfl

/-- A step asks for what its search asks for, and for the gradient at its end. -/
theorem tallies_step (s : State α n) :
    (step config f.noted P s).Tallies State.tally s.tally (step config f P s) :=
  (tallies_innerIterate (innerProblem config f P s) s.tally _ _).bind fun _ =>
    ((ProjectedBacktracking.tallies_search f P _ _ _).after s.tally).bind fun _ =>
      f.tallies_gradient_bind fun _ => (Run.silent_liftM _).bind_tallies fun _ =>
        (Run.silent_record _).bind_tallies fun _ => Run.tallies_pure rfl

/-- A run adds what its searches ask for to the other evaluations. -/
theorem tallies_minimize (x : Vec α n) :
    (minimize config f.noted P x).Tallies Outcome.tally .none (minimize config f P x) := by
  rw [minimize_eq_run, minimize_eq_run]
  refine Routine.tallies_run (T := State.tally) (fun _ => Iff.rfl) (fun _ => rfl) ?_
    (tallies_step config f P) fun s => ?_
  · exact (Run.silent_liftM _).bind_tallies fun _ => (Run.silent_record _).bind_tallies fun _ =>
      (Run.silent_liftM _).bind_tallies fun _ => f.tallies_value_bind fun _ =>
        f.tallies_gradient_bind fun _ => (Run.silent_liftM _).bind_tallies fun _ =>
          Run.tallies_pure rfl
  · exact (Run.silent_record _).bind_tallies fun _ => Run.tallies_pure rfl

end ProjectedNewton

/-! ### All of them -/

/-- **Exact counts**: in every arithmetic and for every objective, the evaluations that a result of
a line search reports are the values and gradients that were asked for on the way to it, whether the
search computes the value and the gradient at its start on its own or gets them from the caller. So
are those of the descents, searches included; for Newton descent both are one more than its
iterations. -/
theorem evaluations_counted (f : Objective σ α n) (x : Vec α n) :
    (∀ (k : Nat) (d : Vec α k) (params : SearchParams α),
      (WolfePowell.search f.noted x d params).Accounts (fun step calls => step.tally = .of calls)
          (WolfePowell.search f x d params) ∧
        (∀ (value : α) (g : Nat) (gradient : Vec α g),
          (WolfePowell.searchFrom f.noted x value gradient d params).Accounts
            (fun step calls => step.tally = .of calls)
            (WolfePowell.searchFrom f x value gradient d params)) ∧
        ∀ P, (ProjectedBacktracking.search f.noted P x d params).Accounts
          (fun step calls => step.tally = .of calls)
          (ProjectedBacktracking.search f P x d params)) ∧
      (∀ config, (Newton.minimize config f.noted x).Accounts (fun o calls => o.tally = .of calls)
          (Newton.minimize config f x) ∧
        ∀ o, (Newton.minimize config f x).Yields o →
          o.valueEvaluations = o.iterations + 1 ∧ o.gradientEvaluations = o.iterations + 1) ∧
      (∀ config, (QuasiNewton.minimize config f.noted x).Accounts
          (fun o calls => o.tally = .of calls) (QuasiNewton.minimize config f x) ∧
        ∀ (r c : Nat) (B : Mat α r c), (QuasiNewton.minimizeFrom config f.noted x B).Accounts
          (fun result calls => result.outcome.tally = .of calls)
          (QuasiNewton.minimizeFrom config f x B)) ∧
      ∀ config P, (ProjectedNewton.minimize config f.noted P x).Accounts
        (fun o calls => o.tally = .of calls) (ProjectedNewton.minimize config f P x) := by
  refine ⟨fun k d params => ⟨?_, fun value g gradient => ?_, fun P => ?_⟩,
    fun config => ⟨?_, fun o ho => ?_⟩, fun config => ⟨?_, fun r c B => ?_⟩, fun config P => ?_⟩
  · exact (WolfePowell.tallies_search f x params d).accounts
  · exact (WolfePowell.tallies_searchFrom f x params value gradient d).accounts
  · exact (ProjectedBacktracking.tallies_search f P x d params).accounts
  · exact (Newton.tallies_minimize config f x).accounts
  · obtain ⟨k, _, last, hlast, _, rfl⟩ := Newton.minimize_cases ho
    have hfaithful := Newton.faithful_of_holds hlast
    have hcounts : last.evaluations = last.iterations + 1 := by
      rw [hfaithful.evaluations_eq, hfaithful.iterations_eq]
    exact ⟨hcounts, hcounts⟩
  · exact (QuasiNewton.tallies_minimize f config x).accounts
  · exact (QuasiNewton.tallies_minimizeFrom f config x B).accounts
  · exact (ProjectedNewton.tallies_minimize config f P x).accounts

/-- In double precision a search that doubles and bisects asks for twelve values and three
gradients, and the descents from the same point for two, four and three values. -/
theorem evaluations_counted_doubles :
    Tally.of ((WolfePowell.search doubleObjective.noted #v[3] #v[-0.01] .wolfePowell).start
        ((), [])).2.memory.2 = ⟨12, 3⟩ ∧
      Tally.of ((Newton.minimize {} doubleObjective.noted #v[3]).start ((), [])).2.memory.2 =
        ⟨2, 2⟩ ∧
      Tally.of ((QuasiNewton.minimize {} doubleObjective.noted #v[3]).start
        ((), [])).2.memory.2 = ⟨4, 3⟩ ∧
      Tally.of ((ProjectedNewton.minimize {} doubleObjective.noted doubleInterval #v[3]).start
        ((), [])).2.memory.2 = ⟨3, 3⟩ := by
  obtain ⟨hsearch, hnewton, hquasi, hprojected⟩ := evaluations_counted doubleObjective #v[3]
  exact ⟨(hsearch 1 #v[-0.01] .wolfePowell).1.of_memory_start (by decide +kernel),
    (hnewton {}).1.of_memory_start (by decide +kernel),
    (hquasi {}).1.of_memory_start (by decide +kernel),
    (hprojected {} doubleInterval).of_memory_start (by decide +kernel)⟩

end Downhill
