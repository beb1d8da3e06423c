import Downhill.Proofs.Journal
import Downhill.Search.ProjectedBacktracking
import Downhill.Search.WolfePowell
import Downhill.Solve.ConjugateGradient

/-!
# Journals of linear solves and line searches

The flag of a linear solve changes the level of its two reports and nothing else
(`ConjugateGradient.relevels_solveWith`, `ConjugateGradient.relevels_solve`). The steps and the
factorization do not know the flag.

The same holds of the line searches (`WolfePowell.relevels_search`,
`WolfePowell.relevels_searchFrom`, `ProjectedBacktracking.relevels_search`). The phases of the
Wolfe-Powell search carry the flag along with the other parameters, but do not look at it.
-/

namespace Downhill

/-! ### Linear solves -/

variable {σ α : Type} [Scalar α] {n r c k g : Nat} {own : Reporter} {Q : Event α → Prop}
  {v v' : Bool}

theorem IncompleteCholesky.relevels_attempt (A : Mat α n n) (increment : α) :
    ∀ (remaining failed : Nat) (shift : α),
      Run.Relevels own Q (attempt A increment remaining failed shift : Run σ α _)
        (attempt A increment remaining failed shift) := by
  -- the events of a phase are no reports of a routine, so their level does not change
  have hshift : "incomplete Cholesky needed a diagonal shift" ∉ own.messages := by
    cases own <;> decide
  intro remaining
  induction remaining with
  | zero => exact fun _ _ => Run.relates_throw _
  | succ remaining ih =>
    intro failed shift
    rw [attempt]
    split
    · split_ifs
      · exact (Run.relevels_record hshift).bind fun _ => Run.relates_pure _
      · exact Run.relates_pure _
    · exact ih _ _

theorem IncompleteCholesky.relevels_factorize (A : Mat α r c) (increment : α) :
    Run.Relevels own Q (factorize A increment : Run σ α _) (factorize A increment) :=
  (Run.relates_liftM _).bind fun _ =>
    .ite .rfl (relevels_attempt _ _ _ _ _) (Run.relates_throw _)

namespace ConjugateGradient

namespace Problem

variable {p : Problem α n}

theorem relevels_settle (s : State α n) :
    Run.Relevels own Q (p.settle s : Run σ α _) (p.settle s) := by
  -- restarts are traced and not reported
  have hrestart : "PCG restart from the true residual" ∉ own.messages := by cases own <;> decide
  refine .ite .rfl (.ite .rfl (Run.relates_pure _) ?_) (Run.relates_pure _)
  exact (Run.relevels_record hrestart).bind fun _ => (Run.relates_liftM _).bind fun _ =>
    Run.relates_pure _

theorem relevels_step (s : State α n) :
    Run.Relevels own Q (p.step s : Run σ α _) (p.step s) := by
  have hstep : "PCG step" ∉ own.messages := by cases own <;> decide
  unfold step
  dsimp only
  refine .guard .rfl ?_
  exact (Run.relates_liftM _).bind fun _ => (Run.relevels_record hstep).bind fun _ =>
    Run.relates_pure _

theorem relevels_iterate (cap : Nat) :
    ∀ (remaining : Nat) (s : State α n),
      Run.Relevels own Q (p.iterate cap remaining s : Run σ α _) (p.iterate cap remaining s) := by
  intro remaining
  induction remaining with
  | zero =>
    intro s
    rw [iterate]
    refine (relevels_settle s).bind fun outcome => ?_
    -- with the cap reached, the residual decides between the result and the failure
    cases outcome with
    | inl residual => exact Run.relates_pure _
    | inr s => exact Run.relates_throw _
  | succ remaining ih =>
    intro s
    rw [iterate]
    refine (relevels_settle s).bind fun outcome => ?_
    cases outcome with
    | inl residual => exact Run.relates_pure _
    | inr s => exact (relevels_step s).bind ih

theorem relevels_run (cap : Nat) :
    Run.Relevels own Q (p.run cap : Run σ α _) (p.run cap) :=
  (Run.relates_liftM _).bind fun _ => (Run.relates_liftM _).bind fun _ => relevels_iterate cap _ _

end Problem

/-- A solve with a given preconditioner, under two flags. -/
theorem relevels_solveWith (hv : own.Flags .solver v v') (config : Config α) (A : Mat α r c)
    (b : Vec α n) (M : Preconditioner α n) :
    Run.Relevels own Q (solveWith { config with verbose := v } A b M : Run σ α _)
      (solveWith { config with verbose := v' } A b M) :=
  (Run.relates_liftM _).bind fun _ => (Run.relates_liftM _).bind fun _ =>
    (Run.relevels_report hv (by decide) _).bind fun _ => (Problem.relevels_run _).bind fun _ =>
      .guard .rfl ((Run.relevels_report hv (by decide) _).bind fun _ => Run.relates_pure _)

theorem relevels_solve (hv : own.Flags .solver v v') (config : Config α) (A : Mat α r c)
    (b : Vec α n) :
    Run.Relevels own Q (solve { config with verbose := v } A b : Run σ α _)
      (solve { config with verbose := v' } A b) :=
  (Run.relates_liftM _).bind fun _ => (Run.relates_liftM _).bind fun _ =>
    (IncompleteCholesky.relevels_factorize _ _).bind fun _ => relevels_solveWith hv config _ _ _

end ConjugateGradient

/-! ### The Wolfe-Powell search -/

namespace WolfePowell

namespace Ray

/-- The ray with another flag. -/
def flagged (ray : Ray σ α n) (v : Bool) : Ray σ α n :=
  { ray with params := { ray.params with verbose := v } }

variable {ray : Ray σ α n}

theorem relevels_trial (hf : ray.objective.Writes Q) (t : α) :
    Run.Relevels own Q ((ray.flagged v).trial t) ((ray.flagged v').trial t) :=
  (hf.value _).relevels.bind fun _ => Run.relates_pure _

theorem relevels_halve (hf : ray.objective.Writes Q) :
    ∀ (remaining taken : Nat) (t : α) (tally : Tally),
      Run.Relevels own Q ((ray.flagged v).halve remaining taken t tally)
        ((ray.flagged v').halve remaining taken t tally) := by
  have hhalving : "Wolfe-Powell halving" ∉ own.messages := by cases own <;> decide
  intro remaining
  induction remaining with
  | zero => exact fun _ _ _ => Run.relates_throw _
  | succ remaining ih =>
    intro taken t tally
    rw [halve, halve]
    -- the trial, its event, and the test of the decrease
    exact (relevels_trial hf _).bind fun _ => (Run.relevels_record hhalving).bind fun _ =>
      .ite .rfl (Run.relates_pure _) (ih _ _ _)

theorem relevels_double (hf : ray.objective.Writes Q) :
    ∀ (remaining taken : Nat) (lower : Trial α n) (gradient : Option (Vec α n)) (tally : Tally),
      Run.Relevels own Q ((ray.flagged v).double remaining taken lower gradient tally)
        ((ray.flagged v').double remaining taken lower gradient tally) := by
  have hdoubling : "Wolfe-Powell doubling" ∉ own.messages := by cases own <;> decide
  intro remaining
  induction remaining with
  | zero => exact fun _ _ _ _ => Run.relates_throw _
  | succ remaining ih =>
    intro taken lower gradient tally
    rw [double, double]
    exact (relevels_trial hf _).bind fun _ => (Run.relevels_record hdoubling).bind fun _ =>
      .ite .rfl (ih _ _ _ _) (Run.relates_pure _)

theorem relevels_bisect (hf : ray.objective.Writes Q) :
    ∀ (remaining taken : Nat) (lower : Trial α n) (gradient : Vec α n) (upper : α) (tally : Tally),
      Run.Relevels own Q ((ray.flagged v).bisect remaining taken lower gradient upper tally)
        ((ray.flagged v').bisect remaining taken lower gradient upper tally) := by
  have hbisection : "Wolfe-Powell bisection" ∉ own.messages := by cases own <;> decide
  intro remaining
  induction remaining with
  | zero =>
    intro taken lower gradient upper tally
    rw [bisect, bisect]
    exact .ite .rfl (Run.relates_throw _) (Run.relates_pure _)
  | succ remaining ih =>
    intro taken lower gradient upper tally
    rw [bisect, bisect]
    -- the test of the curvature and that of the decrease do not look at the flag
    refine .ite .rfl ?_ (Run.relates_pure _)
    exact (relevels_trial hf _).bind fun _ => (Run.relevels_record hbisection).bind fun _ =>
      .ite .rfl ((hf.gradient _).relevels.bind fun _ => ih _ _ _ _ _) (ih _ _ _ _ _)

theorem relevels_refine (hf : ray.objective.Writes Q) (bracket : Bracket α n) (tally : Tally) :
    Run.Relevels own Q ((ray.flagged v).refine bracket tally)
      ((ray.flagged v').refine bracket tally) := by
  obtain ⟨lower, gradient, upper⟩ := bracket
  cases gradient with
  | some gradient => exact relevels_bisect hf _ _ _ _ _ _
  | none => exact (hf.gradient _).relevels.bind fun _ => relevels_bisect hf _ _ _ _ _ _

theorem relevels_search (ray : Ray σ α n) (hf : ray.objective.Writes Q) (tally : Tally) :
    Run.Relevels own Q ((ray.flagged v).search tally) ((ray.flagged v').search tally) := by
  refine (relevels_trial hf _).bind fun first => .ite .rfl ?_ ?_
  · exact (hf.gradient _).relevels.bind fun _ => .ite .rfl (Run.relates_pure _)
      ((relevels_double hf _ _ _ _ _).bind fun _ => relevels_refine hf _ _)
  · exact (relevels_halve hf _ _ _ _).bind fun _ => relevels_refine hf _ _

end Ray

variable {f : Objective σ α n}

theorem relevels_run (hf : f.Writes Q) (hv : own.Flags .wolfePowell v v') (x : Vec α n)
    (value : α) (gradient d : Vec α n) (params : SearchParams α) (tally : Tally) :
    Run.Relevels own Q (run f x value gradient d { params with verbose := v } tally)
      (run f x value gradient d { params with verbose := v' } tally) := by
  refine (Run.relates_liftM _).bind fun slope => .guard .rfl ?_
  -- the first report; the phases follow, and then the second one
  refine (Run.relates_liftM _).bind fun _ => (Run.relevels_report hv (by decide) _).bind fun _ => ?_
  exact (Ray.relevels_search ⟨f, x, d, value, slope, params⟩ hf tally).bind fun step =>
    (Run.relevels_report hv (by decide) _).bind fun _ => Run.relates_pure step

theorem relevels_search (hf : f.Writes Q) (hv : own.Flags .wolfePowell v v') (x : Vec α n)
    (d : Vec α k) (params : SearchParams α) :
    Run.Relevels own Q (search f x d { params with verbose := v })
      (search f x d { params with verbose := v' }) :=
  (Run.relates_liftM _).bind fun _ => (hf.value x).relevels.bind fun _ =>
    (hf.gradient x).relevels.bind fun _ => relevels_run hf hv x _ _ _ params _

/-- A search from a known value and gradient, under two flags. -/
theorem relevels_searchFrom (hf : f.Writes Q) (hv : own.Flags .wolfePowell v v') (x : Vec α n)
    (value : α) (gradient : Vec α g) (d : Vec α k) (params : SearchParams α) :
    Run.Relevels own Q (searchFrom f x value gradient d { params with verbose := v })
      (searchFrom f x value gradient d { params with verbose := v' }) :=
  (Run.relates_liftM _).bind fun _ => (Run.relates_liftM _).bind fun _ =>
    relevels_run hf hv x value _ _ params _

end WolfePowell

/-! ### The projected backtracking search -/

namespace ProjectedBacktracking

theorem Path.relevels_backtrack (path : Path σ α n) (hf : path.objective.Writes Q) :
    ∀ (remaining taken : Nat) (t : α) (tally : Tally),
      Run.Relevels own Q (path.backtrack remaining taken t tally)
        (path.backtrack remaining taken t tally) := by
  have hhalving : "projected backtracking halving" ∉ own.messages := by cases own <;> decide
  intro remaining
  induction remaining with
  | zero =>
    intro taken t tally
    rw [backtrack]
    exact (Run.relates_liftM _).bind fun _ => (hf.value _).relevels.bind fun _ =>
      (Run.relates_liftM _).bind fun _ => .ite .rfl (Run.relates_pure _) (Run.relates_throw _)
  | succ remaining ih =>
    intro taken t tally
    rw [backtrack]
    exact (Run.relates_liftM _).bind fun _ => (hf.value _).relevels.bind fun _ =>
      (Run.relates_liftM _).bind fun _ => .ite .rfl (Run.relates_pure _)
        ((Run.relevels_record hhalving).bind fun _ => ih _ _ _)

theorem relevels_search {f : Objective σ α n} (hf : f.Writes Q)
    (hv : own.Flags .backtracking v v') (P : Projection α n) (x : Vec α n) (d : Vec α k)
    (params : SearchParams α) :
    Run.Relevels own Q (search f P x d { params with verbose := v })
      (search f P x d { params with verbose := v' }) := by
  refine (Run.relates_liftM _).bind fun _ => (Run.relates_liftM _).bind fun feasible =>
    (hf.gradient feasible).relevels.bind fun _ => (Run.relates_liftM _).bind fun _ =>
      -- the slope is tested before the first report
      .guard .rfl ?_
  refine (Run.relates_liftM _).bind fun _ => (hf.value x).relevels.bind fun _ =>
    (Run.relevels_report hv (by decide) _).bind fun _ => (Run.relates_liftM _).bind fun _ =>
      .guard .rfl ?_
  exact (Path.relevels_backtrack ⟨f, P, x, _, _, _, _⟩ hf _ _ _ _).bind fun step =>
    (Run.relevels_report hv (by decide) _).bind fun _ => Run.relates_pure step

end ProjectedBacktracking

end Downhill
