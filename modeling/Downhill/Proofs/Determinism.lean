import Downhill.Objective.Quadratic
import Downhill.Proofs.Run
import Downhill.Residual.Analytic
import Downhill.Search.ProjectedBacktracking
import Downhill.Search.WolfePowell
import Downhill.Solve.ConjugateGradient
import Downhill.Objective.Basic
import Mathlib.Tactic.SplitIfs

/-!
# Determinism

An objective is deterministic if the outcome of each of its evaluations, which may be a failure, is
the same from every session; likewise a residual model. It may still use its memory, say to count
the calls. The outcomes of stencils and line searches on such an objective are then the same from
every session too, and those of linear solves are in any case.
-/

namespace Downhill

/-- Entries with one outcome each make a vector with one outcome. -/
theorem determined_tabulateM {σ α β : Type} :
    ∀ {n : Nat} {entry : Fin n → Run σ α β}, (∀ i, (entry i).Determined) →
      (Vec.tabulateM n entry).Determined := by
  intro n
  induction n with
  | zero =>
    intro entry _
    exact Run.determined_pure _
  | succ n ih =>
    intro entry h
    exact (ih fun i => h _).bind fun _ => (h _).bind fun _ => Run.determined_pure _

variable {σ α : Type} [Scalar α] {m n k g : Nat}

/-! ### Deterministic objectives and models -/

/-- Each evaluation of the objective has one outcome. -/
structure Objective.Deterministic (f : Objective σ α n) : Prop where
  /-- The values do not depend on the session. -/
  value : ∀ x, (f.value x).Determined
  /-- The gradients do not depend on the session. -/
  gradient : ∀ x, (f.gradient x).Determined
  /-- The Hessians do not depend on the session. -/
  hessian : ∀ x, (f.hessian x).Determined
  /-- The products with the Hessian do not depend on the session. -/
  hessianProduct : ∀ x v, (f.hessianProduct x v).Determined

/-- Each evaluation of the model has one outcome. -/
structure ResidualModel.Deterministic (model : ResidualModel σ α m) : Prop where
  /-- The residuals do not depend on the session. -/
  residual : ∀ p, (model.residual p).Determined
  /-- The Jacobians do not depend on the session. -/
  jacobian : ∀ p, (model.jacobian p).Determined

variable {f : Objective σ α n} {model : ResidualModel σ α m}

/-! ### Products with the Hessian -/

/-- The product by default, from the gradient and the Hessian. -/
theorem determined_hessianProductOf {gradient : Vec α n → Run σ α (Vec α n)}
    {hessian : Vec α n → Run σ α (AnyMat α)} (hgradient : ∀ x, (gradient x).Determined)
    (hhessian : ∀ x, (hessian x).Determined) (x v : Vec α n) :
    (hessianProductOf gradient hessian x v).Determined := by
  -- an observed failure is a result, which is the same from every session
  have hobserve : (Run.observe (hessian x)).Determined := by
    obtain ⟨r, hr⟩ := hhessian x
    refine ⟨.ok r, fun s => ?_⟩
    rw [← hr s]
    rfl
  have hforward : (forwardProduct gradient x v).Determined := by
    unfold forwardProduct
    dsimp only
    split_ifs
    · exact Run.determined_pure _
    · exact (hgradient _).bind fun _ => (hgradient _).bind fun _ => Run.determined_pure _
  refine hobserve.bind fun outcome => ?_
  -- only a missing Hessian leads to a difference; other failures are passed on
  rcases outcome with (_ | _ | _ | _ | _ | _ | _ | _) | H
  case error.missing => exact hforward
  case ok => exact Run.determined_liftM _
  all_goals exact Run.determined_throw _

/-! ### Closed forms -/

theorem Quadratic.deterministic (q : Quadratic α m) (n : Nat) :
    (q.objective n : Objective σ α n).Deterministic := by
  have hgradient : ∀ x, ((q.objective n : Objective σ α n).gradient x).Determined := fun _ =>
    (Run.determined_liftM _).bind fun _ => Run.determined_liftM _
  have hhessian : ∀ x, ((q.objective n : Objective σ α n).hessian x).Determined := fun _ =>
    Run.determined_pure _
  exact
    { value := fun _ => (Run.determined_liftM _).bind fun _ => Run.determined_pure _
      gradient := hgradient
      hessian := hhessian
      hessianProduct := determined_hessianProductOf hgradient hhessian }

theorem ResidualModel.deterministic_polynomial (terms : List (Polynomial α)) (m : Nat) :
    (ResidualModel.polynomial terms m : ResidualModel σ α m).Deterministic where
  residual _ := (Run.determined_liftM _).bind fun _ => Run.determined_pure _
  jacobian _ := (Run.determined_liftM _).bind fun _ => Run.determined_pure _

/-! ### Stencils -/

namespace Stencil

variable (hf : f.Deterministic)

include hf

/-- The simplex gradient of a deterministic objective has one outcome. -/
theorem determined_simplexGradient (x : Vec α n) (h : α) :
    (simplexGradient f x h).Determined := by
  refine (Run.determined_liftM _).bind fun _ => determined_tabulateM fun i => ?_
  exact (hf.value _).bind fun _ => (hf.value _).bind fun _ => Run.determined_pure _

/-- The test of a stencil has one outcome. -/
theorem determined_isFailure (x : Vec α n) (h : α) : (isFailure f x h).Determined := by
  refine (Run.determined_liftM _).bind fun _ => (hf.value _).bind fun center => ?_
  have hnoBetter : ∀ i, (noBetter f x h center i).Determined := fun i =>
    (hf.value _).bind fun _ => (hf.value _).bind fun _ => Run.determined_pure _
  -- on the coordinates that are left to visit
  induction List.finRange n with
  | nil => exact Run.determined_pure _
  | cons i is ih =>
    rw [List.allM]
    refine (hnoBetter i).bind fun b => ?_
    cases b with
    | true => exact ih
    | false => exact Run.determined_pure _

end Stencil

/-! ### Line searches -/

namespace WolfePowell

namespace Ray

variable {ray : Ray σ α n} (hf : ray.objective.Deterministic)

include hf

theorem determined_trial (t : α) : (ray.trial t).Determined :=
  (hf.value _).bind fun _ => Run.determined_pure _

/-- The phase that halves has one outcome. -/
theorem determined_halve :
    ∀ (remaining taken : Nat) (t : α) (tally : Tally),
      (ray.halve remaining taken t tally).Determined := by
  intro remaining
  induction remaining with
  | zero =>
    intro taken t tally
    exact Run.determined_throw _
  | succ remaining ih =>
    intro taken t tally
    rw [halve]
    refine (determined_trial hf _).bind fun trial => (Run.determined_record _).bind fun _ => ?_
    split_ifs
    · exact Run.determined_pure _
    · exact ih _ _ _

/-- The phase that doubles has one outcome. -/
theorem determined_double :
    ∀ (remaining taken : Nat) (lower : Trial α n) (gradient : Option (Vec α n)) (tally : Tally),
      (ray.double remaining taken lower gradient tally).Determined := by
  intro remaining
  induction remaining with
  | zero =>
    intro taken lower gradient tally
    exact Run.determined_throw _
  | succ remaining ih =>
    intro taken lower gradient tally
    rw [double]
    refine (determined_trial hf _).bind fun trial => (Run.determined_record _).bind fun _ => ?_
    split_ifs
    · exact ih _ _ _ _
    · exact Run.determined_pure _

/-- The phase that bisects has one outcome. -/
theorem determined_bisect :
    ∀ (remaining taken : Nat) (lower : Trial α n) (gradient : Vec α n) (upper : α) (tally : Tally),
      (ray.bisect remaining taken lower gradient upper tally).Determined := by
  intro remaining
  induction remaining with
  | zero =>
    intro taken lower gradient upper tally
    rw [bisect]
    split_ifs
    · exact Run.determined_throw _
    · exact Run.determined_pure _
  | succ remaining ih =>
    intro taken lower gradient upper tally
    rw [bisect]
    split_ifs
    · refine (determined_trial hf _).bind fun middle => (Run.determined_record _).bind fun _ => ?_
      split_ifs
      · exact (hf.gradient _).bind fun _ => ih _ _ _ _ _
      · exact ih _ _ _ _ _
    · exact Run.determined_pure _

theorem determined_refine (bracket : Bracket α n) (tally : Tally) :
    (ray.refine bracket tally).Determined := by
  obtain ⟨lower, gradient, upper⟩ := bracket
  cases gradient with
  | some gradient => exact determined_bisect hf _ _ _ _ _ _
  | none => exact (hf.gradient _).bind fun _ => determined_bisect hf _ _ _ _ _ _

theorem determined_search (tally : Tally) : (ray.search tally).Determined := by
  unfold search
  refine (determined_trial hf _).bind fun first => ?_
  dsimp only
  split_ifs
  · refine (hf.gradient _).bind fun gradient => ?_
    split_ifs
    · exact Run.determined_pure _
    · exact (determined_double hf _ _ _ _ _).bind fun _ => determined_refine hf _ _
  · exact (determined_halve hf _ _ _ _).bind fun _ => determined_refine hf _ _

end Ray

/-- A Wolfe-Powell search has one outcome. -/
theorem determined_run (hf : f.Deterministic) (x : Vec α n) (value : α) (gradient d : Vec α n)
    (params : SearchParams α) (tally : Tally) :
    (run f x value gradient d params tally).Determined := by
  refine (Run.determined_liftM _).bind fun s => ?_
  dsimp only
  split_ifs
  · exact (Run.raises_throw _).bind.determined
  · refine (Run.determined_liftM _).bind fun _ => (Run.determined_record _).bind fun _ => ?_
    exact (Ray.determined_search hf _).bind fun _ =>
      (Run.determined_record _).bind fun _ => Run.determined_pure _

theorem determined_searchFrom (hf : f.Deterministic) (x : Vec α n) (value : α)
    (gradient : Vec α g) (d : Vec α k) (params : SearchParams α) :
    (searchFrom f x value gradient d params).Determined :=
  (Run.determined_liftM _).bind fun _ => (Run.determined_liftM _).bind fun _ =>
    determined_run hf _ _ _ _ _ _

end WolfePowell

namespace ProjectedBacktracking

/-- The trials of the backtracking search have one outcome. -/
theorem Path.determined_backtrack {path : Path σ α n} (hf : path.objective.Deterministic) :
    ∀ (remaining taken : Nat) (t : α) (tally : Tally),
      (path.backtrack remaining taken t tally).Determined := by
  intro remaining
  induction remaining with
  | zero =>
    intro taken t tally
    rw [backtrack]
    refine (Run.determined_liftM _).bind fun _ => (hf.value _).bind fun _ =>
      (Run.determined_liftM _).bind fun _ => ?_
    split_ifs
    · exact Run.determined_pure _
    · exact Run.determined_throw _
  | succ remaining ih =>
    intro taken t tally
    rw [backtrack]
    refine (Run.determined_liftM _).bind fun _ => (hf.value _).bind fun _ =>
      (Run.determined_liftM _).bind fun _ => ?_
    split_ifs
    · exact Run.determined_pure _
    · exact (Run.determined_record _).bind fun _ => ih _ _ _

/-- A projected backtracking search has one outcome. -/
theorem determined_search (hf : f.Deterministic) (P : Projection α n) (x : Vec α n)
    (d : Vec α k) (params : SearchParams α) : (search f P x d params).Determined := by
  refine (Run.determined_liftM _).bind fun _ => (Run.determined_liftM _).bind fun _ =>
    (hf.gradient _).bind fun _ => (Run.determined_liftM _).bind fun _ => ?_
  dsimp only
  split_ifs
  · exact (Run.raises_throw _).bind.determined
  refine (Run.determined_liftM _).bind fun _ => (hf.value _).bind fun _ =>
    (Run.determined_record _).bind fun _ => (Run.determined_liftM _).bind fun _ => ?_
  split_ifs
  · exact (Run.raises_throw _).bind.determined
  · exact (Path.determined_backtrack hf _ _ _ _).bind fun _ =>
      (Run.determined_record _).bind fun _ => Run.determined_pure _

end ProjectedBacktracking

/-! ### Linear solves -/

namespace ConjugateGradient

namespace Problem

variable {p : Problem α n}

theorem determined_settle (s : State α n) : (p.settle s : Run σ α _).Determined := by
  unfold settle
  dsimp only
  split_ifs
  · exact Run.determined_pure _
  · exact (Run.determined_record _).bind fun _ => (Run.determined_liftM _).bind fun _ =>
      Run.determined_pure _
  · exact Run.determined_pure _

theorem determined_step (s : State α n) : (p.step s : Run σ α _).Determined := by
  unfold step
  dsimp only
  split_ifs
  · exact (Run.raises_throw _).bind.determined
  · exact (Run.determined_liftM _).bind fun _ => (Run.determined_record _).bind fun _ =>
      Run.determined_pure _

/-- The iteration of conjugate gradients has one outcome: it uses no memory at all. -/
theorem determined_iterate (cap : Nat) :
    ∀ (remaining : Nat) (s : State α n), (p.iterate cap remaining s : Run σ α _).Determined := by
  intro remaining
  induction remaining with
  | zero =>
    intro s
    rw [iterate]
    refine (determined_settle s).bind fun outcome => ?_
    cases outcome with
    | inl residual => exact Run.determined_pure _
    | inr s => exact Run.determined_throw _
  | succ remaining ih =>
    intro s
    rw [iterate]
    refine (determined_settle s).bind fun outcome => ?_
    cases outcome with
    | inl residual => exact Run.determined_pure _
    | inr s => exact (determined_step s).bind fun _ => ih _

theorem determined_run (cap : Nat) : (p.run cap : Run σ α _).Determined :=
  (Run.determined_liftM _).bind fun _ => (Run.determined_liftM _).bind fun _ =>
    determined_iterate cap _ _

end Problem

variable {r c : Nat}

theorem determined_solveWith (config : Config α) (A : Mat α r c) (b : Vec α n)
    (M : Preconditioner α n) : (solveWith config A b M : Run σ α _).Determined := by
  refine (Run.determined_liftM _).bind fun _ => (Run.determined_liftM _).bind fun _ =>
    (Run.determined_record _).bind fun _ => (Problem.determined_run _).bind fun _ => ?_
  dsimp only
  split_ifs
  · exact (Run.raises_throw _).bind.determined
  · exact (Run.determined_record _).bind fun _ => Run.determined_pure _

end ConjugateGradient

/-- The attempts at a factor have one outcome; the event of a shift does not count. -/
theorem IncompleteCholesky.determined_attempt (A : Mat α n n) (increment : α) :
    ∀ (remaining failed : Nat) (shift : α),
      (attempt A increment remaining failed shift : Run σ α _).Determined := by
  intro remaining
  induction remaining with
  | zero =>
    intro failed shift
    exact Run.determined_throw _
  | succ remaining ih =>
    intro failed shift
    rw [attempt]
    split
    · split_ifs
      · exact (Run.determined_record _).bind fun _ => Run.determined_pure _
      · exact Run.determined_pure _
    · exact ih _ _

theorem IncompleteCholesky.determined_factorize {r c : Nat} (A : Mat α r c) (increment : α) :
    (factorize A increment : Run σ α _).Determined := by
  refine (Run.determined_liftM _).bind fun _ => ?_
  split_ifs
  · exact determined_attempt _ _ _ _ _
  · exact Run.determined_throw _

theorem ConjugateGradient.determined_solve {r c : Nat} (config : Config α) (A : Mat α r c)
    (b : Vec α n) : (solve config A b : Run σ α _).Determined :=
  (Run.determined_liftM _).bind fun _ => (Run.determined_liftM _).bind fun _ =>
    (IncompleteCholesky.determined_factorize _ _).bind fun _ => determined_solveWith _ _ _ _

end Downhill
