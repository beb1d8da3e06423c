import Downhill.Proofs.Run
import Downhill.Search.ProjectedBacktracking
import Downhill.Search.WolfePowell
import Downhill.Solve.ConjugateGradient
import Mathlib.Tactic.SplitIfs

/-!
# Larger caps

Line searches and linear solves look at their caps only to give up. So one with a larger cap extends
(`Run.Extends`) the one with the smaller cap: where that one succeeds, it makes the same steps. This
needs nothing from the objective, whose evaluations may depend on the session.

Each loop has one lemma, by induction on the steps that remain under the smaller cap.
-/

namespace Downhill

variable {σ α : Type} [Scalar α] {n k r c g cap cap' : Nat}

/-! ### Parameters of line searches -/

namespace SearchParams

variable {params : SearchParams α}

/-- The parameters with another cap. -/
def withCap (params : SearchParams α) (cap : Nat) : SearchParams α :=
  { params with maxIterations := cap }

omit [Scalar α] in
/-- A larger cap is not zero if the smaller one is not. -/
theorem validateCap_withCap (hcap : params.maxIterations ≤ cap)
    (h : params.validateCap = .ok ()) : (params.withCap cap).validateCap = .ok () := by
  unfold validateCap at h ⊢
  split_ifs at h with hzero
  have hpos : (params.withCap cap).maxIterations ≠ 0 := by
    show cap ≠ 0
    omega
  rw [if_neg hpos]

/-- The cap is the last thing that is checked. -/
theorem validateWolfePowell_withCap (hcap : params.maxIterations ≤ cap)
    (h : params.validateWolfePowell = .ok ()) :
    (params.withCap cap).validateWolfePowell = .ok () := by
  unfold validateWolfePowell at h ⊢
  split_ifs at h with hsigma hrho
  exact (if_neg hsigma).trans ((if_neg hrho).trans (validateCap_withCap hcap h))

theorem validateBacktracking_withCap (hcap : params.maxIterations ≤ cap)
    (h : params.validateBacktracking = .ok ()) :
    (params.withCap cap).validateBacktracking = .ok () := by
  unfold validateBacktracking at h ⊢
  split_ifs at h with hsigma
  exact (if_neg hsigma).trans (validateCap_withCap hcap h)

end SearchParams

/-! ### The Wolfe-Powell search -/

namespace WolfePowell

namespace Ray

/-- The ray with another cap on the phases of the search along it. -/
def withCap (ray : Ray σ α n) (cap : Nat) : Ray σ α n :=
  { ray with params := ray.params.withCap cap }

variable {ray : Ray σ α n}

/-- More halvings change no result of the phase that halves. -/
theorem extends_halve : ∀ {remaining remaining' : Nat}, remaining ≤ remaining' →
    ∀ (taken : Nat) (t : α) (tally : Tally),
      ((ray.withCap cap).halve remaining' taken t tally).Extends
        (ray.halve remaining taken t tally) := by
  -- on the steps that the smaller cap leaves; after the last one all actions extend its failure
  intro remaining
  induction remaining with
  | zero =>
    intro remaining' _ taken t tally
    exact Run.extends_throw _ _
  | succ remaining ih =>
    intro remaining' hle taken t tally
    obtain ⟨remaining', rfl⟩ : ∃ m, remaining' = m + 1 := ⟨remaining' - 1, by omega⟩
    rw [halve, halve]
    refine .bind_left (ray.trial _) fun trial _ => .bind_left _ fun _ _ => ?_
    show (if ray.decreases trial then _ else _ : Run σ α _).Extends _
    split_ifs
    · exact .refl _
    · exact ih (by omega) _ _ _

/-- More doublings change no result of the phase that doubles. -/
theorem extends_double : ∀ {remaining remaining' : Nat}, remaining ≤ remaining' →
    ∀ (taken : Nat) (lower : Trial α n) (gradient : Option (Vec α n)) (tally : Tally),
      ((ray.withCap cap).double remaining' taken lower gradient tally).Extends
        (ray.double remaining taken lower gradient tally) := by
  intro remaining
  induction remaining with
  | zero =>
    intro remaining' _ taken lower gradient tally
    exact Run.extends_throw _ _
  | succ remaining ih =>
    intro remaining' hle taken lower gradient tally
    obtain ⟨remaining', rfl⟩ : ∃ m, remaining' = m + 1 := ⟨remaining' - 1, by omega⟩
    rw [double, double]
    refine .bind_left (ray.trial _) fun trial _ => .bind_left _ fun _ _ => ?_
    show (if ray.decreases trial then _ else _ : Run σ α _).Extends _
    split_ifs
    · exact ih (by omega) _ _ _ _
    · exact .refl _

/-- More bisections change no result of the phase that bisects. -/
theorem extends_bisect : ∀ {remaining remaining' : Nat}, remaining ≤ remaining' →
    ∀ (taken : Nat) (lower : Trial α n) (gradient : Vec α n) (upper : α) (tally : Tally),
      ((ray.withCap cap).bisect remaining' taken lower gradient upper tally).Extends
        (ray.bisect remaining taken lower gradient upper tally) := by
  intro remaining
  induction remaining with
  | zero =>
    intro remaining' _ taken lower gradient upper tally
    -- the larger cap may be zero too, so its equation is opened without a case split
    rw [bisect, bisect.eq_def]
    show (if ray.tooSteep gradient then _ else _ : Run σ α _).Extends _
    split_ifs
    · exact Run.extends_throw _ _
    · exact .refl _
  | succ remaining ih =>
    intro remaining' hle taken lower gradient upper tally
    obtain ⟨remaining', rfl⟩ : ∃ m, remaining' = m + 1 := ⟨remaining' - 1, by omega⟩
    rw [bisect, bisect]
    show (if ray.tooSteep gradient then _ else _ : Run σ α _).Extends _
    split_ifs
    · refine .bind_left (ray.trial _) fun middle _ => .bind_left _ fun _ _ => ?_
      show (if ray.decreases middle then _ else _ : Run σ α _).Extends _
      split_ifs
      · exact .bind_left _ fun _ _ => ih (by omega) _ _ _ _ _
      · exact ih (by omega) _ _ _ _ _
    · exact .refl _

/-- The bracket is refined with the same gradient, which is evaluated where none is carried. -/
theorem extends_refine (hcap : ray.params.maxIterations ≤ cap) (bracket : Bracket α n)
    (tally : Tally) :
    ((ray.withCap cap).refine bracket tally).Extends (ray.refine bracket tally) := by
  unfold refine
  cases bracket.gradient with
  | some gradient => exact extends_bisect hcap _ _ _ _ _
  | none => exact .bind_left _ fun _ _ => extends_bisect hcap _ _ _ _ _

/-- All phases have the same cap, so they are extended together. -/
theorem extends_search (hcap : ray.params.maxIterations ≤ cap) (tally : Tally) :
    ((ray.withCap cap).search tally).Extends (ray.search tally) := by
  unfold search
  refine .bind_left (ray.trial 1) fun first _ => ?_
  show (if ray.decreases first then _ else _ : Run σ α _).Extends _
  dsimp only
  split_ifs
  · refine .bind_left _ fun gradient _ => ?_
    show (if ray.slopeBound ≤ gradient.dot ray.direction then _ else _ : Run σ α _).Extends _
    split_ifs
    · exact .refl _
    · exact (extends_double hcap _ _ _ _).bind fun _ _ => extends_refine hcap _ _
  · exact (extends_halve hcap _ _ _).bind fun _ _ => extends_refine hcap _ _

end Ray

variable {params : SearchParams α}

theorem extends_run (hcap : params.maxIterations ≤ cap) (f : Objective σ α n) (x : Vec α n)
    (value : α) (gradient d : Vec α n) (tally : Tally) :
    (run f x value gradient d (params.withCap cap) tally).Extends
      (run f x value gradient d params tally) := by
  unfold run
  refine .bind_left _ fun s _ => ?_
  dsimp only
  split_ifs
  -- an ascent is refused before the cap plays a part
  · exact .bind_left _ fun _ h => absurd h Run.not_yields_throw
  · refine (Run.extends_liftM fun _ => SearchParams.validateWolfePowell_withCap hcap).bind
      fun _ _ => .bind_left _ fun _ _ => ?_
    have hcap : (Ray.mk f x d value s params).params.maxIterations ≤ cap := hcap
    exact (Ray.extends_search hcap tally).bind fun _ _ => .refl _

theorem extends_search (hcap : params.maxIterations ≤ cap) (f : Objective σ α n) (x : Vec α n)
    (d : Vec α k) : (search f x d (params.withCap cap)).Extends (search f x d params) :=
  .bind_left _ fun _ _ => .bind_left _ fun _ _ => .bind_left _ fun _ _ =>
    extends_run hcap _ _ _ _ _ _

theorem extends_searchFrom (hcap : params.maxIterations ≤ cap) (f : Objective σ α n) (x : Vec α n)
    (value : α) (gradient : Vec α g) (d : Vec α k) :
    (searchFrom f x value gradient d (params.withCap cap)).Extends
      (searchFrom f x value gradient d params) :=
  .bind_left _ fun _ _ => .bind_left _ fun _ _ => extends_run hcap _ _ _ _ _ _

end WolfePowell

/-! ### The projected backtracking search -/

namespace ProjectedBacktracking

/-- More halvings change no step of the backtracking search. -/
theorem Path.extends_backtrack (path : Path σ α n) : ∀ {remaining remaining' : Nat},
    remaining ≤ remaining' → ∀ (taken : Nat) (t : α) (tally : Tally),
      (path.backtrack remaining' taken t tally).Extends
        (path.backtrack remaining taken t tally) := by
  intro remaining
  induction remaining with
  | zero =>
    intro remaining' _ taken t tally
    -- the last trial is made with every cap, and only its failure depends on what is left
    rw [backtrack, backtrack.eq_def]
    refine .bind_left _ fun _ _ => .bind_left _ fun _ _ => .bind_left _ fun _ _ => ?_
    split_ifs
    · exact .refl _
    · exact Run.extends_throw _ _
  | succ remaining ih =>
    intro remaining' hle taken t tally
    obtain ⟨remaining', rfl⟩ : ∃ m, remaining' = m + 1 := ⟨remaining' - 1, by omega⟩
    rw [backtrack, backtrack]
    refine .bind_left _ fun _ _ => .bind_left _ fun _ _ => .bind_left _ fun _ _ => ?_
    split_ifs
    · exact .refl _
    · exact .bind_left _ fun _ _ => ih (by omega) _ _ _

theorem extends_search {params : SearchParams α} (hcap : params.maxIterations ≤ cap)
    (f : Objective σ α n) (P : Projection α n) (x : Vec α n) (d : Vec α k) :
    (search f P x d (params.withCap cap)).Extends (search f P x d params) := by
  unfold search
  refine .bind_left _ fun _ _ => .bind_left _ fun _ _ => .bind_left _ fun _ _ =>
    .bind_left _ fun _ _ => ?_
  dsimp only
  split_ifs
  · exact .bind_left _ fun _ h => absurd h Run.not_yields_throw
  refine (Run.extends_liftM fun _ => SearchParams.validateBacktracking_withCap hcap).bind
    fun _ _ => .bind_left _ fun _ _ => .bind_left _ fun _ _ => .bind_left _ fun _ _ => ?_
  split_ifs
  · exact .bind_left _ fun _ h => absurd h Run.not_yields_throw
  · exact (Path.extends_backtrack _ hcap _ _ _).bind fun _ _ => .refl _

end ProjectedBacktracking

/-! ### Linear solves -/

namespace ConjugateGradient

namespace Problem

variable {p : Problem α n}

/-- More steps change no solution, whatever the caps are that a failure names. -/
theorem extends_iterate : ∀ {remaining remaining' : Nat}, remaining ≤ remaining' →
    ∀ s : State α n, (p.iterate cap' remaining' s : Run σ α _).Extends
      (p.iterate cap remaining s) := by
  intro remaining
  induction remaining with
  | zero =>
    intro remaining' _ s
    rw [iterate, iterate.eq_def]
    refine .bind_left _ fun outcome _ => ?_
    -- the cap is tested after the residual, so a system that is solved in time ends alike
    cases outcome with
    | inl residual => exact .refl _
    | inr s => exact Run.extends_throw _ _
  | succ remaining ih =>
    intro remaining' hle s
    obtain ⟨remaining', rfl⟩ : ∃ m, remaining' = m + 1 := ⟨remaining' - 1, by omega⟩
    rw [iterate, iterate]
    refine .bind_left _ fun outcome _ => ?_
    cases outcome with
    | inl residual => exact .refl _
    | inr s => exact .bind_left _ fun _ _ => ih (by omega) _

theorem extends_run (hcap : cap ≤ cap') : (p.run cap' : Run σ α _).Extends (p.run cap) :=
  .bind_left _ fun _ _ => .bind_left _ fun _ _ => extends_iterate hcap _

end Problem

variable {config : Config α} {limit : Option Nat}

/-- The settings with another cap on steps. -/
def Config.withCap (config : Config α) (limit : Option Nat) : Config α :=
  { config with maxIterations := limit }

/-- The cap is that of the configuration where it is set, and depends on the dimension otherwise. -/
theorem extends_solveWith (hcap : config.cap n ≤ (config.withCap limit).cap n) (A : Mat α r c)
    (b : Vec α n) (M : Preconditioner α n) :
    (solveWith (config.withCap limit) A b M : Run σ α _).Extends (solveWith config A b M) := by
  unfold solveWith
  exact .bind_left _ fun _ _ => .bind_left _ fun _ _ => .bind_left _ fun _ _ =>
    (Problem.extends_run hcap).bind fun _ _ => .refl _

theorem extends_solve (hcap : config.cap n ≤ (config.withCap limit).cap n) (A : Mat α r c)
    (b : Vec α n) : (solve (config.withCap limit) A b : Run σ α _).Extends (solve config A b) :=
  .bind_left _ fun _ _ => .bind_left _ fun _ _ => .bind_left _ fun _ _ =>
    extends_solveWith hcap _ _ _

end ConjugateGradient

end Downhill
