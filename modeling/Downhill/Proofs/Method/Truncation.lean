import Downhill.Proofs.Caps
import Downhill.Proofs.Method.Report

/-!
# Caps only truncate

* `caps_only_truncate`: raising caps changes no result, neither caps of a linear solve or a line
  search nor those of a method or of what is nested in it. And a run of a method that succeeds after
  `N` steps gives the same result with every outer cap from `N` on, while a cap `M < N` makes it
  fail with that cap and the value that the run held after `M` steps.

The first part holds for every objective and is put together from the extensions of the parts. The
second one is about deterministic objectives and follows from the stages that a run passes through,
which do not depend on its cap (`Routine.Holds.truncatesTo`).
-/

namespace Downhill

variable {σ α : Type} {m n : Nat}

/-! ### Truncated runs -/

section Truncated

variable {S β γ : Type}

/-- What caps make of a run that gave `b` after some steps. It gives `b` with every cap that admits
these steps. With a smaller cap it raises a failure, at the stage that the run held after as many
steps. -/
structure TruncatesTo (run : Nat → Run σ α β) (holds : Nat → S → Prop)
    (failure : Nat → S → Failure α) (records : Nat → S → Prop) (b : β) (steps : Nat) : Prop where
  /-- Larger caps change nothing. -/
  computes : ∀ cap ≥ steps, (run cap).Computes b
  /-- Smaller caps end the run at a stage of it. -/
  raises : ∀ cap < steps, ∃ held, holds cap held ∧ (run cap).Raises (failure cap held) ∧
    records cap held

theorem TruncatesTo.map {run : Nat → Run σ α β} {holds records : Nat → S → Prop}
    {failure : Nat → S → Failure α} {b : β} {steps : Nat}
    (h : TruncatesTo run holds failure records b steps) (g : β → γ) :
    TruncatesTo (fun cap => do
      let b ← run cap
      pure (g b)) holds failure records (g b) steps where
  computes cap hcap := (h.computes cap hcap).bind (Run.computes_pure (g b))
  raises cap hcap := by
    obtain ⟨held, hheld, hraises, hrecords⟩ := h.raises cap hcap
    exact ⟨held, hheld, hraises.bind, hrecords⟩

/-- A routine ends at the stage where its test fails, unless a cap ends it at an earlier one, whose
entry in the history is kept. -/
theorem Routine.Holds.truncatesTo {R : Routine σ α S β} (hR : R.Deterministic)
    {history : S → Array α} {index : Nat → S → Nat} {value : S → α}
    (hgrows : ∀ {s k t}, R.loop.Reaches s k t → Grows (history s) (history t))
    (hentry : ∀ {k s}, R.Holds k s → (history s)[index k s]? = some (value s))
    {k : Nat} {last : S} {b : β} (hlast : R.Holds k last) (hend : ¬ R.loop.continues last)
    (hfinish : (R.finish last).Yields b) :
    TruncatesTo R.run R.Holds R.loop.exhausted
      (fun cap s => (history last)[index cap s]? = some (value s)) b k where
  computes cap hcap := hlast.computes_run hR hend hfinish hcap
  raises cap hcap := by
    obtain ⟨held, hheld, hraises⟩ := hlast.raises_run hR hcap
    have hreaches := hheld.reaches hR hlast hcap.le
    exact ⟨held, hheld, hraises, (hgrows hreaches).getElem? (hentry hheld)⟩

end Truncated

variable [Scalar α]

/-! ### Newton descent -/

namespace Newton

variable {config : Config α} {f : Objective σ α n} {x : Vec α n}

theorem extends_minimize {cap : Nat} (hcap : config.maxIterations ≤ cap) (f : Objective σ α n)
    (x : Vec α n) :
    (minimize { config with maxIterations := cap } f x).Extends (minimize config f x) := by
  rw [minimize_eq_run, minimize_eq_run]
  -- the cap enters neither the start nor the steps
  exact Routine.extends_run (R := routine config f x) (.refl _) (fun _ => .refl _)
    (fun _ => Iff.rfl) (fun _ => .refl _) hcap

theorem truncatesTo (hf : f.Deterministic) {o : Outcome α n} (h : (minimize config f x).Yields o) :
    TruncatesTo (fun cap => minimize { config with maxIterations := cap } f x)
      (routine config f x).Holds
      (fun cap s => .capReached cap (some s.value) (some s.gradient.norm) config.tolerance)
      (fun cap s => o.history[cap]? = some s.value) o o.iterations := by
  have hrun : (fun cap => minimize { config with maxIterations := cap } f x) =
      (routine config f x).run :=
    funext fun cap => minimize_eq_run { config with maxIterations := cap } f x
  rw [minimize_eq_run] at h
  obtain ⟨k, -, last, hlast, hend, hfinish⟩ := Routine.exists_of_yields_run h
  obtain rfl : o = last.outcome := Run.eq_of_yields_pure (Run.yields_of_bind_unit hfinish)
  have hsteps : last.outcome.iterations = k := (faithful_of_holds hlast).iterations_eq
  rw [hrun, hsteps]
  exact hlast.truncatesTo (deterministic_routine config hf x) grows_of_reaches
    (fun hs => (faithful_of_holds hs).recorded.getElem?_moves) hend hfinish

end Newton

/-! ### Quasi-Newton descent -/

namespace QuasiNewton

variable {config : Config α} {f : Objective σ α n} {x : Vec α n} {r c : Nat} {A : Mat α r c}

/-- The settings with other caps on the phases of the line search and on iterations. -/
def Config.withCaps (config : Config α) (phase cap : Nat) : Config α :=
  { config with search := config.search.withCap phase, maxIterations := cap }

theorem extends_step {phase cap : Nat} (hphase : config.search.maxIterations ≤ phase)
    (f : Objective σ α n) (s : State α n) :
    (step (config.withCaps phase cap) f s).Extends (step config f s) :=
  .bind_left (descend config s) fun _ _ =>
    (WolfePowell.extends_searchFrom hphase _ _ _ _ _).bind fun _ _ => .refl _

theorem extends_minimizeFrom {phase cap : Nat} (hphase : config.search.maxIterations ≤ phase)
    (hcap : config.maxIterations ≤ cap) (f : Objective σ α n) (x : Vec α n) (A : Mat α r c) :
    (minimizeFrom (config.withCaps phase cap) f x A).Extends (minimizeFrom config f x A) := by
  rw [minimizeFrom_eq_run, minimizeFrom_eq_run]
  refine Routine.extends_run ?_ (extends_step hphase f) (fun _ => Iff.rfl) (fun _ => .refl _) hcap
  -- the check of the settings asks for positive caps, which larger ones are
  refine (Run.extends_liftM fun _ hvalid => ?_).bind fun _ _ => .refl _
  unfold Config.validate at hvalid ⊢
  split_ifs at hvalid with htol
  exact (if_neg htol).trans (SearchParams.validateWolfePowell_withCap hphase hvalid)

theorem truncatesTo (hf : f.Deterministic) {result : Result α n}
    (h : (minimizeFrom config f x A).Yields result) :
    TruncatesTo (fun cap => minimizeFrom { config with maxIterations := cap } f x A)
      (routine config f x A).Holds
      (fun cap s => .capReached cap (some s.value) (some s.gradient.norm) config.tolerance)
      (fun cap s => result.outcome.history[cap]? = some s.value) result
      result.outcome.iterations := by
  have hrun : (fun cap => minimizeFrom { config with maxIterations := cap } f x A) =
      (routine config f x A).run :=
    funext fun cap => minimizeFrom_eq_run { config with maxIterations := cap } f x A
  rw [minimizeFrom_eq_run] at h
  obtain ⟨k, -, last, hlast, hend, hfinish⟩ := Routine.exists_of_yields_run h
  -- the result is that of the stage at which the loop ended
  obtain rfl : result = last.result := Run.eq_of_yields_pure (Run.yields_of_bind_unit hfinish)
  have hsteps : last.result.outcome.iterations = k := (faithful_of_holds hlast).iterations_eq
  rw [hrun, hsteps]
  exact hlast.truncatesTo (deterministic_routine config hf x A) grows_of_reaches
    (fun hs => (faithful_of_holds hs).recorded.getElem?_moves) hend hfinish

end QuasiNewton

/-! ### Levenberg-Marquardt descent -/

namespace LevenbergMarquardt

variable {config : Config α} {model : ResidualModel σ α m} {p : Vec α m}

theorem extends_minimizeWithDamping {cap : Nat} (hcap : config.maxIterations ≤ cap)
    (model : ResidualModel σ α m) (p : Vec α m) :
    (minimizeWithDamping { config with maxIterations := cap } model p).Extends
      (minimizeWithDamping config model p) := by
  rw [minimizeWithDamping_eq_run, minimizeWithDamping_eq_run]
  exact Routine.extends_run (R := routine config model p) (.refl _) (fun _ => .refl _)
    (fun _ => Iff.rfl) (fun _ => .refl _) hcap

/-- The history has no entries for rejected trials. -/
theorem getElem?_history {k : Nat} {s : State α m} (h : (routine config model p).Holds k s) :
    s.history[k - s.rejected]? = some s.value := by
  obtain ⟨-, htrials, accepted, hcount, hrecorded⟩ := faithful_of_holds h
  obtain rfl : k - s.rejected = accepted := by omega
  exact hrecorded.getElem?_moves

theorem truncatesTo (hmodel : model.Deterministic) {result : Result α m}
    (h : (minimizeWithDamping config model p).Yields result) :
    TruncatesTo (fun cap => minimizeWithDamping { config with maxIterations := cap } model p)
      (routine config model p).Holds
      (fun cap s => .capReached cap (some s.value) (some s.stationarity) config.tolerance)
      (fun cap s => result.outcome.history[cap - s.rejected]? = some s.value) result
      result.outcome.iterations := by
  have hrun : (fun cap => minimizeWithDamping { config with maxIterations := cap } model p) =
      (routine config model p).run :=
    funext fun cap => minimizeWithDamping_eq_run { config with maxIterations := cap } model p
  rw [minimizeWithDamping_eq_run] at h
  obtain ⟨k, -, last, hlast, hend, hfinish⟩ := Routine.exists_of_yields_run h
  obtain rfl : result = last.result := Run.eq_of_yields_pure (Run.yields_of_bind_unit hfinish)
  have hsteps : last.result.outcome.iterations = k := (faithful_of_holds hlast).trials_eq
  rw [hrun, hsteps]
  -- an entry of the history belongs to an accepted trial, so the index leaves out the rejected ones
  exact hlast.truncatesTo (deterministic_routine config hmodel p) grows_of_reaches
    getElem?_history hend hfinish

end LevenbergMarquardt

/-! ### Projected inexact Newton descent -/

namespace ProjectedNewton

variable {config : Config α} {f : Objective σ α n} {P : Projection α n} {x : Vec α n}

/-- The settings with other caps on the line search, on inner steps and on iterations. -/
def Config.withCaps (config : Config α) (halvings : Nat) (inner : Option Nat) (cap : Nat) :
    Config α :=
  { config with
    search := config.search.withCap halvings, maxInnerIterations := inner, maxIterations := cap }

theorem extends_innerIterate (config : Config α) (halvings cap : Nat) (inner : Option Nat)
    (f : Objective σ α n) (P : Projection α n) (s : State α n) :
    ∀ {remaining remaining' : Nat}, remaining ≤ remaining' → ∀ t : Inner α n,
      (innerIterate (innerProblem (config.withCaps halvings inner cap) f P s) remaining' t).Extends
        (innerIterate (innerProblem config f P s) remaining t) := by
  intro remaining
  induction remaining with
  | zero =>
    intro remaining' _ t
    -- the smaller cap is used up: it fails unless the loop has ended here
    by_cases h : (innerProblem config f P s).forcing < t.residual.norm
    · rw [innerIterate, if_pos h]
      exact Run.extends_throw _ _
    · have hend : ¬ (innerProblem (config.withCaps halvings inner cap) f P s).forcing <
          t.residual.norm := h
      unfold innerIterate
      rw [if_neg h, if_neg hend]
      exact .refl _
  | succ remaining ih =>
    intro remaining' hle t
    -- both caps admit a further step, which is the same
    obtain ⟨remaining', rfl⟩ : ∃ m, remaining' = m + 1 := ⟨remaining' - 1, by omega⟩
    rw [innerIterate, innerIterate]
    show (if (innerProblem config f P s).forcing < t.residual.norm then _ else _ :
      Run σ α _).Extends _
    split_ifs
    · refine .bind_left (innerStep config f P s.point t) fun next _ => ?_
      cases next with
      | none => exact .refl _
      | some next => exact ih (by omega) next
    · exact .refl _

section Caps

variable {halvings cap : Nat} {inner : Option Nat}
  (hhalvings : config.search.maxIterations ≤ halvings)
  (hinner : config.innerCap n ≤ (config.withCaps halvings inner cap).innerCap n)

include hhalvings hinner

theorem extends_step (f : Objective σ α n) (P : Projection α n) (s : State α n) :
    (step (config.withCaps halvings inner cap) f P s).Extends (step config f P s) := by
  -- the inner loop with its cap, then the search with its own
  refine (extends_innerIterate config halvings cap inner f P s hinner _).bind fun _ _ => ?_
  exact (ProjectedBacktracking.extends_search hhalvings _ _ _ _).bind fun _ _ => .refl _

theorem extends_minimize (hcap : config.maxIterations ≤ cap) (f : Objective σ α n)
    (P : Projection α n) (x : Vec α n) :
    (minimize (config.withCaps halvings inner cap) f P x).Extends (minimize config f P x) := by
  rw [minimize_eq_run, minimize_eq_run]
  refine Routine.extends_run ?_ (extends_step hhalvings hinner f P) (fun _ => Iff.rfl)
    (fun _ => .refl _) hcap
  -- the check of the settings asks for positive caps, which larger ones are
  refine (Run.extends_liftM fun _ hvalid => ?_).bind fun _ _ => .refl _
  unfold Config.validate at hvalid ⊢
  split_ifs at hvalid with htol
  exact (if_neg htol).trans (SearchParams.validateBacktracking_withCap hhalvings hvalid)

end Caps

/-- The outer cap does not matter for the inner loop. -/
theorem innerIterate_withCap (config : Config α) (cap : Nat) (f : Objective σ α n)
    (P : Projection α n) (s : State α n) : ∀ (remaining : Nat) (t : Inner α n),
      innerIterate (innerProblem { config with maxIterations := cap } f P s) remaining t =
        innerIterate (innerProblem config f P s) remaining t
  | 0, t => rfl
  | remaining + 1, t => by
    rw [innerIterate, innerIterate]
    simp only [innerIterate_withCap config cap f P s remaining]
    rfl

theorem routine_withCap (config : Config α) (cap : Nat) (f : Objective σ α n) (P : Projection α n)
    (x : Vec α n) :
    routine { config with maxIterations := cap } f P x = routine config f P x := by
  -- unfolding the step leaves the inner loop as the only place that is given the settings
  have hstep : step { config with maxIterations := cap } f P = step config f P := by
    funext s
    unfold step
    rw [innerIterate_withCap]
    rfl
  unfold routine loop
  rw [hstep]
  rfl

theorem truncatesTo (hf : f.Deterministic) {o : Outcome α n}
    (h : (minimize config f P x).Yields o) :
    TruncatesTo (fun cap => minimize { config with maxIterations := cap } f P x)
      (routine config f P x).Holds
      (fun cap s => .capReached cap (some s.value) (some s.stationarity) config.tolerance)
      (fun cap s => o.history[cap]? = some s.value) o o.iterations := by
  have hrun : (fun cap => minimize { config with maxIterations := cap } f P x) =
      (routine config f P x).run := by
    funext cap
    rw [minimize_eq_run, routine_withCap]
  -- each iteration appends one entry
  have hentry : ∀ {k : Nat} {s : State α n}, (routine config f P x).Holds k s →
      s.history[k]? = some s.value := by
    intro k s hs
    obtain ⟨_, _, hrecorded⟩ := (faithful_of_holds hs).recorded
    exact hrecorded.getElem?_moves
  rw [minimize_eq_run] at h
  obtain ⟨k, -, last, hlast, hend, hfinish⟩ := Routine.exists_of_yields_run h
  obtain rfl : o = last.outcome := Run.eq_of_yields_pure (Run.yields_of_bind_unit hfinish)
  have hsteps : last.outcome.iterations = k := (faithful_of_holds hlast).iterations_eq
  rw [hrun, hsteps]
  exact hlast.truncatesTo (deterministic_routine config hf P x) grows_of_reaches hentry hend hfinish

end ProjectedNewton

/-! ### Implicit filtering -/

namespace ImplicitFiltering

variable {config : Config α} {f : Objective σ α n} {P : Projection α n} {x : Vec α n}

/-- The cap on sweeps does not matter for a descent at one scale. -/
theorem Scale.backtrack_withCap (s : Scale σ α n) (cap : Nat) (x g : Vec α n) (value : α) :
    ∀ (remaining : Nat) (t : α) (used : Nat),
      ({ s with config := { s.config with maxSweeps := cap } } : Scale σ α n).backtrack x g value
        remaining t used = s.backtrack x g value remaining t used
  | 0, t, used => rfl
  | remaining + 1, t, used => by
    rw [backtrack, backtrack]
    simp only [backtrack_withCap s cap x g value remaining]

theorem Scale.iterate_withCap (s : Scale σ α n) (cap : Nat) :
    ∀ (remaining : Nat) (x : Vec α n) (used : Nat),
      ({ s with config := { s.config with maxSweeps := cap } } : Scale σ α n).iterate remaining x
        used = s.iterate remaining x used
  | 0, x, used => rfl
  | remaining + 1, x, used => by
    rw [iterate, iterate]
    simp only [iterate_withCap s cap remaining, backtrack_withCap]

theorem routine_withCap (config : Config α) (cap : Nat) (f : Objective σ α n) (P : Projection α n)
    (x : Vec α n) : routine { config with maxSweeps := cap } f P x = routine config f P x := by
  have hvisit : visit { config with maxSweeps := cap } f P = visit config f P := by
    funext s h
    unfold visit Scale.descend
    simp only [Scale.iterate_withCap ⟨config, f, P, h⟩ cap]
  unfold routine loop sweep
  simp only [hvisit]
  rfl

theorem extends_minimize {cap : Nat} (hcap : config.maxSweeps ≤ cap) (f : Objective σ α n)
    (P : Projection α n) (x : Vec α n) :
    (minimize { config with maxSweeps := cap } f P x).Extends (minimize config f P x) := by
  rw [minimize_eq_run, minimize_eq_run, routine_withCap]
  exact Routine.extends_run (.refl _) (fun _ => .refl _) (fun _ => Iff.rfl) (fun _ => .refl _) hcap

theorem truncatesTo (hf : f.Deterministic) {o : Outcome α n}
    (h : (minimize config f P x).Yields o) :
    TruncatesTo (fun cap => minimize { config with maxSweeps := cap } f P x)
      (routine config f P x).Holds
      (fun cap s => .capReached cap (some s.1.value) none config.tolerance)
      (fun cap s => o.history[cap]? = some s.1.value) o o.iterations := by
  have hrun : (fun cap => minimize { config with maxSweeps := cap } f P x) =
      (routine config f P x).run := by
    funext cap
    rw [minimize_eq_run, routine_withCap]
  have hentry : ∀ {k : Nat} {s : State α n × Bool}, (routine config f P x).Holds k s →
      s.1.history[k]? = some s.1.value := by
    intro k s hs
    obtain ⟨_, _, hrecorded⟩ := (faithful_of_holds hs).recorded
    exact hrecorded.getElem?_moves
  have hgrows : ∀ {s t : State α n × Bool} {k : Nat}, (routine config f P x).loop.Reaches s k t →
      Grows s.1.history t.1.history := grows_of_reaches
  rw [minimize_eq_run] at h
  obtain ⟨k, -, last, hlast, hend, hfinish⟩ := Routine.exists_of_yields_run h
  -- the end of a run also evaluates the projected gradient, which the failure of a cap does not
  -- report
  obtain ⟨gap, rfl⟩ : ∃ gap : Vec α n, o = last.1.outcome gap.norm := by
    obtain ⟨_, _, hfinish⟩ := Run.exists_of_yields_bind hfinish
    obtain ⟨gap, _, hfinish⟩ := Run.exists_of_yields_bind hfinish
    exact ⟨gap, Run.eq_of_yields_pure (Run.yields_of_bind_unit hfinish)⟩
  have hsteps : (last.1.outcome gap.norm).iterations = k := (faithful_of_holds hlast).sweeps_eq
  rw [hrun, hsteps]
  exact hlast.truncatesTo (deterministic_routine config hf P x) hgrows hentry hend hfinish

end ImplicitFiltering

/-! ### All caps -/

/-- **Caps only truncate**. Whatever the objective or model, raising the cap of a linear solve, of a
line search, of what is nested in a method or of a method itself changes no result: the action with
the larger cap extends that with the smaller one. Where the objective or model is deterministic and
a run gives a result after `N` iterations, it does so with every outer cap of at least `N`; with an
outer cap `M < N` it raises the failure of that cap, with the value that it held after `M`
iterations and that its history keeps. -/
theorem caps_only_truncate :
    (∀ (config : ConjugateGradient.Config α) (limit : Option Nat) (r c : Nat) (A : Mat α r c)
      (b : Vec α n), config.cap n ≤ (config.withCap limit).cap n →
      (∀ M, (ConjugateGradient.solveWith (config.withCap limit) A b M : Run σ α _).Extends
        (ConjugateGradient.solveWith config A b M)) ∧
      (ConjugateGradient.solve (config.withCap limit) A b : Run σ α _).Extends
        (ConjugateGradient.solve config A b)) ∧
    (∀ f : Objective σ α n,
      (∀ (params : SearchParams α) (phase : Nat), params.maxIterations ≤ phase →
        ∀ (x : Vec α n) (k : Nat) (d : Vec α k),
        (WolfePowell.search f x d (params.withCap phase)).Extends
          (WolfePowell.search f x d params) ∧
        (∀ (value : α) (g : Nat) (gradient : Vec α g),
          (WolfePowell.searchFrom f x value gradient d (params.withCap phase)).Extends
            (WolfePowell.searchFrom f x value gradient d params)) ∧
        ∀ P, (ProjectedBacktracking.search f P x d (params.withCap phase)).Extends
          (ProjectedBacktracking.search f P x d params)) ∧
      (∀ (config : Newton.Config α) (cap : Nat), config.maxIterations ≤ cap → ∀ x,
        (Newton.minimize { config with maxIterations := cap } f x).Extends
          (Newton.minimize config f x)) ∧
      (∀ (config : QuasiNewton.Config α) (phase cap : Nat), config.search.maxIterations ≤ phase →
        config.maxIterations ≤ cap → ∀ x,
        (∀ (r c : Nat) (A : Mat α r c),
          (QuasiNewton.minimizeFrom (config.withCaps phase cap) f x A).Extends
            (QuasiNewton.minimizeFrom config f x A)) ∧
        (QuasiNewton.minimizeWithInverse (config.withCaps phase cap) f x).Extends
          (QuasiNewton.minimizeWithInverse config f x) ∧
        (QuasiNewton.minimize (config.withCaps phase cap) f x).Extends
          (QuasiNewton.minimize config f x)) ∧
      (∀ (config : ProjectedNewton.Config α) (halvings : Nat) (inner : Option Nat) (cap : Nat),
        config.search.maxIterations ≤ halvings →
        config.innerCap n ≤ (config.withCaps halvings inner cap).innerCap n →
        config.maxIterations ≤ cap → ∀ P x,
        (ProjectedNewton.minimize (config.withCaps halvings inner cap) f P x).Extends
          (ProjectedNewton.minimize config f P x)) ∧
      ∀ (config : ImplicitFiltering.Config α) (cap : Nat), config.maxSweeps ≤ cap → ∀ P x,
        (ImplicitFiltering.minimize { config with maxSweeps := cap } f P x).Extends
          (ImplicitFiltering.minimize config f P x)) ∧
    (∀ (model : ResidualModel σ α m) (config : LevenbergMarquardt.Config α) (cap : Nat),
      config.maxIterations ≤ cap → ∀ p,
      (LevenbergMarquardt.minimizeWithDamping { config with maxIterations := cap } model p).Extends
        (LevenbergMarquardt.minimizeWithDamping config model p) ∧
      (LevenbergMarquardt.minimize { config with maxIterations := cap } model p).Extends
        (LevenbergMarquardt.minimize config model p)) ∧
    (∀ f : Objective σ α n, f.Deterministic →
      (∀ (config : Newton.Config α) x o, (Newton.minimize config f x).Yields o →
        TruncatesTo (fun cap => Newton.minimize { config with maxIterations := cap } f x)
          (Newton.routine config f x).Holds
          (fun cap s => .capReached cap (some s.value) (some s.gradient.norm) config.tolerance)
          (fun cap s => o.history[cap]? = some s.value) o o.iterations) ∧
      (∀ (config : QuasiNewton.Config α) x,
        (∀ (r c : Nat) (A : Mat α r c) result,
          (QuasiNewton.minimizeFrom config f x A).Yields result →
          TruncatesTo
            (fun cap => QuasiNewton.minimizeFrom { config with maxIterations := cap } f x A)
            (QuasiNewton.routine config f x A).Holds
            (fun cap s => .capReached cap (some s.value) (some s.gradient.norm) config.tolerance)
            (fun cap s => result.outcome.history[cap]? = some s.value) result
            result.outcome.iterations) ∧
        (∀ result, (QuasiNewton.minimizeWithInverse config f x).Yields result →
          TruncatesTo
            (fun cap => QuasiNewton.minimizeWithInverse { config with maxIterations := cap } f x)
            (QuasiNewton.routine config f x (.identity : Mat α n n)).Holds
            (fun cap s => .capReached cap (some s.value) (some s.gradient.norm) config.tolerance)
            (fun cap s => result.outcome.history[cap]? = some s.value) result
            result.outcome.iterations) ∧
        ∀ o, (QuasiNewton.minimize config f x).Yields o →
          TruncatesTo (fun cap => QuasiNewton.minimize { config with maxIterations := cap } f x)
            (QuasiNewton.routine config f x (.identity : Mat α n n)).Holds
            (fun cap s => .capReached cap (some s.value) (some s.gradient.norm) config.tolerance)
            (fun cap s => o.history[cap]? = some s.value) o o.iterations) ∧
      (∀ (config : ProjectedNewton.Config α) P x o,
        (ProjectedNewton.minimize config f P x).Yields o →
        TruncatesTo (fun cap => ProjectedNewton.minimize { config with maxIterations := cap } f P x)
          (ProjectedNewton.routine config f P x).Holds
          (fun cap s => .capReached cap (some s.value) (some s.stationarity) config.tolerance)
          (fun cap s => o.history[cap]? = some s.value) o o.iterations) ∧
      ∀ (config : ImplicitFiltering.Config α) P x o,
        (ImplicitFiltering.minimize config f P x).Yields o →
        TruncatesTo (fun cap => ImplicitFiltering.minimize { config with maxSweeps := cap } f P x)
          (ImplicitFiltering.routine config f P x).Holds
          (fun cap s => .capReached cap (some s.1.value) none config.tolerance)
          (fun cap s => o.history[cap]? = some s.1.value) o o.iterations) ∧
    ∀ model : ResidualModel σ α m, model.Deterministic →
      ∀ (config : LevenbergMarquardt.Config α) p,
        (∀ result, (LevenbergMarquardt.minimizeWithDamping config model p).Yields result →
          TruncatesTo
            (fun cap => LevenbergMarquardt.minimizeWithDamping { config with maxIterations := cap }
              model p)
            (LevenbergMarquardt.routine config model p).Holds
            (fun cap s => .capReached cap (some s.value) (some s.stationarity) config.tolerance)
            (fun cap s => result.outcome.history[cap - s.rejected]? = some s.value) result
            result.outcome.iterations) ∧
        ∀ o, (LevenbergMarquardt.minimize config model p).Yields o →
          TruncatesTo
            (fun cap => LevenbergMarquardt.minimize { config with maxIterations := cap } model p)
            (LevenbergMarquardt.routine config model p).Holds
            (fun cap s => .capReached cap (some s.value) (some s.stationarity) config.tolerance)
            (fun cap s => o.history[cap - s.rejected]? = some s.value) o o.iterations := by
  refine ⟨?_, fun f => ⟨?_, ?_, ?_, ?_, ?_⟩, ?_,
    fun f hf => ⟨?_, fun config x => ⟨?_, ?_, ?_⟩, ?_, ?_⟩,
    fun model hmodel config p => ⟨?_, ?_⟩⟩
  -- the larger caps: solver, searches and the five methods
  · intro config limit r c A b hcap
    exact ⟨ConjugateGradient.extends_solveWith hcap A b, ConjugateGradient.extends_solve hcap A b⟩
  · intro params phase hphase x k d
    exact ⟨WolfePowell.extends_search hphase f x d,
      fun value g gradient => WolfePowell.extends_searchFrom hphase f x value gradient d,
      fun P => ProjectedBacktracking.extends_search hphase f P x d⟩
  · intro config cap hcap x
    exact Newton.extends_minimize hcap f x
  · intro config phase cap hphase hcap x
    have hfrom := QuasiNewton.extends_minimizeFrom hphase hcap f x (.identity : Mat α n n)
    exact ⟨fun r c A => QuasiNewton.extends_minimizeFrom hphase hcap f x A, hfrom,
      hfrom.bind fun _ _ => .refl _⟩
  · intro config halvings inner cap hhalvings hinner hcap P x
    exact ProjectedNewton.extends_minimize hhalvings hinner hcap f P x
  · intro config cap hcap P x
    exact ImplicitFiltering.extends_minimize hcap f P x
  · intro model config cap hcap p
    have hdamping := LevenbergMarquardt.extends_minimizeWithDamping hcap model p
    exact ⟨hdamping, hdamping.bind fun _ _ => .refl _⟩
  -- every cap against the result of a run: one method after the other
  · exact fun config x o => Newton.truncatesTo hf
  · exact fun r c A result => QuasiNewton.truncatesTo hf
  · exact fun result => QuasiNewton.truncatesTo hf
  · intro o h
    obtain ⟨result, hresult, rfl⟩ := QuasiNewton.minimize_cases h
    exact (QuasiNewton.truncatesTo hf hresult).map QuasiNewton.Result.outcome
  · exact fun config P x o => ProjectedNewton.truncatesTo hf
  · exact fun config P x o => ImplicitFiltering.truncatesTo hf
  · exact fun result => LevenbergMarquardt.truncatesTo hmodel
  · intro o h
    obtain ⟨result, hresult, rfl⟩ := LevenbergMarquardt.minimize_cases h
    exact (LevenbergMarquardt.truncatesTo hmodel hresult).map LevenbergMarquardt.Result.outcome

/-- Runs of one, two, one, two and three iterations, with all caps from there on and with one less;
a solve and two searches with larger caps. -/
theorem caps_only_truncate_doubles :
    (∃ solution, (ConjugateGradient.solve {} doubleParabola.matrix #v[1] :
        Run Unit Float _).Yields solution ∧
      (ConjugateGradient.solve (ConjugateGradient.Config.withCap {} (some 20)) doubleParabola.matrix
        #v[1] : Run Unit Float _).Yields solution) ∧
    (∃ found, (WolfePowell.search doubleObjective #v[3] #v[-8] .wolfePowell).Yields found ∧
      (WolfePowell.search doubleObjective #v[3] #v[-8]
        (SearchParams.wolfePowell.withCap 200)).Yields found) ∧
    (∃ o, (Newton.minimize {} doubleObjective #v[3]).Yields o ∧
      (Newton.minimize { maxIterations := 2000 } doubleObjective #v[3]).Yields o ∧
      (∀ cap ≥ 1, (Newton.minimize { maxIterations := cap } doubleObjective #v[3]).Computes o) ∧
      ∃ v g, (Newton.minimize { maxIterations := 0 } doubleObjective #v[3]).Raises
        (.capReached 0 (some v) (some g) Scalar.gradientTolerance) ∧ o.history[0]? = some v) ∧
    (∃ o, (QuasiNewton.minimize {} doubleObjective #v[3]).Yields o ∧
      (∀ cap ≥ 2, (QuasiNewton.minimize { maxIterations := cap } doubleObjective #v[3]).Computes o) ∧
      ∃ v g, (QuasiNewton.minimize { maxIterations := 1 } doubleObjective #v[3]).Raises
        (.capReached 1 (some v) (some g) Scalar.gradientTolerance) ∧ o.history[1]? = some v) ∧
    (∃ o, (ProjectedNewton.minimize {} doubleObjective doubleInterval #v[3]).Yields o ∧
      (∀ cap ≥ 1, (ProjectedNewton.minimize { maxIterations := cap } doubleObjective doubleInterval
        #v[3]).Computes o) ∧
      ∃ v g, (ProjectedNewton.minimize { maxIterations := 0 } doubleObjective doubleInterval
        #v[3]).Raises (.capReached 0 (some v) (some g) Scalar.gradientTolerance) ∧
          o.history[0]? = some v) ∧
    (∃ o, (ImplicitFiltering.minimize twoScales doubleObjective doubleInterval #v[3]).Yields o ∧
      (∀ cap ≥ 2, (ImplicitFiltering.minimize { twoScales with maxSweeps := cap } doubleObjective
        doubleInterval #v[3]).Computes o) ∧
      ∃ v, (ImplicitFiltering.minimize { twoScales with maxSweeps := 1 } doubleObjective
        doubleInterval #v[3]).Raises (.capReached 1 (some v) none twoScales.tolerance) ∧
          o.history[1]? = some v) ∧
    ∃ o, (LevenbergMarquardt.minimize looseFit doubleResidual #v[0.3]).Yields o ∧
      (∀ cap ≥ 3, (LevenbergMarquardt.minimize { looseFit with maxIterations := cap } doubleResidual
        #v[0.3]).Computes o) ∧
      ∃ v g, ∃ i : Nat,
        (LevenbergMarquardt.minimize { looseFit with maxIterations := 2 } doubleResidual
          #v[0.3]).Raises (.capReached 2 (some v) (some g) looseFit.tolerance) ∧
          o.history[i]? = some v := by
  obtain ⟨hsolve, hextend, -, hdescents, hfits⟩ :=
    caps_only_truncate (σ := Unit) (α := Float) (n := 1) (m := 1)
  obtain ⟨hsearch, hnewton', -⟩ := hextend doubleObjective
  obtain ⟨hnewton, hquasi, hprojected, hfiltering⟩ :=
    hdescents doubleObjective (doubleParabola.deterministic 1)
  refine ⟨?_, ?_, ?_, ?_, ?_, ?_, ?_⟩
  · obtain ⟨solution, hsolution, -⟩ : ∃ solution,
        (ConjugateGradient.solve {} doubleParabola.matrix #v[1] : Run Unit Float _).Yields solution ∧
          solution.iterations = 0 :=
      Run.exists_yields_of_start ConjugateGradient.Solution.iterations () (by decide +kernel)
    exact ⟨solution, hsolution, (hsolve {} (some 20) 1 1 _ _ (by decide)).2.yields hsolution⟩
  · obtain ⟨found, hfound, -⟩ : ∃ found,
        (WolfePowell.search doubleObjective #v[3] #v[-8] .wolfePowell).Yields found ∧
          found.tally = ⟨3, 2⟩ :=
      Run.exists_yields_of_start WolfePowell.Step.tally () (by decide +kernel)
    exact ⟨found, hfound, (hsearch .wolfePowell 200 (by decide) _ _ _).1.yields hfound⟩
  -- from here on, the number of iterations is evaluated and the caps are compared with it
  · obtain ⟨o, ho, hiterations⟩ : ∃ o, (Newton.minimize {} doubleObjective #v[3]).Yields o ∧
        o.iterations = 1 := Run.exists_yields_of_start Outcome.iterations () (by decide +kernel)
    obtain ⟨hcomputes, hraises⟩ := hnewton _ _ o ho
    rw [hiterations] at hcomputes hraises
    obtain ⟨held, -, hfails, hvalue⟩ := hraises 0 Nat.one_pos
    exact ⟨o, ho, (hnewton' {} 2000 (by decide) _).yields ho, hcomputes, held.value, _, hfails,
      hvalue⟩
  · obtain ⟨o, ho, hiterations⟩ : ∃ o, (QuasiNewton.minimize {} doubleObjective #v[3]).Yields o ∧
        o.iterations = 2 := Run.exists_yields_of_start Outcome.iterations () (by decide +kernel)
    obtain ⟨hcomputes, hraises⟩ := (hquasi _ _).2.2 o ho
    rw [hiterations] at hcomputes hraises
    obtain ⟨held, -, hfails, hvalue⟩ := hraises 1 (by decide)
    exact ⟨o, ho, hcomputes, held.value, _, hfails, hvalue⟩
  · obtain ⟨o, ho, hiterations⟩ :
        ∃ o, (ProjectedNewton.minimize {} doubleObjective doubleInterval #v[3]).Yields o ∧
          o.iterations = 1 := Run.exists_yields_of_start Outcome.iterations () (by decide +kernel)
    obtain ⟨hcomputes, hraises⟩ := hprojected _ _ _ o ho
    rw [hiterations] at hcomputes hraises
    obtain ⟨held, -, hfails, hvalue⟩ := hraises 0 Nat.one_pos
    exact ⟨o, ho, hcomputes, held.value, _, hfails, hvalue⟩
  · obtain ⟨o, ho, hiterations⟩ :
        ∃ o, (ImplicitFiltering.minimize twoScales doubleObjective doubleInterval #v[3]).Yields o ∧
          o.iterations = 2 := Run.exists_yields_of_start Outcome.iterations () (by decide +kernel)
    obtain ⟨hcomputes, hraises⟩ := hfiltering _ _ _ o ho
    rw [hiterations] at hcomputes hraises
    obtain ⟨held, -, hfails, hvalue⟩ := hraises 1 (by decide)
    exact ⟨o, ho, hcomputes, held.1.value, hfails, hvalue⟩
  · obtain ⟨o, ho, hiterations⟩ :
        ∃ o, (LevenbergMarquardt.minimize looseFit doubleResidual #v[0.3]).Yields o ∧
          o.iterations = 3 := Run.exists_yields_of_start Outcome.iterations () (by decide +kernel)
    obtain ⟨hcomputes, hraises⟩ :=
      (hfits doubleResidual (ResidualModel.deterministic_polynomial _ 1) _ _).2 o ho
    rw [hiterations] at hcomputes hraises
    obtain ⟨held, -, hfails, hvalue⟩ := hraises 2 (by decide)
    exact ⟨o, ho, hcomputes, held.value, _, _, hfails, hvalue⟩

end Downhill
