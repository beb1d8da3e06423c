import Downhill.Proofs.Method.ImplicitFiltering
import Downhill.Proofs.Method.LevenbergMarquardt
import Downhill.Proofs.Method.Newton
import Downhill.Proofs.Method.ProjectedNewton
import Downhill.Proofs.Method.QuasiNewton
import Downhill.Proofs.Method.Report
import Downhill.Proofs.Objective.Journal
import Downhill.Proofs.Search.Journal

/-!
# Journals of the methods

What a flag changes in a run of a method: its own flag, and that of the line search inside it. The
linear solves inside a method report at level `debug`, whatever its flag.

Each method is a routine, and the two runs are compared step by step (`Routine.relates_run`). The
theorems of this kind take the flags of the method and of its line search in both runs, under
`Reporter.Flags`. `flags_set_levels` puts all routines together, with one flag set and unset.
-/

namespace Downhill

variable {σ α : Type} [Scalar α] {n m r c k g : Nat} {own : Reporter} {Q : Event α → Prop}
  {v v' w w' : Bool} {f : Objective σ α n} {model : ResidualModel σ α m}

/-! ### Newton descent -/

namespace Newton

/-- The evaluations at the start report nothing of the method. -/
theorem relevels_start (hf : f.Writes Q) (x : Vec α n) :
    Run.Relevels own Q (start f x) (start f x) :=
  (hf.value x).relevels.bind fun _ => (hf.gradient x).relevels.bind fun _ => Run.relates_pure _

/-- A step of Newton descent reports at level `debug`. -/
theorem relevels_step (hf : f.Writes Q) (hsolver : own.Flags .solver false false)
    (config : Config α) (s : State α n) :
    Run.Relevels own Q (step { config with verbose := v } f s)
      (step { config with verbose := v' } f s) := by
  have hstep : "Newton step" ∉ own.messages := by cases own <;> decide
  refine (hf.hessian s.point).relevels.bind fun _ =>
    (ConjugateGradient.relevels_solve hsolver { tolerance := config.solveTolerance } _ _).bind
      fun _ => ?_
  exact (hf.value _).relevels.bind fun _ => (hf.gradient _).relevels.bind fun _ =>
    (Run.relevels_record hstep).bind fun _ => Run.relates_pure _

theorem relevels_minimize (hf : f.Writes Q) (hsolver : own.Flags .solver false false)
    (hv : own.Flags .newton v v') (config : Config α) (x : Vec α n) :
    Run.Relevels own Q (minimize { config with verbose := v } f x)
      (minimize { config with verbose := v' } f x) := by
  rw [minimize_eq_run, minimize_eq_run]
  refine Routine.relates_run ?_ (fun _ => .rfl) (fun _ => rfl) (relevels_step hf hsolver config) ?_
  · exact (Run.relates_liftM _).bind fun _ => (Run.relevels_report hv (by decide) _).bind fun _ =>
      relevels_start hf x
  · exact fun _ => (Run.relevels_report hv (by decide) _).bind fun _ => Run.relates_pure _

end Newton

/-! ### Quasi-Newton descent -/

namespace QuasiNewton

/-- The evaluations at the start report nothing of the method. -/
theorem relevels_start (hf : f.Writes Q) (x : Vec α n) (B : Mat α n n) :
    Run.Relevels own Q (start f x B) (start f x B) :=
  (hf.value x).relevels.bind fun _ => (hf.gradient x).relevels.bind fun _ => Run.relates_pure _

/-- The settings with other flags of the method and of its line search. -/
def Config.flagged (config : Config α) (v w : Bool) : Config α :=
  { config with verbose := v, search := { config.search with verbose := w } }

/-- A reset for a direction is reported under the flag. -/
theorem relevels_descend (hv : own.Flags .quasiNewton v v') (config : Config α) (s : State α n) :
    Run.Relevels own Q (descend (config.flagged v w) s : Run σ α _)
      (descend (config.flagged v' w') s) :=
  .ite .rfl ((Run.relevels_report hv (by decide) _).bind fun _ => Run.relates_pure _)
    (Run.relates_pure _)

/-- So is a reset for a pair without curvature. -/
theorem relevels_learn (hv : own.Flags .quasiNewton v v') (config : Config α) (s : State α n)
    (point gradient : Vec α n) :
    Run.Relevels own Q (learn (config.flagged v w) s point gradient : Run σ α _)
      (learn (config.flagged v' w') s point gradient) := by
  unfold learn
  -- whether the update exists does not depend on the settings
  split
  · exact Run.relates_pure _
  · exact (Run.relevels_report hv (by decide) _).bind fun _ => Run.relates_pure _

/-- A step reports under the flags of the method and of its line search. -/
theorem relevels_step (hf : f.Writes Q) (hv : own.Flags .quasiNewton v v')
    (hw : own.Flags .wolfePowell w w') (config : Config α) (s : State α n) :
    Run.Relevels own Q (step (config.flagged v w) f s) (step (config.flagged v' w') f s) := by
  have hstep : "BFGS step" ∉ own.messages := by cases own <;> decide
  exact (relevels_descend hv config s).bind fun _ =>
    (WolfePowell.relevels_searchFrom hf hw _ _ _ _ config.search).bind fun _ =>
    (relevels_learn hv config _ _ _).bind fun _ =>
    (Run.relevels_record hstep).bind fun _ => Run.relates_pure _

/-- A run with any first approximation, under two flags of the method and of its line search. -/
theorem relevels_minimizeFrom (hf : f.Writes Q) (hv : own.Flags .quasiNewton v v')
    (hw : own.Flags .wolfePowell w w') (config : Config α) (x : Vec α n) (B : Mat α r c) :
    Run.Relevels own Q (minimizeFrom (config.flagged v w) f x B)
      (minimizeFrom (config.flagged v' w') f x B) := by
  rw [minimizeFrom_eq_run, minimizeFrom_eq_run]
  refine Routine.relates_run ?_ (fun _ => .rfl) (fun _ => rfl) (relevels_step hf hv hw config) ?_
  · exact (Run.relates_liftM _).bind fun _ => (Run.relates_liftM _).bind fun B =>
      (Run.relevels_report hv (by decide) _).bind fun _ => relevels_start hf x B
  · exact fun _ => (Run.relevels_report hv (by decide) _).bind fun _ => Run.relates_pure _

/-- A run under two flags of the method and of its line search. -/
theorem relevels_minimize (hf : f.Writes Q) (hv : own.Flags .quasiNewton v v')
    (hw : own.Flags .wolfePowell w w') (config : Config α) (x : Vec α n) :
    Run.Relevels own Q (minimize (config.flagged v w) f x)
      (minimize (config.flagged v' w') f x) :=
  (relevels_minimizeFrom hf hv hw config x _).bind fun _ => Run.relates_pure _

end QuasiNewton

/-! ### Levenberg-Marquardt descent -/

namespace LevenbergMarquardt

/-- The evaluations at the start report nothing of the method. -/
theorem relevels_start (hmodel : model.Writes Q) (config : Config α) (p : Vec α m) :
    Run.Relevels own Q (start { config with verbose := v } model p)
      (start { config with verbose := v' } model p) :=
  (hmodel.residual p).relevels.bind fun _ => (hmodel.jacobian p).relevels.bind fun _ =>
    (Run.relates_liftM _).bind fun _ => Run.relates_pure _

/-- The solve of a trial reports at level `debug`. -/
theorem relevels_trialPoint (hsolver : own.Flags .solver false false) (config : Config α)
    (s : State α m) :
    Run.Relevels own Q (trialPoint { config with verbose := v } s : Run σ α _)
      (trialPoint { config with verbose := v' } s) :=
  (Run.relates_liftM _).bind fun _ =>
    (ConjugateGradient.relevels_solve hsolver { tolerance := config.innerTolerance } _ _).bind
      fun _ => (Run.relates_liftM _).bind fun _ => Run.relates_pure _

/-- A trial reports at level `debug`, whether it is accepted or not. -/
theorem relevels_step (hmodel : model.Writes Q) (hsolver : own.Flags .solver false false)
    (config : Config α) (s : State α m) :
    Run.Relevels own Q (step { config with verbose := v } model s)
      (step { config with verbose := v' } model s) := by
  have haccepted : "Levenberg-Marquardt step accepted" ∉ own.messages := by cases own <;> decide
  have hrejected : "Levenberg-Marquardt step rejected" ∉ own.messages := by cases own <;> decide
  refine (relevels_trialPoint hsolver config s).bind fun p =>
    (hmodel.residual p).relevels.bind fun _ => .ite .rfl ?_ ?_
  · exact (hmodel.jacobian p).relevels.bind fun _ => (Run.relates_liftM _).bind fun _ =>
      (Run.relevels_record haccepted).bind fun _ => Run.relates_pure _
  · exact (Run.relevels_record hrejected).bind fun _ => Run.relates_pure _

/-- A fit with its record of the damping, under two flags. -/
theorem relevels_minimizeWithDamping (hmodel : model.Writes Q)
    (hsolver : own.Flags .solver false false) (hv : own.Flags .levenbergMarquardt v v')
    (config : Config α) (p : Vec α m) :
    Run.Relevels own Q (minimizeWithDamping { config with verbose := v } model p)
      (minimizeWithDamping { config with verbose := v' } model p) := by
  rw [minimizeWithDamping_eq_run, minimizeWithDamping_eq_run]
  refine Routine.relates_run ?_ (fun _ => .rfl) (fun _ => rfl)
    (relevels_step hmodel hsolver config) ?_
  · exact (Run.relates_liftM _).bind fun _ => (Run.relevels_report hv (by decide) _).bind fun _ =>
      relevels_start hmodel config p
  · exact fun _ => (Run.relevels_report hv (by decide) _).bind fun _ => Run.relates_pure _

theorem relevels_minimize (hmodel : model.Writes Q) (hsolver : own.Flags .solver false false)
    (hv : own.Flags .levenbergMarquardt v v') (config : Config α) (p : Vec α m) :
    Run.Relevels own Q (minimize { config with verbose := v } model p)
      (minimize { config with verbose := v' } model p) :=
  (relevels_minimizeWithDamping hmodel hsolver hv config p).bind fun _ => Run.relates_pure _

end LevenbergMarquardt

/-! ### Projected inexact Newton descent -/

namespace ProjectedNewton

variable {P : Projection α n}

/-- The settings with other flags of the method and of its line search. -/
def Config.flagged (config : Config α) (v w : Bool) : Config α :=
  { config with verbose := v, search := { config.search with verbose := w } }

/-- The evaluations at the start report nothing of the method. -/
theorem relevels_start (hf : f.Writes Q) (x : Vec α n) :
    Run.Relevels own Q (start f P x) (start f P x) :=
  (Run.relates_liftM _).bind fun _ => (hf.value _).relevels.bind fun _ =>
    (hf.gradient _).relevels.bind fun _ => (Run.relates_liftM _).bind fun _ => Run.relates_pure _

/-- A product with the reduced Hessian reports what the objective does. -/
theorem relevels_reducedHessian (hf : f.Writes Q) (x d : Vec α n) :
    Run.Relevels own Q (reducedHessian f P x d) (reducedHessian f P x d) :=
  (Run.relates_liftM _).bind fun _ => (hf.hessianProduct _ _).relevels.bind fun _ =>
    Run.relates_pure _

/-- An inner step reports at level `debug`. -/
theorem relevels_innerStep (hf : f.Writes Q) (config : Config α) (x : Vec α n) (s : Inner α n) :
    Run.Relevels own Q (innerStep (config.flagged v w) f P x s)
      (innerStep (config.flagged v' w') f P x s) := by
  have hcurvature : "non-positive curvature in truncated CG" ∉ own.messages := by
    cases own <;> decide
  exact (relevels_reducedHessian hf _ _).bind fun _ => .ite .rfl
    ((Run.relevels_record hcurvature).bind fun _ => Run.relates_pure _) (Run.relates_pure _)

theorem relevels_innerIterate (hf : f.Writes Q) (config : Config α) (s : State α n) :
    ∀ (remaining : Nat) (t : Inner α n),
      Run.Relevels own Q (innerIterate (innerProblem (config.flagged v w) f P s) remaining t)
        (innerIterate (innerProblem (config.flagged v' w') f P s) remaining t) := by
  intro remaining
  induction remaining with
  | zero =>
    intro t
    rw [innerIterate, innerIterate]
    exact .ite .rfl (Run.relates_throw _) (Run.relates_pure _)
  | succ remaining ih =>
    intro t
    rw [innerIterate, innerIterate]
    -- both runs have the same forcing term, and take the same step
    refine .ite .rfl ((relevels_innerStep hf config _ _).bind fun next => ?_) (Run.relates_pure _)
    cases next with
    | none => exact Run.relates_pure _
    | some t => exact ih t

/-- A step reports under the flag of its line search. -/
theorem relevels_step (hf : f.Writes Q) (hw : own.Flags .backtracking w w') (config : Config α)
    (s : State α n) :
    Run.Relevels own Q (step (config.flagged v w) f P s) (step (config.flagged v' w') f P s) := by
  have hstep : "projected Newton-CG step" ∉ own.messages := by cases own <;> decide
  exact (relevels_innerIterate hf config s _ _).bind fun _ =>
    (ProjectedBacktracking.relevels_search hf hw P _ _ config.search).bind fun _ =>
    (hf.gradient _).relevels.bind fun _ => (Run.relates_liftM _).bind fun _ =>
    (Run.relevels_record hstep).bind fun _ => Run.relates_pure _

/-- A run under two flags of the method and of its line search. -/
theorem relevels_minimize (hf : f.Writes Q) (hv : own.Flags .projectedNewton v v')
    (hw : own.Flags .backtracking w w') (config : Config α) (P : Projection α n) (x : Vec α n) :
    Run.Relevels own Q (minimize (config.flagged v w) f P x)
      (minimize (config.flagged v' w') f P x) := by
  rw [minimize_eq_run, minimize_eq_run]
  refine Routine.relates_run ?_ (fun _ => .rfl) (fun _ => rfl) (relevels_step hf hw config) ?_
  · exact (Run.relates_liftM _).bind fun _ => (Run.relevels_report hv (by decide) _).bind fun _ =>
      relevels_start hf x
  · exact fun _ => (Run.relevels_report hv (by decide) _).bind fun _ => Run.relates_pure _

end ProjectedNewton

/-! ### Stencils and implicit filtering -/

namespace Stencil

/-- A simplex gradient reports what its values do. -/
theorem relevels_simplexGradient (hf : f.Writes Q) (x : Vec α n) (h : α) :
    Run.Relevels own Q (simplexGradient f x h) (simplexGradient f x h) :=
  (Run.relates_liftM _).bind fun _ => Run.relates_tabulateM fun _ =>
    (hf.value _).relevels.bind fun _ => (hf.value _).relevels.bind fun _ => Run.relates_pure _

theorem relevels_isFailure (hf : f.Writes Q) (x : Vec α n) (h : α) :
    Run.Relevels own Q (isFailure f x h) (isFailure f x h) :=
  (Run.relates_liftM _).bind fun _ => (hf.value x).relevels.bind fun _ =>
    Run.relates_allM (fun _ => (hf.value _).relevels.bind fun _ =>
      (hf.value _).relevels.bind fun _ => Run.relates_pure _) _

end Stencil

namespace ImplicitFiltering

variable {P : Projection α n}

namespace Scale

/-- The descent with another flag. -/
def flagged (s : Scale σ α n) (v : Bool) : Scale σ α n :=
  { s with config := { s.config with verbose := v } }

variable {s : Scale σ α n}

/-- The line search of a scale has no reports of its own. -/
theorem relevels_backtrack (hf : s.objective.Writes Q) (x g : Vec α n) (value : α) :
    ∀ (remaining : Nat) (t : α) (used : Nat),
      Run.Relevels own Q ((s.flagged v).backtrack x g value remaining t used)
        ((s.flagged v').backtrack x g value remaining t used) := by
  intro remaining
  -- by induction on the halvings that are left
  induction remaining with
  | zero =>
    intro t used
    rw [backtrack, backtrack]
    exact (Run.relates_liftM _).bind fun _ => (hf.value _).relevels.bind fun _ =>
      (Run.relates_liftM _).bind fun _ => .ite .rfl (Run.relates_pure _) (Run.relates_pure _)
  | succ remaining ih =>
    intro t used
    rw [backtrack, backtrack]
    exact (Run.relates_liftM _).bind fun _ => (hf.value _).relevels.bind fun _ =>
      (Run.relates_liftM _).bind fun _ => .ite .rfl (Run.relates_pure _) (ih _ _)

theorem relevels_iterate (hf : s.objective.Writes Q) :
    ∀ (remaining : Nat) (x : Vec α n) (used : Nat),
      Run.Relevels own Q ((s.flagged v).iterate remaining x used)
        ((s.flagged v').iterate remaining x used) := by
  intro remaining
  induction remaining with
  | zero =>
    intro x used
    rw [iterate, iterate]
    exact (Stencil.relevels_simplexGradient hf _ _).bind fun _ =>
      (Stencil.relevels_isFailure hf _ _).bind fun _ => .ite .rfl (Run.relates_pure _)
      ((Run.relates_liftM _).bind fun _ => .ite .rfl (Run.relates_pure _) (Run.relates_pure _))
  | succ remaining ih =>
    intro x used
    rw [iterate, iterate]
    refine (Stencil.relevels_simplexGradient hf _ _).bind fun _ =>
      (Stencil.relevels_isFailure hf _ _).bind fun _ => .ite .rfl (Run.relates_pure _)
      ((Run.relates_liftM _).bind fun _ => .ite .rfl (Run.relates_pure _) ?_)
    refine (hf.value x).relevels.bind fun _ =>
      (relevels_backtrack hf _ _ _ _ _ _).bind fun outcome => ?_
    obtain ⟨found, used⟩ := outcome
    -- backtracking that finds nothing ends the descent, and is no failure
    cases found with
    | some x => exact ih x used
    | none => exact Run.relates_pure _

theorem relevels_descend (hf : s.objective.Writes Q) (x : Vec α n) :
    Run.Relevels own Q ((s.flagged v).descend x) ((s.flagged v').descend x) :=
  (Run.relates_liftM _).bind fun _ => relevels_iterate hf _ _ _

end Scale

/-- The value at the start reports nothing of the method. -/
theorem relevels_start (hf : f.Writes Q) (x : Vec α n) :
    Run.Relevels own Q (start f P x) (start f P x) :=
  (Run.relates_liftM _).bind fun _ => (hf.value _).relevels.bind fun _ => Run.relates_pure _

/-- The visit of a scale reports at level `debug`. -/
theorem relevels_visit (hf : f.Writes Q) (config : Config α) (s : State α n) (h : α) :
    Run.Relevels own Q (visit { config with verbose := v } f P s h)
      (visit { config with verbose := v' } f P s h) := by
  have hscale : "scale finished" ∉ own.messages := by cases own <;> decide
  exact (Scale.relevels_descend (s := ⟨config, f, P, h⟩) hf _).bind fun _ =>
    (hf.value _).relevels.bind fun _ => (Run.relevels_record hscale).bind fun _ =>
    .ite .rfl (Run.relates_pure _) (Run.relates_pure _)

theorem relevels_sweep (hf : f.Writes Q) (hv : own.Flags .implicitFiltering v v')
    (config : Config α) (s : State α n) :
    Run.Relevels own Q (sweep { config with verbose := v } f P s)
      (sweep { config with verbose := v' } f P s) :=
  (Run.relates_foldlM (relevels_visit hf config) _ _).bind fun _ =>
    (Run.relevels_report hv (by decide) _).bind fun _ => Run.relates_pure _

theorem relevels_minimize (hf : f.Writes Q) (hv : own.Flags .implicitFiltering v v')
    (config : Config α) (P : Projection α n) (x : Vec α n) :
    Run.Relevels own Q (minimize { config with verbose := v } f P x)
      (minimize { config with verbose := v' } f P x) := by
  rw [minimize_eq_run, minimize_eq_run]
  refine Routine.relates_run ?_ (fun _ => .rfl) (fun _ => rfl) ?_ ?_
  · exact (Run.relates_liftM _).bind fun _ => (Run.relevels_report hv (by decide) _).bind fun _ =>
      (relevels_start hf x).bind fun _ => Run.relates_pure _
  · exact fun _ => (relevels_sweep hf hv config _).bind fun _ => Run.relates_pure _
  · exact fun _ => (Stencil.relevels_simplexGradient hf _ _).bind fun _ =>
      (Run.relates_liftM _).bind fun _ => (Run.relevels_report hv (by decide) _).bind fun _ =>
      Run.relates_pure _

end ImplicitFiltering

/-! ### All routines -/

/-- **Flags set levels**: whatever the arithmetic, the objective or the model, the projection, the
matrix, the start and the other settings, two runs of a routine with one flag set and unset have the
same outcome, be it a result or a failure, and the same events, up to the level of the reports of
the routine that the flag belongs to. -/
theorem flags_set_levels (Q : Event α → Prop) :
    (∀ (config : ConjugateGradient.Config α) (r c : Nat) (A : Mat α r c) (b : Vec α n),
      (∀ M, Run.FlagSetsLevel .solver Q fun v =>
        (ConjugateGradient.solveWith { config with verbose := v } A b M : Run σ α _)) ∧
      Run.FlagSetsLevel .solver Q fun v =>
        (ConjugateGradient.solve { config with verbose := v } A b : Run σ α _)) ∧
    (∀ f : Objective σ α n, f.Writes Q →
      (∀ (params : SearchParams α) (x : Vec α n) (k : Nat) (d : Vec α k),
        (Run.FlagSetsLevel .wolfePowell Q fun v =>
          WolfePowell.search f x d { params with verbose := v }) ∧
        (∀ (value : α) (g : Nat) (gradient : Vec α g), Run.FlagSetsLevel .wolfePowell Q fun v =>
          WolfePowell.searchFrom f x value gradient d { params with verbose := v }) ∧
        ∀ P, Run.FlagSetsLevel .backtracking Q fun v =>
          ProjectedBacktracking.search f P x d { params with verbose := v }) ∧
      (∀ (config : Newton.Config α) x, Run.FlagSetsLevel .newton Q fun v =>
        Newton.minimize { config with verbose := v } f x) ∧
      (∀ (config : QuasiNewton.Config α) x,
        (∀ (r c : Nat) (B : Mat α r c),
          (Run.FlagSetsLevel .quasiNewton Q fun v =>
            QuasiNewton.minimizeFrom { config with verbose := v } f x B) ∧
          Run.FlagSetsLevel .wolfePowell Q fun v => QuasiNewton.minimizeFrom
            { config with search := { config.search with verbose := v } } f x B) ∧
        (Run.FlagSetsLevel .quasiNewton Q fun v =>
          QuasiNewton.minimizeWithInverse { config with verbose := v } f x) ∧
        (Run.FlagSetsLevel .wolfePowell Q fun v => QuasiNewton.minimizeWithInverse
          { config with search := { config.search with verbose := v } } f x) ∧
        (Run.FlagSetsLevel .quasiNewton Q fun v =>
          QuasiNewton.minimize { config with verbose := v } f x) ∧
        Run.FlagSetsLevel .wolfePowell Q fun v => QuasiNewton.minimize
          { config with search := { config.search with verbose := v } } f x) ∧
      (∀ (config : ProjectedNewton.Config α) P x,
        (Run.FlagSetsLevel .projectedNewton Q fun v =>
          ProjectedNewton.minimize { config with verbose := v } f P x) ∧
        Run.FlagSetsLevel .backtracking Q fun v => ProjectedNewton.minimize
          { config with search := { config.search with verbose := v } } f P x) ∧
      ∀ (config : ImplicitFiltering.Config α) P x, Run.FlagSetsLevel .implicitFiltering Q fun v =>
        ImplicitFiltering.minimize { config with verbose := v } f P x) ∧
    ∀ model : ResidualModel σ α m, model.Writes Q →
      ∀ (config : LevenbergMarquardt.Config α) p,
        (Run.FlagSetsLevel .levenbergMarquardt Q fun v =>
          LevenbergMarquardt.minimizeWithDamping { config with verbose := v } model p) ∧
        Run.FlagSetsLevel .levenbergMarquardt Q fun v =>
          LevenbergMarquardt.minimize { config with verbose := v } model p := by
  have hset : ∀ own : Reporter, own.Flags own true false := Reporter.flags_self
  have hsolver : ∀ {own : Reporter}, .solver ≠ own → own.Flags .solver false false := fun h =>
    Reporter.flags_of_ne h false
  refine ⟨fun config r c A b => ⟨fun M => ?_, ?_⟩, fun f hf => ⟨fun params x k d => ⟨?_, ?_, ?_⟩,
    fun config x => ?_, fun config x => ?_, fun config P x => ⟨?_, ?_⟩, fun config P x => ?_⟩,
    fun model hmodel config p => ⟨?_, ?_⟩⟩
  · exact ConjugateGradient.relevels_solveWith (hset _) config A b M
  · exact ConjugateGradient.relevels_solve (hset _) config A b
  · exact WolfePowell.relevels_search hf (hset _) x d params
  · exact fun value g gradient => WolfePowell.relevels_searchFrom hf (hset _) x value gradient d
      params
  · exact fun P => ProjectedBacktracking.relevels_search hf (hset _) P x d params
  · exact Newton.relevels_minimize hf (hsolver (by decide)) (hset _) config x
  -- where the flag of the method changes, that of its line search stays, and conversely
  · have hmethod : Reporter.quasiNewton.Flags .wolfePowell config.search.verbose
        config.search.verbose := Reporter.flags_of_ne (by decide) _
    have hsearch : Reporter.wolfePowell.Flags .quasiNewton config.verbose config.verbose :=
      Reporter.flags_of_ne (by decide) _
    exact ⟨fun r c B => ⟨QuasiNewton.relevels_minimizeFrom hf (hset _) hmethod config x B,
        QuasiNewton.relevels_minimizeFrom hf hsearch (hset _) config x B⟩,
      QuasiNewton.relevels_minimizeFrom hf (hset _) hmethod config x _,
      QuasiNewton.relevels_minimizeFrom hf hsearch (hset _) config x _,
      QuasiNewton.relevels_minimize hf (hset _) hmethod config x,
      QuasiNewton.relevels_minimize hf hsearch (hset _) config x⟩
  · exact ProjectedNewton.relevels_minimize hf (hset _)
      (Reporter.flags_of_ne (by decide) config.search.verbose) config P x
  · exact ProjectedNewton.relevels_minimize hf
      (Reporter.flags_of_ne (by decide) config.verbose) (hset _) config P x
  · exact ImplicitFiltering.relevels_minimize hf (hset _) config P x
  · exact LevenbergMarquardt.relevels_minimizeWithDamping hmodel (hsolver (by decide)) (hset _)
      config p
  · exact LevenbergMarquardt.relevels_minimize hmodel (hsolver (by decide)) (hset _) config p

/-- Objectives without events of their own: a run with nine events, one that its cap ends, and a
fit. -/
theorem flags_set_levels_doubles :
    ((Run.FlagSetsLevel .quasiNewton (fun _ => False) fun v =>
        QuasiNewton.minimize { verbose := v } doubleObjective #v[3]) ∧
      ((QuasiNewton.minimize { verbose := true } doubleObjective #v[3]).start ()).2.journal.size =
        9) ∧
    ((Run.FlagSetsLevel .wolfePowell (fun _ => False) fun v => QuasiNewton.minimize
        { search := { SearchParams.wolfePowell with verbose := v }, maxIterations := 1 }
        doubleObjective #v[3]) ∧
      ((QuasiNewton.minimize { maxIterations := 1 } doubleObjective #v[3]).start
        ()).1.toOption.isNone) ∧
    Run.FlagSetsLevel .levenbergMarquardt (fun _ => False) fun v =>
      LevenbergMarquardt.minimize { looseFit with verbose := v } doubleResidual #v[0.3] := by
  obtain ⟨-, hobjectives, hmodels⟩ :=
    flags_set_levels (σ := Unit) (α := Float) (n := 1) (m := 1) fun _ => False
  obtain ⟨-, -, hquasi, -⟩ := hobjectives doubleObjective doubleParabola.writes
  obtain ⟨-, -, -, hmethod, -⟩ := hquasi {} #v[3]
  obtain ⟨-, -, -, -, hsearch⟩ := hquasi { maxIterations := 1 } #v[3]
  obtain ⟨-, hfit⟩ := hmodels doubleResidual (ResidualModel.writes_polynomial _) looseFit #v[0.3]
  exact ⟨⟨hmethod, by decide +kernel⟩, ⟨hsearch, by decide +kernel⟩, hfit⟩

end Downhill
