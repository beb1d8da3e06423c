import Downhill.Proofs.Exact.Quadratic
import Downhill.Proofs.Method.Newton
import Downhill.Proofs.Solve.Certificate
import Downhill.Proofs.Solve.Failures

/-!
# Newton descent on affine gradients

* `minimize_affine_gradient`: on an objective whose gradient is affine, Newton descent with a cap of
  one iteration or more is done after at most one, or fails in its linear solve.

The residual of the linear solve is the gradient after the step. The solve ends only where this
residual is within its tolerance, which is at most a tenth of the tolerance of the descent; so one
step is enough, however coarsely the system was solved.
-/

namespace Downhill.Newton

variable {σ : Type} {n : Nat}

/-! ### Runs of an objective that evaluates -/

section Evaluates

variable {α : Type} [Scalar α] {config : Config α} {f : Objective σ α n} {F : Vec α n → α}
  {G : Vec α n → Vec α n} {H : Vec α n → Mat α n n} {x : Vec α n} {s t : State α n}
  {e : Failure α}

/-- The first stage at a point. -/
def State.first (x : Vec α n) (value : α) (gradient : Vec α n) : State α n :=
  { point := x, value, gradient, iterations := 0, evaluations := 1, history := #[value] }

/-- Both evaluations at the start are certain. -/
theorem computes_start (hf : f.EvaluatesTwice F G H) (x : Vec α n) :
    (start f x).Computes (.first x (F x) (G x)) :=
  (hf.value x).bind ((hf.gradient x).bind (Run.computes_pure _))

/-- A step is certain where its linear solve is. -/
theorem computes_step (hf : f.EvaluatesTwice F G H) (s : State α n)
    {d : ConjugateGradient.Solution α n}
    (hsolve : (ConjugateGradient.solve { tolerance := config.solveTolerance } (H s.point)
      (-s.gradient) : Run σ α _).Computes d) :
    (step config f s).Computes
      (s.moveTo (s.point + d.point) (F (s.point + d.point)) (G (s.point + d.point))) :=
  (hf.hessian _).bind (hsolve.bind ((hf.value _).bind ((hf.gradient _).bind
    ((Run.computes_record _).bind (Run.computes_pure _)))))

/-- A step fails as its linear solve does. -/
theorem raises_step (hf : f.EvaluatesTwice F G H) (s : State α n)
    (hsolve : (ConjugateGradient.solve { tolerance := config.solveTolerance } (H s.point)
      (-s.gradient) : Run σ α _).Raises e) : (step config f s).Raises e :=
  (hf.hessian _).bind_raises hsolve.bind

/-- A run that ends after `k` iterations, where each of them is certain. -/
theorem computes_minimize_of_loop (hvalid : config.validate = .ok ())
    (hstart : (start f x).Computes s)
    (hloop : ((loop config f).run config.maxIterations config.maxIterations s).Computes t) :
    (minimize config f x).Computes t.outcome := by
  rw [minimize_eq_run]
  refine ((Run.computes_liftM hvalid).bind ((Run.computes_record _).bind hstart)).bind ?_
  exact hloop.bind ((Run.computes_record _).bind (Run.computes_pure _))

theorem raises_minimize_of_loop (hvalid : config.validate = .ok ())
    (hstart : (start f x).Computes s)
    (hloop : ((loop config f).run config.maxIterations config.maxIterations s).Raises e) :
    (minimize config f x).Raises e := by
  rw [minimize_eq_run]
  exact ((Run.computes_liftM hvalid).bind ((Run.computes_record _).bind hstart)).bind_raises
    hloop.bind

end Evaluates

/-! ### Settings -/

variable {config : Config ℝ} {f : Objective σ ℝ n} {A : Mat ℝ n n} {b x : Vec ℝ n}

/-- The tolerance of the linear solves is that of the settings, or a tenth of that of the run. -/
theorem Config.solveTolerance_eq (config : Config ℝ) :
    config.solveTolerance = min config.innerTolerance (0.1 * config.tolerance) :=
  Scalar.min_real _ _

/-- Settings are accepted if both tolerances are positive. -/
theorem Config.validate_eq_ok :
    config.validate = .ok () ↔ 0 < config.tolerance ∧ 0 < config.innerTolerance := by
  unfold Config.validate
  split_ifs with htol hinner
  · simp [htol]
  · simp [hinner]
  · simp [not_le.mp htol, not_le.mp hinner]

/-- So the tolerance of the solves is positive. -/
theorem Config.solveTolerance_pos (hvalid : config.validate = .ok ()) :
    0 < config.solveTolerance := by
  obtain ⟨htol, hinner⟩ := Config.validate_eq_ok.mp hvalid
  rw [Config.solveTolerance_eq]
  exact lt_min hinner (by linarith only [htol])

theorem Config.solveTolerance_le (hvalid : config.validate = .ok ()) :
    config.solveTolerance ≤ config.tolerance := by
  obtain ⟨htol, -⟩ := Config.validate_eq_ok.mp hvalid
  rw [Config.solveTolerance_eq]
  refine (min_le_right _ _).trans ?_
  linarith only [htol]

/-! ### The linear solves -/

/-- Where the matrix has no fill, the linear solve is exact. -/
theorem exists_computes_solve (hvalid : config.validate = .ok ()) (hA : A.IsPosDef)
    (hfill : A.NoFill) (b : Vec ℝ n) :
    ∃ d, A * d = b ∧ (ConjugateGradient.solve { tolerance := config.solveTolerance } A b :
      Run σ ℝ _).Computes ⟨d, 0, 0⟩ := by
  have htol : 0 < ({ tolerance := config.solveTolerance } : ConjugateGradient.Config ℝ).tolerance :=
    config.solveTolerance_pos hvalid
  exact ConjugateGradient.exists_computes_solve htol hA hfill b

/-- A step to where the Newton system is solved exactly. -/
theorem computes_step_of_mulVec_eq {F : Vec ℝ n → ℝ} {G : Vec ℝ n → Vec ℝ n}
    {H : Vec ℝ n → Mat ℝ n n} (hf : f.EvaluatesTwice F G H) (hvalid : config.validate = .ok ())
    {s : State ℝ n} (hH : (H s.point).IsPosDef) (hfill : (H s.point).NoFill) {d : Vec ℝ n}
    (hd : H s.point * d = -s.gradient) :
    (step config f s).Computes (s.moveTo (s.point + d) (F (s.point + d)) (G (s.point + d))) := by
  obtain ⟨d', hd', hsolve⟩ := exists_computes_solve (σ := σ) hvalid hH hfill (-s.gradient)
  -- the system has one solution only
  obtain rfl : d' = d := hH.mulVec_injective (hd'.trans hd.symm)
  exact computes_step hf s hsolve

/-- A linear solve leaves a residual within its tolerance. -/
theorem norm_mulVec_add_le_of_yields_solve {tolerance : ℝ} {g : Vec ℝ n}
    {d : ConjugateGradient.Solution ℝ n}
    (h : (ConjugateGradient.solve { tolerance } A (-g) : Run σ ℝ _).Yields d) :
    (A * d.point + g).norm ≤ tolerance := by
  obtain ⟨A', hA', hcertified⟩ := ConjugateGradient.certified_of_yields_solve h
  rw [Mat.ofOrder_self] at hA'
  cases hA'
  have hresidual := hcertified.residualNorm_eq
  rw [sub_neg_eq_add] at hresidual
  exact hresidual ▸ hcertified.within

/-- The residual is the gradient after the step. -/
theorem norm_gradient_le_of_yields_solve {d : ConjugateGradient.Solution ℝ n}
    (h : (ConjugateGradient.solve { tolerance := config.solveTolerance } A (-(A * x + b)) :
      Run σ ℝ _).Yields d) : (A * (x + d.point) + b).norm ≤ config.solveTolerance := by
  have hgradient : A * (x + d.point) + b = A * d.point + (A * x + b) := by
    rw [← Mat.toLin_apply, ← Mat.toLin_apply, ← Mat.toLin_apply, map_add]
    abel
  rw [hgradient]
  exact norm_mulVec_add_le_of_yields_solve h

/-! ### One step -/

/-- How Newton descent from `x` ends on an objective with the gradient `A y + b`. -/
structure OneStep (config : Config ℝ) (f : Objective σ ℝ n) (x : Vec ℝ n) (A : Mat ℝ n n)
    (b : Vec ℝ n) : Prop where
  /-- Where the gradient is within the tolerance, the run ends at once. -/
  stays : (A * x + b).norm ≤ config.tolerance →
    ∃ outcome, (minimize config f x).Computes outcome ∧ outcome.iterations = 0 ∧
      outcome.point = x
  /-- Otherwise the run fails as its linear solve does, or ends after one iteration with a gradient
  within the tolerance of the solve. -/
  moves : config.tolerance < (A * x + b).norm →
    (∃ e, (ConjugateGradient.solve { tolerance := config.solveTolerance } A (-(A * x + b)) :
      Run σ ℝ _).Raises e ∧ (minimize config f x).Raises e) ∨
    ∃ outcome, (minimize config f x).Computes outcome ∧ outcome.iterations = 1 ∧
      outcome.stationarity = (A * outcome.point + b).norm ∧
      outcome.stationarity ≤ min config.innerTolerance (0.1 * config.tolerance)
  /-- The cap on iterations, whose failure names the last value, is never reached. -/
  uncapped : ∀ cap value stopping tolerance,
    ¬ (minimize config f x).Fails (.capReached cap (some value) stopping tolerance)

/-- One step is enough for every affine gradient. -/
theorem oneStep_of_hasAffineGradient [Inhabited σ] (hvalid : config.validate = .ok ())
    (hcap : 1 ≤ config.maxIterations) (hf : f.HasAffineGradient A b) (x : Vec ℝ n) :
    OneStep config f x A b := by
  obtain ⟨F, hf⟩ := hf
  have hstart : (start f x).Computes (.first x (F x) (A * x + b)) := computes_start hf x
  have hstays : (A * x + b).norm ≤ config.tolerance →
      (minimize config f x).Computes (State.first x (F x) (A * x + b)).outcome := fun hle =>
    computes_minimize_of_start hvalid hstart (not_lt.mpr hle)
  have hmoves : config.tolerance < (A * x + b).norm →
      (∃ e, (ConjugateGradient.solve { tolerance := config.solveTolerance } A (-(A * x + b)) :
        Run σ ℝ _).Raises e ∧ (minimize config f x).Raises e) ∨
      ∃ y, (A * y + b).norm ≤ config.solveTolerance ∧ (minimize config f x).Computes
        ((State.first x (F x) (A * x + b)).moveTo y (F y) (A * y + b)).outcome := by
    intro hgo
    -- the cap leaves room for one step
    have hcontinues : (loop config f).continues (.first x (F x) (A * x + b)) := hgo
    obtain ⟨rest, hrun⟩ := Loop.exists_run_eq_bind config.maxIterations hcontinues hcap
    -- a solve without memory either always succeeds or always fails
    rcases (ConjugateGradient.determined_solve (σ := σ) { tolerance := config.solveTolerance } A
      (-(A * x + b))).computes_or_raises with ⟨d, hd⟩ | ⟨e, he⟩
    · have hwithin := norm_gradient_le_of_yields_solve hd.yields
      have hstep : (step config f (.first x (F x) (A * x + b))).Computes
          ((State.first x (F x) (A * x + b)).moveTo (x + d.point) (F (x + d.point))
            (A * (x + d.point) + b)) := computes_step hf _ hd
      -- the gradient there is the residual of the solve, which is below the tolerance of the run
      have hends : ¬ (loop config f).continues ((State.first x (F x) (A * x + b)).moveTo
          (x + d.point) (F (x + d.point)) (A * (x + d.point) + b)) :=
        not_lt.mpr (hwithin.trans (config.solveTolerance_le hvalid))
      refine .inr ⟨x + d.point, hwithin, computes_minimize_of_loop hvalid hstart ?_⟩
      rw [hrun]
      refine hstep.bind ?_
      rw [Loop.run_of_not_continues hends]
      exact Run.computes_pure _
    · refine .inl ⟨e, he, raises_minimize_of_loop hvalid hstart ?_⟩
      rw [hrun]
      exact (raises_step hf (.first x (F x) (A * x + b)) he).bind
  constructor
  case stays => exact fun hle => ⟨_, hstays hle, rfl, rfl⟩
  case moves =>
    intro hgo
    refine (hmoves hgo).imp_right ?_
    rintro ⟨y, hy, hcomputes⟩
    rw [Config.solveTolerance_eq] at hy
    exact ⟨_, hcomputes, rfl, rfl, hy⟩
  case uncapped =>
    intro cap value stopping tolerance hfails
    rcases le_or_gt (A * x + b).norm config.tolerance with hle | hgo
    · exact (hstays hle).not_fails hfails
    · rcases hmoves hgo with ⟨e, hsolve, he⟩ | ⟨y, _, hcomputes⟩
      -- a cap that the solve reaches is its own, and names no value
      · cases he.eq_of_fails hfails
        cases ConjugateGradient.value_eq_none_of_fails_solve hsolve.fails
      · exact hcomputes.not_fails hfails

/-- Where the matrix is positive definite and has no fill, the linear solve does not fail. -/
theorem OneStep.exists_computes [Inhabited σ] (h : OneStep config f x A b)
    (hvalid : config.validate = .ok ()) (hA : A.IsPosDef) (hfill : A.NoFill)
    (hgo : config.tolerance < (A * x + b).norm) :
    ∃ outcome, (minimize config f x).Computes outcome ∧ outcome.iterations = 1 := by
  obtain ⟨d, -, hsolve⟩ := exists_computes_solve (σ := σ) hvalid hA hfill (-(A * x + b))
  rcases h.moves hgo with ⟨e, hraises, -⟩ | ⟨outcome, hcomputes, hone, -, -⟩
  · exact absurd hraises.fails hsolve.not_fails
  · exact ⟨outcome, hcomputes, hone⟩

/-- **One step**: on an objective with an affine gradient, on every quadratic one and on the
augmented Lagrangian of a quadratic objective under an affine constraint, Newton descent ends after
at most one iteration, or fails in its linear solve. -/
theorem minimize_affine_gradient [Inhabited σ] (hvalid : config.validate = .ok ())
    (hcap : 1 ≤ config.maxIterations) (x : Vec ℝ n) :
    (∀ (f : Objective σ ℝ n) (A : Mat ℝ n n) (b : Vec ℝ n), f.HasAffineGradient A b →
      OneStep config f x A b) ∧
    (∀ q : Quadratic ℝ n,
      OneStep config (q.objective n : Objective σ ℝ n) x q.matrix q.linear) ∧
    ∀ (w : Weights ℝ) (q : Quadratic ℝ n) (h : Objective σ ℝ n) (a : Vec ℝ n) (e : ℝ),
      h.IsAffine a e →
      OneStep config (w.lagrangian (q.objective n) h) x (q.matrix + w.penalty * Mat.outer a a)
        (q.linear + w.factor e * a) :=
  ⟨fun _ _ _ hf => oneStep_of_hasAffineGradient hvalid hcap hf x,
    fun q => oneStep_of_hasAffineGradient hvalid hcap q.hasAffineGradient x,
    fun w q _ _ _ hh =>
      oneStep_of_hasAffineGradient hvalid hcap (q.hasAffineGradient.lagrangian w hh) x⟩

/-! ### Half the square of a number -/

/-- A positive tolerance is accepted, next to the default for the solves. -/
theorem Config.validate_tolerance {t : ℝ} (ht : 0 < t) :
    ({ tolerance := t } : Config ℝ).validate = .ok () := by
  refine Config.validate_eq_ok.mpr ⟨ht, ?_⟩
  show (0 : ℝ) < 1e-6
  norm_num

theorem validate_default : ({} : Config ℝ).validate = .ok () := by
  refine Config.validate_tolerance ?_
  show (0 : ℝ) < 1e-3
  norm_num

theorem tolerance_default_lt {t : ℝ} (ht : 1 < t) :
    ({} : Config ℝ).tolerance < Vec.norm #v[t] := by
  rw [Vec.norm_eq, Vec.norm_singleton, abs_of_pos (by linarith only [ht])]
  refine lt_trans ?_ ht
  show (1e-3 : ℝ) < 1
  norm_num

theorem OneStep.computes_simple
    (h : OneStep {} ((Quadratic.simple 1).objective 1 : Objective Unit ℝ 1) #v[5]
      (Quadratic.simple 1).matrix (Quadratic.simple 1).linear) :
    ∃ outcome, (minimize {} ((Quadratic.simple 1).objective 1 : Objective Unit ℝ 1)
      #v[5]).Computes outcome ∧ outcome.iterations = 1 := by
  refine h.exists_computes validate_default Mat.isPosDef_identity
    (Mat.noFill_of_le_two (by decide) _) ?_
  show _ < ((Quadratic.simple 1).gradient (#v[5] : Vec ℝ 1)).norm
  rw [Quadratic.simple_gradient]
  exact tolerance_default_lt (by norm_num)

/-- Half the square of a number, alone and under the constraint that the number is one. -/
theorem minimize_affine_gradient_square :
    ({} : Config ℝ).validate = .ok () ∧ 1 ≤ ({} : Config ℝ).maxIterations ∧
    (∃ outcome, (minimize {} ((Quadratic.simple 1).objective 1 : Objective Unit ℝ 1)
      #v[5]).Computes outcome ∧ outcome.iterations = 1) ∧
    ((⟨.zero, #v[1], -1⟩ : Quadratic ℝ 1).objective 1 : Objective Unit ℝ 1).IsAffine #v[1] (-1) ∧
    ∃ outcome, (minimize {} (Weights.lagrangian ⟨-1, 10⟩ ((Quadratic.simple 1).objective 1)
      ((⟨.zero, #v[1], -1⟩ : Quadratic ℝ 1).objective 1) : Objective Unit ℝ 1) #v[5]).Computes
        outcome ∧ outcome.iterations = 1 := by
  have hcap : 1 ≤ ({} : Config ℝ).maxIterations := by decide
  have hconstraint := (⟨.zero, #v[1], -1⟩ : Quadratic ℝ 1).isAffine (σ := Unit) rfl
  obtain ⟨-, hquadratic, hlagrangian⟩ :=
    minimize_affine_gradient (σ := Unit) validate_default hcap (#v[5] : Vec ℝ 1)
  refine ⟨validate_default, hcap, (hquadratic (.simple 1)).computes_simple, hconstraint, ?_⟩
  refine (hlagrangian ⟨-1, 10⟩ (.simple 1) _ _ _ hconstraint).exists_computes validate_default
    (Mat.isPosDef_identity.add_outer (by norm_num) #v[1]) (Mat.noFill_of_le_two (by decide) _) ?_
  -- the gradient of the augmented Lagrangian at five is 44
  show _ < Vec.norm (((Mat.identity : Mat ℝ 1 1) + (10 : ℝ) * Mat.outer #v[1] #v[1]) *
    (#v[5] : Vec ℝ 1) + ((0 : Vec ℝ 1) + (-1 + 10 * -1 : ℝ) * (#v[1] : Vec ℝ 1)))
  rw [← Mat.toLin_apply, Mat.toLin_add, Mat.toLin_smul, Mat.toLin_identity,
    LinearMap.add_apply, LinearMap.smul_apply, LinearMap.id_apply, Mat.toLin_outer,
    Vec.dot_singleton, Vec.hmul_eq_smul, zero_add, Vec.singleton_smul, Vec.singleton_smul,
    Vec.singleton_smul, Vec.singleton_add, Vec.singleton_add]
  exact tolerance_default_lt (by norm_num)

end Downhill.Newton
