import Downhill.Proofs.Run
import Downhill.Solve.ConjugateGradient
import Mathlib.Tactic.SplitIfs

/-!
# The stages of a conjugate gradient solve

What each part of the iteration can do, for every matrix, preconditioner and arithmetic:
`settle_cases`, `step_cases` and `iterate_cases` list the ways in which `settle`, `step` and
`iterate` succeed. `Problem.Reached` are the stages that an iteration passes through; if the
residuals that they carry are true ones, no restart is recorded (`records_run`).
-/

namespace Downhill.ConjugateGradient

variable {σ α : Type} [Scalar α] {n : Nat}

/-- The problem that a solve under a configuration runs. -/
def Config.problem (config : Config α) (A : Mat α n n) (b : Vec α n) (M : Preconditioner α n) :
    Problem α n :=
  ⟨A, b, M, config.tolerance⟩

theorem Config.validate_eq_ok {config : Config α} :
    config.validate = .ok () ↔ 0 < config.tolerance := by
  unfold validate
  split_ifs with htol
  · simp [htol]
  · constructor
    · intro h
      cases h
    · intro h
      exact absurd h htol

namespace Problem

variable {p : Problem α n}

/-! ### The parts of an iteration -/

/-- The curvature along the direction of a stage. -/
def curvature (p : Problem α n) (s : State α n) : α := s.direction.dot (p.matrix * s.direction)

/-- The residual after a step from a stage. -/
def nextResidual (p : Problem α n) (s : State α n) : Vec α n :=
  s.residual + (s.energy / p.curvature s) * (p.matrix * s.direction)

/-- The stage after a step, where the preconditioned next residual is `z`. -/
def advance (p : Problem α n) (s : State α n) (z : Vec α n) : State α n where
  point := s.point + (s.energy / p.curvature s) * s.direction
  residual := p.nextResidual s
  direction := ((p.nextResidual s).dot z / s.energy) * s.direction - z
  energy := (p.nextResidual s).dot z
  steps := s.steps + 1

/-- The stage at `x` with residual `r`, where the preconditioned residual is `z`. -/
def fresh (x r z : Vec α n) (steps : Nat) : State α n where
  point := x
  residual := r
  direction := -z
  energy := r.dot z
  steps := steps

theorem restart_eq_ok {x r : Vec α n} {steps : Nat} {s : State α n} :
    p.restart x r steps = .ok s ↔
      ∃ z, p.preconditioner.apply r = .ok z ∧ s = fresh x r z steps := by
  unfold restart
  -- only the preconditioner can fail
  cases hz : p.preconditioner.apply r with
  | error e =>
    constructor
    · intro h
      cases h
    · rintro ⟨z, hz', _⟩
      cases hz'
  | ok z =>
    constructor
    · intro h
      exact ⟨z, rfl, (Except.ok.inj h).symm⟩
    · rintro ⟨z', hz', rfl⟩
      cases hz'
      rfl

/-- The stage ends the iteration with its recomputed residual, is kept, or is begun anew. -/
theorem settle_cases {s : State α n} {outcome : Vec α n ⊕ State α n}
    (h : (p.settle s : Run σ α _).Yields outcome) :
    (outcome = .inl (p.residualAt s.point) ∧ p.accepts (p.residualAt s.point) = true) ∨
    (outcome = .inr s ∧ ¬ p.accepts s.residual = true) ∨
    ∃ s', outcome = .inr s' ∧ p.accepts s.residual = true ∧
      ¬ p.accepts (p.residualAt s.point) = true ∧
      p.restart s.point (p.residualAt s.point) s.steps = .ok s' := by
  unfold settle at h
  dsimp only at h
  -- the test of the carried residual, then that of the recomputed one
  split_ifs at h with hcarried htrue
  · exact .inl ⟨Run.eq_of_yields_pure h, htrue⟩
  · replace h := Run.yields_of_bind_unit h
    obtain ⟨s', hs', h⟩ := Run.exists_of_yields_bind h
    exact .inr (.inr ⟨s', Run.eq_of_yields_pure h, hcarried, htrue, Run.ok_of_yields_liftM hs'⟩)
  · exact .inr (.inl ⟨Run.eq_of_yields_pure h, hcarried⟩)

/-- A step divides by a positive curvature. -/
theorem step_cases {s s' : State α n} (h : (p.step s : Run σ α _).Yields s') :
    0 < p.curvature s ∧
      ∃ z, p.preconditioner.apply (p.nextResidual s) = .ok z ∧ s' = p.advance s z := by
  unfold step at h
  dsimp only at h
  split_ifs at h with hcurv
  · obtain ⟨_, hthrow, _⟩ := Run.exists_of_yields_bind h
    exact absurd hthrow Run.not_yields_throw
  -- the next residual is preconditioned, and the step is traced
  · obtain ⟨z, hz, h⟩ := Run.exists_of_yields_bind h
    replace h := Run.yields_of_bind_unit h
    refine ⟨by simpa [curvature] using hcurv, z, Run.ok_of_yields_liftM hz, ?_⟩
    exact Run.eq_of_yields_pure h

/-- The iteration ends at this stage, or makes a step. -/
theorem iterate_cases {cap remaining : Nat} {s s' : State α n} {residual : Vec α n}
    (h : (p.iterate cap remaining s : Run σ α _).Yields (s', residual)) :
    (s' = s ∧ (p.settle s : Run σ α _).Yields (.inl residual)) ∨
    ∃ t next k, remaining = k + 1 ∧ (p.settle s : Run σ α _).Yields (.inr t) ∧
      (p.step t : Run σ α _).Yields next ∧
      (p.iterate cap k next : Run σ α _).Yields (s', residual) := by
  rw [iterate] at h
  obtain ⟨outcome, houtcome, h⟩ := Run.exists_of_yields_bind h
  -- the stage has settled: with its residual, or to a stage that goes on
  cases outcome with
  | inl r =>
    cases Run.eq_of_yields_pure h
    exact .inl ⟨rfl, houtcome⟩
  | inr t =>
    cases remaining with
    | zero => exact absurd h Run.not_yields_throw
    | succ k =>
      obtain ⟨next, hnext, h⟩ := Run.exists_of_yields_bind h
      exact .inr ⟨t, next, k, rfl, houtcome, hnext, h⟩

/-! ### Certain outcomes -/

theorem computes_settle_of_accepts {s : State α n} (hcarried : p.accepts s.residual = true)
    (htrue : p.accepts (p.residualAt s.point) = true) :
    (p.settle s : Run σ α _).Computes (.inl (p.residualAt s.point)) := by
  unfold settle
  rw [if_pos hcarried]
  dsimp only
  rw [if_pos htrue]
  exact Run.computes_pure _

theorem computes_settle_of_not_accepts {s : State α n} (hcarried : ¬ p.accepts s.residual = true) :
    (p.settle s : Run σ α _).Computes (.inr s) := by
  unfold settle
  rw [if_neg hcarried]
  exact Run.computes_pure _

theorem computes_step {s : State α n} {z : Vec α n} (hcurv : 0 < p.curvature s)
    (hz : p.preconditioner.apply (p.nextResidual s) = .ok z) :
    (p.step s : Run σ α _).Computes (p.advance s z) := by
  have hcurv' : ¬ (!decide (0 < s.direction.dot (p.matrix * s.direction))) = true := by
    simpa [curvature] using hcurv
  unfold step
  dsimp only
  rw [if_neg hcurv']
  exact (Run.computes_liftM hz).bind ((Run.computes_record _).bind (Run.computes_pure _))

theorem computes_iterate_of_settle {cap remaining : Nat} {s : State α n} {residual : Vec α n}
    (h : (p.settle s : Run σ α _).Computes (.inl residual)) :
    (p.iterate cap remaining s : Run σ α _).Computes (s, residual) := by
  unfold iterate
  exact h.bind (Run.computes_pure _)

theorem computes_iterate_of_step {cap remaining : Nat} {s next : State α n}
    {last : State α n × Vec α n} (hsettle : (p.settle s : Run σ α _).Computes (.inr s))
    (hstep : (p.step s : Run σ α _).Computes next)
    (h : (p.iterate cap remaining next : Run σ α _).Computes last) :
    (p.iterate cap (remaining + 1) s : Run σ α _).Computes last := by
  rw [iterate]
  exact hsettle.bind (hstep.bind h)

/-! ### Reached stages -/

/-- The stages that an iteration passes through: the first one, one begun anew because only the
residual that it carries is within the tolerance, and one after a step. -/
inductive Reached (p : Problem α n) : State α n → Prop
  | start {x : Vec α n} {s : State α n} (hx : p.preconditioner.apply p.rhs = .ok x)
      (hs : p.restart x (p.residualAt x) 0 = .ok s) : Reached p s
  | restart {s s' : State α n} (hs : Reached p s) (hcarried : p.accepts s.residual = true)
      (htrue : ¬ p.accepts (p.residualAt s.point) = true)
      (hs' : p.restart s.point (p.residualAt s.point) s.steps = .ok s') : Reached p s'
  | step {s : State α n} {z : Vec α n} (hs : Reached p s)
      (hcarried : ¬ p.accepts s.residual = true) (hcurv : 0 < p.curvature s)
      (hz : p.preconditioner.apply (p.nextResidual s) = .ok z) : Reached p (p.advance s z)

/-- A stage that is not the end is reached, and its residual is not within the tolerance. -/
theorem Reached.settle {s t : State α n} (hs : p.Reached s)
    (h : (p.settle s : Run σ α _).Yields (.inr t)) :
    p.Reached t ∧ ¬ p.accepts t.residual = true := by
  rcases settle_cases h with ⟨heq, _⟩ | ⟨heq, hcarried⟩ | ⟨s', heq, hcarried, htrue, hs'⟩
  · cases heq
  · cases heq
    exact ⟨hs, hcarried⟩
  -- a stage begun anew carries the residual that was just refused
  · cases heq
    refine ⟨hs.restart hcarried htrue hs', ?_⟩
    obtain ⟨z, _, rfl⟩ := restart_eq_ok.mp hs'
    exact htrue

theorem Reached.next {s t : State α n} (hs : p.Reached s)
    (hcarried : ¬ p.accepts s.residual = true) (h : (p.step s : Run σ α _).Yields t) :
    p.Reached t := by
  obtain ⟨hcurv, z, hz, rfl⟩ := step_cases h
  exact hs.step hcarried hcurv hz

/-! ### Recorded restarts -/

/-- The event is not that of a restart. -/
def NotRestart (e : Event α) : Prop := e.message ≠ "PCG restart from the true residual"

theorem records_settle {s : State α n}
    (h : p.accepts s.residual = true → p.accepts (p.residualAt s.point) = true) :
    (p.settle s : Run σ α _).Records NotRestart := by
  unfold settle
  dsimp only
  split_ifs with hcarried htrue
  · exact Run.records_pure _ _
  -- only here an event of a restart is recorded
  · exact absurd (h hcarried) htrue
  · exact Run.records_pure _ _

theorem records_step (s : State α n) : (p.step s : Run σ α _).Records NotRestart := by
  have hevent : ∀ fields, NotRestart (α := α) ⟨.trace, "PCG step", fields⟩ := by
    intro fields
    show "PCG step" ≠ "PCG restart from the true residual"
    decide
  unfold step
  dsimp only
  split_ifs
  · exact (Run.records_throw _ _).bind fun _ h => absurd h Run.not_yields_throw
  · refine (Run.records_liftM _ _).bind fun z _ => ?_
    exact (Run.records_record (hevent _)).bind fun _ _ => Run.records_pure _ _

/-- An iteration whose stages carry their true residuals records no restart. -/
theorem records_iterate {cap : Nat}
    (htrue : ∀ s, p.Reached s → p.accepts s.residual = true →
      p.accepts (p.residualAt s.point) = true) :
    ∀ {remaining : Nat} {s : State α n}, p.Reached s →
      (p.iterate cap remaining s : Run σ α _).Records NotRestart := by
  -- the hypothesis holds at every reached stage, so the induction carries that the stage is reached
  intro remaining
  induction remaining with
  | zero =>
    intro s hs
    rw [iterate]
    refine (records_settle (htrue s hs)).bind fun outcome _ => ?_
    cases outcome with
    | inl residual => exact Run.records_pure _ _
    | inr t => exact Run.records_throw _ _
  | succ remaining ih =>
    intro s hs
    rw [iterate]
    refine (records_settle (htrue s hs)).bind fun outcome houtcome => ?_
    cases outcome with
    | inl residual => exact Run.records_pure _ _
    | inr t =>
      obtain ⟨ht, hcarried⟩ := hs.settle houtcome
      exact (records_step t).bind fun next hnext => ih (ht.next hcarried hnext)

theorem records_run {cap : Nat}
    (htrue : ∀ s, p.Reached s → p.accepts s.residual = true →
      p.accepts (p.residualAt s.point) = true) :
    (p.run cap : Run σ α _).Records NotRestart := by
  unfold run
  refine (Run.records_liftM _ _).bind fun x hx => ?_
  refine (Run.records_liftM _ _).bind fun s hs => ?_
  exact records_iterate htrue (.start (Run.ok_of_yields_liftM hx) (Run.ok_of_yields_liftM hs))

end Problem

end Downhill.ConjugateGradient
