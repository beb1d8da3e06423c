import Downhill.Proofs.Solve.CholeskyFactor

/-!
# The failures of linear solves

* `solve_fails`: a linear solve refuses its tolerance, the shape of its matrix or the increment of
  the shift; after that it breaks down or uses up its cap. The failure with the cap names the norm
  of a residual and the tolerance of the solve, and no value of an objective.

With a preconditioner of one's own, the failures of the preconditioner come on top
(`solveWith_fails`).
-/

namespace Downhill

variable {σ α : Type} [Scalar α] {n r c : Nat} {e : Failure α}

/-! ### Factors -/

namespace IncompleteCholesky

theorem eq_of_fails_attempt {A : Mat α n n} {increment : α} :
    ∀ {remaining failed : Nat} {shift : α},
      (attempt A increment remaining failed shift : Run σ α _).Fails e →
      e = .breakdown (.shiftsExhausted attemptCap) := by
  -- induction on the attempts that remain, because a failed one goes on with a larger shift
  intro remaining
  induction remaining with
  | zero =>
    intro failed shift h
    exact Run.eq_of_fails_throw h
  | succ remaining ih =>
    intro failed shift h
    rw [attempt] at h
    -- an attempt that succeeds ends the factorization, with or without an event about the shift
    split at h
    · split_ifs at h
      · exact absurd (Run.fails_of_record_bind h) Run.not_fails_pure
      · exact absurd h Run.not_fails_pure
    · exact ih h

theorem factorize_fails {A : Mat α r c} {increment : α}
    (h : (factorize A increment : Run σ α _).Fails e) :
    A.ofOrder r = .error e ∨
      (¬ 0 < increment ∧ e = .invalidSetting .shiftIncrement (.number increment)) ∨
      e = .breakdown (.shiftsExhausted attemptCap) := by
  rcases Run.fails_or_of_fails_bind h with h | ⟨_, _, h⟩
  · exact .inl (Run.error_of_fails_liftM h)
  · split_ifs at h with hincrement
    · exact .inr (.inr (eq_of_fails_attempt h))
    · exact .inr (.inl ⟨hincrement, Run.eq_of_fails_throw h⟩)

/-- As a preconditioner a factor fails only where it is singular. -/
theorem eq_of_preconditioner_apply {f : IncompleteCholesky α n} {b : Vec α n}
    (h : (f.preconditioner n).apply b = .error e) : e = .breakdown .singularFactor := by
  -- two triangular solves, and each one fails only at a zero on the diagonal
  rw [preconditioner_apply] at h
  unfold solve at h
  split at h
  · cases h
    rfl
  · split at h
    · cases h
      rfl
    · cases h

end IncompleteCholesky

namespace ConjugateGradient

/-! ### The iteration -/

namespace Problem

/-- What an iteration under a cap can fail with: a direction without curvature, a failure of the
preconditioner, and the cap. -/
inductive Stuck (p : Problem α n) (cap : Nat) : Failure α → Prop
  | curvature : p.Stuck cap (.breakdown .indefinite)
  | preconditioner {e : Failure α} {b : Vec α n} (h : p.preconditioner.apply b = .error e) :
    p.Stuck cap e
  | cap (residualNorm : α) : p.Stuck cap (.capReached cap none (some residualNorm) p.tolerance)

variable {p : Problem α n} {cap : Nat}

theorem stuck_of_restart {x b : Vec α n} {steps : Nat} (h : p.restart x b steps = .error e) :
    p.Stuck cap e := by
  -- a new stage needs the preconditioned residual and nothing else
  unfold restart at h
  cases hz : p.preconditioner.apply b with
  | error e' =>
    rw [hz] at h
    cases h
    exact .preconditioner hz
  | ok z =>
    rw [hz] at h
    cases h

theorem stuck_of_fails_settle {s : State α n} (h : (p.settle s : Run σ α _).Fails e) :
    p.Stuck cap e := by
  unfold settle at h
  dsimp only at h
  split_ifs at h
  · exact absurd h Run.not_fails_pure
  · rcases Run.fails_or_of_fails_bind (Run.fails_of_record_bind h) with h | ⟨_, _, h⟩
    · exact stuck_of_restart (Run.error_of_fails_liftM h)
    · exact absurd h Run.not_fails_pure
  · exact absurd h Run.not_fails_pure

theorem stuck_of_fails_step {s : State α n} (h : (p.step s : Run σ α _).Fails e) :
    p.Stuck cap e := by
  unfold step at h
  dsimp only at h
  split_ifs at h
  · rcases Run.fails_or_of_fails_bind h with h | ⟨_, hthrow, _⟩
    · rw [Run.eq_of_fails_throw h]
      exact .curvature
    · exact absurd hthrow Run.not_yields_throw
  · rcases Run.fails_or_of_fails_bind h with h | ⟨_, _, h⟩
    · exact .preconditioner (Run.error_of_fails_liftM h)
    · exact absurd (Run.fails_of_record_bind h) Run.not_fails_pure

theorem stuck_of_fails_iterate :
    ∀ {remaining : Nat} {s : State α n}, (p.iterate cap remaining s : Run σ α _).Fails e →
      p.Stuck cap e := by
  intro remaining
  -- by induction on the steps left; the cap only fails where there is none
  induction remaining with
  | zero =>
    intro s h
    rw [iterate] at h
    rcases Run.fails_or_of_fails_bind h with h | ⟨outcome, _, h⟩
    · exact stuck_of_fails_settle h
    · cases outcome with
      | inl residual => exact absurd h Run.not_fails_pure
      | inr t =>
        rw [Run.eq_of_fails_throw h]
        exact .cap _
  | succ remaining ih =>
    intro s h
    rw [iterate] at h
    rcases Run.fails_or_of_fails_bind h with h | ⟨outcome, _, h⟩
    · exact stuck_of_fails_settle h
    · cases outcome with
      | inl residual => exact absurd h Run.not_fails_pure
      | inr t =>
        rcases Run.fails_or_of_fails_bind h with h | ⟨_, _, h⟩
        · exact stuck_of_fails_step h
        · exact ih h

theorem stuck_of_fails_run (h : (p.run cap : Run σ α _).Fails e) : p.Stuck cap e := by
  rcases Run.fails_or_of_fails_bind h with h | ⟨_, _, h⟩
  · exact .preconditioner (Run.error_of_fails_liftM h)
  · rcases Run.fails_or_of_fails_bind h with h | ⟨_, _, h⟩
    · exact stuck_of_restart (Run.error_of_fails_liftM h)
    · exact stuck_of_fails_iterate h

end Problem

/-! ### Solving -/

variable {config : Config α} {A : Mat α r c} {b : Vec α n}

theorem Config.error_of_validate (h : config.validate = .error e) :
    ¬ 0 < config.tolerance ∧ e = .invalidSetting .tolerance (.number config.tolerance) := by
  unfold validate at h
  split_ifs at h with htol
  cases h
  exact ⟨htol, rfl⟩

theorem solveWith_fails {M : Preconditioner α n}
    (h : (solveWith config A b M : Run σ α _).Fails e) :
    config.validate = .error e ∨ A.ofOrder n = .error e ∨
      (∃ A', (config.problem A' b M).Stuck (config.cap n) e) ∨ e = .breakdown .residual := by
  rcases Run.fails_or_of_fails_bind h with h | ⟨_, _, h⟩
  · exact .inl (Run.error_of_fails_liftM h)
  rcases Run.fails_or_of_fails_bind h with h | ⟨A', _, h⟩
  · exact .inr (.inl (Run.error_of_fails_liftM h))
  rcases Run.fails_or_of_fails_bind (Run.fails_of_record_bind h) with h | ⟨⟨_, _⟩, _, h⟩
  · exact .inr (.inr (.inl ⟨A', Problem.stuck_of_fails_run h⟩))
  · dsimp only at h
    split_ifs at h
    · rcases Run.fails_or_of_fails_bind h with h | ⟨_, hthrow, _⟩
      · exact .inr (.inr (.inr (Run.eq_of_fails_throw h)))
      · exact absurd hthrow Run.not_yields_throw
    · exact absurd (Run.fails_of_record_bind h) Run.not_fails_pure

/-- **The failures of a linear solve**: the tolerance, the shape of the matrix or the increment of
the shift is refused, the arithmetic breaks down, or the cap is used up. -/
theorem solve_fails (h : (solve config A b : Run σ α _).Fails e) :
    (¬ 0 < config.tolerance ∧ e = .invalidSetting .tolerance (.number config.tolerance)) ∨
      A.ofOrder n = .error e ∨
      e = .invalidSetting .shiftIncrement (.number IncompleteCholesky.standardIncrement) ∨
      (∃ cause, e = .breakdown cause) ∨
      ∃ residualNorm, e = .capReached (config.cap n) none (some residualNorm) config.tolerance := by
  rcases Run.fails_or_of_fails_bind h with h | ⟨_, _, h⟩
  · exact .inl (Config.error_of_validate (Run.error_of_fails_liftM h))
  rcases Run.fails_or_of_fails_bind h with h | ⟨A', _, h⟩
  · exact .inr (.inl (Run.error_of_fails_liftM h))
  rcases Run.fails_or_of_fails_bind h with h | ⟨factor, _, h⟩
  · rcases IncompleteCholesky.factorize_fails h with h | ⟨-, h⟩ | h
    -- the shape was checked before, so it is not refused again
    · rw [Mat.ofOrder_self] at h
      cases h
    · exact .inr (.inr (.inl h))
    · exact .inr (.inr (.inr (.inl ⟨_, h⟩)))
  · rcases solveWith_fails h with h | h | ⟨A'', h⟩ | h
    · exact .inl (Config.error_of_validate h)
    · rw [Mat.ofOrder_self] at h
      cases h
    · refine .inr (.inr (.inr ?_))
      cases h with
      | curvature => exact .inl ⟨_, rfl⟩
      | preconditioner h => exact .inl ⟨_, IncompleteCholesky.eq_of_preconditioner_apply h⟩
      | cap residualNorm => exact .inr ⟨residualNorm, rfl⟩
    · exact .inr (.inr (.inr (.inl ⟨_, h⟩)))

/-- The failure does not name a value, as the one with the cap of a descent does. -/
theorem value_eq_none_of_fails_solve {cap : Nat} {value stopping : Option α} {tolerance : α}
    (h : (solve config A b : Run σ α _).Fails (.capReached cap value stopping tolerance)) :
    value = none := by
  -- only the last kind of failure is one of a cap
  rcases solve_fails h with ⟨-, h⟩ | h | h | ⟨cause, h⟩ | ⟨residualNorm, h⟩
  · cases h
  · unfold Mat.ofOrder at h
    split_ifs at h
    cases h
  · cases h
  · cases h
  · cases h
    rfl

end ConjugateGradient

end Downhill
