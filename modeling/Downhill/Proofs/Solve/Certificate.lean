import Downhill.Proofs.Solve.Iteration
import Downhill.Scalar.Binary

/-!
# What a solution of the conjugate gradient method certifies

The iteration steers by a residual that it carries along, but ends only on one that it has computed
afresh. So a solution certifies itself, whatever the matrix, the preconditioner and the arithmetic:

* `solution_certified`: the recorded norm is that of `A x - b`, it is finite and within a positive
  tolerance, and the number of steps is within the cap.

Of the stages that the loop passes through only the number of steps matters; everything else is
read off the stage where it ends (`Problem.end_of_yields_iterate`).
-/

namespace Downhill.ConjugateGradient

variable {σ α : Type} [Scalar α] {n r c : Nat}

/-- What a solution of `A x = b` under a configuration promises. -/
structure Solution.Certified (config : Config α) (A : Mat α n n) (b : Vec α n)
    (solution : Solution α n) : Prop where
  /-- The norm is that of the residual of the point. -/
  residualNorm_eq : solution.residualNorm = (A * solution.point - b).norm
  /-- It is finite. -/
  isFinite : Scalar.isFinite solution.residualNorm = true
  /-- It is within the tolerance. -/
  within : solution.residualNorm ≤ config.tolerance
  /-- The tolerance is positive. -/
  tolerance_pos : 0 < config.tolerance
  /-- The number of steps is within the cap. -/
  iterations_le : solution.iterations ≤ config.maxIterations.getD (max (10 * n) 10)

/-! ### The iteration -/

namespace Problem

variable {p : Problem α n}

theorem of_yields_settle_inl {s : State α n} {residual : Vec α n}
    (h : (p.settle s : Run σ α _).Yields (.inl residual)) :
    residual = p.residualAt s.point ∧ p.accepts residual = true := by
  -- of the three cases only the first one ends the iteration
  rcases settle_cases h with ⟨heq, haccepts⟩ | ⟨heq, _⟩ | ⟨s', heq, _⟩
  · cases heq
    exact ⟨rfl, haccepts⟩
  · cases heq
  · cases heq

theorem steps_of_yields_settle_inr {s t : State α n}
    (h : (p.settle s : Run σ α _).Yields (.inr t)) : t.steps = s.steps := by
  rcases settle_cases h with ⟨heq, _⟩ | ⟨heq, _⟩ | ⟨s', heq, _, _, hs'⟩
  · cases heq
  · cases heq
    rfl
  · cases heq
    obtain ⟨z, _, rfl⟩ := restart_eq_ok.mp hs'
    rfl

/-- The iteration ends with the residual of the point that it has reached. -/
theorem end_of_yields_iterate {cap : Nat} :
    ∀ {remaining : Nat} {s s' : State α n} {residual : Vec α n},
      (p.iterate cap remaining s : Run σ α _).Yields (s', residual) →
      residual = p.residualAt s'.point ∧ p.accepts residual = true ∧
        s'.steps ≤ s.steps + remaining := by
  intro remaining
  -- no invariant of the stages is needed, the end alone carries the residual
  induction remaining with
  | zero =>
    intro s s' residual h
    rcases iterate_cases h with ⟨rfl, hend⟩ | ⟨_, _, k, hk, _⟩
    · obtain ⟨heq, haccepts⟩ := of_yields_settle_inl hend
      exact ⟨heq, haccepts, by omega⟩
    · omega
  | succ remaining ih =>
    intro s s' residual h
    rcases iterate_cases h with ⟨rfl, hend⟩ | ⟨t, next, k, hk, ht, hnext, h⟩
    · obtain ⟨heq, haccepts⟩ := of_yields_settle_inl hend
      exact ⟨heq, haccepts, by omega⟩
    · obtain rfl : remaining = k := by omega
      obtain ⟨heq, haccepts, hle⟩ := ih h
      have hkept := steps_of_yields_settle_inr ht
      have hcount : next.steps = t.steps + 1 := by
        obtain ⟨_, z, _, rfl⟩ := step_cases hnext
        rfl
      exact ⟨heq, haccepts, by omega⟩

theorem end_of_yields_run {cap : Nat} {s : State α n} {residual : Vec α n}
    (h : (p.run cap : Run σ α _).Yields (s, residual)) :
    residual = p.residualAt s.point ∧ p.accepts residual = true ∧ s.steps ≤ cap := by
  unfold run at h
  obtain ⟨x, _, h⟩ := Run.exists_of_yields_bind h
  obtain ⟨start, hstart, h⟩ := Run.exists_of_yields_bind h
  obtain ⟨z, _, rfl⟩ := restart_eq_ok.mp (Run.ok_of_yields_liftM hstart)
  obtain ⟨heq, haccepts, hle⟩ := end_of_yields_iterate h
  have hzero : (fresh x (p.residualAt x) z 0).steps = 0 := rfl
  exact ⟨heq, haccepts, by omega⟩

end Problem

/-! ### Solving -/

theorem certified_of_yields_solveWith {config : Config α} {A : Mat α r c} {b : Vec α n}
    {M : Preconditioner α n} {solution : Solution α n}
    (h : (solveWith config A b M : Run σ α _).Yields solution) :
    ∃ A', A.ofOrder n = .ok A' ∧ solution.Certified config A' b := by
  unfold solveWith at h
  obtain ⟨_, hvalid, h⟩ := Run.exists_of_yields_bind h
  have hpos := Config.validate_eq_ok.mp (Run.ok_of_yields_liftM hvalid)
  obtain ⟨A', hA', h⟩ := Run.exists_of_yields_bind h
  replace h := Run.yields_of_bind_unit h
  obtain ⟨⟨s, residual⟩, hrun, h⟩ := Run.exists_of_yields_bind h
  obtain ⟨heq, haccepts, hle⟩ := Problem.end_of_yields_run hrun
  dsimp only at h
  split_ifs at h with hfinite
  -- a norm that is not finite ends the solve with a failure
  · obtain ⟨_, hthrow, _⟩ := Run.exists_of_yields_bind h
    exact absurd hthrow Run.not_yields_throw
  -- the norm of the end is the one that is returned
  · replace h := Run.yields_of_bind_unit h
    cases Run.eq_of_yields_pure h
    refine ⟨A', Run.ok_of_yields_liftM hA', ?_, ?_, ?_, hpos, hle⟩
    · rw [heq]
      rfl
    · simpa using hfinite
    · simpa [Problem.accepts] using haccepts

theorem certified_of_yields_solve {config : Config α} {A : Mat α r c} {b : Vec α n}
    {solution : Solution α n} (h : (solve config A b : Run σ α _).Yields solution) :
    ∃ A', A.ofOrder n = .ok A' ∧ solution.Certified config A' b := by
  unfold solve at h
  obtain ⟨_, _, h⟩ := Run.exists_of_yields_bind h
  obtain ⟨A', hA', h⟩ := Run.exists_of_yields_bind h
  obtain ⟨factor, _, h⟩ := Run.exists_of_yields_bind h
  obtain ⟨A'', hA'', hcertified⟩ := certified_of_yields_solveWith h
  -- the matrix was fitted before the factorization, so it is fitted to itself
  rw [Mat.ofOrder_self] at hA''
  cases hA''
  exact ⟨A', Run.ok_of_yields_liftM hA', hcertified⟩

/-! ### Immediate success -/

/-- Where the preconditioned right-hand side is within the tolerance, it is the solution. -/
theorem computes_solveWith_of_accepts {config : Config α} {A : Mat α n n} {b x z : Vec α n}
    {M : Preconditioner α n} (htol : 0 < config.tolerance) (hx : M.apply b = .ok x)
    (hz : M.apply (A * x - b) = .ok z) (hfinite : Scalar.isFinite (A * x - b).norm = true)
    (haccepts : (A * x - b).norm ≤ config.tolerance) :
    (solveWith config A b M : Run σ α _).Computes ⟨x, 0, (A * x - b).norm⟩ := by
  have hstart : (config.problem A b M).restart x (A * x - b) 0 =
      .ok (Problem.fresh x (A * x - b) z 0) := Problem.restart_eq_ok.mpr ⟨z, hz, rfl⟩
  have hend : (config.problem A b M).accepts (A * x - b) = true := decide_eq_true haccepts
  -- the first stage settles, so that no step is made
  have hrun : ((config.problem A b M).run (config.cap n) : Run σ α _).Computes
      (Problem.fresh x (A * x - b) z 0, A * x - b) := by
    refine (Run.computes_liftM hx).bind ((Run.computes_liftM hstart).bind ?_)
    exact Problem.computes_iterate_of_settle (Problem.computes_settle_of_accepts hend hend)
  unfold solveWith
  refine (Run.computes_liftM (Config.validate_eq_ok.mpr htol)).bind ?_
  refine (Run.computes_liftM A.ofOrder_self).bind ?_
  refine (Run.computes_record _).bind (hrun.bind ?_)
  dsimp only
  rw [hfinite]
  exact (Run.computes_record _).bind (Run.computes_pure _)

/-! ### Certificates -/

/-- **Certificates**: a solution of any of the three solvers certifies itself. -/
theorem solution_certified (A : Mat α r c) (b : Vec α n) :
    (∀ (config : Config α) (M : Preconditioner α n) (solution : Solution α n),
      (solveWith config A b M : Run σ α _).Yields solution →
        ∃ A', A.ofOrder n = .ok A' ∧ solution.Certified config A' b) ∧
    (∀ (config : Config α) (solution : Solution α n),
      (solve config A b : Run σ α _).Yields solution →
        ∃ A', A.ofOrder n = .ok A' ∧ solution.Certified config A' b) ∧
    ∀ (tolerance : α) (x : Vec α n), (solveTo tolerance A b : Run σ α _).Yields x →
      ∃ (A' : Mat α n n) (solution : Solution α n), A.ofOrder n = .ok A' ∧
        solution.point = x ∧ solution.Certified { tolerance } A' b := by
  refine ⟨fun _ _ _ => certified_of_yields_solveWith, fun _ _ => certified_of_yields_solve, ?_⟩
  intro tolerance x h
  obtain ⟨solution, hsolution, h⟩ := Run.exists_of_yields_bind h
  obtain ⟨A', hA', hcertified⟩ := certified_of_yields_solve hsolution
  exact ⟨A', solution, hA', (Run.eq_of_yields_pure h).symm, hcertified⟩

/-- A positive definite system of two unknowns. -/
def coupled : Mat Float 2 2 := ⟨#v[#v[4, 1], #v[1, 3]]⟩

/-- A system with the eigenvalues three and minus one. -/
def saddle : Mat Float 2 2 := ⟨#v[#v[1, 2], #v[2, 1]]⟩

/-- Solves in double precision. For the first system and a tolerance close to the rounding error, the
residual that two steps have carried along is too small; the iteration starts anew, and ends after a
third step. For the second one the factor needs a shift, and there is one step along the eigenvector
where the matrix is positive. -/
theorem solution_certified_doubles :
    (∃ solution : Solution Float 2,
      (solveWith { tolerance := 1e-15 } coupled #v[3, 11] (Preconditioner.identity 2) :
        Run Unit Float _).Yields solution ∧
      solution.iterations = 3 ∧ solution.Certified { tolerance := 1e-15 } coupled #v[3, 11]) ∧
    (((solveWith { tolerance := 1e-15 } coupled #v[3, 11] (Preconditioner.identity 2) :
      Run Unit Float _).start ()).2.journal.any
        (·.message == "PCG restart from the true residual")) = true ∧
    (∃ solution : Solution Float 2,
      (solve {} saddle #v[3, 3] : Run Unit Float _).Yields solution ∧
      solution.iterations = 1 ∧ solution.Certified {} saddle #v[3, 3]) ∧
    ∃ solution : Solution Float 2,
      (solveTo 1e-3 saddle #v[3, 3] : Run Unit Float _).Yields solution.point ∧
      solution.Certified { tolerance := 1e-3 } saddle #v[3, 3] := by
  obtain ⟨hwith, -⟩ := solution_certified (σ := Unit) coupled (#v[3, 11] : Vec Float 2)
  obtain ⟨-, hfactor, hto⟩ := solution_certified (σ := Unit) saddle (#v[3, 3] : Vec Float 2)
  refine ⟨?_, by decide +kernel, ?_, ?_⟩
  · obtain ⟨solution, hsolution, hthree⟩ : ∃ solution : Solution Float 2,
        (solveWith { tolerance := 1e-15 } coupled #v[3, 11] (Preconditioner.identity 2) :
          Run Unit Float _).Yields solution ∧ solution.iterations = 3 :=
      Run.exists_yields_of_start Solution.iterations () (by decide +kernel)
    obtain ⟨A, hA, hcertified⟩ := hwith _ _ _ hsolution
    rw [Mat.ofOrder_self] at hA
    cases hA
    exact ⟨solution, hsolution, hthree, hcertified⟩
  · obtain ⟨solution, hsolution, hone⟩ : ∃ solution : Solution Float 2,
        (solve {} saddle #v[3, 3] : Run Unit Float _).Yields solution ∧ solution.iterations = 1 :=
      Run.exists_yields_of_start Solution.iterations () (by decide +kernel)
    obtain ⟨A, hA, hcertified⟩ := hfactor _ _ hsolution
    rw [Mat.ofOrder_self] at hA
    cases hA
    exact ⟨solution, hsolution, hone, hcertified⟩
  · obtain ⟨x, hx, -⟩ := Run.exists_yields_of_start
      (a := (solveTo 1e-3 saddle #v[3, 3] : Run Unit Float _)) (c := ()) (fun _ => ()) ()
      (by decide +kernel)
    obtain ⟨A, solution, hA, rfl, hcertified⟩ := hto _ _ hx
    rw [Mat.ofOrder_self] at hA
    cases hA
    exact ⟨solution, hx, hcertified⟩

end Downhill.ConjugateGradient
