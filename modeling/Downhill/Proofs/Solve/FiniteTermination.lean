import Downhill.Proofs.Exact.Matrix
import Downhill.Proofs.Solve.Conjugacy
import Downhill.Proofs.Solve.Iteration

/-!
# Conjugate gradients end after at most `n` steps

* `solveWith_computes_of_isPosDef`: in exact arithmetic, for a symmetric positive definite matrix
  of order `n` and a linear symmetric positive definite preconditioner, a solve with a cap of at
  least `n` succeeds after at most `n` steps, without a restart and without a division by zero.

Every stage of the iteration satisfies `Problem.Exact`: its residual is that of its point, and it
is conjugate to a subspace whose dimension is the number of steps. So after `n` steps the residual
is zero, and before the residual is zero the energy and the curvature are positive.
-/

namespace Downhill

/-- The preconditioner is a linear symmetric positive definite map. -/
def Preconditioner.IsPosDef {n : Nat} (M : Preconditioner ℝ n) : Prop :=
  ∃ P : Vec ℝ n →ₗ[ℝ] Vec ℝ n, (∀ r, M.apply r = .ok (P r)) ∧ Mat.IsPosDefMap P

theorem Preconditioner.identity_isPosDef (n : Nat) :
    (Preconditioner.identity n : Preconditioner ℝ n).IsPosDef :=
  ⟨LinearMap.id, fun _ => rfl, Mat.isPosDefMap_id⟩

/-- Positive weights make a positive definite preconditioner. -/
theorem Preconditioner.diagonal_isPosDef {n : Nat} {w : Vec ℝ n} (hw : ∀ i, 0 < w.entry i) :
    (Preconditioner.diagonal w n).IsPosDef := by
  refine ⟨(Mat.diagonal w).toLin, fun r => ?_, (Mat.isPosDef_diagonal hw).isPosDefMap_toLin⟩
  -- weights of the right length fit, and then they are multiplied entry by entry
  have hfit : (Preconditioner.diagonal w n).apply r = .ok (r.zipWith (· * ·) w) := by
    show (w.fit n >>= fun w => Except.ok (r.zipWith (· * ·) w)) = _
    rw [Vec.fit_self]
    rfl
  rw [hfit, Mat.toLin_apply]
  congr 1
  ext i hi
  rw [Mat.getElem_diagonal_mulVec, Vector.getElem_zipWith, mul_comm]

namespace ConjugateGradient

variable {σ : Type} {n : Nat}

namespace Problem

variable {p : Problem ℝ n} {P : Vec ℝ n →ₗ[ℝ] Vec ℝ n}

/-! ### Exact stages -/

/-- The residual of the stage is that of its point, its energy belongs to its residual, and as many
former directions as it has made steps span a subspace to which it is conjugate. -/
structure Exact (p : Problem ℝ n) (P : Vec ℝ n →ₗ[ℝ] Vec ℝ n) (s : State ℝ n) : Prop where
  residual_eq : s.residual = p.residualAt s.point
  energy_eq : s.energy = s.residual.dot (P s.residual)
  conjugate : ∃ S : Submodule ℝ (Vec ℝ n), Module.finrank ℝ S = s.steps ∧
    Conjugate p.matrix.toLin P S s.residual s.direction

theorem accepts_iff {r : Vec ℝ n} : p.accepts r = true ↔ ‖r‖ ≤ p.tolerance := by
  unfold accepts
  rw [decide_eq_true_iff, Vec.norm_eq]

theorem ne_zero_of_not_accepts (htol : 0 < p.tolerance) {r : Vec ℝ n}
    (h : ¬ p.accepts r = true) : r ≠ 0 := by
  rintro rfl
  rw [accepts_iff, norm_zero] at h
  exact h htol.le

theorem Exact.fresh (x : Vec ℝ n) :
    p.Exact P (fresh x (p.residualAt x) (P (p.residualAt x)) 0) where
  residual_eq := rfl
  energy_eq := rfl
  conjugate := ⟨⊥, finrank_bot ℝ _, .start _ _ _⟩

/-- The residual that an exact stage carries decides about the end. -/
theorem Exact.accepts_residualAt {s : State ℝ n} (h : p.Exact P s)
    (hcarried : p.accepts s.residual = true) : p.accepts (p.residualAt s.point) = true := by
  rwa [← h.residual_eq]

theorem Exact.steps_le {s : State ℝ n} (h : p.Exact P s) : s.steps ≤ n := by
  obtain ⟨S, hS, _⟩ := h.conjugate
  have hle := Submodule.finrank_le S
  rw [hS, Vec.finrank_eq] at hle
  exact hle

theorem Exact.steps_lt {s : State ℝ n} (h : p.Exact P s) (hr : s.residual ≠ 0) : s.steps < n := by
  obtain ⟨S, hS, hconj⟩ := h.conjugate
  -- after `n` steps the residual would be orthogonal to the whole space
  refine lt_of_le_of_ne h.steps_le fun hn => hr (hconj.eq_zero_of_finrank_eq ?_)
  rw [hS, hn, Vec.finrank_eq]

theorem Exact.energy_pos (hP : Mat.IsPosDefMap P) {s : State ℝ n} (h : p.Exact P s)
    (hr : s.residual ≠ 0) : 0 < s.energy := by
  rw [h.energy_eq]
  exact hP.pos _ hr

theorem Exact.curvature_pos (hA : p.matrix.IsPosDef) (hP : Mat.IsPosDefMap P) {s : State ℝ n}
    (h : p.Exact P s) (hr : s.residual ≠ 0) : 0 < p.curvature s := by
  -- a zero direction has slope zero, but the slope is the negative energy
  refine hA.pos _ fun hd => ?_
  obtain ⟨S, _, hconj⟩ := h.conjugate
  have hslope := hconj.inner_direction
  rw [hd, inner_zero_right, Vec.inner_eq_dot] at hslope
  have hpos := hP.pos _ hr
  linarith

/-- A step keeps the residual of the point up to date. -/
theorem residualAt_advance (s : State ℝ n) (z : Vec ℝ n)
    (h : s.residual = p.residualAt s.point) :
    (p.advance s z).residual = p.residualAt (p.advance s z).point := by
  show s.residual + _ * (p.matrix * s.direction) = p.matrix * (s.point + _ * s.direction) - p.rhs
  rw [h, Vec.hmul_eq_smul, Vec.hmul_eq_smul]
  show p.matrix.toLin s.point - p.rhs + _ • p.matrix.toLin s.direction =
    p.matrix.toLin (s.point + _ • s.direction) - p.rhs
  rw [map_add, map_smul]
  abel

/-- A step leads from an exact stage to an exact one. -/
theorem Exact.advance (hA : p.matrix.IsPosDef) (hP : Mat.IsPosDefMap P) {s : State ℝ n}
    (h : p.Exact P s) (hr : s.residual ≠ 0) : p.Exact P (p.advance s (P (p.nextResidual s))) := by
  have henergy := h.energy_pos hP hr
  have hcurv := h.curvature_pos hA hP hr
  obtain ⟨S, hS, hconj⟩ := h.conjugate
  refine ⟨residualAt_advance s _ h.residual_eq, rfl, S ⊔ ℝ ∙ s.direction, ?_, ?_⟩
  -- the direction is not among the former ones, so the dimension grows by one
  · rw [hconj.finrank_sup hcurv.ne', hS]
    rfl
  -- the quotients of the step, in terms of inner products
  · have hnext : p.nextResidual s = s.residual +
        (inner ℝ s.residual (P s.residual) / inner ℝ s.direction (p.matrix.toLin s.direction)) •
          p.matrix.toLin s.direction := by
      unfold nextResidual
      rw [Vec.hmul_eq_smul, h.energy_eq]
      rfl
    rw [h.energy_eq] at henergy
    have hstep := hconj.step hA.symm.isSymmetric_toLin hP.symm henergy.ne' hcurv.ne' hnext
    show Conjugate _ _ _ _
      (((p.nextResidual s).dot (P (p.nextResidual s)) / s.energy) * s.direction - _)
    rw [Vec.hmul_eq_smul, h.energy_eq]
    exact hstep

theorem Exact.computes_iterate_of_accepts {cap remaining : Nat} {s : State ℝ n}
    (h : p.Exact P s) (hcarried : p.accepts s.residual = true) :
    (p.iterate cap remaining s : Run σ ℝ _).Computes (s, p.residualAt s.point) :=
  computes_iterate_of_settle (computes_settle_of_accepts hcarried (h.accepts_residualAt hcarried))

/-! ### Definite problems -/

section Definite

variable (hA : p.matrix.IsPosDef) (hM : ∀ r, p.preconditioner.apply r = .ok (P r))
  (hP : Mat.IsPosDefMap P) (htol : 0 < p.tolerance)

include hA hM hP htol

/-- Every stage is exact, so none is begun anew. -/
theorem Reached.exact {s : State ℝ n} (h : p.Reached s) : p.Exact P s := by
  induction h with
  | start hx hs =>
    obtain ⟨z, hz, rfl⟩ := restart_eq_ok.mp hs
    rw [hM] at hz
    cases hz
    exact .fresh _
  | restart hs hcarried htrue hs' ih =>
    -- an exact stage carries its true residual, so this case does not arise
    exact absurd (ih.accepts_residualAt hcarried) htrue
  | step hs hcarried hcurv hz ih =>
    rw [hM] at hz
    cases hz
    exact ih.advance hA hP (ne_zero_of_not_accepts htol hcarried)

/-- The number of steps that an exact stage lacks to `n` bounds the number of steps that follow. -/
theorem exists_computes_iterate (cap : Nat) :
    ∀ {remaining : Nat} {s : State ℝ n}, p.Exact P s → n ≤ s.steps + remaining →
      ∃ s' residual, (p.iterate cap remaining s : Run σ ℝ _).Computes (s', residual) ∧
        s'.steps ≤ n := by
  intro remaining
  induction remaining with
  | zero =>
    intro s hs hn
    by_cases hcarried : p.accepts s.residual = true
    · exact ⟨s, _, hs.computes_iterate_of_accepts hcarried, hs.steps_le⟩
    · -- there is no step left, but as long as the residual is not zero there are fewer than `n`
      have hlt := hs.steps_lt (ne_zero_of_not_accepts htol hcarried)
      omega
  | succ remaining ih =>
    intro s hs hn
    by_cases hcarried : p.accepts s.residual = true
    · exact ⟨s, _, hs.computes_iterate_of_accepts hcarried, hs.steps_le⟩
    · have hr := ne_zero_of_not_accepts htol hcarried
      have hcount : (p.advance s (P (p.nextResidual s))).steps = s.steps + 1 := rfl
      obtain ⟨s', residual, hlast, hle⟩ := ih (hs.advance hA hP hr) (by omega)
      exact ⟨s', residual, computes_iterate_of_step (computes_settle_of_not_accepts hcarried)
        (computes_step (hs.curvature_pos hA hP hr) (hM _)) hlast, hle⟩

theorem exists_computes_run {cap : Nat} (hcap : n ≤ cap) :
    ∃ s residual, (p.run cap : Run σ ℝ _).Computes (s, residual) ∧ s.steps ≤ n := by
  have hstart : p.restart (P p.rhs) (p.residualAt (P p.rhs)) 0 =
      .ok (fresh (P p.rhs) (p.residualAt (P p.rhs)) (P (p.residualAt (P p.rhs))) 0) :=
    restart_eq_ok.mpr ⟨_, hM _, rfl⟩
  have hexact : p.Exact P (fresh (P p.rhs) (p.residualAt (P p.rhs)) _ 0) := .fresh _
  have hn : n ≤ (fresh (P p.rhs) (p.residualAt (P p.rhs)) (P (p.residualAt (P p.rhs))) 0).steps +
      cap := by
    show n ≤ 0 + cap
    omega
  obtain ⟨s, residual, hlast, hle⟩ := exists_computes_iterate hA hM hP htol cap hexact hn
  exact ⟨s, residual, (Run.computes_liftM (hM _)).bind ((Run.computes_liftM hstart).bind hlast),
    hle⟩

end Definite

end Problem

/-! ### Solving -/

/-- The default cap suffices, as does each that is at least the number of unknowns. -/
theorem Config.le_cap {config : Config ℝ} (hcap : ∀ cap ∈ config.maxIterations, n ≤ cap) :
    n ≤ config.cap n := by
  unfold Config.cap
  cases h : config.maxIterations with
  | none =>
    show n ≤ max (10 * n) 10
    omega
  | some cap => exact hcap cap h

theorem records_solveWith {config : Config ℝ} {A : Mat ℝ n n} {b : Vec ℝ n}
    {M : Preconditioner ℝ n}
    (hrun : ((config.problem A b M).run (config.cap n) : Run σ ℝ _).Records Problem.NotRestart) :
    (solveWith config A b M : Run σ ℝ _).Records Problem.NotRestart := by
  -- the two reports are no restarts either
  have hstart : ∀ level fields,
      Problem.NotRestart (α := ℝ) ⟨level, "start PCG solver", fields⟩ := by
    intro level fields
    show "start PCG solver" ≠ "PCG restart from the true residual"
    decide
  have hend : ∀ level fields,
      Problem.NotRestart (α := ℝ) ⟨level, "PCG solver terminated", fields⟩ := by
    intro level fields
    show "PCG solver terminated" ≠ "PCG restart from the true residual"
    decide
  unfold solveWith
  refine (Run.records_liftM _ _).bind fun _ _ => ?_
  refine (Run.records_liftM _ _).bind fun A' hA' => ?_
  -- the matrix has the order of the right-hand side already
  obtain rfl : A = A' := by
    have heq := Run.ok_of_yields_liftM hA'
    rw [Mat.ofOrder_self] at heq
    exact Except.ok.inj heq
  refine (Run.records_record (hstart _ _)).bind fun _ _ => ?_
  refine hrun.bind fun last _ => ?_
  dsimp only
  split_ifs
  · exact (Run.records_throw _ _).bind fun _ h => absurd h Run.not_yields_throw
  · exact (Run.records_record (hend _ _)).bind fun _ _ => Run.records_pure _ _

/-- **Finite termination**: for symmetric positive definite `A` and `M` a solve succeeds after at
most `n` steps. No restart is recorded, and at every stage that is not within the tolerance the
energy and the curvature, by which a step divides, are positive. -/
theorem solveWith_computes_of_isPosDef {config : Config ℝ} {A : Mat ℝ n n} (hA : A.IsPosDef)
    (b : Vec ℝ n) {M : Preconditioner ℝ n} (hM : M.IsPosDef) (htol : 0 < config.tolerance)
    (hcap : ∀ cap ∈ config.maxIterations, n ≤ cap) :
    (∃ solution, (solveWith config A b M : Run σ ℝ _).Computes solution ∧
      solution.iterations ≤ n) ∧
    (solveWith config A b M : Run σ ℝ _).Records Problem.NotRestart ∧
    ∀ s, (config.problem A b M).Reached s →
      ((config.problem A b M).accepts s.residual = true →
        (config.problem A b M).accepts ((config.problem A b M).residualAt s.point) = true) ∧
      (¬ (config.problem A b M).accepts s.residual = true →
        0 < s.energy ∧ 0 < (config.problem A b M).curvature s) := by
  obtain ⟨P, happly, hP⟩ := hM
  have hexact : ∀ s, (config.problem A b M).Reached s → (config.problem A b M).Exact P s :=
    fun s hs => hs.exact hA happly hP htol
  refine ⟨?_, ?_, fun s hs => ⟨(hexact s hs).accepts_residualAt, fun hcarried => ?_⟩⟩
  -- the checks pass, and the norm is a real number, hence finite
  · obtain ⟨s, residual, hrun, hle⟩ := Problem.exists_computes_run (σ := σ)
      (p := config.problem A b M) hA happly hP htol (Config.le_cap hcap)
    refine ⟨⟨s.point, s.steps, residual.norm⟩, ?_, hle⟩
    refine (Run.computes_liftM (Config.validate_eq_ok.mpr htol)).bind ?_
    refine (Run.computes_liftM A.ofOrder_self).bind ?_
    refine (Run.computes_record _).bind (hrun.bind ?_)
    exact (Run.computes_record _).bind (Run.computes_pure _)
  · exact records_solveWith (Problem.records_run fun s hs => (hexact s hs).accepts_residualAt)
  · have hr := Problem.ne_zero_of_not_accepts htol hcarried
    exact ⟨(hexact s hs).energy_pos hP hr, (hexact s hs).curvature_pos hA hP hr⟩

/-- A diagonal system of two unknowns with a diagonal preconditioner is solved in two steps. -/
theorem solveWith_computes_diagonal :
    (∃ solution, (solveWith {} (Mat.diagonal (#v[1, 2] : Vec ℝ 2)) (#v[1, 1] : Vec ℝ 2)
      (Preconditioner.diagonal (#v[3, 1] : Vec ℝ 2) 2) : Run Unit ℝ _).Computes solution ∧
      solution.iterations ≤ 2) ∧
    (solveWith {} (Mat.diagonal (#v[1, 2] : Vec ℝ 2)) (#v[1, 1] : Vec ℝ 2)
      (Preconditioner.diagonal (#v[3, 1] : Vec ℝ 2) 2) : Run Unit ℝ _).Records
      Problem.NotRestart := by
  have hA : (Mat.diagonal (#v[1, 2] : Vec ℝ 2)).IsPosDef := by
    apply Mat.isPosDef_diagonal
    intro i
    fin_cases i <;> simp
  have hM : (Preconditioner.diagonal (#v[3, 1] : Vec ℝ 2) 2).IsPosDef := by
    apply Preconditioner.diagonal_isPosDef
    intro i
    fin_cases i <;> simp
  have htol : (0 : ℝ) < ({} : Config ℝ).tolerance := by
    show (0 : ℝ) < 1e-6
    norm_num
  -- the default has no cap of its own
  have hcap : ∀ cap ∈ ({} : Config ℝ).maxIterations, 2 ≤ cap := by
    intro cap h
    cases h
  obtain ⟨hsolution, hrecords, _⟩ :=
    solveWith_computes_of_isPosDef (σ := Unit) hA (#v[1, 1] : Vec ℝ 2) hM htol hcap
  exact ⟨hsolution, hrecords⟩

end ConjugateGradient

end Downhill
