import Downhill.Proofs.Exact.Matrix
import Downhill.Proofs.Solve.CholeskyFactor
import Downhill.Proofs.Solve.FiniteTermination

/-!
# Systems with an incomplete Cholesky factor

* `IncompleteCholesky.factorize_solves`: in exact arithmetic, an incomplete factor that is found
  solves all systems of its order and no others. As a map of the right-hand side the solution is
  linear, symmetric and positive definite, and inverse to the product with the factor and its
  transpose.
* `ConjugateGradient.solve_computes_or_raises`: so conjugate gradients with the factor as
  preconditioner end after at most `n` steps, if there is a factor at all.

For a lower triangular `L` without a zero on the diagonal the matrix `L Lᵀ` is positive definite
(`Mat.IsLower.isPosDef_mul_transpose`), and with a matrix its inverse is positive definite as well
(`Mat.IsPosDef.inverse`).
-/

namespace Downhill

open scoped InnerProductSpace

variable {n : Nat}

namespace Mat

variable {A L : Mat ℝ n n}

/-! ### Two positive definite matrices -/

theorem inner_mul_transpose_mulVec (L : Mat ℝ n n) (x : Vec ℝ n) :
    ⟪x, (L * L.transpose) * x⟫_ℝ = ‖L.transposeMulVec x‖ ^ 2 := by
  rw [mul_transpose_mulVec, ← inner_transposeMulVec, real_inner_self_eq_norm_sq]

/-- The transpose of a triangular matrix without a zero on the diagonal sends only zero to zero. -/
theorem IsLower.eq_zero_of_transposeMulVec (hL : L.IsLower) (hdiagonal : ∀ i, L.entry i i ≠ 0)
    {x : Vec ℝ n} (hx : L.transposeMulVec x = 0) : x = 0 := by
  obtain ⟨y, -, hy⟩ := exists_solveLower hL hdiagonal x
  have hself : ⟪x, x⟫_ℝ = 0 := by
    calc ⟪x, x⟫_ℝ = ⟪x, L * y⟫_ℝ := by rw [hy]
      _ = ⟪L.transposeMulVec x, y⟫_ℝ := (inner_transposeMulVec L x y).symm
      _ = 0 := by rw [hx, inner_zero_left]
  exact inner_self_eq_zero.mp hself

theorem IsLower.isPosDef_mul_transpose (hL : L.IsLower) (hdiagonal : ∀ i, L.entry i i ≠ 0) :
    (L * L.transpose).IsPosDef where
  symm := mul_transpose_isSymm L
  pos x hx := by
    have himage : L.transposeMulVec x ≠ 0 := fun h =>
      hx (hL.eq_zero_of_transposeMulVec hdiagonal h)
    have hnorm := norm_pos_iff.mpr himage
    rw [← Vec.inner_eq_dot, inner_mul_transpose_mulVec]
    positivity

/-- The inverse of a positive definite matrix is positive definite. -/
theorem IsPosDef.inverse (hA : A.IsPosDef) : A.inverse.IsPosDef := by
  -- every vector is the image of one under `A`, and there the forms of `A` and its inverse agree
  have hform : ∀ x y : Vec ℝ n, ⟪A.inverse * x, y⟫_ℝ = ⟪A.inverse * x, A * (A.inverse * y)⟫_ℝ :=
    fun x y => by rw [hA.mulVec_inverse_mulVec y]
  -- symmetry of `A`, as a statement on products
  have hsymm : ∀ x y : Vec ℝ n, ⟪A * x, y⟫_ℝ = ⟪x, A * y⟫_ℝ := hA.symm.isSymmetric_toLin
  refine IsPosDefMap.isPosDef ⟨fun x y => ?_, fun x hx => ?_⟩
  · rw [toLin_apply, toLin_apply, hform, ← hsymm, hA.mulVec_inverse_mulVec x]
  · have hne : A.inverse * x ≠ 0 := fun h => hx <| by
      rw [← hA.mulVec_inverse_mulVec x, h, ← toLin_apply, map_zero]
    rw [toLin_apply, ← Vec.inner_eq_dot, real_inner_comm, hform, Vec.inner_eq_dot]
    exact hA.pos _ hne

end Mat

namespace IncompleteCholesky

variable {σ : Type} {A : Mat ℝ n n} {f : IncompleteCholesky ℝ n}

/-! ### Solving with a factor -/

/-- The product of the factor with its transpose is positive definite. -/
theorem Factors.isPosDef_mul_transpose (h : f.Factors A) :
    (f.factor * f.factor.transpose).IsPosDef :=
  h.lower.isPosDef_mul_transpose fun k => (h.pos k).ne'

/-- The factor solves by the inverse of its product with its transpose. -/
theorem Factors.solve_eq (h : f.Factors A) (b : Vec ℝ n) :
    f.solve b = .ok ((f.factor * f.factor.transpose).inverse * b) := by
  -- substitution finds a solution, and there is only one
  obtain ⟨z, hz, hproduct⟩ := exists_solve h.lower (fun k => (h.pos k).ne') b
  rw [← Mat.mul_transpose_mulVec] at hproduct
  rw [hz, h.isPosDef_mul_transpose.inverse_mulVec_eq hproduct]

theorem Factors.preconditioner_isPosDef (h : f.Factors A) : (f.preconditioner n).IsPosDef := by
  refine ⟨(f.factor * f.factor.transpose).inverse.toLin, fun r => ?_,
    h.isPosDef_mul_transpose.inverse.isPosDefMap_toLin⟩
  rw [preconditioner_apply, h.solve_eq, Mat.toLin_apply]

section Lengths

variable {α : Type} [Scalar α] {m : Nat} (f : IncompleteCholesky α n)

theorem solveAny_self (b : Vec α n) : f.solveAny b = f.solve b := by
  unfold solveAny
  rw [Vec.ofLength_self]
  rfl

/-- A right-hand side of another length is rejected before anything is solved. -/
theorem solveAny_of_ne (hm : m ≠ n) (b : Vec α m) :
    f.solveAny b = .error (.dimension (.length n) (.length m)) := by
  unfold solveAny Vec.ofLength
  rw [dif_neg hm]
  rfl

theorem preconditioner_apply_of_ne (hm : m ≠ n) (b : Vec α m) :
    (f.preconditioner m).apply b = .error (.dimension (.length n) (.length m)) := by
  show (do let y ← f.solveAny b; y.fit m : Except (Failure α) _) = _
  rw [solveAny_of_ne f hm b]
  rfl

end Lengths

theorem eq_of_yields_factorize {α : Type} [Scalar α] {r c : Nat} {A : Mat α r c} {increment : α}
    {f : IncompleteCholesky α r} (h : (factorize A increment : Run σ α _).Yields f) : c = r := by
  obtain ⟨_, hA, -⟩ := Run.exists_of_yields_bind h
  replace hA := Run.ok_of_yields_liftM hA
  -- a matrix of another shape is refused first
  unfold Mat.ofOrder at hA
  split at hA
  · next hshape => exact hshape.2
  · cases hA

theorem arrow_product :
    arrow 2 1 2 0 * ((arrow 2 1 2 0).transpose * (#v[0, 1, 2] : Vec ℝ 3)) = #v[6, 7, 11] := by
  have hcolumns : (arrow 2 1 2 0).transpose * (#v[0, 1, 2] : Vec ℝ 3) = #v[3, 2, 4] := by
    ext j hj
    rw [Mat.transpose_mulVec, Mat.getElem_transposeMulVec, Fin.sum_univ_three]
    obtain rfl | rfl | rfl : j = 0 ∨ j = 1 ∨ j = 2 := by omega
    all_goals norm_num [arrow, Mat.entry]
  rw [hcolumns]
  ext i hi
  rw [Mat.getElem_mulVec, Fin.sum_univ_three]
  obtain rfl | rfl | rfl : i = 0 ∨ i = 1 ∨ i = 2 := by omega
  all_goals norm_num [arrow, Mat.entry]

/-- **Factored systems**: a factor that is found solves every system of its order, as a
preconditioner too, and rejects exactly the right-hand sides of another length. The solution is a
linear, symmetric and positive definite map of the right-hand side, inverse to the product with the
factor and its transpose. -/
theorem factorize_solves {r c : Nat} {A : Mat ℝ r c} {increment : ℝ} {f : IncompleteCholesky ℝ r}
    (h : (factorize A increment : Run σ ℝ _).Yields f) :
    (∀ {m : Nat} (b : Vec ℝ m),
      (f.solveAny b = .error (.dimension (.length r) (.length m)) ↔ m ≠ r) ∧
      ((f.preconditioner m).apply b = .error (.dimension (.length r) (.length m)) ↔ m ≠ r)) ∧
    ∃ P : Vec ℝ r →ₗ[ℝ] Vec ℝ r, Mat.IsPosDefMap P ∧
      (∀ b, f.solveAny b = .ok (P b) ∧ (f.preconditioner r).apply b = .ok (P b)) ∧
      (∀ b, f.factor * (f.factor.transpose * P b) = b) ∧
      ∀ y, P (f.factor * (f.factor.transpose * y)) = y := by
  obtain rfl := eq_of_yields_factorize h
  obtain ⟨hfactors, -⟩ := factorize_factors h
  have hposDef := hfactors.isPosDef_mul_transpose
  -- both ways to apply the factor and its transpose agree
  have hproduct : ∀ y : Vec ℝ c, f.factor * (f.factor.transpose * y) =
      (f.factor * f.factor.transpose) * y := fun y => by
    rw [Mat.transpose_mulVec, Mat.mul_transpose_mulVec]
  have hsolve : ∀ b, f.solveAny b = .ok ((f.factor * f.factor.transpose).inverse * b) := fun b => by
    rw [solveAny_self, hfactors.solve_eq]
  have happly : ∀ b, (f.preconditioner c).apply b = f.solveAny b := fun b => by
    rw [preconditioner_apply, solveAny_self]
  refine ⟨fun {m} b => ⟨⟨?_, fun hm => f.solveAny_of_ne hm b⟩,
      ⟨?_, fun hm => f.preconditioner_apply_of_ne hm b⟩⟩,
    (f.factor * f.factor.transpose).inverse.toLin, hposDef.inverse.isPosDefMap_toLin,
    fun b => ⟨hsolve b, (happly b).trans (hsolve b)⟩, fun b => ?_, fun y => ?_⟩
  -- at the order of the factor there is a solution, so no failure
  · rintro herror rfl
    rw [hsolve] at herror
    cases herror
  · rintro herror rfl
    rw [happly, hsolve] at herror
    cases herror
  · rw [hproduct, Mat.toLin_apply, hposDef.mulVec_inverse_mulVec]
  · rw [hproduct, Mat.toLin_apply, hposDef.inverse_mulVec_eq rfl]

/-- The factor with shift three of a matrix that has no factor without a shift. Its product with its
transpose is not that matrix, but it solves the systems with the product all the same: the solution
for `(6, 7, 11)` is `(0, 1, 2)`. -/
theorem factorize_solves_arrow :
    (factorize (arrow 1 2 2 7) 3 : Run Unit ℝ _).Yields ⟨arrow 2 1 2 0, 3⟩ ∧
      (⟨arrow 2 1 2 0, 3⟩ : IncompleteCholesky ℝ 3).solveAny (#v[6, 7, 11] : Vec ℝ 3) =
        .ok #v[0, 1, 2] ∧
      (⟨arrow 2 1 2 0, 3⟩ : IncompleteCholesky ℝ 3).solveAny (#v[6, 7] : Vec ℝ 2) =
        .error (.dimension (.length 3) (.length 2)) := by
  have hyields : (factorize (arrow 1 2 2 7) 3 : Run Unit ℝ _).Yields ⟨arrow 2 1 2 0, 3⟩ :=
    (found_arrow.computes_factorize (by norm_num) (by decide)).yields
  obtain ⟨hlengths, P, -, hsolve, -, hinverse⟩ := factorize_solves hyields
  refine ⟨hyields, ?_, (hlengths _).1.mpr (by decide)⟩
  rw [(hsolve _).1, ← arrow_product, hinverse]

/-! ### Conjugate gradients with a factor -/

section Terminates

variable {α : Type} [Scalar α] {A : Mat α n n} {increment : α}

/-- A factorization gives the same factor from every session, or it runs out of shifts. -/
theorem factorize_computes_or_raises (hincrement : 0 < increment) :
    (∃ f, (factorize A increment : Run σ α _).Computes f) ∨
      (factorize A increment : Run σ α _).Raises (.breakdown (.shiftsExhausted attemptCap)) := by
  by_cases hnone : ∀ k < attemptCap,
      factorAt A (shiftFrom increment (firstShift A increment) k) = none
  · right
    rw [factorize_eq, if_pos hincrement]
    exact raises_attempt hnone
  · left
    push Not at hnone
    obtain ⟨k, hk, hne⟩ := hnone
    obtain ⟨L, hL⟩ := Option.ne_none_iff_exists'.mp hne
    obtain ⟨m, hm, f, hf⟩ := exists_found hL
    exact ⟨f, hf.computes_factorize hincrement (by omega)⟩

end Terminates

end IncompleteCholesky

/-- For a positive definite matrix, conjugate gradients with the incomplete factor as preconditioner
end after at most `n` steps, unless there is no shift under which a factor is found. -/
theorem ConjugateGradient.solve_computes_or_raises {σ : Type} [Inhabited σ]
    {config : ConjugateGradient.Config ℝ} {A : Mat ℝ n n} (hA : A.IsPosDef) (b : Vec ℝ n)
    (htol : 0 < config.tolerance) (hcap : ∀ cap ∈ config.maxIterations, n ≤ cap) :
    (∃ solution, (solve config A b : Run σ ℝ _).Computes solution ∧ solution.iterations ≤ n) ∨
      (solve config A b : Run σ ℝ _).Raises
        (.breakdown (.shiftsExhausted IncompleteCholesky.attemptCap)) := by
  have hvalid := Run.computes_liftM (σ := σ) (Config.validate_eq_ok.mpr htol)
  have horder := Run.computes_liftM (σ := σ) A.ofOrder_self
  rcases IncompleteCholesky.factorize_computes_or_raises (σ := σ) (A := A)
    IncompleteCholesky.standardIncrement_pos with ⟨f, hf⟩ | hraises
  · left
    -- a factor that is found is a definite preconditioner
    obtain ⟨hfactors, -⟩ := IncompleteCholesky.factorize_factors hf.yields
    obtain ⟨⟨solution, hsolution, hle⟩, -⟩ :=
      solveWith_computes_of_isPosDef (σ := σ) hA b hfactors.preconditioner_isPosDef htol hcap
    exact ⟨solution, hvalid.bind (horder.bind (hf.bind hsolution)), hle⟩
  · right
    exact hvalid.bind_raises (horder.bind_raises hraises.bind)

end Downhill
