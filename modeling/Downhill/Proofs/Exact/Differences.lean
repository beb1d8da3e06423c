import Downhill.Objective.Restricted
import Downhill.Proofs.Exact.Quadratic
import Downhill.Proofs.Objective

/-!
# Differences of quadratic functions

On a quadratic function with a symmetric matrix the differences that replace derivatives make no
error, whatever their step: a central difference quotient is the entry of the gradient
(`Quadratic.centralQuotient_eq`), and a forward difference of the gradient is the product with the
matrix (`Quadratic.computes_forwardProduct`).

* `Quadratic.differences_exact`: so the gradient by central differences, the simplex gradient and
  the products with the Hessian that only use values or gradients are those of the function; and no
  neighbour on the stencil with scale `h` is better exactly where no entry of the gradient exceeds
  `h / 2` times the diagonal entry of the matrix.
-/

namespace Downhill

variable {σ : Type} {n : Nat}

/-! ### Actions that give the entries of a vector -/

/-- If the action at each index gives the entry there, then the actions together give the vector. -/
theorem Run.computes_tabulateM {α : Type} : ∀ {n : Nat} {entry : Fin n → Run σ α α}
    {f : Fin n → α}, (∀ i, (entry i).Computes (f i)) →
      (Vec.tabulateM n entry).Computes (Vector.ofFn f) := by
  intro n
  induction n with
  | zero => exact fun _ => computes_pure _
  | succ n ih =>
    intro entry f h
    -- the last entry comes after all others
    rw [Vector.ofFn_succ]
    exact (ih fun i => h i.castSucc).bind ((h (Fin.last n)).bind (computes_pure _))

/-! ### Steps -/

theorem Scalar.epsilon_real_pos : 0 < (Scalar.epsilon : ℝ) := by
  show (0 : ℝ) < 2⁻¹ ^ 52
  positivity

theorem Scalar.differenceStep_real_pos : 0 < (Scalar.differenceStep : ℝ) :=
  Real.sqrt_pos.mpr Scalar.epsilon_real_pos

/-- To divide a vector is to multiply it. -/
theorem Vec.divBy_eq_smul (x : Vec ℝ n) (t : ℝ) : x.divBy t = t⁻¹ • x := by
  ext i hi
  rw [Vector.getElem_smul, smul_eq_mul, Vec.divBy, Vector.getElem_map, div_eq_inv_mul]

namespace Quadratic

variable (q : Quadratic ℝ n) (hq : q.matrix.IsSymm) (x v : Vec ℝ n) {h : ℝ} (i : Fin n)

/-! ### Central differences -/

section Central

include hq

/-- The value at the forward neighbour, by the Taylor expansion, which is exact. -/
theorem value_plusAt (h : ℝ) :
    q.value (x.plusAt i h) =
      q.value x + h * (q.gradient x).entry i + h ^ 2 / 2 * q.matrix.entry i i := by
  rw [Vec.plusAt_eq, q.value_add_smul hq, Vec.dot_unit, ← Mat.entry_eq_dot]

theorem value_minusAt (h : ℝ) :
    q.value (x.minusAt i h) =
      q.value x - h * (q.gradient x).entry i + h ^ 2 / 2 * q.matrix.entry i i := by
  rw [Vec.minusAt_eq, q.value_add_smul hq, Vec.dot_unit, ← Mat.entry_eq_dot]
  ring

theorem centralQuotient_eq (hh : 0 < h) :
    (q.value (x.plusAt i h) - q.value (x.minusAt i h)) / (h + h) = (q.gradient x).entry i := by
  rw [q.value_plusAt hq, q.value_minusAt hq, div_eq_iff (by linarith)]
  ring

/-- All difference quotients together are the gradient. -/
theorem computes_tabulateM_centralDifference (hh : 0 < h) :
    (Vec.tabulateM n (centralDifference (q.objective n : Objective σ ℝ n).value x h)).Computes
      (q.gradient x) := by
  have hentries : q.gradient x = Vector.ofFn (q.gradient x).entry := by
    ext i hi
    rw [Vector.getElem_ofFn]
    rfl
  rw [hentries]
  refine Run.computes_tabulateM fun i => ?_
  rw [← q.centralQuotient_eq hq x i hh]
  exact (q.evaluates.value _).bind ((q.evaluates.value _).bind (Run.computes_pure _))

theorem computes_centralGradient :
    (centralGradient (q.objective n : Objective σ ℝ n).value x).Computes (q.gradient x) :=
  q.computes_tabulateM_centralDifference hq x Scalar.differenceStep_real_pos

/-- The simplex gradient differs from it in the step alone, which is checked. -/
theorem computes_simplexGradient (hh : 0 < h) :
    (Stencil.simplexGradient (q.objective n : Objective σ ℝ n) x h).Computes (q.gradient x) := by
  have hcheck : Stencil.checkScale h = .ok () := if_pos hh
  exact (Run.computes_liftM hcheck).bind (q.computes_tabulateM_centralDifference hq x hh)

/-- Of the two neighbours in a coordinate, the one against the gradient is better unless the
curvature makes up for it. -/
theorem neighbours_le_iff (hh : 0 < h) :
    (¬ q.value (x.plusAt i h) < q.value x ∧ ¬ q.value (x.minusAt i h) < q.value x) ↔
      |(q.gradient x).entry i| ≤ 1 / 2 * h * q.matrix.entry i i := by
  have hplus : q.value (x.plusAt i h) =
      q.value x + h * ((q.gradient x).entry i + 1 / 2 * h * q.matrix.entry i i) := by
    rw [q.value_plusAt hq]
    ring
  have hminus : q.value (x.minusAt i h) =
      q.value x + h * (1 / 2 * h * q.matrix.entry i i - (q.gradient x).entry i) := by
    rw [q.value_minusAt hq]
    ring
  -- as `h` is positive, only the signs of the factors matter
  rw [hplus, hminus, not_lt, not_lt, le_add_iff_nonneg_right, le_add_iff_nonneg_right,
    mul_nonneg_iff_of_pos_left hh, mul_nonneg_iff_of_pos_left hh, abs_le, sub_nonneg,
    ← neg_le_iff_add_nonneg]

/-- The test of the stencil is that of all coordinates. -/
theorem computes_isFailure (hh : 0 < h) :
    ∃ failed, (Stencil.isFailure (q.objective n : Objective σ ℝ n) x h).Computes failed ∧
      (failed = true ↔ ∀ i, |(q.gradient x).entry i| ≤ 1 / 2 * h * q.matrix.entry i i) := by
  obtain ⟨failed, hfailed, hiff⟩ :=
    Stencil.computes_isFailure (x := x) (h := h) (q.evaluates (σ := σ)).value hh
  exact ⟨failed, hfailed, hiff.trans (forall_congr' fun i => q.neighbours_le_iff hq x i hh)⟩

end Central

/-! ### Forward differences of the gradient -/

/-- The difference quotient of an affine map along `v`. -/
theorem forwardQuotient_eq {t : ℝ} (ht : t ≠ 0) :
    (q.gradient (x + t * v) - q.gradient x).divBy t = q.matrix * v := by
  rw [Vec.divBy_eq_smul, gradient_eq, gradient_eq, add_sub_add_right_eq_sub, Vec.hmul_eq_smul,
    map_add, add_sub_cancel_left, map_smul, inv_smul_smul₀ ht]
  rfl

/-- A forward difference of an exact gradient, unless the vector is too short for one. -/
theorem computes_forwardProduct {gradient : Vec ℝ n → Run σ ℝ (Vec ℝ n)}
    (hgradient : ∀ y, (gradient y).Computes (q.gradient y)) :
    (forwardProduct gradient x v).Computes
      (if Scalar.epsilon ≤ ‖v‖ then q.matrix * v else 0) := by
  unfold forwardProduct
  rw [Vec.norm_eq]
  by_cases hsize : Scalar.epsilon ≤ ‖v‖
  · rw [if_pos hsize, if_neg (not_lt.mpr hsize)]
    -- a vector that is long enough has a step other than zero
    have hstep : Scalar.differenceStep / ‖v‖ ≠ 0 :=
      (div_pos Scalar.differenceStep_real_pos (Scalar.epsilon_real_pos.trans_le hsize)).ne'
    rw [← q.forwardQuotient_eq x v hstep]
    exact (hgradient _).bind ((hgradient _).bind (Run.computes_pure _))
  · rw [if_neg hsize, if_pos (not_le.mp hsize)]
    exact Run.computes_pure _

/-- Without a Hessian the product is a difference of the gradient. -/
theorem computes_hessianProductOf {gradient : Vec ℝ n → Run σ ℝ (Vec ℝ n)}
    (hgradient : ∀ y, (gradient y).Computes (q.gradient y)) :
    (hessianProductOf gradient (fun _ => throw (.missing .hessian)) x v).Computes
      (if Scalar.epsilon ≤ ‖v‖ then q.matrix * v else 0) := by
  -- the missing Hessian is observed, and not passed on
  have hmissing : (throw (.missing .hessian) : Run σ ℝ (AnyMat ℝ)).Raises (.missing .hessian) :=
    Run.raises_throw _
  exact hmissing.observe.bind (q.computes_forwardProduct x v hgradient)

/-! ### All of them -/

include hq in
/-- **Exactness of differences**: on a quadratic function with a symmetric matrix `A`, the gradient
by central differences and the simplex gradient of any scale are the gradient. Objectives that only
have the values of the function, or its values and gradients, multiply a vector by `A`, or replace
the product by zero where the vector is shorter than the precision. The test of a stencil with scale
`h` fails to find a better neighbour exactly if `|gᵢ| ≤ ½ h aᵢᵢ` for all entries of the gradient. -/
theorem differences_exact (hh : 0 < h) :
    (centralGradient (q.objective n : Objective σ ℝ n).value x).Computes (q.gradient x) ∧
      (Stencil.simplexGradient (q.objective n : Objective σ ℝ n) x h).Computes (q.gradient x) ∧
      ((q.objective n : Objective σ ℝ n).gradient x).Computes (q.gradient x) ∧
      ((q.objective n : Objective σ ℝ n).valueOnly.hessianProduct x v).Computes
        (if Scalar.epsilon ≤ ‖v‖ then q.matrix * v else 0) ∧
      ((q.objective n : Objective σ ℝ n).gradientOnly.hessianProduct x v).Computes
        (if Scalar.epsilon ≤ ‖v‖ then q.matrix * v else 0) ∧
      ∃ failed, (Stencil.isFailure (q.objective n : Objective σ ℝ n) x h).Computes failed ∧
        (failed = true ↔ ∀ i, |(q.gradient x).entry i| ≤ 1 / 2 * h * q.matrix.entry i i) :=
  ⟨q.computes_centralGradient hq x, q.computes_simplexGradient hq x hh, q.evaluates.gradient x,
    q.computes_hessianProductOf x v (q.computes_centralGradient hq),
    q.computes_hessianProductOf x v q.evaluates.gradient, q.computes_isFailure hq x hh⟩

/-- A bowl, where the origin is better than its stencil neighbours while `(1, 0)` has a better one,
and a vector that is long enough. -/
theorem differences_exact_bowl :
    (bowl 2 1).matrix.IsSymm ∧ (0 : ℝ) < 1 ∧
      (Stencil.simplexGradient ((bowl 2 1).objective 2 : Objective Unit ℝ 2) #v[1, 0] 1).Computes
        #v[2, 0] ∧
      (((bowl 2 1).objective 2 : Objective Unit ℝ 2).valueOnly.hessianProduct #v[1, 0]
        #v[1, 0]).Computes #v[2, 0] ∧
      (((bowl 2 1).objective 2 : Objective Unit ℝ 2).gradientOnly.hessianProduct #v[0, 0]
        0).Computes 0 ∧
      (Stencil.isFailure ((bowl 2 1).objective 2 : Objective Unit ℝ 2) #v[1, 0] 1).Computes false ∧
      (Stencil.isFailure ((bowl 2 1).objective 2 : Objective Unit ℝ 2) #v[0, 0] 1).Computes
        true := by
  have hq : (bowl 2 1).matrix.IsSymm := Mat.symmTwo_isSymm 2 0 2
  obtain ⟨-, hsimplex, -, hvalues, -, failed, hfailed, hiff⟩ :=
    differences_exact (σ := Unit) (bowl 2 1) hq #v[1, 0] #v[1, 0] one_pos
  obtain ⟨-, -, -, -, hzero, failed', hfailed', hiff'⟩ :=
    differences_exact (σ := Unit) (bowl 2 1) hq #v[0, 0] 0 one_pos
  -- a vector of length one is longer than the precision
  have hlong : Scalar.epsilon ≤ ‖(#v[1, 0] : Vec ℝ 2)‖ := by
    have hnorm : ‖(#v[1, 0] : Vec ℝ 2)‖ = 1 := by
      rw [norm_eq_sqrt_real_inner (#v[1, 0] : Vec ℝ 2), Vec.inner_eq_dot, Vec.dot_pair]
      norm_num
    rw [hnorm]
    exact pow_le_one₀ (by norm_num) (by norm_num)
  have hproduct : (bowl 2 1).matrix * (#v[1, 0] : Vec ℝ 2) = #v[2, 0] := by
    rw [bowl_matrix, Mat.symmTwo_mulVec]
    norm_num
  have hgradient : (bowl 2 1).gradient #v[1, 0] = #v[2, 0] := by
    rw [bowl_gradient]
    norm_num
  -- the first entry of the gradient is too large at `(1, 0)`
  have hbetter : failed = false := by
    rw [← Bool.not_eq_true, hiff, hgradient]
    intro hall
    have hfirst : |(2 : ℝ)| ≤ 1 / 2 * 1 * 2 := hall 0
    norm_num at hfirst
  -- and none is at the origin
  have hnone : failed' = true := by
    rw [hiff', bowl_gradient, Fin.forall_fin_two]
    constructor
    · show |(2 : ℝ) * 0| ≤ 1 / 2 * 1 * 2
      norm_num
    · show |(2 : ℝ) * 0| ≤ 1 / 2 * 1 * 2
      norm_num
  rw [hgradient] at hsimplex
  rw [if_pos hlong, hproduct] at hvalues
  rw [norm_zero, if_neg (not_le.mpr Scalar.epsilon_real_pos)] at hzero
  rw [hbetter] at hfailed
  rw [hnone] at hfailed'
  exact ⟨hq, one_pos, hsimplex, hvalues, hzero, hfailed, hfailed'⟩

end Quadratic

end Downhill
