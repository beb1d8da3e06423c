import Downhill.Objective.Separable
import Downhill.Proofs.Exact.Quadratic
import Mathlib.Analysis.Calculus.Deriv.Mul
import Mathlib.Analysis.Calculus.FDeriv.Pi

/-!
# Exact separable functions

In exact arithmetic the derivative of a polynomial, which is taken on the coefficients, is that of
the function (`Polynomial.hasDerivAt_eval`). So a separable objective evaluates its value, gradient
and Hessian (`Separable.evaluatesTwice`), and the last two are the derivatives of the first
(`Separable.hasGradientAt`, `Separable.hasFDerivAt_gradient`). The rules for this hold of any
functions of one coordinate each (`Separable.hasGradientAt_sum`, `Separable.hasFDerivAt_diagonal`).
-/

namespace Downhill

/-! ### Polynomials -/

namespace Polynomial

theorem eval_cons (c : ℝ) (p : Polynomial ℝ) (x : ℝ) : eval (c :: p) x = eval p x * x + c := rfl

/-- Raising all factors by one adds the polynomial itself. -/
theorem eval_scaleFrom_add_one (k : ℝ) (p : Polynomial ℝ) (x : ℝ) :
    eval (scaleFrom (k + 1) p) x = eval (scaleFrom k p) x + eval p x := by
  induction p generalizing k with
  | nil => exact (add_zero (0 : ℝ)).symm
  | cons c p ih =>
    rw [scaleFrom, scaleFrom, eval_cons, eval_cons, eval_cons, ih]
    ring

/-- The product rule for one step of Horner's rule. -/
theorem eval_derivative_cons (c : ℝ) (p : Polynomial ℝ) (x : ℝ) :
    eval (derivative (c :: p)) x = eval p.derivative x * x + eval p x := by
  cases p with
  | nil => exact (add_zero _).symm.trans (congrArg (· + 0) (zero_mul x).symm)
  | cons d p =>
    show eval (scaleFrom 1 (d :: p)) x = _
    -- the coefficients of the derivative are scaled from one on, those of its tail from two on
    rw [scaleFrom, eval_cons, eval_scaleFrom_add_one, eval_cons]
    show _ = eval (scaleFrom 1 p) x * x + _
    ring

/-- The derivative by coefficients is the derivative. -/
theorem hasDerivAt_eval (p : Polynomial ℝ) (x : ℝ) :
    HasDerivAt p.eval (p.derivative.eval x) x := by
  induction p with
  | nil => exact hasDerivAt_const x 0
  | cons c p ih =>
    -- Horner's rule: the polynomial is `p · x + c`
    have hproduct : HasDerivAt (fun y => eval p y * y + c) _ x :=
      (ih.mul (hasDerivAt_id x)).add_const c
    refine hproduct.congr_deriv ?_
    rw [eval_derivative_cons, id, mul_one]

end Polynomial

/-! ### Separable objectives -/

namespace Separable

variable {σ : Type} {n : Nat} (f : Separable ℝ n)

/-- The value at a point. -/
noncomputable def value (x : Vec ℝ n) : ℝ := ∑ i : Fin n, (f.terms.get i).eval (x.entry i)

/-- The gradient at a point. -/
noncomputable def gradient (x : Vec ℝ n) : Vec ℝ n := apply (f.terms.map .derivative) x

/-- The Hessian at a point. -/
noncomputable def hessian (x : Vec ℝ n) : Mat ℝ n n :=
  .diagonal (apply (f.terms.map fun p => p.derivative.derivative) x)

/-- The entries of polynomials that are applied to the coordinates. -/
theorem entry_apply (terms : Vector (Polynomial ℝ) n) (x : Vec ℝ n) (i : Fin n) :
    (apply terms x).entry i = (terms.get i).eval (x.entry i) := by
  show (apply terms x)[i.val] = terms[i.val].eval x[i.val]
  simp [apply]

theorem entry_apply_derivative (terms : Vector (Polynomial ℝ) n) (x : Vec ℝ n) (i : Fin n) :
    (apply (terms.map .derivative) x).entry i = (terms.get i).derivative.eval (x.entry i) := by
  show (apply (terms.map .derivative) x)[i.val] = terms[i.val].derivative.eval x[i.val]
  simp [apply]

/-- The value of a separable objective, as a sum over the coordinates. -/
theorem foldl_apply (x : Vec ℝ n) : (apply f.terms x).foldl (· + ·) 0 = f.value x := by
  have hlist : (apply f.terms x).foldl (· + ·) 0 = (apply f.terms x).toList.foldl (· + ·) 0 := by
    simp [Vector.foldl, Vector.toList]
  rw [hlist, foldl_add_eq, zero_add, Vec.sum_toList]
  simp only [entry_apply]
  rfl

/-- A separable objective evaluates its value, its gradient and its diagonal Hessian. -/
theorem evaluatesTwice :
    (f.objective n : Objective σ ℝ n).EvaluatesTwice f.value f.gradient f.hessian where
  value x := (Run.computes_liftM x.ofLength_self).bind (f.foldl_apply x ▸ Run.computes_pure _)
  gradient x :=
    (Run.computes_liftM x.ofLength_self).bind (Run.computes_liftM (f.gradient x).fit_self)
  hessian x := (Run.computes_liftM x.ofLength_self).bind (Run.computes_pure _)

/-! ### Functions of one coordinate each -/

/-- The entry with index `i` as a linear functional. -/
noncomputable def coordinate (i : Fin n) : Vec ℝ n →L[ℝ] ℝ :=
  LinearMap.toContinuousLinearMap
    { toFun := fun v => v.entry i
      map_add' := fun v w => congrFun (map_add (Vec.entries n) v w) i
      map_smul' := fun c v => congrFun (map_smul (Vec.entries n) c v) i }

section Coordinatewise

variable {φ : Fin n → ℝ → ℝ} {g x : Vec ℝ n}

/-- A function of one coordinate has a derivative that only looks at this coordinate. -/
theorem hasFDerivAt_entry {ψ : ℝ → ℝ} {c : ℝ} {i : Fin n} (h : HasDerivAt ψ c (x.entry i)) :
    HasFDerivAt (fun y : Vec ℝ n => ψ (y.entry i)) (c • coordinate i) x := by
  have hentry : HasDerivAt ψ c (coordinate i x) := h
  exact hentry.comp_hasFDerivAt x (coordinate i).hasFDerivAt

/-- A sum of functions of one coordinate each has their derivatives as its gradient. -/
theorem hasGradientAt_sum (h : ∀ i, HasDerivAt (φ i) (g.entry i) (x.entry i)) :
    HasGradientAt (fun y : Vec ℝ n => ∑ i, φ i (y.entry i)) g x := by
  have hsum := HasFDerivAt.fun_sum fun i (_ : i ∈ Finset.univ) => hasFDerivAt_entry (h i)
  rw [hasGradientAt_iff_hasFDerivAt]
  refine hsum.congr_fderiv ?_
  ext v
  rw [InnerProductSpace.toDual_apply_apply, Vec.inner_eq_dot, Vec.dot_eq_sum]
  simp only [sum_apply, smul_apply]
  rfl

/-- A map whose entries are functions of one coordinate each has a diagonal derivative. -/
theorem hasFDerivAt_diagonal {G : Vec ℝ n → Vec ℝ n}
    (hG : ∀ y i, (G y).entry i = φ i (y.entry i))
    (h : ∀ i, HasDerivAt (φ i) (g.entry i) (x.entry i)) :
    HasFDerivAt G (Mat.diagonal g).toLin.toContinuousLinearMap x := by
  -- a map into vectors is differentiated entry by entry
  rw [← (Vec.entries n).toContinuousLinearEquiv.comp_hasFDerivAt_iff, hasFDerivAt_pi']
  intro i
  have hentry := hasFDerivAt_entry (h i)
  rw [← funext fun y => hG y i] at hentry
  refine hentry.congr_fderiv ?_
  ext v
  show g[i.val] * v[i.val] = (Mat.diagonal g * v)[i.val]
  rw [Mat.getElem_diagonal_mulVec]

end Coordinatewise

/-! ### The derivatives -/

/-- The gradient of a separable objective is the true one. -/
theorem hasGradientAt (x : Vec ℝ n) : HasGradientAt f.value (f.gradient x) x := by
  refine hasGradientAt_sum fun i => ?_
  rw [gradient, entry_apply_derivative]
  exact Polynomial.hasDerivAt_eval _ _

/-- Polynomials that are applied to one coordinate each have a diagonal derivative. -/
theorem hasFDerivAt_apply (terms : Vector (Polynomial ℝ) n) (x : Vec ℝ n) :
    HasFDerivAt (apply terms)
      (Mat.diagonal (apply (terms.map .derivative) x)).toLin.toContinuousLinearMap x := by
  refine hasFDerivAt_diagonal (entry_apply terms) fun i => ?_
  rw [entry_apply_derivative]
  exact Polynomial.hasDerivAt_eval _ _

/-- The Hessian of a separable objective is the true one. -/
theorem hasFDerivAt_gradient (x : Vec ℝ n) :
    HasFDerivAt f.gradient (f.hessian x).toLin.toContinuousLinearMap x := by
  have hderiv := hasFDerivAt_apply (f.terms.map .derivative) x
  rwa [Vector.map_map] at hderiv

end Separable

end Downhill
