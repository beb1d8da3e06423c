import Downhill.Proofs.Exact.Separable
import Downhill.Proofs.Method.AffineGradient
import Downhill.Proofs.Method.Decrease
import Mathlib.Analysis.Calculus.Deriv.MeanValue
import Mathlib.Analysis.InnerProductSpace.Calculus

/-!
# Newton descent and the growth of the curvature

Newton descent takes the full step, so nothing keeps its values from increasing
(`minimize_not_monotone`: the curvature may grow along the step, which then goes too far). The value
does not increase where the curvature along the step stays below twice the curvature at its start,
less the share of the linear solve, which is not exact (`Moderate`).

* `minimize_isMonotone`: a run whose steps are moderate records values that never increase. All
  runs are of this kind on an objective whose curvatures lie between `m` and `M` with
  `11 M ≤ 18 m`.
-/

namespace Downhill

variable {σ : Type} {n : Nat}

/-! ### Moderate steps -/

/-- The curvature along the step `d` from `x` is at most twice that at `x`, less a multiple of the
tolerance `δ` of the linear solve. -/
structure Moderate (H : Vec ℝ n → Mat ℝ n n) (δ : ℝ) (x d : Vec ℝ n) : Prop where
  curvature_le : ∀ t ∈ Set.Icc (0 : ℝ) 1,
    d.dot (H (x + t • d) * d) ≤ 2 * (d.dot (H x * d) - δ * ‖d‖)

/-- A bound of the derivative on the unit interval. -/
theorem sub_le_of_hasDerivAt_le {φ ψ : ℝ → ℝ} {K u : ℝ} (hφ : ∀ t, HasDerivAt φ (ψ t) t)
    (hψ : ∀ t ∈ Set.Icc (0 : ℝ) u, ψ t ≤ K) (hu : 0 ≤ u) : φ u - φ 0 ≤ K * u := by
  have hle := (convex_Icc 0 u).image_sub_le_mul_sub_of_deriv_le
    (fun t _ => (hφ t).continuousAt.continuousWithinAt)
    (fun t _ => (hφ t).differentiableAt.differentiableWithinAt)
    (fun t ht => (hφ t).deriv ▸ hψ t (interior_subset ht))
    0 (Set.left_mem_Icc.mpr hu) u (Set.right_mem_Icc.mpr hu) hu
  rwa [sub_zero] at hle

section Calculus

variable {F : Vec ℝ n → ℝ} {G : Vec ℝ n → Vec ℝ n} {H : Vec ℝ n → Mat ℝ n n} {x d : Vec ℝ n}
  {δ : ℝ} (hF : ∀ y, HasGradientAt F (G y) y)
  (hG : ∀ y, HasFDerivAt G (H y).toLin.toContinuousLinearMap y)

include hG

/-- The derivative of the slope along a ray is the curvature. -/
theorem hasDerivAt_slope (x d : Vec ℝ n) (t : ℝ) :
    HasDerivAt (fun u : ℝ => (G (x + u • d)).dot d) (d.dot (H (x + t • d) * d)) t := by
  have hline : HasDerivAt (fun u : ℝ => x + u • d) d t := by
    simpa using ((hasDerivAt_id t).smul_const d).const_add x
  have hslope := ((hG (x + t • d)).comp_hasDerivAt t hline).inner ℝ (hasDerivAt_const t d)
  rw [inner_zero_right, zero_add, real_inner_comm] at hslope
  exact hslope

include hF

/-- A moderate step to where the linear solve leaves a residual within its tolerance does not
increase the value. -/
theorem Moderate.value_le (h : Moderate H δ x d) (hd : ‖H x * d + G x‖ ≤ δ) :
    F (x + d) ≤ F x := by
  set K := 2 * (d.dot (H x * d) - δ * ‖d‖) with hK
  set φ := fun t : ℝ => F (x + t • d) with hφ
  set ψ := fun t : ℝ => (G (x + t • d)).dot d with hψ
  -- the residual tilts the slope at the start by no more than its share
  have hslope : ψ 0 ≤ -(K / 2) := by
    have hresidual : inner ℝ (H x * d + G x) d ≤ δ * ‖d‖ :=
      (real_inner_le_norm _ _).trans (mul_le_mul_of_nonneg_right hd (norm_nonneg d))
    rw [inner_add_left, real_inner_comm, Vec.inner_eq_dot, Vec.inner_eq_dot] at hresidual
    rw [hψ, hK]
    dsimp only
    rw [zero_smul, add_zero]
    linarith only [hresidual]
  -- up to `t` the slope grows by at most `K t`
  have hgrows : ∀ t ∈ Set.Icc (0 : ℝ) 1, ψ t ≤ ψ 0 + K * t := by
    intro t ht
    have hle := sub_le_of_hasDerivAt_le (hasDerivAt_slope hG x d)
      (fun u hu => h.curvature_le u ⟨hu.1, hu.2.trans ht.2⟩) ht.1
    linarith only [hle]
  -- the value less the parabola that bounds it
  have hgap : ∀ t, HasDerivAt (fun u => φ u - (ψ 0 * u + K / 2 * u ^ 2))
      (ψ t - (ψ 0 + K * t)) t := by
    intro t
    have hparabola :=
      ((hasDerivAt_id t).const_mul (ψ 0)).add ((hasDerivAt_pow 2 t).const_mul (K / 2))
    refine ((hasDerivAt_along (hF (x + t • d))).sub hparabola).congr_deriv ?_
    rw [hψ]
    push_cast
    ring
  -- at one the parabola has fallen by `-ψ(0) - K / 2`, which is not negative
  have hle := sub_le_of_hasDerivAt_le hgap (fun t ht => sub_nonpos.mpr (hgrows t ht)) zero_le_one
  have hends : φ 0 = F x ∧ φ 1 = F (x + d) := by
    rw [hφ]
    dsimp only
    rw [zero_smul, add_zero, one_smul]
    exact ⟨rfl, rfl⟩
  rw [hends.1, hends.2] at hle
  linarith only [hle, hslope]

end Calculus

/-! ### Bounded curvatures -/

/-- The matrices are symmetric, and their curvatures lie between `m` and `M`. -/
structure CurvatureBounds (H : Vec ℝ n → Mat ℝ n n) (m M : ℝ) : Prop where
  symm : ∀ y, (H y).IsSymm
  lower : ∀ y v : Vec ℝ n, m * ‖v‖ ^ 2 ≤ v.dot (H y * v)
  upper : ∀ y v : Vec ℝ n, v.dot (H y * v) ≤ M * ‖v‖ ^ 2

namespace CurvatureBounds

variable {H : Vec ℝ n → Mat ℝ n n} {m M δ : ℝ} {x d g : Vec ℝ n}

/-- The upper bound also bounds the length of the images. -/
theorem norm_mulVec_le (h : CurvatureBounds H m M) (hm : 0 < m) (x v : Vec ℝ n) :
    ‖H x * v‖ ≤ M * ‖v‖ := by
  by_cases hv : v = 0
  · rw [hv, ← Mat.toLin_apply, map_zero, norm_zero, mul_zero]
  have hpos : 0 < ‖v‖ ^ 2 := by positivity
  have hM : 0 < M := by
    have hle := (h.lower x v).trans (h.upper x v)
    exact hm.trans_le (le_of_mul_le_mul_right hle hpos)
  -- the curvature at `M v - A v`, where `A` is the matrix, is not negative
  set A := (H x).toLin with hA
  have hsymm : inner ℝ v (A (A v)) = inner ℝ (A v) (A v) :=
    ((h.symm x).isSymmetric_toLin v (A v)).symm
  have hcross : 0 ≤ inner ℝ (M • v - A v) (A (M • v - A v)) :=
    (mul_nonneg hm.le (sq_nonneg _)).trans (h.lower x (M • v - A v))
  rw [map_sub, map_smul, inner_sub_left, inner_sub_right, inner_sub_right, real_inner_smul_left,
    real_inner_smul_left, real_inner_smul_right, real_inner_smul_right, hsymm,
    real_inner_self_eq_norm_sq] at hcross
  -- both terms of the expansion are curvatures
  have himage : inner ℝ (A v) (A (A v)) ≤ M * ‖A v‖ ^ 2 := h.upper x (A v)
  have hcurvature : inner ℝ v (A v) ≤ M * ‖v‖ ^ 2 := h.upper x v
  have hsquare : M * ‖A v‖ ^ 2 ≤ M * (M * ‖v‖) ^ 2 := by
    have hscaled := mul_le_mul_of_nonneg_left hcurvature (sq_nonneg M)
    linarith only [hcross, himage, hscaled]
  exact (pow_le_pow_iff_left₀ (norm_nonneg _) (by positivity) two_ne_zero).mp
    (le_of_mul_le_mul_left hsquare hM)

/-- Where the curvatures do not spread too far and the linear solve leaves at most a tenth of the
gradient, steps are moderate. -/
theorem moderate (h : CurvatureBounds H m M) (hm : 0 < m) (hratio : 11 * M ≤ 18 * m)
    (hd : ‖H x * d + g‖ ≤ δ) (hg : 10 * δ ≤ ‖g‖) : Moderate H δ x d := by
  refine ⟨fun t _ => ?_⟩
  -- the gradient is ten times the residual, so the image of the step is long
  have hlong : 9 * δ ≤ M * ‖d‖ := by
    have hsplit : ‖g‖ ≤ ‖H x * d + g‖ + ‖H x * d‖ := by
      have hle := norm_sub_le (H x * d + g) (H x * d)
      rwa [add_sub_cancel_left] at hle
    have himage := h.norm_mulVec_le hm x d
    linarith only [hsplit, himage, hd, hg]
  have hshare : 9 * (δ * ‖d‖) ≤ M * ‖d‖ ^ 2 := by
    have hle := mul_le_mul_of_nonneg_right hlong (norm_nonneg d)
    linarith only [hle]
  have hspread : 11 * (M * ‖d‖ ^ 2) ≤ 18 * (m * ‖d‖ ^ 2) := by
    have hle := mul_le_mul_of_nonneg_right hratio (sq_nonneg ‖d‖)
    linarith only [hle]
  linarith only [h.upper (x + t • d) d, h.lower x d, hshare, hspread]

end CurvatureBounds

/-! ### Histories that do not increase -/

/-- A value that is no greater than the last one may be added. -/
theorem nonincreasing_concat {α : Type} [Scalar α] :
    ∀ {values : List α} {v w : α}, nonincreasing values = true → values.getLast? = some v →
      w ≤ v → nonincreasing (values ++ [w]) = true
  | [], _, _, _, hlast, _ => by cases hlast
  | [a], v, w, _, hlast, hle => by
    cases hlast
    simpa [nonincreasing] using hle
  | a :: b :: rest, v, w, h, hlast, hle => by
    rw [nonincreasing, Bool.and_eq_true] at h
    rw [List.getLast?_cons_cons] at hlast
    rw [List.cons_append, List.cons_append, nonincreasing, Bool.and_eq_true]
    exact ⟨h.1, nonincreasing_concat h.2 hlast hle⟩

namespace Newton

section Steps

variable {α : Type} [Scalar α] {config : Config α} {f : Objective σ α n} {x : Vec α n} {k : Nat}
  {s : State α n}

/-- Where no step increases the value, no recorded value exceeds the one before it. -/
theorem nonincreasing_of_holds
    (hstep : ∀ k s t, (routine config f x).Holds k s → (routine config f x).loop.continues s →
      (step config f s).Yields t → t.value ≤ s.value)
    (h : (routine config f x).Holds k s) : nonincreasing s.history.toList = true := by
  -- by induction on the iterations
  refine h.invariant (I := fun _ s => nonincreasing s.history.toList = true) ?_ ?_
  · intro s hs
    obtain ⟨value, gradient, -, -, rfl⟩ := start_cases (start_of_yields_routine hs).2
    rfl
  · intro k s t hs hmonotone hgo ht
    have hle := hstep k s t hs hgo ht
    have hlast := (faithful_of_holds hs).recorded.back
    obtain ⟨_, _, value, _, _, _, _, _, rfl⟩ := step_cases ht
    show nonincreasing (s.history.push value).toList = true
    rw [Array.toList_push]
    exact nonincreasing_concat hmonotone (by rwa [Array.getLast?_toList]) hle

end Steps

variable {config : Config ℝ} {f : Objective σ ℝ n} {F : Vec ℝ n → ℝ} {G : Vec ℝ n → Vec ℝ n}
  {H : Vec ℝ n → Mat ℝ n n} {x : Vec ℝ n} {s t : State ℝ n} {k : Nat}

/-- The steps of a run solve the Newton system up to the tolerance of the linear solve. -/
theorem residual_of_step (hf : f.Represents F G H) (hs : (routine config f x).Holds k s)
    (h : (step config f s).Yields t) :
    ‖H s.point * (t.point - s.point) + G s.point‖ ≤ config.solveTolerance := by
  have hgradient := hf.gradient (faithful_of_holds hs).gradient_at
  obtain ⟨A, d, value, gradient, hA, hd, _, _, rfl⟩ := step_cases h
  obtain rfl := hf.hessian hA
  have hmoved : (s.moveTo (s.point + d.point) value gradient).point - s.point = d.point :=
    add_sub_cancel_left s.point d.point
  rw [hmoved, ← hgradient]
  exact norm_mulVec_add_le_of_yields_solve hd

/-- A moderate step of a run does not increase the value. -/
theorem value_le_of_step (hf : f.Represents F G H) (hF : ∀ y, HasGradientAt F (G y) y)
    (hG : ∀ y, HasFDerivAt G (H y).toLin.toContinuousLinearMap y)
    (hs : (routine config f x).Holds k s) (h : (step config f s).Yields t)
    (hmoderate : Moderate H config.solveTolerance s.point (t.point - s.point)) :
    t.value ≤ s.value := by
  have hle := hmoderate.value_le hF hG (residual_of_step hf hs h)
  have hnext : t.value = F t.point := by
    obtain ⟨_, _, _, _, _, _, hvalue, _, rfl⟩ := step_cases h
    exact hf.value hvalue
  rw [add_sub_cancel] at hle
  rwa [hnext, hf.value (faithful_of_holds hs).recorded.value_at]

/-- **Moderate steps**: a run all of whose steps are moderate records values that never increase.
Where the curvatures of the objective do not spread too far, every run is of this kind. -/
theorem minimize_isMonotone (hf : f.Represents F G H) (hF : ∀ y, HasGradientAt F (G y) y)
    (hG : ∀ y, HasFDerivAt G (H y).toLin.toContinuousLinearMap y) :
    ((∀ k s t, (routine config f x).Holds k s → config.tolerance < s.gradient.norm →
        (step config f s).Yields t →
        Moderate H config.solveTolerance s.point (t.point - s.point)) →
      ∀ outcome, (minimize config f x).Yields outcome → outcome.isMonotone = true) ∧
    ∀ m M, 0 < m → 11 * M ≤ 18 * m → CurvatureBounds H m M →
      ∀ outcome, (minimize config f x).Yields outcome → outcome.isMonotone = true := by
  have hruns : (∀ k s t, (routine config f x).Holds k s → config.tolerance < s.gradient.norm →
        (step config f s).Yields t →
        Moderate H config.solveTolerance s.point (t.point - s.point)) →
      ∀ outcome, (minimize config f x).Yields outcome → outcome.isMonotone = true := by
    intro hmoderate outcome h
    obtain ⟨k, -, last, hlast, -, rfl⟩ := minimize_cases h
    exact nonincreasing_of_holds (fun k s t hs hgo ht =>
      value_le_of_step hf hF hG hs ht (hmoderate k s t hs hgo ht)) hlast
  refine ⟨hruns, fun m M hm hratio hbounds => hruns fun k s t hs hgo ht => ?_⟩
  -- above the tolerance the gradient is ten times the tolerance of the solve
  refine hbounds.moderate hm hratio (residual_of_step hf hs ht) ?_
  have htenth : config.solveTolerance ≤ 0.1 * config.tolerance := by
    rw [Config.solveTolerance_eq]
    exact min_le_right _ _
  rw [hf.gradient (faithful_of_holds hs).gradient_at, Vec.norm_eq] at hgo
  linarith only [htenth, hgo]

/-! ### A function whose curvature grows -/

/-- The function `x + x² / 2 + 3 x⁴ / 4` of one variable. -/
noncomputable def tilted : Separable ℝ 1 := ⟨#v[[0, 1, 0.5, 0, 0.75]]⟩

theorem tilted_value (u : ℝ) : tilted.value #v[u] = u + u ^ 2 / 2 + 3 / 4 * u ^ 4 := by
  simp [Separable.value, tilted, Polynomial.eval, Vector.get]
  ring

theorem tilted_gradient (u : ℝ) : tilted.gradient #v[u] = #v[1 + u + 3 * u ^ 3] := by
  rw [Vec.eq_singleton (tilted.gradient #v[u])]
  simp [Separable.gradient, Separable.apply, tilted, Polynomial.derivative, Polynomial.scaleFrom,
    Polynomial.eval]
  ring

theorem tilted_hessian (u : ℝ) : tilted.hessian #v[u] = Mat.diagonal #v[1 + 9 * u ^ 2] := by
  rw [Separable.hessian, Vec.eq_singleton (Separable.apply _ _)]
  refine congrArg (fun a => Mat.diagonal (#v[a] : Vec ℝ 1)) ?_
  simp [Separable.apply, tilted, Polynomial.derivative, Polynomial.scaleFrom, Polynomial.eval]
  ring

theorem tilted_isPosDef (y : Vec ℝ 1) : (tilted.hessian y).IsPosDef := by
  obtain ⟨u, rfl⟩ : ∃ u, y = #v[u] := ⟨_, Vec.eq_singleton y⟩
  rw [tilted_hessian]
  refine Mat.isPosDef_diagonal fun i => ?_
  obtain rfl : i = 0 := Subsingleton.elim _ _
  show 0 < 1 + 9 * u ^ 2
  positivity

theorem tilted_hessian_mulVec (u d : ℝ) :
    tilted.hessian #v[u] * (#v[d] : Vec ℝ 1) = #v[(1 + 9 * u ^ 2) * d] := by
  rw [tilted_hessian, Vec.eq_singleton (Mat.diagonal _ * _), Mat.getElem_diagonal_mulVec]
  rfl

/-- The stage of a run on this function that is at the point `x`. -/
noncomputable def tiltedStage (x : Vec ℝ 1) (iterations : Nat) (history : Array ℝ) : State ℝ 1 :=
  ⟨x, tilted.value x, tilted.gradient x, iterations, iterations + 1, history⟩

/-- A step on this function is exact, because its Newton system has order one. -/
theorem computes_step_tilted {config : Config ℝ} (hvalid : config.validate = .ok ()) {u w : ℝ}
    {i : Nat} {history : Array ℝ} (hw : (1 + 9 * u ^ 2) * (w - u) = -(1 + u + 3 * u ^ 3)) :
    (step config (tilted.objective 1 : Objective σ ℝ 1) (tiltedStage #v[u] i history)).Computes
      (tiltedStage #v[w] (i + 1) (history.push (tilted.value #v[w]))) := by
  have hsystem : tilted.hessian #v[u] * (#v[w - u] : Vec ℝ 1) = -tilted.gradient #v[u] := by
    rw [tilted_hessian_mulVec, hw, tilted_gradient, Vec.singleton_neg]
  have hstep := computes_step_of_mulVec_eq (σ := σ) (s := tiltedStage #v[u] i history)
    tilted.evaluatesTwice hvalid (tilted_isPosDef _) (Mat.noFill_of_le_two (by decide) _) hsystem
  have hpoint : (tiltedStage #v[u] i history).point + #v[w - u] = #v[w] := by
    show (#v[u] : Vec ℝ 1) + #v[w - u] = #v[w]
    rw [Vec.singleton_add, add_sub_cancel]
  rwa [hpoint] at hstep

/-- A run on this function goes on where its slope is steeper than the tolerance. -/
theorem continues_tiltedStage {config : Config ℝ} {u : ℝ} {i : Nat} {history : Array ℝ} :
    (loop config (tilted.objective 1 : Objective σ ℝ 1)).continues (tiltedStage #v[u] i history) ↔
      config.tolerance < |1 + u + 3 * u ^ 3| := by
  show config.tolerance < (tilted.gradient #v[u]).norm ↔ _
  rw [tilted_gradient, Vec.norm_eq, Vec.norm_singleton]

/-- One more step of a run on this function. -/
theorem computes_run_tilted {config : Config ℝ} (hvalid : config.validate = .ok ()) {u w : ℝ}
    {cap remaining i : Nat} {history : Array ℝ} {last : State ℝ 1}
    (hgo : config.tolerance < |1 + u + 3 * u ^ 3|)
    (hw : (1 + 9 * u ^ 2) * (w - u) = -(1 + u + 3 * u ^ 3))
    (hrest : ((loop config (tilted.objective 1 : Objective σ ℝ 1)).run cap remaining
      (tiltedStage #v[w] (i + 1) (history.push (tilted.value #v[w])))).Computes last) :
    ((loop config (tilted.objective 1 : Objective σ ℝ 1)).run cap (remaining + 1)
      (tiltedStage #v[u] i history)).Computes last :=
  Loop.computes_run_of_step (continues_tiltedStage.mpr hgo) (computes_step_tilted hvalid hw) hrest

/-- A run on this function ends where its slope is flat enough. -/
theorem computes_run_tilted_of_le {config : Config ℝ} {u : ℝ} {cap remaining i : Nat}
    {history : Array ℝ} (hend : |1 + u + 3 * u ^ 3| ≤ config.tolerance) :
    ((loop config (tilted.objective 1 : Objective σ ℝ 1)).run cap remaining
      (tiltedStage #v[u] i history)).Computes (tiltedStage #v[u] i history) := by
  rw [Loop.run_of_not_continues (mt continues_tiltedStage.mp (not_lt.mpr hend))]
  exact Run.computes_pure _

/-- The settings with the tolerance `1 / 10`, which is already met near the minimum at about
`-0.54`. -/
noncomputable def lenient : Config ℝ := { tolerance := 0.1 }

theorem lenient_validate : lenient.validate = .ok () :=
  Config.validate_tolerance (by norm_num)

/-- At `-7/13` the slope is within the tolerance. -/
theorem lenient_end_le : |1 + (-7 / 13) + 3 * (-7 / 13) ^ 3| ≤ lenient.tolerance := by
  show _ ≤ (0.1 : ℝ)
  norm_num

/-- A run from `-1/2` makes one step, to `-7/13`. -/
theorem computes_minimize_lenient :
    (minimize lenient (tilted.objective 1 : Objective σ ℝ 1) #v[-1 / 2]).Computes
      (tiltedStage #v[-7 / 13] 1
        #[tilted.value #v[-1 / 2], tilted.value #v[-7 / 13]]).outcome := by
  refine computes_minimize_of_loop lenient_validate (computes_start tilted.evaluatesTwice _) ?_
  refine computes_run_tilted lenient_validate ?_ (by norm_num)
    (computes_run_tilted_of_le lenient_end_le)
  show (0.1 : ℝ) < _
  norm_num

/-- The only step from `-1/2` leads to `-7/13`. -/
theorem step_lenient {k : Nat} {s t : State ℝ 1}
    (hs : (routine lenient (tilted.objective 1 : Objective σ ℝ 1) #v[-1 / 2]).Holds k s)
    (hgo : (loop lenient (tilted.objective 1 : Objective σ ℝ 1)).continues s)
    (ht : (step lenient (tilted.objective 1 : Objective σ ℝ 1) s).Yields t) :
    s.point = #v[-1 / 2] ∧ t.point = #v[-7 / 13] := by
  have hsteps : ∀ {history : Array ℝ} {t : State ℝ 1},
      (step lenient (tilted.objective 1 : Objective σ ℝ 1)
        (tiltedStage #v[-1 / 2] 0 history)).Yields t →
      t = tiltedStage #v[-7 / 13] 1 (history.push (tilted.value #v[-7 / 13])) := fun h =>
    (computes_step_tilted lenient_validate (by norm_num)).eq_of_yields h
  have hends : ∀ {history : Array ℝ}, ¬ (loop lenient
      (tilted.objective 1 : Objective σ ℝ 1)).continues (tiltedStage #v[-7 / 13] 1 history) :=
    mt continues_tiltedStage.mp (not_lt.mpr lenient_end_le)
  -- a run is at its start or where its first step led to, and there it ends
  have hstages : ∃ history, s = tiltedStage #v[-1 / 2] 0 history ∨
      s = tiltedStage #v[-7 / 13] 1 history := by
    refine hs.invariant (I := fun _ s => ∃ history, s = tiltedStage #v[-1 / 2] 0 history ∨
      s = tiltedStage #v[-7 / 13] 1 history) ?_ ?_
    · intro s hs
      exact ⟨_, .inl ((computes_start tilted.evaluatesTwice _).eq_of_yields
        (start_of_yields_routine hs).2)⟩
    · rintro k s t - ⟨history, rfl | rfl⟩ hgo ht
      · exact ⟨_, .inr (hsteps ht)⟩
      · exact absurd hgo hends
  obtain ⟨history, rfl | rfl⟩ := hstages
  · rw [hsteps ht]
    exact ⟨rfl, rfl⟩
  · exact absurd hgo hends

/-- On the way from `-1/2` to `-7/13` the curvature grows from `13/4` to less than four. -/
theorem moderate_lenient {k : Nat} {s t : State ℝ 1}
    (hs : (routine lenient (tilted.objective 1 : Objective σ ℝ 1) #v[-1 / 2]).Holds k s)
    (hgo : (loop lenient (tilted.objective 1 : Objective σ ℝ 1)).continues s)
    (ht : (step lenient (tilted.objective 1 : Objective σ ℝ 1) s).Yields t) :
    Moderate tilted.hessian lenient.solveTolerance s.point (t.point - s.point) := by
  refine ⟨fun u hu => ?_⟩
  obtain ⟨hspoint, htpoint⟩ := step_lenient hs hgo ht
  have htol : lenient.solveTolerance ≤ 1e-6 := by
    rw [Config.solveTolerance_eq]
    exact min_le_left _ _
  have hlength : |(-1 / 26 : ℝ)| = 1 / 26 := by norm_num
  -- the points on the way lie between `-7/13` and `-1/2`
  have hsquare : (-1 / 2 + u * (-1 / 26)) ^ 2 ≤ (7 / 13) ^ 2 :=
    sq_le_sq' (by linarith only [hu.2]) (by linarith only [hu.1])
  have hd : t.point - s.point = #v[-1 / 26] := by
    have hentry : (-7 / 13 : ℝ) - -1 / 2 = -1 / 26 := by norm_num
    rw [hspoint, htpoint, Vec.singleton_sub, hentry]
  rw [hd, hspoint, Vec.singleton_smul, Vec.singleton_add, tilted_hessian_mulVec,
    tilted_hessian_mulVec, Vec.dot_singleton, Vec.dot_singleton, Vec.norm_singleton, hlength]
  linarith only [hsquare, htol]

/-- All curvatures of half a square are one. -/
theorem curvatureBounds_simple :
    CurvatureBounds (fun _ : Vec ℝ 1 => (Quadratic.simple 1).matrix) 1 1 := by
  have himage : ∀ v : Vec ℝ 1, v.dot ((Quadratic.simple 1 : Quadratic ℝ 1).matrix * v) =
      1 * ‖v‖ ^ 2 := by
    intro v
    show inner ℝ v ((Mat.identity : Mat ℝ 1 1).toLin v) = _
    rw [Mat.toLin_identity, LinearMap.id_apply, real_inner_self_eq_norm_sq, one_mul]
  exact ⟨fun _ => Quadratic.simple_isSymm, fun _ v => (himage v).ge, fun _ v => (himage v).le⟩

/-- The value decreases from `-1/2` to `-7/13`, and half a square has constant curvature. -/
theorem minimize_isMonotone_tilted :
    (tilted.objective 1 : Objective Unit ℝ 1).Represents tilted.value tilted.gradient
      tilted.hessian ∧
    (∀ y, HasGradientAt tilted.value (tilted.gradient y) y) ∧
    (∀ y, HasFDerivAt tilted.gradient (tilted.hessian y).toLin.toContinuousLinearMap y) ∧
    (∀ k s t, (routine lenient (tilted.objective 1 : Objective Unit ℝ 1) #v[-1 / 2]).Holds k s →
      lenient.tolerance < s.gradient.norm →
      (step lenient (tilted.objective 1 : Objective Unit ℝ 1) s).Yields t →
      Moderate tilted.hessian lenient.solveTolerance s.point (t.point - s.point)) ∧
    (∃ outcome, (minimize lenient (tilted.objective 1 : Objective Unit ℝ 1) #v[-1 / 2]).Yields
      outcome ∧ outcome.iterations = 1 ∧ outcome.isMonotone = true) ∧
    CurvatureBounds (fun _ => (Quadratic.simple 1).matrix) 1 1 ∧
    ∃ outcome, (minimize {} ((Quadratic.simple 1).objective 1 : Objective Unit ℝ 1) #v[5]).Yields
      outcome ∧ outcome.iterations = 1 ∧ outcome.isMonotone = true := by
  have hrepresents := (tilted.evaluatesTwice (σ := Unit)).represents
  have hmoderate : ∀ k s t,
      (routine lenient (tilted.objective 1 : Objective Unit ℝ 1) #v[-1 / 2]).Holds k s →
      lenient.tolerance < s.gradient.norm →
      (step lenient (tilted.objective 1 : Objective Unit ℝ 1) s).Yields t →
      Moderate tilted.hessian lenient.solveTolerance s.point (t.point - s.point) :=
    fun _ _ _ hs hgo ht => moderate_lenient hs hgo ht
  have hrun := (computes_minimize_lenient (σ := Unit)).yields
  refine ⟨hrepresents, tilted.hasGradientAt, tilted.hasFDerivAt_gradient, hmoderate,
    ⟨_, hrun, rfl, ?_⟩, curvatureBounds_simple, ?_⟩
  · exact (minimize_isMonotone hrepresents tilted.hasGradientAt tilted.hasFDerivAt_gradient).1
      hmoderate _ hrun
  · obtain ⟨outcome, hcomputes, hone⟩ := (oneStep_of_hasAffineGradient (σ := Unit)
      validate_default (by decide) (Quadratic.simple 1).hasAffineGradient #v[5]).computes_simple
    refine ⟨outcome, hcomputes.yields, hone, ?_⟩
    exact (minimize_isMonotone (Quadratic.simple 1).evaluatesTwice.represents
      ((Quadratic.simple 1).hasGradientAt Quadratic.simple_isSymm)
      (Quadratic.simple 1).hasFDerivAt_gradient).2 1 1 one_pos (by norm_num)
      curvatureBounds_simple outcome hcomputes.yields

/-- The settings with the tolerance `4 / 5`. -/
noncomputable def coarse : Config ℝ := { tolerance := 0.8 }

theorem coarse_validate : coarse.validate = .ok () :=
  Config.validate_tolerance (by norm_num)

/-- A run from zero makes two steps, to minus one and to `-7/10`. -/
theorem computes_minimize_coarse :
    (minimize coarse (tilted.objective 1 : Objective σ ℝ 1) #v[0]).Computes
      (tiltedStage #v[-7 / 10] 2
        #[tilted.value #v[0], tilted.value #v[-1], tilted.value #v[-7 / 10]]).outcome := by
  refine computes_minimize_of_loop coarse_validate (computes_start tilted.evaluatesTwice _) ?_
  refine computes_run_tilted (w := -1) coarse_validate ?_ (by norm_num)
    (computes_run_tilted coarse_validate ?_ (by norm_num) (computes_run_tilted_of_le ?_))
  · show (0.8 : ℝ) < _
    norm_num
  · show (0.8 : ℝ) < _
    norm_num
  · show _ ≤ (0.8 : ℝ)
    norm_num

/-- From zero the first step leads to minus one, where the curvature is ten times that at zero and
the value `1/4` exceeds that at zero. -/
theorem minimize_not_monotone :
    (tilted.objective 1 : Objective Unit ℝ 1).EvaluatesTwice tilted.value tilted.gradient
      tilted.hessian ∧
    (∀ y, HasGradientAt tilted.value (tilted.gradient y) y) ∧
    (∀ y, HasFDerivAt tilted.gradient (tilted.hessian y).toLin.toContinuousLinearMap y) ∧
    (∀ y, (tilted.hessian y).IsPosDef) ∧ coarse.validate = .ok () ∧
    ∃ outcome, (minimize coarse (tilted.objective 1 : Objective Unit ℝ 1) #v[0]).Computes outcome ∧
      outcome.history = #[0, 1 / 4, -0.274925] ∧ outcome.isMonotone = false := by
  refine ⟨tilted.evaluatesTwice, tilted.hasGradientAt, tilted.hasFDerivAt_gradient,
    tilted_isPosDef, coarse_validate, _, computes_minimize_coarse, ?_, ?_⟩
  · show #[_, _, _] = _
    rw [tilted_value, tilted_value, tilted_value]
    norm_num
  · show nonincreasing [_, _, _] = false
    rw [nonincreasing, tilted_value, tilted_value, Bool.and_eq_false_iff]
    left
    norm_num

end Newton

end Downhill
