import Downhill.Proofs.Method.InnerLoop
import Downhill.Proofs.Projection.Tangent
import Downhill.Proofs.Solve.SplitDescent

/-!
# The inner loop on active and inactive coordinates

The projection bends the path along the direction of the inner loop in active coordinates, and there
only. Let the reduced Hessian be that of a positive definite map whose form is bounded by `L ≥ 1`.
Its inner loop leaves the active part of the gradient alone, so its stages belong to a `Splitting`
(`Inner.Split`), and after the first step both slopes are steep (`Deep`). The active part of all
points is a multiple of that of the gradient.

These facts outlive the projection: over a box, the tangent of the direction descends at least `κ`
times as fast as that of steepest descent (`slope_tangent_of_deep`). Here `κ` is `1 - L / 4` or, from
`L = 2` on, `1 / L` (`decreaseFactor_ite`).
-/

namespace Downhill.ProjectedNewton

open Vec

open scoped InnerProductSpace

variable {n : Nat}

/-! ### The factor -/

/-- The descent of the inner loop is at least the part `κ` of that of steepest descent, where the
curvature of the objective is at most `L`. -/
structure DecreaseFactor (L κ : ℝ) : Prop where
  pos : 0 < κ
  le_one : κ ≤ 1
  /-- It is the descent of a step `c` of at most one half. -/
  eq_step : ∃ c, 2 * c ≤ 1 ∧ κ = c * (2 - c * L)

/-- The best step is one half or, from `L = 2` on, `1 / L`. -/
theorem decreaseFactor_ite {L : ℝ} (hL : 0 ≤ L) :
    DecreaseFactor L (if L ≤ 2 then 1 - L / 4 else 1 / L) := by
  split_ifs with h
  · exact ⟨by linarith, by linarith, 1 / 2, by norm_num, by ring⟩
  · have hpos : 0 < L := by linarith
    have hhalf : 2 * (1 / L) ≤ 1 := by
      rw [mul_one_div, div_le_one hpos]
      exact (not_le.mp h).le
    refine ⟨one_div_pos.mpr hpos, by linarith [one_div_pos.mpr hpos], 1 / L, hhalf, ?_⟩
    rw [one_div_mul_cancel hpos.ne']
    norm_num

/-! ### Stages -/

/-- A stage of the inner loop from `x`, where the gradient is `g` and the coordinates `is` are
active. -/
structure Inner.Split (R : Vec ℝ n →ₗ[ℝ] Vec ℝ n) (κ : ℝ) (is : List (Fin n)) (x g : Vec ℝ n)
    (s : Inner ℝ n) : Prop where
  splitting : ∃ S u, Splitting R g (keep is g) S (s.point - x) s.residual s.direction u
  /-- It is the first stage, or both slopes are steep. -/
  stage : s.point - x = 0 ∧ s.residual = g ∧ s.direction = -g ∨
    Deep κ g (keep is g) (s.point - x)
  keep_point : keep is (s.point - x) ∈ ℝ ∙ keep is g
  keep_residual : keep is s.residual ∈ ℝ ∙ keep is g
  keep_direction : keep is s.direction ∈ ℝ ∙ keep is g

namespace Inner.Split

variable {H R : Vec ℝ n →ₗ[ℝ] Vec ℝ n} {κ L tolerance : ℝ} {is : List (Fin n)} {x g : Vec ℝ n}
  {s : Inner ℝ n}

theorem start (R : Vec ℝ n →ₗ[ℝ] Vec ℝ n) (κ : ℝ) (is : List (Fin n)) (x g : Vec ℝ n) :
    Inner.Split R κ is x g ⟨x, g, -g, 0⟩ where
  splitting := ⟨⊥, 0, by rw [sub_self]; exact .start R g _⟩
  stage := .inl ⟨sub_self x, rfl, rfl⟩
  keep_point := by
    rw [sub_self, map_zero]
    exact Submodule.zero_mem _
  keep_residual := Submodule.mem_span_singleton_self _
  keep_direction := by
    rw [map_neg]
    exact Submodule.neg_mem _ (Submodule.mem_span_singleton_self _)

theorem advance (hH : Mat.IsPosDefMap H) (hL : 1 ≤ L) (hform : ∀ v, ⟪v, H v⟫_ℝ ≤ L * ⟪v, v⟫_ℝ)
    (hκ : DecreaseFactor L κ) (htol : 0 ≤ tolerance) (h : s.Split (reduced H is) κ is x g)
    (hr : s.residual ≠ 0) (hflat : ¬ s.Flat tolerance (reduced H is s.direction)) :
    (s.advance (reduced H is s.direction)).Split (reduced H is) κ is x g := by
  obtain ⟨c, hc, rfl⟩ := hκ.eq_step
  have hcurv := (Inner.Exact.curvature_pos htol hflat).ne'
  have hR : Mat.IsPosDefMap (reduced H is) := reduced_isPosDefMap hH
  obtain ⟨S, u, hsplit⟩ := h.splitting
  -- the map leaves active parts alone, so they remain multiples of that of the gradient
  have hresidual : keep is (s.advance (reduced H is s.direction)).residual ∈ ℝ ∙ keep is g := by
    rw [Inner.advance_residual, map_add, map_smul, keep_reduced]
    exact Submodule.add_mem _ h.keep_residual (Submodule.smul_mem _ _ h.keep_direction)
  refine ⟨?_, .inr ?_, ?_, hresidual, ?_⟩
  · rw [Inner.advance_point_sub, Inner.advance_direction]
    exact ⟨_, _, hsplit.step hR.symm hr hcurv rfl (Inner.advance_residual s _)⟩
  · rw [Inner.advance_point_sub]
    exact hsplit.deep_step hR.symm (reduced_keep g) (inner_sub_keep g g) hR.nonneg
      (inner_reduced_le hL hform) hc h.stage hr hcurv rfl (Inner.advance_residual s _)
  · rw [Inner.advance_point_sub, map_add, map_smul]
    exact Submodule.add_mem _ h.keep_point (Submodule.smul_mem _ _ h.keep_direction)
  · rw [Inner.advance_direction, map_sub, map_smul]
    exact Submodule.sub_mem _ (Submodule.smul_mem _ _ h.keep_direction) hresidual

end Inner.Split

/-! ### The tangent of the direction -/

section Tangent

variable {b : Box ℝ n} {κ : ℝ} {x g p : Vec ℝ n}

/-- The squared tangent of a direction has an inactive and an active part. -/
theorem inner_tangent_neg (b : Box ℝ n) (x g : Vec ℝ n) :
    ⟪b.tangent x (-g), b.tangent x (-g)⟫_ℝ =
      ⟪g - keep (b.activeAt x) g, g - keep (b.activeAt x) g⟫_ℝ +
        ⟪b.tangent x (-keep (b.activeAt x) g), b.tangent x (-keep (b.activeAt x) g)⟫_ℝ := by
  rw [inner_eq_add (b.activeAt x), b.tangent_sub_keep, b.keep_tangent, map_neg, neg_sub_neg,
    ← neg_sub, inner_neg_neg]

/-- The slope along a tangent has an inactive and an active part. -/
theorem inner_tangent (b : Box ℝ n) (x g p : Vec ℝ n) :
    ⟪g, b.tangent x p⟫_ℝ =
      ⟪g - keep (b.activeAt x) g, p⟫_ℝ +
        ⟪keep (b.activeAt x) g, b.tangent x (keep (b.activeAt x) p)⟫_ℝ := by
  rw [inner_eq_add (b.activeAt x), b.tangent_sub_keep, b.keep_tangent, inner_sub_right,
    inner_sub_keep, sub_zero]

/-- Where both slopes are steep and the active part of the point is a multiple of that of the
gradient, the slope along the tangent is steep. -/
theorem slope_tangent_of_deep (hκ : 0 ≤ κ) (hdeep : Deep κ g (keep (b.activeAt x) g) p)
    (hspan : keep (b.activeAt x) p ∈ ℝ ∙ keep (b.activeAt x) g) :
    κ * ⟪b.tangent x (-g), b.tangent x (-g)⟫_ℝ ≤ -⟪g, b.tangent x p⟫_ℝ := by
  obtain ⟨hpart, hwhole⟩ := hdeep
  obtain ⟨c, hc⟩ := Submodule.mem_span_singleton.mp hspan
  have hle := b.inner_self_tangent_le x (-g)
  have hslope : ⟪g, p⟫_ℝ =
      ⟪g - keep (b.activeAt x) g, p⟫_ℝ +
        c * ⟪keep (b.activeAt x) g, keep (b.activeAt x) g⟫_ℝ := by
    rw [inner_eq_add (b.activeAt x), ← hc, real_inner_smul_right, inner_sub_right, hc,
      inner_sub_keep, sub_zero]
  rw [inner_tangent b x g p, ← hc]
  set a := keep (b.activeAt x) g with ha
  rcases le_total 0 c with hpos | hneg
  · -- the active part leads up, so cutting it off can only help
    have hself : ⟪a, b.tangent x (c • a)⟫_ℝ = c * ⟪b.tangent x a, b.tangent x a⟫_ℝ := by
      rw [Box.tangent_smul hpos, real_inner_smul_right, b.inner_tangent_self]
    have hcut := mul_le_mul_of_nonneg_left (b.inner_self_tangent_le x a) hpos
    have hscaled := mul_le_mul_of_nonneg_left hle hκ
    rw [inner_neg_neg] at hscaled
    linarith
  · -- the active part is a multiple of steepest descent
    have hself : ⟪a, b.tangent x (c • a)⟫_ℝ = c * ⟪b.tangent x (-a), b.tangent x (-a)⟫_ℝ := by
      rw [← neg_smul_neg, Box.tangent_smul (neg_nonneg.mpr hneg), real_inner_smul_right,
        ← b.inner_tangent_self, inner_neg_left]
      ring
    rw [inner_tangent_neg, ← ha, hself]
    rcases le_total κ (-c) with hlong | hshort
    · have hcut : 0 ≤ ⟪b.tangent x (-a), b.tangent x (-a)⟫_ℝ := real_inner_self_nonneg
      have hscaled := mul_le_mul_of_nonneg_right hlong hcut
      linarith
    · -- a short multiple leaves most of the slope to the inactive part
      have hnorm : ⟪g, g⟫_ℝ = ⟪g - a, g - a⟫_ℝ + ⟪a, a⟫_ℝ := inner_eq_add _ g g
      have hcut := b.inner_self_tangent_le x (-a)
      have hscaled := mul_le_mul_of_nonneg_left hcut (neg_le_iff_add_nonneg.mp hshort)
      rw [inner_neg_neg] at hscaled
      rw [hnorm, hslope] at hwhole
      linarith

end Tangent

end Downhill.ProjectedNewton
