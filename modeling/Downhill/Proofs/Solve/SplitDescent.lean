import Downhill.Proofs.Solve.Conjugacy

/-!
# Descent on a part of the gradient

Conjugate gradients for an operator `A` that leaves a part `a` of the gradient `g` alone, as the
reduced Hessian leaves the active part alone. The other part is `g - a`, orthogonal to `a`. A later
use may replace what the point `p` of the iteration does to `a`, so it needs the descent on the
other part alone.

`Deep κ g a p` says that the slopes of `g - a` and of `g` at `p` are at least as steep as `κ` times
the squared norms. If the form of `A` is bounded by `L`, then after the first step
`Splitting.deep_step` gives this for `κ = s (2 - s L)`, where `s` is at most `1/2`.

The slope of `g` is that of the first step or steeper, since the points move downhill. That of
`g - a` may get flatter again. Beside `p` the invariant follows the point `u` of the subspace `S` of
former directions that is nearest to `a` in the energy of `A`. The slope of `g - a` is then the
energy of `p + u` and the product `⟪g - a, u⟫`, and bounded from below if the product is not
negative (`Splitting.le_slope_of_nonneg`). Where it is negative, Bessel's inequality for `a`
(`Splitting.bessel`) says that the last step was downhill on `g - a`, so the bound of the step
before it remains.
-/

namespace Downhill

open scoped InnerProductSpace

variable {E : Type*} [NormedAddCommGroup E] [InnerProductSpace ℝ E]

/-- The slopes at `p` of `g - a` and of `g` are steep by the factor `κ`. -/
structure Deep (κ : ℝ) (g a p : E) : Prop where
  part : κ * ⟪g - a, g - a⟫_ℝ ≤ -⟪g - a, p⟫_ℝ
  whole : κ * ⟪g, g⟫_ℝ ≤ -⟪g, p⟫_ℝ

/-- An iteration for the gradient `g` at the point `p`, where the point `u` of `S` is nearest to the
part `a` of the gradient. -/
structure Splitting (A : E →ₗ[ℝ] E) (g a : E) (S : Submodule ℝ E) (p r d u : E) : Prop where
  /-- The iteration. -/
  descending : Descending A g S p r d
  /-- The nearest point lies in `S`. -/
  mem : u ∈ S
  /-- It is nearest in the energy of `A`. -/
  nearest : ∀ v ∈ S, ⟪a - u, A v⟫_ℝ = 0

theorem Splitting.start (A : E →ₗ[ℝ] E) (g a : E) : Splitting A g a ⊥ 0 g (-g) 0 where
  descending := .start A g
  mem := Submodule.zero_mem _
  nearest v hv := by rw [(Submodule.mem_bot ℝ).mp hv, map_zero, inner_zero_right]

namespace Splitting

variable {A : E →ₗ[ℝ] E} {g a p r d u : E} {S : Submodule ℝ E}

/-- A step moves the nearest point along the direction. -/
theorem step (hA : A.IsSymmetric) (h : Splitting A g a S p r d u) (hr : r ≠ 0)
    (hcurv : ⟪d, A d⟫_ℝ ≠ 0) {t : ℝ} {r' : E} (ht : t = ⟪r, r⟫_ℝ / ⟪d, A d⟫_ℝ)
    (hr' : r' = r + t • A d) :
    Splitting A g a (S ⊔ ℝ ∙ d) (p + t • d) r' ((⟪r', r'⟫_ℝ / ⟪r, r⟫_ℝ) • d - r')
      (u + (⟪a, A d⟫_ℝ / ⟪d, A d⟫_ℝ) • d) where
  descending := h.descending.step hA hr hcurv ht hr'
  mem := Submodule.add_mem _ (Submodule.mem_sup_left h.mem)
    (Submodule.smul_mem _ _ (Conjugate.mem_sup_self S d))
  nearest v hv := by
    obtain ⟨w, hw, c, rfl⟩ := Conjugate.exists_add_smul_of_mem hv
    have hconj := h.descending.conjugate.conjugate
    -- the former directions are conjugate to `d`, and along `d` the step is the quotient
    have hold : ⟪a - (u + (⟪a, A d⟫_ℝ / ⟪d, A d⟫_ℝ) • d), A w⟫_ℝ = 0 := by
      rw [← sub_sub, inner_sub_left, h.nearest w hw, real_inner_smul_left, hconj w hw, mul_zero,
        sub_zero]
    have hu : ⟪u, A d⟫_ℝ = 0 := by
      rw [← hA, real_inner_comm, hconj u h.mem]
    have hnew : ⟪a - (u + (⟪a, A d⟫_ℝ / ⟪d, A d⟫_ℝ) • d), A d⟫_ℝ = 0 := by
      rw [inner_sub_left, inner_add_left, real_inner_smul_left, hu, zero_add,
        div_mul_cancel₀ _ hcurv, sub_self]
    rw [map_add, map_smul, inner_add_right, real_inner_smul_right, hold, hnew, mul_zero, add_zero]

section Fixed

variable (hA : A.IsSymmetric) (ha : A a = a)

include hA ha

/-- On `S` the image of the nearest point is `a`. -/
theorem inner_image_nearest (h : Splitting A g a S p r d u) {v : E} (hv : v ∈ S) :
    ⟪A u, v⟫_ℝ = ⟪a, v⟫_ℝ := by
  have hnear := h.nearest v hv
  rw [inner_sub_left, ← hA a, ha, ← hA u] at hnear
  linarith

/-- **Bessel's inequality** for `a`, the former directions and the residual. -/
theorem bessel (h : Splitting A g a S p r d u) (hr : r ≠ 0) :
    ⟪a, u⟫_ℝ + -⟪a, d⟫_ℝ / ⟪r, r⟫_ℝ * ⟪a, r⟫_ℝ ≤ ⟪a, a⟫_ℝ := by
  have hconj := h.descending.conjugate
  set c := -⟪a, d⟫_ℝ / ⟪r, r⟫_ℝ with hc
  set w := A u + c • r with hw
  have hself : ⟪r, r⟫_ℝ ≠ 0 := inner_self_ne_zero.mpr hr
  -- `w` is the projection of `a` to the space that `S` and the residual span
  have hS : ∀ v ∈ S, ⟪a - w, v⟫_ℝ = 0 := by
    intro v hv
    rw [inner_sub_left, hw, inner_add_left, real_inner_smul_left, hconj.orthogonal v hv,
      h.inner_image_nearest hA ha hv, mul_zero, add_zero, sub_self]
  -- up to former directions `d` is the negative residual, and `a - w` does not see those
  have hdirection : ⟪a - w, d⟫_ℝ = -⟪a - w, r⟫_ℝ := by
    have hsum := hS _ hconj.direction
    rw [LinearMap.id_apply, inner_add_right] at hsum
    linarith
  have himage : ⟪A u, d⟫_ℝ = 0 := by
    rw [real_inner_comm, hconj.conjugate u h.mem]
  have hresidual : ⟪a - w, r⟫_ℝ = 0 := by
    have hslope : ⟪r, d⟫_ℝ = -⟪r, r⟫_ℝ := hconj.inner_direction
    have hquotient : c * ⟪r, r⟫_ℝ = -⟪a, d⟫_ℝ := div_mul_cancel₀ _ hself
    rw [inner_sub_left, hw, inner_add_left, real_inner_smul_left, himage, hslope,
      ← hw] at hdirection
    linarith
  have horth : ⟪a - w, w⟫_ℝ = 0 := by
    obtain ⟨v, hv, b, hvb⟩ := Conjugate.exists_add_smul_of_mem (hconj.krylov u h.mem)
    rw [LinearMap.id_apply] at hvb
    nth_rewrite 2 [hw]
    rw [← hvb, inner_add_right, inner_add_right, real_inner_smul_right, real_inner_smul_right,
      hS v hv, hdirection, hresidual, neg_zero, mul_zero, mul_zero, add_zero, add_zero]
  -- the square of what `a` leaves over its projection is not negative
  have hnonneg : 0 ≤ ⟪a - w, a - w⟫_ℝ := real_inner_self_nonneg
  have hproduct : ⟪a, w⟫_ℝ = ⟪a, u⟫_ℝ + c * ⟪a, r⟫_ℝ := by
    rw [hw, inner_add_right, real_inner_smul_right, ← hA, ha]
  rw [inner_sub_right, horth, sub_zero, inner_sub_left, real_inner_comm a w, hproduct] at hnonneg
  linarith

/-- On `S` the image of both points together is `a - g`. -/
theorem inner_image_add (h : Splitting A g a S p r d u) {v : E} (hv : v ∈ S) :
    ⟪A (p + u), v⟫_ℝ = -⟪g - a, v⟫_ℝ := by
  have hresidual := h.descending.conjugate.orthogonal v hv
  rw [h.descending.residual_eq, inner_add_left] at hresidual
  rw [map_add, inner_add_left, h.inner_image_nearest hA ha hv, inner_sub_left]
  linarith

omit hA in
/-- Where `A` is not negative, `a` and what the nearest point misses of it enclose no obtuse
angle. -/
theorem inner_sub_nearest_nonneg (hpos : ∀ v, 0 ≤ ⟪v, A v⟫_ℝ) (h : Splitting A g a S p r d u) :
    0 ≤ ⟪a - u, a⟫_ℝ := by
  have hself := hpos (a - u)
  rwa [map_sub, inner_sub_right, h.nearest u h.mem, ha, sub_zero] at hself

/-- The product of the residual with `a`, by way of the point. -/
theorem inner_residual (horth : ⟪g - a, a⟫_ℝ = 0) (h : Splitting A g a S p r d u) :
    ⟪a, r⟫_ℝ = ⟪a, a⟫_ℝ + ⟪a, p⟫_ℝ := by
  rw [inner_sub_left, sub_eq_zero] at horth
  rw [h.descending.residual_eq, inner_add_right, ← hA, ha, real_inner_comm, horth]

/-- The product of `g - a` with the nearest point, by way of the residual. -/
theorem inner_nearest (horth : ⟪g - a, a⟫_ℝ = 0) (h : Splitting A g a S p r d u) :
    ⟪g - a, u⟫_ℝ = ⟪a - u, a⟫_ℝ - ⟪a, r⟫_ℝ := by
  have himage := h.inner_image_add hA ha h.mem
  rw [hA, real_inner_comm, h.inner_image_nearest hA ha
    (Submodule.add_mem _ h.descending.mem h.mem), inner_add_right] at himage
  rw [h.inner_residual hA ha horth, inner_sub_left a u a, real_inner_comm a u]
  linarith

variable (horth : ⟪g - a, a⟫_ℝ = 0)

include horth

/-- Where the product with the nearest point is negative, the residual is not orthogonal to `a`, and
the direction leads downhill on `g - a`. -/
theorem inner_direction_lt (hpos : ∀ v, 0 ≤ ⟪v, A v⟫_ℝ) (h : Splitting A g a S p r d u)
    (hneg : ⟪g - a, u⟫_ℝ < 0) : 0 < ⟪a, r⟫_ℝ ∧ ⟪g - a, d⟫_ℝ < 0 := by
  have hnear := h.inner_sub_nearest_nonneg ha hpos
  rw [h.inner_nearest hA ha horth] at hneg
  have hresidual : 0 < ⟪a, r⟫_ℝ := by linarith
  refine ⟨hresidual, ?_⟩
  have hr : r ≠ 0 := by
    rintro rfl
    rw [inner_zero_right] at hresidual
    exact lt_irrefl _ hresidual
  have hself : 0 < ⟪r, r⟫_ℝ := real_inner_self_pos.mpr hr
  rw [inner_sub_left, h.descending.inner_direction]
  -- otherwise the term of the residual in Bessel's inequality is at least the product
  by_contra! hflat
  have hquotient : 1 ≤ -⟪a, d⟫_ℝ / ⟪r, r⟫_ℝ := (one_le_div hself).mpr (by linarith)
  have hterm := le_mul_of_one_le_left hresidual.le hquotient
  have hbessel := h.bessel hA ha hr
  rw [inner_sub_left, real_inner_comm a u] at hneg
  linarith

/-- Where the product with the nearest point is not negative, the slope of `g - a` is bounded. -/
theorem le_slope_of_nonneg {L s : ℝ} (hpos : ∀ v, 0 ≤ ⟪v, A v⟫_ℝ)
    (hL : ∀ v, ⟪v, A v⟫_ℝ ≤ L * ⟪v, v⟫_ℝ) (hs : 2 * s ≤ 1) (hg : g ∈ S)
    (h : Splitting A g a S p r d u) (hnonneg : 0 ≤ ⟪g - a, u⟫_ℝ) :
    s * (2 - s * L) * ⟪g - a, g - a⟫_ℝ ≤ -⟪g - a, p⟫_ℝ := by
  have hsum : p + u ∈ S := Submodule.add_mem _ h.descending.mem h.mem
  set y := p + u with hy
  have hself : ⟪y, A y⟫_ℝ = -⟪g - a, y⟫_ℝ := by
    rw [← hA, h.inner_image_add hA ha hsum]
  -- `A y` is `a - g` on `S`, and on `a` it is what `A u` is there
  have hcross : ⟪y, A (g - a)⟫_ℝ = -⟪g - a, g - a⟫_ℝ + ⟪g - a, u⟫_ℝ := by
    have hpart : ⟪A y, a⟫_ℝ = -⟪g - a, u⟫_ℝ := by
      rw [← h.inner_image_add hA ha h.mem, hA, hA, ha, real_inner_comm,
        ← h.inner_image_nearest hA ha hsum, real_inner_comm]
    rw [← hA, inner_sub_right, h.inner_image_add hA ha hg, hpart, inner_sub_right (g - a), horth]
    ring
  have hslope : -⟪g - a, y⟫_ℝ = -⟪g - a, p⟫_ℝ - ⟪g - a, u⟫_ℝ := by
    rw [hy, inner_add_right]
    ring
  -- the energy of `y + s (g - a)` is not negative
  have hsquare := hpos (y + s • (g - a))
  have hcross' : ⟪g - a, A y⟫_ℝ = ⟪y, A (g - a)⟫_ℝ := by rw [← hA, real_inner_comm]
  simp only [map_add, map_smul, inner_add_left, inner_add_right, real_inner_smul_left,
    real_inner_smul_right] at hsquare
  rw [hself, hcross', hcross, hslope] at hsquare
  have hform := mul_le_mul_of_nonneg_left (hL (g - a)) (mul_self_nonneg s)
  have hrest := mul_nonneg (sub_nonneg.mpr hs) hnonneg
  linarith

/-! ### Steps -/

variable {t : ℝ} {r' : E}

/-- Where the product with the nearest point is negative after a step, the step led downhill on
`g - a`. -/
theorem inner_direction_neg_of_step (hpos : ∀ v, 0 ≤ ⟪v, A v⟫_ℝ) (h : Splitting A g a S p r d u)
    (hr : r ≠ 0) (hcurv : ⟪d, A d⟫_ℝ ≠ 0) (ht : t = ⟪r, r⟫_ℝ / ⟪d, A d⟫_ℝ)
    (hr' : r' = r + t • A d) (hneg : ⟪g - a, u + (⟪a, A d⟫_ℝ / ⟪d, A d⟫_ℝ) • d⟫_ℝ < 0) :
    ⟪g - a, d⟫_ℝ < 0 := by
  have hnext := h.step hA hr hcurv ht hr'
  obtain ⟨hresidual, hslope⟩ := hnext.inner_direction_lt hA ha horth hpos hneg
  have hgradient : ⟪g, r'⟫_ℝ = 0 := by
    rw [real_inner_comm]
    exact hnext.descending.conjugate.orthogonal g h.descending.gradient_mem
  rw [inner_sub_right, real_inner_smul_right, inner_sub_left g a r', hgradient] at hslope
  have hfactor : ⟪r', r'⟫_ℝ / ⟪r, r⟫_ℝ * ⟪g - a, d⟫_ℝ < 0 := by linarith
  exact neg_of_mul_neg_right hfactor (div_nonneg real_inner_self_nonneg real_inner_self_nonneg)

omit hA ha horth in
theorem le_first_step {L s : ℝ} (hL : ∀ v, ⟪v, A v⟫_ℝ ≤ L * ⟪v, v⟫_ℝ) {v : E} (hv : v ≠ 0)
    (hcurv : 0 < ⟪v, A v⟫_ℝ) : s * (2 - s * L) ≤ ⟪v, v⟫_ℝ / ⟪v, A v⟫_ℝ := by
  have hself : 0 < ⟪v, v⟫_ℝ := real_inner_self_pos.mpr hv
  have hscaled := mul_le_mul_of_nonneg_left (hL v) (mul_nonneg (mul_self_nonneg s) hcurv.le)
  have hsquare := mul_self_nonneg (⟪v, v⟫_ℝ - s * ⟪v, A v⟫_ℝ)
  rw [le_div_iff₀ hcurv]
  refine le_of_mul_le_mul_right ?_ hself
  linarith

/-- Every step leads to a point where both slopes are steep. -/
theorem deep_step {L s : ℝ} (hpos : ∀ v, 0 ≤ ⟪v, A v⟫_ℝ) (hL : ∀ v, ⟪v, A v⟫_ℝ ≤ L * ⟪v, v⟫_ℝ)
    (hs : 2 * s ≤ 1) (h : Splitting A g a S p r d u)
    (hstage : p = 0 ∧ r = g ∧ d = -g ∨ Deep (s * (2 - s * L)) g a p)
    (hr : r ≠ 0) (hcurv : ⟪d, A d⟫_ℝ ≠ 0) (ht : t = ⟪r, r⟫_ℝ / ⟪d, A d⟫_ℝ)
    (hr' : r' = r + t • A d) : Deep (s * (2 - s * L)) g a (p + t • d) := by
  have hself : 0 < ⟪r, r⟫_ℝ := real_inner_self_pos.mpr hr
  have hcurvpos : 0 < ⟪d, A d⟫_ℝ := lt_of_le_of_ne (hpos d) (Ne.symm hcurv)
  have htpos : 0 < t := ht ▸ div_pos hself hcurvpos
  rcases hstage with ⟨rfl, rfl, rfl⟩ | hdeep
  -- the first step goes along steepest descent by at least the factor
  · have hfirst := le_first_step (s := s) hL (neg_ne_zero.mpr hr) hcurvpos
    rw [inner_neg_neg, ← ht] at hfirst
    have hproduct : ⟪r - a, r⟫_ℝ = ⟪r - a, r - a⟫_ℝ := by
      rw [inner_sub_right (r - a), horth, sub_zero]
    refine ⟨?_, ?_⟩
    · rw [zero_add, smul_neg, inner_neg_right, neg_neg, real_inner_smul_right, hproduct]
      exact mul_le_mul_of_nonneg_right hfirst real_inner_self_nonneg
    · rw [zero_add, smul_neg, inner_neg_right, neg_neg, real_inner_smul_right]
      exact mul_le_mul_of_nonneg_right hfirst real_inner_self_nonneg
  · -- where the bound does not hold by itself, the step led downhill from a point where it holds
    refine ⟨?_, ?_⟩
    · rcases le_or_gt 0 ⟪g - a, u + (⟪a, A d⟫_ℝ / ⟪d, A d⟫_ℝ) • d⟫_ℝ with hnonneg | hneg
      · exact (h.step hA hr hcurv ht hr').le_slope_of_nonneg hA ha horth hpos hL hs
          h.descending.gradient_mem hnonneg
      · have hdown := h.inner_direction_neg_of_step hA ha horth hpos hr hcurv ht hr' hneg
        have hproduct := mul_neg_of_pos_of_neg htpos hdown
        have hpart := hdeep.part
        rw [inner_add_right, real_inner_smul_right]
        linarith
    · have hwhole := hdeep.whole
      have hproduct := mul_pos htpos hself
      rw [h.descending.inner_step]
      linarith

end Fixed

end Splitting

end Downhill
