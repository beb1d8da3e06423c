import Mathlib.Analysis.InnerProductSpace.Symmetric
import Mathlib.LinearAlgebra.FiniteDimensional.Lemmas

/-!
# Conjugate directions

One step of preconditioned conjugate gradients in a real inner product space. `A` is the operator
of the system, `P` the preconditioner, `r` the residual and `d` the direction of the next step.

`Conjugate A P S r d` is the invariant of the iteration. Instead of the lists of all former
residuals and directions it keeps the subspace `S` that they span: the former directions and the
preconditioned former residuals span the same one. A step enlarges `S` by `d`
(`Conjugate.step`), and `d` is a new direction (`Conjugate.notMem`), so the dimension of `S` counts
the steps. Only the energy `⟪r, P r⟫` and the curvature `⟪d, A d⟫` of the step itself have to be
nonzero; `A` need not be definite.

Conjugate gradients from zero minimize `½ ⟪p, A p⟫ + ⟪g, p⟫`. `Descending A g S p r d` is the
invariant of their points `p`: `p` lies in `S`, and the residual `r` is the gradient `g + A p`. It
holds also for an iteration that is cut off as soon as a curvature is not positive. Every direction
leads downhill from the start (`Descending.inner_direction`), so the points move further and further
downhill (`Descending.inner_step`).
-/

namespace Downhill

/-! ### Conjugate directions -/

open scoped InnerProductSpace

variable {E : Type*} [NormedAddCommGroup E] [InnerProductSpace ℝ E]

/-- The residual `r` and the direction `d` belong to an iteration whose former directions span
`S`. -/
structure Conjugate (A P : E →ₗ[ℝ] E) (S : Submodule ℝ E) (r d : E) : Prop where
  /-- The residual is orthogonal to the former directions. -/
  orthogonal : ∀ v ∈ S, ⟪r, v⟫_ℝ = 0
  /-- The direction is conjugate to the former ones. -/
  conjugate : ∀ v ∈ S, ⟪d, A v⟫_ℝ = 0
  /-- Up to former directions the direction is steepest descent. -/
  direction : d + P r ∈ S
  /-- The operators lead from the former directions at most to the next one. -/
  krylov : ∀ v ∈ S, P (A v) ∈ S ⊔ ℝ ∙ d

/-- At the start there are no former directions. -/
theorem Conjugate.start (A P : E →ₗ[ℝ] E) (r : E) : Conjugate A P ⊥ r (-P r) where
  orthogonal v hv := by
    rw [(Submodule.mem_bot ℝ).mp hv, inner_zero_right]
  conjugate v hv := by
    rw [(Submodule.mem_bot ℝ).mp hv, map_zero, inner_zero_right]
  direction := by
    rw [neg_add_cancel]
    exact Submodule.zero_mem _
  krylov v hv := by
    rw [(Submodule.mem_bot ℝ).mp hv, map_zero, map_zero]
    exact Submodule.zero_mem _

namespace Conjugate

variable {A P : E →ₗ[ℝ] E} {S : Submodule ℝ E} {r d : E}

/-- The slope along the direction is the negative energy. -/
theorem inner_direction (h : Conjugate A P S r d) : ⟪r, d⟫_ℝ = -⟪r, P r⟫_ℝ := by
  have hsum := h.orthogonal _ h.direction
  rw [inner_add_right] at hsum
  linarith

theorem notMem (h : Conjugate A P S r d) (hcurv : ⟪d, A d⟫_ℝ ≠ 0) : d ∉ S :=
  fun hd => hcurv (h.conjugate d hd)

theorem finrank_sup [FiniteDimensional ℝ E] (h : Conjugate A P S r d)
    (hcurv : ⟪d, A d⟫_ℝ ≠ 0) :
    Module.finrank ℝ ↥(S ⊔ ℝ ∙ d) = Module.finrank ℝ S + 1 :=
  Submodule.finrank_sup_span_singleton (h.notMem hcurv)

/-- Where the former directions span the whole space the residual is zero. -/
theorem eq_zero_of_finrank_eq [FiniteDimensional ℝ E] (h : Conjugate A P S r d)
    (hS : Module.finrank ℝ S = Module.finrank ℝ E) : r = 0 := by
  have htop : S = ⊤ := Submodule.eq_top_of_finrank_eq hS
  have hself := h.orthogonal r (by rw [htop]; exact Submodule.mem_top)
  exact inner_self_eq_zero.mp hself

/-! ### One step -/

theorem exists_add_smul_of_mem {v : E} (hv : v ∈ S ⊔ ℝ ∙ d) :
    ∃ u ∈ S, ∃ c : ℝ, u + c • d = v := by
  obtain ⟨u, hu, w, hw, huw⟩ := Submodule.mem_sup.mp hv
  obtain ⟨c, rfl⟩ := Submodule.mem_span_singleton.mp hw
  exact ⟨u, hu, c, huw⟩

theorem mem_sup_self (S : Submodule ℝ E) (d : E) : d ∈ S ⊔ ℝ ∙ d :=
  Submodule.mem_sup_right (Submodule.mem_span_singleton_self d)

/-- The preconditioned residual lies in the space that the next direction completes. -/
theorem preconditioned_mem (h : Conjugate A P S r d) : P r ∈ S ⊔ ℝ ∙ d := by
  have hmem := Submodule.sub_mem _ (Submodule.mem_sup_left h.direction) (mem_sup_self S d)
  rwa [add_sub_cancel_left] at hmem

/-- The new residual is orthogonal to the directions so far. -/
theorem orthogonal_step (hA : A.IsSymmetric) (h : Conjugate A P S r d) {t : ℝ}
    (ht : t * ⟪d, A d⟫_ℝ = ⟪r, P r⟫_ℝ) :
    ∀ v ∈ S ⊔ ℝ ∙ d, ⟪r + t • A d, v⟫_ℝ = 0 := by
  intro v hv
  obtain ⟨u, hu, c, rfl⟩ := exists_add_smul_of_mem hv
  -- former directions: both the old residual and the new image are orthogonal to them
  have hold : ⟪r + t • A d, u⟫_ℝ = 0 := by
    rw [inner_add_left, real_inner_smul_left, hA d u, h.orthogonal u hu, h.conjugate u hu,
      mul_zero, add_zero]
  -- the step is chosen so that the new residual is orthogonal to `d` as well
  have hnew : ⟪r + t • A d, d⟫_ℝ = 0 := by
    rw [inner_add_left, real_inner_smul_left, hA d d, ht, h.inner_direction, neg_add_cancel]
  rw [inner_add_right, real_inner_smul_right, hold, hnew, mul_zero, add_zero]

section Next

variable {r' : E} {t : ℝ}

/-- The image of the direction is the change of the residual. -/
theorem image_eq_of_step (ht : t ≠ 0) (hr' : r' = r + t • A d) : A d = t⁻¹ • (r' - r) := by
  rw [hr', add_sub_cancel_left, smul_smul, inv_mul_cancel₀ ht, one_smul]

/-- The new direction is conjugate to the directions so far. -/
theorem conjugate_step (hP : P.IsSymmetric) (h : Conjugate A P S r d) (ht : t ≠ 0)
    (hr' : r' = r + t • A d) (horth : ∀ v ∈ S ⊔ ℝ ∙ d, ⟪r', v⟫_ℝ = 0) {β : ℝ}
    (hβ : β * ⟪d, A d⟫_ℝ = t⁻¹ * ⟪r', P r'⟫_ℝ) :
    ∀ v ∈ S ⊔ ℝ ∙ d, ⟪β • d - P r', A v⟫_ℝ = 0 := by
  intro v hv
  obtain ⟨u, hu, c, rfl⟩ := exists_add_smul_of_mem hv
  -- a former direction is conjugate to `d`, and `P (A u)` lies where `r'` is orthogonal
  have hold : ⟪β • d - P r', A u⟫_ℝ = 0 := by
    rw [inner_sub_left, real_inner_smul_left, h.conjugate u hu, hP r' (A u),
      horth _ (h.krylov u hu), mul_zero, sub_zero]
  -- `A d` is a multiple of `r' - r`, and `r'` is orthogonal to `P r`
  have hcross : ⟪P r', A d⟫_ℝ = t⁻¹ * ⟪r', P r'⟫_ℝ := by
    rw [image_eq_of_step ht hr', real_inner_smul_right, inner_sub_right, hP r' r,
      horth _ h.preconditioned_mem, sub_zero, real_inner_comm]
  have hnew : ⟪β • d - P r', A d⟫_ℝ = 0 := by
    rw [inner_sub_left, real_inner_smul_left, hβ, hcross, sub_self]
  rw [map_add, map_smul, inner_add_right, real_inner_smul_right, hold, hnew, mul_zero, add_zero]

theorem krylov_step (h : Conjugate A P S r d) (ht : t ≠ 0) (hr' : r' = r + t • A d) (β : ℝ) :
    ∀ v ∈ S ⊔ ℝ ∙ d, P (A v) ∈ (S ⊔ ℝ ∙ d) ⊔ ℝ ∙ (β • d - P r') := by
  intro v hv
  obtain ⟨u, hu, c, rfl⟩ := exists_add_smul_of_mem hv
  have hPr' : P r' ∈ (S ⊔ ℝ ∙ d) ⊔ ℝ ∙ (β • d - P r') := by
    have hmem := Submodule.sub_mem _
      (Submodule.mem_sup_left (Submodule.smul_mem _ β (mem_sup_self S d)))
      (mem_sup_self (S ⊔ ℝ ∙ d) (β • d - P r'))
    rwa [sub_sub_cancel] at hmem
  have hPr := Submodule.mem_sup_left (T := ℝ ∙ (β • d - P r')) h.preconditioned_mem
  -- the image of `d` is a difference of residuals, and both are covered
  have hnew : P (A d) ∈ (S ⊔ ℝ ∙ d) ⊔ ℝ ∙ (β • d - P r') := by
    rw [image_eq_of_step ht hr', map_smul, map_sub]
    exact Submodule.smul_mem _ _ (Submodule.sub_mem _ hPr' hPr)
  rw [map_add, map_add, map_smul, map_smul]
  exact Submodule.add_mem _ (Submodule.mem_sup_left (h.krylov u hu))
    (Submodule.smul_mem _ _ hnew)

end Next

/-- **One step**: along `d` by the quotient of energy and curvature, with the next direction
corrected by the quotient of the energies. -/
theorem step (hA : A.IsSymmetric) (hP : P.IsSymmetric) (h : Conjugate A P S r d)
    (henergy : ⟪r, P r⟫_ℝ ≠ 0) (hcurv : ⟪d, A d⟫_ℝ ≠ 0) {r' : E}
    (hr' : r' = r + (⟪r, P r⟫_ℝ / ⟪d, A d⟫_ℝ) • A d) :
    Conjugate A P (S ⊔ ℝ ∙ d) r' ((⟪r', P r'⟫_ℝ / ⟪r, P r⟫_ℝ) • d - P r') := by
  have ht : ⟪r, P r⟫_ℝ / ⟪d, A d⟫_ℝ ≠ 0 := div_ne_zero henergy hcurv
  have horth : ∀ v ∈ S ⊔ ℝ ∙ d, ⟪r', v⟫_ℝ = 0 := by
    rw [hr']
    exact h.orthogonal_step hA (div_mul_cancel₀ _ hcurv)
  refine ⟨horth, h.conjugate_step hP ht hr' horth ?_, ?_, h.krylov_step ht hr' _⟩
  -- the quotient of the energies is the one that conjugacy asks for
  · rw [inv_div, div_mul_eq_mul_div, div_mul_eq_mul_div, mul_comm]
  · rw [sub_add_cancel]
    exact Submodule.smul_mem _ _ (mem_sup_self S d)

end Conjugate

/-! ### Points -/

/-- The point `p`, the residual `r` and the next direction `d` belong to an iteration from zero,
whose former directions span `S`. -/
structure Descending (A : E →ₗ[ℝ] E) (g : E) (S : Submodule ℝ E) (p r d : E) : Prop where
  /-- The residual and the direction are conjugate to the former directions. -/
  conjugate : Conjugate A LinearMap.id S r d
  /-- The former directions lead to the point. -/
  mem : p ∈ S
  /-- The residual is the gradient at the point. -/
  residual_eq : r = g + A p

theorem Descending.start (A : E →ₗ[ℝ] E) (g : E) : Descending A g ⊥ 0 g (-g) where
  conjugate := .start A LinearMap.id g
  mem := Submodule.zero_mem _
  residual_eq := by rw [map_zero, add_zero]

namespace Descending

variable {A : E →ₗ[ℝ] E} {S : Submodule ℝ E} {g p r d : E}

/-- The slope at the start along the next direction. -/
theorem inner_direction (h : Descending A g S p r d) :
    ⟪g, d⟫_ℝ = -⟪r, r⟫_ℝ := by
  have hresidual : ⟪r, d⟫_ℝ = -⟪r, r⟫_ℝ := h.conjugate.inner_direction
  -- the point lies in the former directions, so its image is orthogonal to the next one
  have hconj : ⟪A p, d⟫_ℝ = 0 := by
    rw [real_inner_comm, h.conjugate.conjugate p h.mem]
  rw [h.residual_eq, inner_add_left, hconj, add_zero, ← h.residual_eq] at hresidual
  exact hresidual

/-- The gradient at the start lies in the space that the next direction completes. -/
theorem gradient_mem (h : Descending A g S p r d) : g ∈ S ⊔ ℝ ∙ d := by
  have hmem := Submodule.sub_mem _ h.conjugate.preconditioned_mem (h.conjugate.krylov p h.mem)
  rwa [LinearMap.id_apply, LinearMap.id_apply, h.residual_eq, add_sub_cancel_right] at hmem

/-- A step by the quotient of the squared residual and the curvature. -/
theorem step (hA : A.IsSymmetric) (h : Descending A g S p r d) (hr : r ≠ 0)
    (hcurv : ⟪d, A d⟫_ℝ ≠ 0) {t : ℝ} {r' : E} (ht : t = ⟪r, r⟫_ℝ / ⟪d, A d⟫_ℝ)
    (hr' : r' = r + t • A d) :
    Descending A g (S ⊔ ℝ ∙ d) (p + t • d) r' ((⟪r', r'⟫_ℝ / ⟪r, r⟫_ℝ) • d - r') where
  conjugate := by
    rw [ht] at hr'
    exact h.conjugate.step hA (fun _ _ => rfl) (inner_self_ne_zero.mpr hr) hcurv hr'
  mem := Submodule.add_mem _ (Submodule.mem_sup_left h.mem)
    (Submodule.smul_mem _ _ (Conjugate.mem_sup_self S d))
  residual_eq := by rw [hr', h.residual_eq, map_add, map_smul, add_assoc]

theorem inner_step (h : Descending A g S p r d) (t : ℝ) :
    ⟪g, p + t • d⟫_ℝ = ⟪g, p⟫_ℝ - t * ⟪r, r⟫_ℝ := by
  rw [inner_add_right, real_inner_smul_right, h.inner_direction]
  ring

end Descending

end Downhill
