import Downhill.Proofs.Exact.Euclidean
import Downhill.Proofs.Exact.Quadratic
import Downhill.Proofs.Method.ProjectedNewton
import Downhill.Proofs.Projection.Nearest

/-!
# The reduced Hessian

In exact arithmetic the reduced Hessian is the map `reduced H is`, which is the identity on the
active coordinates `is` and the Hessian `H` between the others (`computes_reducedHessian`). It never
mixes the two (`keep_reduced`, `reduced_keep`), is symmetric with `H` (`reduced_isSymmetric`), and
its quadratic form has bounds from those of `H` (`inner_reduced_le`, `le_inner_reduced`,
`reduced_isPosDefMap`).

Where the Hessian is a matrix, `IsReduction` describes the map by entries: between the free
coordinates it is a principal block of the matrix. What the routine computes is such a map
(`reducedHessian_isReduction`).
-/

namespace Downhill.ProjectedNewton

open Vec

open scoped InnerProductSpace

variable {n : Nat}

/-- The map that is the identity on the coordinates `is` and `H` between the others. -/
noncomputable def reduced (H : Vec ℝ n →ₗ[ℝ] Vec ℝ n) (is : List (Fin n)) :
    Vec ℝ n →ₗ[ℝ] Vec ℝ n :=
  (LinearMap.id - keep is) ∘ₗ H ∘ₗ (LinearMap.id - keep is) + keep is

variable {H : Vec ℝ n →ₗ[ℝ] Vec ℝ n} {is : List (Fin n)}

/-- The free part of the image of the free part, and the active part. -/
theorem reduced_apply (v : Vec ℝ n) :
    reduced H is v = H (v - keep is v) - keep is (H (v - keep is v)) + keep is v := rfl

/-- Without active coordinates it is the Hessian. -/
theorem reduced_nil : reduced H [] = H := by
  ext1 v
  rw [reduced_apply, keep_nil, keep_nil, sub_zero, sub_zero, add_zero]

theorem computes_reducedHessian {σ : Type} {f : Objective σ ℝ n} {P : Projection ℝ n} {x : Vec ℝ n}
    (hactive : P.active x = .ok is) (hH : ∀ v, (f.hessianProduct x v).Computes (H v))
    (d : Vec ℝ n) : (reducedHessian f P x d).Computes (reduced H is d) := by
  -- to overwrite the active coordinates with zero leaves the free part
  have hfree : d.overwrite Vec.zero is = d - keep is d := by
    rw [overwrite_eq]
    show d - keep is d + keep is (0 : Vec ℝ n) = _
    rw [map_zero, add_zero]
  refine (Run.computes_liftM hactive).bind ((hH _).bind ?_)
  rw [hfree, overwrite_eq, reduced_apply]
  exact Run.computes_pure _

/-- The active part of the image is that of the argument. -/
theorem keep_reduced (v : Vec ℝ n) : keep is (reduced H is v) = keep is v := by
  rw [reduced_apply, map_add, map_sub, keep_keep, keep_keep, sub_self, zero_add]

theorem reduced_keep (v : Vec ℝ n) : reduced H is (keep is v) = keep is v := by
  rw [reduced_apply, keep_keep, sub_self, map_zero, map_zero, sub_zero, zero_add]

/-- The form of the reduced Hessian splits into a free and an active part. -/
theorem inner_reduced (u v : Vec ℝ n) :
    ⟪u, reduced H is v⟫_ℝ = ⟪u - keep is u, H (v - keep is v)⟫_ℝ + ⟪keep is u, keep is v⟫_ℝ := by
  have hkept : ⟪u, keep is v⟫_ℝ = ⟪keep is u, keep is v⟫_ℝ := by
    rw [keep_isSymmetric, keep_keep]
  rw [reduced_apply, inner_add_right, inner_sub_right, inner_sub_left, hkept,
    keep_isSymmetric u (H _)]

/-- The reduced Hessian is symmetric with the Hessian. -/
theorem reduced_isSymmetric (hH : H.IsSymmetric) : (reduced H is).IsSymmetric := by
  intro u v
  rw [real_inner_comm, inner_reduced, inner_reduced, ← hH, real_inner_comm,
    real_inner_comm (keep is u)]

/-- An upper bound of at least one on the form of `H` is one on that of the reduced Hessian. -/
theorem inner_reduced_le {L : ℝ} (hL : 1 ≤ L) (hH : ∀ v, ⟪v, H v⟫_ℝ ≤ L * ⟪v, v⟫_ℝ)
    (v : Vec ℝ n) : ⟪v, reduced H is v⟫_ℝ ≤ L * ⟪v, v⟫_ℝ := by
  have hfree := hH (v - keep is v)
  have hkept : ⟪keep is v, keep is v⟫_ℝ ≤ L * ⟪keep is v, keep is v⟫_ℝ :=
    le_mul_of_one_le_left real_inner_self_nonneg hL
  rw [inner_reduced, inner_eq_add is v v, mul_add]
  exact add_le_add hfree hkept

/-- A lower bound of at most one on the form of `H` at vectors without active part is one on that of
the reduced Hessian. -/
theorem le_inner_reduced {c : ℝ} (hc : c ≤ 1)
    (hH : ∀ v, keep is v = 0 → c * ⟪v, v⟫_ℝ ≤ ⟪v, H v⟫_ℝ) (v : Vec ℝ n) :
    c * ⟪v, v⟫_ℝ ≤ ⟪v, reduced H is v⟫_ℝ := by
  have hfree := hH (v - keep is v) (by rw [map_sub, keep_keep, sub_self])
  have hkept : c * ⟪keep is v, keep is v⟫_ℝ ≤ ⟪keep is v, keep is v⟫_ℝ :=
    mul_le_of_le_one_left real_inner_self_nonneg hc
  rw [inner_reduced, inner_eq_add is v v, mul_add]
  exact add_le_add hfree hkept

/-- With `H` the reduced Hessian is positive definite. -/
theorem reduced_isPosDefMap (hH : Mat.IsPosDefMap H) : Mat.IsPosDefMap (reduced H is) where
  symm := reduced_isSymmetric hH.symm
  pos v hv := by
    rw [← inner_eq_dot, inner_reduced]
    -- a vector without free part is its active part
    by_cases hfree : v - keep is v = 0
    · rw [hfree, map_zero, inner_zero_left, zero_add, ← sub_eq_zero.mp hfree]
      exact real_inner_self_pos.mpr hv
    · exact add_pos_of_pos_of_nonneg (hH.pos _ hfree) real_inner_self_nonneg

/-! ### Hessian matrices -/

/-- The map `R` reduces the matrix `H` by the coordinates `is`: it is `H` with the rows and columns
of `is` replaced by those of the identity. -/
structure IsReduction (H : Mat ℝ n n) (is : List (Fin n)) (R : Vec ℝ n →ₗ[ℝ] Vec ℝ n) : Prop where
  /-- It is symmetric. -/
  symm : R.IsSymmetric
  /-- The coordinates `is` pass unchanged. -/
  entry_of_mem : ∀ d, ∀ i ∈ is, (R d).entry i = d.entry i
  /-- Between the others it is a principal block of `H`. -/
  entry_of_notMem : ∀ d, ∀ i ∉ is, (R d).entry i = ∑ j with j ∉ is, H.entry i j * d.entry j
  /-- Vectors that vanish outside `is` are fixed. -/
  fixes : ∀ d : Vec ℝ n, (∀ i ∉ is, d.entry i = 0) → R d = d
  /-- The coordinates `is` and the others are never mixed. -/
  keep_comm : ∀ d, keep is (R d) = R (keep is d)
  /-- A lower bound on the form of `H` at vectors that vanish on `is`, or the bound one if that is
  smaller, is a lower bound on the form of the map. -/
  le_dot : ∀ c, (∀ v : Vec ℝ n, (∀ i ∈ is, v.entry i = 0) → c * v.normSq ≤ v.dot (H * v)) →
    ∀ d : Vec ℝ n, min 1 c * d.normSq ≤ d.dot (R d)
  /-- It is positive definite if `H` is. -/
  posDef : H.IsPosDef → Mat.IsPosDefMap R

/-- A free entry of the image is a sum over the free entries. -/
theorem entry_reduced_of_notMem (H : Mat ℝ n n) (d : Vec ℝ n) {i : Fin n} (hi : i ∉ is) :
    (reduced H.toLin is d).entry i = ∑ j with j ∉ is, H.entry i j * d.entry j := by
  have hfree : ∀ j, (d - keep is d).entry j = if j ∈ is then 0 else d.entry j := by
    intro j
    rw [entry_eq_getElem, Fin.getElem_fin, Vector.getElem_sub, getElem_keep]
    split_ifs with hj
    · exact sub_self _
    · exact sub_zero _
  rw [reduced_apply, entry_eq_getElem, Fin.getElem_fin, Vector.getElem_add, Vector.getElem_sub,
    getElem_keep, getElem_keep, if_neg hi, if_neg hi, sub_zero, add_zero, Mat.toLin_apply,
    Mat.getElem_mulVec, Finset.sum_filter]
  -- the sum over all entries of the free part, term by term
  simp only [ite_not]
  refine Finset.sum_congr rfl fun j _ => ?_
  rw [hfree]
  split_ifs
  · exact mul_zero _
  · rfl

/-- The map is a reduction of the matrix. -/
theorem reduced_isReduction {H : Mat ℝ n n} (hH : H.IsSymm) (is : List (Fin n)) :
    IsReduction H is (reduced H.toLin is) where
  symm := reduced_isSymmetric hH.isSymmetric_toLin
  entry_of_mem d i hi := by
    have hkept : (keep is (reduced H.toLin is d))[i.val] = (keep is d)[i.val] := by
      rw [keep_reduced]
    rwa [getElem_keep, getElem_keep, if_pos hi, if_pos hi] at hkept
  entry_of_notMem d i hi := entry_reduced_of_notMem H d hi
  fixes d hd := by
    rw [← keep_eq_self_iff.mpr hd, reduced_keep]
  keep_comm d := by
    rw [keep_reduced, reduced_keep]
  le_dot c hform d := by
    refine le_inner_reduced (min_le_left 1 c) (fun v hv => ?_) d
    exact (mul_le_mul_of_nonneg_right (min_le_right 1 c) real_inner_self_nonneg).trans
      (hform v (keep_eq_zero_iff.mp hv))
  posDef hpos := reduced_isPosDefMap hpos.isPosDefMap_toLin

/-- Where the products with the Hessian are those with a symmetric matrix `H`, the routine computes
the reduction of `H` by the active coordinates. -/
theorem reducedHessian_isReduction {σ : Type} {f : Objective σ ℝ n} {P : Projection ℝ n}
    {x : Vec ℝ n} {H : Mat ℝ n n} (hH : H.IsSymm)
    (hproduct : ∀ v, (f.hessianProduct x v).Computes (H * v)) (hactive : P.active x = .ok is) :
    ∃ R, IsReduction H is R ∧ ∀ d : Vec ℝ n, (reducedHessian f P x d).Computes (R d) ∧
      (reducedHessianAny f P x d).Computes (R d) := by
  refine ⟨reduced H.toLin is, reduced_isReduction hH is, fun d => ?_⟩
  have hcomputes := computes_reducedHessian (H := H.toLin) hactive hproduct d
  exact ⟨hcomputes, (Run.computes_liftM d.ofLength_self).bind hcomputes⟩

/-- A box in the plane with the origin on its left edge. -/
def edge (r : ℝ) : Box ℝ 2 where
  lower := #v[0, -r]
  upper := #v[r, r]

/-- A quadratic function whose Hessian mixes its two coordinates. -/
noncomputable def crossed (d : ℝ) : Quadratic ℝ 2 := ⟨.symmTwo 1 1 d, .zero, 0⟩

/-- At the origin the first coordinate is active. -/
theorem activeAt_edge {r : ℝ} (hr : 1 ≤ r) : (edge r).activeAt .zero = [0] := by
  have htol : (0 : ℝ) < Scalar.activeTolerance ∧ (Scalar.activeTolerance : ℝ) < 1 := by
    show (0 : ℝ) < 1e-6 ∧ (1e-6 : ℝ) < 1
    norm_num
  unfold Box.activeAt
  rw [List.finRange_succ, List.finRange_succ, List.finRange_zero, List.filter_cons_of_pos,
    List.map_cons, List.filter_cons_of_neg]
  · rfl
  · rw [Bool.or_eq_true, decide_eq_true_eq, decide_eq_true_eq, not_or, not_le, not_le]
    show Scalar.activeTolerance < 0 - -r ∧ Scalar.activeTolerance < r - 0
    constructor <;> linarith
  · rw [Bool.or_eq_true, decide_eq_true_eq]
    refine .inl ?_
    show (0 : ℝ) - 0 ≤ Scalar.activeTolerance
    linarith

/-- On the edge the entries beside the diagonal no longer count. -/
theorem reducedHessian_isReduction_edge :
    (crossed 3).matrix.IsSymm ∧ ((edge 1).projection 2).active .zero = .ok [0] ∧
      (∀ v, (((crossed 3).objective 2 : Objective Unit ℝ 2).hessianProduct .zero v).Computes
        ((crossed 3).matrix * v)) ∧
      ∃ R : Vec ℝ 2 →ₗ[ℝ] Vec ℝ 2,
        (∀ d, (reducedHessian ((crossed 3).objective 2 : Objective Unit ℝ 2) ((edge 1).projection 2)
          .zero d).Computes (R d)) ∧
        (∀ d, (R d).entry 0 = d.entry 0 ∧ (R d).entry 1 = 3 * d.entry 1) ∧
        ∀ d : Vec ℝ 2, d.normSq ≤ d.dot (R d) := by
  have hsymm : (crossed 3).matrix.IsSymm := Mat.symmTwo_isSymm 1 1 3
  have hactive : ((edge 1).projection 2).active .zero = .ok [0] := by
    rw [Box.projection_active, activeAt_edge le_rfl]
  have hproduct := (crossed 3).computes_hessianProduct (σ := Unit) .zero
  obtain ⟨R, hR, hcomputes⟩ := reducedHessian_isReduction hsymm hproduct hactive
  refine ⟨hsymm, hactive, hproduct, R, fun d => (hcomputes d).1, fun d => ⟨?_, ?_⟩, fun d => ?_⟩
  · exact hR.entry_of_mem d 0 (List.mem_singleton_self 0)
  · rw [hR.entry_of_notMem d 1 (by decide), Finset.sum_filter, Fin.sum_univ_two, if_neg (by decide),
      if_pos (by decide), zero_add]
    rfl
  · -- the free coordinate has the curvature three, so the bound is one
    have hfree : ∀ v : Vec ℝ 2, (∀ i ∈ [(0 : Fin 2)], v.entry i = 0) →
        3 * v.normSq ≤ v.dot ((crossed 3).matrix * v) := by
      intro v hv
      have hzero : v.entry 0 = 0 := hv 0 (List.mem_singleton_self 0)
      rw [Mat.dot_mulVec, Vec.normSq, Vec.dot_eq_sum]
      simp only [Fin.sum_univ_two, hzero, mul_zero, zero_mul, zero_add]
      show 3 * (v.entry 1 * v.entry 1) ≤ v.entry 1 * 3 * v.entry 1
      linarith
    have hform := hR.le_dot 3 hfree d
    rwa [min_eq_left (by norm_num), one_mul] at hform

end Downhill.ProjectedNewton
