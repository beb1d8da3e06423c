import Downhill.Proofs.Exact.Euclidean
import Downhill.Proofs.Projection.Nearest
import Mathlib.Topology.Order.Real

/-!
# Boxes seen from one of their points

A path that leaves a point `x` of a box in direction `v` is bent by the projection to the box. At
first it runs straight in direction `Box.tangent b x v`, which is `v` without what points out of the
box at `x` (`Box.eventually_clamp_add_smul`). The map `Box.tangent b x` is positively homogeneous
(`Box.tangent_smul`), and `v` and its tangent have the product `‖tangent v‖²`
(`Box.inner_tangent_self`). Inactive coordinates pass unchanged (`Box.tangent_sub_keep`).

The projection moves `x + v` back to `x` exactly if the tangent of `v` is zero
(`Box.clamp_add_eq_iff`).
-/

namespace Downhill

open Filter Topology

open scoped InnerProductSpace

/-! ### Nearest points along a ray -/

namespace Projection.Nearest

variable {n : Nat} {P : Projection ℝ n} {π : Vec ℝ n → Vec ℝ n} {x v : Vec ℝ n}

/-- A step leads back to the point if no point of the set lies in its direction. -/
theorem project_add_eq_iff (h : P.Nearest π) (hx : π x = x) :
    π (x + v) = x ↔ ∀ z, π z = z → ⟪v, z - x⟫_ℝ ≤ 0 := by
  constructor
  · intro heq z hz
    have hobtuse := h.obtuse (x + v) z hz
    rwa [heq, add_sub_cancel_left] at hobtuse
  · intro hback
    -- the angles at the nearest point of `x + v` and at `x` leave no distance between the two
    have hobtuse := h.obtuse (x + v) x hx
    have hv := hback _ (h.idem (x + v))
    set y := π (x + v) with hy
    have hself : ⟪x - y, x - y⟫_ℝ ≤ 0 := by
      rw [add_sub_right_comm, inner_add_left] at hobtuse
      rw [← neg_sub, inner_neg_right] at hv
      linarith
    exact (sub_eq_zero.mp (inner_self_eq_zero.mp (hself.antisymm real_inner_self_nonneg))).symm

/-- So the length of the step does not matter. -/
theorem project_add_smul_eq_iff (h : P.Nearest π) (hx : π x = x) {t : ℝ} (ht : 0 < t) :
    π (x + t • v) = x ↔ π (x + v) = x := by
  rw [h.project_add_eq_iff hx, h.project_add_eq_iff hx]
  -- the condition is on the sign of a product, which a positive factor does not change
  refine forall₂_congr fun z _ => ?_
  rw [real_inner_smul_left]
  exact ⟨fun hle => nonpos_of_mul_nonpos_right hle ht, mul_nonpos_of_nonneg_of_nonpos ht.le⟩

end Projection.Nearest

namespace Box

/-! ### One coordinate -/

/-- The part of the velocity `v` that does not lead out of the bounds `l` and `u` at `s`. -/
noncomputable def inward (l u s v : ℝ) : ℝ :=
  let raised := if s ≤ l then max v 0 else v
  if u ≤ s then min raised 0 else raised

theorem inward_mul (l u s v : ℝ) {t : ℝ} (ht : 0 ≤ t) :
    inward l u s (t * v) = t * inward l u s v := by
  unfold inward
  -- in each case the velocity, a bound by zero from one side, or zero
  split_ifs <;> simp only [mul_max_of_nonneg, mul_min_of_nonneg, ht, mul_zero]

theorem mul_inward (l u s v : ℝ) : v * inward l u s v = inward l u s v * inward l u s v := by
  unfold inward
  rcases le_total v 0 with hv | hv <;> split_ifs <;> simp [hv]

/-- Strictly between the bounds every velocity is kept. -/
theorem inward_of_lt {l u s : ℝ} (hl : l < s) (hu : s < u) (v : ℝ) : inward l u s v = v := by
  unfold inward
  rw [if_neg hl.not_ge, if_neg hu.not_ge]

theorem tendsto_add_mul (s v : ℝ) : Tendsto (fun t : ℝ => s + t * v) (𝓝[>] 0) (𝓝 s) := by
  have hcont : Continuous fun t : ℝ => s + t * v := by fun_prop
  have hlim := hcont.tendsto 0
  rw [zero_mul, add_zero] at hlim
  exact hlim.mono_left nhdsWithin_le_nhds

/-- A cut coordinate that is left alone at `s` first moves inward. -/
theorem eventually_cut_add_mul {l u s : ℝ} (hs : min (max s l) u = s) (v : ℝ) :
    ∀ᶠ t in 𝓝[>] (0 : ℝ), min (max (s + t * v) l) u = s + t * inward l u s v := by
  have hsu : s ≤ u := by
    rw [← hs]
    exact min_le_right _ _
  unfold inward
  rcases le_or_gt s l with hl | hl <;> rcases le_or_gt u s with hu | hu
  · -- both bounds hold the coordinate
    refine .of_forall fun t => ?_
    rw [if_pos hl, if_pos hu, min_eq_right (le_max_right v 0), mul_zero, add_zero,
      min_eq_right ((hu.trans hl).trans (le_max_right _ _)), hsu.antisymm hu]
  · -- the lower bound
    obtain rfl : l = s := by
      rw [max_eq_right hl] at hs
      rcases min_choice l u with h | h
      · rw [← hs, h]
      · exact absurd (h.symm.trans hs) hu.ne'
    filter_upwards [self_mem_nhdsWithin, (tendsto_add_mul l v).eventually_lt_const hu] with t ht hlt
    rw [if_pos hl, if_neg hu.not_ge]
    rcases le_total v 0 with hv | hv
    · rw [max_eq_right hv, mul_zero, add_zero,
        max_eq_right (add_le_of_nonpos_right (mul_nonpos_of_nonneg_of_nonpos ht.le hv)),
        min_eq_left hsu]
    · rw [max_eq_left hv, max_eq_left (le_add_of_nonneg_right (mul_nonneg ht.le hv)),
        min_eq_left hlt.le]
  · -- the upper bound
    obtain rfl : u = s := hu.antisymm hsu
    filter_upwards [self_mem_nhdsWithin, (tendsto_add_mul u v).eventually_const_lt hl] with t ht hlt
    rw [if_neg hl.not_ge, if_pos hu, max_eq_left hlt.le]
    rcases le_total v 0 with hv | hv
    · rw [min_eq_left hv,
        min_eq_left (add_le_of_nonpos_right (mul_nonpos_of_nonneg_of_nonpos ht.le hv))]
    · rw [min_eq_right hv, min_eq_right (le_add_of_nonneg_right (mul_nonneg ht.le hv)), mul_zero,
        add_zero]
  · -- strictly between the bounds
    filter_upwards [(tendsto_add_mul s v).eventually_lt_const hu,
      (tendsto_add_mul s v).eventually_const_lt hl] with t hltu hltl
    rw [if_neg hl.not_ge, if_neg hu.not_ge, max_eq_left hltl.le, min_eq_left hltu.le]

/-! ### Points of a box -/

variable {m : Nat} {b : Box ℝ m} {x v : Vec ℝ m}

/-- The part of the direction `v` that does not lead out of the box at `x`. -/
noncomputable def tangent (b : Box ℝ m) (x v : Vec ℝ m) : Vec ℝ m :=
  Vector.ofFn fun i => inward (b.lower.entry i) (b.upper.entry i) (x.entry i) (v.entry i)

theorem getElem_tangent (b : Box ℝ m) (x v : Vec ℝ m) (i : Nat) (hi : i < m) :
    (b.tangent x v)[i] = inward b.lower[i] b.upper[i] x[i] v[i] := by
  unfold tangent
  rw [Vector.getElem_ofFn]
  rfl

theorem tangent_smul {t : ℝ} (ht : 0 ≤ t) : b.tangent x (t • v) = t • b.tangent x v := by
  ext i hi
  rw [Vector.getElem_smul, getElem_tangent, getElem_tangent, Vector.getElem_smul, smul_eq_mul,
    inward_mul _ _ _ _ ht, smul_eq_mul]

theorem inner_tangent_self (b : Box ℝ m) (x v : Vec ℝ m) :
    ⟪v, b.tangent x v⟫_ℝ = ⟪b.tangent x v, b.tangent x v⟫_ℝ := by
  rw [Vec.inner_eq_dot, Vec.inner_eq_dot, Vec.dot_eq_sum, Vec.dot_eq_sum]
  -- coordinate by coordinate: where the tangent is not the velocity it is zero
  refine Finset.sum_congr rfl fun i _ => ?_
  rw [Vec.entry_eq_getElem, Vec.entry_eq_getElem, Fin.getElem_fin, Fin.getElem_fin,
    getElem_tangent, mul_inward]

/-- The tangent is no longer than the direction. -/
theorem inner_self_tangent_le (b : Box ℝ m) (x v : Vec ℝ m) :
    ⟪b.tangent x v, b.tangent x v⟫_ℝ ≤ ⟪v, v⟫_ℝ := by
  have hrest : 0 ≤ ⟪v - b.tangent x v, v - b.tangent x v⟫_ℝ := real_inner_self_nonneg
  have hself := b.inner_tangent_self x v
  rw [inner_sub_left, inner_sub_right, inner_sub_right, real_inner_comm v (b.tangent x v),
    hself] at hrest
  linarith

/-- At first the projection of a ray is the ray along the tangent. -/
theorem eventually_clamp_add_smul (hx : b.clamp x = x) (v : Vec ℝ m) :
    ∀ᶠ t in 𝓝[>] (0 : ℝ), b.clamp (x + t • v) = x + t • b.tangent x v := by
  have hcoordinate : ∀ i : Fin m, ∀ᶠ t in 𝓝[>] (0 : ℝ),
      min (max (x[i] + t * v[i]) b.lower[i]) b.upper[i] =
        x[i] + t * inward b.lower[i] b.upper[i] x[i] v[i] := by
    intro i
    refine eventually_cut_add_mul ?_ _
    rw [Fin.getElem_fin, Fin.getElem_fin, Fin.getElem_fin, ← getElem_clamp, hx]
  -- there are finitely many coordinates, so there is a common range of steps
  filter_upwards [eventually_all.mpr hcoordinate] with t ht
  ext i hi
  rw [getElem_clamp, Vector.getElem_add, Vector.getElem_add, Vector.getElem_smul,
    Vector.getElem_smul, getElem_tangent]
  exact ht ⟨i, hi⟩

/-- A step leads back to the point if its tangent is zero. -/
theorem clamp_add_eq_iff (hx : b.clamp x = x) : b.clamp (x + v) = x ↔ b.tangent x v = 0 := by
  -- a short step goes back exactly if the whole one does
  obtain ⟨t, hclamp, ht⟩ :=
    ((eventually_clamp_add_smul hx v).and self_mem_nhdsWithin).exists
  rw [← b.nearest.project_add_smul_eq_iff hx ht, hclamp, add_eq_left, smul_eq_zero_iff_right ht.ne']

/-! ### Active coordinates -/

/-- Strictly between its bounds lies every coordinate that is not active. -/
theorem lt_and_lt_of_notMem_activeAt {i : Nat} {hi : i < m}
    (h : (⟨i, hi⟩ : Fin m) ∉ b.activeAt x) : b.lower[i] < x[i] ∧ x[i] < b.upper[i] := by
  have htol : (0 : ℝ) < Scalar.activeTolerance := by
    show (0 : ℝ) < 1e-6
    norm_num
  unfold activeAt at h
  rw [List.mem_filter, not_and, Bool.or_eq_true, decide_eq_true_eq, decide_eq_true_eq,
    not_or] at h
  obtain ⟨hlower, hupper⟩ := h (List.mem_finRange _)
  rw [not_le] at hlower hupper
  exact ⟨sub_pos.mp (htol.trans hlower), sub_pos.mp (htol.trans hupper)⟩

theorem getElem_tangent_of_notMem {i : Nat} {hi : i < m} (h : (⟨i, hi⟩ : Fin m) ∉ b.activeAt x)
    (v : Vec ℝ m) : (b.tangent x v)[i] = v[i] := by
  obtain ⟨hlower, hupper⟩ := lt_and_lt_of_notMem_activeAt h
  rw [getElem_tangent]
  exact inward_of_lt hlower hupper _

variable (b x v)

/-- The tangent differs from the direction in active coordinates only. -/
theorem tangent_sub_keep :
    b.tangent x v - Vec.keep (b.activeAt x) (b.tangent x v) =
      v - Vec.keep (b.activeAt x) v := by
  ext i hi
  rw [Vector.getElem_sub, Vector.getElem_sub, Vec.getElem_keep, Vec.getElem_keep]
  split_ifs with h
  · rw [sub_self, sub_self]
  · rw [getElem_tangent_of_notMem h]

/-- The active part of the tangent is the tangent of the active part. -/
theorem keep_tangent :
    Vec.keep (b.activeAt x) (b.tangent x v) = b.tangent x (Vec.keep (b.activeAt x) v) := by
  ext i hi
  rw [Vec.getElem_keep]
  split_ifs with h
  · rw [getElem_tangent, getElem_tangent, Vec.getElem_keep, if_pos h]
  · rw [getElem_tangent_of_notMem h, Vec.getElem_keep, if_neg h]

end Box

end Downhill
