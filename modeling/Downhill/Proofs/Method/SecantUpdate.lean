import Downhill.Method.QuasiNewton
import Downhill.Proofs.Exact.Matrix

/-!
# The update of the inverse Hessian

In exact arithmetic the update of `B` is the map `L B Lᵀ + ρ s sᵀ` with `Lᵀ = I - ρ y sᵀ`
(`toLin_update`). So it keeps symmetry, and its quadratic form at `x` is that of `B` at `Lᵀ x` plus
`ρ (sᵀ x)²`, which is positive for a positive definite `B` (`update_isPosDef`).

* `update_isSecantUpdate`: for a step `s` and a change `y` of the gradient with `yᵀs > 0` the update
  is the symmetric one that the method asks for. It sends `y` to `s` (`update_mulVec`), and it is
  the inverse of the update `H - H s sᵀ H / sᵀHs + y yᵀ / yᵀs` of the Hessian itself
  (`isInverse_update`).

The rank-two inversion goes through the shear `Lᵀ`, which removes the new term of the direct update
(`shear_directUpdate`): `B` undoes `H`, and what is left is `x` up to the multiple of `s` that
`ρ s sᵀ` puts back.
-/

namespace Downhill.QuasiNewton

/-! ### The update of the inverse Hessian -/

open scoped InnerProductSpace

variable {n : Nat} {B B' H : Mat ℝ n n} {s y : Vec ℝ n}

/-- The map `x ↦ x - ρ (uᵀ x) v`. -/
noncomputable def shear (ρ : ℝ) (v u : Vec ℝ n) : Vec ℝ n →ₗ[ℝ] Vec ℝ n :=
  LinearMap.id - ρ • (Mat.outer v u).toLin

theorem shear_apply (ρ : ℝ) (v u x : Vec ℝ n) : shear ρ v u x = x - (ρ * u.dot x) • v := by
  rw [shear, LinearMap.sub_apply, LinearMap.id_apply, LinearMap.smul_apply, Mat.toLin_outer,
    smul_smul]

/-- Exchanging the two vectors gives the transposed map. -/
theorem inner_shear (ρ : ℝ) (v u x z : Vec ℝ n) :
    inner ℝ (shear ρ v u x) z = inner ℝ x (shear ρ u v z) := by
  rw [shear_apply, shear_apply, inner_sub_left, inner_sub_right, real_inner_smul_left,
    real_inner_smul_right, ← Vec.inner_eq_dot, ← Vec.inner_eq_dot, real_inner_comm x u]
  ring

/-- There is no update where the curvature is not positive. -/
theorem update_eq_none : update B s y = none ↔ y.dot s ≤ 0 := by
  unfold update
  dsimp only
  split_ifs with h <;> simp [h]

theorem curvature_pos_of_update {B' : Mat ℝ n n} (h : update B s y = some B') : 0 < y.dot s := by
  by_contra hneg
  rw [update_eq_none.mpr (not_lt.mp hneg)] at h
  cases h

theorem toLin_update {B' : Mat ℝ n n} (h : update B s y = some B') :
    B'.toLin = shear (1 / y.dot s) s y ∘ₗ B.toLin ∘ₗ shear (1 / y.dot s) y s +
      (1 / y.dot s) • (Mat.outer s s).toLin := by
  unfold update at h
  dsimp only at h
  split_ifs at h
  cases h
  rw [Mat.toLin_add, Mat.toLin_mul, Mat.toLin_mul, Mat.toLin_sub, Mat.toLin_sub, Mat.toLin_smul,
    Mat.toLin_smul, Mat.toLin_smul, Mat.toLin_identity]
  rfl

theorem inner_update {B' : Mat ℝ n n} (h : update B s y = some B') (x z : Vec ℝ n) :
    inner ℝ x (B'.toLin z) =
      inner ℝ (shear (1 / y.dot s) y s x) (B.toLin (shear (1 / y.dot s) y s z)) +
        1 / y.dot s * (s.dot x * s.dot z) := by
  rw [toLin_update h, LinearMap.add_apply, LinearMap.smul_apply, Mat.toLin_outer, inner_add_right,
    LinearMap.comp_apply, LinearMap.comp_apply, ← inner_shear, real_inner_smul_right,
    real_inner_smul_right, real_inner_comm s x, Vec.inner_eq_dot s x]
  ring

theorem update_isSymm {B' : Mat ℝ n n} (hB : B.IsSymm) (h : update B s y = some B') :
    B'.IsSymm := by
  apply Mat.isSymm_of_isSymmetric_toLin
  intro x z
  rw [real_inner_comm, inner_update h, inner_update h, ← hB.isSymmetric_toLin, real_inner_comm,
    mul_comm (s.dot z)]

/-- The update of a positive definite matrix is positive definite. -/
theorem update_isPosDef {B' : Mat ℝ n n} (hB : B.IsPosDef) (h : update B s y = some B') :
    B'.IsPosDef := by
  have hcurv := curvature_pos_of_update h
  refine ⟨update_isSymm hB.symm h, fun x hx => ?_⟩
  have hform : x.dot (B' * x) =
      (shear (1 / y.dot s) y s x).dot (B * shear (1 / y.dot s) y s x) +
        1 / y.dot s * (s.dot x * s.dot x) := inner_update h x x
  have hB' := hB.isPosDefMap_toLin.nonneg (shear (1 / y.dot s) y s x)
  rw [Mat.toLin_apply] at hB'
  rw [hform]
  by_cases hs : s.dot x = 0
  · -- where `s` is orthogonal to `x` the map leaves `x` as it is
    have hfixed : shear (1 / y.dot s) y s x = x := by
      rw [shear_apply, hs, mul_zero, zero_smul, sub_zero]
    rw [hfixed, hs, mul_zero, mul_zero, add_zero]
    exact hB.pos x hx
  · have hsquare : 0 < 1 / y.dot s * (s.dot x * s.dot x) :=
      mul_pos (one_div_pos.mpr hcurv) (mul_self_pos.mpr hs)
    linarith

/-- Where the curvature is positive, there is an update. -/
theorem exists_update (h : 0 < y.dot s) : ∃ B', update B s y = some B' := by
  refine Option.ne_none_iff_exists'.mp fun hnone => ?_
  exact absurd (update_eq_none.mp hnone) (not_le.mpr h)

/-- Operands of fitting shapes pass the checks. -/
theorem updateAny_eq (B : Mat ℝ n n) (s y : Vec ℝ n) : updateAny B s y = .ok (update B s y) := by
  unfold updateAny
  rw [Vec.fit_self]
  by_cases h : y.dot s ≤ 0
  · rw [update_eq_none.mpr h]
    exact if_pos h
  · rw [Mat.fit_self]
    exact if_neg h

theorem update_mulVec_eq (h : update B s y = some B') (x : Vec ℝ n) :
    B' * x = shear (1 / y.dot s) s y (B * shear (1 / y.dot s) y s x) +
      (1 / y.dot s * s.dot x) • s := by
  rw [← Mat.toLin_apply, toLin_update h, LinearMap.add_apply, LinearMap.smul_apply,
    Mat.toLin_outer, smul_smul]
  rfl

/-! ### The secant equation -/

/-- The shear of the update removes the change of the gradient. -/
theorem shear_self (h : y.dot s ≠ 0) : shear (1 / y.dot s) y s y = 0 := by
  rw [shear_apply, Vec.dot_comm s y, one_div_mul_cancel h, one_smul, sub_self]

/-- The update sends the change of the gradient to the step. -/
theorem update_mulVec (h : update B s y = some B') : B' * y = s := by
  have hcurv := (curvature_pos_of_update h).ne'
  rw [update_mulVec_eq h, shear_self hcurv, ← Mat.toLin_apply, map_zero, map_zero, zero_add,
    Vec.dot_comm s y, one_div_mul_cancel hcurv, one_smul]

/-! ### The direct update -/

/-- The update of the Hessian itself by a step `s` and a change `y` of the gradient. -/
noncomputable def directUpdate (H : Mat ℝ n n) (s y : Vec ℝ n) : Mat ℝ n n :=
  H - (1 / s.dot (H * s)) * (H * Mat.outer s s * H) + (1 / y.dot s) * Mat.outer y y

/-- What the direct update makes of a vector. -/
theorem directUpdate_mulVec (H : Mat ℝ n n) (s y x : Vec ℝ n) :
    directUpdate H s y * x =
      H * x - (s.dot (H * x) / s.dot (H * s)) • (H * s) + (y.dot x / y.dot s) • y := by
  rw [← Mat.toLin_apply, directUpdate, Mat.toLin_add, Mat.toLin_sub, Mat.toLin_smul, Mat.toLin_smul,
    Mat.toLin_mul, Mat.toLin_mul]
  simp only [LinearMap.add_apply, LinearMap.sub_apply, LinearMap.smul_apply, LinearMap.comp_apply,
    Mat.toLin_outer, map_smul, smul_smul, one_div_mul_eq_div]
  rfl

/-- The product of the step with the direct update is the change of the gradient. -/
theorem dot_directUpdate (hH : s.dot (H * s) ≠ 0) (hcurv : y.dot s ≠ 0) (x : Vec ℝ n) :
    s.dot (directUpdate H s y * x) = y.dot x := by
  rw [directUpdate_mulVec, ← Vec.inner_eq_dot, inner_add_right, inner_sub_right,
    real_inner_smul_right, real_inner_smul_right, real_inner_comm y s, Vec.inner_eq_dot,
    Vec.inner_eq_dot, Vec.inner_eq_dot, div_mul_cancel₀ _ hH, div_mul_cancel₀ _ hcurv, sub_self,
    zero_add]

/-- The shear of the update removes the new term of the direct update. -/
theorem shear_directUpdate (hH : s.dot (H * s) ≠ 0) (hcurv : y.dot s ≠ 0) (x : Vec ℝ n) :
    shear (1 / y.dot s) y s (directUpdate H s y * x) =
      H * x - (s.dot (H * x) / s.dot (H * s)) • (H * s) := by
  rw [shear_apply, dot_directUpdate hH hcurv, directUpdate_mulVec, one_div_mul_eq_div,
    add_sub_cancel_right]

/-- The update of the inverse of `H` is the inverse of the direct update of `H`. -/
theorem isInverse_update (hH : H.IsPosDef) (hinv : B.IsInverse H) (h : update B s y = some B') :
    B'.IsInverse (directUpdate H s y) := by
  have hcurv := (curvature_pos_of_update h).ne'
  have hs : s ≠ 0 := by
    rintro rfl
    rw [← Vec.inner_eq_dot, inner_zero_right] at hcurv
    exact hcurv rfl
  have hcurv' := (hH.pos s hs).ne'
  apply Mat.isInverse_of_mulVec
  intro x
  set t := s.dot (H * x) / s.dot (H * s)
  -- `B` undoes `H` in both terms
  have hback : B * (H * x - t • (H * s)) = x - t • s := by
    rw [← Mat.toLin_apply, map_sub, map_smul, Mat.toLin_apply, Mat.toLin_apply,
      hinv.mulVec_mulVec, hinv.mulVec_mulVec]
  -- the shear takes out the multiple of `s` that is left
  have hdot : y.dot (x - t • s) = y.dot x - t * y.dot s := by
    rw [← Vec.inner_eq_dot, inner_sub_right, real_inner_smul_right]
    rfl
  rw [update_mulVec_eq h, shear_directUpdate hcurv' hcurv, hback, dot_directUpdate hcurv' hcurv,
    shear_apply, hdot, mul_sub, mul_left_comm, one_div_mul_cancel hcurv, mul_one]
  module

/-! ### The laws of the update -/

/-- What the method asks of the matrix that replaces `B` after the step `s` with the change `y` of
the gradient. -/
structure IsSecantUpdate (B : Mat ℝ n n) (s y : Vec ℝ n) (B' : Mat ℝ n n) : Prop where
  /-- It is symmetric. -/
  symm : B'.IsSymm
  /-- It sends the change of the gradient to the step. -/
  secant : B' * y = s
  /-- It is positive definite if `B` is. -/
  posDef : B.IsPosDef → B'.IsPosDef
  /-- It is inverse to the direct update of the matrix that `B` is inverse to. -/
  inverse : ∀ H : Mat ℝ n n, H.IsPosDef → B.IsInverse H → B'.IsInverse (directUpdate H s y)

/-- The update of a symmetric matrix is missing exactly where the curvature `yᵀs` is not positive.
Elsewhere it is symmetric, satisfies the secant equation, keeps the matrix positive definite, and is
inverse to the direct update. -/
theorem update_isSecantUpdate (hB : B.IsSymm) (s y : Vec ℝ n) :
    updateAny B s y = .ok (update B s y) ∧ (update B s y = none ↔ y.dot s ≤ 0) ∧
      (0 < y.dot s → ∃ B', update B s y = some B' ∧ IsSecantUpdate B s y B') := by
  refine ⟨updateAny_eq B s y, update_eq_none, fun hcurv => ?_⟩
  obtain ⟨B', h⟩ := exists_update (B := B) hcurv
  exact ⟨B', h,
    { symm := update_isSymm hB h
      secant := update_mulVec h
      posDef := fun hpos => update_isPosDef hpos h
      inverse := fun H hH hinv => isInverse_update hH hinv h }⟩

/-- The inverse of a matrix that is not diagonal is updated to the inverse of another one. Along the
second coordinate, where the curvature would vanish, there is no update. -/
theorem update_isSecantUpdate_symmTwo :
    (Mat.symmTwo 1 1 2).IsPosDef ∧ (Mat.symmTwo 2 (-1) 1).IsPosDef ∧
      (Mat.symmTwo 1 1 2).IsInverse (Mat.symmTwo 2 (-1) 1) ∧
      0 < Vec.dot (#v[2, 1] : Vec ℝ 2) #v[1, 0] ∧
      (∃ B', update (Mat.symmTwo 1 1 2) #v[1, 0] #v[2, 1] = some B' ∧ B'.IsPosDef ∧
        B' * (#v[2, 1] : Vec ℝ 2) = #v[1, 0] ∧
        B'.IsInverse (directUpdate (Mat.symmTwo 2 (-1) 1) #v[1, 0] #v[2, 1])) ∧
      update (Mat.symmTwo 1 1 2) #v[1, 0] #v[0, 3] = none := by
  have hB : (Mat.symmTwo 1 1 2).IsPosDef := Mat.symmTwo_isPosDef one_pos (by norm_num)
  have hH : (Mat.symmTwo 2 (-1) 1).IsPosDef := Mat.symmTwo_isPosDef two_pos (by norm_num)
  have hinv : (Mat.symmTwo 1 1 2).IsInverse (Mat.symmTwo 2 (-1) 1) := by
    refine Mat.isInverse_of_mulVec fun x => ?_
    rw [Vec.eq_pair x, Mat.symmTwo_mulVec, Mat.symmTwo_mulVec]
    congr 1
    ring_nf
  have hpos : 0 < Vec.dot (#v[2, 1] : Vec ℝ 2) #v[1, 0] := by
    rw [Vec.dot_pair]
    norm_num
  -- along the second coordinate the gradient does not change with the first
  have hflat : Vec.dot (#v[0, 3] : Vec ℝ 2) #v[1, 0] ≤ 0 := by
    rw [Vec.dot_pair]
    norm_num
  obtain ⟨-, -, hupdate⟩ := update_isSecantUpdate hB.symm #v[1, 0] #v[2, 1]
  obtain ⟨-, hnone, -⟩ := update_isSecantUpdate hB.symm #v[1, 0] #v[0, 3]
  obtain ⟨B', h, hsecant⟩ := hupdate hpos
  exact ⟨hB, hH, hinv, hpos,
    ⟨B', h, hsecant.posDef hB, hsecant.secant, hsecant.inverse _ hH hinv⟩, hnone.mpr hflat⟩

end Downhill.QuasiNewton
