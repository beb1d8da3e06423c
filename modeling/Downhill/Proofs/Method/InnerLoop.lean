import Downhill.Proofs.Method.ReducedHessian
import Downhill.Proofs.Solve.Conjugacy

/-!
# The inner loop in exact arithmetic

Where the reduced Hessian is a linear map `R`, the inner loop is deterministic: `Truncates R` is the
relation between its first stage, its last stage and the number of steps that it counts, and the
loop gives what `Truncates` says (`truncates_of_yields`, `Truncates.computes`).

If `R` is symmetric, all stages are `Inner.Exact`: as many directions as there were steps lead to
the point of the stage, which lies downhill from the first one. So there are at most `n` steps
(`Truncates.steps_le`), and a loop with that many steps to make always ends (`exists_truncates`).
-/

namespace Downhill.ProjectedNewton

open scoped InnerProductSpace

variable {σ : Type} {n : Nat} {R : Vec ℝ n →ₗ[ℝ] Vec ℝ n} {tolerance forcing : ℝ}

/-! ### Runs of the loop -/

/-- The inner loop of the problem applies the map `R`. -/
def InnerProblem.Applies (p : InnerProblem σ ℝ n) (R : Vec ℝ n →ₗ[ℝ] Vec ℝ n) : Prop :=
  ∀ d, (reducedHessian p.objective p.projection p.base d).Computes (R d)

/-- An inner loop with the map `R` that is at the first stage ends at the second one and has then
counted so many steps. -/
inductive Truncates (R : Vec ℝ n →ₗ[ℝ] Vec ℝ n) (tolerance forcing : ℝ) :
    Inner ℝ n → Inner ℝ n → Nat → Prop
  /-- The residual is below the forcing term. -/
  | within {s : Inner ℝ n} (h : ¬ forcing < ‖s.residual‖) :
      Truncates R tolerance forcing s s s.steps
  /-- The curvature is not positive. -/
  | flat {s : Inner ℝ n} (habove : forcing < ‖s.residual‖)
      (hflat : s.Flat tolerance (R s.direction)) :
      Truncates R tolerance forcing s s (s.steps + 1)
  /-- A step is made. -/
  | step {s last : Inner ℝ n} {steps : Nat} (habove : forcing < ‖s.residual‖)
      (hflat : ¬ s.Flat tolerance (R s.direction))
      (hrest : Truncates R tolerance forcing (s.advance (R s.direction)) last steps) :
      Truncates R tolerance forcing s last steps

theorem truncates_of_yields {p : InnerProblem σ ℝ n} (hp : p.Applies R) :
    ∀ {remaining : Nat} {s : Inner ℝ n} {v : Vec ℝ n} {steps : Nat},
      (innerIterate p remaining s).Yields (v, steps) →
      ∃ last, Truncates R p.config.tolerance p.forcing s last steps ∧ v = last.point := by
  intro remaining
  -- by induction on the steps that the cap admits
  induction remaining with
  | zero =>
    intro s v steps h
    rcases innerIterate_cases h with ⟨hwithin, rfl, rfl⟩ | ⟨_, k, hk, _⟩
    · exact ⟨s, .within hwithin, rfl⟩
    · omega
  | succ remaining ih =>
    intro s v steps h
    rcases innerIterate_cases h with ⟨hwithin, rfl, rfl⟩ | ⟨habove, k, hk, hstep⟩
    · exact ⟨s, .within hwithin, rfl⟩
    obtain rfl : remaining = k := by omega
    -- the step finds that the curvature is flat, or it advances
    rcases hstep with ⟨hnone, rfl, rfl⟩ | ⟨next, hsome, h⟩
    · obtain ⟨image, himage, ⟨hflat, _⟩ | ⟨_, hnext⟩⟩ := innerStep_cases hnone
      · rw [(hp _).eq_of_yields himage] at hflat
        exact ⟨s, .flat habove hflat, rfl⟩
      · cases hnext
    · obtain ⟨image, himage, ⟨_, hnext⟩ | ⟨hflat, hnext⟩⟩ := innerStep_cases hsome
      · cases hnext
      · cases hnext
        rw [(hp _).eq_of_yields himage] at hflat h
        obtain ⟨last, hlast, hpoint⟩ := ih h
        exact ⟨last, .step habove hflat hlast, hpoint⟩

namespace Truncates

variable {s last : Inner ℝ n} {steps : Nat}

/-- What holds at the first stage and is kept by each step holds at the last stage. -/
theorem invariant {I : Inner ℝ n → Prop}
    (hstep : ∀ s, forcing < ‖s.residual‖ → ¬ s.Flat tolerance (R s.direction) → I s →
      I (s.advance (R s.direction)))
    (h : Truncates R tolerance forcing s last steps) (hs : I s) : I last := by
  induction h with
  | within _ => exact hs
  | flat _ _ => exact hs
  | step habove hflat _ ih => exact ih (hstep _ habove hflat hs)

theorem le_steps (h : Truncates R tolerance forcing s last steps) : s.steps ≤ steps := by
  induction h with
  | within _ => exact le_rfl
  | flat _ _ => exact Nat.le_succ _
  | step _ _ _ ih => exact (Nat.le_succ _).trans ih

/-- The loop of every problem with these data does so if its cap admits as many steps. -/
theorem computes (h : Truncates R tolerance forcing s last steps) {p : InnerProblem σ ℝ n}
    (hp : p.Applies R) (htol : p.config.tolerance = tolerance) (hforcing : p.forcing = forcing) :
    ∀ {remaining : Nat}, steps ≤ s.steps + remaining →
      (innerIterate p remaining s).Computes (last.point, steps) := by
  subst htol hforcing
  induction h with
  | within h =>
    intro remaining _
    exact computes_innerIterate_of_not_lt h
  | @flat s habove hflat =>
    intro remaining hcap
    -- the cap leaves room for the step that finds the flat curvature
    obtain ⟨k, rfl⟩ : ∃ k, remaining = k + 1 := ⟨remaining - 1, by omega⟩
    exact computes_innerIterate_of_none habove (computes_innerStep_of_flat (hp _) hflat)
  | @step s last steps habove hflat hrest ih =>
    intro remaining hcap
    have hle : s.steps + 1 ≤ steps := hrest.le_steps
    -- and for the step that is made
    obtain ⟨k, rfl⟩ : ∃ k, remaining = k + 1 := ⟨remaining - 1, by omega⟩
    refine computes_innerIterate_of_some habove (computes_innerStep_of_not_flat (hp _) hflat)
      (ih ?_)
    show steps ≤ s.steps + 1 + k
    omega

end Truncates

/-! ### Exact stages -/

section Advance

variable (s : Inner ℝ n) (image : Vec ℝ n)

theorem Inner.advance_point_sub (x : Vec ℝ n) :
    (s.advance image).point - x =
      s.point - x + (⟪s.residual, s.residual⟫_ℝ / ⟪s.direction, image⟫_ℝ) • s.direction := by
  rw [← Vec.hmul_eq_smul]
  exact add_sub_right_comm _ _ _

theorem Inner.advance_residual :
    (s.advance image).residual =
      s.residual + (⟪s.residual, s.residual⟫_ℝ / ⟪s.direction, image⟫_ℝ) • image := by
  rw [← Vec.hmul_eq_smul]
  rfl

theorem Inner.advance_direction :
    (s.advance image).direction =
      (⟪(s.advance image).residual, (s.advance image).residual⟫_ℝ /
        ⟪s.residual, s.residual⟫_ℝ) • s.direction - (s.advance image).residual := by
  rw [← Vec.hmul_eq_smul]
  rfl

end Advance

/-- As many directions as there were steps lead from `x`, where the gradient is `g`, to the point of
the stage, and after a step this point lies downhill. -/
structure Inner.Exact (R : Vec ℝ n →ₗ[ℝ] Vec ℝ n) (x g : Vec ℝ n) (s : Inner ℝ n) : Prop where
  descending : ∃ S : Submodule ℝ (Vec ℝ n), Module.finrank ℝ S = s.steps ∧
    Descending R g S (s.point - x) s.residual s.direction
  downhill : s.steps ≠ 0 → ⟪g, s.point - x⟫_ℝ < 0

namespace Inner.Exact

variable {x g : Vec ℝ n} {s : Inner ℝ n}

/-- No direction has led to the first stage. -/
theorem start (R : Vec ℝ n →ₗ[ℝ] Vec ℝ n) (x g : Vec ℝ n) :
    Inner.Exact R x g ⟨x, g, -g, 0⟩ where
  descending := by
    refine ⟨⊥, finrank_bot ℝ _, ?_⟩
    rw [sub_self]
    exact .start R g
  downhill h := absurd rfl h

/-- Before the first step the point is `x`. -/
theorem point_eq (h : s.Exact R x g) (hzero : s.steps = 0) : s.point = x := by
  obtain ⟨S, hS, hdesc⟩ := h.descending
  rw [hzero, Submodule.finrank_eq_zero] at hS
  subst hS
  exact sub_eq_zero.mp ((Submodule.mem_bot ℝ).mp hdesc.mem)

/-- There are at most as many independent directions as coordinates. -/
theorem steps_le (h : s.Exact R x g) : s.steps ≤ n := by
  obtain ⟨S, hS, _⟩ := h.descending
  have hle := Submodule.finrank_le S
  rwa [hS, Vec.finrank_eq] at hle

/-- A residual that is not zero leaves room for another direction. -/
theorem steps_lt (h : s.Exact R x g) (hr : s.residual ≠ 0) : s.steps < n := by
  obtain ⟨S, hS, hdesc⟩ := h.descending
  -- a residual is orthogonal to all directions so far
  refine lt_of_le_of_ne h.steps_le fun hn => hr (hdesc.conjugate.eq_zero_of_finrank_eq ?_)
  rw [hS, hn, Vec.finrank_eq]

/-- The point of a stage does not lie uphill. -/
theorem slope_nonpos (h : s.Exact R x g) : ⟪g, s.point - x⟫_ℝ ≤ 0 := by
  by_cases hzero : s.steps = 0
  · rw [h.point_eq hzero, sub_self, inner_zero_right]
  · exact (h.downhill hzero).le

/-- Where the curvature is not flat it is positive. -/
theorem curvature_pos (htol : 0 ≤ tolerance)
    (hflat : ¬ s.Flat tolerance (R s.direction)) : 0 < ⟪s.direction, R s.direction⟫_ℝ :=
  lt_of_le_of_lt (mul_nonneg htol (Vec.dot_self_nonneg _)) (not_le.mp hflat)

/-- A step adds its direction to those before it. -/
theorem advance (hR : R.IsSymmetric) (htol : 0 ≤ tolerance) (h : s.Exact R x g)
    (hr : s.residual ≠ 0) (hflat : ¬ s.Flat tolerance (R s.direction)) :
    (s.advance (R s.direction)).Exact R x g := by
  have hcurv := curvature_pos htol hflat
  have hself : 0 < ⟪s.residual, s.residual⟫_ℝ := real_inner_self_pos.mpr hr
  obtain ⟨S, hS, hdesc⟩ := h.descending
  refine ⟨⟨S ⊔ ℝ ∙ s.direction, ?_, ?_⟩, fun _ => ?_⟩
  · rw [hdesc.conjugate.finrank_sup hcurv.ne', hS]
    rfl
  · rw [Inner.advance_point_sub, Inner.advance_direction]
    exact hdesc.step hR hr hcurv.ne' rfl (Inner.advance_residual s _)
  -- the step goes downhill by the squared residual times its length
  · have hslope := h.slope_nonpos
    have hpos := mul_pos (div_pos hself hcurv) hself
    rw [Inner.advance_point_sub, hdesc.inner_step]
    linarith

end Inner.Exact

/-! ### The number of steps -/

namespace Truncates

variable {x g : Vec ℝ n} {s last : Inner ℝ n} {steps : Nat}

/-- The last stage of an exact loop is exact. -/
theorem exact (hR : R.IsSymmetric) (htol : 0 ≤ tolerance) (hforcing : 0 ≤ forcing)
    (h : Truncates R tolerance forcing s last steps) (hs : s.Exact R x g) : last.Exact R x g := by
  refine h.invariant (fun s habove hflat hs => hs.advance hR htol ?_ hflat) hs
  exact norm_pos_iff.mp (hforcing.trans_lt habove)

/-- There are at most `n` steps, also if the last one only found that the curvature is not
positive. -/
theorem steps_le (hR : R.IsSymmetric) (htol : 0 ≤ tolerance) (hforcing : 0 ≤ forcing)
    (h : Truncates R tolerance forcing s last steps) (hs : s.Exact R x g) : steps ≤ n := by
  induction h with
  | within _ => exact hs.steps_le
  -- the residual is not zero, so there is room for the step that is counted
  | flat habove _ => exact hs.steps_lt (norm_pos_iff.mp (hforcing.trans_lt habove))
  | step habove hflat _ ih =>
    exact ih (hs.advance hR htol (norm_pos_iff.mp (hforcing.trans_lt habove)) hflat)

end Truncates

theorem exists_truncates (hR : R.IsSymmetric) (htol : 0 ≤ tolerance) (hforcing : 0 ≤ forcing)
    {x g : Vec ℝ n} :
    ∀ {k : Nat} {s : Inner ℝ n}, s.Exact R x g → n ≤ s.steps + k →
      ∃ last steps, Truncates R tolerance forcing s last steps := by
  intro k
  -- by induction on the steps that are left
  induction k with
  | zero =>
    intro s hs hk
    by_cases habove : forcing < ‖s.residual‖
    · -- a residual that is not zero leaves room for a step
      have hlt := hs.steps_lt (norm_pos_iff.mp (hforcing.trans_lt habove))
      omega
    · exact ⟨s, _, .within habove⟩
  | succ k ih =>
    intro s hs hk
    by_cases habove : forcing < ‖s.residual‖
    · by_cases hflat : s.Flat tolerance (R s.direction)
      · exact ⟨s, _, .flat habove hflat⟩
      · have hr := norm_pos_iff.mp (hforcing.trans_lt habove)
        have hcount : (s.advance (R s.direction)).steps = s.steps + 1 := rfl
        obtain ⟨last, steps, hlast⟩ := ih (hs.advance hR htol hr hflat) (by omega)
        exact ⟨last, steps, .step habove hflat hlast⟩
    · exact ⟨s, _, .within habove⟩

end Downhill.ProjectedNewton
