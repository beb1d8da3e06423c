import Downhill.Proofs.Method.Decrease
import Downhill.Proofs.Objective

/-!
# The descent at one scale

How implicit filtering descends at one scale. Over every arithmetic `backtrack_cases` says what a
trial does, and `Descends` lists the ways in which a descent goes on and ends.

In exact arithmetic an accepted step makes the value smaller, because above the tolerance the gap of
the projected step is not zero. So a descent only ends at the value it began with if it did not move
(`exhausted_or_descends`), and then nothing is to be gained at this scale: the stencil is a failure,
the projected simplex gradient is within the tolerance, or no trial step decreases enough
(`Exhausted`).
-/

namespace Downhill.ImplicitFiltering.Scale

variable {σ α : Type} {n : Nat}

section Cases

variable [Scalar α] {s : Scale σ α n} {x y g : Vec α n} {v t : α} {remaining used used' : Nat}

/-! ### Backtracking -/

/-- The trial of the step `t` from `x`, where the simplex gradient is `g`: it looks at the point `y`
with the value `w`, and the projected step leaves the gap `gap`. -/
structure Trial (s : Scale σ α n) (x g : Vec α n) (t : α) (y : Vec α n) (w : α) (gap : Vec α n) :
    Prop where
  /-- The point is projected. -/
  point_eq : s.projection.project (x + t * (factor s.scale g * g)) = .ok y
  /-- The value was evaluated at the point. -/
  value_at : (s.objective.value y).Yields w
  /-- The gap is that of the projected step. -/
  gap_eq : s.projection.gradientStep x (t * g) = .ok gap

/-- A value `w` decreases enough for the step `t` from a point with value `v`. -/
def Suffices (s : Scale σ α n) (v t w : α) (gap : Vec α n) : Prop :=
  w ≤ v - s.config.sigma / t * gap.normSq

/-- Backtracking ends at this trial, or halves the step. -/
theorem backtrack_cases {found : Option (Vec α n)}
    (h : (s.backtrack x g v remaining t used).Yields (found, used')) :
    ∃ y w gap, s.Trial x g t y w gap ∧
      (s.Suffices v t w gap ∧ found = some y ∨
        ¬ s.Suffices v t w gap ∧ (remaining = 0 ∧ found = none ∨ ∃ k, remaining = k + 1 ∧
          (s.backtrack x g v k (t * Scalar.half) (used + 1)).Yields (found, used'))) := by
  unfold backtrack at h
  obtain ⟨y, hy, h⟩ := Run.exists_of_yields_bind h
  obtain ⟨w, hw, h⟩ := Run.exists_of_yields_bind h
  obtain ⟨gap, hgap, h⟩ := Run.exists_of_yields_bind h
  refine ⟨y, w, gap, ⟨Run.ok_of_yields_liftM hy, hw, Run.ok_of_yields_liftM hgap⟩, ?_⟩
  split_ifs at h with hle
  · cases Run.eq_of_yields_pure h
    exact .inl ⟨hle, rfl⟩
  · refine .inr ⟨hle, ?_⟩
    cases remaining with
    | zero =>
      cases Run.eq_of_yields_pure h
      exact .inl ⟨rfl, rfl⟩
    | succ k => exact .inr ⟨k, rfl, h⟩

/-- A point that backtracking finds is that of a trial which decreases enough. -/
theorem trial_of_backtrack_some {Q : α → Prop} (hQ : ∀ {t}, Q t → Q (t * Scalar.half)) :
    ∀ {remaining used : Nat} {t : α}, Q t →
      (s.backtrack x g v remaining t used).Yields (some y, used') →
      ∃ t w gap, Q t ∧ s.Trial x g t y w gap ∧ s.Suffices v t w gap := by
  intro remaining
  -- by induction on the halvings that are left
  induction remaining with
  | zero =>
    intro used t ht h
    obtain ⟨z, w, gap, htrial, ⟨hle, hfound⟩ | ⟨_, ⟨_, hfound⟩ | ⟨k, hk, _⟩⟩⟩ := backtrack_cases h
    · cases hfound
      exact ⟨t, w, gap, ht, htrial, hle⟩
    · cases hfound
    · omega
  | succ remaining ih =>
    intro used t ht h
    obtain ⟨z, w, gap, htrial, ⟨hle, hfound⟩ | ⟨_, ⟨hzero, _⟩ | ⟨k, hk, h⟩⟩⟩ := backtrack_cases h
    · cases hfound
      exact ⟨t, w, gap, ht, htrial, hle⟩
    · omega
    · obtain rfl : remaining = k := by omega
      exact ih (hQ ht) h

/-! ### Steps -/

/-- The descent from `x` with so many steps left ends at `y`, for the reason that it names. -/
inductive Descends (s : Scale σ α n) : Nat → Vec α n → Vec α n → Stop → Prop
  /-- No neighbour on the stencil is better. -/
  | stencilFailure {remaining : Nat} {x g : Vec α n}
      (hg : (Stencil.simplexGradient s.objective x s.scale).Yields g)
      (hfailed : (Stencil.isFailure s.objective x s.scale).Yields true) :
      Descends s remaining x x .stencilFailure
  /-- The gap is within the tolerance. -/
  | stationary {remaining : Nat} {x g gap : Vec α n}
      (hg : (Stencil.simplexGradient s.objective x s.scale).Yields g)
      (hgap : s.projection.gradientStep x g = .ok gap)
      (hle : gap.norm ≤ s.config.tolerance * s.scale) : Descends s remaining x x .stationary
  /-- No step is left, at a point that could have been left. -/
  | stepLimit {x : Vec α n} (hbetter : (Stencil.isFailure s.objective x s.scale).Yields false) :
      Descends s 0 x x .stepLimit
  /-- No trial step decreases enough. -/
  | lineSearchFailure {k used used' : Nat} {x g : Vec α n} {v : α}
      (hg : (Stencil.simplexGradient s.objective x s.scale).Yields g)
      (hvalue : (s.objective.value x).Yields v)
      (hnone : (s.backtrack x g v s.config.maxHalvings 1 used).Yields (none, used')) :
      Descends s (k + 1) x x .lineSearchFailure
  /-- A step is made, and the descent goes on. -/
  | step {k used used' : Nat} {x y z g gap : Vec α n} {v : α} {stop : Stop}
      (hgap : s.projection.gradientStep x g = .ok gap)
      (habove : ¬ gap.norm ≤ s.config.tolerance * s.scale)
      (hvalue : (s.objective.value x).Yields v)
      (hsome : (s.backtrack x g v s.config.maxHalvings 1 used).Yields (some z, used'))
      (hrest : Descends s k z y stop) : Descends s (k + 1) x y stop

/-- A descent that succeeds is one of these. -/
theorem descends_of_yields_iterate :
    ∀ {remaining used : Nat} {x : Vec α n} {stop : Stop},
      (s.iterate remaining x used).Yields (y, stop, used') → s.Descends remaining x y stop := by
  intro remaining
  -- by induction on the steps that are left
  induction remaining with
  | zero =>
    intro used x stop h
    rw [iterate] at h
    obtain ⟨g, hg, h⟩ := Run.exists_of_yields_bind h
    obtain ⟨failed, hfailed, h⟩ := Run.exists_of_yields_bind h
    dsimp only at h
    split_ifs at h with hstop
    · cases Run.eq_of_yields_pure h
      exact .stencilFailure hg (hstop ▸ hfailed)
    obtain ⟨gap, hgap, h⟩ := Run.exists_of_yields_bind h
    split_ifs at h with hle
    · cases Run.eq_of_yields_pure h
      exact .stationary hg (Run.ok_of_yields_liftM hgap) hle
    · cases Run.eq_of_yields_pure h
      exact .stepLimit (Bool.eq_false_iff.mpr hstop ▸ hfailed)
  | succ k ih =>
    intro used x stop h
    rw [iterate] at h
    obtain ⟨g, hg, h⟩ := Run.exists_of_yields_bind h
    obtain ⟨failed, hfailed, h⟩ := Run.exists_of_yields_bind h
    dsimp only at h
    split_ifs at h with hstop
    · cases Run.eq_of_yields_pure h
      exact .stencilFailure hg (hstop ▸ hfailed)
    obtain ⟨gap, hgap, h⟩ := Run.exists_of_yields_bind h
    split_ifs at h with hle
    · cases Run.eq_of_yields_pure h
      exact .stationary hg (Run.ok_of_yields_liftM hgap) hle
    obtain ⟨v, hvalue, h⟩ := Run.exists_of_yields_bind h
    obtain ⟨⟨found, used₂⟩, hfound, h⟩ := Run.exists_of_yields_bind h
    cases found with
    | none =>
      cases Run.eq_of_yields_pure h
      exact .lineSearchFailure hg hvalue hfound
    | some z => exact .step (Run.ok_of_yields_liftM hgap) hle hvalue hfound (ih h)

/-- A descent begins at the projection of its start. -/
theorem descend_cases {stop : Stop} (h : (s.descend x).Yields (y, stop, used)) :
    ∃ z, s.projection.project x = .ok z ∧ s.Descends (10 * n) z y stop := by
  obtain ⟨z, hz, h⟩ := Run.exists_of_yields_bind h
  exact ⟨z, Run.ok_of_yields_liftM hz, descends_of_yields_iterate h⟩

end Cases

/-! ### Exact descents -/

section Exact

variable {s : Scale σ ℝ n} {π : Vec ℝ n → Vec ℝ n} {x y g gap : Vec ℝ n} {v w t : ℝ}
  {remaining : Nat} {stop : Stop}

/-- The step `t` from `x` is refused, where the value is `v` and the simplex gradient `g`: its point
has a value that does not decrease enough. -/
def Refuses (s : Scale σ ℝ n) (x g : Vec ℝ n) (v t : ℝ) : Prop :=
  ∃ y w gap,
    s.projection.project (x - (t * min 1 (10.0 * s.scale / ‖g‖)) • g) = .ok y ∧
    (s.objective.value y).Computes w ∧ s.projection.gradientStep x (t • g) = .ok gap ∧
    v - s.config.sigma / t * ‖gap‖ ^ 2 < w

/-- Nothing is to be gained at the scale from the point `x`, where the value is `v` and the simplex
gradient `g`. -/
inductive NoGain (s : Scale σ ℝ n) (x : Vec ℝ n) (v : ℝ) (g : Vec ℝ n) : Prop
  /-- No neighbour on the stencil has a smaller value. -/
  | stencilFailure
      (hfailed : (Stencil.isFailure s.objective x s.scale).Computes true)
      (hworse : ∀ i, ∃ forward backward,
        (s.objective.value (x.plusAt i s.scale)).Computes forward ∧
        (s.objective.value (x.minusAt i s.scale)).Computes backward ∧ v ≤ forward ∧ v ≤ backward)
  /-- The projected step is within the tolerance. -/
  | stationary {gap : Vec ℝ n} (hgap : s.projection.gradientStep x g = .ok gap)
      (hle : ‖gap‖ ≤ s.config.tolerance * s.scale)
  /-- None of the steps that backtracking tries decreases enough. -/
  | lineSearchFailure (hrefuses : ∀ k ≤ s.config.maxHalvings, s.Refuses x g v ((1 / 2) ^ k))

/-- Nothing is to be gained at the scale from a point. -/
def Exhausted (s : Scale σ ℝ n) (x : Vec ℝ n) : Prop :=
  ∃ v g, (s.objective.value x).Computes v ∧
    (Stencil.simplexGradient s.objective x s.scale).Computes g ∧ s.NoGain x v g

/-- The factor of a step cuts a gradient that is longer than ten scales. -/
theorem factor_real (h : ℝ) (g : Vec ℝ n) : factor h g = -min 1 (10.0 * h / ‖g‖) := by
  unfold factor
  rw [Scalar.min_real, Vec.norm_eq]

theorem trial_point_eq (s : Scale σ ℝ n) (x g : Vec ℝ n) (t : ℝ) :
    x + t * (factor s.scale g * g) = x - (t * min 1 (10.0 * s.scale / ‖g‖)) • g := by
  rw [Vec.hmul_eq_smul, Vec.hmul_eq_smul, factor_real, neg_smul, smul_neg, smul_smul,
    ← sub_eq_add_neg]

/-- Sufficient decrease in terms of the norm. -/
theorem Suffices.le_sub (h : s.Suffices v t w gap) :
    w ≤ v - s.config.sigma / t * ‖gap‖ ^ 2 := by
  rwa [Suffices, Vec.normSq, ← Vec.inner_eq_dot, real_inner_self_eq_norm_sq] at h

/-- A trial that does not decrease enough is a refused step. -/
theorem Trial.refuses (hf : s.objective.Deterministic) (h : s.Trial x g t y w gap)
    (hnot : ¬ s.Suffices v t w gap) : s.Refuses x g v t := by
  refine ⟨y, w, gap, ?_, (hf.value y).computes_of_yields h.value_at, ?_, ?_⟩
  · rw [← trial_point_eq]
    exact h.point_eq
  · rw [← Vec.hmul_eq_smul]
    exact h.gap_eq
  · rwa [Suffices, Vec.normSq, ← Vec.inner_eq_dot, real_inner_self_eq_norm_sq, not_le] at hnot

/-- Backtracking that finds nothing has refused every halving of its step. -/
theorem refuses_of_backtrack_none (hf : s.objective.Deterministic) {used' : Nat} :
    ∀ {remaining used : Nat} {t : ℝ}, (s.backtrack x g v remaining t used).Yields (none, used') →
      ∀ k ≤ remaining, s.Refuses x g v (t * (1 / 2) ^ k) := by
  intro remaining
  induction remaining with
  | zero =>
    intro used t h k hk
    obtain ⟨y, w, gap, htrial, ⟨_, hfound⟩ | ⟨hnot, _⟩⟩ := backtrack_cases h
    · cases hfound
    · obtain rfl : k = 0 := by omega
      rw [pow_zero, mul_one]
      exact htrial.refuses hf hnot
  | succ remaining ih =>
    intro used t h k hk
    obtain ⟨y, w, gap, htrial, ⟨_, hfound⟩ | ⟨hnot, ⟨hzero, _⟩ | ⟨j, hj, h⟩⟩⟩ := backtrack_cases h
    · cases hfound
    · omega
    · obtain rfl : remaining = j := by omega
      -- the step itself, or a halving of what backtracking goes on with
      cases k with
      | zero =>
        rw [pow_zero, mul_one]
        exact htrial.refuses hf hnot
      | succ k =>
        have hrefuses := ih h k (by omega)
        rwa [Scalar.half_real, mul_assoc, ← pow_succ'] at hrefuses

/-- A stencil failure has seen all neighbours. -/
theorem noGain_of_isFailure (hf : s.objective.Deterministic)
    (hvalue : (s.objective.value x).Computes v)
    (hfailed : (Stencil.isFailure s.objective x s.scale).Yields true) : s.NoGain x v g := by
  obtain ⟨center, hcenter, ⟨-, hworse⟩ | ⟨hfalse, -⟩⟩ := Stencil.isFailure_cases hfailed
  · cases hvalue.eq_of_yields hcenter
    refine .stencilFailure ((Stencil.determined_isFailure hf _ _).computes_of_yields hfailed)
      fun i => ?_
    obtain ⟨forward, backward, hneighbours, hforward, hbackward⟩ := hworse i
    exact ⟨forward, backward, (hf.value _).computes_of_yields hneighbours.forward_at,
      (hf.value _).computes_of_yields hneighbours.backward_at, not_lt.mp hforward,
      not_lt.mp hbackward⟩
  · cases hfalse

/-- A point that backtracking finds has a value which is smaller by a part of the gap of its
step. -/
theorem exists_of_backtrack_some (hf : s.objective.Deterministic) {used used' : Nat}
    (h : (s.backtrack x g v remaining 1 used).Yields (some y, used')) :
    ∃ t w gap, 0 < t ∧ (s.objective.value y).Computes w ∧
      s.projection.gradientStep x (t • g) = .ok gap ∧ w ≤ v - s.config.sigma / t * ‖gap‖ ^ 2 := by
  have hhalf : ∀ {t : ℝ}, 0 < t → 0 < t * Scalar.half := fun ht => by
    rw [Scalar.half_real]
    exact mul_pos ht one_half_pos
  obtain ⟨t, w, gap, ht, htrial, hsuffices⟩ := trial_of_backtrack_some hhalf one_pos h
  refine ⟨t, w, gap, ht, (hf.value y).computes_of_yields htrial.value_at, ?_, hsuffices.le_sub⟩
  rw [← Vec.hmul_eq_smul]
  exact htrial.gap_eq

section Descent

variable (hf : s.objective.Deterministic) (hsigma : 0 < s.config.sigma)

include hf hsigma

/-- No step of a descent makes the value larger. -/
theorem Descends.exists_value_le (h : s.Descends remaining x y stop)
    (hv : (s.objective.value x).Computes v) :
    ∃ w, (s.objective.value y).Computes w ∧ w ≤ v := by
  -- by induction on the steps of the descent
  induction h generalizing v with
  | stencilFailure => exact ⟨v, hv, le_rfl⟩
  | stationary => exact ⟨v, hv, le_rfl⟩
  | stepLimit => exact ⟨v, hv, le_rfl⟩
  | lineSearchFailure => exact ⟨v, hv, le_rfl⟩
  | step _ _ hvalue hsome _ ih =>
    cases hv.eq_of_yields hvalue
    -- the step decreases the value by a part of its gap, and the rest does not make it larger
    obtain ⟨t, u, gap, ht, hu, -, hle⟩ := exists_of_backtrack_some hf hsome
    obtain ⟨w, hw, hwu⟩ := ih hu
    have hdecrease := mul_nonneg (div_pos hsigma ht).le (sq_nonneg ‖gap‖)
    exact ⟨w, hw, by linarith⟩

/-- A descent from a feasible point ends at a smaller value, or nothing is to be gained from it. -/
theorem exhausted_or_descends (hP : s.projection.Nearest π) (hscale : 0 < s.scale)
    (htol : 0 < s.config.tolerance) (hv : (s.objective.value x).Computes v)
    (h : s.Descends (10 * n) x y stop) :
    s.Exhausted x ∨ ∃ w, (s.objective.value y).Computes w ∧ w < v := by
  have hgradient : ∀ {g}, (Stencil.simplexGradient s.objective x s.scale).Yields g →
      (Stencil.simplexGradient s.objective x s.scale).Computes g :=
    (Stencil.determined_simplexGradient hf _ _).computes_of_yields
  generalize hsteps : 10 * n = steps at h
  cases h with
  | stencilFailure hg hfailed =>
    exact .inl ⟨v, _, hv, hgradient hg, noGain_of_isFailure hf hv hfailed⟩
  | stationary hg hgap hle => exact .inl ⟨v, _, hv, hgradient hg, .stationary hgap hle⟩
  | stepLimit hbetter =>
    -- without a coordinate there is no better neighbour
    obtain ⟨_, _, ⟨htrue, -⟩ | ⟨-, i, -⟩⟩ := Stencil.isFailure_cases hbetter
    · cases htrue
    · exact absurd i.isLt (by omega)
  -- all halvings of the first step were refused
  | lineSearchFailure hg hvalue hnone =>
    cases hv.eq_of_yields hvalue
    refine .inl ⟨v, _, hv, hgradient hg, .lineSearchFailure fun k hk => ?_⟩
    have hrefuses := refuses_of_backtrack_none hf hnone k hk
    rwa [one_mul] at hrefuses
  | @step _ _ _ _ _ _ g gap _ _ hgap habove hvalue hsome hrest =>
    cases hv.eq_of_yields hvalue
    obtain ⟨t, u, gap', ht, hu, hgap', hle⟩ := exists_of_backtrack_some hf hsome
    obtain ⟨w, hw, hwu⟩ := hrest.exists_value_le hf hsigma hu
    -- a step without a gap would make the point stationary
    have hpos : gap' ≠ 0 := by
      rintro rfl
      rw [hP.gradientStep_eq] at hgap hgap'
      have hstationary : π (x - g) = x :=
        hP.project_sub_eq_of_project_sub_smul_eq ht (sub_eq_zero.mp (Except.ok.inj hgap')).symm
      rw [hstationary, sub_self] at hgap
      cases hgap
      rw [Vec.norm_eq, norm_zero] at habove
      exact habove (mul_pos htol hscale).le
    have hdecrease := mul_pos (div_pos hsigma ht) (pow_pos (norm_pos_iff.mpr hpos) 2)
    exact .inr ⟨w, hw, by linarith⟩

end Descent

end Exact

end Downhill.ImplicitFiltering.Scale
