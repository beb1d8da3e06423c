import Downhill.Proofs.Exact.Differences
import Downhill.Proofs.Method.ScaleCertificate

/-!
# How far a descent at one scale goes

`Scale.Course` is the course of a descent at one scale: which tests it passes, from where and along
which simplex gradients it searches, and how it ends. A descent has the end of its course
(`Course.computes_iterate`), and where the values and the projection do not fail there is a course
(`exists_course`).

* `Scale.descend_in_range`: in exact arithmetic, over a box or a ball, a descent at the scale `h`
  ends at a feasible point at most `100 n h` away from the projection of its start, with a smaller
  value unless it has not moved. It never searches along a simplex gradient of zero, and so never
  divides by its norm.

A step is no longer than `10 h`, since the projection does not expand it, and it makes the value
smaller, since above the tolerance the projected step has a gap (`Gains`). A gradient of zero leaves
no gap, so that the test of stationarity ends the descent before it searches.
-/

namespace Downhill

/-- A simplex gradient exists where the values do. -/
theorem Stencil.exists_computes_simplexGradient {σ α : Type} [Scalar α] {n : Nat}
    {f : Objective σ α n} {F : Vec α n → α} (hF : ∀ y, (f.value y).Computes (F y)) (x : Vec α n)
    {h : α} (hh : 0 < h) : ∃ g, (simplexGradient f x h).Computes g := by
  have hcheck : checkScale h = .ok () := if_pos hh
  exact ⟨_, (Run.computes_liftM hcheck).bind (Run.computes_tabulateM fun i =>
    (hF _).bind ((hF _).bind (Run.computes_pure _)))⟩

namespace ImplicitFiltering.Scale

variable {σ α : Type} {n : Nat}

/-! ### The course of a descent -/

section Course

variable [Scalar α] {s : Scale σ α n} {x y : Vec α n} {searches : List (Vec α n × Vec α n)}
  {stop : Stop} {remaining : Nat}

/-- The descent does not end with the tests at `x`, where the simplex gradient is `g`: the stencil
is not a failure, and the gap is above the tolerance. -/
structure GoesOn (s : Scale σ α n) (x g : Vec α n) : Prop where
  /-- The simplex gradient. -/
  gradient_at : (Stencil.simplexGradient s.objective x s.scale).Computes g
  /-- Some neighbour on the stencil is better. -/
  better : (Stencil.isFailure s.objective x s.scale).Computes false
  /-- The projected step leaves a gap. -/
  above : ∃ gap, s.projection.gradientStep x g = .ok gap ∧
    ¬ gap.norm ≤ s.config.tolerance * s.scale

/-- Backtracking from `x` along the simplex gradient `g` comes to the result `found`. -/
def Finds (s : Scale σ α n) (x g : Vec α n) (found : Option (Vec α n)) : Prop :=
  ∃ v, (s.objective.value x).Computes v ∧ ∀ used, ∃ used',
    (s.backtrack x g v s.config.maxHalvings 1 used).Computes (found, used')

/-- The descent from `x` with so many steps left ends at `y`, for the reason that it names, after
the searches of a list. A search is given by the point from which and the simplex gradient along
which it is made. -/
inductive Course (s : Scale σ α n) :
    Nat → Vec α n → List (Vec α n × Vec α n) → Vec α n → Stop → Prop
  /-- No neighbour on the stencil is better. -/
  | stencilFailure {remaining : Nat} {x g : Vec α n}
      (hg : (Stencil.simplexGradient s.objective x s.scale).Computes g)
      (hfailed : (Stencil.isFailure s.objective x s.scale).Computes true) :
      Course s remaining x [] x .stencilFailure
  /-- The gap is within the tolerance. -/
  | stationary {remaining : Nat} {x g gap : Vec α n}
      (hg : (Stencil.simplexGradient s.objective x s.scale).Computes g)
      (hbetter : (Stencil.isFailure s.objective x s.scale).Computes false)
      (hgap : s.projection.gradientStep x g = .ok gap)
      (hle : gap.norm ≤ s.config.tolerance * s.scale) : Course s remaining x [] x .stationary
  /-- No step is left. -/
  | stepLimit {x g : Vec α n} (hgoes : s.GoesOn x g) : Course s 0 x [] x .stepLimit
  /-- The search finds no step. -/
  | lineSearchFailure {k : Nat} {x g : Vec α n} (hgoes : s.GoesOn x g)
      (hnone : s.Finds x g none) : Course s (k + 1) x [(x, g)] x .lineSearchFailure
  /-- The search finds a step, and the descent goes on from there. -/
  | step {k : Nat} {x y z g : Vec α n} {searches : List (Vec α n × Vec α n)} {stop : Stop}
      (hgoes : s.GoesOn x g) (hsome : s.Finds x g (some z)) (hrest : Course s k z searches y stop) :
      Course s (k + 1) x ((x, g) :: searches) y stop

/-- Without a step left, a descent that could go on ends. -/
theorem GoesOn.computes_iterate_zero {g : Vec α n} (h : s.GoesOn x g) (used : Nat) :
    (s.iterate 0 x used).Computes (x, .stepLimit, used + stencilCost n) := by
  obtain ⟨gap, hgap, habove⟩ := h.above
  rw [iterate]
  refine h.gradient_at.bind (h.better.bind ((Run.computes_liftM hgap).bind ?_))
  rw [if_neg habove]
  exact Run.computes_pure _

/-- With a step left, what the search finds decides how it goes on. -/
theorem GoesOn.exists_computes_iterate_succ {g : Vec α n} {found : Option (Vec α n)} {k : Nat}
    (h : s.GoesOn x g) (hfound : s.Finds x g found) (used : Nat)
    (hrest : ∀ used, ∃ used', (match found with
      | some z => s.iterate k z used
      | none => pure (x, .lineSearchFailure, used) : Run σ α _).Computes (y, stop, used')) :
    ∃ used', (s.iterate (k + 1) x used).Computes (y, stop, used') := by
  obtain ⟨gap, hgap, habove⟩ := h.above
  obtain ⟨v, hv, hsearch⟩ := hfound
  obtain ⟨used', hsearch⟩ := hsearch (used + stencilCost n + 1)
  obtain ⟨used'', hrest⟩ := hrest used'
  refine ⟨used'', ?_⟩
  rw [iterate]
  refine h.gradient_at.bind (h.better.bind ((Run.computes_liftM hgap).bind ?_))
  rw [if_neg habove]
  exact hv.bind (hsearch.bind hrest)

theorem Course.computes_iterate (h : s.Course remaining x searches y stop) (used : Nat) :
    ∃ used', (s.iterate remaining x used).Computes (y, stop, used') := by
  -- by induction on the course; the count of values does not matter
  induction h generalizing used with
  | stencilFailure hg hfailed =>
    rw [iterate]
    exact ⟨_, hg.bind (hfailed.bind (Run.computes_pure _))⟩
  | stationary hg hbetter hgap hle =>
    refine ⟨used + stencilCost n, ?_⟩
    rw [iterate]
    refine hg.bind (hbetter.bind ((Run.computes_liftM hgap).bind ?_))
    rw [if_pos hle]
    exact Run.computes_pure _
  | stepLimit hgoes => exact ⟨_, hgoes.computes_iterate_zero used⟩
  | lineSearchFailure hgoes hnone =>
    exact hgoes.exists_computes_iterate_succ hnone used fun used => ⟨used, Run.computes_pure _⟩
  | step hgoes hsome _ ih => exact hgoes.exists_computes_iterate_succ hsome used ih

/-! ### Backtracking ends -/

section Trial

variable {x g y gap : Vec α n} {v w t : α} {used : Nat}
  (hy : s.projection.project (x + t * (factor s.scale g * g)) = .ok y)
  (hw : (s.objective.value y).Computes w) (hgap : s.projection.gradientStep x (t * g) = .ok gap)

include hy hw hgap

/-- A trial that decreases enough is found. -/
theorem computes_backtrack_of_suffices (h : s.Suffices v t w gap) :
    (s.backtrack x g v remaining t used).Computes (some y, used + 1) := by
  unfold backtrack
  refine (Run.computes_liftM hy).bind (hw.bind ((Run.computes_liftM hgap).bind ?_))
  rw [if_pos (show w ≤ _ from h)]
  exact Run.computes_pure _

/-- A trial that does not is the last one if no halving is left. -/
theorem computes_backtrack_of_cap (h : ¬ s.Suffices v t w gap) :
    (s.backtrack x g v 0 t used).Computes (none, used + 1) := by
  unfold backtrack
  refine (Run.computes_liftM hy).bind (hw.bind ((Run.computes_liftM hgap).bind ?_))
  rw [if_neg (show ¬ w ≤ _ from h)]
  exact Run.computes_pure _

/-- Otherwise backtracking goes on with half the step. -/
theorem computes_backtrack_of_halve {r : Option (Vec α n) × Nat} (h : ¬ s.Suffices v t w gap)
    (hrest : (s.backtrack x g v remaining (t * Scalar.half) (used + 1)).Computes r) :
    (s.backtrack x g v (remaining + 1) t used).Computes r := by
  rw [backtrack]
  refine (Run.computes_liftM hy).bind (hw.bind ((Run.computes_liftM hgap).bind ?_))
  rw [if_neg (show ¬ w ≤ _ from h)]
  exact hrest

end Trial

/-! ### Every descent has a course -/

section Total

variable {F : Vec α n → α} {π : Vec α n → Vec α n}
  (hF : ∀ y, (s.objective.value y).Computes (F y))
  (hP : ∀ y, s.projection.project y = .ok (π y))

include hP in
theorem gradientStep_of_project (x g : Vec α n) :
    s.projection.gradientStep x g = .ok (x - π (x - g)) := by
  unfold Projection.gradientStep
  rw [hP]
  rfl

include hF hP

/-- Backtracking ends, and what it finds does not depend on the count. -/
theorem exists_computes_backtrack (x g : Vec α n) (v : α) (remaining : Nat) (t : α) :
    ∃ found, ∀ used, ∃ used', (s.backtrack x g v remaining t used).Computes (found, used') := by
  -- by induction on the halvings that are left
  induction remaining generalizing t with
  | zero =>
    have hy := hP (x + t * (factor s.scale g * g))
    have hgap := gradientStep_of_project hP x (t * g)
    by_cases h : s.Suffices v t (F (π (x + t * (factor s.scale g * g)))) (x - π (x - t * g))
    · exact ⟨_, fun used => ⟨_, computes_backtrack_of_suffices hy (hF _) hgap h⟩⟩
    · exact ⟨_, fun used => ⟨_, computes_backtrack_of_cap hy (hF _) hgap h⟩⟩
  | succ k ih =>
    have hy := hP (x + t * (factor s.scale g * g))
    have hgap := gradientStep_of_project hP x (t * g)
    by_cases h : s.Suffices v t (F (π (x + t * (factor s.scale g * g)))) (x - π (x - t * g))
    · exact ⟨_, fun used => ⟨_, computes_backtrack_of_suffices hy (hF _) hgap h⟩⟩
    · obtain ⟨found, hfound⟩ := ih (t * Scalar.half)
      refine ⟨found, fun used => ?_⟩
      obtain ⟨used', hrest⟩ := hfound (used + 1)
      exact ⟨used', computes_backtrack_of_halve hy (hF _) hgap h hrest⟩

theorem exists_finds (x g : Vec α n) : ∃ found, s.Finds x g found := by
  obtain ⟨found, hfound⟩ := exists_computes_backtrack hF hP x g (F x) s.config.maxHalvings 1
  exact ⟨found, F x, hF x, hfound⟩

section Positive

variable (hscale : 0 < s.scale)

include hscale

/-- The tests end the descent, or it goes on. -/
theorem ends_or_goesOn (x : Vec α n) :
    (∃ stop, ∀ remaining, s.Course remaining x [] x stop) ∨ ∃ g, s.GoesOn x g := by
  obtain ⟨g, hg⟩ := Stencil.exists_computes_simplexGradient hF x hscale
  obtain ⟨failed, hfailed, -⟩ := Stencil.computes_isFailure (x := x) hF hscale
  cases failed with
  | true => exact .inl ⟨.stencilFailure, fun _ => .stencilFailure hg hfailed⟩
  | false =>
    have hgap := gradientStep_of_project hP x g
    by_cases hle : (x - π (x - g)).norm ≤ s.config.tolerance * s.scale
    · exact .inl ⟨.stationary, fun _ => .stationary hg hfailed hgap hle⟩
    · exact .inr ⟨g, hg, hfailed, _, hgap, hle⟩

theorem exists_course (remaining : Nat) (x : Vec α n) :
    ∃ searches y stop, s.Course remaining x searches y stop := by
  -- by induction on the steps that are left
  induction remaining generalizing x with
  | zero =>
    obtain ⟨stop, hends⟩ | ⟨g, hgoes⟩ := ends_or_goesOn hF hP hscale x
    · exact ⟨_, _, _, hends 0⟩
    · exact ⟨_, _, _, .stepLimit hgoes⟩
  | succ k ih =>
    obtain ⟨stop, hends⟩ | ⟨g, hgoes⟩ := ends_or_goesOn hF hP hscale x
    · exact ⟨_, _, _, hends (k + 1)⟩
    obtain ⟨found, hfound⟩ := exists_finds hF hP x g
    cases found with
    | none => exact ⟨_, _, _, .lineSearchFailure hgoes hfound⟩
    | some z =>
      obtain ⟨searches, y, stop, hrest⟩ := ih z
      exact ⟨_, _, _, .step hgoes hfound hrest⟩

end Positive

end Total

end Course

/-! ### Exact courses -/

section Exact

variable {s : Scale σ ℝ n} {F : Vec ℝ n → ℝ} {π : Vec ℝ n → Vec ℝ n} {x y z g : Vec ℝ n}
  {r r' : ℝ}

/-- The descent gets from `x` to the feasible point `y`, which is at most `r` away and has a smaller
value unless it is `x`. -/
structure Gains (s : Scale σ ℝ n) (F : Vec ℝ n → ℝ) (x y : Vec ℝ n) (r : ℝ) : Prop where
  /-- The point is a projection. -/
  projected : s.projection.project y = .ok y
  /-- The value is not larger. -/
  value_le : F y ≤ F x
  /-- It is smaller if the point has moved. -/
  eq_of_value_eq : F y = F x → y = x
  /-- The distance. -/
  norm_sub_le : ‖y - x‖ ≤ r

/-- Not to move at all is a gain of nothing. -/
theorem Gains.refl (hx : s.projection.project x = .ok x) (hr : 0 ≤ r) : s.Gains F x x r where
  projected := hx
  value_le := le_rfl
  eq_of_value_eq _ := rfl
  norm_sub_le := by rwa [sub_self, norm_zero]

theorem Gains.trans (h : s.Gains F x y r) (h' : s.Gains F y z r') : s.Gains F x z (r + r') where
  projected := h'.projected
  value_le := h'.value_le.trans h.value_le
  -- where the value is the same at the end, neither gain has moved
  eq_of_value_eq heq := by
    have hmiddle : F y = F x := le_antisymm h.value_le (heq ▸ h'.value_le)
    rw [h'.eq_of_value_eq (heq.trans hmiddle.symm), h.eq_of_value_eq hmiddle]
  norm_sub_le :=
    calc ‖z - x‖ = ‖(y - x) + (z - y)‖ := by rw [sub_add_sub_cancel']
      _ ≤ ‖y - x‖ + ‖z - y‖ := norm_add_le _ _
      _ ≤ r + r' := add_le_add h.norm_sub_le h'.norm_sub_le

/-- The direction of a step is not longer than ten scales. -/
theorem min_mul_norm_le {h : ℝ} (hh : 0 < h) (g : Vec ℝ n) :
    min 1 (10.0 * h / ‖g‖) * ‖g‖ ≤ 10 * h := by
  rcases eq_or_ne ‖g‖ 0 with hg | hg
  · rw [hg, mul_zero]
    positivity
  · calc min 1 (10.0 * h / ‖g‖) * ‖g‖ ≤ 10.0 * h / ‖g‖ * ‖g‖ :=
          mul_le_mul_of_nonneg_right (min_le_right _ _) (norm_nonneg g)
      _ = 10 * h := by
          rw [div_mul_cancel₀ _ hg]
          norm_num

section Steps

variable (hP : s.projection.Nearest π) (hscale : 0 < s.scale)

include hP hscale

/-- The projection of a trial is not farther away than ten scales. -/
theorem norm_trial_sub_le (hx : π x = x) {t : ℝ} (ht : 0 < t) (ht' : t ≤ 1) :
    ‖π (x - (t * min 1 (10.0 * s.scale / ‖g‖)) • g) - x‖ ≤ 10 * s.scale := by
  set c := min 1 (10.0 * s.scale / ‖g‖) with hc
  have hc' : 0 ≤ c := le_min zero_le_one (by positivity)
  calc ‖π (x - (t * c) • g) - x‖ = ‖π (x - (t * c) • g) - π x‖ := by rw [hx]
    _ ≤ ‖x - (t * c) • g - x‖ := hP.norm_sub_le _ _
    _ = t * (c * ‖g‖) := by
      rw [sub_sub_cancel_left, norm_neg, norm_smul, Real.norm_of_nonneg (mul_nonneg ht.le hc'),
        mul_assoc]
    _ ≤ 1 * (c * ‖g‖) := mul_le_mul_of_nonneg_right ht' (mul_nonneg hc' (norm_nonneg g))
    _ ≤ 10 * s.scale := by
      rw [one_mul]
      exact min_mul_norm_le hscale g

variable (htol : 0 < s.config.tolerance)

include htol

/-- Where the tests do not end the descent, no projected gradient step stays. -/
theorem GoesOn.project_ne (h : s.GoesOn x g) {t : ℝ} (ht : 0 < t) : π (x - t • g) ≠ x := by
  intro hstays
  obtain ⟨gap, hgap, habove⟩ := h.above
  rw [hP.gradientStep_eq, hP.project_sub_eq_of_project_sub_smul_eq ht hstays, sub_self] at hgap
  cases hgap
  rw [Vec.norm_eq, norm_zero] at habove
  exact habove (mul_pos htol hscale).le

/-- So the simplex gradient is not zero there. -/
theorem GoesOn.gradient_ne_zero (h : s.GoesOn x g) (hx : π x = x) : g ≠ 0 := by
  rintro rfl
  refine h.project_ne hP hscale htol one_pos ?_
  rw [smul_zero, sub_zero, hx]

variable [Inhabited σ] (hF : ∀ y, (s.objective.value y).Computes (F y))
  (hsigma : 0 < s.config.sigma)

include hF hsigma

theorem GoesOn.gains (h : s.GoesOn x g) (hx : π x = x) (hfinds : s.Finds x g (some y)) :
    s.Gains F x y (10 * s.scale) := by
  obtain ⟨v, hv, hsearch⟩ := hfinds
  obtain rfl := (hF x).eq_of_yields hv.yields
  obtain ⟨used', hsearch⟩ := hsearch 0
  -- the steps that backtracking tries lie between zero and one
  have hhalf : ∀ {t : ℝ}, 0 < t ∧ t ≤ 1 → 0 < t * Scalar.half ∧ t * Scalar.half ≤ 1 :=
    fun ⟨ht, ht'⟩ => by
      rw [Scalar.half_real]
      exact ⟨by positivity, by linarith⟩
  obtain ⟨t, w, gap, ⟨ht, ht'⟩, htrial, hsuffices⟩ :=
    trial_of_backtrack_some (Q := fun t => 0 < t ∧ t ≤ 1) hhalf ⟨one_pos, le_rfl⟩ hsearch.yields
  obtain rfl := (hF y).eq_of_yields htrial.value_at
  have hpoint := htrial.point_eq
  rw [trial_point_eq, hP.project] at hpoint
  have hy := Except.ok.inj hpoint
  -- the value decreases by a part of the gap, which is not zero
  have hless : F y < F x := by
    have hgap := htrial.gap_eq
    rw [Vec.hmul_eq_smul, hP.gradientStep_eq] at hgap
    have hne : x - π (x - t • g) ≠ 0 := fun hzero =>
      h.project_ne hP hscale htol ht (sub_eq_zero.mp hzero).symm
    rw [Except.ok.inj hgap] at hne
    have hdecrease := mul_pos (div_pos hsigma ht) (pow_pos (norm_pos_iff.mpr hne) 2)
    linarith [hsuffices.le_sub]
  exact {
    projected := by rw [← hy, hP.project, hP.idem]
    value_le := hless.le
    eq_of_value_eq := fun heq => absurd heq hless.ne
    norm_sub_le := hy ▸ norm_trial_sub_le hP hscale hx ht ht' }

/-- A course gains at most ten scales with every step, and every search is along a gradient that is
not zero. -/
theorem Course.gains {remaining : Nat} {searches : List (Vec ℝ n × Vec ℝ n)} {stop : Stop}
    (h : s.Course remaining x searches y stop) (hx : π x = x) :
    s.Gains F x y (remaining * (10 * s.scale)) ∧ ∀ q ∈ searches, q.2 ≠ 0 := by
  -- a descent that ends with its tests does not move
  have hstay : ∀ {x : Vec ℝ n} (remaining : Nat), π x = x →
      s.Gains F x x (remaining * (10 * s.scale)) := fun remaining hx =>
    .refl (by rw [hP.project, hx]) (by positivity)
  -- by induction on the course
  induction h with
  | stencilFailure => exact ⟨hstay _ hx, by simp⟩
  | stationary => exact ⟨hstay _ hx, by simp⟩
  | stepLimit => exact ⟨hstay _ hx, by simp⟩
  | lineSearchFailure hgoes =>
    refine ⟨hstay _ hx, fun q hq => ?_⟩
    rw [List.mem_singleton.mp hq]
    exact hgoes.gradient_ne_zero hP hscale htol hx
  | step hgoes hsome _ ih =>
    have hgain := hgoes.gains hP hscale htol hF hsigma hx hsome
    have hz := hgain.projected
    rw [hP.project] at hz
    obtain ⟨hrest, hsearches⟩ := ih (Except.ok.inj hz)
    refine ⟨?_, List.forall_mem_cons.mpr ⟨hgoes.gradient_ne_zero hP hscale htol hx, hsearches⟩⟩
    rw [Nat.cast_succ, add_one_mul, add_comm]
    exact hgain.trans hrest

end Steps

/-- At two, a descent over the box from one to two goes on for half the square. -/
theorem course_edge_ne_nil {k : Nat} {y : Vec ℝ 1} {searches : List (Vec ℝ 1 × Vec ℝ 1)}
    {stop : Stop}
    (h : (edgeScale 1 : Scale Unit ℝ 1).Course (k + 1) #v[2] searches y stop) :
    ∃ g rest, searches = (#v[2], g) :: rest := by
  cases h with
  | stencilFailure _ hfailed =>
    -- one is a better neighbour of two
    have hbetter := computes_isFailure_simple (σ := Unit) one_pos 2
    norm_num at hbetter
    cases hbetter.eq_of_yields hfailed.yields
  | stationary hg _ hgap hle =>
    -- the gradient two leads to zero, which the box moves back to one
    obtain rfl := (computes_simplexGradient_simple one_pos 2).eq_of_yields hg.yields
    have hstep : (edgeBox.projection 1).gradientStep #v[2] #v[2] = .ok #v[1] := by
      rw [edgeBox.nearest.gradientStep_eq, Vec.singleton_sub, sub_self, clamp_edgeBox.1,
        Vec.singleton_sub]
      norm_num
    cases hgap.symm.trans hstep
    have hle' : Vec.norm (#v[1] : Vec ℝ 1) ≤ 1e-3 * 1 := hle
    rw [Vec.norm_eq, Vec.norm_singleton] at hle'
    norm_num at hle'
  | lineSearchFailure => exact ⟨_, _, rfl⟩
  | step => exact ⟨_, _, rfl⟩

/-- **One scale**: over every box or ball and with valid settings, whatever the deterministic
objective whose values do not fail, the start and the positive scale. The descent ends at a feasible
point whose value is smaller than at the projection of the start, unless it is that point, and which
is at most `100 n h` away from it. All of the searches on the way are along simplex gradients whose
norm, by which the step is divided, is not zero. -/
theorem descend_in_range [Inhabited σ] (hF : ∀ y, (s.objective.value y).Computes (F y))
    (hP : (∃ b : Box ℝ n, s.projection = b.projection n) ∨
      ∃ b : Ball ℝ n, 0 < b.radius ∧ s.projection = b.projection n)
    (hvalid : s.config.validate = .ok ()) (hscale : 0 < s.scale) (x : Vec ℝ n) :
    ∃ z y stop used, s.projection.project x = .ok z ∧
      (s.descend x).Computes (y, stop, used) ∧
      s.projection.contains y = .ok true ∧ F y ≤ F z ∧ (F y = F z → y = z) ∧
      ‖y - z‖ ≤ 100 * n * s.scale ∧
      ∃ searches, s.Course (10 * n) z searches y stop ∧ ∀ q ∈ searches, q.2.norm ≠ 0 := by
  obtain ⟨π, hnearest⟩ : ∃ π, s.projection.Nearest π := by
    rcases hP with ⟨b, hb⟩ | ⟨b, hradius, hb⟩
    · exact ⟨_, hb ▸ b.nearest⟩
    · exact ⟨_, hb ▸ Ball.nearest hradius⟩
  have hpositive := Config.positive_of_validate hvalid
  obtain ⟨searches, y, stop, hcourse⟩ :=
    exists_course hF hnearest.project hscale (10 * n) (π x)
  obtain ⟨used, hiterate⟩ := hcourse.computes_iterate 0
  obtain ⟨hgains, hsearches⟩ := hcourse.gains hnearest hscale hpositive.tolerance_pos hF
    hpositive.sigma_pos (hnearest.idem x)
  refine ⟨π x, y, stop, used, hnearest.project x,
    (Run.computes_liftM (hnearest.project x)).bind hiterate, ?_, hgains.value_le,
    hgains.eq_of_value_eq, ?_, searches, hcourse, fun q hq => ?_⟩
  · unfold Projection.contains
    rw [hgains.projected]
    exact congrArg Except.ok (beq_self_eq_true _)
  -- ten steps for each coordinate, each of at most ten scales
  · calc ‖y - π x‖ ≤ ((10 * n : ℕ) : ℝ) * (10 * s.scale) := hgains.norm_sub_le
      _ = 100 * n * s.scale := by
        push_cast
        ring
  · rw [Vec.norm_eq]
    exact norm_ne_zero_iff.mpr (hsearches q hq)

/-- From three, which the box moves to two, the descent makes a search. -/
theorem descend_in_range_edge :
    ∃ y stop used, ((edgeScale 1 : Scale Unit ℝ 1).descend #v[3]).Computes (y, stop, used) ∧
      (edgeBox.projection 1).contains y = .ok true ∧
      (Quadratic.simple 1).value y ≤ (Quadratic.simple 1).value (#v[2] : Vec ℝ 1) ∧
      ‖y - #v[2]‖ ≤ 100 ∧ ∃ g rest,
        (edgeScale 1 : Scale Unit ℝ 1).Course 10 #v[2] ((#v[2], g) :: rest) y stop ∧
        g.norm ≠ 0 := by
  have hproject : (edgeBox.projection 1).project #v[3] = .ok #v[2] := by
    rw [edgeBox.projection_eq, Vec.eq_singleton (edgeBox.clamp _), Box.getElem_clamp]
    show Except.ok (#v[min (max 3 1) 2.0] : Vec ℝ 1) = _
    norm_num
  obtain ⟨z, y, stop, used, hz, hdescend, hcontains, hle, -, hnear, searches, hcourse, hsearches⟩ :=
    descend_in_range (s := (edgeScale 1 : Scale Unit ℝ 1)) (Quadratic.simple 1).evaluates.value
      (.inl ⟨edgeBox, rfl⟩) default_validate one_pos #v[3]
  obtain rfl : z = #v[2] := Except.ok.inj (hz.symm.trans hproject)
  obtain ⟨g, rest, rfl⟩ := course_edge_ne_nil hcourse
  refine ⟨y, stop, used, hdescend, hcontains, hle, ?_, g, rest, hcourse,
    hsearches _ List.mem_cons_self⟩
  have hscale : (edgeScale 1 : Scale Unit ℝ 1).scale = 1 := rfl
  rw [hscale] at hnear
  norm_num at hnear
  exact hnear

end Exact

end ImplicitFiltering.Scale

end Downhill
