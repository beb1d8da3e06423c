import Downhill.Projection.Ball
import Downhill.Projection.Box
import Downhill.Proofs.Exact.Euclidean

/-!
# Exact projections

`Projection.Nearest P π` says that `P` computes the map `π` to the nearest points of the set of the
fixed points of `π`. The nearest point is described by an angle: seen from `π x`, the point `x` and
each point of the set lie in directions that enclose no acute angle. It follows that `π` does not
expand distances (`Nearest.norm_sub_le`).

Boxes and balls are of this kind (`Box.nearest`, `Ball.nearest`), whatever the bounds of the box
and for every ball with a positive radius.

A projection to a box gives points between the bounds, in every arithmetic whose comparisons order
the numbers: a coordinate that is not a number is replaced by its lower bound (`Scalar.cut_mem`), so
it is enough that the bounds are numbers (`Box.within_of_project`). The projection to a ball gives
points of the ball in exact arithmetic (`Ball.within_of_project`).
-/

namespace Downhill

open scoped InnerProductSpace

variable {m n : Nat}

/-! ### Nearest points -/

/-- The projection `P` computes the map `π` to the nearest fixed points of `π`, and it names active
coordinates everywhere. -/
structure Projection.Nearest (P : Projection ℝ n) (π : Vec ℝ n → Vec ℝ n) : Prop where
  /-- The projection succeeds with `π`. -/
  project : ∀ x, P.project x = .ok (π x)
  /-- The active coordinates are defined. -/
  active : ∀ x, ∃ is, P.active x = .ok is
  /-- A nearest point belongs to the set. -/
  idem : ∀ x, π (π x) = π x
  /-- Points of the set lie on the far side of the nearest point. -/
  obtuse : ∀ x z, π z = z → ⟪x - π x, z - π x⟫_ℝ ≤ 0

namespace Projection.Nearest

variable {P : Projection ℝ n} {π : Vec ℝ n → Vec ℝ n}

/-- Projected points are no further apart than the points. -/
theorem norm_sub_le (h : P.Nearest π) (x y : Vec ℝ n) : ‖π x - π y‖ ≤ ‖x - y‖ := by
  have hx := h.obtuse x (π y) (h.idem y)
  have hy := h.obtuse y (π x) (h.idem x)
  -- both angles together: the distance of the projections, squared, is at most a product
  have hfirm : ‖π x - π y‖ * ‖π x - π y‖ ≤ ‖x - y‖ * ‖π x - π y‖ := by
    refine le_trans ?_ (real_inner_le_norm (x - y) (π x - π y))
    rw [← real_inner_self_eq_norm_mul_norm]
    simp only [inner_sub_left, inner_sub_right] at hx hy ⊢
    linarith
  -- the distance is divided out, unless it is zero
  by_cases hzero : ‖π x - π y‖ = 0
  · rw [hzero]
    exact norm_nonneg _
  · exact le_of_mul_le_mul_right hfirm (lt_of_le_of_ne (norm_nonneg _) (Ne.symm hzero))

theorem gradientStep_eq (h : P.Nearest π) (x g : Vec ℝ n) :
    P.gradientStep x g = .ok (x - π (x - g)) := by
  unfold Projection.gradientStep
  rw [h.project]
  rfl

/-- A point that a projected gradient step of one length does not move is not moved by any. -/
theorem project_sub_eq_of_project_sub_smul_eq (h : P.Nearest π) {x g : Vec ℝ n} {t : ℝ}
    (ht : 0 < t) (hx : π (x - t • g) = x) : π (x - g) = x := by
  have hfeasible : π x = x := by
    rw [← hx, h.idem]
  set y := π (x - g) with hy
  -- no point of the set lies downhill of `x`, and in particular `y` does not
  have huphill : 0 ≤ ⟪g, y - x⟫_ℝ := by
    have hobtuse := h.obtuse (x - t • g) y (by rw [hy, h.idem])
    rw [hx, sub_sub_cancel_left, inner_neg_left, real_inner_smul_left, neg_nonpos] at hobtuse
    exact nonneg_of_mul_nonneg_right hobtuse ht
  have hnear : ‖y - x‖ ^ 2 ≤ 0 := by
    have hobtuse := h.obtuse (x - g) x hfeasible
    rw [← hy, sub_right_comm, inner_sub_left, real_inner_self_eq_norm_sq, ← neg_sub y x,
      inner_neg_right, norm_neg] at hobtuse
    linarith
  exact sub_eq_zero.mp (norm_eq_zero.mp (pow_eq_zero_iff two_ne_zero |>.mp
    (le_antisymm hnear (sq_nonneg _))))

end Projection.Nearest

/-! ### Boxes -/

namespace Box

theorem getElem_clamp (b : Box ℝ m) (x : Vec ℝ m) (i : Nat) (hi : i < m) :
    (b.clamp x)[i] = min (max x[i] b.lower[i]) b.upper[i] := by
  unfold clamp
  rw [Vector.getElem_ofFn, Scalar.min_real, Scalar.max_real]
  rfl

theorem clamp_of_mem {b : Box ℝ m} {x : Vec ℝ m}
    (h : ∀ i, b.lower.entry i ≤ x.entry i ∧ x.entry i ≤ b.upper.entry i) : b.clamp x = x := by
  ext i hi
  obtain ⟨hlower, hupper⟩ := h ⟨i, hi⟩
  rw [getElem_clamp]
  exact (congrArg (min · _) (max_eq_left hlower)).trans (min_eq_left hupper)

/-- A cut coordinate is left alone when it is cut again. -/
theorem cut_idem (l u s : ℝ) : min (max (min (max s l) u) l) u = min (max s l) u := by
  -- with crossed bounds every cut gives the upper one
  rcases le_total l u with hlu | hlu
  · rw [max_eq_left (le_min (le_max_right s l) hlu), min_eq_left (min_le_right _ _)]
  · rw [min_eq_right (hlu.trans (le_max_right _ _)), min_eq_right (hlu.trans (le_max_right _ _))]

/-- A cut coordinate lies between the coordinate and everything that is left alone. -/
theorem cut_obtuse {l u s z : ℝ} (hz : min (max z l) u = z) :
    (s - min (max s l) u) * (z - min (max s l) u) ≤ 0 := by
  rcases le_total l u with hlu | hlu
  · have hlz : l ≤ z := hz ▸ le_min (le_max_right _ _) hlu
    have hzu : z ≤ u := hz ▸ min_le_right _ _
    rcases le_total s l with hsl | hsl
    · rw [max_eq_right hsl, min_eq_left hlu]
      exact mul_nonpos_of_nonpos_of_nonneg (sub_nonpos.mpr hsl) (sub_nonneg.mpr hlz)
    · rcases le_total s u with hsu | hsu
      · rw [max_eq_left hsl, min_eq_left hsu, sub_self, zero_mul]
      · rw [max_eq_left hsl, min_eq_right hsu]
        exact mul_nonpos_of_nonneg_of_nonpos (sub_nonneg.mpr hsu) (sub_nonpos.mpr hzu)
  · -- the upper bound is the only point that is left alone
    have hzu : z = u := by rw [← hz, min_eq_right (hlu.trans (le_max_right _ _))]
    rw [min_eq_right (hlu.trans (le_max_right _ _)), hzu, sub_self, mul_zero]

theorem projection_eq (b : Box ℝ n) (x : Vec ℝ n) :
    (b.projection n).project x = .ok (b.clamp x) := by
  unfold projection
  dsimp only
  rw [Vec.ofLength_self]
  exact Vec.fit_self _

theorem projection_active (b : Box ℝ n) (x : Vec ℝ n) :
    (b.projection n).active x = .ok (b.activeAt x) := by
  unfold projection
  dsimp only
  rw [dif_pos rfl]
  exact congrArg Except.ok (List.map_id _)

theorem nearest (b : Box ℝ n) : (b.projection n).Nearest b.clamp where
  project := b.projection_eq
  active x := ⟨_, b.projection_active x⟩
  idem x := by
    ext i hi
    rw [getElem_clamp, getElem_clamp, cut_idem]
  obtuse x z hz := by
    -- the sum is not positive because none of its terms is
    rw [Vec.inner_eq_dot, Vec.dot_eq_sum]
    refine Finset.sum_nonpos fun i _ => ?_
    rw [Vec.entry_eq_getElem, Vec.entry_eq_getElem, Fin.getElem_fin, Fin.getElem_fin,
      Vector.getElem_sub, Vector.getElem_sub, getElem_clamp]
    refine cut_obtuse ?_
    rw [← getElem_clamp, hz]

/-- A box of another dimension projects nothing. -/
theorem project_eq_error (b : Box ℝ m) (h : m ≠ n) (x : Vec ℝ n) :
    (b.projection n).project x = .error (.dimension (.length m) (.length n)) := by
  unfold projection Vec.ofLength
  dsimp only
  rw [dif_neg (Ne.symm h)]
  rfl

end Box

/-! ### Balls -/

namespace Ball

theorem shrink_of_le {b : Ball ℝ m} {x : Vec ℝ m} (h : ‖x - b.origin‖ ≤ b.radius) :
    b.shrink x = x := by
  unfold shrink
  dsimp only
  rw [Vec.norm_eq, if_pos h]

theorem shrink_of_lt {b : Ball ℝ m} {x : Vec ℝ m} (h : b.radius < ‖x - b.origin‖) :
    b.shrink x = b.origin + (b.radius / ‖x - b.origin‖) • (x - b.origin) := by
  unfold shrink
  dsimp only
  rw [Vec.norm_eq, if_neg (not_le.mpr h), Vec.hmul_eq_smul]

theorem norm_shrink_sub_le {b : Ball ℝ m} (hb : 0 < b.radius) (x : Vec ℝ m) :
    ‖b.shrink x - b.origin‖ ≤ b.radius := by
  rcases le_or_gt ‖x - b.origin‖ b.radius with h | h
  · rwa [shrink_of_le h]
  -- outside, the distance is scaled to the radius
  · rw [shrink_of_lt h, add_sub_cancel_left, norm_smul, Real.norm_eq_abs,
      abs_of_pos (div_pos hb (hb.trans h)), div_mul_cancel₀ _ (hb.trans h).ne']

/-- The points that a ball leaves alone are its own. -/
theorem norm_sub_le_of_shrink_eq {b : Ball ℝ m} (hb : 0 < b.radius) {x : Vec ℝ m}
    (h : b.shrink x = x) : ‖x - b.origin‖ ≤ b.radius := by
  rw [← h]
  exact norm_shrink_sub_le hb x

theorem shrink_obtuse {b : Ball ℝ m} (hb : 0 < b.radius) {x z : Vec ℝ m}
    (hz : ‖z - b.origin‖ ≤ b.radius) : ⟪x - b.shrink x, z - b.shrink x⟫_ℝ ≤ 0 := by
  rcases le_or_gt ‖x - b.origin‖ b.radius with h | h
  · rw [shrink_of_le h, sub_self, inner_zero_left]
  · -- with `v = x - origin`, `w = z - origin` and `t = radius / ‖v‖` the claim is `v·w ≤ t ‖v‖²`
    have hpos : 0 < ‖x - b.origin‖ := hb.trans h
    set v := x - b.origin with hv
    set w := z - b.origin with hw
    set t := b.radius / ‖v‖ with ht
    have hleft : x - b.shrink x = (1 - t) • v := by
      rw [shrink_of_lt h, ← hv, ← ht, sub_smul, one_smul, hv]
      abel
    have hright : z - b.shrink x = w - t • v := by
      rw [shrink_of_lt h, ← hv, ← ht, hw]
      abel
    have ht1 : t ≤ 1 := (div_le_one hpos).mpr h.le
    have hradius : t * (‖v‖ * ‖v‖) = b.radius * ‖v‖ := by
      rw [← mul_assoc, ht, div_mul_cancel₀ _ hpos.ne']
    have hcauchy : ⟪v, w⟫_ℝ ≤ b.radius * ‖v‖ := by
      refine (real_inner_le_norm v w).trans ?_
      rw [mul_comm]
      exact mul_le_mul_of_nonneg_right hz hpos.le
    rw [hleft, hright, real_inner_smul_left, inner_sub_right, real_inner_smul_right,
      real_inner_self_eq_norm_mul_norm, hradius]
    exact mul_nonpos_of_nonneg_of_nonpos (by linarith) (by linarith)

theorem projection_eq {α : Type} [Scalar α] (b : Ball α n) (x : Vec α n) :
    (b.projection n).project x = .ok (b.shrink x) := by
  unfold projection
  dsimp only
  rw [Vec.ofLength_self]
  exact Vec.fit_self _

theorem nearest {b : Ball ℝ n} (hb : 0 < b.radius) : (b.projection n).Nearest b.shrink where
  project := b.projection_eq
  active _ := ⟨[], rfl⟩
  idem x := shrink_of_le (norm_shrink_sub_le hb x)
  obtuse _ _ hz := shrink_obtuse hb (norm_sub_le_of_shrink_eq hb hz)

/-- A ball of another dimension projects nothing. -/
theorem project_eq_error (b : Ball ℝ m) (h : m ≠ n) (x : Vec ℝ n) :
    (b.projection n).project x = .error (.dimension (.length m) (.length n)) := by
  unfold projection Vec.ofLength
  dsimp only
  rw [dif_neg (Ne.symm h)]
  rfl

end Ball

/-! ### The projections of the library -/

/-- The projections to a box, and to a ball with a positive radius. -/
inductive Projection.IsBoxOrBall : Projection ℝ n → Prop
  /-- A box with any number of coordinates. -/
  | box {m : Nat} (b : Box ℝ m) : IsBoxOrBall (b.projection n)
  /-- A ball in any number of dimensions. -/
  | ball {m : Nat} (b : Ball ℝ m) (hb : 0 < b.radius) : IsBoxOrBall (b.projection n)

/-- Such a projection computes nearest points, or refuses every point for its dimension. -/
theorem Projection.IsBoxOrBall.nearest_or_error {P : Projection ℝ n} (h : P.IsBoxOrBall) :
    (∃ π, P.Nearest π) ∨ ∃ e e', ∀ x, P.project x = .error (.dimension e e') := by
  cases h with
  | @box m b =>
    by_cases hm : m = n
    · subst hm
      exact .inl ⟨_, b.nearest⟩
    · exact .inr ⟨_, _, b.project_eq_error hm⟩
  | @ball m b hb =>
    by_cases hm : m = n
    · subst hm
      exact .inl ⟨_, Ball.nearest hb⟩
    · exact .inr ⟨_, _, b.project_eq_error hm⟩

/-! ### Bounds of projected points -/

variable {α : Type} {k : Nat}

/-- The point is a result of the projection. -/
def Projection.IsImage (P : Projection α n) (y : Vec α n) : Prop := ∃ x, P.project x = .ok y

/-! ### Boxes -/

namespace Scalar

variable [Scalar α] [OrdersNumbers α] [Ordered α] {a l u : α}

/-- Whatever is raised to a number is a number that is at least as large. -/
theorem le_max_right (a : α) (hl : IsNumber l) : l ≤ max a l := by
  unfold max
  split_ifs with ha hal
  · exact hl
  · exact Ordered.le_of_lt ((OrdersNumbers.lt_or_le hl ha).resolve_right hal)
  · exact hl

/-- A scalar that is raised to a lower bound and then cut at an upper one lies between them. -/
theorem cut_mem (a : α) (hl : IsNumber l) (hu : IsNumber u) (hlu : ¬ u < l) :
    l ≤ min (max a l) u ∧ min (max a l) u ≤ u := by
  have hraised := le_max_right a hl
  have hnumber : IsNumber (max a l) := (OrdersNumbers.of_le hraised).2
  unfold min
  rw [if_pos (show max a l ≤ max a l from hnumber)]
  split_ifs with h
  · exact ⟨(OrdersNumbers.lt_or_le hu hl).resolve_left hlu, hu⟩
  · exact ⟨hraised, Ordered.le_of_lt ((OrdersNumbers.lt_or_le hnumber hu).resolve_right h)⟩

end Scalar

namespace Box

variable [Scalar α]

/-- No lower bound of a box exceeds its upper bound. -/
theorem not_lt_of_make {lower : Vec α m} {upper : Vec α k} {b : Box α m}
    (h : make lower upper = .ok b) (i : Fin m) : ¬ b.upper.entry i < b.lower.entry i := by
  unfold make at h
  cases hupper : upper.ofLength m with
  | error e =>
    rw [hupper] at h
    cases h
  | ok upper' =>
    rw [hupper] at h
    dsimp only [bind, Except.bind] at h
    split at h
    · cases h
    next hfind =>
    cases h
    rw [List.find?_eq_none] at hfind
    exact fun hlt => hfind i (List.mem_finRange i) (decide_eq_true hlt)

/-- The point has the dimension of the box, and lies between its bounds in every coordinate. -/
def Within (b : Box α m) (y : Vec α n) : Prop :=
  ∃ h : n = m, ∀ i,
    b.lower.entry i ≤ Vec.entry (y.cast h) i ∧ Vec.entry (y.cast h) i ≤ b.upper.entry i

/-- All bounds of the box are numbers. -/
structure Numeric (b : Box α m) : Prop where
  /-- The lower bounds are numbers. -/
  lower : ∀ i, Scalar.IsNumber (b.lower.entry i)
  /-- The upper bounds are numbers. -/
  upper : ∀ i, Scalar.IsNumber (b.upper.entry i)

theorem within_of_project [Scalar.OrdersNumbers α] [Scalar.Ordered α] {b : Box α m}
    (hb : b.Numeric) (hbounds : ∀ i, ¬ b.upper.entry i < b.lower.entry i) {y : Vec α n}
    (hy : (b.projection n).IsImage y) : b.Within y := by
  obtain ⟨x, hx⟩ := hy
  by_cases h : n = m
  · subst h
    unfold projection at hx
    dsimp only at hx
    rw [Vec.ofLength_self] at hx
    obtain rfl : b.clamp x = y := by
      have hfit : (b.clamp x).fit n = .ok y := hx
      rw [Vec.fit_self] at hfit
      exact Except.ok.inj hfit
    refine ⟨rfl, fun i => ?_⟩
    have hentry : (b.clamp x).entry i =
        Scalar.min (Scalar.max (x.entry i) (b.lower.entry i)) (b.upper.entry i) :=
      Vector.getElem_ofFn i.isLt
    show _ ≤ (b.clamp x).entry i ∧ (b.clamp x).entry i ≤ _
    rw [hentry]
    exact Scalar.cut_mem _ (hb.lower i) (hb.upper i) (hbounds i)
  · -- a box of another dimension projects nothing
    unfold projection Vec.ofLength at hx
    dsimp only at hx
    rw [dif_neg h] at hx
    cases hx

end Box

/-! ### Balls -/

namespace Ball

theorem radius_pos_of_make [Scalar α] {origin : Vec α m} {radius : α} {b : Ball α m}
    (h : make origin radius = .ok b) : 0 < b.radius := by
  unfold make at h
  split_ifs at h with hpos
  cases h
  exact hpos

/-- The point has the dimension of the ball, and lies within the radius of its center. -/
def Within (b : Ball ℝ m) (y : Vec ℝ n) : Prop := ∃ h : n = m, ‖y.cast h - b.origin‖ ≤ b.radius

theorem within_of_project {b : Ball ℝ m} (hb : 0 < b.radius) {y : Vec ℝ n}
    (hy : (b.projection n).IsImage y) : b.Within y := by
  obtain ⟨x, hx⟩ := hy
  by_cases h : m = n
  · subst h
    rw [projection_eq] at hx
    cases hx
    exact ⟨rfl, norm_shrink_sub_le hb x⟩
  · rw [project_eq_error b h] at hx
    cases hx

end Ball

end Downhill
