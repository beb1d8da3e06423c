import Downhill.Proofs.Projection.Nearest
import Downhill.Proofs.Projection.Tangent

/-!
# Projections onto a set

`Projection.Onto P Q π` lists what the projection to a closed convex set `Q` owes to its callers: it
succeeds with `π`, and `π x` is the one point of `Q` that is nearest to `x`; points of `Q` are not
moved, distances do not grow, membership is decided, and a point of `Q` is never seen from `π x` in
the direction of `x`.

All of it follows from that angle: `x`, `π x` and a point of the set span a triangle that is not
acute at `π x` (`Projection.Nearest.sq_add_sq_le`), so it suffices to know that `P` computes nearest
fixed points of `π` and that the fixed points are the points of `Q` (`Projection.Nearest.onto`).

* `Box.onto_bounds`: a box that has been accepted projects onto the points between its bounds, and
  lists as active, in increasing order, each coordinate in which it has moved a point.
* `Ball.onto_radius`: a ball that has been accepted projects onto the points within its radius, and
  does not divide by zero.
-/

namespace Downhill

open scoped InnerProductSpace

variable {m k n : Nat}

/-! ### Nearest points of a set -/

/-- The projection `P` computes the map `π` to the nearest points of the convex set `Q`. -/
structure Projection.Onto (P : Projection ℝ n) (Q : Vec ℝ n → Prop) (π : Vec ℝ n → Vec ℝ n) :
    Prop where
  /-- The projection succeeds with `π`. -/
  project : ∀ x, P.project x = .ok (π x)
  /-- A projected point belongs to the set. -/
  mem : ∀ x, Q (π x)
  /-- Every other point of the set is farther away. -/
  nearest : ∀ x z, Q z → z ≠ π x → ‖x - π x‖ < ‖x - z‖
  /-- A projected point is not moved by a second projection. -/
  idem : ∀ x, P.project (π x) = .ok (π x)
  /-- No distance grows. -/
  norm_sub_le : ∀ x y, ‖π x - π y‖ ≤ ‖x - y‖
  /-- Membership is decided. -/
  contains : ∀ x, ∃ c, P.contains x = .ok c ∧ (c = true ↔ Q x)
  /-- Points of the set lie on the far side of the nearest point. -/
  obtuse : ∀ x z, Q z → ⟪x - π x, z - π x⟫_ℝ ≤ 0

namespace Projection.Nearest

variable {P : Projection ℝ n} {π : Vec ℝ n → Vec ℝ n}

/-- The side of a triangle that faces an angle that is not acute. -/
theorem sq_add_sq_le (h : P.Nearest π) (x : Vec ℝ n) {z : Vec ℝ n} (hz : π z = z) :
    ‖x - π x‖ ^ 2 + ‖z - π x‖ ^ 2 ≤ ‖x - z‖ ^ 2 := by
  have hobtuse := h.obtuse x z hz
  have hside := norm_sub_sq_real (x - π x) (z - π x)
  rw [sub_sub_sub_cancel_right] at hside
  linarith

theorem norm_sub_lt (h : P.Nearest π) (x : Vec ℝ n) {z : Vec ℝ n} (hz : π z = z)
    (hne : z ≠ π x) : ‖x - π x‖ < ‖x - z‖ := by
  have hapart : 0 < ‖z - π x‖ ^ 2 := pow_pos (norm_pos_iff.mpr (sub_ne_zero.mpr hne)) 2
  refine lt_of_pow_lt_pow_left₀ 2 (norm_nonneg _) ?_
  -- the squares add up at least, and the last one is positive
  linarith [h.sq_add_sq_le x hz]

theorem contains_eq (h : P.Nearest π) (x : Vec ℝ n) : P.contains x = .ok (π x == x) := by
  unfold Projection.contains
  rw [h.project]
  rfl

/-- Whoever computes nearest fixed points projects onto the set of the fixed points. -/
theorem onto (h : P.Nearest π) {Q : Vec ℝ n → Prop} (hfixed : ∀ x, π x = x ↔ Q x) :
    P.Onto Q π where
  project := h.project
  mem x := (hfixed _).mp (h.idem x)
  nearest x _ hz hne := h.norm_sub_lt x ((hfixed _).mpr hz) hne
  idem x := by rw [h.project, h.idem]
  norm_sub_le := h.norm_sub_le
  contains x := ⟨_, h.contains_eq x, by rw [beq_iff_eq, hfixed]⟩
  obtuse x z hz := h.obtuse x z ((hfixed z).mpr hz)

end Projection.Nearest

/-! ### Boxes -/

namespace Box

theorem make_eq_ok {lower : Vec ℝ m} {upper : Vec ℝ k} {b : Box ℝ m}
    (h : make lower upper = .ok b) : b.lower = lower ∧ b.upper.toArray = upper.toArray := by
  unfold make Vec.ofLength at h
  -- the numbers of bounds agree, and no pair of them is crossed
  split_ifs at h with hlength
  · subst hlength
    dsimp only [bind, Except.bind] at h
    split at h
    · cases h
    · cases h
      exact ⟨rfl, rfl⟩
  · cases h

/-- Bounds of equal number that are in order are accepted. -/
theorem make_of_le {lower upper : Vec ℝ m} (h : ∀ i, lower.entry i ≤ upper.entry i) :
    make lower upper = .ok { lower, upper } := by
  -- the check looks for a crossed pair and finds none
  have hnone : ((List.finRange m).find? fun i => upper.entry i < lower.entry i) = none :=
    List.find?_eq_none.mpr fun i _ => by rw [decide_eq_true_eq]; exact (h i).not_gt
  unfold make
  rw [Vec.ofLength_self]
  dsimp only [bind, Except.bind]
  rw [hnone]
  rfl

variable {b : Box ℝ m}

theorem within_iff {x : Vec ℝ m} :
    b.Within x ↔ ∀ i, b.lower.entry i ≤ x.entry i ∧ x.entry i ≤ b.upper.entry i :=
  ⟨fun ⟨_, h⟩ => h, fun h => ⟨rfl, h⟩⟩

theorem entry_clamp (b : Box ℝ m) (x : Vec ℝ m) (i : Fin m) :
    (b.clamp x).entry i = min (max (x.entry i) (b.lower.entry i)) (b.upper.entry i) :=
  b.getElem_clamp x i i.isLt

/-- A point that the box does not move lies between the bounds, if these are in order. -/
theorem clamp_eq_self_iff (hbounds : ∀ i, ¬ b.upper.entry i < b.lower.entry i) (x : Vec ℝ m) :
    b.clamp x = x ↔ b.Within x := by
  constructor
  · exact fun h => within_of_project ⟨fun _ => le_rfl, fun _ => le_rfl⟩ hbounds
      ⟨x, by rw [projection_eq, h]⟩
  · exact fun h => clamp_of_mem (within_iff.mp h)

/-- A coordinate that the box moves ends on a bound. -/
theorem mem_activeAt_clamp {x : Vec ℝ m} {i : Fin m} (h : (b.clamp x).entry i ≠ x.entry i) :
    i ∈ b.activeAt (b.clamp x) := by
  by_contra hinactive
  have hstrict : b.lower.entry i < (b.clamp x).entry i ∧ (b.clamp x).entry i < b.upper.entry i :=
    lt_and_lt_of_notMem_activeAt hinactive
  obtain ⟨hlower, hupper⟩ := hstrict
  rw [entry_clamp] at h hlower hupper
  -- a result strictly between the bounds is neither the lower nor the upper one
  have hraised := (lt_max_iff.mp (lt_min_iff.mp hlower).1).resolve_right (lt_irrefl _)
  rw [max_eq_left hraised.le] at h hupper
  exact h (min_eq_left ((min_lt_iff.mp hupper).resolve_right (lt_irrefl _)).le)

/-- The active coordinates are listed in increasing order. -/
theorem pairwise_activeAt (b : Box ℝ m) (x : Vec ℝ m) : (b.activeAt x).Pairwise (· < ·) :=
  (List.pairwise_lt_finRange m).filter _

/-- **Projections to boxes**: a box that has been accepted keeps its bounds and projects onto the
points between them, whether or not some of the bounds are equal. The active coordinates of a
projected point are listed once each and in increasing order, and they include every coordinate in
which the projection has moved the point. -/
theorem onto_bounds {lower : Vec ℝ m} {upper : Vec ℝ k} {b : Box ℝ m}
    (hmake : make lower upper = .ok b) :
    b.lower = lower ∧ b.upper.toArray = upper.toArray ∧
      (b.projection m).Onto
        (fun x => ∀ i, b.lower.entry i ≤ x.entry i ∧ x.entry i ≤ b.upper.entry i) b.clamp ∧
      ∀ x, ∃ is, (b.projection m).active (b.clamp x) = .ok is ∧ is.Pairwise (· < ·) ∧
        ∀ i, (b.clamp x).entry i ≠ x.entry i → i ∈ is := by
  obtain ⟨hlower, hupper⟩ := make_eq_ok hmake
  have hfixed := clamp_eq_self_iff (not_lt_of_make hmake)
  refine ⟨hlower, hupper, b.nearest.onto fun x => (hfixed x).trans within_iff, fun x => ?_⟩
  exact ⟨_, b.projection_active _, b.pairwise_activeAt _, fun i => mem_activeAt_clamp⟩

/-- A box in the plane whose second coordinate has only one value. -/
noncomputable def flat : Box ℝ 2 where
  lower := #v[-1, 0]
  upper := #v[1, 0]

/-- A point beyond both upper bounds moves in both coordinates. -/
theorem onto_bounds_flat :
    make (#v[-1, 0] : Vec ℝ 2) (#v[1, 0] : Vec ℝ 2) = .ok flat ∧
      (flat.projection 2).project #v[3, 5] = .ok #v[1, 0] ∧
      (∀ z : Vec ℝ 2, -1 ≤ z.entry 0 → z.entry 0 ≤ 1 → z.entry 1 = 0 → z ≠ #v[1, 0] →
        ‖(#v[3, 5] : Vec ℝ 2) - #v[1, 0]‖ < ‖#v[3, 5] - z‖) ∧
      ∃ is, (flat.projection 2).active #v[1, 0] = .ok is ∧
        is.Pairwise (· < ·) ∧ 0 ∈ is ∧ 1 ∈ is := by
  have hmake : make (#v[-1, 0] : Vec ℝ 2) (#v[1, 0] : Vec ℝ 2) = .ok flat := by
    refine make_of_le fun i => ?_
    fin_cases i
    · show (-1 : ℝ) ≤ 1
      norm_num
    · exact le_refl (0 : ℝ)
  -- the first coordinate is cut at one, the second has no choice
  have hclamp : flat.clamp #v[3, 5] = #v[1, 0] := by
    ext i hi
    rw [getElem_clamp]
    obtain rfl | rfl : i = 0 ∨ i = 1 := by omega
    · show min (max 3 (-1)) 1 = (1 : ℝ)
      norm_num
    · show min (max 5 0) 0 = (0 : ℝ)
      norm_num
  obtain ⟨-, -, honto, hactive⟩ := onto_bounds hmake
  obtain ⟨is, his, hincreasing, hmoved⟩ := hactive #v[3, 5]
  rw [hclamp] at his hmoved
  refine ⟨hmake, ?_, fun z hlower hupper hflat hne => ?_, is, his, hincreasing, ?_, ?_⟩
  · rw [honto.project, hclamp]
  · have hnearest := honto.nearest #v[3, 5] z
    rw [hclamp] at hnearest
    refine hnearest (fun i => ?_) hne
    fin_cases i
    · exact ⟨hlower, hupper⟩
    · exact ⟨hflat.ge, hflat.le⟩
  · refine hmoved 0 ?_
    show (1 : ℝ) ≠ 3
    norm_num
  · refine hmoved 1 ?_
    show (0 : ℝ) ≠ 5
    norm_num

end Box

/-! ### Balls -/

namespace Ball

variable {b : Ball ℝ m}

theorem make_of_pos (origin : Vec ℝ m) {radius : ℝ} (h : 0 < radius) :
    make origin radius = .ok { origin, radius } := if_pos h

theorem eq_of_make {origin : Vec ℝ m} {radius : ℝ} (h : make origin radius = .ok b) :
    b = { origin, radius } := by
  have hpos : 0 < radius := by
    by_contra hnot
    simp [make, hnot] at h
  simpa [make_of_pos origin hpos, eq_comm] using h

/-- The points that the ball does not move are those within its radius. -/
theorem shrink_eq_self_iff (hb : 0 < b.radius) (x : Vec ℝ m) :
    b.shrink x = x ↔ ‖x - b.origin‖ ≤ b.radius :=
  ⟨norm_sub_le_of_shrink_eq hb, shrink_of_le⟩

theorem shrink_withDivision_eq (div : ℝ → ℝ → ℝ) (x : Vec ℝ m) :
    @shrink ℝ (Scalar.withDivision div) m b x =
      if ‖x - b.origin‖ ≤ b.radius then x
      else b.origin + div b.radius ‖x - b.origin‖ * (x - b.origin) := by
  rw [← Vec.norm_withDivision div]
  rfl

/-- The ball divides only by distances that are larger than its radius. -/
theorem shrink_withDivision (hb : 0 < b.radius) {div : ℝ → ℝ → ℝ} (hdiv : Scalar.IsDivision div)
    (x : Vec ℝ m) : @shrink ℝ (Scalar.withDivision div) m b x = b.shrink x := by
  rw [shrink_withDivision_eq]
  split_ifs with hin
  · rw [shrink_of_le hin]
  -- the point lies outside, so its distance is not zero
  · have hout : b.radius < ‖x - b.origin‖ := not_le.mp hin
    rw [shrink_of_lt hout, hdiv _ _ (hb.trans hout).ne', Vec.hmul_eq_smul]

theorem projection_withDivision (hb : 0 < b.radius) {div : ℝ → ℝ → ℝ}
    (hdiv : Scalar.IsDivision div) :
    @projection ℝ (Scalar.withDivision div) m b m = b.projection m := by
  have hproject : (@projection ℝ (Scalar.withDivision div) m b m).project =
      (b.projection m).project := by
    funext x
    rw [@projection_eq m ℝ (Scalar.withDivision div), shrink_withDivision hb hdiv, projection_eq]
  exact congrArg (fun project => ({ project } : Projection ℝ m)) hproject

/-- **Projections to balls**: a ball that has been accepted has the given center and the given
radius, which is positive, and it projects onto the points within the radius of the center. The
projection is the same whatever a quotient by zero is. -/
theorem onto_radius {origin : Vec ℝ m} {radius : ℝ} {b : Ball ℝ m}
    (hmake : make origin radius = .ok b) :
    b = { origin, radius } ∧ 0 < radius ∧
      (b.projection m).Onto (fun x => ‖x - origin‖ ≤ radius) b.shrink ∧
      ∀ div, Scalar.IsDivision div →
        @projection ℝ (Scalar.withDivision div) m b m = b.projection m := by
  have hpos := radius_pos_of_make hmake
  obtain rfl := eq_of_make hmake
  have honto := (nearest hpos).onto (shrink_eq_self_iff hpos)
  exact ⟨rfl, hpos, honto, fun _ hdiv => projection_withDivision hpos hdiv⟩

/-- A disk in the plane. -/
noncomputable def disk : Ball ℝ 2 where
  origin := #v[1, 1]
  radius := 5

/-- A point at distance ten from the center of the disk comes halfway back. -/
theorem shrink_disk : disk.shrink #v[7, 9] = #v[4, 5] := by
  -- the point is at the offset `(6, 8)`
  have hoffset : (#v[7, 9] : Vec ℝ 2) - disk.origin = #v[6, 8] := by
    ext i hi
    obtain rfl | rfl : i = 0 ∨ i = 1 := by omega
    all_goals norm_num [disk]
  have hnorm : ‖(#v[6, 8] : Vec ℝ 2)‖ = 10 := by
    rw [← Vec.norm_eq, Vec.norm, Vec.normSq, Scalar.sqrt_real, Vec.dot_eq_sum,
      Real.sqrt_eq_iff_mul_self_eq_of_pos (by norm_num)]
    norm_num [Fin.sum_univ_two]
  rw [shrink_of_lt (by rw [hoffset, hnorm]; norm_num [disk]), hoffset, hnorm]
  ext i hi
  obtain rfl | rfl : i = 0 ∨ i = 1 := by omega
  all_goals norm_num [disk]

/-- The disk moves a point outside to the nearest point of the circle, and finds that it was
outside, also where a quotient by zero is one. -/
theorem onto_radius_disk :
    make (#v[1, 1] : Vec ℝ 2) 5 = .ok disk ∧
      (disk.projection 2).project #v[7, 9] = .ok #v[4, 5] ∧
      (∀ z : Vec ℝ 2, ‖z - #v[1, 1]‖ ≤ 5 → z ≠ #v[4, 5] →
        ‖(#v[7, 9] : Vec ℝ 2) - #v[4, 5]‖ < ‖#v[7, 9] - z‖) ∧
      (∃ c, (disk.projection 2).contains #v[7, 9] = .ok c ∧
        (c = true ↔ ‖(#v[7, 9] : Vec ℝ 2) - #v[1, 1]‖ ≤ 5)) ∧
      (@projection ℝ (Scalar.withDivision fun s t => if t = 0 then 1 else s / t) 2 disk 2).project
        #v[7, 9] = .ok #v[4, 5] := by
  have hmake : make (#v[1, 1] : Vec ℝ 2) 5 = .ok disk := make_of_pos _ (by norm_num)
  obtain ⟨-, -, honto, hdivision⟩ := onto_radius hmake
  have hnearest := honto.nearest #v[7, 9]
  rw [shrink_disk] at hnearest
  refine ⟨hmake, ?_, hnearest, honto.contains _, ?_⟩
  · rw [honto.project, shrink_disk]
  · rw [hdivision _ (fun s t ht => if_neg ht), honto.project, shrink_disk]

end Ball

end Downhill
