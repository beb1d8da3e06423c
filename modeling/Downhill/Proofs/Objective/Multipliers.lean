import Downhill.Proofs.Exact.Matrix
import Downhill.Proofs.Exact.Quadratic
import Downhill.Proofs.Objective.Derivatives
import Mathlib.Analysis.Calculus.LocalExtr.Basic
import Mathlib.Analysis.SpecificLimits.Basic

/-!
# The method of multipliers

For a quadratic function `q` with a positive definite matrix `A` and an affine one `k`, whose linear
term is `a ≠ 0`, each `μ` has a point where `∇q + μ a = 0`, and the value of `k` there falls by
`κ = aᵀA⁻¹a` as `μ` grows by one (`Quadratic.value_sub_value_of_isStationaryAt`). So `k = 0` there
for exactly one `μ`, the multiplier of the problem (`Quadratic.existsUnique_isMultiplier`). Of all
points where `k = 0` this one has the least value of `q` (`Quadratic.IsStationaryAt.isSolution`).

A round of the method minimizes the augmented Lagrangian, whichever of its least points it finds,
and replaces the multiplier by the updated one (`Weights.Round`).

* `Weights.rounds_converge`: in exact arithmetic, for a quadratic objective with a positive definite
  matrix under an affine constraint, the multipliers converge from every start to that of the
  problem. Each round divides the error by `1 + γ κ` for the penalty `γ` and the sensitivity `κ`.

At a least point of the augmented Lagrangian the updated multiplier makes the gradients cancel
(`Weights.isMinimizer_lagrangian_iff`). So a round leads from one stationary point to another, and
the values of the constraint there tell their multipliers apart.
-/

namespace Downhill.Quadratic

/-! ### Stationary points under a linear constraint -/

open scoped InnerProductSpace

variable {n : Nat} {q k : Quadratic ℝ n} {x y : Vec ℝ n} {μ ν : ℝ}

/-! ### Convex functions -/

/-- A convex function lies above its tangents. -/
theorem value_add_inner_le (hq : q.matrix.IsPosDef) (x y : Vec ℝ n) :
    q.value x + ⟪q.gradient x, y - x⟫_ℝ ≤ q.value y := by
  have hcurvature : 0 ≤ (y - x).dot (q.matrix * (y - x)) := hq.isPosDefMap_toLin.nonneg (y - x)
  linarith only [hcurvature, q.value_eq_add_inner_add hq.symm x y]

theorem value_eq_add_inner (hk : k.matrix = .zero) (x y : Vec ℝ n) :
    k.value y = k.value x + ⟪k.linear, y - x⟫_ℝ := by
  rw [k.value_of_matrix_eq_zero hk, k.value_of_matrix_eq_zero hk, inner_sub_right, Vec.inner_eq_dot,
    Vec.inner_eq_dot]
  ring

/-! ### Multipliers -/

/-- The gradient of `q` at `x` is that of `k` times `-μ`. -/
def IsStationaryAt (q k : Quadratic ℝ n) (μ : ℝ) (x : Vec ℝ n) : Prop :=
  q.gradient x + μ • k.gradient x = 0

/-- The value of `q` at `x` is the least where `k` vanishes. -/
structure IsSolution (q k : Quadratic ℝ n) (x : Vec ℝ n) : Prop where
  /-- The constraint holds. -/
  zero : k.value x = 0
  /-- No other point where it holds has a smaller value. -/
  le : ∀ y, k.value y = 0 → q.value x ≤ q.value y

/-- The multiplier of the problem to minimize `q` where `k` vanishes. -/
def IsMultiplier (q k : Quadratic ℝ n) (μ : ℝ) : Prop :=
  ∃ x, q.IsSolution k x ∧ q.IsStationaryAt k μ x

/-- The number `aᵀA⁻¹a` for the matrix `A` of `q` and the linear term `a` of `k`. -/
noncomputable def sensitivity (q k : Quadratic ℝ n) : ℝ :=
  k.linear.dot (q.matrix.inverse * k.linear)

variable (hq : q.matrix.IsPosDef) (hk : k.matrix = .zero)

include hq in
theorem sensitivity_pos (ha : k.linear ≠ 0) : 0 < q.sensitivity k := by
  set d := q.matrix.inverse * k.linear with hd
  have himage : q.matrix * d = k.linear := hq.mulVec_inverse_mulVec k.linear
  -- the inverse sends only zero to zero
  have hne : d ≠ 0 := by
    intro hzero
    rw [hzero, ← Mat.toLin_apply, map_zero] at himage
    exact ha himage.symm
  have hpos := hq.pos d hne
  rwa [himage, Vec.dot_comm] at hpos

include hk in
/-- A stationary point solves a linear system. -/
theorem isStationaryAt_iff :
    q.IsStationaryAt k μ x ↔ q.matrix * x = -(q.linear + μ • k.linear) := by
  unfold IsStationaryAt
  rw [k.gradient_of_matrix_eq_zero hk, gradient_eq, add_assoc, Mat.toLin_apply,
    add_eq_zero_iff_eq_neg]

include hq hk

theorem exists_isStationaryAt (μ : ℝ) : ∃ x, q.IsStationaryAt k μ x :=
  ⟨_, (isStationaryAt_iff hk).mpr (hq.mulVec_inverse_mulVec _)⟩

/-- The value of the constraint falls with the multiplier. -/
theorem value_sub_value_of_isStationaryAt (hx : q.IsStationaryAt k μ x)
    (hy : q.IsStationaryAt k ν y) :
    k.value x - k.value y = q.sensitivity k * (ν - μ) := by
  rw [isStationaryAt_iff hk] at hx hy
  -- the difference of the two points solves a system with the linear term of the constraint
  have himage : q.matrix * (x - y) = (ν - μ) • k.linear := by
    rw [← Mat.toLin_apply, map_sub, Mat.toLin_apply, Mat.toLin_apply, hx, hy]
    module
  have hdifference : x - y = (ν - μ) • (q.matrix.inverse * k.linear) := by
    rw [← hq.inverse_mulVec_eq himage, ← Mat.toLin_apply, map_smul, Mat.toLin_apply]
  rw [value_eq_add_inner hk y x, hdifference, real_inner_smul_right, Vec.inner_eq_dot]
  unfold sensitivity
  ring

/-- A stationary point where the constraint holds is a solution. -/
theorem IsStationaryAt.isSolution (hx : q.IsStationaryAt k μ x) (hzero : k.value x = 0) :
    q.IsSolution k x where
  zero := hzero
  le y hy := by
    -- on the constraint the gradient of `q` has no slope
    have hslope : ⟪k.linear, y - x⟫_ℝ = 0 := by
      linarith only [value_eq_add_inner hk x y, hzero, hy]
    have hgradient : q.gradient x = -(μ • k.linear) := by
      rw [← k.gradient_of_matrix_eq_zero hk x]
      exact eq_neg_of_add_eq_zero_left hx
    have htangent := value_add_inner_le hq x y
    rwa [hgradient, inner_neg_left, real_inner_smul_left, hslope, mul_zero, neg_zero,
      add_zero] at htangent

/-- The value of the constraint at a stationary point is its multiplier's distance to that of the
problem, times the sensitivity. -/
theorem IsMultiplier.value_eq (hμ : q.IsMultiplier k μ) (hx : q.IsStationaryAt k ν x) :
    k.value x = q.sensitivity k * (μ - ν) := by
  obtain ⟨y, hy, hstationary⟩ := hμ
  rw [← value_sub_value_of_isStationaryAt hq hk hx hstationary, hy.zero, sub_zero]

theorem IsMultiplier.eq (ha : k.linear ≠ 0) (hμ : q.IsMultiplier k μ) (hν : q.IsMultiplier k ν) :
    μ = ν := by
  obtain ⟨x, hx, hstationary⟩ := hν
  -- the constraint vanishes at both points, and its value is `κ` times the difference
  have hvalue := hμ.value_eq hq hk hstationary
  rw [hx.zero] at hvalue
  have hzero := (mul_eq_zero.mp hvalue.symm).resolve_left (sensitivity_pos hq ha).ne'
  exact sub_eq_zero.mp hzero

/-- A linear constraint has exactly one multiplier. -/
theorem existsUnique_isMultiplier (ha : k.linear ≠ 0) : ∃! μ, q.IsMultiplier k μ := by
  have hpos := sensitivity_pos hq ha
  -- the multiplier that moves the constraint from its value at the least point of `q` to zero
  obtain ⟨y, hy⟩ := exists_isStationaryAt hq hk 0
  obtain ⟨x, hx⟩ := exists_isStationaryAt hq hk (k.value y / q.sensitivity k)
  have hdifference := value_sub_value_of_isStationaryAt hq hk hx hy
  have hzero : k.value x = 0 := by
    rw [zero_sub, mul_neg, mul_div_cancel₀ _ hpos.ne'] at hdifference
    linarith only [hdifference]
  have hmultiplier : q.IsMultiplier k (k.value y / q.sensitivity k) :=
    ⟨x, hx.isSolution hq hk hzero, hx⟩
  exact ⟨_, hmultiplier, fun ν hν => hν.eq hq hk ha hmultiplier⟩

omit hq hk

/-- The sensitivity of a bowl to its constraint is `2 / d`. -/
theorem sensitivity_bowl_line {d : ℝ} (hd : 0 < d) (c e : ℝ) :
    (bowl d c).sensitivity (line e) = 2 / d := by
  have hlinear : (line e).linear = #v[1, 1] := rfl
  have himage : (bowl d c).matrix * (#v[1 / d, 1 / d] : Vec ℝ 2) = #v[1, 1] := by
    rw [bowl_matrix, Mat.symmTwo_mulVec, zero_mul, zero_add, add_zero,
      mul_one_div_cancel hd.ne']
  unfold sensitivity
  rw [hlinear, (bowl_isPosDef hd c).inverse_mulVec_eq himage, Vec.dot_pair]
  ring

end Downhill.Quadratic

namespace Downhill

open Filter Topology

open scoped InnerProductSpace

variable {σ : Type} {n : Nat}

/-! ### Rounds -/

section Rounds

variable {α : Type} [Scalar α]

/-- No value of `f` is less than one that it takes at `x`. -/
def Objective.IsMinimizer (f : Objective σ α n) (x : Vec α n) : Prop :=
  ∃ v, (f.value x).Yields v ∧ ∀ y u, (f.value y).Yields u → v ≤ u

namespace Weights

/-- The weights `w'` have the multiplier that is updated at a least point for `w`. -/
def Round (f h : Objective σ α n) (w w' : Weights α) : Prop :=
  ∃ x μ, (w.lagrangian f h).IsMinimizer x ∧ (w.updatedMultiplier h x).Yields μ ∧
    w' = w.withMultiplier μ

/-- The weights of a run of the method that starts with `w`. -/
structure IsRun (f h : Objective σ α n) (w : Weights α) (run : ℕ → Weights α) : Prop where
  /-- It starts with `w`. -/
  start : run 0 = w
  /-- Weights come from those before them by a round. -/
  round : ∀ i, Round f h (run i) (run (i + 1))

end Weights

end Rounds

/-- A least point of an objective is one of its function. -/
theorem Objective.Evaluates.isMinimizer_iff [Inhabited σ] {f : Objective σ ℝ n} {F : Vec ℝ n → ℝ}
    {G : Vec ℝ n → Vec ℝ n} (hf : f.Evaluates F G) (x : Vec ℝ n) :
    f.IsMinimizer x ↔ ∀ y, F x ≤ F y := by
  unfold IsMinimizer
  simp only [(hf.value _).yields_iff, exists_eq_left, forall_eq]

namespace Weights

variable {q k : Quadratic ℝ n} (w : Weights ℝ) {x : Vec ℝ n} {μ ν : ℝ}

/-! ### Least points of the augmented Lagrangian -/

/-- The gradient of the augmented Lagrangian has the updated multiplier as its factor of that of the
constraint. -/
theorem yields_gradient_lagrangian_iff [Inhabited σ] (g : Vec ℝ n) :
    ((w.lagrangian (q.objective n : Objective σ ℝ n) (k.objective n)).gradient x).Yields g ↔
      g = q.gradient x + w.factor (k.value x) • k.gradient x :=
  ((q.evaluatesTwice.lagrangian w k.evaluatesTwice).gradient x).yields_iff

variable (hq : q.matrix.IsPosDef) (hk : k.matrix = .zero)

include hq hk

/-- At a least point the updated multiplier makes the gradients cancel. -/
theorem isMinimizer_lagrangian_iff [Inhabited σ] (hw : 0 ≤ w.penalty) :
    (w.lagrangian (q.objective n : Objective σ ℝ n) (k.objective n)).IsMinimizer x ↔
      q.IsStationaryAt k (w.factor (k.value x)) x := by
  have htwice := q.evaluatesTwice.lagrangian w (k.evaluatesTwice (σ := σ))
  have hsymm : k.matrix.IsSymm := hk ▸ Mat.zero_isSymm
  rw [htwice.isMinimizer_iff]
  constructor
  -- at a least point the gradient vanishes
  · intro hle
    have hgradient := w.hasGradientAt_value (q.hasGradientAt hq.symm x) (k.hasGradientAt hsymm x)
    rw [hasGradientAt_iff_hasFDerivAt] at hgradient
    have hzero := IsLocalMin.hasFDerivAt_eq_zero (Eventually.of_forall hle) hgradient
    exact (InnerProductSpace.toDual ℝ (Vec ℝ n)).map_eq_zero_iff.mp hzero
  -- and where it vanishes, the function lies above its value there
  · intro hstationary y
    have hobjective := Quadratic.value_add_inner_le hq x y
    have hconstraint := Quadratic.value_eq_add_inner hk x y
    have hcancel : q.gradient x = -(w.factor (k.value x) • k.linear) := by
      rw [← k.gradient_of_matrix_eq_zero hk x]
      exact eq_neg_of_add_eq_zero_left hstationary
    rw [hcancel, inner_neg_left, real_inner_smul_left] at hobjective
    -- the squared constraint lies above its tangent by the square of the slope
    have hsquare : 0 ≤ w.penalty / 2 * ⟪k.linear, y - x⟫_ℝ ^ 2 := by positivity
    rw [Scalar.half_real, hconstraint]
    unfold factor at hobjective
    linarith only [hobjective, hsquare]

/-! ### The error of a round -/

omit hq hk

/-- The weights after a round, for the sensitivity `κ` and the multiplier `μ` of the problem: the
error of the multiplier is divided by `1 + γ κ`. -/
noncomputable def contract (κ μ : ℝ) (w : Weights ℝ) : Weights ℝ :=
  w.withMultiplier (μ + (w.multiplier - μ) / (1 + w.penalty * κ))

section Contract

variable {κ : ℝ}

/-- Where the constraint is `κ` times the error, the new multiplier is the updated one. -/
theorem factor_eq_iff (hpos : 0 < 1 + w.penalty * κ) :
    w.factor (κ * (μ - ν)) = ν ↔ ν = (w.contract κ μ).multiplier := by
  show w.multiplier + w.penalty * (κ * (μ - ν)) = ν ↔
    ν = μ + (w.multiplier - μ) / (1 + w.penalty * κ)
  rw [← sub_eq_iff_eq_add', eq_div_iff hpos.ne']
  constructor
  · intro h
    linarith only [h]
  · intro h
    linarith only [h]

theorem penalty_iterate_contract (i : ℕ) : ((contract κ μ)^[i] w).penalty = w.penalty := by
  induction i with
  | zero => rfl
  | succ i ih =>
    rw [Function.iterate_succ_apply']
    exact ih

theorem multiplier_contract_sub :
    (w.contract κ μ).multiplier - μ = (w.multiplier - μ) / (1 + w.penalty * κ) :=
  add_sub_cancel_left _ _

/-- The error shrinks by the same factor in each round. -/
theorem multiplier_iterate_contract_sub (i : ℕ) :
    ((contract κ μ)^[i] w).multiplier - μ =
      (w.multiplier - μ) * (1 / (1 + w.penalty * κ)) ^ i := by
  induction i with
  | zero => rw [pow_zero, mul_one, Function.iterate_zero_apply]
  | succ i ih =>
    rw [Function.iterate_succ_apply', multiplier_contract_sub, penalty_iterate_contract, ih,
      pow_succ, ← mul_assoc, mul_one_div]

theorem factor_contract_lt_one (hpos : 0 < w.penalty * κ) : 1 / (1 + w.penalty * κ) < 1 := by
  rw [div_lt_one (by positivity)]
  exact lt_add_of_pos_right 1 hpos

theorem tendsto_iterate_contract (hpos : 0 < w.penalty * κ) :
    Tendsto (fun i => ((contract κ μ)^[i] w).multiplier) atTop (𝓝 μ) := by
  have herror := (tendsto_pow_atTop_nhds_zero_of_lt_one (by positivity)
    (w.factor_contract_lt_one hpos)).const_mul (w.multiplier - μ)
  rw [mul_zero] at herror
  simp only [← multiplier_iterate_contract_sub] at herror
  exact tendsto_sub_nhds_zero_iff.mp herror

end Contract

/-! ### Runs -/

section Runs

variable [Inhabited σ] (hw : 0 < w.penalty) (ha : k.linear ≠ 0) (hμ : q.IsMultiplier k μ)

include hq hk hw ha hμ

/-- The updated multiplier at a least point of the augmented Lagrangian. -/
theorem factor_value_of_isStationaryAt (hx : q.IsStationaryAt k (w.factor (k.value x)) x) :
    w.factor (k.value x) = (w.contract (q.sensitivity k) μ).multiplier := by
  have hpos := Quadratic.sensitivity_pos hq ha
  have hvalue := hμ.value_eq hq hk hx
  rw [← w.factor_eq_iff (by positivity), ← hvalue]

theorem round_iff {w' : Weights ℝ} :
    Round (q.objective n : Objective σ ℝ n) (k.objective n) w w' ↔
      w' = w.contract (q.sensitivity k) μ := by
  have hpos := Quadratic.sensitivity_pos hq ha
  have hupdate : ∀ x, (w.updatedMultiplier (k.objective n : Objective σ ℝ n) x).Computes
      (w.factor (k.value x)) := fun x => (k.evaluates.value x).bind (Run.computes_pure _)
  constructor
  -- the gradients cancel at the least point, which determines the update
  · rintro ⟨x, ν, hx, hν, rfl⟩
    rw [isMinimizer_lagrangian_iff w hq hk hw.le] at hx
    rw [(hupdate x).eq_of_yields hν, factor_value_of_isStationaryAt w hq hk hw ha hμ hx]
    rfl
  · rintro rfl
    -- the stationary point for the new multiplier is a least point for the old one
    obtain ⟨x, hx⟩ :=
      Quadratic.exists_isStationaryAt hq hk (w.contract (q.sensitivity k) μ).multiplier
    have hfactor : w.factor (k.value x) = (w.contract (q.sensitivity k) μ).multiplier := by
      rw [hμ.value_eq hq hk hx, w.factor_eq_iff (by positivity)]
    rw [← hfactor] at hx
    refine ⟨x, w.factor (k.value x), ?_, (hupdate x).yields, ?_⟩
    · exact (isMinimizer_lagrangian_iff w hq hk hw.le).mpr hx
    · rw [hfactor]
      rfl

/-- The method has exactly one run from given weights. -/
theorem isRun_iff {run : ℕ → Weights ℝ} :
    IsRun (q.objective n : Objective σ ℝ n) (k.objective n) w run ↔
      run = fun i => (contract (q.sensitivity k) μ)^[i] w := by
  have hpenalty : ∀ i, 0 < ((contract (q.sensitivity k) μ)^[i] w).penalty := fun i =>
    (w.penalty_iterate_contract i).symm ▸ hw
  constructor
  · intro hrun
    funext i
    -- by induction on the round
    induction i with
    | zero => exact hrun.start
    | succ i ih =>
      have hround := hrun.round i
      rw [ih, round_iff _ hq hk (hpenalty i) ha hμ] at hround
      rw [hround, Function.iterate_succ_apply']
  · rintro rfl
    refine ⟨rfl, fun i => ?_⟩
    rw [round_iff _ hq hk (hpenalty i) ha hμ, Function.iterate_succ_apply']

end Runs

omit hq hk

/-- **The method of multipliers converges**: where the gradient of the augmented Lagrangian
vanishes, the error of the updated multiplier is that of the old one divided by `1 + γ κ`, and the
value of the constraint is `-κ` times it. So the runs of the method, one from each start, converge
to the multiplier of the problem, and their errors shrink by the same factor in every round. -/
theorem rounds_converge [Inhabited σ] (hq : q.matrix.IsPosDef) (hk : k.matrix = .zero)
    (ha : k.linear ≠ 0) (hw : 0 < w.penalty) :
    q.matrix.IsInverse q.matrix.inverse ∧ 0 < q.sensitivity k ∧
      1 / (1 + w.penalty * q.sensitivity k) < 1 ∧ (∃! μ, q.IsMultiplier k μ) ∧
      ∀ μ, q.IsMultiplier k μ →
        (∀ x, ((w.lagrangian (q.objective n : Objective σ ℝ n) (k.objective n)).gradient x).Yields
            0 →
          ∃ ν, (w.updatedMultiplier (k.objective n : Objective σ ℝ n) x).Computes ν ∧
            ν - μ = (w.multiplier - μ) / (1 + w.penalty * q.sensitivity k) ∧
            ((k.objective n : Objective σ ℝ n).value x).Computes (q.sensitivity k * (μ - ν))) ∧
        (∃! run, IsRun (q.objective n : Objective σ ℝ n) (k.objective n) w run) ∧
        ∀ run, IsRun (q.objective n : Objective σ ℝ n) (k.objective n) w run →
          (∀ i, (run (i + 1)).multiplier - μ =
            ((run i).multiplier - μ) / (1 + w.penalty * q.sensitivity k)) ∧
          Tendsto (fun i => (run i).multiplier) atTop (𝓝 μ) := by
  have hpos := Quadratic.sensitivity_pos hq ha
  have hproduct : 0 < w.penalty * q.sensitivity k := mul_pos hw hpos
  refine ⟨hq.isInverse_inverse, hpos, w.factor_contract_lt_one hproduct,
    Quadratic.existsUnique_isMultiplier hq hk ha,
    fun μ hμ => ⟨fun x hx => ?_, ?_, fun run hrun => ?_⟩⟩
  · -- one round, from a point where the gradient vanishes
    rw [yields_gradient_lagrangian_iff] at hx
    have hstationary : q.IsStationaryAt k (w.factor (k.value x)) x := hx.symm
    refine ⟨w.factor (k.value x), (k.evaluates.value x).bind (Run.computes_pure _), ?_, ?_⟩
    · rw [factor_value_of_isStationaryAt w hq hk hw ha hμ hstationary, multiplier_contract_sub]
    · rw [← hμ.value_eq hq hk hstationary]
      exact k.evaluates.value x
  · exact ⟨_, (isRun_iff w hq hk hw ha hμ).mpr rfl,
      fun run hrun => (isRun_iff w hq hk hw ha hμ).mp hrun⟩
  · obtain rfl := (isRun_iff w hq hk hw ha hμ).mp hrun
    refine ⟨fun i => ?_, w.tendsto_iterate_contract hproduct⟩
    dsimp only
    rw [Function.iterate_succ_apply', multiplier_contract_sub, penalty_iterate_contract]

end Weights

open Quadratic

/-- The least value of `x₁² + x₂²` on the line `x₁ + x₂ = 2`. -/
theorem rounds_converge_line :
    (bowl 2 0).matrix.IsPosDef ∧ (line (-2)).matrix = .zero ∧ (line (-2)).linear ≠ 0 ∧
      (bowl 2 0).IsMultiplier (line (-2)) (-2) ∧
      ((Weights.lagrangian ⟨0, 3⟩ ((bowl 2 0).objective 2 : Objective Unit ℝ 2)
        ((line (-2)).objective 2)).gradient #v[3 / 4, 3 / 4]).Yields 0 ∧
      (Weights.updatedMultiplier ⟨0, 3⟩ ((line (-2)).objective 2 : Objective Unit ℝ 2)
        #v[3 / 4, 3 / 4]).Computes (-3 / 2) ∧
      (((line (-2)).objective 2 : Objective Unit ℝ 2).value #v[3 / 4, 3 / 4]).Computes (-1 / 2) ∧
      ∃ run, Weights.IsRun ((bowl 2 0).objective 2 : Objective Unit ℝ 2) ((line (-2)).objective 2)
          ⟨0, 3⟩ run ∧
        (∀ i, (run (i + 1)).multiplier + 2 = ((run i).multiplier + 2) / 4) ∧
        Tendsto (fun i => (run i).multiplier) atTop (𝓝 (-2)) := by
  have hq : (bowl 2 0).matrix.IsPosDef := bowl_isPosDef two_pos 0
  have ha : (line (-2)).linear ≠ 0 := by
    intro hzero
    have hentry : (line (-2)).linear.entry 0 = 0 := by rw [hzero]; rfl
    exact one_ne_zero hentry
  have hκ : (bowl 2 0).sensitivity (line (-2)) = 1 := by
    rw [sensitivity_bowl_line two_pos, div_self two_ne_zero]
  -- the solution is `(1, 1)`, where the gradients cancel for `μ = -2`
  have hstationary : (bowl 2 0).IsStationaryAt (line (-2)) (-2) #v[1, 1] := by
    unfold IsStationaryAt
    rw [bowl_gradient, line_gradient, Vec.pair_smul, Vec.pair_add]
    norm_num
    rfl
  have hμ : (bowl 2 0).IsMultiplier (line (-2)) (-2) := by
    refine ⟨_, hstationary.isSolution hq rfl ?_, hstationary⟩
    rw [line_value]
    norm_num
  -- the least point for the multiplier zero and the penalty three
  have hgradient : ((Weights.lagrangian ⟨0, 3⟩ ((bowl 2 0).objective 2 : Objective Unit ℝ 2)
      ((line (-2)).objective 2)).gradient #v[3 / 4, 3 / 4]).Yields 0 := by
    rw [Weights.yields_gradient_lagrangian_iff, bowl_gradient, line_gradient, line_value,
      Vec.pair_smul, Vec.pair_add]
    norm_num [Weights.factor]
    rfl
  obtain ⟨-, -, -, -, hconverges⟩ :=
    Weights.rounds_converge (σ := Unit) ⟨0, 3⟩ hq (k := line (-2)) rfl ha three_pos
  obtain ⟨hround, ⟨run, hrun, -⟩, hruns⟩ := hconverges _ hμ
  obtain ⟨ν, hν, herror, hvalue⟩ := hround _ hgradient
  obtain ⟨hstep, hlimit⟩ := hruns run hrun
  have hfactor : 1 + 3 * (bowl 2 0).sensitivity (line (-2)) = 4 := by
    rw [hκ]
    norm_num
  dsimp only at herror hstep
  rw [hfactor] at herror hstep
  simp only [sub_neg_eq_add, zero_add] at herror hstep
  obtain rfl : ν = -3 / 2 := by linarith only [herror]
  have hconstraint : (bowl 2 0).sensitivity (line (-2)) * (-2 - -3 / 2) = -1 / 2 := by
    rw [hκ]
    norm_num
  rw [hconstraint] at hvalue
  exact ⟨hq, rfl, ha, hμ, hgradient, hν, hvalue, run, hrun, hstep, hlimit⟩

end Downhill
