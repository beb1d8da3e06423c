import Downhill.Proofs.Exact.Quadratic
import Downhill.Proofs.Search.ProjectedBacktracking

/-!
# The step that projected backtracking finds

* `search_finds_least_halving`: in every arithmetic, as long as no evaluation fails, a search along
  a direction of descent takes the first of the steps `1, 1/2, 1/4, …` with the projected sufficient
  decrease. It fails if its cap admits none, and at once if the projected full step does not move
  the point or if the cap is zero.

A trial is known by the number of halvings before it. From any trial on, the search ends at the
first one with sufficient decrease (`Path.computes_backtrack_least`) or at the cap
(`Path.raises_backtrack_cap`).
-/

namespace Downhill

/-- One, halved `k` times. -/
def Scalar.halved {α : Type} [Scalar α] : (k : Nat) → α
  | 0 => 1
  | k + 1 => halved k * half

theorem Scalar.halved_real (k : Nat) : (halved k : ℝ) = (1 / 2) ^ k := by
  induction k with
  | zero => exact (pow_zero _).symm
  | succ k ih => rw [halved, ih, half_real, pow_succ]

theorem SearchParams.validateBacktracking_eq {α : Type} [Scalar α] {params : SearchParams α}
    (hpos : 0 < params.sigma) (hlt : params.sigma < 1) :
    params.validateBacktracking = params.validateCap := by
  unfold validateBacktracking
  simp [hpos, hlt]

namespace ProjectedBacktracking

open Scalar

variable {σ α : Type} [Scalar α] {n : Nat}

/-! ### Trials -/

namespace Path

variable {path : Path σ α n} {π : Vec α n → Vec α n} {F : Vec α n → α}

/-- The projected sufficient decrease at step `t`, with the projection `π` and the value `F`:
`F(π(x + t d)) ≤ f(x) - (σ / t) ‖x - π(x - t g)‖²`. -/
def Decreases (path : Path σ α n) (π : Vec α n → Vec α n) (F : Vec α n → α) (t : α) : Prop :=
  F (π (path.base + t * path.direction)) ≤
    path.value - path.sigma / t * (path.base - π (path.base - t * path.gradient)).normSq

/-- The evaluations of the trial at step `t` succeed: the projection is that of `π`, and the value
that of `F`. -/
structure Tries (path : Path σ α n) (π : Vec α n → Vec α n) (F : Vec α n → α) (t : α) : Prop where
  /-- The point `x + t d` is projected. -/
  ahead : path.projection.project (path.base + t * path.direction) =
    .ok (π (path.base + t * path.direction))
  /-- The value is computed there. -/
  value : (path.objective.value (π (path.base + t * path.direction))).Computes
    (F (π (path.base + t * path.direction)))
  /-- The point `x - t g` is projected. -/
  back : path.projection.project (path.base - t * path.gradient) =
    .ok (π (path.base - t * path.gradient))

theorem Tries.bound_eq {t : α} (h : path.Tries π F t) :
    path.bound t = .ok (path.value -
      path.sigma / t * (path.base - π (path.base - t * path.gradient)).normSq) := by
  -- only the projection of the gradient step can fail
  unfold bound Projection.gradientStep
  rw [h.back]
  rfl

/-- If a trial has sufficient decrease, there is a first one that has. -/
theorem exists_first {k : Nat} (h : path.Decreases π F (halved k)) :
    ∃ m ≤ k, path.Decreases π F (halved m) ∧ ∀ j < m, ¬ path.Decreases π F (halved j) := by
  classical
  have hsome : ∃ m, path.Decreases π F (halved m) := ⟨k, h⟩
  exact ⟨Nat.find hsome, Nat.find_min' hsome h, Nat.find_spec hsome, fun _ => Nat.find_min hsome⟩

/-- The step of the trial after `m` halvings. -/
def stepAt (path : Path σ α n) (π : Vec α n → Vec α n) (F : Vec α n → α) (m : Nat) : Step α n where
  size := halved m
  point := π (path.base + (halved m : α) * path.direction)
  value := F (π (path.base + (halved m : α) * path.direction))
  tally := ⟨m + 2, 1⟩

/-! ### Backtracking from a trial on -/

/-- From each trial up to the first one with sufficient decrease, backtracking ends there. -/
theorem computes_backtrack_least {m : Nat} (htries : ∀ k ≤ m, path.Tries π F (halved k))
    (hearlier : ∀ k < m, ¬ path.Decreases π F (halved k))
    (hdecreases : path.Decreases π F (halved m)) :
    ∀ {remaining k : Nat}, k ≤ m → m ≤ k + remaining →
      (path.backtrack remaining k (halved k) ⟨k + 1, 1⟩).Computes (path.stepAt π F m) := by
  -- induction on the halvings that remain; `k` counts those that were made
  intro remaining
  induction remaining with
  | zero =>
    intro k hk hm
    obtain rfl : k = m := by omega
    have htrial := htries k le_rfl
    exact computes_backtrack_of_le htrial.ahead htrial.value htrial.bound_eq hdecreases
  | succ remaining ih =>
    intro k hk hm
    have htrial := htries k hk
    -- a trial before the first one with sufficient decrease is halved
    rcases Nat.lt_or_eq_of_le hk with hlt | rfl
    · exact computes_backtrack_of_halve htrial.ahead htrial.value htrial.bound_eq (hearlier k hlt)
        (ih (k := k + 1) hlt (by omega))
    · exact computes_backtrack_of_le htrial.ahead htrial.value htrial.bound_eq hdecreases

/-- Without sufficient decrease at any trial, backtracking ends at the cap. -/
theorem raises_backtrack_cap {cap : Nat} (htries : ∀ k ≤ cap, path.Tries π F (halved k))
    (hnone : ∀ k ≤ cap, ¬ path.Decreases π F (halved k)) :
    ∀ {remaining k : Nat}, k + remaining = cap →
      (path.backtrack remaining k (halved k) ⟨k + 1, 1⟩).Raises
        (.searchFailed .backtracking cap (halved cap) path.value) := by
  -- induction on the halvings that remain, as before
  intro remaining
  induction remaining with
  | zero =>
    intro k hk
    obtain rfl : k = cap := by omega
    have htrial := htries k le_rfl
    exact raises_backtrack_of_cap htrial.ahead htrial.value htrial.bound_eq (hnone k le_rfl)
  | succ remaining ih =>
    intro k hk
    have htrial := htries k (by omega)
    exact raises_backtrack_of_halve htrial.ahead htrial.value htrial.bound_eq (hnone k (by omega))
      (ih (k := k + 1) (by omega))

end Path

/-! ### The search -/

variable {f : Objective σ α n} {P : Projection α n} {x d g : Vec α n} {params : SearchParams α}
  {π : Vec α n → Vec α n} {F : Vec α n → α}

/-- The path of a search from `x` along `d`, where the value is that of `F` and the gradient at the
projection of `x` is `g`. -/
def pathOf (f : Objective σ α n) (P : Projection α n) (x d : Vec α n) (params : SearchParams α)
    (F : Vec α n → α) (g : Vec α n) : Path σ α n :=
  { objective := f, projection := P, base := x, direction := d, value := F x, gradient := g,
    sigma := params.sigma }

/-- The evaluations of a search succeed, as far as it makes them: the projection is that of `π`, the
value that of `F`, and the gradient at the projection of the point is `g`. -/
structure Evaluated (f : Objective σ α n) (P : Projection α n) (x d : Vec α n)
    (params : SearchParams α) (π : Vec α n → Vec α n) (F : Vec α n → α) (g : Vec α n) : Prop where
  /-- The point is projected. -/
  feasible : P.project x = .ok (π x)
  /-- The gradient is computed there. -/
  gradient : (f.gradient (π x)).Computes g
  /-- The value is computed at the point itself. -/
  value : (f.value x).Computes (F x)
  /-- The full step is projected. -/
  full : P.project (x + d) = .ok (π (x + d))
  /-- Where it moves the point, each trial that only follows trials without sufficient decrease is
  evaluated. -/
  trial : (π (x + d) == x) = false → ∀ k ≤ params.maxIterations,
    (∀ j < k, ¬ (pathOf f P x d params F g).Decreases π F (halved j)) →
      (pathOf f P x d params F g).Tries π F (halved k)

theorem slope_eq_ok (h : isFinite (g.dot d) = true) : slope g d = .ok (g.dot d) := by
  unfold slope
  exact if_pos h

section Search

variable (hslope : slope g d = .ok (g.dot d)) (hdescent : ¬ 0 ≤ g.dot d)

include hslope hdescent

/-- Settings are refused after the test of the slope and before a value is asked for. -/
theorem raises_search_of_invalid {y : Vec α n} (hfeasible : P.project x = .ok y)
    (hgradient : (f.gradient y).Computes g) {e : Failure α}
    (hvalid : params.validateBacktracking = .error e) : (search f P x d params).Raises e := by
  unfold search
  refine (Run.computes_liftM d.ofLength_self).bind_raises
    ((Run.computes_liftM hfeasible).bind_raises
      (hgradient.bind_raises ((Run.computes_liftM hslope).bind_raises ?_)))
  dsimp only
  rw [if_neg hdescent]
  exact (Run.raises_liftM hvalid).bind

variable (heval : Evaluated f P x d params π F g)

include heval

theorem raises_search_of_stationary (hvalid : params.validateBacktracking = .ok ())
    (hstill : (π (x + d) == x) = true) :
    (search f P x d params).Raises (.searchFailed .stationary 0 1 (F x)) := by
  unfold search
  refine (Run.computes_liftM d.ofLength_self).bind_raises
    ((Run.computes_liftM heval.feasible).bind_raises
      (heval.gradient.bind_raises ((Run.computes_liftM hslope).bind_raises ?_)))
  dsimp only
  rw [if_neg hdescent]
  refine (Run.computes_liftM hvalid).bind_raises (heval.value.bind_raises
    ((Run.computes_record _).bind_raises ((Run.computes_liftM heval.full).bind_raises ?_)))
  -- the full step is compared with the point, exactly
  rw [hstill]
  exact (Run.raises_throw _).bind

variable (hvalid : params.validateBacktracking = .ok ()) (hmove : (π (x + d) == x) = false)

include hvalid hmove

theorem computes_search_least {m : Nat} (hm : m ≤ params.maxIterations)
    (hearlier : ∀ k < m, ¬ (pathOf f P x d params F g).Decreases π F (halved k))
    (hdecreases : (pathOf f P x d params F g).Decreases π F (halved m)) :
    (search f P x d params).Computes ((pathOf f P x d params F g).stepAt π F m) := by
  -- the trials up to the first with sufficient decrease are evaluated, and no others
  have htries : ∀ k ≤ m, (pathOf f P x d params F g).Tries π F (halved k) := fun k hk =>
    heval.trial hmove k (hk.trans hm) fun j hj => hearlier j (hj.trans_le hk)
  have hcap : m ≤ 0 + params.maxIterations := by rwa [Nat.zero_add]
  have hfound := Path.computes_backtrack_least htries hearlier hdecreases (Nat.zero_le m) hcap
  exact computes_search heval.feasible heval.gradient hslope hdescent hvalid heval.value heval.full
    hmove hfound

theorem raises_search_cap
    (hnone : ∀ k ≤ params.maxIterations, ¬ (pathOf f P x d params F g).Decreases π F (halved k)) :
    (search f P x d params).Raises (.searchFailed .backtracking params.maxIterations
      (halved params.maxIterations) (F x)) := by
  have htries : ∀ k ≤ params.maxIterations, (pathOf f P x d params F g).Tries π F (halved k) :=
    fun k hk => heval.trial hmove k hk fun j hj => hnone j (hj.le.trans hk)
  have hraises := Path.raises_backtrack_cap htries hnone (Nat.zero_add _)
  exact raises_search heval.feasible heval.gradient hslope hdescent hvalid heval.value heval.full
    hmove hraises

end Search

/-- **Least halvings**: a search with `0 < σ < 1` along a direction with a finite negative slope,
where no evaluation fails. With a cap of zero the settings are refused, and no value is evaluated
before that: it is so whatever the values are and whether or not they can be computed. Otherwise the
search fails if the projected full step does not move the point; it finds the first of the steps
`1, 1/2, 1/4, …` with the projected sufficient decrease, if the cap admits one, after as many values
as there were trials and one at the start; and else it fails at its cap. -/
theorem search_finds_least_halving [Ordered α] (heval : Evaluated f P x d params π F g)
    (hfinite : isFinite (g.dot d) = true) (hdescent : g.dot d < 0) (hpos : 0 < params.sigma)
    (hlt : params.sigma < 1) :
    (params.maxIterations = 0 →
      ∀ value,
        (search { f with value } P x d params).Raises (.invalidSetting .searchCap (.count 0))) ∧
    (1 ≤ params.maxIterations →
      ((π (x + d) == x) = true →
        (search f P x d params).Raises (.searchFailed .stationary 0 1 (F x))) ∧
      ((π (x + d) == x) = false →
        (∀ m ≤ params.maxIterations,
          (pathOf f P x d params F g).Decreases π F (halved m) →
          (∀ k < m, ¬ (pathOf f P x d params F g).Decreases π F (halved k)) →
            (search f P x d params).Computes
              { size := halved m
                point := π (x + (halved m : α) * d)
                value := F (π (x + (halved m : α) * d))
                tally := ⟨m + 2, 1⟩ }) ∧
        ((∀ m ≤ params.maxIterations,
          ¬ (pathOf f P x d params F g).Decreases π F (halved m)) →
            (search f P x d params).Raises (.searchFailed .backtracking params.maxIterations
              (halved params.maxIterations) (F x))))) := by
  have hslope := slope_eq_ok hfinite
  have hnot : ¬ 0 ≤ g.dot d := fun hle => Ordered.not_lt_of_le hle hdescent
  have hsettings := SearchParams.validateBacktracking_eq hpos hlt
  refine ⟨fun hcap value => ?_, fun hcap => ?_⟩
  -- the value is left open, for the settings are checked before it is asked for
  · have hgradient : (({ f with value } : Objective σ α n).gradient (π x)).Computes g :=
      heval.gradient
    refine raises_search_of_invalid hslope hnot heval.feasible hgradient ?_
    rw [hsettings]
    exact if_pos hcap
  -- a nonzero cap is the only thing left to check
  · have hvalid : params.validateBacktracking = .ok () := by
      rw [hsettings]
      exact if_neg (by omega)
    exact ⟨raises_search_of_stationary hslope hnot heval hvalid, fun hmove =>
      ⟨fun m hm hdecreases hearlier =>
        computes_search_least hslope hnot heval hvalid hmove hm hearlier hdecreases,
        raises_search_cap hslope hnot heval hvalid hmove⟩⟩

/-! ### Searches on half a square -/

section Simple

variable {c t : ℝ}

/-- On the line, every search along half a square evaluates its trials. -/
theorem evaluated_simple (x d : Vec ℝ 1) (params : SearchParams ℝ) :
    Evaluated ((Quadratic.simple 1).objective 1 : Objective σ ℝ 1) (.whole 1) x d params id
      (Quadratic.simple 1).value ((Quadratic.simple 1).gradient x) where
  feasible := rfl
  gradient := (Quadratic.simple 1).evaluates.gradient x
  value := (Quadratic.simple 1).evaluates.value x
  full := rfl
  trial _ _ _ _ := ⟨rfl, (Quadratic.simple 1).evaluates.value _, rfl⟩

theorem simple_value_singleton (a : ℝ) : (Quadratic.simple 1).value #v[a] = a ^ 2 / 2 := by
  rw [Quadratic.simple_value, Vec.dot_singleton]
  ring

/-- From one, the step `t` along `c` lowers half a square if `1 + t c` is close enough to zero. -/
theorem decreases_simple_iff (params : SearchParams ℝ) (ht : t ≠ 0) :
    (pathOf ((Quadratic.simple 1).objective 1 : Objective σ ℝ 1) (.whole 1) #v[1] #v[c] params
      (Quadratic.simple 1).value ((Quadratic.simple 1).gradient #v[1])).Decreases id
        (Quadratic.simple 1).value t ↔ (1 + t * c) ^ 2 / 2 ≤ 1 / 2 - params.sigma * t := by
  have hahead : (#v[1] : Vec ℝ 1) + t * (#v[c] : Vec ℝ 1) = #v[1 + t * c] := by
    rw [Vec.hmul_eq_smul, Vec.singleton_smul, Vec.singleton_add]
  have hback : (#v[1] : Vec ℝ 1) - (#v[1] - t * (#v[1] : Vec ℝ 1)) = #v[t] := by
    rw [Vec.hmul_eq_smul, Vec.singleton_smul, Vec.singleton_sub, Vec.singleton_sub, mul_one,
      sub_sub_cancel]
  -- the gradient step from one has length `t`
  have hgap : params.sigma / t * Vec.normSq (#v[t] : Vec ℝ 1) = params.sigma * t := by
    unfold Vec.normSq
    rw [Vec.dot_singleton, ← mul_assoc, div_mul_cancel₀ _ ht]
  unfold Path.Decreases pathOf
  dsimp only
  rw [Quadratic.simple_gradient, id, id, hahead, hback, hgap, simple_value_singleton,
    simple_value_singleton, one_pow]

theorem slope_simple_neg (hc : c < 0) :
    ((Quadratic.simple 1).gradient #v[1]).dot #v[c] < (0 : ℝ) := by
  rwa [Quadratic.simple_gradient, Vec.dot_singleton, one_mul]

theorem project_simple_ne (hc : c ≠ 0) :
    ((id (#v[1] + #v[c]) : Vec ℝ 1) == #v[1]) = false := by
  refine beq_eq_false_iff_ne.mpr fun h => hc ?_
  rw [id, Vec.singleton_add] at h
  have hentry := congrArg (fun y : Vec ℝ 1 => y[0]) h
  exact add_eq_left.mp hentry

end Simple

theorem sigma_projectedBacktracking :
    (SearchParams.projectedBacktracking : SearchParams ℝ).sigma = 1e-4 := rfl

/-- From one along `-4` the full step leads to `-3` and the half step to `-1`, which is no
improvement; so the search halves twice, and fails if it may do so only once. -/
theorem search_finds_least_halving_quarter :
    (search ((Quadratic.simple 1).objective 1 : Objective Unit ℝ 1) (.whole 1) #v[1] #v[-4]
      .projectedBacktracking).Computes ⟨1 / 4, #v[0], 0, ⟨4, 1⟩⟩ ∧
    (search ((Quadratic.simple 1).objective 1 : Objective Unit ℝ 1) (.whole 1) #v[1] #v[-4]
      { SearchParams.projectedBacktracking with maxIterations := 1 }).Raises
        (.searchFailed .backtracking 1 (1 / 2) (1 / 2)) := by
  set capped : SearchParams ℝ := { SearchParams.projectedBacktracking with maxIterations := 1 }
  -- neither one nor one half will do, whatever the positive parameter
  have hfirst : ∀ params : SearchParams ℝ, 0 < params.sigma → ∀ k < 2,
      ¬ (pathOf ((Quadratic.simple 1).objective 1 : Objective Unit ℝ 1) (.whole 1) #v[1] #v[-4]
        params (Quadratic.simple 1).value ((Quadratic.simple 1).gradient #v[1])).Decreases id
          (Quadratic.simple 1).value (halved k) := by
    intro params hpos k hk
    rw [halved_real, decreases_simple_iff params (by positivity), not_le]
    interval_cases k <;> norm_num <;> linarith
  have hpos : (0 : ℝ) < 1e-4 := by norm_num
  have hlt : (1e-4 : ℝ) < 1 := by norm_num
  have hmove := project_simple_ne (c := -4) (by norm_num)
  refine ⟨?_, ?_⟩
  · have hsearch := search_finds_least_halving
      (evaluated_simple (σ := Unit) #v[1] #v[-4] .projectedBacktracking) rfl
      (slope_simple_neg (by norm_num)) hpos hlt
    have hdecreases := (decreases_simple_iff (σ := Unit) (c := -4) (t := 1 / 4)
      .projectedBacktracking (by norm_num)).mpr (by
        rw [sigma_projectedBacktracking]
        norm_num)
    have hquarter : (halved 2 : ℝ) = 1 / 4 := by
      rw [halved_real]
      norm_num
    have hfound := ((hsearch.2 (by decide)).2 hmove).1 2 (by decide) (by rwa [hquarter])
      (hfirst _ hpos)
    have hzero : (#v[1] : Vec ℝ 1) + (1 / 4 : ℝ) * (#v[-4] : Vec ℝ 1) = #v[0] := by
      rw [Vec.hmul_eq_smul, Vec.singleton_smul, Vec.singleton_add]
      norm_num
    rwa [hquarter, id, hzero, simple_value_singleton, zero_pow two_ne_zero, zero_div] at hfound
  · have hsearch := search_finds_least_halving
      (evaluated_simple (σ := Unit) #v[1] #v[-4] capped) rfl (slope_simple_neg (by norm_num))
      hpos hlt
    have hraises := ((hsearch.2 (by decide)).2 hmove).2 fun m hm =>
      hfirst capped hpos m (Nat.lt_succ_of_le hm)
    have hhalf : (halved capped.maxIterations : ℝ) = 1 / 2 := by
      rw [halved_real, show capped.maxIterations = 1 from rfl, pow_one]
    rwa [hhalf, simple_value_singleton, one_pow] at hraises

/-- The default parameters without a halving. -/
noncomputable def withoutHalving : SearchParams ℝ :=
  { SearchParams.projectedBacktracking with maxIterations := 0 }

/-- A cap of zero is refused, although the full step from one to zero has sufficient decrease. -/
theorem search_refuses_zero_cap :
    0 < withoutHalving.sigma ∧ withoutHalving.sigma < 1 ∧
    Evaluated ((Quadratic.simple 1).objective 1 : Objective Unit ℝ 1) (.whole 1) #v[1] #v[-1]
      withoutHalving id (Quadratic.simple 1).value ((Quadratic.simple 1).gradient #v[1]) ∧
    isFinite (((Quadratic.simple 1).gradient #v[1]).dot (#v[-1] : Vec ℝ 1)) = true ∧
    ((Quadratic.simple 1).gradient #v[1]).dot #v[-1] < (0 : ℝ) ∧
    ((id (#v[1] + #v[-1]) : Vec ℝ 1) == #v[1]) = false ∧
    (pathOf ((Quadratic.simple 1).objective 1 : Objective Unit ℝ 1) (.whole 1) #v[1] #v[-1]
      withoutHalving (Quadratic.simple 1).value ((Quadratic.simple 1).gradient #v[1])).Decreases id
        (Quadratic.simple 1).value (halved 0) ∧
    (search ((Quadratic.simple 1).objective 1 : Objective Unit ℝ 1) (.whole 1) #v[1] #v[-1]
      withoutHalving).Raises (.invalidSetting .searchCap (.count 0)) := by
  have hpos : (0 : ℝ) < 1e-4 := by norm_num
  have hlt : (1e-4 : ℝ) < 1 := by norm_num
  have heval := evaluated_simple (σ := Unit) #v[1] #v[-1] withoutHalving
  have hdescent := slope_simple_neg (c := -1) (by norm_num)
  refine ⟨hpos, hlt, heval, rfl, hdescent, project_simple_ne (by norm_num), ?_, ?_⟩
  -- the full step lands on the minimum
  · rw [halved_real, pow_zero, decreases_simple_iff _ one_ne_zero]
    show (1 + 1 * (-1)) ^ 2 / 2 ≤ 1 / 2 - (1e-4 : ℝ) * 1
    norm_num
  · exact raises_search_of_invalid (slope_eq_ok rfl) (not_le.mpr hdescent) heval.feasible
      heval.gradient (SearchParams.validateBacktracking_eq hpos hlt)

end ProjectedBacktracking

end Downhill
