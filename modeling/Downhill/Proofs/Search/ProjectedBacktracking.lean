import Downhill.Proofs.Objective
import Downhill.Search.ProjectedBacktracking
import Mathlib.Tactic.SplitIfs

/-!
# Runs of the projected backtracking search

How the search ends, over every arithmetic. `Path.fails_of_fails_backtrack` and `search_fails` list
the ways in which it fails: a projection or an evaluation fails, the direction or the parameters are
refused, or no step is found. `search_cases` says how it succeeds, and `Path.Ends` what is known of
the step. The lemmas on certain outcomes follow the trials: a step that is accepted ends the search,
another one is halved.
-/

namespace Downhill

theorem SearchParams.sigma_pos_of_validateBacktracking {α : Type} [Scalar α]
    {params : SearchParams α} (h : params.validateBacktracking = .ok ()) : 0 < params.sigma := by
  unfold validateBacktracking at h
  split_ifs at h with hsigma
  rw [Bool.not_eq_true', Bool.not_eq_false, Bool.and_eq_true] at hsigma
  exact of_decide_eq_true hsigma.1

namespace ProjectedBacktracking

variable {σ α : Type} [Scalar α] {n : Nat} {e : Failure α}

/-! ### Backtracking -/

namespace Path

variable {path : Path σ α n} {remaining taken : Nat} {t : α} {tally : Tally}

/-- The bound fails only with the projection. -/
theorem error_of_bound (h : path.bound t = .error e) :
    ∃ y, path.projection.project y = .error e := by
  -- the bound projects the gradient step, and the rest is arithmetic
  unfold bound Projection.gradientStep at h
  cases hy : path.projection.project (path.base - t * path.gradient) with
  | error e' =>
    rw [hy] at h
    cases h
    exact ⟨_, hy⟩
  | ok y =>
    rw [hy] at h
    cases h

/-- Backtracking ends at this trial or halves the step. -/
theorem backtrack_cases {found : Step α n}
    (h : (path.backtrack remaining taken t tally).Yields found) :
    ∃ y value bound, path.point t = .ok y ∧ (path.objective.value y).Yields value ∧
      path.bound t = .ok bound ∧
      (value ≤ bound ∧ found = ⟨t, y, value, tally.value⟩ ∨
        ¬ value ≤ bound ∧ ∃ k, remaining = k + 1 ∧
          (path.backtrack k (taken + 1) (t * Scalar.half) tally.value).Yields found) := by
  unfold backtrack at h
  obtain ⟨y, hy, h⟩ := Run.exists_of_yields_bind h
  obtain ⟨value, hvalue, h⟩ := Run.exists_of_yields_bind h
  obtain ⟨bound, hbound, h⟩ := Run.exists_of_yields_bind h
  -- the trial is evaluated; the test decides whether it is the last one
  refine ⟨y, value, bound, Run.ok_of_yields_liftM hy, hvalue, Run.ok_of_yields_liftM hbound, ?_⟩
  split_ifs at h with hle
  · exact .inl ⟨hle, Run.eq_of_yields_pure h⟩
  · cases remaining with
    | zero => exact absurd h Run.not_yields_throw
    | succ k => exact .inr ⟨hle, k, rfl, Run.yields_of_bind_unit h⟩

/-- What a step promises along the path: its point and its value belong to its size, which has the
property `Q`, and the decrease is sufficient. -/
structure Ends (path : Path σ α n) (Q : α → Prop) (found : Step α n) : Prop where
  size : Q found.size
  point_eq : path.point found.size = .ok found.point
  value_at : (path.objective.value found.point).Yields found.value
  decrease : ∃ bound, path.bound found.size = .ok bound ∧ found.value ≤ bound

/-- Backtracking only ends with such a step. -/
theorem ends_of_yields_backtrack {Q : α → Prop} (hQ : ∀ {t}, Q t → Q (t * Scalar.half)) :
    ∀ {remaining taken : Nat} {t : α} {tally : Tally} {found : Step α n}, Q t →
      (path.backtrack remaining taken t tally).Yields found → path.Ends Q found := by
  -- by induction on the halvings left
  intro remaining
  induction remaining with
  | zero =>
    intro taken t tally found ht h
    obtain ⟨y, value, bound, hy, hvalue, hbound, ⟨hle, rfl⟩ | ⟨_, k, hk, _⟩⟩ := backtrack_cases h
    · exact ⟨ht, hy, hvalue, bound, hbound, hle⟩
    · omega
  | succ remaining ih =>
    intro taken t tally found ht h
    obtain ⟨y, value, bound, hy, hvalue, hbound, ⟨hle, rfl⟩ | ⟨_, k, hk, h⟩⟩ := backtrack_cases h
    · exact ⟨ht, hy, hvalue, bound, hbound, hle⟩
    · obtain rfl : remaining = k := by omega
      exact ih (hQ ht) h

/-- Backtracking fails at this trial, at its cap, or at a later trial. -/
theorem backtrack_fails (h : (path.backtrack remaining taken t tally).Fails e) :
    ((∃ y, path.projection.project y = .error e) ∨ path.objective.CanFail e) ∨
      e = .searchFailed .backtracking taken t path.value ∨
      ∃ k, remaining = k + 1 ∧
        (path.backtrack k (taken + 1) (t * Scalar.half) tally.value).Fails e := by
  -- the point, its value and the bound, in the order in which they are evaluated
  unfold backtrack at h
  rcases Run.fails_or_of_fails_bind h with h | ⟨point, _, h⟩
  · exact .inl (.inl ⟨_, Run.error_of_fails_liftM h⟩)
  rcases Run.fails_or_of_fails_bind h with h | ⟨value, _, h⟩
  · exact .inl (.inr ⟨_, .inl h⟩)
  rcases Run.fails_or_of_fails_bind h with h | ⟨bound, _, h⟩
  · exact .inl (.inl (error_of_bound (Run.error_of_fails_liftM h)))
  split_ifs at h
  · exact absurd h Run.not_fails_pure
  · cases remaining with
    | zero => exact .inr (.inl (Run.eq_of_fails_throw h))
    | succ k => exact .inr (.inr ⟨k, rfl, Run.fails_of_record_bind h⟩)

theorem fails_of_fails_backtrack :
    ∀ {remaining taken : Nat} {t : α} {tally : Tally},
      (path.backtrack remaining taken t tally).Fails e →
      ((∃ y, path.projection.project y = .error e) ∨ path.objective.CanFail e) ∨
        ∃ iterations t', e = .searchFailed .backtracking iterations t' path.value := by
  intro remaining
  induction remaining with
  | zero =>
    intro taken t tally h
    rcases backtrack_fails h with h | h | ⟨k, hk, _⟩
    · exact .inl h
    · exact .inr ⟨_, _, h⟩
    · omega
  | succ remaining ih =>
    intro taken t tally h
    rcases backtrack_fails h with h | h | ⟨k, hk, h⟩
    · exact .inl h
    · exact .inr ⟨_, _, h⟩
    · obtain rfl : remaining = k := by omega
      exact ih h

section Trial

variable {y : Vec α n} {value bound : α} {found : Step α n}

theorem computes_backtrack_of_le (hy : path.point t = .ok y)
    (hvalue : (path.objective.value y).Computes value) (hbound : path.bound t = .ok bound)
    (h : value ≤ bound) :
    (path.backtrack remaining taken t tally).Computes ⟨t, y, value, tally.value⟩ := by
  unfold backtrack
  refine (Run.computes_liftM hy).bind (hvalue.bind ((Run.computes_liftM hbound).bind ?_))
  rw [if_pos h]
  exact Run.computes_pure _

theorem computes_backtrack_of_halve (hy : path.point t = .ok y)
    (hvalue : (path.objective.value y).Computes value) (hbound : path.bound t = .ok bound)
    (h : ¬ value ≤ bound)
    (hrest : (path.backtrack remaining (taken + 1) (t * Scalar.half) tally.value).Computes found) :
    (path.backtrack (remaining + 1) taken t tally).Computes found := by
  unfold backtrack
  refine (Run.computes_liftM hy).bind (hvalue.bind ((Run.computes_liftM hbound).bind ?_))
  rw [if_neg h]
  exact (Run.computes_record _).bind hrest

theorem raises_backtrack_of_cap (hy : path.point t = .ok y)
    (hvalue : (path.objective.value y).Computes value) (hbound : path.bound t = .ok bound)
    (h : ¬ value ≤ bound) :
    (path.backtrack 0 taken t tally).Raises (.searchFailed .backtracking taken t path.value) := by
  unfold backtrack
  refine (Run.computes_liftM hy).bind_raises
    (hvalue.bind_raises ((Run.computes_liftM hbound).bind_raises ?_))
  rw [if_neg h]
  exact Run.raises_throw _

theorem raises_backtrack_of_halve (hy : path.point t = .ok y)
    (hvalue : (path.objective.value y).Computes value) (hbound : path.bound t = .ok bound)
    (h : ¬ value ≤ bound)
    (hrest : (path.backtrack remaining (taken + 1) (t * Scalar.half) tally.value).Raises e) :
    (path.backtrack (remaining + 1) taken t tally).Raises e := by
  unfold backtrack
  refine (Run.computes_liftM hy).bind_raises
    (hvalue.bind_raises ((Run.computes_liftM hbound).bind_raises ?_))
  rw [if_neg h]
  exact (Run.computes_record _).bind_raises hrest

end Trial

end Path

/-! ### The search -/

variable {f : Objective σ α n} {P : Projection α n} {x d : Vec α n} {params : SearchParams α}

/-- A search succeeds along a direction of descent with its backtracking. -/
theorem search_cases {found : Step α n} (h : (search f P x d params).Yields found) :
    ∃ feasible gradient s value full, P.project x = .ok feasible ∧
      (f.gradient feasible).Yields gradient ∧ slope gradient d = .ok s ∧ ¬ 0 ≤ s ∧
      params.validateBacktracking = .ok () ∧ (f.value x).Yields value ∧
      P.project (x + d) = .ok full ∧ (full == x) = false ∧
      (Path.backtrack ⟨f, P, x, d, value, gradient, params.sigma⟩ params.maxIterations 0 1
        ⟨1, 1⟩).Yields found := by
  -- every check and evaluation before backtracking has succeeded
  unfold search at h
  obtain ⟨d', hd, h⟩ := Run.exists_of_yields_bind h
  replace hd := Run.ok_of_yields_liftM hd
  rw [Vec.ofLength_self] at hd
  cases hd
  obtain ⟨feasible, hfeasible, h⟩ := Run.exists_of_yields_bind h
  obtain ⟨gradient, hgradient, h⟩ := Run.exists_of_yields_bind h
  obtain ⟨s, hs, h⟩ := Run.exists_of_yields_bind h
  dsimp only at h
  split_ifs at h with hascent
  · obtain ⟨_, hthrow, _⟩ := Run.exists_of_yields_bind h
    exact absurd hthrow Run.not_yields_throw
  obtain ⟨_, hvalid, h⟩ := Run.exists_of_yields_bind h
  obtain ⟨value, hvalue, h⟩ := Run.exists_of_yields_bind h
  replace h := Run.yields_of_bind_unit h
  obtain ⟨full, hfull, h⟩ := Run.exists_of_yields_bind h
  -- a full step that does not move the point is refused as well
  split_ifs at h with hmove
  · obtain ⟨_, hthrow, _⟩ := Run.exists_of_yields_bind h
    exact absurd hthrow Run.not_yields_throw
  obtain ⟨step, hstep, h⟩ := Run.exists_of_yields_bind h
  replace h := Run.yields_of_bind_unit h
  cases Run.eq_of_yields_pure h
  exact ⟨feasible, gradient, s, value, full, Run.ok_of_yields_liftM hfeasible, hgradient,
    Run.ok_of_yields_liftM hs, hascent, Run.ok_of_yields_liftM hvalid, hvalue,
    Run.ok_of_yields_liftM hfull, Bool.eq_false_iff.mpr hmove, hstep⟩

/-- The point of a step is projected, and its value was evaluated there. -/
theorem evaluated_of_yields_search {found : Step α n} (h : (search f P x d params).Yields found) :
    (∃ y, P.project y = .ok found.point) ∧ (f.value found.point).Yields found.value := by
  obtain ⟨_, _, _, _, _, _, _, _, _, _, _, _, _, h⟩ := search_cases h
  have hends := Path.ends_of_yields_backtrack (Q := fun _ => True) id trivial h
  exact ⟨⟨_, hends.point_eq⟩, hends.value_at⟩

/-- The failures of a search whose direction has the length of the point. -/
theorem search_fails (h : (search f P x d params).Fails e) :
    ((∃ y, P.project y = .error e) ∨ f.CanFail e) ∨
      (∃ feasible gradient, P.project x = .ok feasible ∧
        (f.gradient feasible).Yields gradient ∧
        (slope gradient d = .error e ∨
          ∃ s, slope gradient d = .ok s ∧ 0 ≤ s ∧ e = .ascent s)) ∨
      params.validateBacktracking = .error e ∨
      ∃ cause iterations t value, e = .searchFailed cause iterations t value := by
  -- in the order of the search: projection, gradient, slope, parameters, value, full step, trials
  unfold search at h
  replace h := (Run.computes_liftM d.ofLength_self).fails_of_bind h
  rcases Run.fails_or_of_fails_bind h with h | ⟨feasible, hfeasible, h⟩
  · exact .inl (.inl ⟨_, Run.error_of_fails_liftM h⟩)
  rcases Run.fails_or_of_fails_bind h with h | ⟨gradient, hgradient, h⟩
  · exact .inl (.inr ⟨_, .inr h⟩)
  rcases Run.fails_or_of_fails_bind h with h | ⟨s, hs, h⟩
  · exact .inr (.inl ⟨feasible, gradient, Run.ok_of_yields_liftM hfeasible, hgradient,
      .inl (Run.error_of_fails_liftM h)⟩)
  dsimp only at h
  split_ifs at h with hascent
  · rcases Run.fails_or_of_fails_bind h with h | ⟨_, hthrow, _⟩
    · exact .inr (.inl ⟨feasible, gradient, Run.ok_of_yields_liftM hfeasible, hgradient,
        .inr ⟨s, Run.ok_of_yields_liftM hs, hascent, Run.eq_of_fails_throw h⟩⟩)
    · exact absurd hthrow Run.not_yields_throw
  rcases Run.fails_or_of_fails_bind h with h | ⟨_, _, h⟩
  · exact .inr (.inr (.inl (Run.error_of_fails_liftM h)))
  rcases Run.fails_or_of_fails_bind h with h | ⟨value, _, h⟩
  · exact .inl (.inr ⟨_, .inl h⟩)
  replace h := Run.fails_of_record_bind h
  rcases Run.fails_or_of_fails_bind h with h | ⟨full, _, h⟩
  · exact .inl (.inl ⟨_, Run.error_of_fails_liftM h⟩)
  split_ifs at h
  · rcases Run.fails_or_of_fails_bind h with h | ⟨_, hthrow, _⟩
    · exact .inr (.inr (.inr ⟨_, _, _, _, Run.eq_of_fails_throw h⟩))
    · exact absurd hthrow Run.not_yields_throw
  rcases Run.fails_or_of_fails_bind h with h | ⟨_, _, h⟩
  -- what remains is the backtracking itself
  · rcases Path.fails_of_fails_backtrack h with h | ⟨_, _, h⟩
    · exact .inl h
    · exact .inr (.inr (.inr ⟨_, _, _, _, h⟩))
  · exact absurd (Run.fails_of_record_bind h) Run.not_fails_pure

section Start

variable {feasible full gradient : Vec α n} {s value : α}
  (hfeasible : P.project x = .ok feasible) (hgradient : (f.gradient feasible).Computes gradient)
  (hslope : slope gradient d = .ok s) (hdescent : ¬ 0 ≤ s)
  (hvalid : params.validateBacktracking = .ok ()) (hvalue : (f.value x).Computes value)
  (hfull : P.project (x + d) = .ok full) (hmove : (full == x) = false)

include hfeasible hgradient hslope hdescent hvalid hvalue hfull hmove

/-- Where the first trials do not stop it, the search ends as its backtracking does. -/
theorem computes_search {found : Step α n}
    (hfound : (Path.backtrack ⟨f, P, x, d, value, gradient, params.sigma⟩ params.maxIterations 0 1
      ⟨1, 1⟩).Computes found) : (search f P x d params).Computes found := by
  unfold search
  refine (Run.computes_liftM d.ofLength_self).bind ((Run.computes_liftM hfeasible).bind
    (hgradient.bind ((Run.computes_liftM hslope).bind ?_)))
  dsimp only
  -- past the test of the slope
  rw [if_neg hdescent]
  refine (Run.computes_liftM hvalid).bind (hvalue.bind ((Run.computes_record _).bind
    ((Run.computes_liftM hfull).bind ?_)))
  -- past the test that the full step moves the point
  rw [hmove]
  exact hfound.bind ((Run.computes_record _).bind (Run.computes_pure _))

theorem raises_search
    (hraises : (Path.backtrack ⟨f, P, x, d, value, gradient, params.sigma⟩ params.maxIterations 0 1
      ⟨1, 1⟩).Raises e) : (search f P x d params).Raises e := by
  unfold search
  refine (Run.computes_liftM d.ofLength_self).bind_raises
    ((Run.computes_liftM hfeasible).bind_raises
      (hgradient.bind_raises ((Run.computes_liftM hslope).bind_raises ?_)))
  dsimp only
  rw [if_neg hdescent]
  refine (Run.computes_liftM hvalid).bind_raises (hvalue.bind_raises
    ((Run.computes_record _).bind_raises ((Run.computes_liftM hfull).bind_raises ?_)))
  rw [hmove]
  exact hraises.bind

end Start

end ProjectedBacktracking

end Downhill
