import Downhill.Proofs.Method.ImplicitFiltering
import Downhill.Proofs.Method.LevenbergMarquardt
import Downhill.Proofs.Method.Newton
import Downhill.Proofs.Method.ProjectedNewton
import Downhill.Proofs.Method.QuasiNewton
import Downhill.Proofs.Search.WolfeConditions

/-!
# What the stages of a run record

All methods keep the value at the present point beside the point, and a history of values.
`Recorded` says that the two belong together: the value was evaluated at the point, the history
starts with the value at the start, ends with the present one, and has one entry more than there
were moves.

The stages of all five methods are of this kind, over every arithmetic, and what else they keep
beside the point was evaluated there too (`Newton.faithful_of_holds` and its namesakes). A history
only ever grows at its end, so it has the values of the earlier stages at their places (`Grows`).
-/

namespace Downhill

variable {σ α : Type} {m n : Nat}

/-! ### Recorded values -/

/-- The value `current` at the point `y` and the history of a descent from `x`, after a number of
moves. -/
structure Recorded (value : Vec α n → Run σ α α) (x y : Vec α n) (current : α) (history : Array α)
    (moves : Nat) : Prop where
  /-- The present value was evaluated at the present point. -/
  value_at : (value y).Yields current
  /-- The history starts with the value at the start. -/
  head : ∃ first, (value x).Yields first ∧ history[0]? = some first
  /-- The history ends with the present value. -/
  back : history.back? = some current
  /-- The start and every move have an entry. -/
  size : history.size = moves + 1

namespace Recorded

variable {value : Vec α n → Run σ α α} {x y z : Vec α n} {current v : α} {history : Array α}
  {moves : Nat}

theorem start (h : (value x).Yields v) : Recorded value x x v #[v] 0 where
  value_at := h
  head := ⟨v, h, rfl⟩
  back := rfl
  size := rfl

theorem move (h : Recorded value x y current history moves) (hz : (value z).Yields v) :
    Recorded value x z v (history.push v) (moves + 1) where
  value_at := hz
  head := by
    obtain ⟨first, hfirst, hhead⟩ := h.head
    refine ⟨first, hfirst, ?_⟩
    rwa [Array.getElem?_push_lt (by rw [h.size]; omega), ← Array.getElem?_eq_getElem]
  back := Array.back?_push
  size := by rw [Array.size_push, h.size]

/-- The entry with the number of the last move. -/
theorem getElem?_moves (h : Recorded value x y current history moves) :
    history[moves]? = some current := by
  rw [← h.back, Array.back?, h.size, Nat.add_sub_cancel]

end Recorded

/-- The later history only adds values at the end of the earlier one. -/
def Grows (earlier later : Array α) : Prop := ∃ values, later = earlier ++ values

namespace Grows

variable {a b c : Array α}

theorem refl (a : Array α) : Grows a a := ⟨#[], by rw [Array.append_empty]⟩

theorem push (h : Grows a b) (v : α) : Grows a (b.push v) := by
  obtain ⟨values, rfl⟩ := h
  exact ⟨values.push v, Array.append_push.symm⟩

theorem getElem? (h : Grows a b) {i : Nat} {v : α} (hv : a[i]? = some v) : b[i]? = some v := by
  obtain ⟨values, rfl⟩ := h
  obtain ⟨hi, -⟩ := Array.getElem?_eq_some_iff.mp hv
  rwa [Array.getElem?_append_left hi]

end Grows

variable [Scalar α]

/-! ### Newton descent -/

namespace Newton

variable {config : Config α} {f : Objective σ α n} {x : Vec α n} {k : Nat} {s t : State α n}

/-- The stage of a run from `x` after `k` steps describes its own point. -/
structure State.Faithful (f : Objective σ α n) (x : Vec α n) (k : Nat) (s : State α n) : Prop where
  /-- The value and the history. -/
  recorded : Recorded f.value x s.point s.value s.history k
  /-- The gradient was evaluated at the point. -/
  gradient_at : (f.gradient s.point).Yields s.gradient
  /-- The steps are counted. -/
  iterations_eq : s.iterations = k
  /-- There is an evaluation at the start and one for each step. -/
  evaluations_eq : s.evaluations = k + 1

/-- All stages of a run describe their points. -/
theorem faithful_of_holds (h : (routine config f x).Holds k s) : s.Faithful f x k := by
  -- by induction on the iterations; a step evaluates at the point it moves to
  refine h.invariant (I := State.Faithful f x) ?_ ?_
  · intro s hs
    obtain ⟨value, gradient, hvalue, hgradient, rfl⟩ := start_cases (start_of_yields_routine hs).2
    exact ⟨.start hvalue, hgradient, rfl, rfl⟩
  · rintro k s t - ⟨hs, -, hk, hevaluations⟩ - hstep
    obtain ⟨_, _, value, gradient, _, _, hvalue, hgradient, rfl⟩ := step_cases hstep
    exact ⟨hs.move hvalue, hgradient, congrArg (· + 1) hk, congrArg (· + 1) hevaluations⟩

/-- Later histories continue earlier ones. -/
theorem grows_of_reaches (h : (loop config f).Reaches s k t) : Grows s.history t.history := by
  induction h with
  | refl => exact .refl _
  | step _ _ hstep ih =>
    obtain ⟨_, _, value, _, _, _, _, _, rfl⟩ := step_cases hstep
    exact ih.push value

end Newton

/-! ### Quasi-Newton descent -/

namespace QuasiNewton

variable {config : Config α} {f : Objective σ α n} {x d : Vec α n} {r c k : Nat} {A : Mat α r c}
  {s t u : State α n}

/-- A reset leaves everything but the matrix and its counter alone. -/
theorem eq_of_descend (h : (descend config s : Run σ α _).Yields (d, t)) :
    t.point = s.point ∧ t.value = s.value ∧ t.gradient = s.gradient ∧
      t.iterations = s.iterations ∧ t.tally = s.tally ∧ t.history = s.history := by
  rcases descend_cases h with ⟨_, _, rfl⟩ | ⟨_, _, rfl⟩
  · exact ⟨rfl, rfl, rfl, rfl, rfl, rfl⟩
  · exact ⟨rfl, rfl, rfl, rfl, rfl, rfl⟩

/-- An update leaves everything but the matrix and the counter of resets alone. -/
theorem eq_of_learn {point gradient : Vec α n}
    (h : (learn config t point gradient : Run σ α _).Yields u) :
    u.iterations = t.iterations ∧ u.tally = t.tally ∧ u.history = t.history := by
  rcases learn_cases h with ⟨_, _, rfl⟩ | ⟨_, rfl⟩
  · exact ⟨rfl, rfl, rfl⟩
  · exact ⟨rfl, rfl, rfl⟩

/-- A step searches from the present point and records the point that was found. -/
theorem move_of_step (h : (step config f s).Yields t) :
    ∃ d found, (WolfePowell.searchFrom f s.point s.value s.gradient d config.search).Yields found ∧
      (d = -s.gradient ∨ ¬ 0 ≤ s.direction.dot s.gradient ∧ d = s.direction) ∧
      t.point = found.point ∧ t.value = found.value ∧ t.gradient = found.gradient ∧
      t.iterations = s.iterations + 1 ∧ t.history = s.history.push found.value := by
  obtain ⟨d, v, found, u, hdescend, hfound, hlearn, rfl⟩ := step_cases h
  obtain ⟨hpoint, hvalue, hgradient, hiterations, -, hhistory⟩ := eq_of_descend hdescend
  obtain ⟨hiterations', -, hhistory'⟩ := eq_of_learn hlearn
  rw [hpoint, hvalue, hgradient] at hfound
  refine ⟨d, found, hfound, ?_, rfl, rfl, rfl, ?_, ?_⟩
  · rcases descend_cases hdescend with ⟨_, hd, _⟩ | ⟨hdescent, hd, _⟩
    · exact .inl hd
    · exact .inr ⟨hdescent, hd⟩
  · show u.iterations + 1 = _
    rw [hiterations', hiterations]
  · show u.history.push _ = _
    rw [hhistory', hhistory]

/-- The stage of a run from `x` after `k` steps describes its own point. -/
structure State.Faithful (f : Objective σ α n) (x : Vec α n) (k : Nat) (s : State α n) : Prop where
  /-- The value and the history. -/
  recorded : Recorded f.value x s.point s.value s.history k
  /-- The gradient was evaluated at the point. -/
  gradient_at : (f.gradient s.point).Yields s.gradient
  /-- The steps are counted. -/
  iterations_eq : s.iterations = k

/-- All stages of a run describe their points. -/
theorem faithful_of_holds (h : (routine config f x A).Holds k s) : s.Faithful f x k := by
  refine h.invariant (I := State.Faithful f x) ?_ ?_
  · intro s hs
    obtain ⟨-, B, -, hs⟩ := start_of_yields_routine hs
    obtain ⟨value, gradient, hvalue, hgradient, rfl⟩ := start_cases hs
    exact ⟨.start hvalue, hgradient, rfl⟩
  · rintro k s t - ⟨hs, -, hk⟩ - hstep
    obtain ⟨_, found, hfound, -, hpoint, hvalue, hgradient, hiterations, hhistory⟩ :=
      move_of_step hstep
    obtain ⟨hvalueAt, hgradientAt⟩ := WolfePowell.evaluated_of_yields_searchFrom hfound
    constructor
    · rw [hpoint, hvalue, hhistory]
      exact hs.move hvalueAt
    · rw [hpoint, hgradient]
      exact hgradientAt
    · rw [hiterations, hk]

/-- Later histories continue earlier ones. -/
theorem grows_of_reaches (h : (loop config f).Reaches s k t) : Grows s.history t.history := by
  induction h with
  | refl => exact .refl _
  | step _ _ hstep ih =>
    obtain ⟨_, found, _, _, _, _, _, _, hhistory⟩ := move_of_step hstep
    rw [hhistory]
    exact ih.push found.value

end QuasiNewton

/-! ### Levenberg-Marquardt descent -/

/-- Half the squared norm of the residuals at a point. -/
def ResidualModel.value (model : ResidualModel σ α m) (p : Vec α m) : Run σ α α := do
  let residual ← model.residual p
  pure (halfNormSq residual)

/-- The least squares functional of a deterministic model is determined. -/
theorem ResidualModel.Deterministic.value {model : ResidualModel σ α m}
    (hmodel : model.Deterministic) (p : Vec α m) : (model.value p).Determined :=
  (hmodel.residual p).bind fun _ => Run.determined_pure _

namespace LevenbergMarquardt

variable {config : Config α} {model : ResidualModel σ α m} {p : Vec α m} {k : Nat}
  {s t : State α m}

theorem yields_value {residual : Array α} (h : (model.residual p).Yields residual) :
    (model.value p).Yields (halfNormSq residual) := by
  obtain ⟨s, t, h⟩ := h
  exact ⟨s, t, Run.exec_bind_eq_ok.mpr ⟨residual, t, h, rfl⟩⟩

/-- The stage of a fit from `p` after `k` trials describes its own parameters. -/
structure State.Faithful (model : ResidualModel σ α m) (p : Vec α m) (k : Nat) (s : State α m) :
    Prop where
  /-- The linearization was made at the parameters. -/
  model_at : ∃ residual jacobian, (model.residual s.point).Yields residual ∧
    (model.jacobian s.point).Yields jacobian ∧ Linearization.make residual jacobian = .ok s.model
  /-- The trials are counted. -/
  trials_eq : s.trials = k
  /-- The value and the history, which has an entry for the accepted trials. -/
  recorded : ∃ accepted, s.trials = accepted + s.rejected ∧
    Recorded model.value p s.point s.value s.history accepted

/-- All stages of a fit describe their parameters. -/
theorem faithful_of_holds (h : (routine config model p).Holds k s) : s.Faithful model p k := by
  refine h.invariant (I := State.Faithful model p) ?_ ?_
  · intro s hs
    obtain ⟨residual, jacobian, l, hresidual, hjacobian, hl, rfl⟩ :=
      start_cases (start_of_yields_routine hs).2
    exact ⟨⟨residual, jacobian, hresidual, hjacobian, hl⟩, rfl, 0, rfl,
      .start (yields_value hresidual)⟩
  · rintro k s t - ⟨hlin, hk, accepted, htrials, hs⟩ - hstep
    obtain ⟨point, residual, _, hresidual, h⟩ := step_cases hstep
    -- an accepted trial is a move, a rejected one is counted
    rcases h with ⟨_, jacobian, l, hjacobian, hl, rfl⟩ | ⟨_, rfl⟩
    · refine ⟨⟨residual, jacobian, hresidual, hjacobian, hl⟩, congrArg (· + 1) hk, accepted + 1, ?_,
        hs.move (yields_value hresidual)⟩
      show s.trials + 1 = accepted + 1 + s.rejected
      omega
    · refine ⟨hlin, congrArg (· + 1) hk, accepted, ?_, hs⟩
      show s.trials + 1 = accepted + (s.rejected + 1)
      omega

/-- Later histories continue earlier ones. -/
theorem grows_of_reaches (h : (loop config model).Reaches s k t) : Grows s.history t.history := by
  induction h with
  | refl => exact .refl _
  | step _ _ hstep ih =>
    obtain ⟨_, residual, _, _, ⟨_, _, _, _, _, rfl⟩ | ⟨_, rfl⟩⟩ := step_cases hstep
    · exact ih.push (halfNormSq residual)
    · exact ih

end LevenbergMarquardt

/-! ### Projected inexact Newton descent -/

namespace ProjectedNewton

variable {config : Config α} {f : Objective σ α n} {P : Projection α n} {x : Vec α n} {k : Nat}
  {s t : State α n}

/-- The stage of a run from `x` after `k` steps describes its own point. -/
structure State.Faithful (f : Objective σ α n) (P : Projection α n) (x : Vec α n) (k : Nat)
    (s : State α n) : Prop where
  /-- The value and the history, from the projection of the start. -/
  recorded : ∃ y, P.project x = .ok y ∧ Recorded f.value y s.point s.value s.history k
  /-- The point was projected. -/
  feasible : ∃ y, P.project y = .ok s.point
  /-- The gradient was evaluated at the point. -/
  gradient_at : (f.gradient s.point).Yields s.gradient
  /-- The stationarity is that of the point and the gradient. -/
  stationarity_eq : ProjectedNewton.stationarity P s.point s.gradient = .ok s.stationarity
  /-- The steps are counted. -/
  iterations_eq : s.iterations = k

/-- All stages of a run describe their points. -/
theorem faithful_of_holds (h : (routine config f P x).Holds k s) : s.Faithful f P x k := by
  refine h.invariant (I := State.Faithful f P x) ?_ ?_
  · intro s hs
    obtain ⟨y, value, gradient, stat, hy, hvalue, hgradient, hstat, rfl⟩ :=
      start_cases (start_of_yields_routine hs).2
    exact ⟨⟨y, hy, .start hvalue⟩, ⟨x, hy⟩, hgradient, hstat, rfl⟩
  · rintro k s t - ⟨⟨y, hy, hs⟩, -, -, -, hk⟩ - hstep
    obtain ⟨_, _, found, gradient, stat, _, hfound, hgradient, hstat, rfl⟩ := step_cases hstep
    obtain ⟨hfeasible, hvalue⟩ := ProjectedBacktracking.evaluated_of_yields_search hfound
    exact ⟨⟨y, hy, hs.move hvalue⟩, hfeasible, hgradient, hstat, congrArg (· + 1) hk⟩

/-- Later histories continue earlier ones. -/
theorem grows_of_reaches (h : (loop config f P).Reaches s k t) : Grows s.history t.history := by
  induction h with
  | refl => exact .refl _
  | step _ _ hstep ih =>
    obtain ⟨_, _, found, _, _, _, _, _, _, rfl⟩ := step_cases hstep
    exact ih.push found.value

end ProjectedNewton

/-! ### Implicit filtering -/

namespace ImplicitFiltering

variable {config : Config α} {f : Objective σ α n} {P : Projection α n} {x : Vec α n} {k : Nat}
  {s t : State α n}

/-- A sweep counts itself and adds an entry to the history. -/
theorem move_of_sweep (h : (sweep config f P s).Yields t) :
    t.sweeps = s.sweeps + 1 ∧ t.history = s.history.push t.value := by
  obtain ⟨u, hu, rfl⟩ := sweep_cases h
  suffices hinv : u.sweeps = s.sweeps + 1 ∧ u.history = s.history from
    ⟨hinv.1, congrArg (·.push u.value) hinv.2⟩
  -- no visit changes the number of sweeps or the history
  refine Run.invariant_of_yields_foldlM (I := fun u => u.sweeps = s.sweeps + 1 ∧
    u.history = s.history) ?_ ⟨rfl, rfl⟩ hu
  intro u h u' hinv hvisit
  obtain ⟨_, _, _, _, _, _, ⟨_, _, rfl⟩ | ⟨_, rfl⟩⟩ := visit_cases hvisit
  · exact hinv
  · exact hinv

/-- A sweep keeps the value of its best point. -/
theorem value_of_sweep (hvalue : (f.value s.best).Yields s.value)
    (h : (sweep config f P s).Yields t) : (f.value t.best).Yields t.value := by
  obtain ⟨u, hu, rfl⟩ := sweep_cases h
  -- a visit keeps the candidate with its value, or neither
  refine Run.invariant_of_yields_foldlM (I := fun u => (f.value u.best).Yields u.value) ?_ hvalue hu
  intro u h u' hvalue hvisit
  obtain ⟨_, _, _, _, _, hcandidate, ⟨_, _, rfl⟩ | ⟨_, rfl⟩⟩ := visit_cases hvisit
  · exact hcandidate
  · exact hvalue

/-- The stage of a run from `x` after `k` sweeps describes its own best point. -/
structure State.Faithful (f : Objective σ α n) (P : Projection α n) (x : Vec α n) (k : Nat)
    (s : State α n) : Prop where
  /-- The value and the history, from the projection of the start. -/
  recorded : ∃ y, P.project x = .ok y ∧ Recorded f.value y s.best s.value s.history k
  /-- The sweeps are counted. -/
  sweeps_eq : s.sweeps = k

/-- All stages of a run describe their best points. -/
theorem faithful_of_holds {t : State α n × Bool} (h : (routine config f P x).Holds k t) :
    t.1.Faithful f P x k := by
  refine h.invariant (I := fun k t => t.1.Faithful f P x k) ?_ ?_
  · intro t ht
    obtain ⟨-, s, hs, rfl⟩ := start_of_yields_routine ht
    obtain ⟨y, value, hy, hvalue, rfl⟩ := start_cases hs
    exact ⟨⟨y, hy, .start hvalue⟩, rfl⟩
  · rintro k t u - ⟨⟨y, hy, ht⟩, hk⟩ - hstep
    obtain ⟨hsweep, -⟩ := step_cases hstep
    obtain ⟨hsweeps, hhistory⟩ := move_of_sweep hsweep
    refine ⟨⟨y, hy, ?_⟩, by rw [hsweeps, hk]⟩
    rw [hhistory]
    exact ht.move (value_of_sweep ht.value_at hsweep)

/-- Later histories continue earlier ones. -/
theorem grows_of_reaches {a b : State α n × Bool} (h : (loop config f P).Reaches a k b) :
    Grows a.1.history b.1.history := by
  induction h with
  | refl => exact .refl _
  | step _ _ hstep ih =>
    rw [(move_of_sweep (step_cases hstep).1).2]
    exact ih.push _

end ImplicitFiltering

end Downhill
