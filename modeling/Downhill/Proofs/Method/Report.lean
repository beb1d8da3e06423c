import Downhill.Projection.Box
import Downhill.Proofs.Binary
import Downhill.Proofs.Method.Recorded

/-!
# What an outcome says about its point

* `outcomes_describe`: over every arithmetic, each outcome of the five methods on a deterministic
  objective or residual model describes its own point. Its value and its stopping functional are
  those at the point, and its history leads from the value at the start to the value at the point,
  with one entry more than there were moves.

The methods keep point, value, derivatives and history apart, and some of them are taken from a line
search and others computed anew. That they always fit together is what `Recorded` carries through a
run.
-/

namespace Downhill

variable {σ α : Type} {m n : Nat}

/-! ### Outcomes -/

/-- The outcome of a descent from `x` describes its point, where `value` is to be minimized and
`functional` stops the descent. -/
structure Outcome.Describes (o : Outcome α n) (value functional : Vec α n → Run σ α α) (x : Vec α n)
    (moves : Nat) : Prop where
  /-- The value is that at the point. -/
  value_at : (value o.point).Computes o.value
  /-- The stopping functional is that at the point. -/
  stationarity_at : (functional o.point).Computes o.stationarity
  /-- The history starts with the value at the start. -/
  history_head : ∃ first, (value x).Computes first ∧ o.history[0]? = some first
  /-- The history ends with the value at the point. -/
  history_back : o.history.back? = some o.value
  /-- The start and every move have an entry in the history. -/
  history_size : o.history.size = moves + 1

/-- What a recorded stage says of its outcome, if the value is determined. -/
theorem Recorded.describes {o : Outcome α n} {value functional : Vec α n → Run σ α α} {x : Vec α n}
    {moves : Nat} (hdet : ∀ x, (value x).Determined)
    (h : Recorded value x o.point o.value o.history moves)
    (hfunctional : (functional o.point).Computes o.stationarity) :
    o.Describes value functional x moves where
  value_at := (hdet _).computes_of_yields h.value_at
  stationarity_at := hfunctional
  history_head := by
    obtain ⟨first, hfirst, hhead⟩ := h.head
    exact ⟨first, (hdet _).computes_of_yields hfirst, hhead⟩
  history_back := h.back
  history_size := h.size

/-! ### Stopping functionals -/

variable [Scalar α]

/-- The norm of the gradient at a point. -/
def gradientNorm (f : Objective σ α n) (x : Vec α n) : Run σ α α := do
  let g ← f.gradient x
  pure g.norm

/-- The norm of the projected step `x - P(x - g)` at a point `x`, with a gradient `g` or a
replacement for it. -/
def projectedNorm (P : Projection α n) (gradient : Vec α n → Run σ α (Vec α n)) (x : Vec α n) :
    Run σ α α := do
  let g ← gradient x
  let gap ← P.gradientStep x g
  pure gap.norm

/-- The norm of `Jᵀ r` at a point. -/
def ResidualModel.gradientNorm (model : ResidualModel σ α m) (p : Vec α m) : Run σ α α := do
  let residual ← model.residual p
  let jacobian ← model.jacobian p
  let l ← Linearization.make residual jacobian
  pure l.gradient.norm

/-! ### The five methods -/

section Methods

variable {f : Objective σ α n} (hf : f.Deterministic)

include hf

/-- Newton descent reports the norm of the gradient. -/
theorem Newton.describes {config : Newton.Config α} {x : Vec α n} {o : Outcome α n}
    (h : (Newton.minimize config f x).Yields o) :
    o.Describes f.value (gradientNorm f) x o.iterations := by
  obtain ⟨k, -, last, hlast, -, rfl⟩ := Newton.minimize_cases h
  obtain ⟨hrecorded, hgradient, rfl, -⟩ := Newton.faithful_of_holds hlast
  refine hrecorded.describes hf.value ?_
  exact ((hf.gradient _).computes_of_yields hgradient).bind (Run.computes_pure _)

theorem QuasiNewton.describes {config : QuasiNewton.Config α} {x : Vec α n} {r c : Nat}
    {A : Mat α r c} {result : QuasiNewton.Result α n}
    (h : (QuasiNewton.minimizeFrom config f x A).Yields result) :
    result.outcome.Describes f.value (gradientNorm f) x result.outcome.iterations := by
  obtain ⟨k, -, last, hlast, -, rfl⟩ := QuasiNewton.minimizeFrom_cases h
  obtain ⟨hrecorded, hgradient, rfl⟩ := QuasiNewton.faithful_of_holds hlast
  refine hrecorded.describes hf.value ?_
  exact ((hf.gradient _).computes_of_yields hgradient).bind (Run.computes_pure _)

/-- Projected inexact Newton descent reports the norm of a projected gradient step. -/
theorem ProjectedNewton.describes {config : ProjectedNewton.Config α} {P : Projection α n}
    {x : Vec α n} {o : Outcome α n} (h : (ProjectedNewton.minimize config f P x).Yields o) :
    ∃ y, P.project x = .ok y ∧
      o.Describes f.value (projectedNorm P f.gradient) y o.iterations := by
  obtain ⟨k, -, last, hlast, -, rfl⟩ := ProjectedNewton.minimize_cases h
  obtain ⟨⟨y, hy, hrecorded⟩, -, hgradient, hstat, rfl⟩ := ProjectedNewton.faithful_of_holds hlast
  obtain ⟨gap, hgap, hnorm⟩ := ProjectedNewton.stationarity_cases hstat
  refine ⟨y, hy, hrecorded.describes hf.value ?_⟩
  show Run.Computes _ last.stationarity
  rw [hnorm]
  exact ((hf.gradient _).computes_of_yields hgradient).bind
    ((Run.computes_liftM hgap).bind (Run.computes_pure _))

/-- Implicit filtering reports it with the simplex gradient at its last scale. -/
theorem ImplicitFiltering.describes {config : ImplicitFiltering.Config α} {P : Projection α n}
    {x : Vec α n} {o : Outcome α n} (h : (ImplicitFiltering.minimize config f P x).Yields o) :
    ∃ y, P.project x = .ok y ∧
      o.Describes f.value
        (projectedNorm P fun z => Stencil.simplexGradient f z (ImplicitFiltering.finest config)) y
        o.iterations := by
  obtain ⟨k, -, last, hlast, g, gap, hg, hgap, rfl⟩ := ImplicitFiltering.minimize_cases h
  obtain ⟨⟨y, hy, hrecorded⟩, rfl⟩ := ImplicitFiltering.faithful_of_holds hlast
  refine ⟨y, hy, hrecorded.describes hf.value ?_⟩
  exact ((Stencil.determined_simplexGradient hf _ _).computes_of_yields hg).bind
    ((Run.computes_liftM hgap).bind (Run.computes_pure _))

end Methods

/-- A fit reports the norm of `Jᵀ r`; its moves are the accepted trials. -/
theorem LevenbergMarquardt.describes {model : ResidualModel σ α m} (hmodel : model.Deterministic)
    {config : LevenbergMarquardt.Config α} {p : Vec α m} {result : LevenbergMarquardt.Result α m}
    (h : (LevenbergMarquardt.minimizeWithDamping config model p).Yields result) :
    result.rejected ≤ result.outcome.iterations ∧
      result.outcome.Describes model.value model.gradientNorm p
        (result.outcome.iterations - result.rejected) := by
  obtain ⟨k, -, last, hlast, -, rfl⟩ := LevenbergMarquardt.minimizeWithDamping_cases h
  obtain ⟨⟨residual, jacobian, hresidual, hjacobian, hl⟩, -, accepted, htrials, hrecorded⟩ :=
    LevenbergMarquardt.faithful_of_holds hlast
  have haccepted : last.trials - last.rejected = accepted := by omega
  refine ⟨by show last.rejected ≤ last.trials; omega, ?_⟩
  show last.result.outcome.Describes _ _ _ (last.trials - last.rejected)
  rw [haccepted]
  refine hrecorded.describes hmodel.value ?_
  exact ((hmodel.residual _).computes_of_yields hresidual).bind
    (((hmodel.jacobian _).computes_of_yields hjacobian).bind
      ((Run.computes_liftM hl).bind (Run.computes_pure _)))

namespace ImplicitFiltering

variable {config : Config α}

theorem Config.exists_scales_of_validate (h : config.validate = .ok ()) :
    ∃ a as, config.scales = a :: as := by
  unfold Config.validate at h
  cases hscales : config.scales with
  | nil =>
    rw [hscales] at h
    cases h
  | cons a as => exact ⟨a, as, rfl⟩

/-- The scale of the last gradient is one of the scales, and none of them is smaller. -/
theorem finest_isLeast (h : config.validate = .ok ()) :
    finest config ∈ config.scales ∧
      ∀ [Scalar.OrdersNumbers α] [Scalar.Ordered α], ∀ a ∈ config.scales, ¬ a < finest config := by
  obtain ⟨a, as, hscales⟩ := Config.exists_scales_of_validate h
  unfold finest
  rw [hscales]
  refine ⟨Scalar.least_mem a as, ?_⟩
  intro _ _
  exact Scalar.not_lt_least a as

end ImplicitFiltering

/-- **Reports**: whatever the arithmetic, the deterministic objective or model, the settings and the
start, the outcomes of all entry points of the five methods describe their own points. The descents
that project start at the projection of the given point; implicit filtering reports the simplex
gradient at its least scale; in a fit only the accepted trials are moves. -/
theorem outcomes_describe :
    (∀ f : Objective σ α n, f.Deterministic →
      (∀ (config : Newton.Config α) (x : Vec α n) (o : Outcome α n),
        (Newton.minimize config f x).Yields o →
          o.Describes f.value (gradientNorm f) x o.iterations) ∧
      (∀ (config : QuasiNewton.Config α) (x : Vec α n),
        (∀ (r c : Nat) (A : Mat α r c) (result : QuasiNewton.Result α n),
          (QuasiNewton.minimizeFrom config f x A).Yields result →
            result.outcome.Describes f.value (gradientNorm f) x result.outcome.iterations) ∧
        (∀ result, (QuasiNewton.minimizeWithInverse config f x).Yields result →
          result.outcome.Describes f.value (gradientNorm f) x result.outcome.iterations) ∧
        ∀ o, (QuasiNewton.minimize config f x).Yields o →
          o.Describes f.value (gradientNorm f) x o.iterations) ∧
      (∀ (config : ProjectedNewton.Config α) (P : Projection α n) (x : Vec α n) (o : Outcome α n),
        (ProjectedNewton.minimize config f P x).Yields o →
          ∃ y, P.project x = .ok y ∧
            o.Describes f.value (projectedNorm P f.gradient) y o.iterations) ∧
      ∀ (config : ImplicitFiltering.Config α) (P : Projection α n) (x : Vec α n) (o : Outcome α n),
        (ImplicitFiltering.minimize config f P x).Yields o →
          ∃ y h, P.project x = .ok y ∧
            o.Describes f.value (projectedNorm P fun z => Stencil.simplexGradient f z h) y
              o.iterations ∧
            h ∈ config.scales ∧
            ∀ [Scalar.OrdersNumbers α] [Scalar.Ordered α], ∀ a ∈ config.scales, ¬ a < h) ∧
    ∀ model : ResidualModel σ α m, model.Deterministic →
      ∀ (config : LevenbergMarquardt.Config α) (p : Vec α m),
        (∀ result, (LevenbergMarquardt.minimizeWithDamping config model p).Yields result →
          result.rejected ≤ result.outcome.iterations ∧
            result.outcome.Describes model.value model.gradientNorm p
              (result.outcome.iterations - result.rejected)) ∧
        ∀ o, (LevenbergMarquardt.minimize config model p).Yields o →
          ∃ result, (LevenbergMarquardt.minimizeWithDamping config model p).Yields result ∧
            o = result.outcome ∧ result.rejected ≤ o.iterations ∧
            o.Describes model.value model.gradientNorm p (o.iterations - result.rejected) := by
  refine ⟨fun f hf => ⟨fun _ _ _ => Newton.describes hf,
    fun config x => ⟨fun _ _ _ _ => QuasiNewton.describes hf, fun _ => QuasiNewton.describes hf,
      fun o h => ?_⟩,
    fun _ _ _ _ => ProjectedNewton.describes hf, fun config P x o h => ?_⟩,
    fun model hmodel config p => ⟨fun _ => LevenbergMarquardt.describes hmodel, fun o h => ?_⟩⟩
  · obtain ⟨result, hresult, rfl⟩ := QuasiNewton.minimize_cases h
    exact QuasiNewton.describes hf hresult
  · obtain ⟨y, hy, hdescribes⟩ := ImplicitFiltering.describes hf h
    obtain ⟨k, -, last, ⟨first, hfirst, -⟩, -⟩ := ImplicitFiltering.minimize_cases h
    have hleast :=
      ImplicitFiltering.finest_isLeast (ImplicitFiltering.start_of_yields_routine hfirst).1
    exact ⟨y, _, hy, hdescribes, hleast⟩
  · obtain ⟨result, hresult, rfl⟩ := LevenbergMarquardt.minimize_cases h
    exact ⟨result, hresult, rfl, LevenbergMarquardt.describes hmodel hresult⟩

/-! ### Runs in double precision -/

/-- The function `3/2 x² - x`. -/
def doubleParabola : Quadratic Float 1 := ⟨⟨#v[#v[3]]⟩, #v[-1], 0⟩

/-- It as an objective. -/
def doubleObjective : Objective Unit Float 1 := doubleParabola.objective 1

/-- The interval from one to ten. -/
def doubleInterval : Projection Float 1 := Box.projection (⟨#v[1], #v[10]⟩ : Box Float 1) 1

/-- The residual `p² + 1`, which has no zero. -/
def doubleResidual : ResidualModel Unit Float 1 := .polynomial [[1, 0, 1]] 1

/-- Scales one and a tenth. -/
def twoScales : ImplicitFiltering.Config Float := { scales := [1, 0.1] }

/-- A fit that ends early. -/
def looseFit : LevenbergMarquardt.Config Float := { tolerance := 0.55 }

/-- Runs of one, two, one, two and three iterations; in the last one, two trials are rejected. -/
theorem outcomes_describe_doubles :
    (∃ o, (Newton.minimize {} doubleObjective #v[3]).Yields o ∧ o.iterations = 1 ∧
      o.Describes doubleObjective.value (gradientNorm doubleObjective) #v[3] 1) ∧
    (∃ result, (QuasiNewton.minimizeWithInverse {} doubleObjective #v[3]).Yields result ∧
      result.outcome.iterations = 2 ∧
      result.outcome.Describes doubleObjective.value (gradientNorm doubleObjective) #v[3] 2) ∧
    (∃ o y, (ProjectedNewton.minimize {} doubleObjective doubleInterval #v[3]).Yields o ∧
      o.iterations = 1 ∧ doubleInterval.project #v[3] = .ok y ∧
      o.Describes doubleObjective.value (projectedNorm doubleInterval doubleObjective.gradient) y
        1) ∧
    (∃ o y h, (ImplicitFiltering.minimize twoScales doubleObjective doubleInterval #v[3]).Yields o ∧
      o.iterations = 2 ∧ doubleInterval.project #v[3] = .ok y ∧
      o.Describes doubleObjective.value
        (projectedNorm doubleInterval fun z => Stencil.simplexGradient doubleObjective z h) y 2 ∧
      h ∈ twoScales.scales ∧ ∀ a ∈ twoScales.scales, ¬ a < h) ∧
    ∃ result,
      (LevenbergMarquardt.minimizeWithDamping looseFit doubleResidual #v[0.3]).Yields result ∧
      (result.outcome.iterations, result.rejected) = (3, 2) ∧
      result.outcome.Describes doubleResidual.value doubleResidual.gradientNorm #v[0.3]
        (3 - 2) := by
  obtain ⟨hdescents, hfits⟩ := outcomes_describe (σ := Unit) (α := Float) (n := 1) (m := 1)
  obtain ⟨hnewton, hquasi, hprojected, hfiltering⟩ :=
    hdescents doubleObjective (doubleParabola.deterministic 1)
  -- in each case the run is evaluated for its counts, and the theorem gives the rest
  refine ⟨?_, ?_, ?_, ?_, ?_⟩
  · obtain ⟨o, ho, hiterations⟩ : ∃ o, (Newton.minimize {} doubleObjective #v[3]).Yields o ∧
        o.iterations = 1 := Run.exists_yields_of_start Outcome.iterations () (by decide +kernel)
    have hdescribes := hnewton _ _ o ho
    rw [hiterations] at hdescribes
    exact ⟨o, ho, hiterations, hdescribes⟩
  · obtain ⟨result, hresult, hiterations⟩ : ∃ result : QuasiNewton.Result Float 1,
        (QuasiNewton.minimizeWithInverse {} doubleObjective #v[3]).Yields result ∧
          result.outcome.iterations = 2 :=
      Run.exists_yields_of_start (fun result : QuasiNewton.Result Float 1 =>
        result.outcome.iterations) () (by decide +kernel)
    have hdescribes := (hquasi _ _).2.1 result hresult
    rw [hiterations] at hdescribes
    exact ⟨result, hresult, hiterations, hdescribes⟩
  · obtain ⟨o, ho, hiterations⟩ :
        ∃ o, (ProjectedNewton.minimize {} doubleObjective doubleInterval #v[3]).Yields o ∧
          o.iterations = 1 := Run.exists_yields_of_start Outcome.iterations () (by decide +kernel)
    obtain ⟨y, hy, hdescribes⟩ := hprojected _ _ _ o ho
    rw [hiterations] at hdescribes
    exact ⟨o, y, ho, hiterations, hy, hdescribes⟩
  · obtain ⟨o, ho, hiterations⟩ :
        ∃ o, (ImplicitFiltering.minimize twoScales doubleObjective doubleInterval #v[3]).Yields o ∧
          o.iterations = 2 := Run.exists_yields_of_start Outcome.iterations () (by decide +kernel)
    obtain ⟨y, h, hy, hdescribes, hmem, hleast⟩ := hfiltering _ _ _ o ho
    rw [hiterations] at hdescribes
    exact ⟨o, y, h, ho, hiterations, hy, hdescribes, hmem, hleast⟩
  · obtain ⟨result, hresult, hcounts⟩ : ∃ result : LevenbergMarquardt.Result Float 1,
        (LevenbergMarquardt.minimizeWithDamping looseFit doubleResidual #v[0.3]).Yields result ∧
          (result.outcome.iterations, result.rejected) = (3, 2) :=
      Run.exists_yields_of_start (fun result : LevenbergMarquardt.Result Float 1 =>
        (result.outcome.iterations, result.rejected)) () (by decide +kernel)
    obtain ⟨hiterations, hrejected⟩ := Prod.mk.inj hcounts
    have hdescribes :=
      ((hfits doubleResidual (ResidualModel.deterministic_polynomial _ 1) _ _).1 result hresult).2
    rw [hiterations, hrejected] at hdescribes
    exact ⟨result, hresult, hcounts, hdescribes⟩

end Downhill
