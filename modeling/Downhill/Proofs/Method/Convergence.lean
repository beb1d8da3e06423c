import Downhill.Projection.Ball
import Downhill.Proofs.Method.Report

/-!
# What an outcome says about convergence

* `outcomes_converged`: in every arithmetic whose comparisons are total on numbers, a run of the
  four descent methods ends with a positive tolerance and a stopping functional within it, unless
  one of the two is a not-a-number.

The exception is real. The loops go on while the functional is above the tolerance, and the settings
are refused if the tolerance is zero or less. Neither test says anything of a not-a-number, so such
a functional ends a run with success (`descents_end_at_notANumber`).
-/

namespace Downhill

open Scalar

variable {σ α : Type} [Scalar α]

/-- The tolerance is positive and the stopping functional is within it, as far as they are
numbers. -/
structure Converged (tolerance stationarity : α) : Prop where
  /-- A tolerance that is a number is positive. -/
  tolerance_pos : IsNumber tolerance → 0 < tolerance
  /-- Of two numbers the stopping functional is the smaller one. -/
  stationarity_le : IsNumber tolerance → IsNumber stationarity → stationarity ≤ tolerance

theorem converged_of_not [OrdersNumbers α] {tolerance stationarity : α} (htol : ¬ tolerance ≤ 0)
    (hwithin : ¬ tolerance < stationarity) : Converged tolerance stationarity where
  tolerance_pos hnumber := (OrdersNumbers.lt_or_le OrdersNumbers.zero hnumber).resolve_right htol
  stationarity_le hnumber hnumber' :=
    (OrdersNumbers.lt_or_le hnumber hnumber').resolve_left hwithin

section Methods

variable [OrdersNumbers α] {n : Nat}

/-- Newton descent ends where the functional is not above the tolerance. -/
theorem Newton.converged {config : Newton.Config α} {f : Objective σ α n} {x : Vec α n}
    {outcome : Outcome α n} (h : (Newton.minimize config f x).Yields outcome) :
    Converged config.tolerance outcome.stationarity := by
  obtain ⟨k, _, last, ⟨first, hfirst, _⟩, hend, rfl⟩ := Newton.minimize_cases h
  exact converged_of_not
    (Newton.Config.not_le_of_validate (Newton.start_of_yields_routine hfirst).1) hend

theorem QuasiNewton.converged {config : QuasiNewton.Config α} {f : Objective σ α n} {x : Vec α n}
    {r c : Nat} {A : Mat α r c} {result : QuasiNewton.Result α n}
    (h : (QuasiNewton.minimizeFrom config f x A).Yields result) :
    Converged config.tolerance result.outcome.stationarity := by
  obtain ⟨k, _, last, ⟨first, hfirst, _⟩, hend, rfl⟩ := QuasiNewton.minimizeFrom_cases h
  exact converged_of_not (QuasiNewton.Config.not_le_of_validate
    (QuasiNewton.start_of_yields_routine hfirst).1) hend

theorem LevenbergMarquardt.converged {config : LevenbergMarquardt.Config α}
    {model : ResidualModel σ α n} {p : Vec α n} {result : LevenbergMarquardt.Result α n}
    (h : (LevenbergMarquardt.minimizeWithDamping config model p).Yields result) :
    Converged config.tolerance result.outcome.stationarity := by
  obtain ⟨k, _, last, ⟨first, hfirst, _⟩, hend, rfl⟩ :=
    LevenbergMarquardt.minimizeWithDamping_cases h
  exact converged_of_not (LevenbergMarquardt.Config.not_le_of_validate
    (LevenbergMarquardt.start_of_yields_routine hfirst).1) hend

theorem ProjectedNewton.converged {config : ProjectedNewton.Config α} {f : Objective σ α n}
    {P : Projection α n} {x : Vec α n} {outcome : Outcome α n}
    (h : (ProjectedNewton.minimize config f P x).Yields outcome) :
    Converged config.tolerance outcome.stationarity := by
  obtain ⟨k, _, last, ⟨first, hfirst, _⟩, hend, rfl⟩ := ProjectedNewton.minimize_cases h
  exact converged_of_not (ProjectedNewton.Config.not_le_of_validate
    (ProjectedNewton.start_of_yields_routine hfirst).1) hend

/-- **Convergence**: whatever the objective or the model, its numbers and the start, the outcomes of
all entry points of Newton, quasi-Newton, Levenberg-Marquardt and projected inexact Newton descent
are converged as far as the tolerance and the stopping functional are numbers. -/
theorem outcomes_converged :
    (∀ (config : Newton.Config α) (f : Objective σ α n) (x : Vec α n) (outcome : Outcome α n),
      (Newton.minimize config f x).Yields outcome →
        Converged config.tolerance outcome.stationarity) ∧
    (∀ (config : QuasiNewton.Config α) (f : Objective σ α n) (x : Vec α n),
      (∀ (r c : Nat) (A : Mat α r c) (result : QuasiNewton.Result α n),
        (QuasiNewton.minimizeFrom config f x A).Yields result →
          Converged config.tolerance result.outcome.stationarity) ∧
      (∀ result, (QuasiNewton.minimizeWithInverse config f x).Yields result →
        Converged config.tolerance result.outcome.stationarity) ∧
      ∀ outcome, (QuasiNewton.minimize config f x).Yields outcome →
        Converged config.tolerance outcome.stationarity) ∧
    (∀ (config : LevenbergMarquardt.Config α) (model : ResidualModel σ α n) (p : Vec α n),
      (∀ result, (LevenbergMarquardt.minimizeWithDamping config model p).Yields result →
        Converged config.tolerance result.outcome.stationarity) ∧
      ∀ outcome, (LevenbergMarquardt.minimize config model p).Yields outcome →
        Converged config.tolerance outcome.stationarity) ∧
    ∀ (config : ProjectedNewton.Config α) (f : Objective σ α n) (P : Projection α n) (x : Vec α n)
      (outcome : Outcome α n), (ProjectedNewton.minimize config f P x).Yields outcome →
        Converged config.tolerance outcome.stationarity := by
  refine ⟨fun _ _ _ _ => Newton.converged, fun config f x => ⟨fun _ _ _ _ => QuasiNewton.converged,
    fun _ => QuasiNewton.converged, fun outcome h => ?_⟩, fun config model p =>
    ⟨fun _ => LevenbergMarquardt.converged, fun outcome h => ?_⟩,
    fun _ _ _ _ _ => ProjectedNewton.converged⟩
  -- the short entry points drop the rest of the result
  · obtain ⟨result, hresult, rfl⟩ := QuasiNewton.minimize_cases h
    exact QuasiNewton.converged hresult
  · obtain ⟨result, hresult, rfl⟩ := LevenbergMarquardt.minimize_cases h
    exact LevenbergMarquardt.converged hresult

end Methods

/-- A run in double precision that was carried out and ended with a number. -/
theorem exists_converged {a : Run Unit Float (Outcome Float 1)} {tolerance : Float} {k : Nat}
    (hrun : (a.start ()).1.toOption.map (fun o => (o.iterations, decide (IsNumber o.stationarity))) =
      some (k, true))
    (htol : IsNumber tolerance) (h : ∀ o, a.Yields o → Converged tolerance o.stationarity) :
    ∃ o, a.Yields o ∧ o.iterations = k ∧ 0 < tolerance ∧ o.stationarity ≤ tolerance := by
  obtain ⟨o, ho, hcounts⟩ := Run.exists_yields_of_start _ () hrun
  obtain ⟨hiterations, hnumber⟩ := Prod.mk.inj hcounts
  exact ⟨o, ho, hiterations, (h o ho).tolerance_pos htol,
    (h o ho).stationarity_le htol (of_decide_eq_true hnumber)⟩

/-- Runs of one, two, three and one iterations in double precision. -/
theorem outcomes_converged_doubles :
    (∃ o, (Newton.minimize {} doubleObjective #v[3]).Yields o ∧ o.iterations = 1 ∧
      (0 : Float) < 1e-3 ∧ o.stationarity ≤ 1e-3) ∧
    (∃ o, (QuasiNewton.minimize {} doubleObjective #v[3]).Yields o ∧ o.iterations = 2 ∧
      (0 : Float) < 1e-3 ∧ o.stationarity ≤ 1e-3) ∧
    (∃ o, (LevenbergMarquardt.minimize looseFit doubleResidual #v[0.3]).Yields o ∧
      o.iterations = 3 ∧ (0 : Float) < 0.55 ∧ o.stationarity ≤ 0.55) ∧
    ∃ o, (ProjectedNewton.minimize {} doubleObjective doubleInterval #v[3]).Yields o ∧
      o.iterations = 1 ∧ (0 : Float) < 1e-3 ∧ o.stationarity ≤ 1e-3 := by
  obtain ⟨hnewton, hquasi, hfits, hprojected⟩ :=
    outcomes_converged (σ := Unit) (α := Float) (n := 1)
  -- the tolerances are numbers, so the implications have something to say
  have hsmall : IsNumber (1e-3 : Float) := by decide
  have hloose : IsNumber (0.55 : Float) := by decide
  exact ⟨exists_converged (by decide +kernel) hsmall (hnewton {} doubleObjective #v[3]),
    exists_converged (by decide +kernel) hsmall (hquasi {} doubleObjective #v[3]).2.2,
    exists_converged (by decide +kernel) hloose (hfits looseFit doubleResidual #v[0.3]).2,
    exists_converged (by decide +kernel) hsmall (hprojected {} doubleObjective doubleInterval #v[3])⟩

/-! ### Not-a-numbers -/

/-- An objective whose gradient is a not-a-number everywhere. -/
def brokenObjective : Objective Unit Float 1 where
  value _ := pure 0
  gradient _ := pure #v[0 / 0]

/-- A residual that is a not-a-number everywhere. -/
def brokenResidual : ResidualModel Unit Float 1 := .polynomial [[0 / 0, 1]] 1

/-- The interval from minus one to one, as a ball. -/
def doubleBall : Projection Float 1 := Ball.projection (⟨#v[0], 1⟩ : Ball Float 1) 1

/-- A run in double precision that was carried out and ended with a not-a-number. -/
theorem exists_notANumber {a : Run Unit Float (Outcome Float 1)}
    (hrun : (a.start ()).1.toOption.map (fun o => decide (IsNumber o.stationarity)) = some false) :
    ∃ o, a.Yields o ∧ ¬ IsNumber o.stationarity := by
  obtain ⟨o, ho, hnumber⟩ := Run.exists_yields_of_start _ () hrun
  exact ⟨o, ho, of_decide_eq_false hnumber⟩

/-- A gradient, or a residual, that is a not-a-number ends a run of all four methods with success. -/
theorem descents_end_at_notANumber :
    (∃ o, (Newton.minimize {} brokenObjective #v[0]).Yields o ∧ ¬ IsNumber o.stationarity) ∧
    (∃ o, (QuasiNewton.minimize {} brokenObjective #v[0]).Yields o ∧ ¬ IsNumber o.stationarity) ∧
    (∃ o, (LevenbergMarquardt.minimize {} brokenResidual #v[0]).Yields o ∧
      ¬ IsNumber o.stationarity) ∧
    ∃ o, (ProjectedNewton.minimize {} brokenObjective doubleBall #v[0]).Yields o ∧
      ¬ IsNumber o.stationarity :=
  ⟨exists_notANumber (by decide +kernel), exists_notANumber (by decide +kernel),
    exists_notANumber (by decide +kernel), exists_notANumber (by decide +kernel)⟩

end Downhill
