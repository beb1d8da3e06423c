import Downhill.Objective.AugmentedLagrangian
import Downhill.Objective.Noisy
import Downhill.Objective.Quadratic
import Downhill.Objective.Restricted
import Downhill.Objective.Separable
import Downhill.Objective.Valley
import Downhill.Proofs.Journal
import Downhill.Residual.Analytic
import Downhill.Residual.LeastSquares

/-!
# Journals of objectives and models

The objectives and the models of this library append no events, so they satisfy
`Objective.Writes Q` and `ResidualModel.Writes Q` for every `Q`. An objective that is made from
others, or a default derivative, appends the events of what it is made from.
-/

namespace Downhill

variable {σ α : Type} {n m : Nat} {Q : Event α → Prop}

/-! ### Default derivatives -/

section Defaults

variable [Scalar α] {value : Vec α n → Run σ α α} {gradient : Vec α n → Run σ α (Vec α n)}
  {hessian : Vec α n → Run σ α (AnyMat α)}

/-- A gradient by differences appends the events of the values. -/
theorem writes_centralGradient (hvalue : ∀ x, (value x).Writes Q) (x : Vec α n) :
    (centralGradient value x).Writes Q :=
  Run.relates_tabulateM fun _ => (hvalue _).bind fun _ => (hvalue _).bind fun _ =>
    Run.relates_pure _

/-- A product by differences appends the events of the gradients. -/
theorem writes_forwardProduct (hgradient : ∀ x, (gradient x).Writes Q) (x v : Vec α n) :
    (forwardProduct gradient x v).Writes Q :=
  .ite .rfl (Run.relates_pure _) ((hgradient _).bind fun _ => (hgradient _).bind fun _ =>
    Run.relates_pure _)

/-- The default product appends the events of the Hessian, and of the gradients where it is missing.
-/
theorem writes_hessianProductOf (hgradient : ∀ x, (gradient x).Writes Q)
    (hhessian : ∀ x, (hessian x).Writes Q) (x v : Vec α n) :
    (hessianProductOf gradient hessian x v).Writes Q := by
  refine (Run.relates_observe (hhessian x)).bind fun outcome => ?_
  -- a Hessian that is missing is replaced by a difference, any other failure passes
  split
  · exact Run.relates_liftM _
  · exact writes_forwardProduct hgradient x v
  · exact Run.relates_throw _

namespace Objective

/-- An objective with the default product. -/
theorem writes_of_hessian (hvalue : ∀ x, (value x).Writes Q)
    (hgradient : ∀ x, (gradient x).Writes Q) (hhessian : ∀ x, (hessian x).Writes Q) :
    Objective.Writes Q ⟨value, gradient, hessian, hessianProductOf gradient hessian⟩ :=
  ⟨hvalue, hgradient, hhessian, writes_hessianProductOf hgradient hhessian⟩

/-! ### Objectives made from others -/

variable {f h : Objective σ α n}

theorem Writes.gradientOnly (hf : f.Writes Q) : f.gradientOnly.Writes Q :=
  writes_of_hessian hf.value hf.gradient fun _ => Run.relates_throw _

/-- Hiding the derivatives adds no events. -/
theorem Writes.valueOnly (hf : f.Writes Q) : f.valueOnly.Writes Q :=
  writes_of_hessian hf.value (writes_centralGradient hf.value) fun _ => Run.relates_throw _

theorem Writes.guarded (hf : f.Writes Q) (limit : α) : (f.guarded limit).Writes Q :=
  writes_of_hessian (fun _ => .ite .rfl (hf.value _) (Run.relates_throw _))
    (fun _ => .ite .rfl (hf.gradient _) (Run.relates_throw _))
    (fun _ => .ite .rfl (hf.hessian _) (Run.relates_throw _))

/-- Noise is drawn from the memory, not from the journal. -/
theorem Writes.noisy (hf : f.Writes Q) (draw : σ → α × σ) : (f.noisy draw).Writes Q :=
  have hvalue : ∀ x, ((f.noisy draw).value x).Writes Q := fun _ =>
    (hf.value _).bind fun _ => (Run.relates_draw draw).bind fun _ => Run.relates_pure _
  writes_of_hessian hvalue (writes_centralGradient hvalue) fun _ => Run.relates_throw _

/-- An augmented Lagrangian appends the events of its two parts. -/
theorem Writes.lagrangian (hf : f.Writes Q) (hh : h.Writes Q) (w : Weights α) :
    (w.lagrangian f h).Writes Q :=
  writes_of_hessian
    (fun x => (hh.value x).bind fun _ => (hf.value x).bind fun _ => Run.relates_pure _)
    (fun x => (hh.value x).bind fun _ => (hf.gradient x).bind fun _ =>
      (hh.gradient x).bind fun _ => Run.relates_pure _)
    fun x => (hh.value x).bind fun _ => (hh.gradient x).bind fun _ =>
      (hf.hessian x).bind fun _ => (hh.hessian x).bind fun _ => Run.relates_liftM _

end Objective

/-! ### Objectives in closed form -/

/-- The Hessian of a quadratic objective is not computed at all. -/
theorem Quadratic.writes (q : Quadratic α m) : (q.objective n : Objective σ α n).Writes Q :=
  Objective.writes_of_hessian
    (fun _ => (Run.relates_liftM _).bind fun _ => Run.relates_pure _)
    (fun _ => (Run.relates_liftM _).bind fun _ => Run.relates_liftM _) fun _ => Run.relates_pure _

/-- An objective that checks the length of the point and then computes. -/
theorem Objective.writes_of_closedForm (F : Vec α m → α)
    (G : Vec α m → Except (Failure α) (Vec α n)) (H : Vec α m → AnyMat α) :
    Objective.Writes (σ := σ) Q
      { value := fun x => do
          let x ← x.ofLength m
          pure (F x)
        gradient := fun x => do
          let x ← x.ofLength m
          G x
        hessian := fun x => do
          let x ← x.ofLength m
          pure (H x) } :=
  writes_of_hessian (fun _ => (Run.relates_liftM _).bind fun _ => Run.relates_pure _)
    (fun _ => (Run.relates_liftM _).bind fun _ => Run.relates_liftM _)
    fun _ => (Run.relates_liftM _).bind fun _ => Run.relates_pure _

theorem Separable.writes (f : Separable α m) : (f.objective n : Objective σ α n).Writes Q :=
  Objective.writes_of_closedForm _ _ _

theorem Valley.writes (f : Valley α) : (f.objective n : Objective σ α n).Writes Q :=
  Objective.writes_of_closedForm _ _ _

theorem Banded.writes (f : Banded α) : (f.objective n : Objective σ α n).Writes Q :=
  Objective.writes_of_closedForm _ _ _

/-! ### Residual models -/

namespace ResidualModel

theorem writes_linear {r c k : Nat} (A : Mat α r c) (b : Vec α k) :
    (linear A b m : ResidualModel σ α m).Writes Q where
  residual _ := (Run.relates_liftM _).bind fun _ => (Run.relates_liftM _).bind fun _ =>
    Run.relates_pure _
  jacobian _ := Run.relates_pure _

theorem writes_rosenbrock : (rosenbrock m : ResidualModel σ α m).Writes Q where
  residual _ := (Run.relates_liftM _).bind fun _ => (Run.relates_liftM _).bind fun _ =>
    Run.relates_pure _
  jacobian _ := (Run.relates_liftM _).bind fun _ => Run.relates_pure _

theorem writes_polynomial (terms : List (Polynomial α)) :
    (polynomial terms m : ResidualModel σ α m).Writes Q where
  residual _ := (Run.relates_liftM _).bind fun _ => Run.relates_pure _
  jacobian _ := (Run.relates_liftM _).bind fun _ => Run.relates_pure _

end ResidualModel

/-- A fit computes from its measurements alone. -/
theorem LeastSquares.writes (s : LeastSquares α) :
    (s.residualModel m : ResidualModel σ α m).Writes Q where
  residual _ := (Run.relates_liftM _).bind fun _ => Run.relates_pure _
  jacobian _ := (Run.relates_liftM _).bind fun _ => Run.relates_pure _

end Defaults

end Downhill
