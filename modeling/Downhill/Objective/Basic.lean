import Downhill.Linear.Mat
import Downhill.Run

/-!
# Objectives

An `Objective σ α n` is a function of `n` variables as the routines see it: a value, a gradient, a
Hessian matrix and the product of the Hessian with a vector, each of them an action that may fail.
Only the value is mandatory. The defaults of the other three are

* `centralGradient`: central differences of the value with step `√ε`;
* the failure `Failure.missing` for the Hessian;
* `hessianProductOf`: the Hessian times the vector where there is a Hessian, else a forward
  difference of the gradient (`forwardProduct`).

The Hessian is a matrix of any shape, because an objective that knows its Hessian in advance need
not look at the point; where the shape is wrong, `AnyMat.apply` fails.

A `ParametricModel` is a function `m(x; p)` of a point and of parameters, with its gradient in the
parameters. The parameters are passed along, so that fitting them changes no model.

The stencil of a point `x` with scale `h` consists of the points `x + h eᵢ` and `x - h eᵢ`. The
simplex gradient is the gradient by central differences on the stencil
(`Stencil.simplexGradient`); a stencil failure says that no point of the stencil improves on `x`
(`Stencil.isFailure`). Both only use values.
-/

namespace Downhill

variable {σ α : Type} [Scalar α] {n k : Nat}

/-! ### Differences -/

/-- The central difference quotient of `value` at `x` in coordinate `i` with step `h`; the forward
point is evaluated first. -/
def centralDifference (value : Vec α n → Run σ α α) (x : Vec α n) (h : α) (i : Fin n) :
    Run σ α α := do
  let forward ← value (x.plusAt i h)
  let backward ← value (x.minusAt i h)
  pure ((forward - backward) / (h + h))

/-- The gradient by central differences with step `√ε`. -/
def centralGradient (value : Vec α n → Run σ α α) (x : Vec α n) : Run σ α (Vec α n) :=
  Vec.tabulateM n (centralDifference value x Scalar.differenceStep)

/-- The product of the Hessian at `x` and `v` by a forward difference of the gradient along `v`,
with a step that is shorter the longer `v` is; zero if `v` nearly vanishes. -/
def forwardProduct (gradient : Vec α n → Run σ α (Vec α n)) (x v : Vec α n) :
    Run σ α (Vec α n) :=
  let size := v.norm
  if size < Scalar.epsilon then pure Vec.zero
  else do
    let t := Scalar.differenceStep / size
    let here ← gradient x
    let ahead ← gradient (x + t * v)
    pure ((ahead - here).divBy t)

/-- The product of a matrix of any shape and a vector. -/
def AnyMat.apply (H : AnyMat α) (v : Vec α n) : Except (Failure α) (Vec α n) := do
  let H ← H.mat.fit n n
  pure (H * v)

/-- The product of the Hessian at `x` and `v`, by the Hessian where there is one and by a difference
of the gradient where it is missing. -/
def hessianProductOf (gradient : Vec α n → Run σ α (Vec α n))
    (hessian : Vec α n → Run σ α (AnyMat α)) (x v : Vec α n) : Run σ α (Vec α n) := do
  match ← Run.observe (hessian x) with
  | .ok H => H.apply v
  | .error (.missing _) => forwardProduct gradient x v
  | .error failure => throw failure

/-! ### Objectives -/

/-- A function of `n` variables with its derivatives. -/
structure Objective (σ α : Type) [Scalar α] (n : Nat) where
  /-- The value at a point. -/
  value : Vec α n → Run σ α α
  /-- The gradient at a point. -/
  gradient : Vec α n → Run σ α (Vec α n) := centralGradient value
  /-- The Hessian matrix at a point. -/
  hessian : Vec α n → Run σ α (AnyMat α) := fun _ => throw (.missing .hessian)
  /-- The product of the Hessian at a point and a vector. -/
  hessianProduct : Vec α n → Vec α n → Run σ α (Vec α n) := hessianProductOf gradient hessian

namespace Objective

/-- The product of the Hessian at `x` and a vector of any length. -/
def hessianProductAny (f : Objective σ α n) (x : Vec α n) (v : Vec α k) : Run σ α (Vec α n) := do
  let v ← v.ofLength n
  f.hessianProduct x v

end Objective

/-! ### Slopes -/

/-- The slope `gᵀ d` along `d` where the gradient is `g`, which has to be finite. -/
def slope (g d : Vec α n) : Except (Failure α) α :=
  let value := g.dot d
  if Scalar.isFinite value then .ok value else .error (.breakdown .slope)

/-- The slope along a direction of any length. -/
def slopeAny (g : Vec α n) (d : Vec α k) : Except (Failure α) α := do
  let d ← d.ofLength n
  slope g d

/-! ### Models with parameters -/

/-- A function of a point and of parameters. -/
structure ParametricModel (α : Type) where
  /-- The number of parameters. -/
  parameterCount : Nat
  /-- The value `m(x; p)`. -/
  value : {n k : Nat} → (x : Vec α n) → (p : Vec α k) → Except (Failure α) α
  /-- The gradient of `m(x; p)` in `p`. -/
  gradient : {n k : Nat} → (x : Vec α n) → (p : Vec α k) →
    Except (Failure α) (Vec α parameterCount)

/-! ### Stencils -/

namespace Stencil

/-- Fails unless the scale is positive. -/
def checkScale (h : α) : Except (Failure α) Unit :=
  if 0 < h then .ok () else .error (.invalidSetting .stencilScale (.number h))

/-- The gradient of `f` at `x` by central differences with step `h`. -/
def simplexGradient (f : Objective σ α n) (x : Vec α n) (h : α) : Run σ α (Vec α n) := do
  checkScale h
  Vec.tabulateM n (centralDifference f.value x h)

/-- Whether neither neighbour of `x` in coordinate `i` has a smaller value than `center`; both
neighbours are evaluated. -/
def noBetter (f : Objective σ α n) (x : Vec α n) (h center : α) (i : Fin n) : Run σ α Bool := do
  let forward ← f.value (x.plusAt i h)
  let backward ← f.value (x.minusAt i h)
  pure !(forward < center || backward < center)

/-- Whether no point of the stencil has a smaller value than `x`; the coordinates are visited in
order, up to the first improvement. -/
def isFailure (f : Objective σ α n) (x : Vec α n) (h : α) : Run σ α Bool := do
  checkScale h
  let center ← f.value x
  (List.finRange n).allM (noBetter f x h center)

end Stencil

end Downhill
