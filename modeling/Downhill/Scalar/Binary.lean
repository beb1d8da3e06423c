import Downhill.Scalar.Basic
import Downhill.Decimal.Rounded

/-!
# Binary floating point as scalars

The two scalar types that programs run on: double precision, `Float`, and single precision,
`Float32`. `Binary` adds what only such scalars have: a conversion from and to double precision
and the stored bits, hence a text.
-/

namespace Downhill

instance : Scalar Float where
  toZero := ⟨0.0⟩
  toOne := ⟨1.0⟩
  toAdd := inferInstance
  toSub := inferInstance
  toMul := inferInstance
  toDiv := inferInstance
  toNeg := inferInstance
  toLT := inferInstance
  toLE := inferInstance
  toBEq := inferInstance
  toOfScientific := inferInstance
  decideLt := Float.decLt
  decideLe := Float.decLe
  sqrt := Float.sqrt
  abs := Float.abs
  cosh := Float.cosh
  sinh := Float.sinh
  isFinite := Float.isFinite
  epsilon := Float.scaleB 1.0 (-52)
  solveTolerance := 1e-6
  gradientTolerance := 1e-3
  activeTolerance := 1e-6

instance : Scalar Float32 where
  toZero := ⟨0.0⟩
  toOne := ⟨1.0⟩
  toAdd := inferInstance
  toSub := inferInstance
  toMul := inferInstance
  toDiv := inferInstance
  toNeg := inferInstance
  toLT := inferInstance
  toLE := inferInstance
  toBEq := inferInstance
  toOfScientific := inferInstance
  decideLt := Float32.decLt
  decideLe := Float32.decLe
  sqrt := Float32.sqrt
  abs := Float32.abs
  cosh := Float32.cosh
  sinh := Float32.sinh
  isFinite := Float32.isFinite
  epsilon := Float32.scaleB 1.0 (-23)
  solveTolerance := 1e-4
  gradientTolerance := 1e-3
  activeTolerance := 1e-5

/-- Scalars stored as binary floating-point numbers. -/
class Binary (α : Type) extends Scalar α where
  /-- The nearest scalar to a double. -/
  narrow : Float → α
  /-- The scalar as a double, exactly. -/
  widen : α → Float
  /-- The stored fields. -/
  stored : α → Stored

instance : Binary Float where
  narrow := id
  widen := id
  stored x := .ofFields 52 11 x.toBits.toNat

instance : Binary Float32 where
  narrow := Float.toFloat32
  widen := Float32.toFloat
  stored x := .ofFields 23 8 x.toBits.toNat

/-- A scalar as text: positional, with the fewest digits that read back. -/
def Binary.text {α : Type} [Binary α] (x : α) : String := (stored x).text

end Downhill
