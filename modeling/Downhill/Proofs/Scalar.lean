import Downhill.Scalar.Basic
import Mathlib.Analysis.SpecialFunctions.Pow.Real
import Mathlib.Tactic.NormNum

/-!
# Laws of scalars

`Scalar` itself states no laws. This module names the ones that theorems rely on:

* `Scalar.Total`: comparisons are total, as in every arithmetic without a not-a-number;
* `Scalar.OrdersNumbers`: comparisons are total on numbers, and false where there is a not-a-number;
* `Scalar.Ordered`: weak and strict comparisons chain, and exclude the opposite comparison;
* the instance of `Scalar` for the real numbers, which is what exact arithmetic means here. Its
  precision constants are those of double precision.

In the reals a quotient by zero is zero. That a routine makes no use of it is said through
`Scalar.withDivision`, which leaves open what such a quotient is.
-/

namespace Downhill

/-- Comparisons are total: where one scalar is not less than another, it is at least as large. -/
class Scalar.Total (α : Type) [Scalar α] : Prop where
  /-- What is not less is at least as large. -/
  le_of_not_lt : ∀ {a b : α}, ¬ a < b → b ≤ a

/-- The scalar is a number, which is to say that it compares with itself. -/
def Scalar.IsNumber {α : Type} [Scalar α] (a : α) : Prop := a ≤ a

instance {α : Type} [Scalar α] (a : α) : Decidable (Scalar.IsNumber a) :=
  inferInstanceAs (Decidable (a ≤ a))

/-- Comparisons are total on numbers, and false where one side is a not-a-number. -/
class Scalar.OrdersNumbers (α : Type) [Scalar α] : Prop where
  /-- Zero is a number. -/
  zero : IsNumber (0 : α)
  /-- Of two numbers one is less, or the other is less or equal. -/
  lt_or_le : ∀ {a b : α}, IsNumber a → IsNumber b → a < b ∨ b ≤ a
  /-- Only numbers are less. -/
  of_lt : ∀ {a b : α}, a < b → IsNumber a ∧ IsNumber b
  /-- Only numbers are less or equal. -/
  of_le : ∀ {a b : α}, a ≤ b → IsNumber a ∧ IsNumber b

/-- Weak and strict comparisons fit together. -/
class Scalar.Ordered (α : Type) [Scalar α] : Prop where
  /-- What is less is less or equal. -/
  le_of_lt : ∀ {a b : α}, a < b → a ≤ b
  /-- Comparisons chain. -/
  lt_of_le_of_lt : ∀ {a b c : α}, a ≤ b → b < c → a < c
  /-- No two scalars compare both ways. -/
  not_lt_of_le : ∀ {a b : α}, a ≤ b → ¬ b < a

/-! ### Least entries -/

namespace Scalar

variable {α : Type} [Scalar α]

/-- The smaller of two scalars is one of them, also where one is not a number. -/
theorem min_eq_or (a b : α) : min a b = a ∨ min a b = b := by
  unfold min
  split_ifs
  · exact .inr rfl
  · exact .inl rfl
  · exact .inr rfl

/-- The least entry of a list is one of its entries. -/
theorem least_mem (a : α) (as : List α) : least a as ∈ a :: as := by
  unfold least
  induction as generalizing a with
  | nil => exact List.mem_singleton_self a
  | cons b bs ih =>
    rw [List.foldl_cons]
    -- the least entry of the rest, or the smaller one of the first two
    rcases List.mem_cons.mp (ih (min a b)) with h | h
    · rw [h]
      rcases min_eq_or a b with hmin | hmin <;> simp [hmin]
    · exact List.mem_cons_of_mem a (List.mem_cons_of_mem b h)

section Ordered

variable [Ordered α]

theorem not_lt_self (a : α) : ¬ a < a := fun h =>
  Ordered.not_lt_of_le (Ordered.le_of_lt h) h

variable [OrdersNumbers α]

/-- If the smaller one of two scalars is not less than a third one, neither of them is. -/
theorem not_lt_of_not_min_lt {a b c : α} (h : ¬ min a b < c) : ¬ a < c ∧ ¬ b < c := by
  unfold min at h
  split_ifs at h with ha hba
  · -- `b` is the smaller one
    exact ⟨fun hac => h (Ordered.lt_of_le_of_lt hba hac), h⟩
  · refine ⟨h, fun hbc => h ?_⟩
    -- `a` is a number, and so is `b` if it is less than something
    have hab : a < b :=
      (OrdersNumbers.lt_or_le ha (OrdersNumbers.of_lt hbc).1).resolve_right hba
    exact Ordered.lt_of_le_of_lt (Ordered.le_of_lt hab) hbc
  · -- `a` is not a number, so it is less than nothing
    exact ⟨fun hac => ha (OrdersNumbers.of_lt hac).1, h⟩

theorem not_lt_least (a : α) (as : List α) : ∀ b ∈ a :: as, ¬ b < least a as := by
  unfold least
  induction as generalizing a with
  | nil =>
    intro b hb
    rw [List.mem_singleton.mp hb]
    exact not_lt_self a
  | cons c cs ih =>
    intro b hb
    rw [List.foldl_cons]
    -- the least entry is at most the smaller one of the first two
    have hmin := not_lt_of_not_min_lt (ih (min a c) (min a c) List.mem_cons_self)
    rcases List.mem_cons.mp hb with rfl | hb
    · exact hmin.1
    · rcases List.mem_cons.mp hb with rfl | hb
      · exact hmin.2
      · exact ih (min a c) b (List.mem_cons_of_mem _ hb)

end Ordered

end Scalar

/-! ### Exact arithmetic -/

noncomputable instance : Scalar ℝ where
  toZero := inferInstance
  toOne := inferInstance
  toAdd := inferInstance
  toSub := inferInstance
  toMul := inferInstance
  toDiv := inferInstance
  toNeg := inferInstance
  toLT := inferInstance
  toLE := inferInstance
  toBEq := instBEqOfDecidableEq
  toOfScientific := inferInstance
  decideLt := inferInstance
  decideLe := inferInstance
  sqrt := Real.sqrt
  abs := fun x => |x|
  cosh := Real.cosh
  sinh := Real.sinh
  isFinite _ := true
  epsilon := 2⁻¹ ^ 52
  solveTolerance := 1e-6
  gradientTolerance := 1e-3
  activeTolerance := 1e-6

namespace Scalar

instance : Total ℝ where
  le_of_not_lt := le_of_not_gt

instance : OrdersNumbers ℝ where
  zero := le_rfl
  lt_or_le _ _ := lt_or_ge _ _
  of_lt _ := ⟨le_rfl, le_rfl⟩
  of_le _ := ⟨le_rfl, le_rfl⟩

instance : Ordered ℝ where
  le_of_lt := LT.lt.le
  lt_of_le_of_lt := lt_of_le_of_lt
  not_lt_of_le := not_lt_of_ge

@[simp] theorem half_real : (half : ℝ) = 1 / 2 := by
  show (0.5 : ℝ) = 1 / 2
  norm_num

@[simp] theorem two_real : (two : ℝ) = 2 := by
  show (2.0 : ℝ) = 2
  norm_num

@[simp] theorem isFinite_real (x : ℝ) : isFinite x = true := rfl

/-- On the reals, where all scalars are numbers, the smaller of two is the minimum. -/
@[simp] theorem min_real (a b : ℝ) : min a b = Min.min a b := by
  unfold min
  rw [if_pos le_rfl]
  split_ifs with h
  · exact (min_eq_right h).symm
  · exact (min_eq_left (not_le.mp h).le).symm

/-- On the reals the larger of two is the maximum. -/
@[simp] theorem max_real (a b : ℝ) : max a b = Max.max a b := by
  unfold max
  rw [if_pos le_rfl]
  split_ifs with h
  · exact (max_eq_right h).symm
  · exact (max_eq_left (not_le.mp h).le).symm

@[simp] theorem abs_real (x : ℝ) : abs x = |x| := rfl

theorem sqrt_real (x : ℝ) : sqrt x = Real.sqrt x := rfl

/-! ### Divisions by zero -/

/-- Exact arithmetic with another division. -/
noncomputable abbrev withDivision (div : ℝ → ℝ → ℝ) : Scalar ℝ :=
  { (inferInstance : Scalar ℝ) with toDiv := ⟨div⟩ }

/-- The division is exact, except that a quotient by zero may be anything. What has the same result
under all such divisions does not divide by zero. -/
def IsDivision (div : ℝ → ℝ → ℝ) : Prop := ∀ s t, t ≠ 0 → div s t = s / t

end Scalar

end Downhill
