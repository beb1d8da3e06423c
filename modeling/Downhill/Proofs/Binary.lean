import Downhill.Proofs.Scalar
import Downhill.Scalar.Binary
import Mathlib.Data.Prod.Lex

/-!
# Comparisons of binary floating point

Double and single precision compare the values that their bits stand for. There the comparison has
a result unless one side is a not-a-number (`compare_eq_none`), and exchanging the sides reverses
it (`compare_swap`). Numbers compare as their keys do, which are ordered lexicographically
(`lt_iff_key`). So both orders are those of `Scalar.OrdersNumbers` and of `Scalar.Ordered`.
-/

namespace Downhill

open Float.Model

namespace UnpackedOrder

variable {a b c : UnpackedFloat}

/-- Only a not-a-number compares with nothing. -/
theorem compare_eq_none : a.compare b = none ↔ a = .notANumber ∨ b = .notANumber := by
  -- the two zeros and the two infinities are constructors, so the cases are finite
  rcases a with ⟨_ | _⟩ | _ | ⟨_ | _⟩ | ⟨_ | _, m, e, h⟩ <;>
    rcases b with ⟨_ | _⟩ | _ | ⟨_ | _⟩ | ⟨_ | _, m', e', h'⟩ <;>
    first
    | exact iff_of_true rfl (.inl rfl)
    | exact iff_of_true rfl (.inr rfl)
    | exact iff_of_false (Option.some_ne_none _) (by rintro (h | h) <;> cases h)

/-- The comparison in the other direction has the opposite result. -/
theorem compare_swap (a b : UnpackedFloat) : b.compare a = (a.compare b).map Ordering.swap := by
  rcases a with ⟨_ | _⟩ | _ | ⟨_ | _⟩ | ⟨_ | _, m, e, h⟩ <;>
    rcases b with ⟨_ | _⟩ | _ | ⟨_ | _⟩ | ⟨_ | _, m', e', h'⟩ <;>
    first
    | rfl
    | dsimp only [UnpackedFloat.compare]
      simp only [Option.map_some, Ordering.swap_then, Int.compare_swap, Nat.compare_swap]

theorem ne_of_compare_eq {o : Ordering} (h : a.compare b = some o) :
    a ≠ .notANumber ∧ b ≠ .notANumber := by
  rw [← not_or, ← compare_eq_none, h]
  exact Option.some_ne_none o

theorem ne_of_lt (h : a.lt b = true) : a ≠ .notANumber ∧ b ≠ .notANumber :=
  ne_of_compare_eq (beq_iff_eq.mp h)

theorem ne_of_le (h : a.le b = true) : a ≠ .notANumber ∧ b ≠ .notANumber := by
  obtain ⟨o, ho, _⟩ := (Option.any_eq_true _ _).mp h
  exact ne_of_compare_eq ho

theorem exists_compare_eq (ha : a ≠ .notANumber) (hb : b ≠ .notANumber) :
    ∃ o, a.compare b = some o := by
  rw [← Option.ne_none_iff_exists', ne_eq, compare_eq_none, not_or]
  exact ⟨ha, hb⟩

/-- Of two numbers one is less, or the other is less or equal. -/
theorem lt_or_le (ha : a ≠ .notANumber) (hb : b ≠ .notANumber) :
    a.lt b = true ∨ b.le a = true := by
  obtain ⟨o, ho⟩ := exists_compare_eq ha hb
  have hswap : b.le a = o.swap.isLE := by
    unfold UnpackedFloat.le
    rw [compare_swap a b, ho, Option.map_some, Option.any_some]
  have hlt : a.lt b = (o == .lt) := by
    unfold UnpackedFloat.lt
    rw [ho]
    rfl
  -- what is left to check are the three results of a comparison
  rw [hswap, hlt]
  cases o <;> decide

theorem le_self_iff : a.le a = true ↔ a ≠ .notANumber := by
  constructor
  · intro h
    exact (ne_of_le h).1
  · intro h
    rcases lt_or_le h h with hlt | hle
    · -- a result that is its own reverse is equality
      exfalso
      have ho : a.compare a = some .lt := beq_iff_eq.mp hlt
      have hswap := compare_swap a a
      rw [ho] at hswap
      cases hswap
    · exact hle

/-- The place of a number in the order: its sign, and then exponent and mantissa. -/
def key : UnpackedFloat → ℤ ×ₗ ℤ ×ₗ ℤ
  | .infinity .negative => toLex (-2, toLex (0, 0))
  | .finite .negative m e _ => toLex (-1, toLex (-e, -m))
  | .finite .positive m e _ => toLex (1, toLex (e, m))
  | .infinity .positive => toLex (2, toLex (0, 0))
  | _ => toLex (0, toLex (0, 0))

/-- Numbers are less exactly when their keys are. -/
theorem lt_iff_key (ha : a ≠ .notANumber) (hb : b ≠ .notANumber) :
    a.lt b = true ↔ key a < key b := by
  -- finite numbers of one sign compare by exponent and mantissa, all other pairs by their
  -- constructors
  rcases a with ⟨_ | _⟩ | _ | ⟨_ | _⟩ | ⟨_ | _, m, e, h⟩ <;>
    rcases b with ⟨_ | _⟩ | _ | ⟨_ | _⟩ | ⟨_ | _, m', e', h'⟩ <;>
    first
    | exact absurd rfl ha
    | exact absurd rfl hb
    | decide +revert
    | dsimp only [UnpackedFloat.lt, UnpackedFloat.compare, key]
      simp [Prod.Lex.lt_iff, Ordering.then_eq_lt, Ordering.then_eq_gt, compare_lt_iff_lt,
        compare_gt_iff_gt]

/-- Numbers are less or equal exactly when their keys are. -/
theorem le_iff_key (ha : a ≠ .notANumber) (hb : b ≠ .notANumber) :
    a.le b = true ↔ key a ≤ key b := by
  have hswap : a.le b = !b.lt a := by
    unfold UnpackedFloat.le UnpackedFloat.lt
    obtain ⟨o, ho⟩ := exists_compare_eq ha hb
    rw [compare_swap a b, ho]
    cases o <;> rfl
  -- so the order of the keys, which is total, decides both tests
  rw [hswap, Bool.not_eq_true', ← Bool.not_eq_true, lt_iff_key hb ha, not_lt]

theorem le_of_lt (h : a.lt b = true) : a.le b = true := by
  obtain ⟨ha, hb⟩ := ne_of_lt h
  rw [le_iff_key ha hb]
  exact ((lt_iff_key ha hb).mp h).le

theorem not_lt_of_le (h : a.le b = true) : ¬ b.lt a = true := by
  obtain ⟨ha, hb⟩ := ne_of_le h
  rw [lt_iff_key hb ha, not_lt]
  exact (le_iff_key ha hb).mp h

theorem lt_of_le_of_lt (hab : a.le b = true) (hbc : b.lt c = true) : a.lt c = true := by
  obtain ⟨ha, hb⟩ := ne_of_le hab
  have hc := (ne_of_lt hbc).2
  rw [lt_iff_key ha hc]
  exact ((le_iff_key ha hb).mp hab).trans_lt ((lt_iff_key hb hc).mp hbc)

end UnpackedOrder

/-! ### The two precisions -/

/-- The comparison of doubles is that of their unpacked forms. -/
theorem float_le {a b : Float} : a ≤ b ↔ a.toModel.unpack.le b.toModel.unpack = true := by
  show decide _ = true ↔ _
  rw [decide_eq_true_iff]
  rfl

theorem float_lt {a b : Float} : a < b ↔ a.toModel.unpack.lt b.toModel.unpack = true := by
  show decide _ = true ↔ _
  rw [decide_eq_true_iff]
  rfl

/-- A double is a number exactly if it does not unpack to a not-a-number. -/
theorem float_isNumber {a : Float} : Scalar.IsNumber a ↔ a.toModel.unpack ≠ .notANumber :=
  float_le.trans UnpackedOrder.le_self_iff

instance : Scalar.OrdersNumbers Float where
  zero := by decide
  lt_or_le ha hb := by
    rw [float_isNumber] at ha hb
    rw [float_lt, float_le]
    exact UnpackedOrder.lt_or_le ha hb
  of_lt h := by
    rw [float_lt] at h
    rw [float_isNumber, float_isNumber]
    exact UnpackedOrder.ne_of_lt h
  of_le h := by
    rw [float_le] at h
    rw [float_isNumber, float_isNumber]
    exact UnpackedOrder.ne_of_le h

instance : Scalar.Ordered Float where
  le_of_lt h := float_le.mpr (UnpackedOrder.le_of_lt (float_lt.mp h))
  lt_of_le_of_lt hab hbc :=
    float_lt.mpr (UnpackedOrder.lt_of_le_of_lt (float_le.mp hab) (float_lt.mp hbc))
  not_lt_of_le h := mt float_lt.mp (UnpackedOrder.not_lt_of_le (float_le.mp h))

/-- The comparison of single precision numbers is that of their unpacked forms. -/
theorem float32_le {a b : Float32} : a ≤ b ↔ a.toModel.unpack.le b.toModel.unpack = true := by
  show decide _ = true ↔ _
  rw [decide_eq_true_iff]
  rfl

theorem float32_lt {a b : Float32} : a < b ↔ a.toModel.unpack.lt b.toModel.unpack = true := by
  show decide _ = true ↔ _
  rw [decide_eq_true_iff]
  rfl

theorem float32_isNumber {a : Float32} : Scalar.IsNumber a ↔ a.toModel.unpack ≠ .notANumber :=
  float32_le.trans UnpackedOrder.le_self_iff

instance : Scalar.OrdersNumbers Float32 where
  zero := by decide
  lt_or_le ha hb := by
    rw [float32_isNumber] at ha hb
    rw [float32_lt, float32_le]
    exact UnpackedOrder.lt_or_le ha hb
  of_lt h := by
    rw [float32_lt] at h
    rw [float32_isNumber, float32_isNumber]
    exact UnpackedOrder.ne_of_lt h
  of_le h := by
    rw [float32_le] at h
    rw [float32_isNumber, float32_isNumber]
    exact UnpackedOrder.ne_of_le h

instance : Scalar.Ordered Float32 where
  le_of_lt h := float32_le.mpr (UnpackedOrder.le_of_lt (float32_lt.mp h))
  lt_of_le_of_lt hab hbc :=
    float32_lt.mpr (UnpackedOrder.lt_of_le_of_lt (float32_le.mp hab) (float32_lt.mp hbc))
  not_lt_of_le h := mt float32_lt.mp (UnpackedOrder.not_lt_of_le (float32_le.mp h))

end Downhill
