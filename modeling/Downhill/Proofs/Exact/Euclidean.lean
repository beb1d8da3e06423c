import Downhill.Linear.Vec
import Downhill.Proofs.Scalar
import Mathlib.Analysis.InnerProductSpace.PiL2
import Mathlib.Analysis.InnerProductSpace.Symmetric

/-!
# Exact vectors as a Euclidean space

Over the reals the order of a sum does not matter, so `laneSum` and `orderedSum` are the sum of a
list, and `Vec.dot` is the sum of the products of the entries (`Vec.dot_eq_sum`). This makes
`Vec ℝ n` a Euclidean space of dimension `n` (`Vec.finrank_eq`) whose inner product and norm are
those that the routines compute (`Vec.inner_eq_dot`, `Vec.norm_eq`).

`Vec.keep is` is the linear map that keeps the coordinates `is` of a vector and makes the others
zero. It is the orthogonal projection to its range: `x - keep is x` and `keep is y` are orthogonal
(`Vec.inner_sub_keep`), so inner products split into two parts (`Vec.inner_eq_add`). To overwrite
coordinates is to exchange the kept part (`Vec.overwrite_eq`).
-/

namespace Downhill

/-! ### Sums -/

theorem foldl_add_eq (xs : List ℝ) (a : ℝ) : xs.foldl (· + ·) a = a + xs.sum := by
  induction xs generalizing a with
  | nil => simp
  | cons x xs ih => rw [List.foldl_cons, ih, List.sum_cons, add_assoc]

/-- Over the reals the order of a sum does not show. -/
theorem orderedSum_eq_sum (xs : List ℝ) : orderedSum xs = xs.sum := by
  cases xs with
  | nil => rfl
  | cons x xs =>
    have hcomm : (fun acc x : ℝ => x + acc) = (· + ·) := by
      funext a b
      exact add_comm b a
    show xs.foldl (fun acc x : ℝ => x + acc) x = _
    rw [hcomm, foldl_add_eq, List.sum_cons]

theorem Lanes.sum_eq (s : Lanes ℝ) (xs : List ℝ) : s.sum xs = s.join + xs.sum := by
  -- on the blocks of eight terms; the rest of the list is added to the joined lanes
  fun_induction Lanes.sum s xs with
  | case1 s x0 x1 x2 x3 x4 x5 x6 x7 xs ih =>
    rw [ih]
    simp only [Lanes.join, List.sum_cons]
    ring
  | case2 s xs => exact foldl_add_eq xs s.join

theorem Lanes.sum_withDivision (div : ℝ → ℝ → ℝ) (s : Lanes ℝ) (xs : List ℝ) :
    @Lanes.sum ℝ (Scalar.withDivision div) s xs = s.sum xs := by
  fun_induction Lanes.sum s xs with
  | case1 s x0 x1 x2 x3 x4 x5 x6 x7 xs ih => exact ih
  | case2 s xs hshort => exact @Lanes.sum.eq_2 ℝ (Scalar.withDivision div) s xs hshort

theorem laneSum_eq_sum (xs : List ℝ) : laneSum xs = xs.sum := by
  have hempty : (Lanes.empty : Lanes ℝ).join = 0 := by
    show (0 : ℝ) + (0 + 0) + (0 + 0) + (0 + 0) + (0 + 0) = 0
    norm_num
  rw [laneSum, Lanes.sum_eq, hempty, zero_add]

namespace Vec

variable {n : Nat}

theorem sum_toList (x : Vec ℝ n) : x.toList.sum = ∑ i, x.entry i := by
  have hofFn : x.toList = List.ofFn x.entry := by
    apply List.ext_getElem <;> simp
  rw [hofFn, List.sum_ofFn]

/-- The inner product of the routines is that of the entries. -/
theorem dot_eq_sum (x y : Vec ℝ n) : x.dot y = ∑ i, x.entry i * y.entry i := by
  rw [dot, laneSum_eq_sum, sum_toList]
  simp

theorem dot_comm (x y : Vec ℝ n) : x.dot y = y.dot x := by
  rw [dot_eq_sum, dot_eq_sum]
  exact Finset.sum_congr rfl fun i _ => mul_comm _ _

/-! ### The vector space -/

/-- The entries of a vector as a function of the index. -/
def toFun (x : Vec ℝ n) : Fin n → ℝ := x.entry

theorem toFun_injective : Function.Injective (toFun : Vec ℝ n → Fin n → ℝ) := by
  intro x y h
  ext i hi
  exact congrFun h ⟨i, hi⟩

noncomputable instance : AddCommGroup (Vector ℝ n) :=
  Function.Injective.addCommGroup toFun toFun_injective
    (by funext i; simp [toFun]) (by intros; funext i; simp [toFun])
    (by intros; funext i; simp [toFun]) (by intros; funext i; simp [toFun])
    (by intros; funext i; simp [toFun]) (by intros; funext i; simp [toFun])

noncomputable instance : Module ℝ (Vector ℝ n) :=
  Function.Injective.module ℝ
    ({ toFun := toFun, map_zero' := by funext i; simp [toFun],
       map_add' := by intros; funext i; simp [toFun] } : Vector ℝ n →+ (Fin n → ℝ))
    toFun_injective (by intros; funext i; simp [toFun])

/-- The multiples of the routines are those of the vector space. -/
@[simp] theorem hmul_eq_smul (t : ℝ) (x : Vec ℝ n) : t * x = t • x := by
  ext i hi
  simp

/-! ### The inner product -/

theorem dot_self_nonneg (x : Vec ℝ n) : 0 ≤ x.dot x := by
  rw [dot_eq_sum]
  exact Finset.sum_nonneg fun i _ => mul_self_nonneg (x.entry i)

/-- Only the zero vector has length zero. -/
theorem eq_zero_of_dot_self (x : Vec ℝ n) (h : x.dot x = 0) : x = 0 := by
  rw [dot_eq_sum, Finset.sum_eq_zero_iff_of_nonneg fun i _ => mul_self_nonneg (x.entry i)] at h
  ext i hi
  simpa using h ⟨i, hi⟩ (Finset.mem_univ _)

/-- The inner product of the routines. -/
noncomputable abbrev innerCore (n : Nat) : InnerProductSpace.Core ℝ (Vector ℝ n) where
  inner x y := Vec.dot x y
  conj_inner_symm x y := by
    rw [conj_trivial, dot_comm]
  re_inner_nonneg x := dot_self_nonneg x
  add_left x y z := by
    simp only [dot_eq_sum, ← Finset.sum_add_distrib]
    refine Finset.sum_congr rfl fun i _ => ?_
    simp
    ring
  smul_left x y t := by
    simp only [dot_eq_sum, Finset.mul_sum, conj_trivial]
    refine Finset.sum_congr rfl fun i _ => ?_
    simp
    ring
  definite x h := eq_zero_of_dot_self x h

noncomputable instance : NormedAddCommGroup (Vector ℝ n) :=
  (innerCore n).toNormedAddCommGroup

noncomputable instance : InnerProductSpace ℝ (Vector ℝ n) :=
  InnerProductSpace.ofCore (innerCore n).toCore

/-- The inner product of the space is the one that the routines compute. -/
theorem inner_eq_dot (x y : Vec ℝ n) : inner ℝ x y = x.dot y := rfl

/-- The norm of the space is the one that the routines compute. -/
theorem norm_eq (x : Vec ℝ n) : x.norm = ‖x‖ := rfl

/-- The inner product is computed without a division. -/
theorem dot_withDivision (div : ℝ → ℝ → ℝ) (x y : Vec ℝ n) :
    @dot ℝ (Scalar.withDivision div) n x y = x.dot y :=
  Lanes.sum_withDivision div Lanes.empty _

/-- The norm is computed without a division. -/
theorem norm_withDivision (div : ℝ → ℝ → ℝ) (x : Vec ℝ n) :
    @norm ℝ (Scalar.withDivision div) n x = ‖x‖ :=
  congrArg Real.sqrt (dot_withDivision div x x)

/-- The entries of a vector, as a linear equivalence. -/
noncomputable def entries (n : Nat) : Vector ℝ n ≃ₗ[ℝ] (Fin n → ℝ) where
  toFun := toFun
  map_add' x y := by funext i; simp [toFun]
  map_smul' t x := by funext i; simp [toFun]
  invFun f := Vector.ofFn f
  left_inv x := by ext i hi; simp [toFun]
  right_inv f := by funext i; simp [toFun]

instance : FiniteDimensional ℝ (Vector ℝ n) := (entries n).symm.finiteDimensional

instance : CompleteSpace (Vector ℝ n) := FiniteDimensional.complete ℝ (Vector ℝ n)

/-! ### Unit vectors -/

/-- The unit vector of a coordinate. -/
noncomputable def unit (i : Fin n) : Vec ℝ n := Vector.ofFn fun l => if l = i then 1 else 0

theorem entry_unit (i l : Fin n) : (unit i).entry l = if l = i then 1 else 0 := by
  simp [unit]

/-- The inner product with a unit vector is an entry. -/
theorem dot_unit (x : Vec ℝ n) (i : Fin n) : x.dot (unit i) = x.entry i := by
  rw [dot_eq_sum, Finset.sum_eq_single i]
  · rw [entry_unit, if_pos rfl, mul_one]
  · intro l _ hl
    rw [entry_unit, if_neg hl, mul_zero]
  · exact fun h => absurd (Finset.mem_univ i) h

theorem unit_ne_zero (i : Fin n) : unit i ≠ 0 := by
  intro h
  have hentry := entry_unit i i
  rw [h, if_pos rfl] at hentry
  exact zero_ne_one ((congrFun (map_zero (entries n)) i).symm.trans hentry)

/-- To move one entry is to add a multiple of its unit vector. -/
theorem put_eq (x : Vec ℝ n) (i : Fin n) (t : ℝ) :
    x.put i (x.entry i + t) = x + t • unit i := by
  ext l hl
  have hput := entry_put x i ⟨l, hl⟩ (x.entry i + t)
  rw [Vector.getElem_add, Vector.getElem_smul, smul_eq_mul]
  show (x.put i (x.entry i + t)).entry ⟨l, hl⟩ = x.entry ⟨l, hl⟩ + t * (unit i).entry ⟨l, hl⟩
  rw [hput, entry_unit]
  by_cases hil : i = ⟨l, hl⟩
  · rw [if_pos hil, if_pos hil.symm, mul_one, hil]
  · rw [if_neg hil, if_neg (Ne.symm hil), mul_zero, add_zero]

theorem plusAt_eq (x : Vec ℝ n) (i : Fin n) (t : ℝ) : x.plusAt i t = x + t • unit i :=
  put_eq x i t

theorem minusAt_eq (x : Vec ℝ n) (i : Fin n) (t : ℝ) : x.minusAt i t = x + -t • unit i := by
  rw [← put_eq, ← sub_eq_add_neg]
  rfl

/-! ### Vectors of length one -/

section One

variable (a b t : ℝ)

theorem eq_singleton (x : Vec ℝ 1) : x = #v[x[0]] := by
  ext i hi
  obtain rfl : i = 0 := by omega
  rfl

theorem singleton_add : (#v[a] : Vec ℝ 1) + #v[b] = #v[a + b] := by
  rw [eq_singleton (#v[a] + #v[b]), Vector.getElem_add]
  rfl

theorem singleton_sub : (#v[a] : Vec ℝ 1) - #v[b] = #v[a - b] := by
  rw [eq_singleton (#v[a] - #v[b]), Vector.getElem_sub]
  rfl

theorem singleton_neg : -(#v[a] : Vec ℝ 1) = #v[-a] := by
  rw [eq_singleton (-#v[a]), Vector.getElem_neg]
  rfl

theorem singleton_smul : t • (#v[a] : Vec ℝ 1) = #v[t * a] := by
  rw [eq_singleton (t • #v[a]), Vector.getElem_smul]
  rfl

theorem dot_singleton : Vec.dot #v[a] #v[b] = a * b := by
  rw [dot_eq_sum]
  simp

theorem norm_singleton : ‖(#v[a] : Vec ℝ 1)‖ = |a| := by
  rw [← norm_eq]
  show √(Vec.dot #v[a] #v[a]) = |a|
  rw [dot_singleton, Real.sqrt_mul_self_eq_abs]

end One

/-! ### Vectors of length two -/

theorem eq_pair (x : Vec ℝ 2) : x = #v[x.entry 0, x.entry 1] := by
  ext i hi
  obtain rfl | rfl : i = 0 ∨ i = 1 := by omega
  · rfl
  · rfl

theorem dot_pair (a b c d : ℝ) : Vec.dot #v[a, b] #v[c, d] = a * c + b * d := by
  rw [dot_eq_sum, Fin.sum_univ_two]
  rfl

theorem pair_add (a b c d : ℝ) : (#v[a, b] : Vec ℝ 2) + #v[c, d] = #v[a + c, b + d] := by
  rw [eq_pair (#v[a, b] + #v[c, d]), entry_eq_getElem, entry_eq_getElem, Fin.getElem_fin,
    Fin.getElem_fin, Vector.getElem_add, Vector.getElem_add]
  rfl

theorem pair_smul (t a b : ℝ) : t • (#v[a, b] : Vec ℝ 2) = #v[t * a, t * b] := by
  rw [eq_pair (t • #v[a, b]), entry_eq_getElem, entry_eq_getElem, Fin.getElem_fin,
    Fin.getElem_fin, Vector.getElem_smul, Vector.getElem_smul]
  rfl

/-! ### The dimension -/

/-- The dimension of the space of vectors of length `n` is `n`. -/
theorem finrank_eq : Module.finrank ℝ (Vec ℝ n) = n := by
  rw [(entries n).finrank_eq, Module.finrank_fin_fun]

/-! ### Vectors on some coordinates -/

open scoped InnerProductSpace

theorem getElem_overwrite_zero (is : List (Fin n)) (x : Vec ℝ n) (i : Nat) (hi : i < n) :
    ((0 : Vec ℝ n).overwrite x is)[i] = if (⟨i, hi⟩ : Fin n) ∈ is then x[i] else 0 := by
  unfold overwrite
  rw [Vector.getElem_ofFn, entry_eq_getElem (0 : Vec ℝ n), Fin.getElem_fin, Vector.getElem_zero]
  rfl

/-- The part of a vector on the coordinates `is`; the others are zero. -/
noncomputable def keep (is : List (Fin n)) : Vec ℝ n →ₗ[ℝ] Vec ℝ n where
  toFun x := overwrite 0 x is
  map_add' x y := by
    ext i hi
    rw [Vector.getElem_add, getElem_overwrite_zero, getElem_overwrite_zero, getElem_overwrite_zero]
    split_ifs
    · exact Vector.getElem_add ..
    · exact (add_zero 0).symm
  map_smul' t x := by
    ext i hi
    rw [RingHom.id_apply, Vector.getElem_smul, getElem_overwrite_zero, getElem_overwrite_zero]
    split_ifs
    · exact Vector.getElem_smul ..
    · exact (smul_zero t).symm

variable {is : List (Fin n)}

theorem getElem_keep (x : Vec ℝ n) (i : Nat) (hi : i < n) :
    (keep is x)[i] = if (⟨i, hi⟩ : Fin n) ∈ is then x[i] else 0 :=
  getElem_overwrite_zero is x i hi

@[simp] theorem keep_nil (x : Vec ℝ n) : keep [] x = 0 := by
  ext i hi
  rw [getElem_keep, if_neg List.not_mem_nil, Vector.getElem_zero]

/-- To keep coordinates twice is to keep them once. -/
theorem keep_keep (x : Vec ℝ n) : keep is (keep is x) = keep is x := by
  ext i hi
  rw [getElem_keep, getElem_keep]
  split_ifs <;> rfl

/-- Nothing is kept of a vector that vanishes on the coordinates. -/
theorem keep_eq_zero_iff {d : Vec ℝ n} : keep is d = 0 ↔ ∀ i ∈ is, d.entry i = 0 := by
  constructor
  · intro h i hi
    have hentry : (keep is d)[i.val] = 0 := by rw [h, Vector.getElem_zero]
    rwa [getElem_keep, if_pos hi] at hentry
  · intro h
    ext i hi
    rw [getElem_keep, Vector.getElem_zero]
    split_ifs with hmem
    · exact h _ hmem
    · rfl

/-- All is kept of a vector that vanishes off the coordinates. -/
theorem keep_eq_self_iff {d : Vec ℝ n} : keep is d = d ↔ ∀ i ∉ is, d.entry i = 0 := by
  constructor
  · intro h i hi
    have hentry : (keep is d)[i.val] = d[i.val] := by rw [h]
    rw [getElem_keep, if_neg hi] at hentry
    exact hentry.symm
  · intro h
    ext i hi
    rw [getElem_keep]
    split_ifs with hmem
    · rfl
    · exact (h _ hmem).symm

/-- To keep coordinates is an orthogonal projection. -/
theorem keep_isSymmetric : (keep is).IsSymmetric := by
  intro x y
  rw [inner_eq_dot, inner_eq_dot, dot_eq_sum, dot_eq_sum]
  refine Finset.sum_congr rfl fun i _ => ?_
  rw [entry_eq_getElem, entry_eq_getElem, entry_eq_getElem, entry_eq_getElem, Fin.getElem_fin,
    Fin.getElem_fin, Fin.getElem_fin, Fin.getElem_fin, getElem_keep, getElem_keep]
  split_ifs
  · rfl
  · rw [zero_mul, mul_zero]

/-- To overwrite coordinates is to exchange the part on them. -/
theorem overwrite_eq (x source : Vec ℝ n) :
    x.overwrite source is = x - keep is x + keep is source := by
  ext i hi
  have hentry : (x.overwrite source is)[i] = (x.overwrite source is).entry ⟨i, hi⟩ := rfl
  rw [hentry, Vector.getElem_add, Vector.getElem_sub, getElem_keep, getElem_keep]
  split_ifs with h
  · rw [entry_overwrite_of_mem h, sub_self, zero_add]
    rfl
  · rw [entry_overwrite_of_notMem h, sub_zero, add_zero]
    rfl

/-- The two parts of a vector are orthogonal. -/
theorem inner_sub_keep (x y : Vec ℝ n) : ⟪x - keep is x, keep is y⟫_ℝ = 0 := by
  rw [← keep_isSymmetric, map_sub, keep_keep, sub_self, inner_zero_left]

/-- An inner product splits into those of the two parts. -/
theorem inner_eq_add (is : List (Fin n)) (x y : Vec ℝ n) :
    ⟪x, y⟫_ℝ = ⟪x - keep is x, y - keep is y⟫_ℝ + ⟪keep is x, keep is y⟫_ℝ := by
  have hcross : ⟪x - keep is x, keep is y⟫_ℝ = 0 := inner_sub_keep x y
  have hcross' : ⟪keep is x, y - keep is y⟫_ℝ = 0 := by
    rw [real_inner_comm]
    exact inner_sub_keep y x
  -- both vectors as sums of their two parts; the mixed products vanish
  nth_rewrite 1 [← sub_add_cancel x (keep is x), ← sub_add_cancel y (keep is y)]
  rw [inner_add_left, inner_add_right, inner_add_right, hcross, hcross', add_zero, zero_add]

end Vec

end Downhill
