import Downhill.Proofs.Solve.IncompleteFactor

/-!
# Incomplete factors of diagonally dominant matrices

* `factorize_of_dominant`: a square matrix whose diagonal entries exceed the sums of the magnitudes
  in their row and column of the lower triangle has an incomplete factor without a shift. If the
  diagonal entries only do so with the last but one doubling of the increment added, a factor is
  found within the cap on attempts.

Elimination of a column keeps strict diagonal dominance, although entries outside the pattern are
dropped: a dropped entry only makes a row sum smaller (`Dominant.fill`). What elimination has left
of the matrix is its `remainder`, and the next pivot is a diagonal entry of it.
-/

namespace Downhill

variable {n : Nat}

/-! ### The lower triangle as a symmetric matrix -/

namespace Mat

variable {A : Mat ℝ n n}

/-- The symmetric matrix with the lower triangle of `A`. -/
def mirror (A : Mat ℝ n n) : Mat ℝ n n := .ofFn fun i j => A.entry (max i j) (min i j)

theorem entry_mirror_of_le {i k : Fin n} (h : k ≤ i) : A.mirror.entry i k = A.entry i k := by
  rw [mirror, entry_ofFn, max_eq_left h, min_eq_right h]

theorem mirror_isSymm (A : Mat ℝ n n) : A.mirror.IsSymm := by
  intro i j
  rw [mirror, entry_ofFn, entry_ofFn, max_comm, min_comm]

/-- The sum of the magnitudes of what the lower triangle has off the diagonal in row and column
`i`. -/
def offDiagonalSum (A : Mat ℝ n n) (i : Fin n) : ℝ :=
  (∑ j with j < i, |A.entry i j|) + ∑ j with i < j, |A.entry j i|

theorem offDiagonalSum_nonneg (A : Mat ℝ n n) (i : Fin n) : 0 ≤ A.offDiagonalSum i := by
  unfold offDiagonalSum
  exact add_nonneg (Finset.sum_nonneg fun _ _ => abs_nonneg _)
    (Finset.sum_nonneg fun _ _ => abs_nonneg _)

theorem offDiagonalSum_eq (A : Mat ℝ n n) (i : Fin n) :
    A.offDiagonalSum i = ∑ j with j ≠ i, |A.mirror.entry i j| := by
  have hsplit : (Finset.univ.filter fun j => j ≠ i) =
      Finset.univ.filter (· < i) ∪ Finset.univ.filter (i < ·) := by
    ext j
    simp [lt_or_lt_iff_ne]
  have hdisjoint : Disjoint (Finset.univ.filter (· < i)) (Finset.univ.filter (i < ·)) :=
    Finset.disjoint_filter.mpr fun j _ hji hij => lt_asymm hji hij
  rw [hsplit, Finset.sum_union hdisjoint, offDiagonalSum]
  congr 1
  · refine Finset.sum_congr rfl fun j hj => ?_
    have hji : j < i := by simpa using hj
    rw [entry_mirror_of_le hji.le]
  -- right of the diagonal the mirrored entry is taken from below it
  · refine Finset.sum_congr rfl fun j hj => ?_
    have hij : i < j := by simpa using hj
    rw [mirror_isSymm, entry_mirror_of_le hij.le]

end Mat

namespace IncompleteCholesky

variable {σ : Type} {A L : Mat ℝ n n} {shift : ℝ} {k : Fin n}

/-! ### What elimination leaves -/

/-- What the columns of `L` leave of `A + shift · I`, with nothing outside the pattern of `A`. -/
noncomputable def remainder (A : Mat ℝ n n) (shift : ℝ) (L : Mat ℝ n n) (i j : Fin n) : ℝ :=
  if i = j then A.entry i i + shift - (L * L.transpose).entry i i
  else if A.mirror.entry i j = 0 then 0
  else A.mirror.entry i j - (L * L.transpose).entry i j

theorem remainder_self (i : Fin n) :
    remainder A shift L i i = A.entry i i + shift - (L * L.transpose).entry i i := if_pos rfl

theorem remainder_of_eq_zero {i j : Fin n} (hij : i ≠ j) (hzero : A.mirror.entry i j = 0) :
    remainder A shift L i j = 0 := by
  rw [remainder, if_neg hij, if_pos hzero]

theorem remainder_of_ne_zero {i j : Fin n} (hij : i ≠ j) (hne : A.mirror.entry i j ≠ 0) :
    remainder A shift L i j = A.mirror.entry i j - (L * L.transpose).entry i j := by
  rw [remainder, if_neg hij, if_neg hne]

theorem remainder_symm (i j : Fin n) : remainder A shift L i j = remainder A shift L j i := by
  by_cases hij : i = j
  · rw [hij]
  · simp only [remainder, if_neg hij, if_neg (Ne.symm hij), A.mirror_isSymm i j,
      L.mul_transpose_isSymm i j]

namespace Filled

/-- The next pivot is what is left on the diagonal. -/
theorem remainder_eq_pivot (h : Filled A shift k L) :
    remainder A shift L k k = pivot A shift L k := by
  rw [remainder_self, h.lower.entry_mul_transpose, h.later k k le_rfl, mul_zero, add_zero, pivot,
    deflate_eq]

/-- The next column is what is left of it, divided by the root of the pivot. -/
theorem entry_fill_eq (h : Filled A shift k L) {i : Fin n} (hki : k < i) :
    (IncompleteCholesky.fill A shift L k).entry i k =
      remainder A shift L i k / √(pivot A shift L k) := by
  -- at a zero of the matrix nothing is filled in, and nothing is left
  by_cases hzero : A.entry i k = 0
  · rw [entry_fill_of_eq_zero hki hzero, h.later i k le_rfl, remainder_of_eq_zero hki.ne', zero_div]
    rwa [Mat.entry_mirror_of_le hki.le]
  · rw [entry_fill_of_ne_zero hki hzero, deflate_eq, remainder_of_ne_zero hki.ne',
      Mat.entry_mirror_of_le hki.le, h.lower.entry_mul_transpose, h.later k k le_rfl, mul_zero,
      add_zero]
    rwa [Mat.entry_mirror_of_le hki.le]

theorem mul_transpose_fill (h : Filled A shift k L) (i j : Fin n) :
    (IncompleteCholesky.fill A shift L k *
        (IncompleteCholesky.fill A shift L k).transpose).entry i j =
      (L * L.transpose).entry i j +
        (IncompleteCholesky.fill A shift L k).entry i k *
          (IncompleteCholesky.fill A shift L k).entry j k := by
  -- the products of column `k` are taken out of the sum
  have hsplit : ∀ M : Mat ℝ n n, (M * M.transpose).entry i j =
      M.entry i k * M.entry j k + ∑ l ∈ Finset.univ.erase k, M.entry i l * M.entry j l := by
    intro M
    rw [Mat.entry_mul_transpose, Finset.add_sum_erase _ (fun l => M.entry i l * M.entry j l)
      (Finset.mem_univ k)]
  rw [hsplit, hsplit L, h.later i k le_rfl, zero_mul, zero_add, add_comm]
  congr 1
  refine Finset.sum_congr rfl fun l hl => ?_
  have hlk := Finset.ne_of_mem_erase hl
  rw [entry_fill_of_ne hlk, entry_fill_of_ne hlk]

/-- The products of a new column, where the pivot is positive. -/
theorem entry_fill_mul (h : Filled A shift k L) (hpivot : 0 < pivot A shift L k) {i j : Fin n}
    (hi : k < i) (hj : k < j) :
    (IncompleteCholesky.fill A shift L k).entry i k *
        (IncompleteCholesky.fill A shift L k).entry j k =
      remainder A shift L i k * remainder A shift L k j / pivot A shift L k := by
  rw [h.entry_fill_eq hi, h.entry_fill_eq hj, div_mul_div_comm, Real.mul_self_sqrt hpivot.le,
    remainder_symm j k]

theorem remainder_fill_self (h : Filled A shift k L) (hpivot : 0 < pivot A shift L k) {i : Fin n}
    (hi : k < i) :
    remainder A shift (IncompleteCholesky.fill A shift L k) i i =
      remainder A shift L i i - |remainder A shift L i k| ^ 2 / pivot A shift L k := by
  rw [remainder_self, remainder_self, h.mul_transpose_fill, h.entry_fill_mul hpivot hi hi,
    remainder_symm k i, sq_abs, sq]
  ring

/-- Off the diagonal, elimination adds no more than the products of the new column. -/
theorem abs_remainder_fill_le (h : Filled A shift k L) (hpivot : 0 < pivot A shift L k)
    {i j : Fin n} (hi : k < i) (hj : k < j) (hij : i ≠ j) :
    |remainder A shift (IncompleteCholesky.fill A shift L k) i j| ≤
      |remainder A shift L i j| +
        |remainder A shift L i k| * |remainder A shift L k j| / pivot A shift L k := by
  by_cases hzero : A.mirror.entry i j = 0
  · -- what elimination would fill in here is dropped
    rw [remainder_of_eq_zero hij hzero, remainder_of_eq_zero hij hzero, abs_zero, zero_add]
    positivity
  · rw [remainder_of_ne_zero hij hzero, remainder_of_ne_zero hij hzero, h.mul_transpose_fill,
      h.entry_fill_mul hpivot hi hj, ← sub_sub]
    refine (abs_sub _ _).trans_eq ?_
    rw [abs_div, abs_mul, abs_of_pos hpivot]

end Filled

/-! ### Dominance -/

/-- The indices from `m` on, without `i`. -/
def others (m : Nat) (i : Fin n) : Finset (Fin n) := {j : Fin n | m ≤ j.val ∧ j ≠ i}

theorem mem_others {m : Nat} {i j : Fin n} : j ∈ others m i ↔ m ≤ j.val ∧ j ≠ i := by
  simp [others]

/-- The row of the pivot and a later row have the same other indices, but for each other. -/
theorem others_eq_insert {i : Fin n} (hki : k < i) :
    others k i = insert k (others (k + 1) i) ∧ others k k = insert i (others (k + 1) i) := by
  constructor
  all_goals
    ext j
    simp only [Finset.mem_insert, mem_others]
    omega

/-- From row and column `m` on, what is left is strictly diagonally dominant. -/
def Dominant (A : Mat ℝ n n) (shift : ℝ) (m : Nat) (L : Mat ℝ n n) : Prop :=
  ∀ i : Fin n, m ≤ i →
    ∑ j ∈ others m i, |remainder A shift L i j| < remainder A shift L i i

theorem dominant_zero (h : ∀ i, A.offDiagonalSum i < A.entry i i + shift) :
    Dominant A shift 0 .zero := by
  let Z : Mat ℝ n n := .zero
  have hproduct : ∀ i j, (Z * Z.transpose).entry i j = 0 := fun i j => by
    simp [Z, Mat.entry_mul_transpose]
  intro i _
  rw [remainder_self, hproduct, sub_zero]
  refine lt_of_le_of_lt (le_of_eq ?_) (h i)
  rw [A.offDiagonalSum_eq]
  refine Finset.sum_congr (by simp [others]) fun j hj => ?_
  have hij : i ≠ j := Ne.symm (by simpa using hj)
  -- before the first column nothing is dropped that is not zero already
  by_cases hzero : A.mirror.entry i j = 0
  · rw [remainder_of_eq_zero hij hzero, hzero]
  · rw [remainder_of_ne_zero hij hzero, hproduct, sub_zero]

/-- The estimate of an elimination step: `d` and `p` are the diagonal entries of a row and of the
row of the pivot, `x` is the entry that they share, and `a` and `b` are the other entries. -/
theorem sum_add_mul_div_lt {ι : Type} {s : Finset ι} {a b : ι → ℝ} {d p x : ℝ} (hx : 0 ≤ x)
    (hp : 0 < p) (ha : x + ∑ j ∈ s, a j < d) (hb : x + ∑ j ∈ s, b j ≤ p) :
    ∑ j ∈ s, (a j + x * b j / p) < d - x ^ 2 / p := by
  have hshare : x * ∑ j ∈ s, b j ≤ x * (p - x) := mul_le_mul_of_nonneg_left (by linarith) hx
  calc ∑ j ∈ s, (a j + x * b j / p) = ∑ j ∈ s, a j + x * (∑ j ∈ s, b j) / p := by
        rw [Finset.sum_add_distrib, Finset.mul_sum, Finset.sum_div]
    _ ≤ ∑ j ∈ s, a j + x * (p - x) / p := by gcongr
    _ = ∑ j ∈ s, a j + x - x ^ 2 / p := by
        field_simp
        ring
    _ < d - x ^ 2 / p := by linarith

namespace Dominant

theorem pivot_pos (h : Dominant A shift k L) (hL : Filled A shift k L) :
    0 < pivot A shift L k := by
  -- the pivot exceeds a sum of magnitudes
  rw [← hL.remainder_eq_pivot]
  exact (Finset.sum_nonneg fun j _ => abs_nonneg _).trans_lt (h k le_rfl)

theorem fill (h : Dominant A shift k L) (hL : Filled A shift k L) :
    Dominant A shift (k + 1) (IncompleteCholesky.fill A shift L k) := by
  intro i hi
  have hki : k < i := hi
  have hpivot := h.pivot_pos hL
  -- besides the entry that they share, the rows of `k` and `i` have the same other entries
  obtain ⟨hrow, hpivotRow⟩ := others_eq_insert hki
  have hsum := h i hki.le
  rw [hrow, Finset.sum_insert (by simp [mem_others])] at hsum
  have hpivotSum := h k le_rfl
  rw [hpivotRow, Finset.sum_insert (by simp [mem_others]), hL.remainder_eq_pivot,
    remainder_symm k i] at hpivotSum
  rw [hL.remainder_fill_self hpivot hki]
  refine lt_of_le_of_lt (Finset.sum_le_sum fun j hj => ?_)
    (sum_add_mul_div_lt (abs_nonneg _) hpivot hsum hpivotSum.le)
  obtain ⟨hkj, hji⟩ := mem_others.mp hj
  exact hL.abs_remainder_fill_le hpivot hki hkj hji.symm

end Dominant

/-! ### Existence of the factor -/

/-- A matrix that is strictly diagonally dominant with its shift has an incomplete factor. -/
theorem exists_factorAt_of_dominant (h : ∀ i, A.offDiagonalSum i < A.entry i i + shift) :
    ∃ L, factorAt A shift = some L := by
  -- dominance makes the pivots positive, and is kept by every column
  obtain ⟨L, hL, -⟩ := exists_foldlM_finRange
    (I := fun m L => Filled A shift m L ∧ Dominant A shift m L)
    ⟨filled_zero A shift, dominant_zero h⟩ fun k L hL =>
      have hpivot := hL.2.pivot_pos hL.1
      ⟨_, factorColumn_eq_some hpivot, hL.1.fill hpivot, hL.2.fill hL.1⟩
  exact ⟨L, hL⟩

/-- **Existence of incomplete factors**: for a strictly diagonally dominant matrix with a positive
diagonal the first attempt succeeds without a shift, and nothing is recorded. If the diagonal is
dominant once `increment · 2 ^ 62` is added to it, one of the first 64 attempts succeeds, and the
first one that does gives the factor. -/
theorem factorize_of_dominant (A : Mat ℝ n n) {increment : ℝ} (hincrement : 0 < increment) :
    ((∀ i, A.offDiagonalSum i < A.entry i i) → ∃ L, factorAt A 0 = some L ∧
      ∀ t, (factorize A increment : Run σ ℝ _).exec t = (.ok ⟨L, 0⟩, t)) ∧
    ((∀ i, A.offDiagonalSum i < A.entry i i + increment * 2 ^ 62) →
      ∃ f, (factorize A increment : Run σ ℝ _).Computes f ∧
        ∃ m < 64, Found A increment (firstShift A increment) m f) := by
  constructor
  · intro h
    obtain ⟨L, hL⟩ := exists_factorAt_of_dominant fun i => (add_zero (A.entry i i)).symm ▸ h i
    have hfirst : firstShift A increment = 0 :=
      firstShift_eq_zero (fun i => (A.offDiagonalSum_nonneg i).trans_lt (h i)) increment
    refine ⟨L, hL, fun t => ?_⟩
    rw [exec_factorize_of_first hincrement (by rwa [hfirst]), hfirst]
  · intro h
    -- the last shift suffices, so that there is a first one that does
    have hlast := mul_two_pow_le_shiftFrom increment (firstShift A increment) 62
    obtain ⟨L, hL⟩ := exists_factorAt_of_dominant fun i => (h i).trans_le (add_le_add_right hlast _)
    obtain ⟨m, hm, f, hf⟩ := exists_found hL
    have hcap : m < attemptCap := by
      unfold attemptCap
      omega
    exact ⟨f, hf.computes_factorize hincrement hcap, m, by omega, hf⟩

/-- The diagonal of the first matrix dominates already without a shift, that of the second one only
with a shift. -/
theorem factorize_of_dominant_arrow :
    (∃ L, factorAt (arrow 5 2 3 7) 0 = some L ∧
      ∀ t, (factorize (arrow 5 2 3 7) 3 : Run Unit ℝ _).exec t = (.ok ⟨L, 0⟩, t)) ∧
    factorAt (arrow 1 2 2 7) 0 = none ∧
      ∃ f, (factorize (arrow 1 2 2 7) 3 : Run Unit ℝ _).Computes f := by
  have hdominant : ∀ i, (arrow 5 2 3 7).offDiagonalSum i < (arrow 5 2 3 7).entry i i := by
    intro i
    fin_cases i <;> norm_num +decide [Mat.offDiagonalSum, Finset.sum_filter, Fin.sum_univ_three,
      arrow, Mat.entry]
  -- the shift of the last attempt is enough for any of these entries
  have hshifted : ∀ i, (arrow 1 2 2 7).offDiagonalSum i <
      (arrow 1 2 2 7).entry i i + 3 * 2 ^ 62 := by
    intro i
    fin_cases i <;> norm_num +decide [Mat.offDiagonalSum, Finset.sum_filter, Fin.sum_univ_three,
      arrow, Mat.entry]
  have hincrement : (0 : ℝ) < 3 := by norm_num
  obtain ⟨hfirst, -⟩ := factorize_of_dominant (σ := Unit) (arrow 5 2 3 7) hincrement
  obtain ⟨-, hlast⟩ := factorize_of_dominant (σ := Unit) (arrow 1 2 2 7) hincrement
  obtain ⟨f, hf, -⟩ := hlast hshifted
  exact ⟨hfirst hdominant, factorAt_arrow_zero, f, hf⟩

end IncompleteCholesky

end Downhill
