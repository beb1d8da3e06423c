import Downhill.Proofs.Exact.Matrix
import Downhill.Proofs.Solve.Shifts
import Downhill.Proofs.Solve.Triangular

/-!
# What an incomplete Cholesky factor satisfies

* `factorize_factors`: in exact arithmetic, an incomplete factor that is found is lower triangular
  with a positive diagonal, it is zero where the matrix is zero below the diagonal, and its product
  with its transpose is the shifted matrix at all other entries on and below the diagonal. What the
  matrix has above the diagonal plays no part.

The columns that are filled in so far are described by `Filled`, for any matrix and any shift. A
column that is added (`fill`) keeps this description as long as its pivot is positive, and a column
whose pivot is not positive ends the attempt. So the factor of an attempt is the one matrix that
meets the description for all columns (`factorAt_eq_some_iff`).
-/

namespace Downhill

variable {n : Nat}

/-- An entry of the product of a lower triangular matrix with its transpose ends at a diagonal
entry. -/
theorem Mat.IsLower.entry_mul_transpose {L : Mat ℝ n n} (hL : L.IsLower) (i k : Fin n) :
    (L * L.transpose).entry i k =
      (∑ j with j < k, L.entry i j * L.entry k j) + L.entry i k * L.entry k k := by
  have hbeyond : ∑ j with k < j, L.entry i j * L.entry k j = 0 :=
    Finset.sum_eq_zero fun j hj => by rw [hL k j (by simpa using hj), mul_zero]
  rw [Mat.entry_mul_transpose, sum_eq_add_add k, hbeyond, add_zero]

namespace IncompleteCholesky

variable {σ : Type} {A L : Mat ℝ n n} {shift : ℝ} {k : Fin n}

/-! ### A column -/

theorem deflate_eq (L : Mat ℝ n n) (i k : Fin n) (a : ℝ) :
    deflate L i k a = a - ∑ j with j < k, L.entry i j * L.entry k j := by
  -- what is subtracted in turn is subtracted together
  have hfold : ∀ (js : List (Fin n)) (a : ℝ),
      js.foldl (fun rest j => rest - L.entry i j * L.entry k j) a =
        a - (js.map fun j => L.entry i j * L.entry k j).sum := by
    intro js
    induction js with
    | nil => intro a; rw [List.foldl_nil, List.map_nil, List.sum_nil, sub_zero]
    | cons j js ih => intro a; rw [List.foldl_cons, ih, List.map_cons, List.sum_cons, sub_sub]
  unfold deflate
  rw [hfold, sum_before]

/-- Deflation for a column reads only the columns before. -/
theorem deflate_congr {L L' : Mat ℝ n n} {k : Fin n}
    (h : ∀ i j, j < k → L'.entry i j = L.entry i j) (i : Fin n) (a : ℝ) :
    deflate L' i k a = deflate L i k a := by
  rw [deflate_eq, deflate_eq]
  congr 1
  refine Finset.sum_congr rfl fun j hj => ?_
  have hjk : j < k := by simpa using hj
  rw [h i j hjk, h k j hjk]

/-- The factor with column `k` filled in. -/
noncomputable def fill (A : Mat ℝ n n) (shift : ℝ) (L : Mat ℝ n n) (k : Fin n) : Mat ℝ n n :=
  .ofFn fun i j =>
    if j = k then
      if i = k then √(pivot A shift L k)
      else if k < i && !(A.entry i k == 0) then
        deflate L i k (A.entry i k) / √(pivot A shift L k)
      else L.entry i j
    else L.entry i j

theorem factorColumn_eq_some (hpivot : 0 < pivot A shift L k) :
    factorColumn A shift L k = some (fill A shift L k) := by
  unfold factorColumn
  dsimp only
  rw [if_pos (by simpa using hpivot)]
  rfl

/-- A column is filled in exactly if its pivot is positive. -/
theorem factorColumn_eq_some_iff {L' : Mat ℝ n n} :
    factorColumn A shift L k = some L' ↔ 0 < pivot A shift L k ∧ fill A shift L k = L' := by
  by_cases hpivot : 0 < pivot A shift L k
  -- the test of the pivot is the only one
  · simp [factorColumn_eq_some hpivot, hpivot]
  · simp [factorColumn, hpivot]

theorem entry_fill_of_ne {j : Fin n} (hj : j ≠ k) (i : Fin n) :
    (fill A shift L k).entry i j = L.entry i j := by
  rw [fill, Mat.entry_ofFn, if_neg hj]

theorem entry_fill_self : (fill A shift L k).entry k k = √(pivot A shift L k) := by
  rw [fill, Mat.entry_ofFn, if_pos rfl, if_pos rfl]

theorem entry_fill_of_lt {i : Fin n} (hi : i < k) : (fill A shift L k).entry i k = L.entry i k := by
  rw [fill, Mat.entry_ofFn, if_pos rfl, if_neg hi.ne, if_neg (by simp [hi.le])]

theorem entry_fill_of_eq_zero {i : Fin n} (hi : k < i) (hzero : A.entry i k = 0) :
    (fill A shift L k).entry i k = L.entry i k := by
  rw [fill, Mat.entry_ofFn, if_pos rfl, if_neg hi.ne', if_neg (by simp [hzero])]

theorem entry_fill_of_ne_zero {i : Fin n} (hi : k < i) (hzero : A.entry i k ≠ 0) :
    (fill A shift L k).entry i k = deflate L i k (A.entry i k) / √(pivot A shift L k) := by
  rw [fill, Mat.entry_ofFn, if_pos rfl, if_neg hi.ne', if_pos (by simp [hi, hzero])]

/-! ### The columns filled in so far -/

/-- What the factor of `A + shift · I` is once the first `m` columns are filled in. -/
structure Filled (A : Mat ℝ n n) (shift : ℝ) (m : Nat) (L : Mat ℝ n n) : Prop where
  /-- There is nothing above the diagonal. -/
  lower : L.IsLower
  /-- There is nothing in the columns to come. -/
  later : ∀ i k : Fin n, m ≤ k → L.entry i k = 0
  /-- Below the diagonal there is nothing where `A` has nothing. -/
  zero : ∀ i k, k < i → A.entry i k = 0 → L.entry i k = 0
  /-- The diagonal entries are positive. -/
  pos : ∀ k : Fin n, k < m → 0 < L.entry k k
  /-- The diagonal entries are the roots of the pivots. -/
  diagonal : ∀ k : Fin n, k < m → L.entry k k * L.entry k k = pivot A shift L k
  /-- Below the diagonal, elimination leaves the product with the diagonal entry. -/
  below : ∀ i k : Fin n, k < m → k < i → A.entry i k ≠ 0 →
    L.entry i k * L.entry k k = deflate L i k (A.entry i k)

theorem filled_zero (A : Mat ℝ n n) (shift : ℝ) : Filled A shift 0 .zero where
  lower _ _ _ := Mat.entry_zero ..
  later _ _ _ := Mat.entry_zero ..
  zero _ _ _ _ := Mat.entry_zero ..
  pos _ hk := absurd hk (Nat.not_lt_zero _)
  diagonal _ hk := absurd hk (Nat.not_lt_zero _)
  below _ _ hk := absurd hk (Nat.not_lt_zero _)

namespace Filled

/-- A positive pivot lets one more column be filled in. -/
theorem fill (h : Filled A shift k L) (hpivot : 0 < pivot A shift L k) :
    Filled A shift (k + 1) (fill A shift L k) := by
  have hsqrt : 0 < √(pivot A shift L k) := Real.sqrt_pos.mpr hpivot
  -- the columns up to `k` are computed from columns that stay as they are
  have hdeflate : ∀ i l : Fin n, l ≤ k → ∀ a,
      deflate (IncompleteCholesky.fill A shift L k) i l a = deflate L i l a := fun i l hl =>
    deflate_congr (fun i j hj => entry_fill_of_ne (hj.trans_le hl).ne i) i
  constructor
  case lower =>
    intro i j hij
    rcases eq_or_ne j k with rfl | hjk
    · rw [entry_fill_of_lt hij, h.lower i j hij]
    · rw [entry_fill_of_ne hjk, h.lower i j hij]
  -- the columns after `k` have not been touched
  case later =>
    intro i j hj
    have hjk : j ≠ k := fun heq => by omega
    rw [entry_fill_of_ne hjk, h.later i j (by omega)]
  case zero =>
    intro i j hij hzero
    rcases eq_or_ne j k with rfl | hjk
    · rw [entry_fill_of_eq_zero hij hzero, h.later i j le_rfl]
    · rw [entry_fill_of_ne hjk, h.zero i j hij hzero]
  case pos =>
    intro j hj
    rcases eq_or_ne j k with rfl | hjk
    · rwa [entry_fill_self]
    · rw [entry_fill_of_ne hjk]
      exact h.pos j (by omega)
  -- squaring the root gives back the pivot
  case diagonal =>
    intro j hj
    unfold pivot
    rw [hdeflate j j (by omega)]
    rcases eq_or_ne j k with rfl | hjk
    · rw [entry_fill_self, Real.mul_self_sqrt hpivot.le]
      rfl
    · rw [entry_fill_of_ne hjk]
      exact h.diagonal j (by omega)
  case below =>
    intro i j hj hij hzero
    rw [hdeflate i j (by omega)]
    rcases eq_or_ne j k with rfl | hjk
    · rw [entry_fill_of_ne_zero hij hzero, entry_fill_self, div_mul_cancel₀ _ hsqrt.ne']
    · rw [entry_fill_of_ne hjk, entry_fill_of_ne hjk]
      exact h.below i j (by omega) hij hzero

variable {m : Nat}

/-- On the diagonal the product of the factor with its transpose is the shifted matrix. -/
theorem mul_transpose_diagonal (h : Filled A shift m L) (hk : k < m) :
    (L * L.transpose).entry k k = A.entry k k + shift := by
  rw [h.lower.entry_mul_transpose, h.diagonal k hk, pivot, deflate_eq, add_sub_cancel]

/-- Below the diagonal the product of the factor with its transpose is the matrix, except at its
zeros. -/
theorem mul_transpose_below (h : Filled A shift m L) {i : Fin n} (hk : k < m) (hki : k < i)
    (hzero : A.entry i k ≠ 0) : (L * L.transpose).entry i k = A.entry i k := by
  rw [h.lower.entry_mul_transpose, h.below i k hk hki hzero, deflate_eq, add_sub_cancel]

end Filled

/-! ### All columns -/

section Loop

variable {β : Type} {I : Nat → β → Prop} {f : β → Fin n → Option β} {b b' : β}

theorem foldlM_take_succ {m : Nat} (hm : m < n) (f : β → Fin n → Option β) (b : β) :
    ((List.finRange n).take (m + 1)).foldlM f b =
      (((List.finRange n).take m).foldlM f b).bind fun b' => f b' ⟨m, hm⟩ := by
  have htake : (List.finRange n).take (m + 1) = (List.finRange n).take m ++ [⟨m, hm⟩] := by
    rw [List.take_add_one, List.getElem?_eq_getElem (by simpa using hm)]
    simp
  rw [htake, List.foldlM_append]
  simp only [List.foldlM_cons, List.foldlM_nil, bind_pure]
  rfl

/-- A loop over all indices whose steps succeed and carry an invariant on. -/
theorem exists_foldlM_finRange (hstart : I 0 b)
    (hstep : ∀ (k : Fin n) (b : β), I k b → ∃ b', f b k = some b' ∧ I (k + 1) b') :
    ∃ b', (List.finRange n).foldlM f b = some b' ∧ I n b' := by
  -- by induction on the number of steps made
  have hprefix : ∀ m ≤ n, ∃ b', ((List.finRange n).take m).foldlM f b = some b' ∧ I m b' := by
    intro m
    induction m with
    | zero => exact fun _ => ⟨b, rfl, hstart⟩
    | succ m ih =>
      intro hm
      obtain ⟨b', hfold, hb'⟩ := ih (by omega)
      obtain ⟨b'', hnext, hb''⟩ := hstep ⟨m, hm⟩ b' hb'
      exact ⟨b'', by rw [foldlM_take_succ hm, hfold]; exact hnext, hb''⟩
  -- all steps are the first `n` ones
  have hall := hprefix n le_rfl
  rwa [List.take_of_length_le (by simp)] at hall

/-- A loop over all indices that has succeeded, where every step carries an invariant on. -/
theorem invariant_of_foldlM_finRange (hstart : I 0 b)
    (hstep : ∀ (k : Fin n) (b b' : β), I k b → f b k = some b' → I (k + 1) b')
    (h : (List.finRange n).foldlM f b = some b') : I n b' := by
  have hprefix : ∀ m ≤ n, ∀ b', ((List.finRange n).take m).foldlM f b = some b' → I m b' := by
    intro m
    induction m with
    | zero =>
      intro _ b' hb'
      obtain rfl : b = b' := by simpa using hb'
      exact hstart
    | succ m ih =>
      intro hm b'' hfold
      rw [foldlM_take_succ hm] at hfold
      obtain ⟨b', hbefore, hlast⟩ := Option.bind_eq_some_iff.mp hfold
      exact hstep ⟨m, hm⟩ b' b'' (ih (by omega) b' hbefore) hlast
  exact hprefix n le_rfl b' (by rwa [List.take_of_length_le (by simp)])

end Loop

/-- Of a factor that was found, all columns are filled in. -/
theorem filled_of_factorAt (h : factorAt A shift = some L) : Filled A shift n L := by
  refine invariant_of_foldlM_finRange (filled_zero A shift) (fun k L L' hL hcolumn => ?_) h
  obtain ⟨hpivot, rfl⟩ := factorColumn_eq_some_iff.mp hcolumn
  exact hL.fill hpivot

/-- The first `m` columns of a matrix. -/
def firstColumns (L : Mat ℝ n n) (m : Nat) : Mat ℝ n n :=
  .ofFn fun i j => if j < m then L.entry i j else 0

theorem entry_firstColumns_of_lt {m : Nat} {j : Fin n} (hj : j < m) (i : Fin n) :
    (firstColumns L m).entry i j = L.entry i j := by
  rw [firstColumns, Mat.entry_ofFn, if_pos hj]

theorem entry_firstColumns_of_le {m : Nat} {j : Fin n} (hj : m ≤ j) (i : Fin n) :
    (firstColumns L m).entry i j = 0 := by
  rw [firstColumns, Mat.entry_ofFn, if_neg (by omega)]

/-- Where all columns can be filled in, each one follows from those before it. -/
theorem Filled.factorColumn_firstColumns (h : Filled A shift n L) (k : Fin n) :
    factorColumn A shift (firstColumns L k) k = some (firstColumns L (k + 1)) := by
  have hdeflate : ∀ i a, deflate (firstColumns L k) i k a = deflate L i k a :=
    deflate_congr fun i j hj => entry_firstColumns_of_lt hj i
  have hpivot : pivot A shift (firstColumns L k) k = L.entry k k * L.entry k k := by
    rw [h.diagonal k k.isLt, pivot, pivot, hdeflate]
  have hpos := h.pos k k.isLt
  have hsqrt : √(pivot A shift (firstColumns L k) k) = L.entry k k := by
    rw [hpivot, Real.sqrt_mul_self hpos.le]
  refine factorColumn_eq_some_iff.mpr ⟨by rw [hpivot]; positivity, Mat.ext fun i j => ?_⟩
  -- columns before `k` are there already, and those after it are still zero
  rcases lt_trichotomy j k with hj | rfl | hj
  · rw [entry_fill_of_ne hj.ne, entry_firstColumns_of_lt hj, entry_firstColumns_of_lt (by omega)]
  · rw [entry_firstColumns_of_lt (by omega)]
    -- in column `k`: above the diagonal, on it, and below it, where zeros of `A` are left out
    rcases lt_trichotomy i j with hi | rfl | hi
    · rw [entry_fill_of_lt hi, entry_firstColumns_of_le le_rfl, h.lower i j hi]
    · rw [entry_fill_self, hsqrt]
    · by_cases hzero : A.entry i j = 0
      · rw [entry_fill_of_eq_zero hi hzero, entry_firstColumns_of_le le_rfl, h.zero i j hi hzero]
      · rw [entry_fill_of_ne_zero hi hzero, hsqrt, hdeflate, ← h.below i j j.isLt hi hzero,
          mul_div_cancel_right₀ _ hpos.ne']
  · rw [entry_fill_of_ne hj.ne', entry_firstColumns_of_le hj.le, entry_firstColumns_of_le hj]

/-- An attempt finds the incomplete factor of its shift, if there is one. -/
theorem factorAt_eq_some_iff : factorAt A shift = some L ↔ Filled A shift n L := by
  refine ⟨filled_of_factorAt, fun h => ?_⟩
  have hstart : (Mat.zero : Mat ℝ n n) = firstColumns L 0 :=
    Mat.ext fun i j => by rw [Mat.entry_zero, entry_firstColumns_of_le (Nat.zero_le _)]
  have hend : firstColumns L n = L := Mat.ext fun i j => entry_firstColumns_of_lt j.isLt i
  -- the attempt fills in the first columns of `L`, one after the other
  obtain ⟨L', hL', rfl⟩ := exists_foldlM_finRange (I := fun m L' => L' = firstColumns L m)
    (f := factorColumn A shift) hstart
    fun k L' hL' => ⟨_, hL' ▸ h.factorColumn_firstColumns k, rfl⟩
  rwa [hend] at hL'

/-! ### The factor -/

/-- Where there is a factor, the entries of the matrix are bounded by the shifted diagonal. -/
theorem Filled.sq_entry_le (h : Filled A shift n L) {i : Fin n} (hki : k < i)
    (hne : A.entry i k ≠ 0) : A.entry i k ^ 2 ≤ (A.entry i i + shift) * (A.entry k k + shift) := by
  rw [← h.mul_transpose_below k.isLt hki hne, ← h.mul_transpose_diagonal i.isLt,
    ← h.mul_transpose_diagonal k.isLt]
  simp only [Mat.entry_mul_transpose, ← sq]
  exact Finset.sum_mul_sq_le_sq_mul_sq ..

/-- What an incomplete Cholesky factor of `A` is: `L Lᵀ = A + shift · I` on the pattern of `A`. -/
structure Factors (f : IncompleteCholesky ℝ n) (A : Mat ℝ n n) : Prop where
  /-- The shift is not negative. -/
  shift_nonneg : 0 ≤ f.shift
  /-- The factor is lower triangular. -/
  lower : f.factor.IsLower
  /-- Its diagonal is positive. -/
  pos : ∀ k, 0 < f.factor.entry k k
  /-- It has no entries where the matrix has none. -/
  zero : ∀ i k, k < i → A.entry i k = 0 → f.factor.entry i k = 0
  /-- Below the diagonal the product is the matrix, wherever that is not zero. -/
  below : ∀ i k, k < i → A.entry i k ≠ 0 →
    (f.factor * f.factor.transpose).entry i k = A.entry i k
  /-- On the diagonal the product is the shifted matrix. -/
  diagonal : ∀ i, (f.factor * f.factor.transpose).entry i i = A.entry i i + f.shift

variable {f : IncompleteCholesky ℝ n}

theorem Filled.factors (h : Filled A f.shift n f.factor) (hshift : 0 ≤ f.shift) : f.Factors A where
  shift_nonneg := hshift
  lower := h.lower
  pos k := h.pos k k.isLt
  zero := h.zero
  below _ k hki hne := h.mul_transpose_below k.isLt hki hne
  diagonal i := h.mul_transpose_diagonal i.isLt

theorem Factors.filled (h : f.Factors A) : Filled A f.shift n f.factor where
  lower := h.lower
  later _ k hk := absurd hk (by omega)
  zero := h.zero
  pos k _ := h.pos k
  diagonal k _ := by
    rw [pivot, deflate_eq, eq_sub_iff_add_eq', ← h.lower.entry_mul_transpose, h.diagonal]
  below i k _ hki hne := by
    rw [deflate_eq, eq_sub_iff_add_eq', ← h.lower.entry_mul_transpose, h.below i k hki hne]

theorem Found.factors {increment : ℝ} (hincrement : 0 < increment) {m : Nat}
    (h : Found A increment (firstShift A increment) m f) : f.Factors A := by
  refine (filled_of_factorAt h.factorAt_eq).factors ?_
  rw [h.shift_eq]
  exact shiftFrom_nonneg hincrement (firstShift_nonneg hincrement) m

/-- **Incomplete factors**: what a factorization of a square matrix finds, after however many
attempts, is an incomplete Cholesky factor of the matrix. The factorization is the same for every
matrix that differs from it above the diagonal only. -/
theorem factorize_factors {increment : ℝ}
    (h : (factorize A increment : Run σ ℝ _).Yields f) :
    f.Factors A ∧ ∀ B : Mat ℝ n n, (∀ i k, k ≤ i → B.entry i k = A.entry i k) →
      (factorize B increment : Run σ ℝ _) = factorize A increment := by
  obtain ⟨hincrement, m, -, hfound⟩ := found_of_yields_factorize h
  exact ⟨hfound.factors hincrement, fun B hB => factorize_congr hB increment⟩

/-- A matrix with entries in the first column and on the diagonal, where elimination of the first
column would fill in the zero in the last row. Above the diagonal it has `u`. -/
def arrow (a b d u : ℝ) : Mat ℝ 3 3 := ⟨#v[#v[a, u, u], #v[b, d, u], #v[b, 0, d]]⟩

theorem arrow_factors :
    (⟨arrow 2 1 2 0, 3⟩ : IncompleteCholesky ℝ 3).Factors (arrow 1 2 2 7) := by
  constructor
  case shift_nonneg => norm_num
  case lower =>
    intro i j hij
    fin_cases i <;> fin_cases j <;> first | rfl | exact absurd hij (by decide)
  case pos =>
    intro k
    fin_cases k <;> norm_num [arrow, Mat.entry]
  -- the only zero below the diagonal is in the last row
  case zero =>
    intro i k hki hzero
    fin_cases i <;> fin_cases k <;> simp_all [arrow, Mat.entry]
  case below =>
    intro i k hki hne
    rw [Mat.entry_mul_transpose]
    fin_cases i <;> fin_cases k <;> simp_all [arrow, Mat.entry, Fin.sum_univ_three]
  case diagonal =>
    intro i
    rw [Mat.entry_mul_transpose]
    fin_cases i <;> norm_num [arrow, Mat.entry, Fin.sum_univ_three]

/-- Without a shift there is no factor, because the second entry of the first column is too large. -/
theorem factorAt_arrow_zero : factorAt (arrow 1 2 2 7) 0 = none := by
  by_contra hne
  obtain ⟨L, hL⟩ := Option.ne_none_iff_exists'.mp hne
  have hminor : (2 : ℝ) ^ 2 ≤ (2 + 0) * (1 + 0) :=
    (filled_of_factorAt hL).sq_entry_le (i := 1) (k := 0) (by decide) two_ne_zero
  norm_num at hminor

/-- So the second attempt gives the factor, with the increment as its shift. -/
theorem found_arrow :
    Found (arrow 1 2 2 7) 3 (firstShift (arrow 1 2 2 7) 3) 1 ⟨arrow 2 1 2 0, 3⟩ := by
  -- the diagonal is positive, so the search starts without a shift
  have hfirst : firstShift (arrow 1 2 2 7) 3 = 0 := firstShift_eq_zero (fun i => by
    fin_cases i <;> norm_num [arrow, Mat.entry]) 3
  refine ⟨?_, factorAt_eq_some_iff.mpr arrow_factors.filled, fun i hi => ?_⟩
  · rw [hfirst, shiftFrom_succ, Scalar.max_real]
    norm_num [shiftFrom]
  · obtain rfl : i = 0 := by omega
    rw [hfirst]
    exact factorAt_arrow_zero

/-- Outside the pattern the product is not the matrix: elimination leaves a one at the zero in the
last row. The entries above the diagonal may as well be zero. -/
theorem factorize_factors_arrow :
    (factorize (arrow 1 2 2 7) 3 : Run Unit ℝ _).Yields ⟨arrow 2 1 2 0, 3⟩ ∧
      (⟨arrow 2 1 2 0, 3⟩ : IncompleteCholesky ℝ 3).Factors (arrow 1 2 2 7) ∧
      (arrow 1 2 2 7).entry 2 1 = 0 ∧
      (arrow 2 1 2 0 * (arrow 2 1 2 0).transpose).entry 2 1 = 1 ∧
      (factorize (arrow 1 2 2 0) 3 : Run Unit ℝ _) = factorize (arrow 1 2 2 7) 3 := by
  have hyields : (factorize (arrow 1 2 2 7) 3 : Run Unit ℝ _).Yields ⟨arrow 2 1 2 0, 3⟩ :=
    (found_arrow.computes_factorize (by norm_num) (by decide)).yields
  obtain ⟨hfactors, hcongr⟩ := factorize_factors hyields
  refine ⟨hyields, hfactors, rfl, ?_, hcongr _ fun i k hki => ?_⟩
  · rw [Mat.entry_mul_transpose, Fin.sum_univ_three]
    norm_num [arrow, Mat.entry]
  · fin_cases i <;> fin_cases k <;> first | rfl | exact absurd hki (by decide)

end IncompleteCholesky

end Downhill
