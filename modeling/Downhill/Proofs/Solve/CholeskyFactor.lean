import Downhill.Proofs.Solve.Certificate
import Downhill.Proofs.Solve.IncompleteFactor

/-!
# Exact Cholesky factors

Where the zeros of `A` do not get filled in (`Mat.NoFill`), which is the case for a matrix without
zeros below the diagonal and for any matrix of order at most two, the incomplete factor is the
Cholesky factor. Its pivots are positive if `A` is positive definite, because each one is the value
of the quadratic form at some vector (`Filled.exists_dot_eq_pivot`). So the first attempt finds a
factor with `L Lᵀ = A` (`exists_factorAt`), and preconditioned conjugate gradients end with the
exact solution before their first step (`ConjugateGradient.exists_computes_solve`).

* `ConjugateGradient.solves_dense_directly`: both for every positive definite matrix without zeros
  below the diagonal.
-/

namespace Downhill

variable {n : Nat}

namespace Mat

variable {A L : Mat ℝ n n}

/-! ### Products of a lower triangular matrix with its transpose -/

/-- A vector that is orthogonal to the columns before `k`, with zeros below entry `k`. -/
theorem IsLower.exists_transposeMulVec_eq_zero (hL : L.IsLower) (k : Fin n)
    (hdiagonal : ∀ l, l < k → L.entry l l ≠ 0) (hlater : ∀ i l, k ≤ l → L.entry i l = 0) :
    ∃ v : Vec ℝ n, v.entry k = 1 ∧ (∀ i, k < i → v.entry i = 0) ∧ L.transposeMulVec v = 0 := by
  -- with the columns from `k` on replaced by unit vectors, the matrix has no zero on the diagonal
  let K : Mat ℝ n n := .ofFn fun i l => if l < k then L.entry i l else if i = l then 1 else 0
  have hbefore : ∀ i l, l < k → K.entry i l = L.entry i l := fun i l hl => by
    rw [Mat.entry_ofFn, if_pos hl]
  have hunit : ∀ i l, k ≤ l → K.entry i l = if i = l then 1 else 0 := fun i l hl => by
    rw [Mat.entry_ofFn, if_neg hl.not_gt]
  have hKlower : K.IsLower := fun i l hil => by
    rcases lt_or_ge l k with hl | hl
    · rw [hbefore i l hl, hL i l hil]
    · rw [hunit i l hl, if_neg hil.ne]
  have hKdiagonal : ∀ l, K.entry l l ≠ 0 := fun l => by
    rcases lt_or_ge l k with hl | hl
    · rw [hbefore l l hl]
      exact hdiagonal l hl
    · rw [hunit l l hl, if_pos rfl]
      exact one_ne_zero
  -- the solution for the unit vector `k` of the transposed system
  obtain ⟨v, -, hv⟩ := exists_solveLowerTransposed hKlower hKdiagonal
    (Vector.ofFn fun l => if l = k then 1 else 0)
  have hsum : ∀ l : Fin n, ∑ i, K.entry i l * v.entry i = if l = k then 1 else 0 := fun l => by
    rw [← getElem_transposeMulVec K v l l.isLt, hv, Vector.getElem_ofFn]
  have hentry : ∀ l, k ≤ l → v.entry l = if l = k then 1 else 0 := fun l hl => by
    rw [← hsum l, Finset.sum_eq_single l, hunit l l hl, if_pos rfl, one_mul]
    · intro i _ hi
      rw [hunit i l hl, if_neg hi, zero_mul]
    · exact fun h => absurd (Finset.mem_univ l) h
  refine ⟨v, by rw [hentry k le_rfl, if_pos rfl], fun i hi => ?_, ?_⟩
  · rw [hentry i hi.le, if_neg hi.ne']
  · ext l hl
    rw [getElem_transposeMulVec, Vector.getElem_zero]
    -- the columns before `k` are those of `L`, and the later ones of `L` are zero
    rcases lt_or_ge ⟨l, hl⟩ k with hlk | hlk
    · simp only [← hbefore _ _ hlk]
      rw [hsum, if_neg hlk.ne]
    · exact Finset.sum_eq_zero fun i _ => by rw [hlater i _ hlk, zero_mul]

/-! ### Matrices without fill -/

/-- Below the diagonal, elimination does not fill in a zero: it meets no pair of entries that are
both nonzero. -/
def NoFill (A : Mat ℝ n n) : Prop :=
  ∀ i k, k < i → A.entry i k = 0 → ∀ j, j < k → A.entry i j = 0 ∨ A.entry k j = 0

theorem noFill_of_le_two (hn : n ≤ 2) (A : Mat ℝ n n) : A.NoFill := by
  intro i k hki _ j hjk
  omega

theorem noFill_of_ne_zero (hA : ∀ i k, k < i → A.entry i k ≠ 0) : A.NoFill :=
  fun i k hki hzero => absurd hzero (hA i k hki)

theorem IsPosDef.entry_self_pos (hA : A.IsPosDef) (i : Fin n) : 0 < A.entry i i := by
  -- a diagonal entry is the form at a unit vector
  rw [entry_eq_dot]
  exact hA.pos _ (Vec.unit_ne_zero i)

end Mat

namespace IncompleteCholesky

variable {σ : Type} {A L : Mat ℝ n n} {shift : ℝ} {k : Fin n}

/-! ### Pivots -/

namespace Filled

variable {m : Nat}

/-- Without fill, the product vanishes at the zeros of the matrix as well. -/
theorem mul_transpose_zero (h : Filled A shift m L) (hA : A.NoFill) {i : Fin n} (hki : k < i)
    (hzero : A.entry i k = 0) : (L * L.transpose).entry i k = 0 := by
  rw [h.lower.entry_mul_transpose, h.zero i k hki hzero, zero_mul, add_zero]
  refine Finset.sum_eq_zero fun j hj => ?_
  have hjk : j < k := by simpa using hj
  -- in each product one of the two factors is a zero of the matrix
  rcases hA i k hki hzero j hjk with hij | hkj
  · rw [h.zero i j (hjk.trans hki) hij, zero_mul]
  · rw [h.zero k j hjk hkj, mul_zero]

variable (hfill : A.NoFill)

include hfill

/-- Without a shift and without fill, the product with the transpose is the matrix. -/
theorem mul_transpose_entry (h : Filled A 0 m L) {i : Fin n} (hk : k < m) (hki : k ≤ i) :
    (L * L.transpose).entry i k = A.entry i k := by
  rcases hki.eq_or_lt with rfl | hki
  · rw [h.mul_transpose_diagonal hk, add_zero]
  · by_cases hzero : A.entry i k = 0
    · rw [h.mul_transpose_zero hfill hki hzero, hzero]
    · exact h.mul_transpose_below hk hki hzero

/-- If all columns are filled in, the product is the whole matrix. -/
theorem mul_transpose_eq (h : Filled A 0 n L) (hA : A.IsSymm) : L * L.transpose = A := by
  ext i k
  -- above the diagonal both matrices are symmetric
  rcases le_total k i with hki | hik
  · exact h.mul_transpose_entry hfill k.isLt hki
  · rw [Mat.mul_transpose_isSymm, hA i k]
    exact h.mul_transpose_entry hfill i.isLt hik

/-- Up to row and column `k` the matrix is the product with the transpose, plus the pivot in the
last place. -/
theorem entry_eq (h : Filled A 0 k L) (hA : A.IsSymm) {i j : Fin n} (hi : i ≤ k) (hj : j ≤ k) :
    A.entry i j =
      (L * L.transpose).entry i j + if i = k ∧ j = k then pivot A 0 L k else 0 := by
  -- both sides are symmetric
  wlog hji : j ≤ i generalizing i j
  · rw [hA i j, this hj hi (le_of_not_ge hji), Mat.mul_transpose_isSymm]
    simp only [and_comm]
  rcases hj.eq_or_lt with rfl | hjk
  · obtain rfl := le_antisymm hi hji
    rw [if_pos ⟨rfl, rfl⟩, h.lower.entry_mul_transpose, h.later i i le_rfl, mul_zero, add_zero,
      pivot, deflate_eq, add_zero, add_sub_cancel]
  · rw [if_neg fun heq => hjk.ne heq.2, h.mul_transpose_entry hfill hjk hji, add_zero]

/-- At a vector that the transposed factor sends to zero, the first entries of the product are those
of a multiple of a unit vector. -/
theorem entry_mulVec (h : Filled A 0 k L) (hA : A.IsSymm) {v : Vec ℝ n} (hone : v.entry k = 1)
    (hzero : ∀ i, k < i → v.entry i = 0) (hcolumns : L.transposeMulVec v = 0) {i : Fin n}
    (hi : i ≤ k) : (A * v).entry i = if i = k then pivot A 0 L k else 0 := by
  -- beyond `k` the vector vanishes, and up to `k` the entries of `A` are known
  have hterm : ∀ j, A.entry i j * v.entry j = (L * L.transpose).entry i j * v.entry j +
      if j = k then (if i = k then pivot A 0 L k else 0) else 0 := fun j => by
    rcases lt_trichotomy j k with hj | rfl | hj
    · rw [h.entry_eq hfill hA hi hj.le, if_neg hj.ne, if_neg fun heq => hj.ne heq.2, add_zero,
        add_zero]
    · rw [h.entry_eq hfill hA hi le_rfl, hone, mul_one, mul_one, if_pos rfl]
      simp only [and_true]
    · rw [hzero j hj, mul_zero, mul_zero, if_neg hj.ne', add_zero]
  have hproduct : ∑ j, (L * L.transpose).entry i j * v.entry j = 0 := by
    rw [← Mat.getElem_mulVec (L * L.transpose) v i i.isLt, Mat.mul_transpose_mulVec, hcolumns,
      ← Mat.toLin_apply, map_zero, Vector.getElem_zero]
  rw [Vec.entry_eq_getElem, Fin.getElem_fin, Mat.getElem_mulVec]
  simp only [Fin.eta, hterm]
  rw [Finset.sum_add_distrib, hproduct, zero_add, Finset.sum_ite_eq' Finset.univ k,
    if_pos (Finset.mem_univ k)]

/-- The pivot is the value of the quadratic form at a nonzero vector. -/
theorem exists_dot_eq_pivot (h : Filled A 0 k L) (hA : A.IsSymm) :
    ∃ v : Vec ℝ n, v ≠ 0 ∧ v.dot (A * v) = pivot A 0 L k := by
  obtain ⟨v, hone, hzero, hcolumns⟩ := h.lower.exists_transposeMulVec_eq_zero k
    (fun l hl => (h.pos l hl).ne') h.later
  have himage : ∀ i, i ≤ k → (A * v).entry i = if i = k then pivot A 0 L k else 0 := fun i =>
    h.entry_mulVec hfill hA hone hzero hcolumns
  refine ⟨v, fun hv => one_ne_zero (α := ℝ) ?_, ?_⟩
  · rw [← hone, hv]
    exact Vector.getElem_zero ..
  · -- before `k` the image vanishes, and after `k` the vector
    rw [Vec.dot_eq_sum, Finset.sum_eq_single k, hone, one_mul, himage k le_rfl, if_pos rfl]
    · intro i _ hik
      rcases lt_or_gt_of_ne hik with hi | hi
      · rw [himage i hi.le, if_neg hik, mul_zero]
      · rw [hzero i hi, zero_mul]
    · exact fun hk => absurd (Finset.mem_univ k) hk

theorem pivot_pos (h : Filled A 0 k L) (hA : A.IsPosDef) : 0 < pivot A 0 L k := by
  obtain ⟨v, hv, hpivot⟩ := h.exists_dot_eq_pivot hfill hA.symm
  rw [← hpivot]
  exact hA.pos v hv

end Filled

/-! ### The whole factor -/

/-- **Exact factors**: where a positive definite matrix has no fill, the attempt without a shift
finds its Cholesky factor. -/
theorem exists_factorAt (hA : A.IsPosDef) (hfill : A.NoFill) :
    ∃ L, factorAt A 0 = some L ∧ L.IsLower ∧ (∀ k, 0 < L.entry k k) ∧ L * L.transpose = A := by
  obtain ⟨L, hfactor, hL⟩ := exists_foldlM_finRange (filled_zero A 0) fun k L hL =>
    ⟨fill A 0 L k, factorColumn_eq_some (hL.pivot_pos hfill hA), hL.fill (hL.pivot_pos hfill hA)⟩
  exact ⟨L, hfactor, hL.lower, fun k => hL.pos k k.isLt, hL.mul_transpose_eq hfill hA.symm⟩

/-- Where the diagonal is positive, a factor without a shift is the one that is given. -/
theorem computes_factorize {increment : ℝ} (hincrement : 0 < increment)
    (hpos : ∀ i, 0 < A.entry i i) (hfactor : factorAt A 0 = some L) :
    (factorize A increment : Run σ ℝ _).Computes ⟨L, 0⟩ := by
  have hfirst := firstShift_eq_zero hpos increment
  intro t
  refine ⟨t, ?_⟩
  rw [exec_factorize_of_first hincrement (by rwa [hfirst]), hfirst]

/-- As a preconditioner a factor solves, if the lengths match. -/
theorem preconditioner_apply {α : Type} [Scalar α] (f : IncompleteCholesky α n) (r : Vec α n) :
    (f.preconditioner n).apply r = f.solve r := by
  show (do let y ← (do let b ← r.ofLength n; f.solve b); y.fit n : Except (Failure α) _) = _
  rw [Vec.ofLength_self]
  simp only [Vec.fit_self]
  exact bind_pure (f.solve r)

end IncompleteCholesky

/-- **Direct solves**: where a positive definite matrix has no fill, preconditioned conjugate
gradients give the exact solution without a step. -/
theorem ConjugateGradient.exists_computes_solve {σ : Type} {config : ConjugateGradient.Config ℝ}
    (htol : 0 < config.tolerance) {A : Mat ℝ n n} (hA : A.IsPosDef) (hfill : A.NoFill)
    (b : Vec ℝ n) :
    ∃ x, A * x = b ∧ (solve config A b : Run σ ℝ _).Computes ⟨x, 0, 0⟩ := by
  obtain ⟨L, hfactor, hL, hpos, hproduct⟩ := IncompleteCholesky.exists_factorAt hA hfill
  have hsolves := IncompleteCholesky.exists_solve (f := ⟨L, 0⟩) hL fun i => (hpos i).ne'
  -- the first point is the preconditioned right-hand side, and this is the solution
  obtain ⟨x, hx, hxb⟩ := hsolves b
  obtain ⟨z, hz, -⟩ := hsolves (A * x - b)
  rw [← IncompleteCholesky.preconditioner_apply] at hx hz
  replace hxb : A * x = b := by
    rw [← hproduct, Mat.mul_transpose_mulVec]
    exact hxb
  have hnorm : (A * x - b).norm = 0 := by rw [hxb, sub_self, Vec.norm_eq, norm_zero]
  have hsolve := computes_solveWith_of_accepts (σ := σ) htol hx hz rfl (hnorm.trans_le htol.le)
  rw [hnorm] at hsolve
  refine ⟨x, hxb, ?_⟩
  exact (Run.computes_liftM (Config.validate_eq_ok.mpr htol)).bind
    ((Run.computes_liftM A.ofOrder_self).bind
      ((IncompleteCholesky.computes_factorize IncompleteCholesky.standardIncrement_pos
        hA.entry_self_pos hfactor).bind hsolve))

namespace ConjugateGradient

variable {σ : Type}

/-- **Dense systems**: for a positive definite matrix without zeros below the diagonal, the
factorization finds the Cholesky factor without a shift, and a solve to any positive tolerance gives
the exact solution of every system without a step. -/
theorem solves_dense_directly {A : Mat ℝ n n} (hA : A.IsPosDef)
    (hdense : ∀ i k, k < i → A.entry i k ≠ 0) :
    (∃ L, (IncompleteCholesky.factorize A IncompleteCholesky.standardIncrement :
        Run σ ℝ _).Computes ⟨L, 0⟩ ∧
      L.IsLower ∧ (∀ k, 0 < L.entry k k) ∧ L * L.transpose = A) ∧
    ∀ (config : Config ℝ) (b : Vec ℝ n), 0 < config.tolerance →
      ∃ x, A * x = b ∧ (solve config A b : Run σ ℝ _).Computes ⟨x, 0, 0⟩ := by
  have hfill := Mat.noFill_of_ne_zero hdense
  obtain ⟨L, hfactor, hL, hpos, hproduct⟩ := IncompleteCholesky.exists_factorAt hA hfill
  have hcomputes := IncompleteCholesky.computes_factorize (σ := σ)
    IncompleteCholesky.standardIncrement_pos hA.entry_self_pos hfactor
  exact ⟨⟨L, hcomputes, hL, hpos, hproduct⟩, fun _ b htol => exists_computes_solve htol hA hfill b⟩

/-- The matrix with `d` on the diagonal and ones elsewhere. It is positive definite for `1 < d`, but
its diagonal only dominates for `2 < d`. -/
def offDiagonalOnes (d : ℝ) : Mat ℝ 3 3 := ⟨#v[#v[d, 1, 1], #v[1, d, 1], #v[1, 1, d]]⟩

theorem offDiagonalOnes_isPosDef {d : ℝ} (hd : 1 < d) : (offDiagonalOnes d).IsPosDef where
  symm i k := by
    fin_cases i <;> fin_cases k <;> rfl
  pos x hx := by
    have hform : x.dot (offDiagonalOnes d * x) =
        (x.entry 0 + x.entry 1 + x.entry 2) ^ 2 + (d - 1) * x.dot x := by
      rw [Mat.dot_mulVec, Vec.dot_eq_sum]
      simp [Fin.sum_univ_three, offDiagonalOnes, Mat.entry]
      ring
    have hself : 0 < x.dot x := by
      rw [← Vec.inner_eq_dot]
      exact real_inner_self_pos.mpr hx
    have hexcess : 0 < d - 1 := by linarith
    rw [hform]
    positivity

/-- A diagonal of twos is enough. All rows sum to four, and the solution with all entries one is
found even where no step is allowed. -/
theorem solves_dense_directly_three :
    (∃ L, (IncompleteCholesky.factorize (offDiagonalOnes 2) IncompleteCholesky.standardIncrement :
        Run Unit ℝ _).Computes ⟨L, 0⟩ ∧
      L.IsLower ∧ (∀ k, 0 < L.entry k k) ∧ L * L.transpose = offDiagonalOnes 2) ∧
    (solve { tolerance := 1, maxIterations := some 0 } (offDiagonalOnes 2) #v[4, 4, 4] :
      Run Unit ℝ _).Computes ⟨#v[1, 1, 1], 0, 0⟩ := by
  have hdense : ∀ i k : Fin 3, k < i → (offDiagonalOnes 2).entry i k ≠ 0 := by
    intro i k _
    fin_cases i <;> fin_cases k <;> norm_num [offDiagonalOnes, Mat.entry]
  have hposDef := offDiagonalOnes_isPosDef one_lt_two
  obtain ⟨hfactor, hsolves⟩ := solves_dense_directly (σ := Unit) hposDef hdense
  obtain ⟨x, hx, hsolve⟩ :=
    hsolves { tolerance := 1, maxIterations := some 0 } #v[4, 4, 4] one_pos
  have hrows : offDiagonalOnes 2 * (#v[1, 1, 1] : Vec ℝ 3) = #v[4, 4, 4] := by
    ext i hi
    rw [Mat.getElem_mulVec, Fin.sum_univ_three]
    obtain rfl | rfl | rfl : i = 0 ∨ i = 1 ∨ i = 2 := by omega
    all_goals norm_num [offDiagonalOnes, Mat.entry]
  -- a definite matrix has one solution only
  obtain rfl : x = #v[1, 1, 1] := hposDef.mulVec_injective (hx.trans hrows.symm)
  exact ⟨hfactor, hsolve⟩

end ConjugateGradient

end Downhill
