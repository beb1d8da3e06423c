import Downhill.Proofs.Exact.Matrix
import Downhill.Solve.IncompleteCholesky

/-!
# Exact triangular solves

Where the diagonal of a lower triangular matrix has no zero, forward and backward substitution solve
the systems with the matrix and with its transpose (`exists_solveLower`,
`exists_solveLowerTransposed`), and so an incomplete Cholesky factor solves the system with the
product of both (`IncompleteCholesky.exists_solve`).

Both fill in one entry after the other. What an entry is computed from does not change later,
because the entries that follow in the order of the substitution do not enter into it
(`exists_substitute`).
-/

namespace Downhill

variable {n : Nat}

/-! ### Sums over the smaller and the larger indices -/

theorem sum_before (k : Fin n) (f : Fin n → ℝ) :
    ((before k).map f).sum = ∑ j with j < k, f j := by
  have hnodup : (before k).Nodup := (List.nodup_finRange n).filter _
  have hset : (before k).toFinset = Finset.univ.filter (· < k) := by
    ext j
    simp [before]
  rw [← hset, List.sum_toFinset f hnodup]

theorem sum_after (k : Fin n) (f : Fin n → ℝ) :
    ((after k).map f).sum = ∑ j with k < j, f j := by
  have hnodup : (after k).Nodup := (List.nodup_finRange n).filter _
  have hset : (after k).toFinset = Finset.univ.filter (k < ·) := by
    ext j
    simp [after]
  rw [← hset, List.sum_toFinset f hnodup]

/-- A sum over all indices, split at one of them. -/
theorem sum_eq_add_add (k : Fin n) (f : Fin n → ℝ) :
    ∑ j, f j = (∑ j with j < k, f j) + f k + ∑ j with k < j, f j := by
  have hrest : (Finset.univ.filter fun j => ¬ j < k) = insert k (Finset.univ.filter (k < ·)) := by
    ext j
    simp [le_iff_eq_or_lt, eq_comm]
  rw [← Finset.sum_filter_add_sum_filter_not Finset.univ (· < k), hrest,
    Finset.sum_insert (by simp), add_assoc]

/-- What is subtracted one after the other is subtracted together. -/
theorem foldl_neg_mul_add (f g : Fin n → ℝ) (is : List (Fin n)) (a : ℝ) :
    is.foldl (fun rest j => -f j * g j + rest) a = a - (is.map fun j => g j * f j).sum := by
  induction is generalizing a with
  | nil => rw [List.foldl_nil, List.map_nil, List.sum_nil, sub_zero]
  | cons i is ih =>
    rw [List.foldl_cons, ih, List.map_cons, List.sum_cons]
    ring

namespace Mat

variable {L : Mat ℝ n n}

/-! ### Substitution -/

section Substitute

variable {entry : Vec ℝ n → Fin n → ℝ} {R : Fin n → Fin n → Prop}

/-- Substitution in an order in which later entries do not enter into earlier ones: in the end each
entry is what is computed from all of them. -/
theorem exists_substitute (hfree : ∀ i j, R i j → ∀ y t, entry (Vec.put y j t) i = entry y i)
    (hrefl : ∀ i, R i i) {is : List (Fin n)} (hdiagonal : ∀ i ∈ is, L.entry i i ≠ 0)
    (hnodup : is.Nodup) (horder : is.Pairwise R) :
    ∃ y, L.substitute entry is = some y ∧ ∀ i ∈ is, y.entry i = entry y i := by
  -- the last entry is computed from all others, so the list is taken apart from its end
  induction is using List.reverseRecOn with
  | nil => exact ⟨Vec.zero, rfl, fun i hi => absurd hi List.not_mem_nil⟩
  | append_singleton is j ih =>
    rw [List.nodup_append] at hnodup
    rw [List.pairwise_append] at horder
    rw [List.forall_mem_append, List.forall_mem_singleton] at hdiagonal
    obtain ⟨y, hy, hentries⟩ := ih hdiagonal.1 hnodup.1 horder.1
    refine ⟨y.put j (entry y j), ?_, fun i hi => ?_⟩
    · unfold substitute at hy ⊢
      rw [List.foldlM_append, hy]
      simp [hdiagonal.2]
    · rw [Vec.entry_put]
      rcases List.mem_append.mp hi with hi | hi
      -- an earlier entry stays, and what it is computed from does not involve the last one
      · have hne : j ≠ i := fun h => hnodup.2.2 i hi j (List.mem_singleton_self j) h.symm
        have hlater := horder.2.2 i hi j (List.mem_singleton_self j)
        rw [if_neg hne, hentries i hi, hfree i j hlater]
      · obtain rfl := List.mem_singleton.mp hi
        rw [if_pos rfl, hfree i i (hrefl i)]

end Substitute

/-! ### The two solves -/

/-- The matrix has no entries above the diagonal. -/
def IsLower (L : Mat ℝ n n) : Prop := ∀ i j, i < j → L.entry i j = 0

theorem forwardEntry_eq (L : Mat ℝ n n) (b y : Vec ℝ n) (i : Fin n) :
    L.forwardEntry b y i =
      (b.entry i - ∑ j with j < i, L.entry i j * y.entry j) / L.entry i i := by
  unfold forwardEntry
  rw [foldl_neg_mul_add, sum_before]

theorem backwardEntry_eq (L : Mat ℝ n n) (b y : Vec ℝ n) (i : Fin n) :
    L.backwardEntry b y i =
      (b.entry i - ∑ j with i < j, L.entry j i * y.entry j) / L.entry i i := by
  unfold backwardEntry
  rw [laneSum_eq_sum, sum_after]

/-- Replacing an entry does not change a sum that it is not a term of. -/
theorem sum_put {s : Finset (Fin n)} {j : Fin n} (hj : j ∉ s) (f : Fin n → ℝ) (y : Vec ℝ n)
    (t : ℝ) :
    ∑ i ∈ s, f i * (y.put j t).entry i = ∑ i ∈ s, f i * y.entry i := by
  refine Finset.sum_congr rfl fun i hi => ?_
  have hne : j ≠ i := fun h => hj (h ▸ hi)
  rw [Vec.entry_put, if_neg hne]

section Solves

variable (hL : L.IsLower) (hdiagonal : ∀ i, L.entry i i ≠ 0)

include hL hdiagonal

theorem exists_solveLower (b : Vec ℝ n) : ∃ y, L.solveLower b = some y ∧ L * y = b := by
  -- a forward entry does not look at later entries
  have hfree : ∀ i j : Fin n, i ≤ j → ∀ y t,
      L.forwardEntry b (Vec.put y j t) i = L.forwardEntry b y i := fun i j hij y t => by
    rw [forwardEntry_eq, forwardEntry_eq, sum_put (by simpa using hij)]
  obtain ⟨y, hy, hentries⟩ := exists_substitute hfree le_refl (fun i _ => hdiagonal i)
    (List.nodup_finRange n) ((List.pairwise_lt_finRange n).imp le_of_lt)
  refine ⟨y, hy, ?_⟩
  ext i hi
  have hentry := hentries ⟨i, hi⟩ (List.mem_finRange _)
  rw [forwardEntry_eq, eq_div_iff (hdiagonal _)] at hentry
  -- above the diagonal there is nothing to sum
  have habove : ∑ j with ⟨i, hi⟩ < j, L.entry ⟨i, hi⟩ j * y.entry j = 0 :=
    Finset.sum_eq_zero fun j hj => by rw [hL _ _ (by simpa using hj), zero_mul]
  rw [getElem_mulVec, sum_eq_add_add ⟨i, hi⟩, habove, mul_comm (L.entry _ _), hentry,
    add_sub_cancel, add_zero]
  rfl

theorem exists_solveLowerTransposed (b : Vec ℝ n) :
    ∃ y, L.solveLowerTransposed b = some y ∧ L.transposeMulVec y = b := by
  -- a backward entry does not look at earlier entries
  have hfree : ∀ i j : Fin n, j ≤ i → ∀ y t,
      L.backwardEntry b (Vec.put y j t) i = L.backwardEntry b y i := fun i j hij y t => by
    rw [backwardEntry_eq, backwardEntry_eq, sum_put (by simpa using hij)]
  obtain ⟨y, hy, hentries⟩ := exists_substitute hfree le_refl (fun i _ => hdiagonal i)
    (List.nodup_reverse.mpr (List.nodup_finRange n))
    (List.pairwise_reverse.mpr ((List.pairwise_lt_finRange n).imp le_of_lt))
  refine ⟨y, hy, ?_⟩
  ext i hi
  have hentry := hentries ⟨i, hi⟩ (List.mem_reverse.mpr (List.mem_finRange _))
  rw [backwardEntry_eq, eq_div_iff (hdiagonal _)] at hentry
  have hbelow : ∑ j with j < ⟨i, hi⟩, L.entry j ⟨i, hi⟩ * y.entry j = 0 :=
    Finset.sum_eq_zero fun j hj => by rw [hL _ _ (by simpa using hj), zero_mul]
  rw [getElem_transposeMulVec, sum_eq_add_add ⟨i, hi⟩, hbelow, mul_comm (L.entry ⟨i, hi⟩ _),
    hentry, zero_add, sub_add_cancel]
  rfl

end Solves

end Mat

/-- A lower triangular factor without a zero on the diagonal solves the system with the product of
the factor and its transpose. -/
theorem IncompleteCholesky.exists_solve {f : IncompleteCholesky ℝ n} (hL : f.factor.IsLower)
    (hdiagonal : ∀ i, f.factor.entry i i ≠ 0) (b : Vec ℝ n) :
    ∃ z, f.solve b = .ok z ∧ f.factor * (f.factor.transposeMulVec z) = b := by
  obtain ⟨y, hy, hforward⟩ := Mat.exists_solveLower hL hdiagonal b
  obtain ⟨z, hz, hbackward⟩ := Mat.exists_solveLowerTransposed hL hdiagonal y
  refine ⟨z, ?_, by rw [hbackward, hforward]⟩
  unfold solve
  simp only [hy, hz]

end Downhill
