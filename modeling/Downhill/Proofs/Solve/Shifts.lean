import Downhill.Proofs.Run
import Downhill.Proofs.Scalar
import Downhill.Solve.IncompleteCholesky
import Mathlib.Logic.Function.Iterate

/-!
# The shifts of an incomplete factorization

An incomplete factorization tries one shift of the diagonal after the other. `Found A increment s m
f` says that, of the shifts that grow from `s`, number `m` is the first one that admits a factor,
and that `f` is this factor.

* `Found.computes_factorize` and `found_of_yields_factorize`: a factorization gives the first factor
  that there is within its cap on attempts, and nothing else.
* `factorize_congr`: it only reads the lower triangle of its matrix.
* `mul_two_pow_le_shiftFrom`: in exact arithmetic the shifts double, so that they soon exceed every
  bound; they are never negative (`firstShift_nonneg`, `shiftFrom_nonneg`).
-/

namespace Downhill.IncompleteCholesky

variable {σ α : Type} [Scalar α] {n : Nat} {A B L : Mat α n n} {increment s : α}
  {f : IncompleteCholesky α n}

/-! ### The search for a shift -/

/-- The shift after `m` failed attempts, the first one with shift `s`. -/
def shiftFrom (increment s : α) (m : Nat) : α :=
  (fun shift => Scalar.max (shift + shift) increment)^[m] s

theorem shiftFrom_succ (increment s : α) (m : Nat) :
    shiftFrom increment s (m + 1) =
      Scalar.max (shiftFrom increment s m + shiftFrom increment s m) increment :=
  Function.iterate_succ_apply' _ _ _

/-- The factor `f` of attempt `m`, where all attempts before it break down. -/
structure Found (A : Mat α n n) (increment s : α) (m : Nat) (f : IncompleteCholesky α n) :
    Prop where
  /-- The shift is that of the attempt. -/
  shift_eq : f.shift = shiftFrom increment s m
  /-- With this shift the factor exists. -/
  factorAt_eq : factorAt A f.shift = some f.factor
  /-- With the shifts before there is none. -/
  earlier : ∀ i < m, factorAt A (shiftFrom increment s i) = none

/-- If an attempt succeeds, there is a first one that does. -/
theorem exists_found {k : Nat} (h : factorAt A (shiftFrom increment s k) = some L) :
    ∃ m ≤ k, ∃ f, Found A increment s m f := by
  classical
  have hsome : ∃ m, factorAt A (shiftFrom increment s m) ≠ none := ⟨k, by simp [h]⟩
  obtain ⟨L', hL'⟩ := Option.ne_none_iff_exists'.mp (Nat.find_spec hsome)
  refine ⟨Nat.find hsome, Nat.find_min' hsome (by simp [h]), ⟨L', _⟩, rfl, hL', fun i hi => ?_⟩
  simpa using Nat.find_min hsome hi

/-- The attempts that follow a failed one. -/
theorem Found.after {m : Nat} (h : Found A increment s (m + 1) f) :
    factorAt A s = none ∧ Found A increment (Scalar.max (s + s) increment) m f where
  left := h.earlier 0 (by omega)
  right := ⟨h.shift_eq, h.factorAt_eq, fun i hi => h.earlier (i + 1) (by omega)⟩

theorem Found.computes_attempt :
    ∀ {remaining failed m : Nat} {s : α}, Found A increment s m f → m < remaining →
      (attempt A increment remaining failed s : Run σ α _).Computes f := by
  intro remaining
  induction remaining with
  | zero =>
    intro failed m s _ hm
    omega
  | succ remaining ih =>
    intro failed m s h hm
    rw [attempt]
    -- either this attempt succeeds, or it is one of those that break down before
    cases m with
    | zero =>
      have hs : s = f.shift := h.shift_eq.symm
      rw [hs, h.factorAt_eq]
      dsimp only
      -- whether an event is recorded depends on the attempts before
      split_ifs
      · exact (Run.computes_record _).bind (Run.computes_pure _)
      · exact Run.computes_pure _
    | succ m =>
      obtain ⟨hnone, hafter⟩ := h.after
      rw [hnone]
      exact ih hafter (by omega)

theorem raises_attempt :
    ∀ {remaining failed : Nat} {s : α},
      (∀ i < remaining, factorAt A (shiftFrom increment s i) = none) →
      (attempt A increment remaining failed s : Run σ α _).Raises
        (.breakdown (.shiftsExhausted attemptCap)) := by
  intro remaining
  induction remaining with
  | zero =>
    intro failed s _
    exact Run.raises_throw _
  | succ remaining ih =>
    intro failed s h
    have hnone : factorAt A s = none := h 0 (by omega)
    rw [attempt, hnone]
    exact ih fun i hi => h (i + 1) (by omega)

/-! ### The whole factorization -/

/-- A factorization of a square matrix with a valid increment is the search for its shift. -/
theorem factorize_eq (A : Mat α n n) (increment : α) :
    (factorize A increment : Run σ α _) =
      if 0 < increment then attempt A increment attemptCap 0 (firstShift A increment)
      else throw (.invalidSetting .shiftIncrement (.number increment)) := by
  unfold factorize
  rw [Mat.ofOrder_self]
  rfl

/-- The factorization succeeds with the first factor that exists. -/
theorem Found.computes_factorize {m : Nat} (hincrement : 0 < increment) (hm : m < attemptCap)
    (h : Found A increment (firstShift A increment) m f) :
    (factorize A increment : Run σ α _).Computes f := by
  rw [factorize_eq, if_pos hincrement]
  exact h.computes_attempt hm

/-- If already the first attempt succeeds, nothing is recorded. -/
theorem exec_factorize_of_first (hincrement : 0 < increment)
    (hfactor : factorAt A (firstShift A increment) = some L) (t : Session σ α) :
    (factorize A increment : Run σ α _).exec t = (.ok ⟨L, firstShift A increment⟩, t) := by
  rw [factorize_eq, if_pos hincrement, attemptCap, attempt, hfactor]
  rfl

/-- A factorization gives no factor other than the first one that exists. -/
theorem found_of_yields_factorize (h : (factorize A increment : Run σ α _).Yields f) :
    0 < increment ∧ ∃ m < attemptCap, Found A increment (firstShift A increment) m f := by
  rw [factorize_eq] at h
  split_ifs at h with hincrement
  · refine ⟨hincrement, ?_⟩
    -- if all attempts broke down, the factorization would have raised its failure
    by_cases hnone : ∀ k < attemptCap,
        factorAt A (shiftFrom increment (firstShift A increment) k) = none
    · exact absurd h (raises_attempt hnone).not_yields
    · push Not at hnone
      obtain ⟨k, hk, hne⟩ := hnone
      obtain ⟨L, hL⟩ := Option.ne_none_iff_exists'.mp hne
      obtain ⟨m, hm, g, hg⟩ := exists_found hL
      -- the factor that was given is the one that is computed
      obtain rfl := (hg.computes_attempt (by omega)).eq_of_yields h
      exact ⟨m, by omega, hg⟩
  · exact absurd h Run.not_yields_throw

/-! ### The part of the matrix that is read -/

section LowerTriangle

variable (h : ∀ i k, k ≤ i → B.entry i k = A.entry i k)

include h

theorem factorColumn_congr (shift : α) (L : Mat α n n) (k : Fin n) :
    factorColumn B shift L k = factorColumn A shift L k := by
  have hpivot : pivot B shift L k = pivot A shift L k := by rw [pivot, pivot, h k k le_rfl]
  unfold factorColumn
  rw [hpivot]
  dsimp only
  split_ifs
  · refine congrArg some (Mat.ext fun i j => ?_)
    rw [Mat.entry_ofFn, Mat.entry_ofFn]
    -- only the rows below the diagonal read the matrix
    by_cases hki : k < i
    · rw [h i k hki.le]
    · simp [hki]
  · rfl

theorem factorAt_congr (shift : α) : factorAt B shift = factorAt A shift := by
  unfold factorAt
  congr 1
  funext L k
  exact factorColumn_congr h shift L k

theorem attempt_congr (increment : α) :
    ∀ (remaining failed : Nat) (shift : α),
      (attempt B increment remaining failed shift : Run σ α _) =
        attempt A increment remaining failed shift := by
  intro remaining
  induction remaining with
  | zero => exact fun _ _ => rfl
  | succ remaining ih =>
    intro failed shift
    rw [attempt, attempt, factorAt_congr h]
    simp only [ih]

/-- A factorization only reads the entries on and below the diagonal. -/
theorem factorize_congr (increment : α) :
    (factorize B increment : Run σ α _) = factorize A increment := by
  -- the first shift is read off the diagonal
  have hfirst : firstShift B increment = firstShift A increment := by
    unfold firstShift
    simp only [h _ _ le_rfl]
  rw [factorize_eq, factorize_eq, hfirst, attempt_congr h]

end LowerTriangle

/-! ### Exact shifts -/

section Exact

variable {A : Mat ℝ n n} {increment s : ℝ}

/-- No shift is tried first where the diagonal is positive. -/
theorem firstShift_eq_zero (hA : ∀ i, 0 < A.entry i i) (increment : ℝ) :
    firstShift A increment = 0 := by
  unfold firstShift
  split
  · rfl
  · next d ds hdiagonal =>
    -- the smallest diagonal entry is one of them
    obtain ⟨i, -, hi⟩ := List.mem_map.mp (hdiagonal ▸ Scalar.least_mem d ds)
    dsimp only
    rw [← hi, if_pos (hA i)]

theorem firstShift_nonneg (hincrement : 0 < increment) : 0 ≤ firstShift A increment := by
  unfold firstShift
  split
  · exact le_rfl
  · dsimp only
    split_ifs with hlow
    · exact le_rfl
    · linarith

theorem shiftFrom_nonneg (hincrement : 0 < increment) (hs : 0 ≤ s) (m : Nat) :
    0 ≤ shiftFrom increment s m := by
  cases m with
  | zero => exact hs
  | succ m =>
    rw [shiftFrom_succ, Scalar.max_real]
    exact hincrement.le.trans (le_max_right _ _)

/-- After a first increment the shift doubles. -/
theorem mul_two_pow_le_shiftFrom (increment s : ℝ) (m : Nat) :
    increment * 2 ^ m ≤ shiftFrom increment s (m + 1) := by
  -- by induction on the failed attempts; the first one sets the shift to the increment at least
  induction m with
  | zero =>
    rw [shiftFrom_succ, Scalar.max_real, pow_zero, mul_one]
    exact le_max_right _ _
  | succ m ih =>
    rw [shiftFrom_succ, Scalar.max_real]
    calc increment * 2 ^ (m + 1) = increment * 2 ^ m + increment * 2 ^ m := by ring
      _ ≤ shiftFrom increment s (m + 1) + shiftFrom increment s (m + 1) := add_le_add ih ih
      _ ≤ _ := le_max_left _ _

theorem standardIncrement_pos : (0 : ℝ) < standardIncrement := by
  show (0 : ℝ) < 1e-3
  norm_num

end Exact

end Downhill.IncompleteCholesky
