import Downhill.Objective.Basic
import Downhill.Proofs.Run

/-!
# Deterministic objectives and stencils

An objective evaluates functions `F` and `G` if its value and its gradient succeed from every
session and are those of `F` and `G`. It may still use its memory, say to count the calls. For an
objective that may fail, `CanFail` says which failures its evaluations have.

What the test of a stencil has seen, over every arithmetic: it ends with `true` when no neighbour of
the center has a smaller value, and with `false` at a neighbour that has one
(`Stencil.isFailure_cases`). An objective whose values never fail leaves only these two ways
(`Stencil.computes_isFailure`).
-/

namespace Downhill.Objective

/-! ### Deterministic objectives -/

variable {σ α : Type} [Scalar α] {n : Nat}

/-- The value of `f` is always that of `F`, and its gradient that of `G`. -/
structure Evaluates (f : Objective σ α n) (F : Vec α n → α) (G : Vec α n → Vec α n) : Prop where
  /-- The value never fails. -/
  value : ∀ x, (f.value x).Computes (F x)
  /-- The gradient never fails. -/
  gradient : ∀ x, (f.gradient x).Computes (G x)

/-- Somewhere the value or the gradient of `f` may fail with `e`. -/
def CanFail (f : Objective σ α n) (e : Failure α) : Prop :=
  ∃ x, (f.value x).Fails e ∨ (f.gradient x).Fails e

/-- An objective that evaluates functions never fails. -/
theorem Evaluates.not_canFail {f : Objective σ α n} {F : Vec α n → α} {G : Vec α n → Vec α n}
    (hf : f.Evaluates F G) (e : Failure α) : ¬ f.CanFail e := by
  rintro ⟨x, h | h⟩
  · exact (hf.value x).not_fails h
  · exact (hf.gradient x).not_fails h

end Downhill.Objective

namespace Downhill.Stencil

/-! ### Stencils -/

variable {σ α : Type} [Scalar α] {n : Nat} {f : Objective σ α n} {x : Vec α n} {h center : α}

/-- The two neighbours of `x` in coordinate `i` have the values `forward` and `backward`. -/
structure Neighbours (f : Objective σ α n) (x : Vec α n) (h : α) (i : Fin n)
    (forward backward : α) : Prop where
  /-- The value at `x + h eᵢ`. -/
  forward_at : (f.value (x.plusAt i h)).Yields forward
  /-- The value at `x - h eᵢ`. -/
  backward_at : (f.value (x.minusAt i h)).Yields backward

/-- Of the two neighbours in coordinate `i`, one has a smaller value than the center. -/
def Better (f : Objective σ α n) (x : Vec α n) (h center : α) (i : Fin n) : Prop :=
  ∃ forward backward, Neighbours f x h i forward backward ∧ (forward < center ∨ backward < center)

/-- Neither of the two neighbours in coordinate `i` has a smaller value than the center. -/
def NotBetter (f : Objective σ α n) (x : Vec α n) (h center : α) (i : Fin n) : Prop :=
  ∃ forward backward, Neighbours f x h i forward backward ∧
    ¬ forward < center ∧ ¬ backward < center

/-- Both neighbours in a coordinate were evaluated and compared with the center. -/
theorem noBetter_cases {i : Fin n} {b : Bool} (hb : (noBetter f x h center i).Yields b) :
    b = true ∧ NotBetter f x h center i ∨ b = false ∧ Better f x h center i := by
  unfold noBetter at hb
  obtain ⟨forward, hforward, hb⟩ := Run.exists_of_yields_bind hb
  obtain ⟨backward, hbackward, hb⟩ := Run.exists_of_yields_bind hb
  rw [Run.eq_of_yields_pure hb]
  -- the two cases are those of the test itself
  by_cases hless : forward < center ∨ backward < center
  · refine .inr ⟨?_, forward, backward, ⟨hforward, hbackward⟩, hless⟩
    rwa [Bool.not_eq_false', Bool.or_eq_true, decide_eq_true_iff, decide_eq_true_iff]
  · rw [not_or] at hless
    refine .inl ⟨?_, forward, backward, ⟨hforward, hbackward⟩, hless⟩
    rwa [Bool.not_eq_true', Bool.or_eq_false_iff, decide_eq_false_iff_not, decide_eq_false_iff_not]

/-- The test has looked at all neighbours, or at one that is better than the center. -/
theorem isFailure_cases {failed : Bool} (hfailed : (isFailure f x h).Yields failed) :
    ∃ center, (f.value x).Yields center ∧
      (failed = true ∧ (∀ i, NotBetter f x h center i) ∨
        failed = false ∧ ∃ i, Better f x h center i) := by
  unfold isFailure at hfailed
  obtain ⟨_, -, hfailed⟩ := Run.exists_of_yields_bind hfailed
  obtain ⟨center, hcenter, hfailed⟩ := Run.exists_of_yields_bind hfailed
  refine ⟨center, hcenter, ?_⟩
  -- what the visit of any list of coordinates has seen
  have hlist : ∀ is : List (Fin n), (is.allM (noBetter f x h center)).Yields failed →
      failed = true ∧ (∀ i ∈ is, NotBetter f x h center i) ∨
        failed = false ∧ ∃ i, Better f x h center i := by
    intro is
    induction is with
    | nil =>
      intro h
      exact .inl ⟨Run.eq_of_yields_pure h, fun i hi => absurd hi List.not_mem_nil⟩
    | cons i is ih =>
      intro h
      rw [List.allM] at h
      obtain ⟨b, hb, h⟩ := Run.exists_of_yields_bind h
      -- the visit goes on after a coordinate without improvement, and stops at one with
      rcases noBetter_cases hb with ⟨rfl, hworse⟩ | ⟨rfl, hbetter⟩
      · exact (ih h).imp_left fun ⟨hfailed, hrest⟩ =>
          ⟨hfailed, List.forall_mem_cons.mpr ⟨hworse, hrest⟩⟩
      · exact .inr ⟨Run.eq_of_yields_pure h, i, hbetter⟩
  exact (hlist _ hfailed).imp_left fun ⟨hfailed, hall⟩ =>
    ⟨hfailed, fun i => hall i (List.mem_finRange i)⟩

/-! ### Objectives that do not fail -/

section Computes

variable {F : Vec α n → α} (hf : ∀ y, (f.value y).Computes (F y))

include hf

/-- Without failures the test of a coordinate is a comparison of values. -/
theorem computes_noBetter (i : Fin n) :
    ∃ b, (noBetter f x h center i).Computes b ∧
      (b = true ↔ ¬ F (x.plusAt i h) < center ∧ ¬ F (x.minusAt i h) < center) := by
  refine ⟨_, (hf _).bind ((hf _).bind (Run.computes_pure _)), ?_⟩
  rw [Bool.not_eq_true', Bool.or_eq_false_iff, decide_eq_false_iff_not, decide_eq_false_iff_not]

/-- Where the test stops does not show in its answer. -/
theorem computes_isFailure (hh : 0 < h) :
    ∃ failed, (isFailure f x h).Computes failed ∧
      (failed = true ↔ ∀ i, ¬ F (x.plusAt i h) < F x ∧ ¬ F (x.minusAt i h) < F x) := by
  have hlist : ∀ is : List (Fin n), ∃ failed,
      (is.allM (noBetter f x h (F x))).Computes failed ∧
        (failed = true ↔ ∀ i ∈ is, ¬ F (x.plusAt i h) < F x ∧ ¬ F (x.minusAt i h) < F x) := by
    intro is
    induction is with
    | nil => exact ⟨true, Run.computes_pure _, by simp⟩
    | cons i is ih =>
      obtain ⟨failed, hfailed, hrest⟩ := ih
      obtain ⟨b, hb, hfirst⟩ : ∃ b, (noBetter f x h (F x) i).Computes b ∧
          (b = true ↔ ¬ F (x.plusAt i h) < F x ∧ ¬ F (x.minusAt i h) < F x) :=
        computes_noBetter hf i
      rw [List.allM]
      simp only [List.forall_mem_cons, ← hfirst, ← hrest]
      -- a coordinate with an improvement ends the visit, and the answer is no either way
      cases b with
      | true => exact ⟨failed, hb.bind hfailed, by simp⟩
      | false => exact ⟨false, hb.bind (Run.computes_pure _), by simp⟩
  obtain ⟨failed, hfailed, hiff⟩ := hlist (List.finRange n)
  have hcheck : checkScale h = .ok () := if_pos hh
  refine ⟨failed, (Run.computes_liftM hcheck).bind ((hf x).bind hfailed), ?_⟩
  simp only [hiff, List.mem_finRange, true_implies]

end Computes

end Downhill.Stencil
