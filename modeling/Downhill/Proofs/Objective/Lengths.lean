import Downhill.Objective.Valley
import Downhill.Proofs.Exact.Quadratic

/-!
# Objectives at points of any length

An `Assembly` is an objective that is built from quadratic functions, valleys, banded objectives and
augmented Lagrangians of assemblies. Each part has a number of variables of its own, and the points
at which an assembly is evaluated may have any length; it fits where all parts do (`Fits`).

* `Assembly.checks_lengths`: over every arithmetic, values and gradients succeed exactly at the
  points that fit, and fail with the dimensions at all others. So do Hessians and their products
  with vectors, except where the dimension is overlooked (`Overlooks`).

The exception is the Hessian of a quadratic function, which is its matrix whatever the point. At a
point of another length it has the wrong shape, and what multiplies it with a vector or adds it to
another matrix ends in a `shapeFault`. An augmented Lagrangian overlooks a dimension with its
objective, if the constraint fits; a constraint is evaluated before its Hessian, and so is always
checked.
-/

namespace Downhill

variable {σ α : Type} {m n : Nat}

/-! ### Checks -/

namespace Run

variable {β γ : Type} {a : Run σ α β} {fits fits' : Prop} {P : β → Prop} {Q : γ → Prop}

/-- The action checks a point of length `n`: it succeeds with a result that has the property `P` if
the point fits, and otherwise fails because another length is expected. -/
def Checks (a : Run σ α β) (n : Nat) (fits : Prop) (P : β → Prop) : Prop :=
  fits ∧ (∃ b, a.Computes b ∧ P b) ∨
    ¬ fits ∧ ∃ m, m ≠ n ∧ a.Raises (.dimension (.length m) (.length n))

/-- A check before an action that succeeds. -/
theorem Checks.bind_computes {f : β → Run σ α γ} (ha : a.Checks n fits P)
    (hf : fits → ∀ b, P b → ∃ c, (f b).Computes c ∧ Q c) : (a >>= f).Checks n fits Q := by
  rcases ha with ⟨hfits, b, hb, hP⟩ | ⟨hnot, m, hm, hraises⟩
  · obtain ⟨c, hc, hQ⟩ := hf hfits b hP
    exact .inl ⟨hfits, c, hb.bind hc, hQ⟩
  · exact .inr ⟨hnot, m, hm, hraises.bind⟩

theorem Checks.bind {f : β → Run σ α γ} (ha : a.Checks n fits P)
    (hf : ∀ b, P b → (f b).Checks n fits' Q) : (a >>= f).Checks n (fits ∧ fits') Q := by
  rcases ha with ⟨hfits, b, hb, hP⟩ | ⟨hnot, m, hm, hraises⟩
  · rcases hf b hP with ⟨hfits', c, hc, hQ⟩ | ⟨hnot', m, hm, hraises⟩
    · exact .inl ⟨⟨hfits, hfits'⟩, c, hb.bind hc, hQ⟩
    · exact .inr ⟨fun h => hnot' h.2, m, hm, hb.bind_raises hraises⟩
  · exact .inr ⟨fun h => hnot h.1, m, hm, hraises.bind⟩

/-- What it is to fit may be put in another way. -/
theorem Checks.of_iff (ha : a.Checks n fits P) (h : fits ↔ fits') : a.Checks n fits' P := by
  rwa [Checks, ← h]

/-- At a point that fits the action succeeds. -/
theorem Checks.exists_computes (ha : a.Checks n fits P) (h : fits) :
    ∃ b, a.Computes b ∧ P b := by
  rcases ha with ⟨-, hcomputes⟩ | ⟨hnot, -⟩
  · exact hcomputes
  · exact absurd h hnot

theorem checks_ofLength (x : Vec α n) (m : Nat) :
    (liftM (x.ofLength m) : Run σ α (Vec α m)).Checks n (m = n) fun _ => True := by
  by_cases h : m = n
  · subst h
    exact .inl ⟨rfl, x, computes_liftM (Vec.ofLength_self x), trivial⟩
  · refine .inr ⟨h, m, h, raises_liftM ?_⟩
    rw [Vec.ofLength, dif_neg (Ne.symm h)]

/-- A function of vectors of length `m`, at a point of any length. -/
theorem checks_ofLength_bind {f : Vec α m → Run σ α β} (x : Vec α n)
    (hf : m = n → ∀ y, ∃ b, (f y).Computes b ∧ P b) :
    (liftM (x.ofLength m) >>= f).Checks n (m = n) P :=
  (checks_ofLength x m).bind_computes fun hm y _ => hf hm y

end Run

/-- The matrix is square of order `n`. -/
def AnyMat.HasOrder (H : AnyMat α) (n : Nat) : Prop := ∃ A : Mat α n n, H = ⟨n, n, A⟩

/-- A square matrix of another order does not fit. -/
theorem Mat.fit_of_ne (A : Mat α m m) (h : m ≠ n) : A.fit n n = .error .shapeFault :=
  dif_neg fun hshape => h hshape.1

/-- The action takes no notice of the length `n`: it gives a square matrix of another order, or ends
in a fault. -/
def Run.Overlooks (a : Run σ α (AnyMat α)) (n : Nat) : Prop :=
  (∃ m, m ≠ n ∧ ∃ A : Mat α m m, a.Computes ⟨m, m, A⟩) ∨ a.Raises .shapeFault

/-! ### Assemblies -/

/-- An objective that is built from the closed forms of the library. -/
inductive Assembly (α : Type) : Type
  /-- A quadratic function of `m` variables. -/
  | quadratic {m : Nat} (q : Quadratic α m)
  /-- A valley. -/
  | valley (f : Valley α)
  /-- A banded objective. -/
  | banded (f : Banded α)
  /-- The augmented Lagrangian of `f` under the constraint `h`. -/
  | lagrangian (w : Weights α) (f h : Assembly α)

namespace Assembly

/-- All parts of the assembly are functions of `n` variables. -/
def Fits (n : Nat) : Assembly α → Prop
  | @quadratic _ m _ => m = n
  | valley _ => 2 = n
  | banded _ => Banded.dimension = n
  | lagrangian _ f h => f.Fits n ∧ h.Fits n

/-- The Hessian of the assembly takes no notice of the length `n`, which does not fit. -/
def Overlooks (n : Nat) : Assembly α → Prop
  | @quadratic _ m _ => m ≠ n
  | valley _ => False
  | banded _ => False
  | lagrangian _ f h => f.Overlooks n ∧ h.Fits n

/-- A length that is overlooked does not fit. -/
theorem Overlooks.not_fits {a : Assembly α} (h : a.Overlooks n) : ¬ a.Fits n := by
  induction a with
  | quadratic => exact h
  | valley => exact h.elim
  | banded => exact h.elim
  -- the objective of a Lagrangian that fits would fit as well
  | lagrangian _ _ _ ihf _ => exact fun hfits => ihf h.1 hfits.1

/-- The assembly as an objective at points of length `n`. -/
def objective [Scalar α] (n : Nat) : Assembly α → Objective σ α n
  | quadratic q => q.objective n
  | valley f => f.objective n
  | banded f => f.objective n
  | lagrangian w f h => w.lagrangian (f.objective n) (h.objective n)

end Assembly

variable [Scalar α]

/-! ### Products with a Hessian -/

section Products

variable {gradient : Vec α n → Run σ α (Vec α n)} {hessian : Vec α n → Run σ α (AnyMat α)}
  {fits : Prop} {x : Vec α n}

/-- Where the Hessian checks the point, so does the product. -/
theorem checks_hessianProductOf (h : (hessian x).Checks n fits fun H => H.HasOrder n)
    (v : Vec α n) : (hessianProductOf gradient hessian x v).Checks n fits fun _ => True := by
  rcases h with ⟨hfits, _, hH, A, rfl⟩ | ⟨hnot, m, hm, hraises⟩
  · refine .inl ⟨hfits, A * v, hH.observe.bind (Run.computes_liftM ?_), trivial⟩
    unfold AnyMat.apply
    rw [Mat.fit_self]
    rfl
  · exact .inr ⟨hnot, m, hm, hraises.observe.bind_raises (Run.raises_throw _)⟩

/-- Where the Hessian overlooks the length, the product ends in a fault. -/
theorem raises_hessianProductOf (h : (hessian x).Overlooks n) (v : Vec α n) :
    (hessianProductOf gradient hessian x v).Raises .shapeFault := by
  rcases h with ⟨m, hm, A, hA⟩ | hraises
  · refine hA.observe.bind_raises (Run.raises_liftM ?_)
    unfold AnyMat.apply
    rw [Mat.fit_of_ne A hm]
    rfl
  · exact hraises.observe.bind_raises (Run.raises_throw _)

end Products

/-! ### Evaluations of an assembly -/

namespace Assembly

variable {a : Assembly α}

theorem checks_value (a : Assembly α) (x : Vec α n) :
    ((a.objective n : Objective σ α n).value x).Checks n (a.Fits n) fun _ => True := by
  -- by induction on the assembly; each closed form checks the length first
  induction a with
  | quadratic =>
    exact Run.checks_ofLength_bind x fun _ _ => ⟨_, Run.computes_pure _, trivial⟩
  | valley =>
    exact Run.checks_ofLength_bind x fun _ _ => ⟨_, Run.computes_pure _, trivial⟩
  | banded =>
    exact Run.checks_ofLength_bind x fun _ _ => ⟨_, Run.computes_pure _, trivial⟩
  | lagrangian _ _ _ ihf ihh =>
    -- the constraint is evaluated before the objective
    refine Run.Checks.of_iff (ihh.bind fun _ _ => ihf.bind_computes fun _ _ _ =>
      ⟨_, Run.computes_pure _, trivial⟩) ?_
    exact and_comm

theorem checks_gradient (a : Assembly α) (x : Vec α n) :
    ((a.objective n : Objective σ α n).gradient x).Checks n (a.Fits n) fun _ => True := by
  induction a with
  | quadratic =>
    exact Run.checks_ofLength_bind x fun hm _ => ⟨_, Run.computes_liftM (dif_pos hm), trivial⟩
  | valley =>
    exact Run.checks_ofLength_bind x fun hm _ => ⟨_, Run.computes_liftM (dif_pos hm), trivial⟩
  | banded =>
    exact Run.checks_ofLength_bind x fun hm _ => ⟨_, Run.computes_liftM (dif_pos hm), trivial⟩
  | lagrangian _ _ h ihf ihh =>
    -- the constraint is evaluated first, its gradient last
    refine Run.Checks.of_iff ((h.checks_value x).bind fun _ _ => ihf.bind fun _ _ =>
      ihh.bind_computes fun _ _ _ => ⟨_, Run.computes_pure _, trivial⟩) ?_
    exact and_iff_right_of_imp And.right

/-- Hessians check a length that is not overlooked. -/
theorem checks_hessian (hover : ¬ a.Overlooks n) (x : Vec α n) :
    ((a.objective n : Objective σ α n).hessian x).Checks n (a.Fits n) fun H => H.HasOrder n := by
  -- by induction on the assembly, as to which parts are overlooked
  induction a with
  | quadratic q =>
    obtain rfl := not_not.mp hover
    exact .inl ⟨rfl, _, Run.computes_pure _, q.matrix, rfl⟩
  | valley f =>
    refine Run.checks_ofLength_bind x fun hm y => ⟨_, Run.computes_pure _, ?_⟩
    subst hm
    exact ⟨_, rfl⟩
  | banded f =>
    refine Run.checks_ofLength_bind x fun hm y => ⟨_, Run.computes_pure _, ?_⟩
    subst hm
    exact ⟨_, rfl⟩
  | lagrangian w f h ihf ihh =>
    -- if the constraint fits, the objective does not overlook the length either
    by_cases hfits : h.Fits n
    · have hf := ihf fun hf => hover ⟨hf, hfits⟩
      have hh := ihh fun hover => hover.not_fits hfits
      refine Run.Checks.of_iff ((h.checks_value x).bind fun _ _ =>
        (h.checks_gradient x).bind fun _ _ => hf.bind fun Hf hHf =>
          hh.bind_computes fun _ Hh hHh => ?_) ?_
      · obtain ⟨A, rfl⟩ := hHf
        obtain ⟨B, rfl⟩ := hHh
        exact ⟨_, Run.computes_liftM (Objective.hessianSum_eq_ok _ _ _), _, rfl⟩
      · exact ⟨fun h => h.2.2, fun h => ⟨h.2, h.2, h⟩⟩
    -- otherwise the value of the constraint fails first
    · rcases h.checks_value (σ := σ) x with ⟨hfits', -⟩ | ⟨-, m, hm, hraises⟩
      · exact absurd hfits' hfits
      · exact .inr ⟨fun h => hfits h.2, m, hm, hraises.bind⟩

/-- Hessians overlook the length where the assembly does. -/
theorem overlooks_hessian (hover : a.Overlooks n) (x : Vec α n) :
    ((a.objective n : Objective σ α n).hessian x).Overlooks n := by
  induction a with
  | quadratic q => exact .inl ⟨_, hover, q.matrix, Run.computes_pure _⟩
  | valley => exact hover.elim
  | banded => exact hover.elim
  | lagrangian w f h ihf _ =>
    obtain ⟨hf, hfits⟩ := hover
    -- the constraint passes all checks, so that the Hessians are added
    obtain ⟨_, hvalue, -⟩ := (h.checks_value (σ := σ) x).exists_computes hfits
    obtain ⟨_, hgradient, -⟩ := (h.checks_gradient (σ := σ) x).exists_computes hfits
    refine .inr (hvalue.bind_raises (hgradient.bind_raises ?_))
    -- the two Hessians have different orders
    rcases ihf hf with ⟨m, hm, A, hA⟩ | hraises
    · obtain ⟨_, hH, -⟩ :=
        (checks_hessian (σ := σ) (fun hover => hover.not_fits hfits) x).exists_computes hfits
      refine hA.bind_raises (hH.bind_raises (Run.raises_liftM ?_))
      unfold Weights.hessianSum
      rw [Mat.fit_of_ne A hm]
      rfl
    · exact hraises.bind

/-- All assemblies have a Hessian, and use it for products. -/
theorem hessianProductAny_self (a : Assembly α) (x v : Vec α n) :
    (a.objective n : Objective σ α n).hessianProductAny x v =
      hessianProductOf (a.objective n : Objective σ α n).gradient (a.objective n).hessian x v := by
  have hproduct : (a.objective n : Objective σ α n).hessianProduct =
      hessianProductOf (a.objective n : Objective σ α n).gradient (a.objective n).hessian := by
    cases a <;> rfl
  unfold Objective.hessianProductAny
  rw [Vec.ofLength_self, hproduct]
  rfl

/-- A factor of another length than the point is refused. -/
theorem raises_hessianProductAny (a : Assembly α) (x : Vec α n) {k : Nat} (hk : k ≠ n)
    (v : Vec α k) :
    ((a.objective n : Objective σ α n).hessianProductAny x v).Raises
      (.dimension (.length n) (.length k)) :=
  (Run.raises_liftM (dif_neg hk)).bind

/-- **Lengths**: whatever the assembly and the point. The value and the gradient succeed if the
length of the point fits all parts, and fail with the dimensions if it does not. A vector of another
length than the point is refused as a factor of the Hessian. Otherwise the Hessian and its products
with vectors check the length of the point just as the value does, and the Hessian has that order;
except where the length is overlooked: then the Hessian has another order or ends in a fault, and
all products end in a fault. -/
theorem checks_lengths (a : Assembly α) (x : Vec α n) :
    ((a.objective n : Objective σ α n).value x).Checks n (a.Fits n) (fun _ => True) ∧
    ((a.objective n : Objective σ α n).gradient x).Checks n (a.Fits n) (fun _ => True) ∧
    (∀ {k : Nat} (v : Vec α k), k ≠ n →
      ((a.objective n : Objective σ α n).hessianProductAny x v).Raises
        (.dimension (.length n) (.length k))) ∧
    (¬ a.Overlooks n ∧
        ((a.objective n : Objective σ α n).hessian x).Checks n (a.Fits n) (fun H => H.HasOrder n) ∧
        (∀ v : Vec α n,
          ((a.objective n : Objective σ α n).hessianProductAny x v).Checks n (a.Fits n)
            fun _ => True) ∨
      a.Overlooks n ∧ ((a.objective n : Objective σ α n).hessian x).Overlooks n ∧
        ∀ v : Vec α n,
          ((a.objective n : Objective σ α n).hessianProductAny x v).Raises .shapeFault) := by
  refine ⟨a.checks_value x, a.checks_gradient x, fun v hk => a.raises_hessianProductAny x hk v, ?_⟩
  by_cases hover : a.Overlooks n
  · refine .inr ⟨hover, overlooks_hessian hover x, fun v => ?_⟩
    rw [hessianProductAny_self]
    exact raises_hessianProductOf (overlooks_hessian hover x) v
  · refine .inl ⟨hover, checks_hessian hover x, fun v => ?_⟩
    rw [hessianProductAny_self]
    exact checks_hessianProductOf (checks_hessian hover x) v

/-- At a point of length three the function `½ ‖x‖²` of two variables has no value, but the Hessian
of two variables, whose product with a vector of length three ends in a fault. -/
theorem checks_lengths_simple :
    (((quadratic (.simple 2) : Assembly ℝ).objective 3 : Objective Unit ℝ 3).value
      #v[1, 2, 3]).Raises (.dimension (.length 2) (.length 3)) ∧
    (((quadratic (.simple 2) : Assembly ℝ).objective 3 : Objective Unit ℝ 3).hessian
      #v[1, 2, 3]).Computes ⟨2, 2, .identity⟩ ∧
    (((quadratic (.simple 2) : Assembly ℝ).objective 3 : Objective Unit ℝ 3).hessianProductAny
      #v[1, 2, 3] (#v[0, 0, 1] : Vec ℝ 3)).Raises .shapeFault := by
  have hover : (quadratic (.simple 2) : Assembly ℝ).Overlooks 3 := by
    show 2 ≠ 3
    decide
  obtain ⟨-, -, -, ⟨hnot, -⟩ | ⟨-, -, hproduct⟩⟩ :=
    checks_lengths (σ := Unit) (quadratic (.simple 2) : Assembly ℝ) #v[1, 2, 3]
  · exact absurd hover hnot
  · exact ⟨(Run.raises_liftM rfl).bind, Run.computes_pure _, hproduct _⟩

end Assembly

end Downhill
