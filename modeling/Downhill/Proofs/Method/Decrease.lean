import Downhill.Proofs.Method.Recorded
import Downhill.Proofs.Search.SteepestDescent

/-!
# Decrease

In exact arithmetic the value at a stage of a run is smaller than those at earlier stages, up to the
last sweep of implicit filtering, which repeats the value before it. Each method has a mechanism of
its own: a Wolfe step decreases by a part of a slope that is negative; a trial of a fit is only
accepted if it is better; a projected step decreases by a part of a gap that vanishes at stationary
points only (`Projection.Nearest.project_sub_eq_of_project_sub_smul_eq`); a sweep of implicit
filtering only moves to better points.

What follows from the decrease of single steps is the same for all methods (`Decreasing.push`,
`Routine.Holds.lt_of_steps`).
-/

namespace Downhill

variable {σ : Type} {m n : Nat}

/-! ### Decreasing histories -/

/-- Each value of the history is less than those before it, and `current` is the last one. -/
structure Decreasing (history : Array ℝ) (current : ℝ) : Prop where
  pairwise : history.toList.Pairwise (· > ·)
  last : history.toList.getLast? = some current

namespace Decreasing

variable {history : Array ℝ} {v w : ℝ}

theorem singleton (v : ℝ) : Decreasing #[v] v := ⟨List.pairwise_singleton _ v, rfl⟩

/-- No recorded value is less than the last one. -/
theorem le_of_mem (h : Decreasing history v) (hw : w ∈ history.toList) : v ≤ w := by
  obtain ⟨values, hvalues⟩ := List.getLast?_eq_some_iff.mp h.last
  have hpairwise := h.pairwise
  rw [hvalues] at hpairwise hw
  rcases List.mem_append.mp hw with hw | hw
  · exact ((List.pairwise_append.mp hpairwise).2.2 w hw v (List.mem_singleton_self v)).le
  · exact (List.mem_singleton.mp hw).ge

theorem push (h : Decreasing history v) (hw : w < v) : Decreasing (history.push w) w where
  pairwise := by
    rw [Array.toList_push, List.pairwise_append]
    refine ⟨h.pairwise, List.pairwise_singleton _ w, fun u hu w' hw' => ?_⟩
    rw [List.mem_singleton.mp hw']
    exact hw.trans_le (h.le_of_mem hu)
  last := by rw [Array.toList_push, List.getLast?_concat]

end Decreasing

/-- A list in decreasing order passes the test of the outcome. -/
theorem nonincreasing_of_pairwise : ∀ {values : List ℝ}, values.Pairwise (· ≥ ·) →
    nonincreasing values = true
  | [], _ => rfl
  | [_], _ => rfl
  | v :: w :: values, h => by
    obtain ⟨hv, hrest⟩ := List.pairwise_cons.mp h
    rw [nonincreasing, Bool.and_eq_true, decide_eq_true_iff]
    exact ⟨hv w List.mem_cons_self, nonincreasing_of_pairwise hrest⟩

/-- The recorded values of an outcome strictly decrease. -/
structure Outcome.StrictlyDescends (o : Outcome ℝ n) : Prop where
  /-- Each value is less than those before it. -/
  decreasing : o.history.toList.Pairwise (· > ·)
  /-- The outcome knows that no value exceeds the one before it. -/
  monotone : o.isMonotone = true

/-- What an outcome says of a decreasing history. -/
theorem Decreasing.strictlyDescends {o : Outcome ℝ n} {v : ℝ} (h : Decreasing o.history v) :
    o.StrictlyDescends where
  decreasing := h.pairwise
  monotone := nonincreasing_of_pairwise (h.pairwise.imp le_of_lt)

/-- The recorded values of an outcome strictly decrease up to the last two, which are equal. -/
structure Outcome.DescendsAndSettles (o : Outcome ℝ n) : Prop where
  /-- Each value but the last is less than those before it; the last repeats the one before it. -/
  settles : ∃ values v, o.history.toList = values ++ [v, v] ∧ (values ++ [v]).Pairwise (· > ·)
  /-- The outcome knows that no value exceeds the one before it. -/
  monotone : o.isMonotone = true

/-- What it says if the last value is recorded twice. -/
theorem Decreasing.descendsAndSettles {o : Outcome ℝ n} {history : Array ℝ} {v : ℝ}
    (h : Decreasing history v) (ho : o.history = history.push v) : o.DescendsAndSettles := by
  obtain ⟨values, hvalues⟩ := List.getLast?_eq_some_iff.mp h.last
  constructor
  · refine ⟨values, v, ?_, hvalues ▸ h.pairwise⟩
    rw [ho, Array.toList_push, hvalues, List.append_assoc]
    rfl
  · unfold Outcome.isMonotone
    rw [ho, Array.toList_push]
    refine nonincreasing_of_pairwise (List.pairwise_append.mpr
      ⟨h.pairwise.imp le_of_lt, List.pairwise_singleton _ v, fun w hw v' hv' => ?_⟩)
    rw [List.mem_singleton.mp hv']
    exact h.le_of_mem hw

/-! ### Stages that are not visited twice -/

/-- Where every step makes a quantity smaller, it is smaller at later stages of a run. -/
theorem Routine.Holds.lt_of_steps {S β : Type} {R : Routine σ ℝ S β} (hR : R.Deterministic)
    {v : S → ℝ}
    (hstep : ∀ k t u, R.Holds k t → R.loop.continues t → (R.loop.step t).Yields u → v u < v t)
    {j k : Nat} {s t : S} (hs : R.Holds j s) (ht : R.Holds k t) (hjk : j < k) : v t < v s := by
  have hreaches := hs.reaches hR ht hjk.le
  refine (hreaches.invariant (I := fun i u => R.Holds (j + i) u ∧ (0 < i → v u < v s)) ?_
    ⟨hs, fun h => absurd h (lt_irrefl 0)⟩).2 (Nat.sub_pos_of_lt hjk)
  -- the first step makes the quantity smaller than at `s`, later ones make it smaller still
  rintro i u w ⟨hu, hless⟩ hgo hw
  refine ⟨hu.step hgo hw, fun _ => ?_⟩
  have hlast := hstep _ u w hu hgo hw
  rcases Nat.eq_zero_or_pos i with rfl | hi
  · cases hu.unique hR hs
    exact hlast
  · exact hlast.trans (hless hi)

/-- Points with different values are different. -/
theorem ne_of_value_lt {value : Vec ℝ n → Run σ ℝ ℝ} (hdet : ∀ x, (value x).Determined)
    {x y : Vec ℝ n} {v w : ℝ} (hv : (value x).Yields v) (hw : (value y).Yields w) (h : w < v) :
    y ≠ x := by
  rintro rfl
  exact h.ne (((hdet y).computes_of_yields hv).eq_of_yields hw)

/-! ### Quasi-Newton descent -/

namespace QuasiNewton

variable {config : Config ℝ} {f : Objective σ ℝ n} {x : Vec ℝ n} {r c j k : Nat} {A : Mat ℝ r c}
  {s t : State ℝ n}

/-- The decrease is a part of the slope along the direction of the search. -/
theorem value_lt_of_step (h : (step config f s).Yields t) : t.value < s.value := by
  obtain ⟨d, found, hfound, -, -, hvalue, -⟩ := move_of_step h
  obtain ⟨hdescent, hvalid, hsearch⟩ :=
    WolfePowell.run_cases (WolfePowell.run_of_yields_searchFrom hfound)
  have hends := WolfePowell.Ray.ends_of_yields_search WolfePowell.Ray.reachable_pos hsearch
  have hsigma := SearchParams.sigma_pos_of_validateWolfePowell hvalid
  have hdecrease : found.value ≤
      s.value + found.size * config.search.sigma * s.gradient.dot d :=
    of_decide_eq_true hends.accepts.decreases
  have hslope : found.size * config.search.sigma * s.gradient.dot d < 0 :=
    mul_neg_of_pos_of_neg (mul_pos hends.accepts.size hsigma) (not_le.mp hdescent)
  rw [hvalue]
  linarith

theorem decreasing_of_holds (h : (routine config f x A).Holds k s) :
    Decreasing s.history s.value := by
  refine h.invariant (I := fun _ s => Decreasing s.history s.value) ?_ ?_
  · intro s hs
    obtain ⟨-, B, -, hs⟩ := start_of_yields_routine hs
    obtain ⟨value, _, _, _, rfl⟩ := start_cases hs
    exact .singleton value
  · intro k s t _ hs _ hstep
    have hless := value_lt_of_step hstep
    obtain ⟨_, found, _, _, _, hvalue, _, _, hhistory⟩ := move_of_step hstep
    rw [hhistory, ← hvalue]
    exact hs.push hless

theorem strictlyDescends {result : Result ℝ n} (h : (minimizeFrom config f x A).Yields result) :
    result.outcome.StrictlyDescends := by
  obtain ⟨k, -, last, hlast, -, rfl⟩ := minimizeFrom_cases h
  exact (decreasing_of_holds hlast).strictlyDescends

theorem point_ne_of_lt (hf : f.Deterministic) (hs : (routine config f x A).Holds j s)
    (ht : (routine config f x A).Holds k t) (hjk : j < k) : t.point ≠ s.point := by
  have hless := hs.lt_of_steps (v := State.value) (deterministic_routine config hf x A)
    (fun _ _ _ _ _ => value_lt_of_step) ht hjk
  exact ne_of_value_lt hf.value (faithful_of_holds hs).recorded.value_at
    (faithful_of_holds ht).recorded.value_at hless

end QuasiNewton

/-! ### Levenberg-Marquardt descent -/

namespace LevenbergMarquardt

variable {config : Config ℝ} {model : ResidualModel σ ℝ m} {p : Vec ℝ m} {j k : Nat}
  {s t : State ℝ m}

theorem decreasing_of_holds (h : (routine config model p).Holds k s) :
    Decreasing s.history s.value := by
  refine h.invariant (I := fun _ s => Decreasing s.history s.value) ?_ ?_
  · intro s hs
    obtain ⟨residual, _, _, _, _, _, rfl⟩ := start_cases (start_of_yields_routine hs).2
    exact .singleton (halfNormSq residual)
  · intro k s t _ hs _ hstep
    obtain ⟨_, residual, _, _, ⟨hless, _, _, _, _, rfl⟩ | ⟨_, rfl⟩⟩ := step_cases hstep
    · exact hs.push hless
    · exact hs

theorem strictlyDescends {result : Result ℝ m}
    (h : (minimizeWithDamping config model p).Yields result) :
    result.outcome.StrictlyDescends := by
  obtain ⟨k, -, last, hlast, -, rfl⟩ := minimizeWithDamping_cases h
  exact (decreasing_of_holds hlast).strictlyDescends

/-- Trials lower the value, or all of them are rejected. -/
theorem value_lt_or_of_reaches (h : (loop config model).Reaches s k t) :
    t.value < s.value ∨
      t.value = s.value ∧ t.point = s.point ∧ t.rejected = s.rejected + k := by
  refine h.invariant (I := fun i u => u.value < s.value ∨
    u.value = s.value ∧ u.point = s.point ∧ u.rejected = s.rejected + i) ?_
    (.inr ⟨rfl, rfl, rfl⟩)
  rintro i u w hu - hstep
  obtain ⟨_, residual, _, _, ⟨hless, _, _, _, _, rfl⟩ | ⟨_, rfl⟩⟩ := step_cases hstep
  · have hle : u.value ≤ s.value := hu.elim le_of_lt fun h => h.1.le
    exact .inl (hless.trans_le hle)
  · exact hu.imp id fun ⟨hvalue, hpoint, hrejected⟩ =>
      ⟨hvalue, hpoint, congrArg (· + 1) hrejected⟩

/-- A fit is at the same parameters again only while its trials are rejected. -/
theorem rejected_eq_of_point_eq (hmodel : model.Deterministic)
    (hs : (routine config model p).Holds j s) (ht : (routine config model p).Holds k t)
    (hjk : j ≤ k) (hpoint : t.point = s.point) : t.rejected = s.rejected + (k - j) := by
  have hreaches := hs.reaches (deterministic_routine config hmodel p) ht hjk
  rcases value_lt_or_of_reaches hreaches with hless | ⟨-, -, hrejected⟩
  · obtain ⟨-, -, _, -, hsrecorded⟩ := faithful_of_holds hs
    obtain ⟨-, -, _, -, htrecorded⟩ := faithful_of_holds ht
    exact absurd hpoint (ne_of_value_lt hmodel.value hsrecorded.value_at htrecorded.value_at hless)
  · exact hrejected

end LevenbergMarquardt

/-! ### Projected inexact Newton descent -/

namespace ProjectedNewton

variable {config : Config ℝ} {f : Objective σ ℝ n} {P : Projection ℝ n}
  {π : Vec ℝ n → Vec ℝ n} {x : Vec ℝ n} {j k : Nat} {s t : State ℝ n}

/-- The decrease is a part of the gap that the projected gradient step makes, which is there above
the tolerance. -/
theorem value_lt_of_step (hP : P.Nearest π) (hf : f.Deterministic)
    (hvalid : config.validate = .ok ()) (hs : s.Faithful f P x k)
    (habove : config.tolerance < s.stationarity) (h : (step config f P s).Yields t) :
    t.value < s.value := by
  obtain ⟨v, _, found, _, _, _, hfound, _, _, rfl⟩ := step_cases h
  obtain ⟨feasible, gradient, _, value, _, hfeasible, hgradient, _, _, hparams, hvalue, _, _,
    hbacktrack⟩ := ProjectedBacktracking.search_cases hfound
  -- the search starts from the feasible point of the stage, and evaluates what the stage knows
  have hfixed : π s.point = s.point := by
    obtain ⟨y, hy⟩ := hs.feasible
    rw [hP.project] at hy
    rw [← Except.ok.inj hy, hP.idem]
  rw [hP.project, hfixed] at hfeasible
  cases hfeasible
  obtain ⟨_, _, hrecorded⟩ := hs.recorded
  obtain rfl := ((hf.value _).computes_of_yields hrecorded.value_at).eq_of_yields hvalue
  obtain rfl := ((hf.gradient _).computes_of_yields hs.gradient_at).eq_of_yields hgradient
  have hhalf : ∀ {t : ℝ}, 0 < t → 0 < t * Scalar.half := fun ht => by
    rw [Scalar.half_real]
    exact mul_pos ht one_half_pos
  obtain ⟨hsize, -, -, bound, hbound, hle⟩ :=
    ProjectedBacktracking.Path.ends_of_yields_backtrack (Q := (0 < ·)) hhalf one_pos hbacktrack
  rw [ProjectedBacktracking.Path.bound_eq hP] at hbound
  cases hbound
  -- a step without a gap would make the stage stationary
  have hgap : s.point - π (s.point - found.size • s.gradient) ≠ 0 := by
    intro hzero
    have hstationary : π (s.point - s.gradient) = s.point :=
      hP.project_sub_eq_of_project_sub_smul_eq hsize (sub_eq_zero.mp hzero).symm
    obtain ⟨gap, hgapEq, hnorm⟩ := stationarity_cases hs.stationarity_eq
    rw [hP.gradientStep_eq, hstationary, sub_self] at hgapEq
    cases hgapEq
    rw [hnorm, Vec.norm_eq, norm_zero] at habove
    exact Config.not_le_of_validate hvalid habove.le
  have hsigma := SearchParams.sigma_pos_of_validateBacktracking hparams
  have hdecrease := mul_pos (div_pos hsigma hsize) (pow_pos (norm_pos_iff.mpr hgap) 2)
  exact hle.trans_lt (sub_lt_self s.value hdecrease)

section Nearest

variable (hP : P.Nearest π) (hf : f.Deterministic)

include hP hf

theorem Holds.value_lt_of_step (hs : (routine config f P x).Holds k s)
    (habove : config.tolerance < s.stationarity) (h : (step config f P s).Yields t) :
    t.value < s.value := by
  obtain ⟨first, hfirst, -⟩ := id hs
  exact ProjectedNewton.value_lt_of_step hP hf (start_of_yields_routine hfirst).1
    (faithful_of_holds hs) habove h

theorem decreasing_of_holds (h : (routine config f P x).Holds k s) :
    Decreasing s.history s.value := by
  refine h.invariant (I := fun _ s => Decreasing s.history s.value) ?_ ?_
  · intro s hs
    obtain ⟨_, value, _, _, _, _, _, _, rfl⟩ := start_cases (start_of_yields_routine hs).2
    exact .singleton value
  · intro k s t hholds hs habove hstep
    have hless := Holds.value_lt_of_step hP hf hholds habove hstep
    obtain ⟨_, _, found, _, _, _, _, _, _, rfl⟩ := step_cases hstep
    exact hs.push hless

theorem point_ne_of_lt (hs : (routine config f P x).Holds j s)
    (ht : (routine config f P x).Holds k t) (hjk : j < k) : t.point ≠ s.point := by
  have hless := hs.lt_of_steps (v := State.value) (deterministic_routine config hf P x)
    (fun _ _ _ => Holds.value_lt_of_step hP hf) ht hjk
  obtain ⟨_, _, hsrecorded⟩ := (faithful_of_holds hs).recorded
  obtain ⟨_, _, htrecorded⟩ := (faithful_of_holds ht).recorded
  exact ne_of_value_lt hf.value hsrecorded.value_at htrecorded.value_at hless

end Nearest

/-- Where no point can be projected a run has no stages. -/
theorem not_holds_of_error {e : Failure ℝ} (herror : P.project x = .error e) :
    ¬ (routine config f P x).Holds k s := by
  rintro ⟨first, hfirst, -⟩
  obtain ⟨_, _, _, _, hproject, _⟩ := start_cases (start_of_yields_routine hfirst).2
  rw [herror] at hproject
  cases hproject

end ProjectedNewton

/-! ### Implicit filtering -/

namespace ImplicitFiltering

variable {config : Config ℝ} {f : Objective σ ℝ n} {P : Projection ℝ n} {x : Vec ℝ n} {j k : Nat}
  {s t : State ℝ n}

/-- A sweep leaves the best point where it is, or finds another one with a smaller value. -/
theorem sweep_settles_or_descends (hf : f.Deterministic) (hvalue : (f.value s.best).Yields s.value)
    (h : (sweep config f P s).Yields t) :
    (t.best = s.best ∧ t.value = s.value) ∨ (t.best ≠ s.best ∧ t.value < s.value) := by
  have hvalue' := value_of_sweep hvalue h
  obtain ⟨u, hu, rfl⟩ := sweep_cases h
  have hsweep : (u.best = s.best ∧ u.value = s.value) ∨ u.value < s.value := by
    -- over the scales of the sweep
    refine Run.invariant_of_yields_foldlM
      (I := fun u : State ℝ n => (u.best = s.best ∧ u.value = s.value) ∨ u.value < s.value) ?_ ?_ hu
    · intro u h u' hu hvisit
      obtain ⟨_, _, _, value, _, _, ⟨_, hless, rfl⟩ | ⟨_, rfl⟩⟩ := visit_cases hvisit
      · have hle : u.value ≤ s.value := hu.elim (fun h => h.2.le) le_of_lt
        exact .inr (hless.trans_le hle)
      · exact hu
    · exact .inl ⟨rfl, rfl⟩
  rcases hsweep with hsettled | hless
  · exact .inl hsettled
  · exact .inr ⟨ne_of_value_lt hf.value hvalue hvalue' hless, hless⟩

/-- The same of a step of the loop, which flags a sweep that leaves the best point where it is. -/
theorem step_settles_or_descends (hf : f.Deterministic) {a b : State ℝ n × Bool}
    (hvalue : (f.value a.1.best).Yields a.1.value) (h : ((loop config f P).step a).Yields b) :
    (b.2 = true ∧ b.1.best = a.1.best ∧ b.1.value = a.1.value) ∨
      (b.2 = false ∧ b.1.value < a.1.value) := by
  obtain ⟨hsweep, hflag⟩ := step_cases h
  rcases sweep_settles_or_descends hf hvalue hsweep with ⟨hbest, hsame⟩ | ⟨hbest, hless⟩
  · exact .inl ⟨by rw [hflag, hbest, beq_self_eq_true], hbest, hsame⟩
  · exact .inr ⟨by rw [hflag, beq_eq_false_iff_ne.mpr hbest], hless⟩

/-- What the flag of a stage says about its history. -/
structure Settling (a : State ℝ n × Bool) : Prop where
  /-- Without the flag all values decrease. -/
  moving : a.2 = false → Decreasing a.1.history a.1.value
  /-- With the flag the last value repeats the one before it. -/
  settled : a.2 = true → ∃ history, Decreasing history a.1.value ∧
    a.1.history = history.push a.1.value

/-- The flag of a stage tells whether its last value is new. -/
theorem settling_of_holds (hf : f.Deterministic) {a : State ℝ n × Bool}
    (h : (routine config f P x).Holds k a) : Settling a := by
  refine h.invariant (I := fun _ a => Settling a) ?_ ?_
  · intro a ha
    obtain ⟨-, s, hs, rfl⟩ := start_of_yields_routine ha
    obtain ⟨_, value, _, _, rfl⟩ := start_cases hs
    exact ⟨fun _ => .singleton value, fun h => by cases h⟩
  · intro k a b hholds ha hgo hstep
    obtain ⟨_, _, hrecorded⟩ := (faithful_of_holds hholds).recorded
    obtain ⟨-, hhistory⟩ := move_of_sweep (step_cases hstep).1
    -- the loop goes on from stages without the flag only
    have hdecreasing := ha.moving hgo
    rcases step_settles_or_descends hf hrecorded.value_at hstep with
      ⟨hflag, -, hvalue⟩ | ⟨hflag, hless⟩
    · rw [← hvalue] at hdecreasing
      refine ⟨fun h => ?_, fun _ => ⟨a.1.history, hdecreasing, hhistory⟩⟩
      rw [hflag] at h
      cases h
    · refine ⟨fun _ => ?_, fun h => ?_⟩
      · rw [hhistory]
        exact hdecreasing.push hless
      · rw [hflag] at h
        cases h

/-- The outcome of implicit filtering repeats its last value. -/
theorem descendsAndSettles (hf : f.Deterministic) {o : Outcome ℝ n}
    (h : (minimize config f P x).Yields o) : o.DescendsAndSettles := by
  obtain ⟨k, -, last, hlast, _, _, -, -, rfl⟩ := minimize_cases h
  obtain ⟨history, hdecreasing, hhistory⟩ := (settling_of_holds hf hlast).settled rfl
  exact hdecreasing.descendsAndSettles hhistory

/-- A run has the same best point again only after the sweep that ends it. -/
theorem settled_of_best_eq (hf : f.Deterministic) {a b : State ℝ n × Bool}
    (ha : (routine config f P x).Holds j a) (hb : (routine config f P x).Holds k b) (hjk : j < k)
    (hbest : b.1.best = a.1.best) : k = j + 1 ∧ b.2 = true := by
  have hreaches := ha.reaches (deterministic_routine config hf P x) hb hjk.le
  have hsplit : b.1.value < a.1.value ∨ k - j = 1 ∧ b.2 = true := by
    refine (hreaches.invariant (I := fun i u => (routine config f P x).Holds (j + i) u ∧
      (0 < i → u.1.value < a.1.value ∨ i = 1 ∧ u.2 = true)) ?_
      ⟨ha, fun h => absurd h (lt_irrefl 0)⟩).2 (Nat.sub_pos_of_lt hjk)
    rintro i u w ⟨hu, hless⟩ hgo hw
    refine ⟨hu.step hgo hw, fun _ => ?_⟩
    obtain ⟨_, _, hrecorded⟩ := (faithful_of_holds hu).recorded
    have hlast := step_settles_or_descends hf hrecorded.value_at hw
    rcases Nat.eq_zero_or_pos i with rfl | hi
    · cases hu.unique (deterministic_routine config hf P x) ha
      exact hlast.symm.imp And.right fun h => ⟨rfl, h.1⟩
    · -- the loop went on from `u`, so `u` is better than `a`
      have hbetter : u.1.value < a.1.value := by
        refine (hless hi).resolve_right fun h => ?_
        rw [show u.2 = false from hgo] at h
        cases h.2
      exact .inl (hlast.elim (fun h => h.2.2.trans_lt hbetter) fun h => h.2.trans hbetter)
  rcases hsplit with hless | ⟨hone, hflag⟩
  · obtain ⟨_, hy, hrecorded⟩ := (faithful_of_holds ha).recorded
    obtain ⟨_, hy', hrecorded'⟩ := (faithful_of_holds hb).recorded
    exact absurd hbest (ne_of_value_lt hf.value hrecorded.value_at hrecorded'.value_at hless)
  · exact ⟨by omega, hflag⟩

end ImplicitFiltering

end Downhill
