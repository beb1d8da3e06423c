import Downhill.Proofs.Method.ScaleDescent
import Downhill.Proofs.Method.StrictDescent

/-!
# What a run of implicit filtering certifies

* `minimize_exhausts_scales`: in exact arithmetic, over a box or a ball, nothing is to be gained at
  any scale of the settings from the point that a run returns.

The loop only compares the best point before a sweep with the one after it. But a visit that gains
something makes the best value smaller, and later visits do not make it larger again
(`exhausted_or_lt_of_foldlM`). So a sweep that leaves the best point where it was has visited every
scale from there, and gained nothing at any of them.
-/

namespace Downhill.ImplicitFiltering

variable {σ : Type} {n : Nat}

/-! ### Feasible best points -/

section Feasible

variable {α : Type} [Scalar α] {config : Config α} {f : Objective σ α n} {P : Projection α n}
  {x : Vec α n} {k : Nat}

/-- A descent from a projected point ends at one. -/
theorem Scale.Descends.projected {s : Scale σ α n} {remaining : Nat} {x y : Vec α n} {stop : Stop}
    (h : s.Descends remaining x y stop) (hx : ∃ z, s.projection.project z = .ok x) :
    ∃ z, s.projection.project z = .ok y := by
  induction h with
  | stencilFailure => exact hx
  | stationary => exact hx
  | stepLimit => exact hx
  | lineSearchFailure => exact hx
  | step _ _ _ hsome _ ih =>
    obtain ⟨_, _, _, -, htrial, -⟩ :=
      trial_of_backtrack_some (Q := fun _ => True) (fun h => h) trivial hsome
    exact ih ⟨_, htrial.point_eq⟩

/-- The best point of a stage is projected, and has the value that the stage knows. -/
structure State.Sound (f : Objective σ α n) (P : Projection α n) (s : State α n) : Prop where
  /-- The best point is a projection. -/
  projected : ∃ y, P.project y = .ok s.best
  /-- The value is that of the best point. -/
  value_at : (f.value s.best).Yields s.value

theorem sound_of_visit {s s' : State α n} {h : α} (hs : s.Sound f P)
    (hvisit : (visit config f P s h).Yields s') : s'.Sound f P := by
  obtain ⟨candidate, stop, used, value, hdescend, hvalue, ⟨-, -, rfl⟩ | ⟨-, rfl⟩⟩ :=
    visit_cases hvisit
  · obtain ⟨z, hz, hdescends⟩ := Scale.descend_cases hdescend
    exact ⟨hdescends.projected ⟨_, hz⟩, hvalue⟩
  · exact ⟨hs.projected, hs.value_at⟩

/-- All stages of a run are sound. -/
theorem sound_of_holds {a : State α n × Bool} (h : (routine config f P x).Holds k a) :
    a.1.Sound f P := by
  refine h.invariant (I := fun _ a => a.1.Sound f P) ?_ ?_
  · intro a ha
    obtain ⟨-, s, hs, rfl⟩ := start_of_yields_routine ha
    obtain ⟨best, value, hbest, hvalue, rfl⟩ := start_cases hs
    exact ⟨⟨x, hbest⟩, hvalue⟩
  · intro k a b _ ha _ hstep
    -- over the scales of a sweep
    obtain ⟨u, hu, hb⟩ := sweep_cases (step_cases hstep).1
    have hsound : u.Sound f P := by
      refine Run.invariant_of_yields_foldlM (I := fun u => u.Sound f P) ?_ ?_ hu
      · exact fun _ _ _ => sound_of_visit
      · exact ⟨ha.projected, ha.value_at⟩
    rw [hb]
    exact ⟨hsound.projected, hsound.value_at⟩

end Feasible

/-! ### Sweeps that gain nothing -/

/-- What valid settings are good for. -/
structure Config.Positive (config : Config ℝ) : Prop where
  /-- The scales are positive. -/
  scale_pos : ∀ h ∈ config.scales, 0 < h
  /-- The tolerance is positive. -/
  tolerance_pos : 0 < config.tolerance
  /-- The decrease parameter is positive. -/
  sigma_pos : 0 < config.sigma

theorem Config.positive_of_validate {config : Config ℝ} (h : config.validate = .ok ()) :
    config.Positive := by
  unfold Config.validate at h
  cases hscales : config.scales.find? (· ≤ 0) with
  | some h' =>
    rw [hscales] at h
    split_ifs at h
  | none =>
    rw [hscales] at h
    split_ifs at h with hempty htolerance hsigma
    rw [List.find?_eq_none] at hscales
    rw [Bool.or_eq_true, decide_eq_true_iff, not_or, not_le] at hsigma
    exact ⟨fun s hs => not_le.mp fun hle => hscales s hs (decide_eq_true hle),
      not_le.mp htolerance, hsigma.1⟩

section Exact

variable {config : Config ℝ} {f : Objective σ ℝ n} {P : Projection ℝ n}
  {π : Vec ℝ n → Vec ℝ n} {s s' : State ℝ n}

/-- A projection fixes what it has projected. -/
theorem State.Sound.fixed (hs : s.Sound f P) (hP : P.Nearest π) : π s.best = s.best := by
  obtain ⟨y, hy⟩ := hs.projected
  rw [hP.project] at hy
  rw [← Except.ok.inj hy, hP.idem]

section Visits

variable (hf : f.Deterministic) (hP : P.Nearest π) (hvalid : config.Positive)

include hf hP hvalid

/-- A visit makes the value smaller, or nothing is to be gained at its scale. -/
theorem exhausted_or_lt_of_visit {h : ℝ} (hh : 0 < h) (hs : s.Sound f P)
    (hvisit : (visit config f P s h).Yields s') :
    (s'.best = s.best ∧ s'.value = s.value ∧
      (⟨config, f, P, h⟩ : Scale σ ℝ n).Exhausted s.best) ∨ s'.value < s.value := by
  obtain ⟨candidate, stop, used, value, hdescend, hvalue, hcases⟩ := visit_cases hvisit
  obtain ⟨z, hz, hdescends⟩ := Scale.descend_cases hdescend
  -- the descent begins at the best point, which the projection does not move
  obtain rfl : s.best = z := by
    rw [hP.project, hs.fixed hP] at hz
    exact Except.ok.inj hz
  have hbest := (hf.value s.best).computes_of_yields hs.value_at
  -- a candidate that is kept has a smaller value
  rcases hcases with ⟨-, hless, rfl⟩ | ⟨hkept, rfl⟩
  · exact .inr hless
  refine .inl ⟨rfl, rfl, (Scale.exhausted_or_descends hf hvalid.sigma_pos hP hh hvalid.tolerance_pos
    hbest hdescends).resolve_right ?_⟩
  -- a candidate with a smaller value would have been kept
  rintro ⟨w, hw, hless⟩
  obtain rfl := hw.eq_of_yields hvalue
  exact hkept ⟨beq_eq_false_iff_ne.mpr (ne_of_value_lt hf.value hs.value_at hvalue hless), hless⟩

/-- Some visit makes the value smaller, or nothing is to be gained at any of the scales. -/
theorem exhausted_or_lt_of_foldlM {scales : List ℝ} (hscales : ∀ h ∈ scales, 0 < h)
    (hs : s.Sound f P) (hfold : (scales.foldlM (visit config f P) s).Yields s') :
    (s'.best = s.best ∧ s'.value = s.value ∧
      ∀ h ∈ scales, (⟨config, f, P, h⟩ : Scale σ ℝ n).Exhausted s.best) ∨ s'.value < s.value := by
  -- by induction on the scales that are left
  induction scales generalizing s with
  | nil =>
    rw [Run.eq_of_yields_pure hfold]
    exact .inl ⟨rfl, rfl, fun h hh => absurd hh List.not_mem_nil⟩
  | cons h scales ih =>
    rw [List.foldlM_cons] at hfold
    obtain ⟨u, hu, hrest⟩ := Run.exists_of_yields_bind hfold
    rw [List.forall_mem_cons] at hscales
    have hlater := ih hscales.2 (sound_of_visit hs hu) hrest
    -- the first visit stays where it is, so the later ones start from there
    rcases exhausted_or_lt_of_visit hf hP hvalid hscales.1 hs hu with
      ⟨hbest, hvalue, hexhausted⟩ | hless
    · rw [hbest, hvalue] at hlater
      exact hlater.imp_left fun ⟨hbest', hvalue', hall⟩ =>
        ⟨hbest', hvalue', List.forall_mem_cons.mpr ⟨hexhausted, hall⟩⟩
    · exact .inr (hlater.elim (fun h => h.2.1.trans_lt hless) fun h => h.trans hless)

/-- After a sweep that leaves the best point where it was, nothing is to be gained at any scale. -/
theorem exhausted_of_sweep (hs : s.Sound f P) (hsweep : (sweep config f P s).Yields s')
    (hbest : s'.best = s.best) :
    ∀ h ∈ config.scales, (⟨config, f, P, h⟩ : Scale σ ℝ n).Exhausted s'.best := by
  have hvalue' := value_of_sweep hs.value_at hsweep
  obtain ⟨u, hu, rfl⟩ := sweep_cases hsweep
  have hfirst : ({ s with sweeps := s.sweeps + 1 } : State ℝ n).Sound f P :=
    ⟨hs.projected, hs.value_at⟩
  rcases exhausted_or_lt_of_foldlM hf hP hvalid hvalid.scale_pos hfirst hu with
    ⟨-, -, hall⟩ | hless
  · rwa [hbest]
  · exact absurd hbest (ne_of_value_lt hf.value hs.value_at hvalue' hless)

end Visits

/-- The last stage of a run was held before its last sweep. -/
theorem exists_sweep_of_holds {x : Vec ℝ n} {k : Nat} {last : State ℝ n}
    (h : (routine config f P x).Holds k (last, true)) :
    ∃ j s, (routine config f P x).Holds j (s, false) ∧ (sweep config f P s).Yields last ∧
      last.best = s.best := by
  obtain ⟨first, hfirst, hreaches⟩ := h
  -- the flag of a first stage is not set
  cases hreaches with
  | refl =>
    obtain ⟨-, _, -, heq⟩ := start_of_yields_routine hfirst
    cases heq
  | @step j a _ hreaches hgo hstep =>
    obtain ⟨s, settled⟩ := a
    obtain rfl : settled = false := hgo
    obtain ⟨hsweep, hflag⟩ := step_cases hstep
    exact ⟨j, s, ⟨first, hfirst, hreaches⟩, hsweep, eq_of_beq hflag.symm⟩

/-- **What a run certifies**: in exact arithmetic, whatever the deterministic objective, the box or
the ball, the settings and the start. The point that a run returns belongs to the set, and at every
scale of the settings, not only at the last one, the stencil around it is a failure, the projected
simplex gradient is within the tolerance, or none of the steps that backtracking tries decreases
enough. -/
theorem minimize_exhausts_scales (config : Config ℝ) (hf : f.Deterministic) (hP : P.IsBoxOrBall)
    (x : Vec ℝ n) {o : Outcome ℝ n} (h : (minimize config f P x).Yields o) :
    P.contains o.point = .ok true ∧
      ∀ h ∈ config.scales, (⟨config, f, P, h⟩ : Scale σ ℝ n).Exhausted o.point := by
  obtain ⟨k, -, last, hlast, _, _, -, -, rfl⟩ := minimize_cases h
  obtain ⟨j, s, hs, hsweep, hbest⟩ := exists_sweep_of_holds hlast
  obtain ⟨first, hfirst, -⟩ := id hlast
  obtain ⟨hvalid, t, ht, -⟩ := start_of_yields_routine hfirst
  obtain ⟨π, hnearest⟩ | ⟨_, _, herror⟩ := hP.nearest_or_error
  · refine ⟨?_, exhausted_of_sweep hf hnearest (Config.positive_of_validate hvalid)
      (sound_of_holds hs) hsweep hbest⟩
    show P.contains last.best = _
    unfold Projection.contains
    rw [hnearest.project, (sound_of_holds hlast).fixed hnearest]
    exact congrArg Except.ok (beq_self_eq_true _)
  · -- a projection of another dimension lets no run start
    obtain ⟨_, _, hproject, -⟩ := start_cases ht
    rw [herror] at hproject
    cases hproject

/-! ### A run to the edge of a box -/

/-- The box from one to two. -/
noncomputable def edgeBox : Box ℝ 1 := ⟨.singleton 1, .singleton 2.0⟩

theorem clamp_edgeBox : edgeBox.clamp #v[0] = #v[1] ∧ edgeBox.clamp #v[1] = #v[1] := by
  have hclamp : ∀ t ≤ 1, edgeBox.clamp #v[t] = #v[1] := fun t ht => by
    rw [Vec.eq_singleton (edgeBox.clamp _), Box.getElem_clamp]
    show #v[min (max t 1) 2.0] = _
    rw [max_eq_right ht, min_eq_left (by norm_num)]
  exact ⟨hclamp 0 zero_le_one, hclamp 1 le_rfl⟩

/-- The projected gradient step of half the square from one does not leave one. -/
theorem gradientStep_edgeBox : (edgeBox.projection 1).gradientStep #v[1] #v[1] = .ok #v[0] := by
  rw [edgeBox.nearest.gradientStep_eq, Vec.singleton_sub, sub_self, clamp_edgeBox.1,
    Vec.singleton_sub, sub_self]

/-- The descent over that box for half the square. -/
noncomputable def edgeScale (h : ℝ) : Scale σ ℝ 1 :=
  ⟨{}, (Quadratic.simple 1).objective 1, edgeBox.projection 1, h⟩

theorem computes_iterate_edge {h : ℝ} (hh : 0 < h) (remaining used : Nat) :
    ∃ stop, ((edgeScale h : Scale σ ℝ 1).iterate remaining #v[1] used).Computes
      (#v[1], stop, used + 5) := by
  have hfailed := computes_isFailure_simple (σ := σ) hh 1
  generalize (!((1 + h) ^ 2 / 2 < (1 : ℝ) ^ 2 / 2 || (1 - h) ^ 2 / 2 < (1 : ℝ) ^ 2 / 2)) = failed
    at hfailed
  rw [Scale.iterate]
  cases failed with
  | true =>
    exact ⟨_, (computes_simplexGradient_simple hh 1).bind (hfailed.bind (Run.computes_pure _))⟩
  | false =>
    refine ⟨.stationary, (computes_simplexGradient_simple hh 1).bind (hfailed.bind
      ((Run.computes_liftM gradientStep_edgeBox).bind ?_))⟩
    rw [if_pos]
    · exact Run.computes_pure _
    · show Vec.norm #v[0] ≤ 1e-3 * h
      rw [Vec.norm_eq, Vec.norm_singleton, abs_zero]
      positivity

theorem computes_visit_edge {h : ℝ} (hh : 0 < h) (sweeps evaluations : Nat) (history : Array ℝ) :
    (visit {} ((Quadratic.simple 1).objective 1 : Objective σ ℝ 1) (edgeBox.projection 1)
      ⟨#v[1], 1 ^ 2 / 2, sweeps, evaluations, history⟩ h).Computes
        ⟨#v[1], 1 ^ 2 / 2, sweeps, evaluations + 6, history⟩ := by
  have hproject : (edgeBox.projection 1).project #v[1] = .ok #v[1] := by
    rw [edgeBox.projection_eq, clamp_edgeBox.2]
  obtain ⟨stop, hiterate⟩ := computes_iterate_edge (σ := σ) hh 10 0
  have hdescend : ((edgeScale h : Scale σ ℝ 1).descend #v[1]).Computes (#v[1], stop, 0 + 5) :=
    (Run.computes_liftM hproject).bind hiterate
  refine hdescend.bind ((computes_value_simple 1).bind ((Run.computes_record _).bind ?_))
  dsimp only
  rw [beq_self_eq_true]
  exact Run.computes_pure _

/-- Visits of any number of scales stay at the edge. -/
theorem computes_visits_edge (history : Array ℝ) (sweeps : Nat) {scales : List ℝ}
    (hscales : ∀ h ∈ scales, 0 < h) (evaluations : Nat) :
    (scales.foldlM (visit {} ((Quadratic.simple 1).objective 1 : Objective σ ℝ 1)
      (edgeBox.projection 1)) ⟨#v[1], 1 ^ 2 / 2, sweeps, evaluations, history⟩).Computes
        ⟨#v[1], 1 ^ 2 / 2, sweeps, evaluations + 6 * scales.length, history⟩ := by
  induction scales generalizing evaluations with
  | nil => exact Run.computes_pure _
  | cons h scales ih =>
    rw [List.forall_mem_cons] at hscales
    rw [List.foldlM_cons, List.length_cons, Nat.mul_succ, Nat.add_comm (6 * scales.length),
      ← Nat.add_assoc]
    exact (computes_visit_edge hscales.1 _ _ _).bind (ih hscales.2 _)

theorem default_validate : Config.validate ({} : Config ℝ) = .ok () := by
  norm_num [Config.validate, Scalar.gradientTolerance, List.find?]

/-- From zero, which is projected to one, a run of half the square ends there after one sweep. -/
theorem exists_yields_minimize_edge [Inhabited σ] :
    ∃ o, (minimize {} ((Quadratic.simple 1).objective 1 : Objective σ ℝ 1) (edgeBox.projection 1)
      #v[0]).Yields o ∧ o.point = #v[1] := by
  set f : Objective σ ℝ 1 := (Quadratic.simple 1).objective 1
  set R := routine {} f (edgeBox.projection 1) #v[0]
  set first : State ℝ 1 := ⟨#v[1], 1 ^ 2 / 2, 0, 1, #[1 ^ 2 / 2]⟩
  set swept : State ℝ 1 := ⟨#v[1], 1 ^ 2 / 2, 1, 37, #[1 ^ 2 / 2]⟩
  have hproject : (edgeBox.projection 1).project #v[0] = .ok #v[1] := by
    rw [edgeBox.projection_eq, clamp_edgeBox.1]
  have hstart : (start f (edgeBox.projection 1) #v[0]).Computes first :=
    (Run.computes_liftM hproject).bind ((computes_value_simple 1).bind (Run.computes_pure first))
  have hfirst : R.start.Computes (first, false) :=
    (Run.computes_liftM default_validate).bind ((Run.computes_record _).bind
      (hstart.bind (Run.computes_pure (first, false))))
  -- one sweep over six scales, of six values each
  have hsweep : (sweep {} f (edgeBox.projection 1) first).Computes swept.close :=
    (computes_visits_edge #[1 ^ 2 / 2] 1 (Config.positive_of_validate default_validate).scale_pos
      1).bind ((Run.computes_record _).bind (Run.computes_pure swept.close))
  have hstays : (R.loop.step (first, false)).Computes (swept.close, true) := by
    refine hsweep.bind ?_
    rw [show (swept.close.best == first.best) = true from beq_self_eq_true _]
    exact Run.computes_pure _
  have hlast : R.Holds 1 (swept.close, true) :=
    ⟨_, hfirst.yields, Loop.Reaches.refl.step rfl hstays.yields⟩
  -- the last gradient is that of the least scale
  have hfinest : 0 < finest ({} : Config ℝ) := by
    show 0 < Scalar.least (1 : ℝ) [1e-1, 1e-2, 1e-3, 1e-4, 1e-5]
    norm_num [Scalar.least]
  have hfinish : (R.finish (swept.close, true)).Computes
      (swept.close.outcome (Vec.norm (#v[0] : Vec ℝ 1))) :=
    (computes_simplexGradient_simple hfinest 1).bind ((Run.computes_liftM gradientStep_edgeBox).bind
      ((Run.computes_record _).bind (Run.computes_pure _)))
  have hrun := hlast.computes_run
    (deterministic_routine _ ((Quadratic.simple 1).deterministic 1) _ _) Bool.true_eq_false.mp
    hfinish.yields (show 1 ≤ ({} : Config ℝ).maxSweeps by decide)
  rw [← minimize_eq_run] at hrun
  exact ⟨_, hrun.yields, rfl⟩

/-- Over the box from one to two half the square is least at one: there the projected simplex
gradient vanishes at all the usual scales. -/
theorem minimize_exhausts_scales_edge :
    ∃ o, (minimize {} ((Quadratic.simple 1).objective 1 : Objective Unit ℝ 1)
        (edgeBox.projection 1) #v[0]).Yields o ∧ o.point = #v[1] ∧
      (edgeBox.projection 1).contains o.point = .ok true ∧
      ∀ h ∈ ({} : Config ℝ).scales, (⟨{}, (Quadratic.simple 1).objective 1,
        edgeBox.projection 1, h⟩ : Scale Unit ℝ 1).Exhausted o.point := by
  obtain ⟨o, ho, hpoint⟩ := exists_yields_minimize_edge (σ := Unit)
  exact ⟨o, ho, hpoint, minimize_exhausts_scales {} ((Quadratic.simple 1).deterministic 1)
    (.box edgeBox) _ ho⟩

end Exact

end Downhill.ImplicitFiltering
