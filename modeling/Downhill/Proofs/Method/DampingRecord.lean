import Downhill.Proofs.Method.Report
import Downhill.Proofs.Calls
import Mathlib.Data.List.DropRight

/-!
# The damping record of a fit

* `minimizeWithDamping_accounts`: what the record of a fit says about its trials, over every
  arithmetic.

A run with notes shows which residuals and Jacobians a fit computes, and in which order. Its calls
are those of a list of trials, each with the parameters, the residuals and the Jacobian that it
starts from. The pending trials at a stage are those since the last one that was accepted
(`pending`): all of them started from the stage as it still is, and each of them let the damping
grow once. The invariant of the loop is `Ledger`.
-/

namespace Downhill.LevenbergMarquardt

variable {σ α : Type} [Scalar α] {m : Nat}

/-! ### Trials -/

/-- A trial of a fit. -/
structure Trial (α : Type) (m : Nat) where
  /-- The parameters it starts from. -/
  base : Vec α m
  /-- Residuals and Jacobian there. -/
  model : Linearization α
  /-- The value there. -/
  value : α
  /-- The damping. -/
  damping : α
  /-- The parameters it looks at. -/
  point : Vec α m
  /-- The residuals there. -/
  residual : Array α

namespace Trial

/-- A trial is accepted if it lowers the value. -/
def accepted (t : Trial α m) : Bool := halfNormSq t.residual < t.value

/-- The calls that a trial makes. -/
def calls (t : Trial α m) : List (ModelQuery α m) :=
  if t.accepted then [.residual t.point, .jacobian t.point] else [.residual t.point]

/-- An accepted trial goes on to the Jacobian. -/
theorem calls_of_accepted {t : Trial α m} (h : t.accepted = true) :
    t.calls = [.residual t.point, .jacobian t.point] := by
  unfold calls
  rw [h, if_pos rfl]

theorem calls_of_rejected {t : Trial α m} (h : t.accepted = false) :
    t.calls = [.residual t.point] := by
  unfold calls
  rw [h, if_neg Bool.false_ne_true]

/-- The trial computes what it starts from and what it finds with the model of the fit. -/
structure Faithful (config : Config α) (model : ResidualModel σ α m) (t : Trial α m) : Prop where
  /-- The linearization was made at the parameters that the trial starts from. -/
  model_at : ∃ residual jacobian, (model.residual t.base).Yields residual ∧
    (model.jacobian t.base).Yields jacobian ∧ Linearization.make residual jacobian = .ok t.model ∧
    t.value = halfNormSq residual
  /-- It solves the normal equations with its damping. -/
  point_at : (trialPoint config (.first t.base t.damping #[] t.model) : Run σ α _).Yields t.point
  /-- It computes the residuals there. -/
  residual_at : (model.residual t.point).Yields t.residual

end Trial

/-- The trials since the last one that was accepted, or since the start. -/
def pending (trials : List (Trial α m)) : List (Trial α m) := trials.rtakeWhile fun t => !t.accepted

/-- The parameters of the last trial that was accepted, or those of the start. -/
def current (p : Vec α m) (trials : List (Trial α m)) : Vec α m :=
  ((trials.filter Trial.accepted).getLast?.map Trial.point).getD p

/-- The initial damping after so many rejected trials. -/
def grown (config : Config α) (rejected : Nat) : α :=
  (· * config.dampingGrowth)^[rejected] config.initialDamping

section Append

variable {trials : List (Trial α m)} {t : Trial α m}

/-- After an accepted trial none is pending. -/
theorem pending_append_of_accepted (h : t.accepted = true) : pending (trials ++ [t]) = [] :=
  List.rtakeWhile_concat_neg _ _ _ (by rw [h]; exact Bool.false_ne_true)

theorem pending_append_of_rejected (h : t.accepted = false) :
    pending (trials ++ [t]) = pending trials ++ [t] :=
  List.rtakeWhile_concat_pos _ _ _ (by rw [h]; rfl)

/-- An accepted trial moves to the parameters it looked at. -/
theorem current_append_of_accepted (p : Vec α m) (h : t.accepted = true) :
    current p (trials ++ [t]) = t.point := by
  unfold current
  rw [List.filter_append, List.filter_singleton, h, cond_true, List.getLast?_concat]
  rfl

/-- A rejected trial leaves the parameters. -/
theorem current_append_of_rejected (p : Vec α m) (h : t.accepted = false) :
    current p (trials ++ [t]) = current p trials := by
  unfold current
  rw [List.filter_append, List.filter_singleton, h, cond_false, List.append_nil]

end Append

/-- One more rejected trial grows the damping once more. -/
theorem grown_succ (config : Config α) (rejected : Nat) :
    grown config (rejected + 1) = grown config rejected * config.dampingGrowth :=
  Function.iterate_succ_apply' _ _ _

/-- A trial of a fit from `p` after the earlier ones. -/
structure Trial.Follows (config : Config α) (p : Vec α m) (earlier : List (Trial α m))
    (t : Trial α m) : Prop where
  /-- It starts from what the last accepted trial looked at. -/
  base_eq : t.base = current p earlier
  /-- The damping has grown once with each trial that was rejected since then. -/
  damping_eq : t.damping = grown config (pending earlier).length
  /-- These trials started from the same parameters, residuals and Jacobian. -/
  same : ∀ u ∈ pending earlier, u.base = t.base ∧ u.model = t.model ∧ u.value = t.value

/-- The trial that is made at a stage. -/
def State.trial (s : State α m) (point : Vec α m) (residual : Array α) : Trial α m :=
  ⟨s.point, s.model, s.value, s.damping, point, residual⟩

/-! ### The invariant -/

/-- The stage of a fit from `p` after the given trials, with the calls so far. -/
structure Ledger (config : Config α) (model : ResidualModel σ α m) (p : Vec α m) (s : State α m)
    (calls : List (ModelQuery α m)) (trials : List (Trial α m)) : Prop where
  /-- The calls are those of the start and of the trials. -/
  calls_eq : calls = .residual p :: .jacobian p :: trials.flatMap Trial.calls
  /-- The dampings are recorded. -/
  dampings_eq : s.dampings.toList = trials.map Trial.damping
  /-- The trials are counted. -/
  trials_eq : s.trials = trials.length
  /-- The rejected trials are counted. -/
  rejected_eq : s.rejected = trials.countP fun t => !t.accepted
  /-- The residuals were computed at the start and for each trial. -/
  evaluations_eq : s.evaluations = trials.length + 1
  /-- The history has an entry for the start and for each accepted trial. -/
  size_history : s.history.size = trials.countP Trial.accepted + 1
  /-- The next trial starts from here. -/
  point_eq : s.point = current p trials
  /-- The damping of the next trial. -/
  damping_eq : s.damping = grown config (pending trials).length
  /-- The linearization was made here. -/
  model_at : ∃ residual jacobian, (model.residual s.point).Yields residual ∧
    (model.jacobian s.point).Yields jacobian ∧ Linearization.make residual jacobian = .ok s.model ∧
    s.value = halfNormSq residual
  /-- The trials since the last accepted one started from here. -/
  same : ∀ t ∈ pending trials, t.base = s.point ∧ t.model = s.model ∧ t.value = s.value
  /-- After a rejected trial the stopping functional is still above the tolerance. -/
  above : ∀ t ∈ trials.getLast?, t.accepted = false → config.tolerance < s.stationarity
  /-- Each trial was made with the model of the fit. -/
  faithful : ∀ t ∈ trials, t.Faithful config model
  /-- Each trial follows those before it. -/
  follows : ∀ earlier t, earlier ++ [t] <+: trials → t.Follows config p earlier

namespace Ledger

variable {config : Config α} {model : ResidualModel σ α m} {p point : Vec α m} {s : State α m}
  {calls : List (ModelQuery α m)} {trials : List (Trial α m)} {residual : Array α}
  {jacobian : AnyMat α} {l : Linearization α}

theorem start (hresidual : (model.residual p).Yields residual)
    (hjacobian : (model.jacobian p).Yields jacobian)
    (hl : Linearization.make residual jacobian = .ok l) :
    Ledger config model p (.first p config.initialDamping residual l) [.residual p, .jacobian p]
      [] where
  calls_eq := rfl
  dampings_eq := rfl
  trials_eq := rfl
  rejected_eq := rfl
  evaluations_eq := rfl
  size_history := rfl
  point_eq := rfl
  damping_eq := rfl
  model_at := ⟨residual, jacobian, hresidual, hjacobian, hl, rfl⟩
  same _ ht := absurd ht List.not_mem_nil
  above _ ht := by cases ht
  faithful _ ht := absurd ht List.not_mem_nil
  follows earlier t h :=
    absurd (List.prefix_nil.mp h) (List.append_ne_nil_of_right_ne_nil _ (by simp))

section Step

variable (h : Ledger config model p s calls trials)
  (hpoint : (trialPoint config s : Run σ α _).Yields point)
  (hresidual : (model.residual point).Yields residual)

include h hpoint hresidual

/-- What a trial at the stage has in common with all trials. -/
theorem faithful_trial : (s.trial point residual).Faithful config model :=
  ⟨h.model_at, hpoint, hresidual⟩

omit hpoint hresidual in
/-- A trial after the others follows all of them. -/
theorem follows_append (t : Trial α m) (ht : t.Follows config p trials) (earlier : List (Trial α m))
    (u : Trial α m) (hu : earlier ++ [u] <+: trials ++ [t]) : u.Follows config p earlier := by
  -- `u` is the new trial, or one of the earlier ones
  rcases List.prefix_concat_iff.mp hu with heq | hprefix
  · obtain ⟨rfl, hlast⟩ := List.append_inj' heq rfl
    cases hlast
    exact ht
  · exact h.follows earlier u hprefix

omit hpoint hresidual in
/-- The calls of a trial come after those before it. -/
theorem calls_append (t : Trial α m) :
    calls ++ t.calls = .residual p :: .jacobian p :: (trials ++ [t]).flatMap Trial.calls := by
  rw [h.calls_eq, List.flatMap_append, List.flatMap_singleton]
  rfl

omit hpoint hresidual in
/-- The damping of a trial comes after those before it. -/
theorem dampings_append :
    (s.dampings.push s.damping).toList =
      (trials ++ [s.trial point residual]).map Trial.damping := by
  rw [List.map_append, ← h.dampings_eq]
  exact Array.toList_push

omit hpoint hresidual in
theorem trials_append (t : Trial α m) : s.trials + 1 = (trials ++ [t]).length := by
  rw [List.length_append, ← h.trials_eq, List.length_singleton]

omit hpoint hresidual in
/-- The evaluation of the residuals is counted with the trial. -/
theorem evaluations_append (t : Trial α m) : s.evaluations + 1 = (trials ++ [t]).length + 1 := by
  rw [h.evaluations_eq, List.length_append, List.length_singleton]

/-- It was made with the model of the fit, as the others were. -/
theorem faithful_append : ∀ t ∈ trials ++ [s.trial point residual], t.Faithful config model :=
  List.forall_mem_append.mpr
    ⟨h.faithful, List.forall_mem_singleton.mpr (h.faithful_trial hpoint hresidual)⟩

omit hpoint hresidual in
/-- The trial at a stage follows the earlier ones. -/
theorem follows_trial : (s.trial point residual).Follows config p trials :=
  ⟨h.point_eq, h.damping_eq, h.same⟩

theorem accept (hless : halfNormSq residual < s.value)
    (hjacobian : (model.jacobian point).Yields jacobian)
    (hl : Linearization.make residual jacobian = .ok l) :
    Ledger config model p (s.accept config point residual l)
      (calls ++ [.residual point, .jacobian point]) (trials ++ [s.trial point residual]) := by
  have haccepted : (s.trial point residual).accepted = true := decide_eq_true hless
  exact
    { calls_eq := by
        rw [← h.calls_append, Trial.calls_of_accepted haccepted]
        rfl
      dampings_eq := h.dampings_append
      trials_eq := h.trials_append _
      rejected_eq := by
        rw [List.countP_append, ← h.rejected_eq, List.countP_singleton, haccepted]
        rfl
      evaluations_eq := h.evaluations_append _
      size_history := by
        rw [List.countP_append, List.countP_singleton, haccepted, if_pos rfl, ← h.size_history]
        exact Array.size_push _
      point_eq := (current_append_of_accepted p haccepted).symm
      damping_eq := by
        rw [pending_append_of_accepted haccepted]
        rfl
      model_at := ⟨residual, jacobian, hresidual, hjacobian, hl, rfl⟩
      same := by
        rw [pending_append_of_accepted haccepted]
        exact fun t ht => absurd ht List.not_mem_nil
      above := by
        intro t ht hrejected
        rw [List.getLast?_concat, Option.mem_some_iff] at ht
        rw [← ht, haccepted] at hrejected
        cases hrejected
      faithful := h.faithful_append hpoint hresidual
      follows := h.follows_append _ h.follows_trial }

theorem reject (hgo : config.tolerance < s.stationarity) (hless : ¬ halfNormSq residual < s.value) :
    Ledger config model p (s.reject config) (calls ++ [.residual point])
      (trials ++ [s.trial point residual]) := by
  have hrejected : (s.trial point residual).accepted = false := decide_eq_false hless
  exact
    { calls_eq := by
        rw [← h.calls_append, Trial.calls_of_rejected hrejected]
        rfl
      dampings_eq := h.dampings_append
      trials_eq := h.trials_append _
      rejected_eq := by
        rw [List.countP_append, ← h.rejected_eq, List.countP_singleton, hrejected]
        rfl
      evaluations_eq := h.evaluations_append _
      size_history := by
        rw [List.countP_append, List.countP_singleton, hrejected, if_neg Bool.false_ne_true]
        exact h.size_history
      point_eq := by
        rw [current_append_of_rejected p hrejected]
        exact h.point_eq
      damping_eq := by
        rw [pending_append_of_rejected hrejected, List.length_append, List.length_singleton,
          grown_succ, ← h.damping_eq]
        rfl
      model_at := h.model_at
      same := by
        rw [pending_append_of_rejected hrejected]
        exact List.forall_mem_append.mpr ⟨h.same, List.forall_mem_singleton.mpr ⟨rfl, rfl, rfl⟩⟩
      above := fun _ _ _ => hgo
      faithful := h.faithful_append hpoint hresidual
      follows := h.follows_append _ h.follows_trial }

end Step

end Ledger

/-! ### Fits with notes -/

section Fit

variable {κ : Type} {config : Config α} {model : ResidualModel σ α m} {p : Vec α m}
  {s : State α m} {calls : List (ModelQuery α m)}

/-- The parameters of a trial are found without a call. -/
theorem silent_trialPoint (config : Config α) (s : State α m) :
    (trialPoint config s : Run (σ × List κ) α _).Silent (trialPoint config s) :=
  (Run.silent_liftM _).bind fun _ => (ConjugateGradient.silent_solve _ _ _).bind fun _ =>
    (Run.silent_liftM _).bind fun _ => Run.silent_pure _

/-- A fit starts with one call of each kind. -/
theorem accounts_start (config : Config α) (model : ResidualModel σ α m) (p : Vec α m) :
    (start config model.noted p).Accounts (fun s calls => Ledger config model p s calls [])
      (start config model p) := by
  refine Run.accounts_noting_bind fun residual hresidual => Run.accounts_noting_bind
    fun jacobian hjacobian => (Run.silent_liftM _).bind_accounts fun l hl => ?_
  exact Run.accounts_pure (.start hresidual hjacobian (Run.ok_of_yields_liftM hl))

/-- A trial adds its calls to those before. -/
theorem accounts_step (hs : ∃ trials, Ledger config model p s calls trials)
    (hgo : config.tolerance < s.stationarity) :
    (step config model.noted s).Accounts
      (fun t later => ∃ trials, Ledger config model p t (calls ++ later) trials)
      (step config model s) := by
  obtain ⟨trials, hs⟩ := hs
  refine (silent_trialPoint config s).bind_accounts fun point hpoint => Run.accounts_noting_bind
    fun residual hresidual => ?_
  dsimp only
  -- an accepted trial calls for a Jacobian, a rejected one does not
  split_ifs with hless
  · refine Run.accounts_noting_bind fun jacobian hjacobian =>
      (Run.silent_liftM _).bind_accounts fun l hl => (Run.silent_record _).bind_accounts
        fun _ _ => Run.accounts_pure ⟨trials ++ [s.trial point residual], ?_⟩
    exact hs.accept hpoint hresidual hless hjacobian (Run.ok_of_yields_liftM hl)
  · refine (Run.silent_record _).bind_accounts fun _ _ =>
      Run.accounts_pure ⟨trials ++ [s.trial point residual], ?_⟩
    exact hs.reject hpoint hresidual hgo hless

/-- What the damping record of a fit from `p` says about its trials, and about the calls with which
it was made. -/
structure Result.Accounted (config : Config α) (model : ResidualModel σ α m) (p : Vec α m)
    (result : Result α m) (calls : List (ModelQuery α m)) (trials : List (Trial α m)) : Prop where
  /-- The calls are those of the start and of the trials. -/
  calls_eq : calls = .residual p :: .jacobian p :: trials.flatMap Trial.calls
  /-- The trials were made with the model of the fit. -/
  faithful : ∀ t ∈ trials, t.Faithful config model
  /-- There is an entry for each iteration. -/
  size_dampings : result.dampings.size = result.outcome.iterations
  /-- The entries are the dampings of the trials. -/
  dampings_eq : result.dampings.toList = trials.map Trial.damping
  /-- Each trial has grown its damping once with each rejected trial since the last accepted one, or
  since the start, and has started from the same parameters, residuals and Jacobian as they did. -/
  follows : ∀ earlier t, earlier ++ [t] <+: trials → t.Follows config p earlier
  /-- The rejected trials are counted. -/
  rejected_eq : result.rejected = trials.countP fun t => !t.accepted
  /-- They are the iterations without a new entry in the history. -/
  rejected_eq_sub : result.rejected = result.outcome.iterations - (result.outcome.history.size - 1)
  /-- There is an evaluation of the residuals for each iteration, and one at the start. -/
  valueEvaluations_eq : result.outcome.valueEvaluations = result.outcome.iterations + 1
  /-- These are the calls for residuals. -/
  residuals_eq : result.outcome.valueEvaluations = calls.countP ModelQuery.isResidual
  /-- There is an evaluation of the Jacobian for each entry of the history. -/
  gradientEvaluations_eq : result.outcome.gradientEvaluations = result.outcome.history.size
  /-- These are the other calls. -/
  jacobians_eq : result.outcome.gradientEvaluations = calls.countP fun c => !c.isResidual
  /-- The fit ends with a trial that was accepted, if there is one at all. -/
  last_accepted : ∀ t ∈ trials.getLast?, t.accepted = true

theorem countP_isResidual (trials : List (Trial α m)) :
    (trials.flatMap Trial.calls).countP ModelQuery.isResidual = trials.length := by
  induction trials with
  | nil => rfl
  | cons t trials ih =>
    have hone : t.calls.countP ModelQuery.isResidual = 1 := by
      unfold Trial.calls
      split_ifs <;> rfl
    rw [List.flatMap_cons, List.countP_append, ih, hone, List.length_cons, Nat.add_comm]

/-- Each accepted trial calls for a Jacobian once. -/
theorem countP_isJacobian (trials : List (Trial α m)) :
    ((trials.flatMap Trial.calls).countP fun c => !c.isResidual) =
      trials.countP Trial.accepted := by
  induction trials with
  | nil => rfl
  | cons t trials ih =>
    have hone : (t.calls.countP fun c => !c.isResidual) = if t.accepted then 1 else 0 := by
      unfold Trial.calls
      split_ifs <;> rfl
    rw [List.flatMap_cons, List.countP_append, ih, hone, List.countP_cons, Nat.add_comm]

theorem Ledger.accounted {trials : List (Trial α m)} (h : Ledger config model p s calls trials)
    (hend : ¬ config.tolerance < s.stationarity) :
    s.result.Accounted config model p calls trials where
  calls_eq := h.calls_eq
  faithful := h.faithful
  size_dampings := by
    show s.dampings.size = s.trials
    rw [← Array.length_toList, h.dampings_eq, List.length_map, h.trials_eq]
  dampings_eq := h.dampings_eq
  follows := h.follows
  rejected_eq := h.rejected_eq
  rejected_eq_sub := by
    show s.rejected = s.trials - (s.history.size - 1)
    have hsplit := trials.length_eq_countP_add_countP Trial.accepted
    simp only [Bool.not_eq_true, Bool.decide_eq_false] at hsplit
    rw [h.rejected_eq, h.trials_eq, h.size_history]
    omega
  valueEvaluations_eq := by
    show s.evaluations = s.trials + 1
    rw [h.evaluations_eq, h.trials_eq]
  residuals_eq := by
    show s.evaluations = _
    rw [h.calls_eq, h.evaluations_eq, List.countP_cons, List.countP_cons, countP_isResidual]
    rfl
  gradientEvaluations_eq := rfl
  jacobians_eq := by
    show s.history.size = _
    rw [h.calls_eq, h.size_history, List.countP_cons, List.countP_cons, countP_isJacobian]
    rfl
  last_accepted t ht := by
    -- after a rejected trial the fit would have gone on
    by_contra hrejected
    exact hend (h.above t ht (Bool.eq_false_iff.mpr hrejected))

/-- **The damping record of a fit**: over every arithmetic, whatever the model, the settings and the
start. A result and the calls of the fit that led to it are accounted for by a list of trials. -/
theorem minimizeWithDamping_accounts (config : Config α) (model : ResidualModel σ α m)
    (p : Vec α m) :
    (minimizeWithDamping config model.noted p).Accounts
      (fun result calls => ∃ trials, result.Accounted config model p calls trials)
      (minimizeWithDamping config model p) := by
  rw [minimizeWithDamping_eq_run, minimizeWithDamping_eq_run]
  have hstart : (routine config model.noted p).start.Accounts
      (fun s calls => ∃ trials, Ledger config model p s calls trials)
      (routine config model p).start := by
    refine (Run.silent_liftM _).bind_accounts fun _ _ => (Run.silent_record _).bind_accounts
      fun _ _ => (accounts_start config model p).mono fun _ _ h => ⟨_, h⟩
  refine hstart.bind fun s calls _ hs => ?_
  -- the invariant of the loop is that there are such trials
  have hloop : ((loop config model.noted).run config.maxIterations config.maxIterations s).Accounts
      (fun t later => ¬ (loop config model).continues t ∧
        ∃ trials, Ledger config model p t (calls ++ later) trials)
      ((loop config model).run config.maxIterations config.maxIterations s) :=
    Loop.accounts_run (I := fun s calls => ∃ trials, Ledger config model p s calls trials)
      (fun _ => Iff.rfl) (fun _ => rfl) (fun _ _ => accounts_step) _ hs
  refine hloop.bind fun last later _ ⟨hend, trials, hlast⟩ => (Run.silent_record _).bind_accounts
    fun _ _ => Run.accounts_pure ⟨trials, ?_⟩
  rw [List.append_nil]
  exact hlast.accounted hend

end Fit

/-- A fit in double precision, where two trials are rejected before the third one is accepted. -/
theorem minimizeWithDamping_accounts_double :
    ∃ result calls trials,
      (minimizeWithDamping looseFit doubleResidual #v[0.3]).Yields result ∧
      (result.outcome.iterations, result.rejected) = (3, 2) ∧
      result.Accounted looseFit doubleResidual #v[0.3] calls trials := by
  obtain ⟨calls, -, -, hcalls⟩ :=
    (minimizeWithDamping_accounts looseFit doubleResidual #v[0.3]).exists_calls ()
  have hcounts : ((minimizeWithDamping looseFit doubleResidual #v[0.3]).start ()).1.toOption.map
      (fun result => (result.outcome.iterations, result.rejected)) = some (3, 2) := by
    decide +kernel
  cases hrun : ((minimizeWithDamping looseFit doubleResidual #v[0.3]).start ()).1 with
  | error e =>
    rw [hrun] at hcounts
    cases hcounts
  | ok result =>
    rw [hrun] at hcounts
    obtain ⟨trials, haccounted⟩ := hcalls result hrun
    exact ⟨result, calls, trials, ⟨⟨(), #[]⟩, _, Prod.ext hrun rfl⟩, Option.some.inj hcounts,
      haccounted⟩

end Downhill.LevenbergMarquardt
