import Downhill.Proofs.Run
import Mathlib.Tactic.SplitIfs

/-!
# Loops with a cap

The methods of this library are loops of one kind: a stage is stepped on as long as a test holds,
and where the test still holds after as many steps as the cap allows, the loop fails with that
stage. A `Loop` is the step, the test and the failure; `Loop.run` runs it, with the cap that the
failure names apart from the number of steps that remain. A `Routine` is a loop with what comes
before and after it.

* `Loop.Reaches s k t`: `k` steps lead from the stage `s` to `t`, and the test held before each of
  them. A loop that succeeds has reached its result (`Loop.reaches_of_yields_run`), so whatever a
  step keeps holds at the end (`Loop.Reaches.invariant`).
* `Routine.Holds k t`: a run of the routine is at the stage `t` after `k` steps.
* A larger cap changes no result (`Routine.extends_run`). Where all parts are determined, a routine
  that ends after `k` steps ends so with every cap of `k` or more, and with a smaller cap it fails
  at the stage that it holds after as many steps (`Routine.Holds.computes_run`,
  `Routine.Holds.raises_run`).
-/

namespace Downhill

variable {σ α S : Type}

/-- A loop with a cap on its steps. -/
structure Loop (σ α S : Type) where
  /-- One step. -/
  step : S → Run σ α S
  /-- Whether the loop goes on from a stage. -/
  continues : S → Prop
  /-- The test can be made. -/
  decideContinues : DecidablePred continues
  /-- The failure with a cap, where the loop would go on from the last stage. -/
  exhausted : (cap : Nat) → S → Failure α

namespace Loop

instance (L : Loop σ α S) : DecidablePred L.continues := L.decideContinues

/-- Steps while the test holds, at most `remaining` of them; `cap` is the cap that a failure
names. -/
def run (L : Loop σ α S) (cap : Nat) : (remaining : Nat) → S → Run σ α S
  | 0, s => if L.continues s then throw (L.exhausted cap s) else pure s
  | remaining + 1, s =>
    if L.continues s then do
      let s ← L.step s
      L.run cap remaining s
    else pure s

/-- From the stage `s` the loop gets to `t` in `k` steps. -/
inductive Reaches (L : Loop σ α S) (s : S) : (k : Nat) → (t : S) → Prop
  | refl : L.Reaches s 0 s
  | step {k : Nat} {t u : S} (h : L.Reaches s k t) (hgo : L.continues t)
      (hstep : (L.step t).Yields u) : L.Reaches s (k + 1) u

variable {L : Loop σ α S} {cap remaining j k : Nat} {s t u : S} {e : Failure α}

/-! ### The ways in which a loop ends -/

/-- Where the test fails no step is made, whatever the cap. -/
theorem run_of_not_continues (h : ¬ L.continues s) : L.run cap remaining s = pure s := by
  cases remaining with
  | zero => rw [run, if_neg h]
  | succ remaining => rw [run, if_neg h]

theorem run_zero_of_continues (h : L.continues s) :
    L.run cap 0 s = throw (L.exhausted cap s) := by
  rw [run, if_pos h]

theorem run_succ_of_continues (h : L.continues s) :
    L.run cap (remaining + 1) s = L.step s >>= L.run cap remaining := by
  rw [run, if_pos h]

/-- A loop that may make a step makes one where its test holds. -/
theorem exists_run_eq_bind (cap : Nat) (hgo : L.continues s) (hremaining : 1 ≤ remaining) :
    ∃ rest, L.run cap remaining s = L.step s >>= L.run cap rest := by
  obtain ⟨rest, rfl⟩ := Nat.exists_eq_add_of_le' hremaining
  exact ⟨rest, run_succ_of_continues hgo⟩

/-- A loop whose first step is certain ends as it does from the stage after it. -/
theorem computes_run_of_step (hgo : L.continues s) (hstep : (L.step s).Computes t)
    (hrest : (L.run cap remaining t).Computes u) : (L.run cap (remaining + 1) s).Computes u := by
  rw [run_succ_of_continues hgo]
  exact hstep.bind hrest

theorem Reaches.head (hgo : L.continues s) (hstep : (L.step s).Yields t) (h : L.Reaches t k u) :
    L.Reaches s (k + 1) u := by
  induction h with
  | refl => exact .step .refl hgo hstep
  | step _ hgo' hstep' ih => exact .step ih hgo' hstep'

/-- A loop that succeeds has reached its result, where the test fails. -/
theorem reaches_of_yields_run :
    ∀ {remaining : Nat} {s : S}, (L.run cap remaining s).Yields t →
      ∃ k ≤ remaining, L.Reaches s k t ∧ ¬ L.continues t := by
  -- on the steps that remain; the first step is put in front of the run that follows it
  intro remaining
  induction remaining with
  | zero =>
    intro s h
    rw [run] at h
    split_ifs at h with hgo
    · exact absurd h Run.not_yields_throw
    · rw [Run.eq_of_yields_pure h]
      exact ⟨0, Nat.le_refl 0, .refl, hgo⟩
  | succ remaining ih =>
    intro s h
    rw [run] at h
    split_ifs at h with hgo
    · obtain ⟨u, hu, h⟩ := Run.exists_of_yields_bind h
      obtain ⟨k, hk, hreaches, hend⟩ := ih h
      exact ⟨k + 1, by omega, hreaches.head hgo hu, hend⟩
    · rw [Run.eq_of_yields_pure h]
      exact ⟨0, Nat.zero_le _, .refl, hgo⟩

/-- A loop fails with its cap, or with a step. -/
theorem fails_run :
    ∀ {remaining : Nat} {s : S}, (L.run cap remaining s).Fails e →
      (∃ t, L.Reaches s remaining t ∧ L.continues t ∧ e = L.exhausted cap t) ∨
        ∃ k < remaining, ∃ t, L.Reaches s k t ∧ L.continues t ∧ (L.step t).Fails e := by
  intro remaining
  induction remaining with
  | zero =>
    intro s h
    rw [run] at h
    split_ifs at h with hgo
    · exact .inl ⟨s, .refl, hgo, Run.eq_of_fails_throw h⟩
    · exact absurd h Run.not_fails_pure
  | succ remaining ih =>
    intro s h
    rw [run] at h
    split_ifs at h with hgo
    · rcases Run.fails_or_of_fails_bind h with h | ⟨u, hu, h⟩
      · exact .inr ⟨0, by omega, s, .refl, hgo, h⟩
      · rcases ih h with ⟨t, ht, hgo', he⟩ | ⟨k, hk, t, ht, hgo', hfails⟩
        · exact .inl ⟨t, ht.head hgo hu, hgo', he⟩
        · exact .inr ⟨k + 1, by omega, t, ht.head hgo hu, hgo', hfails⟩
    · exact absurd h Run.not_fails_pure

/-! ### What steps keep -/

/-- What a step keeps holds at every stage that the loop gets to. -/
theorem Reaches.invariant {I : Nat → S → Prop}
    (hstep : ∀ k t u, I k t → L.continues t → (L.step t).Yields u → I (k + 1) u) (hs : I 0 s)
    (h : L.Reaches s k t) : I k t := by
  induction h with
  | refl => exact hs
  | step _ hgo hyields ih => exact hstep _ _ _ ih hgo hyields

/-- The stages of a run are those before a step of it, and those after. -/
theorem Reaches.split (h : L.Reaches s k t) (hj : j ≤ k) :
    ∃ u, L.Reaches s j u ∧ L.Reaches u (k - j) t := by
  induction h with
  | refl =>
    obtain rfl : j = 0 := by omega
    exact ⟨s, .refl, .refl⟩
  | @step k t u h hgo hstep ih =>
    -- either `j` counts all steps, or the last one belongs to the second part
    rcases Nat.lt_or_ge k j with hlt | hle
    · obtain rfl : j = k + 1 := by omega
      rw [Nat.sub_self]
      exact ⟨u, .step h hgo hstep, .refl⟩
    · obtain ⟨v, hv, hrest⟩ := ih hle
      refine ⟨v, hv, ?_⟩
      rw [Nat.succ_sub hle]
      exact .step hrest hgo hstep

theorem Reaches.trans (h : L.Reaches s j t) (h' : L.Reaches t k u) : L.Reaches s (j + k) u := by
  induction h' with
  | refl => exact h
  | step _ hgo hstep ih => exact .step ih hgo hstep

/-- Where a further step follows, the test holds. -/
theorem Reaches.continues_of_pos (h : L.Reaches s k t) (hk : 0 < k) : L.continues s := by
  induction h with
  | refl => omega
  | @step k t u h hgo _ ih =>
    rcases Nat.eq_zero_or_pos k with rfl | hpos
    · cases h
      exact hgo
    · exact ih hpos

/-- A loop with a weaker test gets to the same stages. -/
theorem Reaches.of_continues {L' : Loop σ α S} (hstep : L'.step = L.step)
    (hgo : ∀ s, L.continues s → L'.continues s) (h : L.Reaches s k t) : L'.Reaches s k t := by
  induction h with
  | refl => exact .refl
  | step _ hgo' hyields ih => exact .step ih (hgo _ hgo') (by rwa [hstep])

/-! ### Loops that end -/

/-- Where each step succeeds and lowers a measure, the loop succeeds with as many steps as the
measure allows, whatever the cap is that a failure would name. -/
theorem exists_computes_run {I : S → Prop} {measure : S → Nat}
    (hstep : ∀ s, I s → L.continues s →
      ∃ t, (L.step s).Computes t ∧ I t ∧ measure t < measure s) :
    ∀ {bound : Nat} {s : S}, I s → measure s ≤ bound →
      ∃ t, I t ∧ ¬ L.continues t ∧
        ∀ cap remaining, bound ≤ remaining → (L.run cap remaining s).Computes t := by
  intro bound
  induction bound with
  | zero =>
    intro s hs hbound
    -- the measure is zero, so no step can lower it
    have hend : ¬ L.continues s := fun hgo => by
      obtain ⟨t, _, _, hlt⟩ := hstep s hs hgo
      omega
    refine ⟨s, hs, hend, fun cap remaining _ => ?_⟩
    rw [run_of_not_continues hend]
    exact Run.computes_pure s
  | succ bound ih =>
    intro s hs hbound
    by_cases hgo : L.continues s
    · obtain ⟨t, ht, hI, hlt⟩ := hstep s hs hgo
      obtain ⟨u, hu, hend, hrun⟩ := ih hI (by omega)
      refine ⟨u, hu, hend, fun cap remaining hle => ?_⟩
      obtain ⟨remaining, rfl⟩ : ∃ r, remaining = r + 1 := ⟨remaining - 1, by omega⟩
      rw [run_succ_of_continues hgo]
      exact ht.bind (hrun cap remaining (by omega))
    · refine ⟨s, hs, hgo, fun cap remaining _ => ?_⟩
      rw [run_of_not_continues hgo]
      exact Run.computes_pure s

/-! ### Larger caps -/

theorem extends_run {L' : Loop σ α S} (hstep : ∀ s, (L'.step s).Extends (L.step s))
    (hgo : ∀ s, L'.continues s ↔ L.continues s) {cap' : Nat} :
    ∀ {remaining remaining' : Nat} (s : S), remaining ≤ remaining' →
      (L'.run cap' remaining' s).Extends (L.run cap remaining s) := by
  intro remaining
  induction remaining with
  | zero =>
    intro remaining' s _
    by_cases h : L.continues s
    -- the smaller cap is used up here, and its failure is extended by everything
    · rw [run_zero_of_continues h]
      exact Run.extends_throw _ _
    · rw [run_of_not_continues h, run_of_not_continues (mt (hgo s).mp h)]
      exact .refl _
  | succ remaining ih =>
    intro remaining' s hle
    obtain ⟨remaining', rfl⟩ : ∃ r, remaining' = r + 1 := ⟨remaining' - 1, by omega⟩
    by_cases h : L.continues s
    · rw [run_succ_of_continues h, run_succ_of_continues ((hgo s).mpr h)]
      exact (hstep s).bind fun t _ => ih t (by omega)
    · rw [run_of_not_continues h, run_of_not_continues (mt (hgo s).mp h)]
      exact .refl _

/-! ### Related stages -/

/-- Loops from related stages agree if the test does not tell the stages apart and their steps
agree. -/
theorem agree_run {R : S → S → Prop} (hgo : ∀ s t, R s t → (L.continues s ↔ L.continues t))
    (hstep : ∀ s t, R s t → Run.Agree R (L.step s) (L.step t))
    (hexhausted : ∀ s t, R s t → L.exhausted cap s = L.exhausted cap t) :
    ∀ (remaining : Nat) {s t : S}, R s t →
      Run.Agree R (L.run cap remaining s) (L.run cap remaining t) := by
  intro remaining
  induction remaining with
  | zero =>
    intro s t hR
    by_cases h : L.continues s
    · rw [run_zero_of_continues h, run_zero_of_continues ((hgo s t hR).mp h), hexhausted s t hR]
      exact .inr ⟨_, Run.raises_throw _, Run.raises_throw _⟩
    · rw [run_of_not_continues h, run_of_not_continues (mt (hgo s t hR).mpr h)]
      exact Run.agree_pure hR
  | succ remaining ih =>
    intro s t hR
    by_cases h : L.continues s
    · rw [run_succ_of_continues h, run_succ_of_continues ((hgo s t hR).mp h)]
      exact (hstep s t hR).bind fun _ _ => ih
    · rw [run_of_not_continues h, run_of_not_continues (mt (hgo s t hR).mpr h)]
      exact Run.agree_pure hR

/-! ### Determined steps -/

section Determined

variable (hdet : ∀ s, (L.step s).Determined)

include hdet

/-- A loop of determined steps is determined. -/
theorem determined_run : ∀ (remaining : Nat) (s : S), (L.run cap remaining s).Determined := by
  intro remaining
  induction remaining with
  | zero =>
    intro s
    rw [run]
    split_ifs
    · exact Run.determined_throw _
    · exact Run.determined_pure _
  | succ remaining ih =>
    intro s
    rw [run]
    split_ifs
    · exact (hdet s).bind ih
    · exact Run.determined_pure _

/-- Two runs from one stage hold the same stages. -/
theorem Reaches.unique (h : L.Reaches s k t) (h' : L.Reaches s k u) : t = u := by
  induction h generalizing u with
  | refl =>
    cases h'
    rfl
  | step _ _ hstep ih =>
    cases h' with
    | step h' _ hstep' =>
      cases ih h'
      exact ((hdet _).computes_of_yields hstep').eq_of_yields hstep

/-- The loop goes on from a stage that it gets to as it does with the steps that are left. -/
theorem Reaches.computes_run (h : L.Reaches s k t) {v : S}
    (hrest : (L.run cap remaining t).Computes v) : (L.run cap (k + remaining) s).Computes v := by
  induction h generalizing remaining with
  | refl => rwa [Nat.zero_add]
  | @step k t u h hgo hstep ih =>
    -- the last step moves from the first part of the run to the rest
    rw [Nat.add_right_comm, Nat.add_assoc]
    refine ih ?_
    rw [run_succ_of_continues hgo]
    exact ((hdet t).computes_of_yields hstep).bind hrest

theorem Reaches.raises_run (h : L.Reaches s k t)
    (hrest : (L.run cap remaining t).Raises e) : (L.run cap (k + remaining) s).Raises e := by
  induction h generalizing remaining with
  | refl => rwa [Nat.zero_add]
  | @step k t u h hgo hstep ih =>
    rw [Nat.add_right_comm, Nat.add_assoc]
    refine ih ?_
    rw [run_succ_of_continues hgo]
    exact ((hdet t).computes_of_yields hstep).bind_raises hrest

/-- The loop ends at a stage that it gets to and where the test fails, whatever cap it had left. -/
theorem Reaches.computes_run_of_le (h : L.Reaches s k t) (hend : ¬ L.continues t)
    (hk : k ≤ remaining) : (L.run cap remaining s).Computes t := by
  obtain ⟨r, rfl⟩ := Nat.exists_eq_add_of_le hk
  refine h.computes_run hdet ?_
  rw [run_of_not_continues hend]
  exact Run.computes_pure t

/-- With a cap of fewer steps the loop fails at the stage that it held after them. -/
theorem Reaches.raises_run_of_lt (h : L.Reaches s k t) (hlt : j < k) :
    ∃ u, L.Reaches s j u ∧ (L.run cap j s).Raises (L.exhausted cap u) := by
  obtain ⟨u, hu, hrest⟩ := h.split (Nat.le_of_lt hlt)
  -- a further step follows from `u`, so the test holds there and the cap is used up
  have hraises : (L.run cap 0 u).Raises (L.exhausted cap u) := by
    rw [run_zero_of_continues (hrest.continues_of_pos (by omega))]
    exact Run.raises_throw _
  exact ⟨u, hu, hu.raises_run hdet hraises⟩

/-- A failure of the loop is that of its cap, or the larger caps have it too. -/
theorem fails_run_cases (h : (L.run cap remaining s).Fails e) :
    (∃ t, L.Reaches s remaining t ∧ L.continues t ∧ e = L.exhausted cap t) ∨
      ∀ remaining' ≥ remaining, (L.run cap remaining' s).Raises e := by
  rcases fails_run h with h | ⟨k, hk, t, ht, hgo, hfails⟩
  · exact .inl h
  · refine .inr fun remaining' hle => ?_
    -- a step that fails after `k` others fails with every cap that lets the loop get there
    obtain ⟨r, rfl⟩ : ∃ r, remaining' = k + (r + 1) := ⟨remaining' - k - 1, by omega⟩
    refine ht.raises_run hdet ?_
    rw [run_succ_of_continues hgo]
    exact ((hdet t).raises_of_fails hfails).bind

/-- From a stage that it gets to, the loop with the whole cap ends as it does from the start, unless
the cap is reached there. -/
theorem Reaches.agree_run [Inhabited σ] (h : L.Reaches s k t) (hk : k ≤ cap)
    (hcap : ∀ u, L.Reaches s cap u → ¬ L.continues u) :
    Run.Agree Eq (L.run cap cap t) (L.run cap cap s) := by
  -- `r` steps are left to the loop from `s` when it is at `t`; the one from `t` has `k` more
  obtain ⟨r, rfl⟩ := Nat.exists_eq_add_of_le hk
  rcases (determined_run hdet r t).computes_or_raises with ⟨u, hu⟩ | ⟨e, he⟩
  -- from `t` the loop ends within `r` steps, so its further `k` steps change nothing
  · have hextends : (L.run (k + r) (k + r) t).Extends (L.run (k + r) r t) :=
      extends_run (fun s => .refl (L.step s)) (fun _ => Iff.rfl) t (Nat.le_add_left r k)
    have hlarger := hextends.computes hu
    exact .inl ⟨u, u, hlarger, h.computes_run hdet hu, rfl⟩
  -- a failure from `t` is one of a step, since the cap is not reached
  · rcases fails_run_cases hdet he.fails with ⟨u, hu, hgo, _⟩ | hlarger
    · exact absurd hgo (hcap u (h.trans hu))
    · exact .inr ⟨e, hlarger _ (Nat.le_add_left r k), h.raises_run hdet he⟩

end Determined

end Loop

/-! ### Routines -/

/-- A loop with the action that gives its first stage and the one that follows on its last. -/
structure Routine (σ α S β : Type) where
  /-- The first stage. -/
  start : Run σ α S
  /-- The loop. -/
  loop : Loop σ α S
  /-- What is made of the last stage. -/
  finish : S → Run σ α β

namespace Routine

variable {β : Type}

/-- Runs the routine with a cap on the steps of its loop. -/
def run (R : Routine σ α S β) (cap : Nat) : Run σ α β := do
  let s ← R.start
  let s ← R.loop.run cap cap s
  R.finish s

/-- The routine is at the stage `t` after `k` steps. -/
def Holds (R : Routine σ α S β) (k : Nat) (t : S) : Prop :=
  ∃ s, R.start.Yields s ∧ R.loop.Reaches s k t

variable {R : Routine σ α S β} {cap cap' j k : Nat} {t u : S} {b : β}

theorem Holds.step (h : R.Holds k t) (hgo : R.loop.continues t) (hstep : (R.loop.step t).Yields u) :
    R.Holds (k + 1) u := by
  obtain ⟨s, hs, h⟩ := h
  exact ⟨s, hs, h.step hgo hstep⟩

/-- What the first stage has and a step keeps, all stages of a run have. -/
theorem Holds.invariant {I : Nat → S → Prop} (hstart : ∀ s, R.start.Yields s → I 0 s)
    (hstep : ∀ k t u, R.Holds k t → I k t → R.loop.continues t → (R.loop.step t).Yields u →
      I (k + 1) u)
    (h : R.Holds k t) : I k t := by
  obtain ⟨s, hs, h⟩ := h
  -- the invariant of the loop also keeps that the stages are held
  refine (h.invariant (I := fun k t => R.Holds k t ∧ I k t) ?_ ⟨⟨s, hs, .refl⟩, hstart s hs⟩).2
  rintro k t u ⟨ht, hI⟩ hgo hu
  exact ⟨ht.step hgo hu, hstep k t u ht hI hgo hu⟩

/-- A run that succeeds makes its result of the stage where the test fails. -/
theorem exists_of_yields_run (h : (R.run cap).Yields b) :
    ∃ k ≤ cap, ∃ t, R.Holds k t ∧ ¬ R.loop.continues t ∧ (R.finish t).Yields b := by
  obtain ⟨s, hs, h⟩ := Run.exists_of_yields_bind h
  obtain ⟨t, ht, h⟩ := Run.exists_of_yields_bind h
  obtain ⟨k, hk, hreaches, hend⟩ := Loop.reaches_of_yields_run ht
  exact ⟨k, hk, t, ⟨s, hs, hreaches⟩, hend, h⟩

theorem extends_run {R' : Routine σ α S β} (hstart : R'.start.Extends R.start)
    (hstep : ∀ s, (R'.loop.step s).Extends (R.loop.step s))
    (hgo : ∀ s, R'.loop.continues s ↔ R.loop.continues s)
    (hfinish : ∀ s, (R'.finish s).Extends (R.finish s)) (hcap : cap ≤ cap') :
    (R'.run cap').Extends (R.run cap) :=
  hstart.bind fun s _ => (Loop.extends_run hstep hgo s hcap).bind fun t _ => hfinish t

/-- The outcome of each part is the same from every session. -/
structure Deterministic (R : Routine σ α S β) : Prop where
  /-- The first stage does not depend on the session. -/
  start : R.start.Determined
  /-- The steps do not depend on the session. -/
  step : ∀ s, (R.loop.step s).Determined
  /-- The result does not depend on the session. -/
  finish : ∀ s, (R.finish s).Determined

theorem Holds.unique (hR : R.Deterministic) (ht : R.Holds k t) (hu : R.Holds k u) : t = u := by
  obtain ⟨s, hs, ht⟩ := ht
  obtain ⟨s', hs', hu⟩ := hu
  cases (hR.start.computes_of_yields hs).eq_of_yields hs'
  exact ht.unique hR.step hu

/-- Of two stages of a run, the later one is reached from the earlier one. -/
theorem Holds.reaches (hR : R.Deterministic) {s : S} (hs : R.Holds j s) (ht : R.Holds k t)
    (hjk : j ≤ k) : R.loop.Reaches s (k - j) t := by
  obtain ⟨first, hfirst, ht⟩ := ht
  obtain ⟨u, hu, hrest⟩ := ht.split hjk
  rwa [← Holds.unique hR ⟨first, hfirst, hu⟩ hs]

/-- A routine ends at a stage where the test fails, with every cap that lets it get there. -/
theorem Holds.computes_run (hR : R.Deterministic) (h : R.Holds k t) (hend : ¬ R.loop.continues t)
    (hfinish : (R.finish t).Yields b) (hk : k ≤ cap) : (R.run cap).Computes b := by
  obtain ⟨s, hs, h⟩ := h
  exact (hR.start.computes_of_yields hs).bind ((h.computes_run_of_le hR.step hend hk).bind
    ((hR.finish t).computes_of_yields hfinish))

/-- With a cap of fewer steps it fails at the stage that it holds after them. -/
theorem Holds.raises_run (hR : R.Deterministic) (h : R.Holds k t) (hlt : j < k) :
    ∃ u, R.Holds j u ∧ (R.run j).Raises (R.loop.exhausted j u) := by
  obtain ⟨s, hs, h⟩ := h
  obtain ⟨u, hu, hraises⟩ := h.raises_run_of_lt hR.step hlt
  exact ⟨u, ⟨s, hs, hu⟩, (hR.start.computes_of_yields hs).bind_raises hraises.bind⟩

/-- The cap is too small: after as many steps the loop would go on. -/
def Exhausts (R : Routine σ α S β) (cap : Nat) : Prop :=
  ∃ t, R.Holds cap t ∧ R.loop.continues t

/-- A cap that is too small is the failure of the routine, at the stage that it holds then. -/
theorem Exhausts.raises (hR : R.Deterministic) (h : R.Exhausts cap) :
    ∃ t, R.Holds cap t ∧ (R.run cap).Raises (R.loop.exhausted cap t) := by
  obtain ⟨t, ⟨s, hs, hreaches⟩, hgo⟩ := h
  have hlast : (R.loop.run cap 0 t).Raises (R.loop.exhausted cap t) := by
    rw [Loop.run_zero_of_continues hgo]
    exact Run.raises_throw _
  exact ⟨t, ⟨s, hs, hreaches⟩, (hR.start.computes_of_yields hs).bind_raises
    (hreaches.raises_run hR.step hlast).bind⟩

/-- A cap with which the routine succeeds is large enough. -/
theorem not_exhausts_of_yields (hR : R.Deterministic) (h : (R.run cap).Yields b) :
    ¬ R.Exhausts cap := by
  intro hexhausts
  obtain ⟨t, _, hraises⟩ := hexhausts.raises hR
  exact hraises.not_yields h

/-- A routine agrees with another one that starts at a stage which is related to one of its own,
unless its cap is too small. -/
theorem Holds.agree_run [Inhabited σ] {R' : Routine σ α S β} {Q : S → S → Prop} {Q' : β → β → Prop}
    (hR : R.Deterministic) (hloop : R'.loop = R.loop)
    (hgo : ∀ t u, Q t u → (R.loop.continues t ↔ R.loop.continues u))
    (hstep : ∀ t u, Q t u → Run.Agree Q (R.loop.step t) (R.loop.step u))
    (hexhausted : ∀ t u, Q t u → R.loop.exhausted cap t = R.loop.exhausted cap u)
    (hfinish : ∀ t u, Q t u → Run.Agree Q' (R'.finish t) (R.finish u))
    (hu : R.Holds k u) (hk : k ≤ cap) (hcap : ¬ R.Exhausts cap) (ht : R'.start.Computes t)
    (htu : Q t u) : Run.Agree Q' (R'.run cap) (R.run cap) := by
  obtain ⟨s, hs, hreaches⟩ := hu
  have hends : ∀ v, R.loop.Reaches s cap v → ¬ R.loop.continues v :=
    fun v hv hgo => hcap ⟨v, ⟨s, hs, hv⟩, hgo⟩
  have hloops : Run.Agree Q (R'.loop.run cap cap t) (R.loop.run cap cap s) := by
    -- by way of the loop from `u`, which has the whole cap as that from `t` has
    rw [hloop]
    exact (Loop.agree_run hgo hstep hexhausted cap htu).trans_eq
      (hreaches.agree_run hR.step hk hends)
  have hstarts : Run.Agree (fun t' s' => t' = t ∧ s' = s) R'.start R.start :=
    .inl ⟨t, s, ht, hR.start.computes_of_yields hs, rfl, rfl⟩
  refine hstarts.bind ?_
  rintro _ _ ⟨rfl, rfl⟩
  exact hloops.bind hfinish

end Routine

end Downhill
