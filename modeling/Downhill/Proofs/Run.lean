import Downhill.Run

/-!
# Outcomes of runs

`Run.exec` is an action as a function of the session it starts from. On top of it stand ways to
speak about an action without its session:

* `a.Yields b`: from some session `a` succeeds with `b`. What every result of an action has in
  common is a statement about all `b` with `a.Yields b`.
* `a.Computes b`: from every session `a` succeeds with `b`, so `a` is deterministic and cannot fail.
* `a.Fails e`: from some session `a` fails with `e`. That a failure never happens is the negation.
* `a.Raises e`: from every session `a` fails with `e`.
* `a.Determined`: the outcome of `a` is the same from every session, so `a` either computes a result
  or raises a failure.
* `a.Extends a'`: wherever `a'` succeeds, `a` does just the same.
* `Agree R a a'`: both compute results, which `R` relates, or both raise the same failure.
* `a.Records P`: whatever session `a` starts from and whatever its outcome, it only appends events
  with the property `P` to the journal.

Each has one lemma for each way an action is built.
-/

namespace Downhill.Run

variable {σ α β γ : Type}

/-! ### Execution -/

/-- The outcome of an action from a session, and the session after it. -/
def exec (action : Run σ α β) (s : Session σ α) : Except (Failure α) β × Session σ α :=
  (ExceptT.run action).run s

@[simp] theorem exec_pure (b : β) (s : Session σ α) : (pure b : Run σ α β).exec s = (.ok b, s) :=
  rfl

@[simp] theorem exec_throw (e : Failure α) (s : Session σ α) :
    (throw e : Run σ α β).exec s = (.error e, s) :=
  rfl

@[simp] theorem exec_liftM (r : Except (Failure α) β) (s : Session σ α) :
    (liftM r : Run σ α β).exec s = (r, s) :=
  rfl

@[simp] theorem exec_record (event : Event α) (s : Session σ α) :
    (record event).exec s = (.ok (), { s with journal := s.journal.push event }) :=
  rfl

/-- A failure of the first action ends the sequence, and the session after it is kept. -/
theorem exec_bind (a : Run σ α β) (f : β → Run σ α γ) (s : Session σ α) :
    (a >>= f).exec s =
      match a.exec s with
      | (.ok b, t) => (f b).exec t
      | (.error e, t) => (.error e, t) := by
  change (ExceptT.bindCont (fun b => f b) (a.exec s).1).run (a.exec s).2 = _
  -- both sides branch on the outcome of the first action
  cases h : a.exec s with
  | mk r t => cases r <;> rfl

/-- A sequence succeeds exactly where both parts do, one from the session that the other leaves. -/
theorem exec_bind_eq_ok {a : Run σ α β} {f : β → Run σ α γ} {s u : Session σ α} {c : γ} :
    (a >>= f).exec s = (.ok c, u) ↔
      ∃ b t, a.exec s = (.ok b, t) ∧ (f b).exec t = (.ok c, u) := by
  rw [exec_bind]
  constructor
  · intro h
    split at h
    · next b t hb => exact ⟨b, t, hb, h⟩
    · cases h
  · rintro ⟨b, t, hb, h⟩
    rw [hb]
    exact h

/-! ### Possible results -/

/-- From some session the action succeeds with `b`. -/
def Yields (action : Run σ α β) (b : β) : Prop := ∃ s t, action.exec s = (.ok b, t)

theorem eq_of_yields_pure {b c : β} (h : (pure b : Run σ α β).Yields c) : c = b := by
  obtain ⟨s, t, h⟩ := h
  cases h
  rfl

theorem not_yields_throw {e : Failure α} {b : β} : ¬ (throw e : Run σ α β).Yields b := by
  rintro ⟨s, t, h⟩
  cases h

theorem ok_of_yields_liftM {r : Except (Failure α) β} {b : β}
    (h : (liftM r : Run σ α β).Yields b) : r = .ok b := by
  obtain ⟨s, t, h⟩ := h
  exact congrArg Prod.fst h

/-- A result of a sequence comes from a result of its first part. -/
theorem exists_of_yields_bind {a : Run σ α β} {f : β → Run σ α γ} {c : γ}
    (h : (a >>= f).Yields c) : ∃ b, a.Yields b ∧ (f b).Yields c := by
  obtain ⟨s, u, h⟩ := h
  obtain ⟨b, t, hb, hc⟩ := exec_bind_eq_ok.mp h
  exact ⟨b, ⟨s, t, hb⟩, t, u, hc⟩

/-- An action without a result of interest in front of another one. -/
theorem yields_of_bind_unit {a : Run σ α Unit} {f : Unit → Run σ α γ} {c : γ}
    (h : (a >>= f).Yields c) : (f ()).Yields c := by
  obtain ⟨_, _, hc⟩ := exists_of_yields_bind h
  exact hc

theorem exists_yields_of_start {a : Run σ α β} (g : β → γ) (memory : σ) {c : γ}
    (h : (a.start memory).1.toOption.map g = some c) : ∃ b, a.Yields b ∧ g b = c := by
  cases hr : (a.start memory).1 with
  | error e =>
    rw [hr] at h
    cases h
  | ok b =>
    rw [hr] at h
    exact ⟨b, ⟨⟨memory, #[]⟩, (a.start memory).2, Prod.ext hr rfl⟩, Option.some.inj h⟩

/-- What every step of a fold keeps holds at its end. -/
theorem invariant_of_yields_foldlM {I : β → Prop} {f : β → γ → Run σ α β}
    (hf : ∀ b c b', I b → (f b c).Yields b' → I b') :
    ∀ {cs : List γ} {b b' : β}, I b → (cs.foldlM f b).Yields b' → I b' := by
  -- on the list, for every accumulator, because a step changes it
  intro cs
  induction cs with
  | nil =>
    intro b b' hb h
    rwa [eq_of_yields_pure h]
  | cons c cs ih =>
    intro b b' hb h
    rw [List.foldlM_cons] at h
    obtain ⟨next, hnext, h⟩ := exists_of_yields_bind h
    exact ih (hf b c next hb hnext) h

/-! ### Certain results -/

/-- From every session the action succeeds with `b`. -/
def Computes (action : Run σ α β) (b : β) : Prop := ∀ s, ∃ t, action.exec s = (.ok b, t)

theorem computes_pure (b : β) : (pure b : Run σ α β).Computes b := fun s => ⟨s, rfl⟩

theorem computes_record (event : Event α) : (record event : Run σ α Unit).Computes () :=
  fun _ => ⟨_, rfl⟩

theorem computes_liftM {r : Except (Failure α) β} {b : β} (h : r = .ok b) :
    (liftM r : Run σ α β).Computes b := by
  intro s
  exact ⟨s, by rw [exec_liftM, h]⟩

theorem Computes.bind {a : Run σ α β} {f : β → Run σ α γ} {b : β} {c : γ}
    (ha : a.Computes b) (hf : (f b).Computes c) : (a >>= f).Computes c := by
  intro s
  obtain ⟨t, ht⟩ := ha s
  obtain ⟨u, hu⟩ := hf t
  exact ⟨u, exec_bind_eq_ok.mpr ⟨b, t, ht, hu⟩⟩

/-- Where there is a memory at all, a certain result is a possible one. -/
theorem Computes.yields [Inhabited σ] {a : Run σ α β} {b : β} (h : a.Computes b) : a.Yields b := by
  obtain ⟨t, ht⟩ := h ⟨default, #[]⟩
  exact ⟨_, t, ht⟩

/-- An action that succeeds is seen to succeed. -/
theorem Computes.observe {a : Run σ α β} {b : β} (h : a.Computes b) :
    (Run.observe a).Computes (.ok b) := by
  intro s
  obtain ⟨t, ht⟩ := h s
  exact ⟨t, congrArg (fun r => (Except.ok r.1, r.2)) ht⟩

/-- A certain result is the only possible one. -/
theorem Computes.eq_of_yields {a : Run σ α β} {b c : β} (ha : a.Computes b) (h : a.Yields c) :
    c = b := by
  obtain ⟨s, t, h⟩ := h
  obtain ⟨t', h'⟩ := ha s
  rw [h] at h'
  cases h'
  rfl

theorem Computes.yields_iff [Inhabited σ] {a : Run σ α β} {b c : β} (ha : a.Computes b) :
    a.Yields c ↔ c = b :=
  ⟨ha.eq_of_yields, fun h => h ▸ ha.yields⟩

/-! ### Possible failures -/

/-- From some session the action fails with `e`. -/
def Fails (action : Run σ α β) (e : Failure α) : Prop := ∃ s t, action.exec s = (.error e, t)

theorem not_fails_pure {b : β} {e : Failure α} : ¬ (pure b : Run σ α β).Fails e := by
  rintro ⟨s, t, h⟩
  cases h

theorem not_fails_record {event e} : ¬ (record event : Run σ α Unit).Fails e := by
  rintro ⟨s, t, h⟩
  cases h

theorem eq_of_fails_throw {e e' : Failure α} (h : (throw e : Run σ α β).Fails e') : e' = e := by
  obtain ⟨s, t, h⟩ := h
  cases h
  rfl

theorem error_of_fails_liftM {r : Except (Failure α) β} {e : Failure α}
    (h : (liftM r : Run σ α β).Fails e) : r = .error e := by
  obtain ⟨s, t, h⟩ := h
  exact congrArg Prod.fst h

/-- A sequence fails in its first part, or in its second part on a result of the first. -/
theorem fails_or_of_fails_bind {a : Run σ α β} {f : β → Run σ α γ} {e : Failure α}
    (h : (a >>= f).Fails e) : a.Fails e ∨ ∃ b, a.Yields b ∧ (f b).Fails e := by
  obtain ⟨s, u, h⟩ := h
  rw [exec_bind] at h
  split at h
  · next b t hb => exact .inr ⟨b, ⟨s, t, hb⟩, t, u, h⟩
  · next e' t ha =>
    cases h
    exact .inl ⟨s, u, ha⟩

/-- An action that cannot fail in front of another one. -/
theorem fails_of_fails_bind {a : Run σ α β} {f : β → Run σ α γ} {e : Failure α}
    (ha : ¬ a.Fails e) (h : (a >>= f).Fails e) : ∃ b, a.Yields b ∧ (f b).Fails e :=
  (fails_or_of_fails_bind h).resolve_left ha

theorem fails_of_record_bind {event : Event α} {f : Unit → Run σ α γ} {e : Failure α}
    (h : (record event >>= f).Fails e) : (f ()).Fails e := by
  obtain ⟨_, _, h⟩ := fails_of_fails_bind not_fails_record h
  exact h

/-- An action with a certain result does not fail. -/
theorem Computes.not_fails {a : Run σ α β} {b : β} (h : a.Computes b) {e : Failure α} :
    ¬ a.Fails e := by
  rintro ⟨s, t, he⟩
  obtain ⟨t', hb⟩ := h s
  rw [hb] at he
  cases he

/-- What follows an action with a certain result. -/
theorem Computes.fails_of_bind {a : Run σ α β} {f : β → Run σ α γ} {b : β} {e : Failure α}
    (ha : a.Computes b) (h : (a >>= f).Fails e) : (f b).Fails e := by
  obtain ⟨c, hc, h⟩ := fails_of_fails_bind ha.not_fails h
  rwa [ha.eq_of_yields hc] at h

/-! ### Certain failures -/

/-- From every session the action fails with `e`. -/
def Raises (action : Run σ α β) (e : Failure α) : Prop := ∀ s, ∃ t, action.exec s = (.error e, t)

theorem raises_throw (e : Failure α) : (throw e : Run σ α β).Raises e := fun s => ⟨s, rfl⟩

theorem raises_liftM {r : Except (Failure α) β} {e : Failure α} (h : r = .error e) :
    (liftM r : Run σ α β).Raises e := by
  intro s
  exact ⟨s, by rw [exec_liftM, h]⟩

/-- A certain failure of the first part is one of the sequence. -/
theorem Raises.bind {a : Run σ α β} {f : β → Run σ α γ} {e : Failure α} (ha : a.Raises e) :
    (a >>= f).Raises e := by
  intro s
  obtain ⟨t, ht⟩ := ha s
  refine ⟨t, ?_⟩
  rw [exec_bind, ht]

/-- A certain failure of the second part is one of the sequence if the first has a certain result.
-/
theorem Computes.bind_raises {a : Run σ α β} {f : β → Run σ α γ} {b : β} {e : Failure α}
    (ha : a.Computes b) (hf : (f b).Raises e) : (a >>= f).Raises e := by
  intro s
  obtain ⟨t, ht⟩ := ha s
  obtain ⟨u, hu⟩ := hf t
  refine ⟨u, ?_⟩
  rw [exec_bind, ht]
  exact hu

/-- An action that fails is seen to fail. -/
theorem Raises.observe {a : Run σ α β} {e : Failure α} (h : a.Raises e) :
    (Run.observe a).Computes (.error e) := by
  intro s
  obtain ⟨t, ht⟩ := h s
  exact ⟨t, congrArg (fun r => (Except.ok r.1, r.2)) ht⟩

theorem Raises.fails [Inhabited σ] {a : Run σ α β} {e : Failure α} (h : a.Raises e) :
    a.Fails e := by
  obtain ⟨t, ht⟩ := h ⟨default, #[]⟩
  exact ⟨_, t, ht⟩

/-- An action that certainly fails has no result. -/
theorem Raises.not_yields {a : Run σ α β} {e : Failure α} (h : a.Raises e) {b : β} :
    ¬ a.Yields b := by
  rintro ⟨s, t, hb⟩
  obtain ⟨t', he⟩ := h s
  rw [he] at hb
  cases hb

/-- A certain failure is the only possible one. -/
theorem Raises.eq_of_fails {a : Run σ α β} {e e' : Failure α} (h : a.Raises e)
    (h' : a.Fails e') : e' = e := by
  obtain ⟨s, t, he'⟩ := h'
  obtain ⟨t', he⟩ := h s
  rw [he'] at he
  cases he
  rfl

/-! ### Determined outcomes -/

/-- The outcome is the same from every session. -/
def Determined (action : Run σ α β) : Prop := ∃ r, ∀ s, (action.exec s).1 = r

theorem Raises.determined {a : Run σ α β} {e : Failure α} (h : a.Raises e) : a.Determined := by
  refine ⟨.error e, fun s => ?_⟩
  obtain ⟨t, ht⟩ := h s
  rw [ht]

/-- A determined action has a certain result or a certain failure. -/
theorem Determined.computes_or_raises {a : Run σ α β} (h : a.Determined) :
    (∃ b, a.Computes b) ∨ ∃ e, a.Raises e := by
  obtain ⟨r, hr⟩ := h
  cases r with
  | ok b => exact .inl ⟨b, fun s => ⟨(a.exec s).2, Prod.ext (hr s) rfl⟩⟩
  | error e => exact .inr ⟨e, fun s => ⟨(a.exec s).2, Prod.ext (hr s) rfl⟩⟩

/-- A possible result of a determined action is certain. -/
theorem Determined.computes_of_yields {a : Run σ α β} (h : a.Determined) {b : β}
    (hb : a.Yields b) : a.Computes b := by
  obtain ⟨r, hr⟩ := h
  obtain ⟨s, t, hs⟩ := hb
  obtain rfl : r = .ok b := by rw [← hr s, hs]
  exact fun s => ⟨(a.exec s).2, Prod.ext (hr s) rfl⟩

/-- A possible failure of a determined action is certain. -/
theorem Determined.raises_of_fails {a : Run σ α β} (h : a.Determined) {e : Failure α}
    (he : a.Fails e) : a.Raises e := by
  obtain ⟨r, hr⟩ := h
  obtain ⟨s, t, hs⟩ := he
  obtain rfl : r = .error e := by rw [← hr s, hs]
  exact fun s => ⟨(a.exec s).2, Prod.ext (hr s) rfl⟩

theorem determined_pure (b : β) : (pure b : Run σ α β).Determined := ⟨_, fun _ => rfl⟩

theorem determined_throw (e : Failure α) : (throw e : Run σ α β).Determined := ⟨_, fun _ => rfl⟩

theorem determined_liftM (r : Except (Failure α) β) : (liftM r : Run σ α β).Determined :=
  ⟨r, fun _ => rfl⟩

theorem determined_record (event : Event α) : (record event : Run σ α Unit).Determined :=
  ⟨_, fun _ => rfl⟩

/-- The second part may be reached with any result, so it has to be determined for each. -/
theorem Determined.bind {a : Run σ α β} {f : β → Run σ α γ} (ha : a.Determined)
    (hf : ∀ b, (f b).Determined) : (a >>= f).Determined := by
  -- the outcome of the first part decides which outcome the sequence has
  rcases ha.computes_or_raises with ⟨b, hb⟩ | ⟨e, he⟩
  · obtain ⟨r, hr⟩ := hf b
    refine ⟨r, fun s => ?_⟩
    obtain ⟨t, ht⟩ := hb s
    rw [exec_bind, ht]
    exact hr t
  · refine ⟨.error e, fun s => ?_⟩
    obtain ⟨t, ht⟩ := he s
    rw [exec_bind, ht]

/-- A fold of determined steps is determined. -/
theorem determined_foldlM {f : β → γ → Run σ α β} (hf : ∀ b c, (f b c).Determined) :
    ∀ (cs : List γ) (b : β), (cs.foldlM f b).Determined := by
  intro cs
  induction cs with
  | nil => exact determined_pure
  | cons c cs ih =>
    intro b
    rw [List.foldlM_cons]
    exact (hf b c).bind ih

/-! ### Extensions -/

/-- Wherever the action `a` succeeds, so does this one, with the same result and the same session
after it. -/
def Extends (action a : Run σ α β) : Prop :=
  ∀ s b t, a.exec s = (.ok b, t) → action.exec s = (.ok b, t)

theorem Extends.yields {a' a : Run σ α β} (h : a'.Extends a) {b : β} (hb : a.Yields b) :
    a'.Yields b := by
  obtain ⟨s, t, hb⟩ := hb
  exact ⟨s, t, h s b t hb⟩

theorem Extends.computes {a' a : Run σ α β} (h : a'.Extends a) {b : β} (hb : a.Computes b) :
    a'.Computes b := by
  intro s
  obtain ⟨t, ht⟩ := hb s
  exact ⟨t, h s b t ht⟩

theorem Extends.refl (a : Run σ α β) : a.Extends a := fun _ _ _ h => h

theorem extends_throw (a : Run σ α β) (e : Failure α) : a.Extends (throw e) := by
  intro s b t h
  cases h

theorem extends_liftM {r' r : Except (Failure α) β} (h : ∀ b, r = .ok b → r' = .ok b) :
    (liftM r' : Run σ α β).Extends (liftM r) := by
  intro s b t hb
  cases hr : r with
  | error e =>
    rw [hr] at hb
    cases hb
  | ok c =>
    rw [hr] at hb
    rw [h c hr]
    exact hb

/-- The second action only has to extend for the results that the first one yields. -/
theorem Extends.bind {a' a : Run σ α β} {f' f : β → Run σ α γ} (ha : a'.Extends a)
    (hf : ∀ b, a.Yields b → (f' b).Extends (f b)) : (a' >>= f').Extends (a >>= f) := by
  intro s c u h
  obtain ⟨b, t, hb, hc⟩ := exec_bind_eq_ok.mp h
  exact exec_bind_eq_ok.mpr ⟨b, t, ha s b t hb, hf b ⟨s, t, hb⟩ t c u hc⟩

/-- The same action in front of one that is extended. -/
theorem Extends.bind_left (a : Run σ α β) {f' f : β → Run σ α γ}
    (hf : ∀ b, a.Yields b → (f' b).Extends (f b)) : (a >>= f').Extends (a >>= f) :=
  (Extends.refl a).bind hf

/-! ### Agreement -/

/-- Both actions compute results, which `R` relates, or both raise the same failure. -/
def Agree (R : β → γ → Prop) (a : Run σ α β) (a' : Run σ α γ) : Prop :=
  (∃ b c, a.Computes b ∧ a'.Computes c ∧ R b c) ∨ ∃ e, a.Raises e ∧ a'.Raises e

theorem agree_pure {R : β → γ → Prop} {b : β} {c : γ} (h : R b c) :
    Agree R (pure b : Run σ α β) (pure c) :=
  .inl ⟨b, c, computes_pure b, computes_pure c, h⟩

theorem agree_record (event event' : Event α) :
    Agree (fun _ _ => True) (record event : Run σ α Unit) (record event') :=
  .inl ⟨(), (), computes_record event, computes_record event', trivial⟩

/-- A determined action agrees with itself. -/
theorem Determined.agree {a : Run σ α β} (h : a.Determined) : Agree Eq a a :=
  h.computes_or_raises.imp (fun ⟨b, hb⟩ => ⟨b, b, hb, hb, rfl⟩) fun ⟨e, he⟩ => ⟨e, he, he⟩

/-- Agreeing actions that go on to agreeing ones agree as sequences. -/
theorem Agree.bind {ι κ : Type} {R : β → γ → Prop} {R' : ι → κ → Prop} {a : Run σ α β}
    {a' : Run σ α γ} {f : β → Run σ α ι} {f' : γ → Run σ α κ} (ha : Agree R a a')
    (hf : ∀ b c, R b c → Agree R' (f b) (f' c)) : Agree R' (a >>= f) (a' >>= f') := by
  -- two results go on together, two failures end both sides
  rcases ha with ⟨b, c, hb, hc, hR⟩ | ⟨e, he, he'⟩
  · rcases hf b c hR with ⟨i, j, hi, hj, hR'⟩ | ⟨e, he, he'⟩
    · exact .inl ⟨i, j, hb.bind hi, hc.bind hj, hR'⟩
    · exact .inr ⟨e, hb.bind_raises he, hc.bind_raises he'⟩
  · exact .inr ⟨e, he.bind, he'.bind⟩

/-- A result of one side leads to certain results of both. -/
theorem Agree.exists_of_yields {R : β → γ → Prop} {a : Run σ α β} {a' : Run σ α γ}
    (h : Agree R a a') {c : γ} (hc : a'.Yields c) : ∃ b, a.Computes b ∧ a'.Computes c ∧ R b c := by
  rcases h with ⟨b, c', hb, hc', hR⟩ | ⟨e, _, he⟩
  · cases hc'.eq_of_yields hc
    exact ⟨b, hb, hc', hR⟩
  · exact absurd hc he.not_yields

/-- A session shows that results and failures exclude each other. -/
theorem Agree.trans_eq [Inhabited σ] {R : β → γ → Prop} {a : Run σ α β} {a' a'' : Run σ α γ}
    (h : Agree R a a') (h' : Agree Eq a' a'') : Agree R a a'' := by
  -- the middle action has one outcome, so the mixed cases contradict each other
  rcases h with ⟨b, c, hb, hc, hR⟩ | ⟨e, he, he'⟩
  · rcases h' with ⟨c', _, hc', hc'', rfl⟩ | ⟨e, he, _⟩
    · rw [hc'.eq_of_yields hc.yields] at hR
      exact .inl ⟨b, c', hb, hc'', hR⟩
    · exact absurd he.fails hc.not_fails
  · rcases h' with ⟨c', _, hc', -, -⟩ | ⟨e'', he'', hraises⟩
    · exact absurd he'.fails hc'.not_fails
    · rw [he''.eq_of_fails he'.fails] at he
      exact .inr ⟨e'', he, hraises⟩

/-! ### Recorded events -/

/-- All events that the action appends to the journal satisfy `P`. -/
def Records (P : Event α → Prop) (action : Run σ α β) : Prop :=
  ∀ s, ∃ events : List (Event α),
    (action.exec s).2.journal.toList = s.journal.toList ++ events ∧ ∀ e ∈ events, P e

theorem records_pure (P : Event α → Prop) (b : β) : (pure b : Run σ α β).Records P :=
  fun _ => ⟨[], by simp, by simp⟩

theorem records_throw (P : Event α → Prop) (e : Failure α) : (throw e : Run σ α β).Records P :=
  fun _ => ⟨[], by simp, by simp⟩

theorem records_liftM (P : Event α → Prop) (r : Except (Failure α) β) :
    (liftM r : Run σ α β).Records P :=
  fun _ => ⟨[], by simp, by simp⟩

/-- A single event has to satisfy the predicate itself. -/
theorem records_record {P : Event α → Prop} {event : Event α} (h : P event) :
    (record event : Run σ α Unit).Records P :=
  fun _ => ⟨[event], by simp, by simpa using h⟩

/-- What follows an action only has to be looked at for the results that the action yields. -/
theorem Records.bind {P : Event α → Prop} {a : Run σ α β} {f : β → Run σ α γ}
    (ha : a.Records P) (hf : ∀ b, a.Yields b → (f b).Records P) : (a >>= f).Records P := by
  intro s
  obtain ⟨events, hjournal, hevents⟩ := ha s
  rw [exec_bind]
  -- after a failure nothing more is recorded
  split
  · next b t hb =>
    rw [hb] at hjournal
    obtain ⟨later, hjournal', hlater⟩ := hf b ⟨s, t, hb⟩ t
    refine ⟨events ++ later, ?_, ?_⟩
    · rw [hjournal', hjournal, List.append_assoc]
    · intro e he
      exact (List.mem_append.mp he).elim (hevents e) (hlater e)
  · next e t hb =>
    rw [hb] at hjournal
    exact ⟨events, hjournal, hevents⟩

end Downhill.Run
