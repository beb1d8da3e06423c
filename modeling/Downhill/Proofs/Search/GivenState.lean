import Downhill.Proofs.Determinism
import Downhill.Scalar.Binary
import Mathlib.Logic.Basic

/-!
# Searches from a given state

A search may be told the value and the gradient at the point where it starts. It does then what it
would do after evaluating them itself, and only counts two evaluations less.

* `search_eq`: for every objective, one with a memory included, a search is an evaluation of the
  value and of the gradient, followed by the search from them;
* `search_agrees_searchFrom`: so for a deterministic objective the two entry points raise the same
  failure, or find the same step with counts that differ by one each.

The searches carry their tally along without looking at it. So a tally that a phase starts with can
be added to what the phase counts from nothing (`Ray.halve_add` and the lemmas that follow it).
-/

namespace Downhill

variable {σ α β γ δ : Type}

/-! ### Actions with mapped results -/

section Map

variable {g : γ → δ}

/-- If what follows an action gives mapped results, then so do both together. -/
theorem Run.bind_eq_map {a : Run σ α β} {f : β → Run σ α δ} {f' : β → Run σ α γ}
    (h : ∀ b, f b = g <$> f' b) : (a >>= f) = g <$> (a >>= f') := by
  rw [map_bind]
  exact bind_congr h

/-- The results of the first action may be mapped as well. -/
theorem Run.map_bind_eq_map {g' : β → β} {a a' : Run σ α β} {f : β → Run σ α δ}
    {f' : β → Run σ α γ} (ha : a = g' <$> a') (h : ∀ b, f (g' b) = g <$> f' b) :
    (a >>= f) = g <$> (a' >>= f') := by
  rw [ha, bind_map_left]
  exact bind_eq_map h

theorem Run.ite_eq_map {c : Prop} [Decidable c] {a b : Run σ α δ} {a' b' : Run σ α γ}
    (ha : a = g <$> a') (hb : b = g <$> b') :
    (if c then a else b) = g <$> if c then a' else b' := by
  rw [ha, hb]
  exact (apply_ite (g <$> ·) c a' b').symm

end Map

namespace WolfePowell

variable [Scalar α] {n k : Nat}

/-- The step, counted after the evaluations of `before`. -/
def Step.after (before : Tally) (s : Step α n) : Step α n := { s with tally := before + s.tally }

/-- A result with its tally, counted after the evaluations of `before`. -/
def countedAfter (before : Tally) (r : β × Tally) : β × Tally := (r.1, before + r.2)

/-! ### The phases -/

namespace Ray

variable (ray : Ray σ α n) (before : Tally)

theorem halve_add :
    ∀ (remaining taken : Nat) (t : α) (tally : Tally),
      ray.halve remaining taken t (before + tally) =
        countedAfter before <$> ray.halve remaining taken t tally := by
  -- by induction on the halvings left; the tests do not look at the tally
  intro remaining
  induction remaining with
  | zero =>
    intro taken t tally
    rfl
  | succ remaining ih =>
    intro taken t tally
    rw [halve, halve]
    refine Run.bind_eq_map fun trial => Run.bind_eq_map fun _ => ?_
    exact Run.ite_eq_map rfl (ih _ _ tally.value)

theorem double_add :
    ∀ (remaining taken : Nat) (lower : Trial α n) (gradient : Option (Vec α n)) (tally : Tally),
      ray.double remaining taken lower gradient (before + tally) =
        countedAfter before <$> ray.double remaining taken lower gradient tally := by
  intro remaining
  induction remaining with
  | zero =>
    intro taken lower gradient tally
    rfl
  | succ remaining ih =>
    intro taken lower gradient tally
    rw [double, double]
    refine Run.bind_eq_map fun trial => Run.bind_eq_map fun _ => ?_
    exact Run.ite_eq_map (ih _ _ _ tally.value) rfl

theorem bisect_add :
    ∀ (remaining taken : Nat) (lower : Trial α n) (gradient : Vec α n) (upper : α) (tally : Tally),
      ray.bisect remaining taken lower gradient upper (before + tally) =
        Step.after before <$> ray.bisect remaining taken lower gradient upper tally := by
  intro remaining
  induction remaining with
  | zero =>
    intro taken lower gradient upper tally
    rw [bisect, bisect]
    exact Run.ite_eq_map rfl rfl
  | succ remaining ih =>
    intro taken lower gradient upper tally
    rw [bisect, bisect]
    refine Run.ite_eq_map ?_ rfl
    refine Run.bind_eq_map fun middle => Run.bind_eq_map fun _ => ?_
    -- the midpoint becomes the lower end, with its gradient, or the upper end
    refine Run.ite_eq_map (Run.bind_eq_map fun _ => ?_) ?_
    · exact ih _ _ _ _ tally.value.gradient
    · exact ih _ _ _ _ tally.value

theorem refine_add (bracket : Bracket α n) (tally : Tally) :
    ray.refine bracket (before + tally) = Step.after before <$> ray.refine bracket tally := by
  obtain ⟨lower, gradient, upper⟩ := bracket
  cases gradient with
  | some gradient => exact ray.bisect_add before _ _ _ _ _ _
  | none => exact Run.bind_eq_map fun _ => ray.bisect_add before _ _ _ _ _ tally.gradient

theorem search_add (tally : Tally) :
    ray.search (before + tally) = Step.after before <$> ray.search tally := by
  unfold search
  refine Run.bind_eq_map fun first => ?_
  dsimp only
  -- doubling starts with the gradient counted, halving without
  refine Run.ite_eq_map (Run.bind_eq_map fun gradient => Run.ite_eq_map rfl ?_) ?_
  · exact Run.map_bind_eq_map (ray.double_add before _ _ _ _ tally.value.gradient)
      fun ⟨bracket, tally⟩ => ray.refine_add before bracket tally
  · exact Run.map_bind_eq_map (ray.halve_add before _ _ _ tally.value)
      fun ⟨_, tally⟩ => ray.refine_add before _ tally

end Ray

/-! ### The entry points -/

theorem run_add (f : Objective σ α n) (x : Vec α n) (value : α) (gradient d : Vec α n)
    (params : SearchParams α) (before tally : Tally) :
    run f x value gradient d params (before + tally) =
      Step.after before <$> run f x value gradient d params tally := by
  unfold run
  refine Run.bind_eq_map fun s => ?_
  dsimp only
  refine Run.ite_eq_map rfl (Run.bind_eq_map fun _ => Run.bind_eq_map fun _ => ?_)
  exact Run.map_bind_eq_map (Ray.search_add _ before tally) fun step =>
    Run.bind_eq_map fun _ => rfl

/-- A search looks at the length of the direction, evaluates the objective at its start, and goes on
from what it has found there. -/
theorem search_eq (f : Objective σ α n) (x : Vec α n) (d : Vec α k) (params : SearchParams α) :
    search f x d params = (do
      let _ ← d.ofLength n
      let value ← f.value x
      let gradient ← f.gradient x
      let step ← searchFrom f x value gradient d params
      pure (step.after ⟨1, 1⟩)) := by
  unfold search searchFrom
  cases d.ofLength n with
  | error e => rfl
  | ok d =>
    change (f.value x >>= fun value => f.gradient x >>= fun gradient => _) =
      (f.value x >>= fun value => f.gradient x >>= fun gradient => _)
    refine bind_congr fun value => bind_congr fun gradient => ?_
    rw [Vec.ofLength_self, bind_pure_comp]
    exact run_add f x value gradient d params ⟨1, 1⟩ .none

/-- The steps are the same, and the first one counts one value and one gradient more. -/
structure Step.Recounts (s t : Step α n) : Prop where
  /-- The steps have the same size. -/
  size_eq : s.size = t.size
  /-- They end at the same point. -/
  point_eq : s.point = t.point
  /-- The values there are the same. -/
  value_eq : s.value = t.value
  /-- The gradients there are the same. -/
  gradient_eq : s.gradient = t.gradient
  /-- One more value is counted. -/
  values_eq : s.tally.values = t.tally.values + 1
  /-- One more gradient is counted. -/
  gradients_eq : s.tally.gradients = t.tally.gradients + 1

omit [Scalar α] in
theorem Step.recounts_after (s : Step α n) : (s.after ⟨1, 1⟩).Recounts s :=
  ⟨rfl, rfl, rfl, rfl, Nat.add_comm 1 _, Nat.add_comm 1 _⟩

/-- **Searches from a given state**: in every arithmetic, for a deterministic objective that has a
value and a gradient at the point, and for every direction, also one of another length, and all
parameters. The search that evaluates them itself and the search that is told them raise the same
failure, or find the same step, and the first one counts one value and one gradient more. -/
theorem search_agrees_searchFrom {f : Objective σ α n} (hf : f.Deterministic) {x : Vec α n}
    {value : α} {gradient : Vec α n} (hvalue : (f.value x).Computes value)
    (hgradient : (f.gradient x).Computes gradient) (d : Vec α k) (params : SearchParams α) :
    Run.Agree Step.Recounts (search f x d params) (searchFrom f x value gradient d params) := by
  rw [search_eq]
  cases hd : d.ofLength n with
  | error e =>
    -- both look at the direction before anything else
    exact .inr ⟨e, (Run.raises_liftM rfl).bind, (Run.raises_liftM hd).bind⟩
  | ok _ =>
    -- a deterministic search computes a step or raises a failure
    rcases (determined_searchFrom hf x value gradient d params).computes_or_raises with
      ⟨t, ht⟩ | ⟨e, he⟩
    · refine .inl ⟨t.after ⟨1, 1⟩, t, ?_, ht, t.recounts_after⟩
      exact (Run.computes_liftM rfl).bind
        (hvalue.bind (hgradient.bind (ht.bind (Run.computes_pure _))))
    · refine .inr ⟨e, ?_, he⟩
      exact (Run.computes_liftM rfl).bind_raises
        (hvalue.bind_raises (hgradient.bind_raises he.bind))

/-- In double precision, on half the square, a search that doubles nine times and then bisects asks
for twelve values and three gradients if it starts on its own. -/
theorem search_agrees_searchFrom_doubles :
    ∃ s t, (search ((Quadratic.simple 1).objective 1 : Objective Unit Float 1) #v[3] #v[-0.01]
        .wolfePowell).Computes s ∧
      (searchFrom ((Quadratic.simple 1).objective 1 : Objective Unit Float 1) #v[3]
        ((Quadratic.simple 1).value #v[3]) ((Quadratic.simple 1).gradient #v[3]) #v[-0.01]
        .wolfePowell).Computes t ∧
      s.Recounts t ∧ s.tally = ⟨12, 3⟩ ∧ t.tally = ⟨11, 2⟩ := by
  have hvalue : (((Quadratic.simple 1).objective 1 : Objective Unit Float 1).value #v[3]).Computes
      ((Quadratic.simple 1).value #v[3]) :=
    (Run.computes_liftM rfl).bind (Run.computes_pure _)
  have hgradient : (((Quadratic.simple 1).objective 1 : Objective Unit Float 1).gradient
      #v[3]).Computes ((Quadratic.simple 1).gradient #v[3]) :=
    (Run.computes_liftM rfl).bind (Run.computes_liftM rfl)
  have hagree := search_agrees_searchFrom ((Quadratic.simple 1).deterministic 1) hvalue hgradient
    (#v[-0.01] : Vec Float 1) .wolfePowell
  obtain ⟨t, ht, htally⟩ : ∃ t,
      (searchFrom ((Quadratic.simple 1).objective 1 : Objective Unit Float 1) #v[3]
        ((Quadratic.simple 1).value #v[3]) ((Quadratic.simple 1).gradient #v[3]) #v[-0.01]
        .wolfePowell).Yields t ∧ t.tally = ⟨11, 2⟩ :=
    Run.exists_yields_of_start Step.tally () (by decide +kernel)
  obtain ⟨s, hs, ht, hrecounts⟩ := hagree.exists_of_yields ht
  refine ⟨s, t, hs, ht, hrecounts, ?_, htally⟩
  show (⟨s.tally.values, s.tally.gradients⟩ : Tally) = _
  rw [hrecounts.values_eq, hrecounts.gradients_eq, htally]

end WolfePowell

end Downhill
