import Downhill.Proofs.Calls
import Downhill.Proofs.Method.Report
import Downhill.Proofs.Projection.Nearest

/-!
# Where projected inexact Newton descent looks

* `minimize_queries_feasible`: all points at which a run calls the functions of its objective are
  results of the projection, and so is the point that it returns.

The iterates of the inner loop and the trial points `x + t d` need not belong to the feasible set,
on which alone the objective may be defined. But the inner loop only multiplies with the Hessian at
the point that the iteration starts from, and the line search projects its trial points first.
-/

namespace Downhill

variable {σ α : Type} [Scalar α] {n k : Nat} {f : Objective σ α n} {P : Projection α n}
  {x : Vec α n}

/-! ### The line search -/

namespace ProjectedBacktracking

/-- The path along which the calls are noted. -/
def Path.noted (path : Path σ α n) : Path (σ × List (Query α n)) α n :=
  { path with objective := path.objective.noted }

/-- Trial points are projected before they are looked at. -/
theorem Path.keeps_backtrack (path : Path σ α n) :
    ∀ (remaining taken : Nat) (t : α) (tally : Tally),
      (path.noted.backtrack remaining taken t tally).Keeps (path.projection.IsImage ·.point)
        (path.projection.IsImage ·.point) (path.backtrack remaining taken t tally) := by
  intro remaining
  -- by induction on the halvings that are left
  induction remaining with
  | zero =>
    intro taken t tally
    rw [backtrack, backtrack]
    refine (Run.keeps_liftM (G := path.projection.IsImage) fun y hy => ⟨_, hy⟩).bind fun y hy =>
      (path.objective.keeps_value hy).bind fun _ _ => (Run.keeps_check _).bind fun _ _ => ?_
    split_ifs
    · exact Run.keeps_pure hy
    · exact Run.keeps_throw _
  | succ remaining ih =>
    intro taken t tally
    rw [backtrack, backtrack]
    refine (Run.keeps_liftM (G := path.projection.IsImage) fun y hy => ⟨_, hy⟩).bind fun y hy =>
      (path.objective.keeps_value hy).bind fun _ _ => (Run.keeps_check _).bind fun _ _ => ?_
    split_ifs
    · exact Run.keeps_pure hy
    · exact (Run.keeps_record _).bind fun _ _ => ih _ _ _

/-- The search looks at its start, which has to be feasible, and at projected points. -/
theorem keeps_search (f : Objective σ α n) (hx : P.IsImage x) (d : Vec α k)
    (params : SearchParams α) :
    (search f.noted P x d params).Keeps (P.IsImage ·.point) (P.IsImage ·.point)
      (search f P x d params) := by
  unfold search
  refine (Run.keeps_check _).bind fun d _ =>
    (Run.keeps_liftM (G := P.IsImage) fun y hy => ⟨_, hy⟩).bind fun y hy =>
      (f.keeps_gradient hy).bind fun g _ => (Run.keeps_check _).bind fun _ _ => ?_
  dsimp only
  split_ifs
  · exact Run.keeps_throw_bind _ _ _
  refine (Run.keeps_check _).bind fun _ _ => (f.keeps_value hx).bind fun v _ =>
    (Run.keeps_record _).bind fun _ _ => (Run.keeps_check _).bind fun _ _ => ?_
  split_ifs
  · exact Run.keeps_throw_bind _ _ _
  · exact (Path.keeps_backtrack ⟨f, P, x, d, v, g, params.sigma⟩ _ _ _ _).bind fun _ hstep =>
      (Run.keeps_record _).bind fun _ _ => Run.keeps_pure hstep

end ProjectedBacktracking

/-! ### The method -/

namespace ProjectedNewton

variable {config : Config α} {s : State α n}

/-- The reduced Hessian is that at its point, whatever the vector. -/
theorem keeps_reducedHessian (f : Objective σ α n) (hx : P.IsImage x) (d : Vec α n) :
    (reducedHessian f.noted P x d).Keeps (P.IsImage ·.point) (fun _ => True)
      (reducedHessian f P x d) :=
  (Run.keeps_check _).bind fun _ _ => (f.keeps_hessianProduct hx).bind fun _ _ =>
    Run.keeps_pure trivial

/-- An inner step looks at the base point only. -/
theorem keeps_innerStep (config : Config α) (f : Objective σ α n) (hx : P.IsImage x)
    (s : Inner α n) :
    (innerStep config f.noted P x s).Keeps (P.IsImage ·.point) (fun _ => True)
      (innerStep config f P x s) := by
  refine (keeps_reducedHessian f hx _).bind fun _ _ => ?_
  dsimp only
  split_ifs
  · exact (Run.keeps_record _).bind fun _ _ => Run.keeps_pure trivial
  · exact Run.keeps_pure trivial

/-- The inner loop for the objective whose calls are noted. -/
def InnerProblem.noted (p : InnerProblem σ α n) : InnerProblem (σ × List (Query α n)) α n :=
  { p with objective := p.objective.noted }

@[simp] theorem InnerProblem.noted_forcing (p : InnerProblem σ α n) : p.noted.forcing = p.forcing :=
  rfl

/-- The inner loop asks at feasible points only, though its own points need not be feasible. -/
theorem keeps_innerIterate {p : InnerProblem σ α n} (hbase : p.projection.IsImage p.base) :
    ∀ (remaining : Nat) (s : Inner α n),
      (innerIterate p.noted remaining s).Keeps (p.projection.IsImage ·.point) (fun _ => True)
        (innerIterate p remaining s) := by
  intro remaining
  induction remaining with
  | zero =>
    intro s
    rw [innerIterate, innerIterate, InnerProblem.noted_forcing]
    split_ifs
    · exact Run.keeps_throw _
    · exact Run.keeps_pure trivial
  | succ remaining ih =>
    intro s
    rw [innerIterate, innerIterate, InnerProblem.noted_forcing]
    split_ifs
    · refine (keeps_innerStep p.config p.objective hbase s).bind fun next _ => ?_
      cases next with
      | none => exact Run.keeps_pure trivial
      | some next => exact ih next
    · exact Run.keeps_pure trivial

/-- An iteration leads from a feasible point to a feasible point, and only looks at such points. -/
theorem keeps_step (config : Config α) (f : Objective σ α n) (hs : P.IsImage s.point) :
    (step config f.noted P s).Keeps (P.IsImage ·.point) (P.IsImage ·.point)
      (step config f P s) :=
  (keeps_innerIterate (p := innerProblem config f P s) hs _ _).bind fun inner _ =>
    (ProjectedBacktracking.keeps_search f hs (direction s inner.1) config.search).bind
      fun _ hfound => (f.keeps_gradient hfound).bind fun _ _ => (Run.keeps_check _).bind fun _ _ =>
        (Run.keeps_record _).bind fun _ _ => Run.keeps_pure hfound

/-- A run starts from the projection of its start. -/
theorem keeps_start (f : Objective σ α n) (P : Projection α n) (x : Vec α n) :
    (start f.noted P x).Keeps (P.IsImage ·.point) (P.IsImage ·.point) (start f P x) :=
  (Run.keeps_liftM (G := P.IsImage) fun _ hy => ⟨_, hy⟩).bind fun _ hy =>
    (f.keeps_value hy).bind fun _ _ => (f.keeps_gradient hy).bind fun _ _ =>
      (Run.keeps_check _).bind fun _ _ => Run.keeps_pure hy

/-- The run from `x` has the same outcome whether its calls are noted or not; all points at which it
calls the functions of its objective are in the set `S`, and so is the point that it returns. -/
def QueriesStay (config : Config α) (f : Objective σ α n) (P : Projection α n) (x : Vec α n)
    (S : Vec α n → Prop) : Prop :=
  (minimize config f.noted P x).Keeps (S ·.point) (S ·.point) (minimize config f P x)

/-- All points of a run are results of the projection. -/
theorem queriesStay_isImage (config : Config α) (f : Objective σ α n) (P : Projection α n)
    (x : Vec α n) : QueriesStay config f P x P.IsImage := by
  unfold QueriesStay
  rw [minimize_eq_run, minimize_eq_run]
  have hstart : (routine config f.noted P x).start.Keeps (P.IsImage ·.point) (P.IsImage ·.point)
      (routine config f P x).start :=
    (Run.keeps_check _).bind fun _ _ => (Run.keeps_record _).bind fun _ _ => keeps_start f P x
  refine hstart.bind fun s hs => ?_
  -- that the point of a stage is feasible carries the loop
  have hloop : ((loop config f.noted P).run config.maxIterations config.maxIterations s).Keeps
      (P.IsImage ·.point) (P.IsImage ·.point)
      ((loop config f P).run config.maxIterations config.maxIterations s) :=
    Loop.keeps_run (fun _ => Iff.rfl) (fun _ => rfl) (fun _ => keeps_step config f) _ hs
  exact hloop.bind fun _ hlast => (Run.keeps_record _).bind fun _ _ => Run.keeps_pure hlast

/-- **Where projected inexact Newton descent looks**: in every arithmetic, whatever the objective,
the projection, the settings and the start, and whether the run succeeds or not. The points at which
a run calls the functions of its objective, and the point that it returns, are results of the
projection. So they lie between the bounds of a box, if these are numbers, even where the start or a
trial point is infinite or not a number; and in exact arithmetic they lie within the radius of a
ball. -/
theorem minimize_queries_feasible :
    (∀ (σ α : Type) [Scalar α] (n : Nat) (config : Config α) (f : Objective σ α n)
        (P : Projection α n) (x : Vec α n), QueriesStay config f P x P.IsImage) ∧
    (∀ (σ α : Type) [Scalar α] [Scalar.OrdersNumbers α] [Scalar.Ordered α] (m k n : Nat)
        (lower : Vec α m) (upper : Vec α k) (b : Box α m), Box.make lower upper = .ok b →
          b.Numeric →
        ∀ (config : Config α) (f : Objective σ α n) (x : Vec α n),
          QueriesStay config f (b.projection n) x b.Within) ∧
    ∀ (σ : Type) (m n : Nat) (origin : Vec ℝ m) (radius : ℝ) (b : Ball ℝ m),
      Ball.make origin radius = .ok b → ∀ (config : Config ℝ) (f : Objective σ ℝ n) (x : Vec ℝ n),
        QueriesStay config f (b.projection n) x b.Within := by
  refine ⟨fun _ _ _ _ => queriesStay_isImage, ?_, ?_⟩
  · intro σ α _ _ _ m k n lower upper b hmake hnumeric config f x
    have hwithin : ∀ y : Vec α n, (b.projection n).IsImage y → b.Within y := fun _ =>
      Box.within_of_project hnumeric (Box.not_lt_of_make hmake)
    exact (queriesStay_isImage config f _ x).mono (fun _ => hwithin _) fun _ => hwithin _
  · intro σ m n origin radius b hmake config f x
    have hwithin : ∀ y : Vec ℝ n, (b.projection n).IsImage y → b.Within y := fun _ =>
      Ball.within_of_project (Ball.radius_pos_of_make hmake)
    exact (queriesStay_isImage config f _ x).mono (fun _ => hwithin _) fun _ => hwithin _

/-! ### Runs from far away -/

/-- The interval from one to ten. -/
def doubleBox : Box Float 1 := ⟨.singleton 1, .singleton 10⟩

/-- The point of a run in double precision, and the points at which it calls its objective. -/
def doubleQueries (x : Float) : Option (Float × List Float) :=
  let (outcome, session) :=
    (minimize {} doubleObjective.noted (doubleBox.projection 1) (.singleton x)).start ((), [])
  outcome.toOption.map fun o => (o.point.entry 0, session.memory.2.map fun q => q.point.entry 0)

/-- From infinity a run in the interval from one to ten starts at ten and ends at one; from a
not-a-number it starts at one. In exact arithmetic a run in the unit ball stays there. -/
theorem minimize_queries_feasible_far :
    doubleQueries (1 / 0) = some (1, [10, 10, 10, 10, 10, 1, 1]) ∧
    doubleQueries (0 / 0) = some (1, [1, 1]) ∧
    (∀ x, QueriesStay {} doubleObjective (doubleBox.projection 1) #v[x] doubleBox.Within) ∧
    QueriesStay {} ((Quadratic.simple 1).objective 1 : Objective Unit ℝ 1)
      (Ball.projection ⟨#v[0], 1⟩ 1) #v[3] (Ball.Within ⟨#v[0], 1⟩) := by
  obtain ⟨-, hbox, hball⟩ := minimize_queries_feasible
  have hmake : Box.make (.singleton 1) (.singleton 10) = .ok doubleBox := rfl
  have hnumeric : doubleBox.Numeric := ⟨by decide +kernel, by decide +kernel⟩
  exact ⟨by decide +kernel, by decide +kernel,
    fun x => hbox Unit Float 1 1 1 _ _ doubleBox hmake hnumeric {} doubleObjective #v[x],
    hball Unit 1 1 #v[0] 1 ⟨#v[0], 1⟩ (if_pos one_pos) {} _ #v[3]⟩

end ProjectedNewton

end Downhill
