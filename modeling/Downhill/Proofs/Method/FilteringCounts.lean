import Downhill.Proofs.Method.ImplicitFiltering
import Downhill.Proofs.Method.Report
import Downhill.Proofs.Objective
import Downhill.Proofs.Tally

/-!
# Values counted by implicit filtering

* `evaluations_exceed_calls`: over every arithmetic, what a run of implicit filtering reports as the
  number of values is the number of those that it asked for, and two more for each coordinate that a
  test of a stencil did not visit.

For the gradient and the test at a point a descent counts what they ask for at most. But the test
ends at the first coordinate with a better neighbour, so the report is exact only if every test
visited all coordinates, as it has to with one variable.

The calls of a run are those of its descents, one for each scale in each sweep. A descent consists
of steps, each with the coordinates that its test visited and the points that its line search looked
at (`Scale.Walk`). The invariant of the sweeps is `Ledger`.
-/

namespace Downhill

variable {σ α : Type} [Scalar α] {n : Nat}

/-! ### Stencils -/

namespace Stencil

variable {f : Objective σ α n} {x : Vec α n} {h center : α}

/-- The calls at the two neighbours of `x` in coordinate `i`. -/
def pairCalls (x : Vec α n) (h : α) (i : Fin n) : List (Query α n) :=
  [.value (x.plusAt i h), .value (x.minusAt i h)]

/-- The calls of a simplex gradient. -/
def gradientCalls (x : Vec α n) (h : α) : List (Query α n) :=
  (List.finRange n).flatMap (pairCalls x h)

/-- The calls of a test that visits so many coordinates. -/
def testCalls (x : Vec α n) (h : α) (visited : Nat) : List (Query α n) :=
  .value x :: ((List.finRange n).take visited).flatMap (pairCalls x h)

/-- The test of the stencil with its answer, and the number of coordinates that it visits. -/
inductive Visits (f : Objective σ α n) (x : Vec α n) (h : α) : Bool → Nat → Prop
  /-- No coordinate has a better neighbour. -/
  | all {center : α} (hcenter : (f.value x).Yields center)
      (hworse : ∀ i, NotBetter f x h center i) : Visits f x h true n
  /-- The coordinate `i` is the first with a better neighbour. -/
  | upTo {center : α} (hcenter : (f.value x).Yields center) (i : Fin n)
      (hbefore : ∀ j, j < i → NotBetter f x h center j) (hbetter : Better f x h center i) :
      Visits f x h false (i + 1)

/-- A test visits at most all coordinates. -/
theorem Visits.le {failed : Bool} {visited : Nat} (hvisits : Visits f x h failed visited) :
    visited ≤ n := by
  cases hvisits with
  | all => exact le_rfl
  | upTo _ i => exact i.isLt

/-- One coordinate is all that there is to visit. -/
theorem Visits.eq_of_le_one {failed : Bool} {visited : Nat} (hn : n ≤ 1)
    (hvisits : Visits f x h failed visited) : visited = n := by
  cases hvisits with
  | all => rfl
  | upTo _ i => omega

/-- A simplex gradient asks for the values at all neighbours. -/
theorem accounts_simplexGradient (f : Objective σ α n) (x : Vec α n) (h : α) :
    (simplexGradient f.noted x h).Accounts (fun _ calls => calls = gradientCalls x h)
      (simplexGradient f x h) :=
  (Run.silent_liftM _).bind_accounts fun _ _ => Run.accounts_tabulateM fun _ =>
    Run.accounts_noting_bind fun _ _ => Run.accounts_noting_bind fun _ _ => Run.accounts_pure rfl

/-- The test of one coordinate asks for the values at its two neighbours. -/
theorem accounts_noBetter (f : Objective σ α n) (x : Vec α n) (h center : α) (i : Fin n) :
    (noBetter f.noted x h center i).Accounts (fun _ calls => calls = pairCalls x h i)
      (noBetter f x h center i) :=
  Run.accounts_noting_bind fun _ _ => Run.accounts_noting_bind fun _ _ => Run.accounts_pure rfl

/-- A test of some of the coordinates visits all of them, or those up to the first one with a better
neighbour. -/
theorem accounts_allM (f : Objective σ α n) (x : Vec α n) (h center : α) (is : List (Fin n)) :
    (is.allM (noBetter f.noted x h center)).Accounts
      (fun failed calls =>
        failed = true ∧ (∀ i ∈ is, NotBetter f x h center i) ∧ calls = is.flatMap (pairCalls x h) ∨
        failed = false ∧ ∃ before i after, is = before ++ i :: after ∧
          (∀ j ∈ before, NotBetter f x h center j) ∧ Better f x h center i ∧
          calls = (before ++ [i]).flatMap (pairCalls x h))
      (is.allM (noBetter f x h center)) := by
  -- by induction on the coordinates that are left
  induction is with
  | nil => exact Run.accounts_pure (.inl ⟨rfl, fun _ hi => absurd hi List.not_mem_nil, rfl⟩)
  | cons i is ih =>
    rw [List.allM, List.allM]
    refine (accounts_noBetter f x h center i).bind fun b calls hb hcalls => ?_
    -- a better neighbour in the first coordinate ends the test
    rcases noBetter_cases hb with ⟨rfl, hworse⟩ | ⟨rfl, hbetter⟩
    · refine ih.mono ?_
      rintro failed later (⟨rfl, hrest, hlater⟩ | ⟨rfl, before, j, after, his, hbefore, hj, hlater⟩)
      · refine .inl ⟨rfl, List.forall_mem_cons.mpr ⟨hworse, hrest⟩, ?_⟩
        rw [hcalls, hlater, List.flatMap_cons]
      · refine .inr ⟨rfl, i :: before, j, after, ?_, List.forall_mem_cons.mpr ⟨hworse, hbefore⟩,
          hj, ?_⟩
        · rw [his, List.cons_append]
        · rw [hcalls, hlater, List.cons_append, List.flatMap_cons]
    · refine Run.accounts_pure (.inr ⟨rfl, [], i, is, rfl, fun _ hj => absurd hj List.not_mem_nil,
        hbetter, ?_⟩)
      rw [hcalls, List.append_nil, List.nil_append, List.flatMap_singleton]

/-- Before an index stand the smaller ones. -/
theorem finRange_split {before after : List (Fin n)} {i : Fin n}
    (h : List.finRange n = before ++ i :: after) :
    (List.finRange n).take (i + 1) = before ++ [i] ∧ ∀ j, j < i → j ∈ before := by
  have hget : ∀ k : Nat, (List.finRange n)[k]? = (before ++ i :: after)[k]? := fun k => by rw [h]
  -- the entry at each position of the list of indices is the position
  have hlength : i.val = before.length := by
    have hat := hget before.length
    rw [List.getElem?_append_right le_rfl, Nat.sub_self, List.getElem?_cons_zero,
      List.getElem?_eq_some_iff] at hat
    obtain ⟨hk, hi⟩ := hat
    rw [← hi, List.getElem_finRange]
    rfl
  constructor
  · rw [h, hlength, List.take_length_add_append]
    rfl
  · intro j hj
    have hat := hget j
    rw [List.getElem?_append_left (by omega), List.getElem?_eq_getElem (by simp),
      List.getElem_finRange] at hat
    exact List.mem_of_getElem? hat.symm

/-- A test asks for the value at its point, and for those at the neighbours that it visits. -/
theorem accounts_isFailure (f : Objective σ α n) (x : Vec α n) (h : α) :
    (isFailure f.noted x h).Accounts
      (fun failed calls => ∃ visited, Visits f x h failed visited ∧ calls = testCalls x h visited)
      (isFailure f x h) := by
  refine (Run.silent_liftM _).bind_accounts fun _ _ => Run.accounts_noting_bind
    fun center hcenter => (accounts_allM f x h center _).mono ?_
  rintro failed calls
    (⟨rfl, hworse, hcalls⟩ | ⟨rfl, before, i, after, his, hbefore, hbetter, hcalls⟩)
  · refine ⟨n, .all hcenter fun i => hworse i (List.mem_finRange i), ?_⟩
    rw [hcalls, testCalls, List.take_of_length_le List.length_finRange.le]
  · obtain ⟨htake, hless⟩ := finRange_split his
    refine ⟨i + 1, .upTo hcenter i (fun j hj => hbefore j (hless j hj)) hbetter, ?_⟩
    rw [hcalls, testCalls, htake]

/-- What follows the gradient and the test at a point. -/
theorem accounts_bind {β : Type} {Q : β → List (Query α n) → Prop}
    {k' : Vec α n → Bool → Run (σ × List (Query α n)) α β} {k : Vec α n → Bool → Run σ α β}
    (hk : ∀ g failed visited, Visits f x h failed visited →
      (k' g failed).Accounts
        (fun b later => Q b (gradientCalls x h ++ (testCalls x h visited ++ later)))
        (k g failed)) :
    (simplexGradient f.noted x h >>= fun g => isFailure f.noted x h >>= k' g).Accounts Q
      (simplexGradient f x h >>= fun g => isFailure f x h >>= k g) := by
  refine (accounts_simplexGradient f x h).bind fun g calls _ hcalls =>
    (accounts_isFailure f x h).bind fun failed calls' _ ⟨visited, hvisits, hcalls'⟩ => ?_
  rw [hcalls, hcalls']
  exact hk g failed visited hvisits

/-- The number of calls of a simplex gradient. -/
theorem length_gradientCalls (x : Vec α n) (h : α) : (gradientCalls x h).length = 2 * n := by
  simp [gradientCalls, pairCalls, List.length_flatMap, Nat.mul_comm]

theorem length_testCalls (x : Vec α n) (h : α) {visited : Nat} (hvisited : visited ≤ n) :
    (testCalls x h visited).length = 2 * visited + 1 := by
  simp [testCalls, pairCalls, List.length_flatMap, Nat.mul_comm, hvisited]

theorem isValue_of_mem_pairCalls (x : Vec α n) (h : α) (is : List (Fin n)) :
    ∀ c ∈ is.flatMap (pairCalls x h), c.isValue = true := by
  intro c hc
  obtain ⟨i, -, hc⟩ := List.mem_flatMap.mp hc
  have hpair : ∀ c ∈ pairCalls x h i, c.isValue = true :=
    List.forall_mem_cons.mpr ⟨rfl, List.forall_mem_singleton.mpr rfl⟩
  exact hpair c hc

end Stencil

/-! ### Descents at a scale -/

namespace ImplicitFiltering

/-- A step of a descent, which may end with it. -/
structure Step (α : Type) (n : Nat) where
  /-- The point that the step starts from. -/
  point : Vec α n
  /-- The number of coordinates that the test of the stencil visited. -/
  visited : Nat
  /-- The points that the line search looked at; none if the descent ended before it. -/
  trials : List (Vec α n)

namespace Step

/-- The calls of the line search, with that at its start. -/
def searchCalls (s : Step α n) : List (Query α n) :=
  match s.trials with
  | [] => []
  | y :: ys => .value s.point :: (y :: ys).map .value

/-- The calls of a step at the scale `h`. -/
def calls (h : α) (s : Step α n) : List (Query α n) :=
  Stencil.gradientCalls s.point h ++ (Stencil.testCalls s.point h s.visited ++ s.searchCalls)

/-- The number of coordinates that the test did not visit. -/
def unvisited (s : Step α n) : Nat := n - s.visited

/-- What is counted for a step is more than its calls by two for each coordinate that its test did
not visit. -/
theorem cost_eq {s : Step α n} (h : α) (hvisited : s.visited ≤ n) :
    Scale.stencilCost n + s.searchCalls.length = (s.calls h).length + 2 * s.unvisited := by
  unfold calls unvisited Scale.stencilCost
  rw [List.length_append, List.length_append, Stencil.length_gradientCalls,
    Stencil.length_testCalls _ _ hvisited]
  omega

omit [Scalar α] in
/-- A line search asks for the value at its start first. -/
theorem searchCalls_of_ne_nil {s : Step α n} (htrials : s.trials ≠ []) :
    s.searchCalls = .value s.point :: s.trials.map .value := by
  unfold searchCalls
  split
  · exact absurd ‹_› htrials
  · next h => rw [h]

theorem isValue_of_mem_calls (s : Step α n) (h : α) : ∀ c ∈ s.calls h, c.isValue = true := by
  have hsearch : ∀ c ∈ s.searchCalls, c.isValue = true := by
    unfold searchCalls
    split
    · exact fun _ hc => absurd hc List.not_mem_nil
    · refine List.forall_mem_cons.mpr ⟨rfl, fun c hc => ?_⟩
      obtain ⟨y, -, rfl⟩ := List.mem_map.mp hc
      rfl
  exact List.forall_mem_append.mpr ⟨Stencil.isValue_of_mem_pairCalls _ _ _,
    List.forall_mem_append.mpr ⟨List.forall_mem_cons.mpr
      ⟨rfl, Stencil.isValue_of_mem_pairCalls _ _ _⟩, hsearch⟩⟩

end Step

/-- The number of coordinates that the tests of some steps did not visit. -/
def unvisited (steps : List (Step α n)) : Nat := (steps.map Step.unvisited).sum

namespace Scale

/-- The scale whose calls are noted. -/
def noted (s : Scale σ α n) : Scale (σ × List (Query α n)) α n :=
  { s with objective := s.objective.noted }

@[simp] theorem noted_config (s : Scale σ α n) : s.noted.config = s.config := rfl

@[simp] theorem noted_scale (s : Scale σ α n) : s.noted.scale = s.scale := rfl

/-- The steps of a descent from one point to another. -/
inductive Walk (s : Scale σ α n) : Vec α n → List (Step α n) → Vec α n → Prop
  /-- The descent ends, after a test without better neighbours or for another reason. -/
  | stop {x : Vec α n} {failed : Bool} {visited : Nat} {trials : List (Vec α n)}
      (hvisits : Stencil.Visits s.objective x s.scale failed visited)
      (htrials : failed = true → trials = []) : Walk s x [⟨x, visited, trials⟩] x
  /-- The line search finds a point, where the descent goes on. -/
  | step {x y z : Vec α n} {visited : Nat} {trials : List (Vec α n)} {steps : List (Step α n)}
      (hvisits : Stencil.Visits s.objective x s.scale false visited)
      (hlast : trials.getLast? = some y) (hrest : Walk s y steps z) :
      Walk s x (⟨x, visited, trials⟩ :: steps) z

/-- Each step was tested at its own point. -/
theorem Walk.visits {s : Scale σ α n} {x z : Vec α n} {steps : List (Step α n)}
    (h : s.Walk x steps z) :
    ∀ t ∈ steps, ∃ failed, Stencil.Visits s.objective t.point s.scale failed t.visited := by
  induction h with
  | stop hvisits => exact List.forall_mem_singleton.mpr ⟨_, hvisits⟩
  | step hvisits _ _ ih => exact List.forall_mem_cons.mpr ⟨⟨_, hvisits⟩, ih⟩

variable (s : Scale σ α n)

/-- Backtracking counts the points that it looks at, the last of which is the one that it finds. -/
theorem accounts_backtrack (x g : Vec α n) (value : α) :
    ∀ (remaining : Nat) (t : α) (used : Nat),
      (s.noted.backtrack x g value remaining t used).Accounts
        (fun r calls => ∃ trials, trials ≠ [] ∧ calls = trials.map Query.value ∧
          r.2 = used + trials.length ∧ ∀ y, r.1 = some y → trials.getLast? = some y)
        (s.backtrack x g value remaining t used) := by
  intro remaining
  -- by induction on the halvings that are left
  induction remaining with
  | zero =>
    intro t used
    rw [backtrack, backtrack]
    refine (Run.silent_liftM _).bind_accounts fun y _ => Run.accounts_noting_bind fun w _ =>
      (Run.silent_liftM _).bind_accounts fun gap _ => ?_
    rw [noted_config]
    split_ifs
    · exact Run.accounts_pure ⟨[y], List.cons_ne_nil _ _, rfl, rfl, fun _ hz => hz⟩
    · exact Run.accounts_pure ⟨[y], List.cons_ne_nil _ _, rfl, rfl, fun _ hz => by cases hz⟩
  | succ remaining ih =>
    intro t used
    rw [backtrack, backtrack]
    refine (Run.silent_liftM _).bind_accounts fun y _ => Run.accounts_noting_bind fun w _ =>
      (Run.silent_liftM _).bind_accounts fun gap _ => ?_
    rw [noted_config]
    -- the search ends with this point, or goes on from the next smaller step
    split_ifs
    · exact Run.accounts_pure ⟨[y], List.cons_ne_nil _ _, rfl, rfl, fun _ hz => hz⟩
    · refine (ih _ _).mono ?_
      rintro r later ⟨trials, -, hcalls, hused, hlast⟩
      refine ⟨y :: trials, List.cons_ne_nil _ _, by rw [hcalls, List.map_cons], ?_, fun z hz => ?_⟩
      · rw [hused, List.length_cons]
        omega
      · rw [List.getLast?_cons, hlast z hz]
        rfl

/-- A descent from `x` after `used` values, with its result and its calls. -/
def Accounted (x : Vec α n) (used : Nat) (r : Vec α n × Stop × Nat) (calls : List (Query α n)) :
    Prop :=
  ∃ steps, s.Walk x steps r.1 ∧ calls = steps.flatMap (Step.calls s.scale) ∧
    r.2.2 = used + calls.length + 2 * unvisited steps

variable {s} {x : Vec α n} {used : Nat} {visited : Nat} {trials : List (Vec α n)}
  {r : Vec α n × Stop × Nat} {calls : List (Query α n)}

theorem accounted_stop {failed : Bool} {stop : Stop}
    (hvisits : Stencil.Visits s.objective x s.scale failed visited)
    (htrials : failed = true → trials = []) :
    s.Accounted x used
      (x, stop, used + stencilCost n + (Step.searchCalls ⟨x, visited, trials⟩).length)
      (Step.calls s.scale ⟨x, visited, trials⟩) := by
  refine ⟨_, .stop hvisits htrials, (List.flatMap_singleton _ _).symm, ?_⟩
  have hcost := Step.cost_eq (s := ⟨x, visited, trials⟩) s.scale hvisits.le
  show used + stencilCost n + _ = used + _ + 2 * (Step.unvisited ⟨x, visited, trials⟩ + 0)
  omega

theorem accounted_step {y : Vec α n}
    (hvisits : Stencil.Visits s.objective x s.scale false visited)
    (hlast : trials.getLast? = some y)
    (hrest : s.Accounted y
      (used + stencilCost n + (Step.searchCalls ⟨x, visited, trials⟩).length) r calls) :
    s.Accounted x used r (Step.calls s.scale ⟨x, visited, trials⟩ ++ calls) := by
  obtain ⟨steps, hwalk, hcalls, hused⟩ := hrest
  refine ⟨_, .step hvisits hlast hwalk, by rw [hcalls, List.flatMap_cons], ?_⟩
  have hcost := Step.cost_eq (s := ⟨x, visited, trials⟩) s.scale hvisits.le
  rw [hused, List.length_append]
  show _ = used + _ + 2 * (Step.unvisited ⟨x, visited, trials⟩ + unvisited steps)
  omega

/-- A descent is accounted for, whatever ends it. -/
theorem accounts_iterate :
    ∀ (remaining : Nat) (x : Vec α n) (used : Nat),
      (s.noted.iterate remaining x used).Accounts (s.Accounted x used)
        (s.iterate remaining x used) := by
  intro remaining
  -- by induction on the steps that are left
  induction remaining with
  | zero =>
    intro x used
    rw [iterate, iterate]
    refine Stencil.accounts_bind fun g failed visited hvisits => ?_
    dsimp only
    rw [noted_config, noted_scale]
    split_ifs
    · exact Run.accounts_pure (accounted_stop hvisits fun _ => rfl)
    · refine (Run.silent_liftM _).bind_accounts fun gap _ => ?_
      split_ifs
      · exact Run.accounts_pure (accounted_stop hvisits fun _ => rfl)
      · exact Run.accounts_pure (accounted_stop hvisits fun _ => rfl)
  | succ remaining ih =>
    intro x used
    rw [iterate, iterate]
    refine Stencil.accounts_bind fun g failed visited hvisits => ?_
    dsimp only
    rw [noted_config, noted_scale]
    -- a stencil without better neighbours ends the descent before the line search
    split_ifs with hfailed
    · exact Run.accounts_pure (accounted_stop hvisits fun _ => rfl)
    refine (Run.silent_liftM _).bind_accounts fun gap _ => ?_
    split_ifs
    · exact Run.accounts_pure (accounted_stop hvisits fun _ => rfl)
    -- otherwise the line search asks for the value at its start once more
    refine Run.accounts_noting_bind fun value _ => (s.accounts_backtrack x g value _ _ _).bind ?_
    rintro ⟨found, used'⟩ calls _ ⟨trials, hne, hcalls, hused, hlast⟩
    have hsearch : Step.searchCalls ⟨x, visited, trials⟩ = .value x :: calls := by
      rw [hcalls]
      exact Step.searchCalls_of_ne_nil hne
    -- what is counted so far: the stencil, and the calls of the search
    have hcount : used' =
        used + stencilCost n + (Step.searchCalls ⟨x, visited, trials⟩).length := by
      rw [hsearch, hcalls, List.length_cons, List.length_map, ← Nat.add_assoc,
        Nat.add_right_comm (used + _)]
      exact hused
    cases found with
    | none =>
      refine Run.accounts_pure ?_
      -- the search found no point, so the descent ends here
      have hstop : s.Accounted x used
          (x, .lineSearchFailure,
            used + stencilCost n + (Step.searchCalls ⟨x, visited, trials⟩).length)
          (Step.calls s.scale ⟨x, visited, trials⟩) :=
        accounted_stop hvisits fun h => absurd h hfailed
      rwa [← hcount, Step.calls, hsearch, ← List.append_nil (Query.value x :: calls)] at hstop
    | some y =>
      -- it found `y`, where the descent goes on
      refine (ih y used').mono fun r later hrest => ?_
      rw [hcount] at hrest
      rw [Bool.not_eq_true] at hfailed
      have hstep := accounted_step (hfailed ▸ hvisits) (hlast y rfl) hrest
      rwa [Step.calls, hsearch, List.append_assoc, List.append_assoc] at hstep

/-- A descent starts from the projection of a point. -/
theorem accounts_descend (s : Scale σ α n) (x : Vec α n) :
    (s.noted.descend x).Accounts
      (fun r calls => ∃ y, s.projection.project x = .ok y ∧ s.Accounted y 0 r calls)
      (s.descend x) :=
  (Run.silent_liftM _).bind_accounts fun y hy =>
    (accounts_iterate _ y 0).mono fun _ _ h => ⟨y, Run.ok_of_yields_liftM hy, h⟩

end Scale

/-! ### Sweeps -/

/-- A descent at a scale, in a sweep. -/
structure Descent (α : Type) (n : Nat) where
  /-- The scale. -/
  scale : α
  /-- The steps. -/
  steps : List (Step α n)
  /-- The point where the descent ended. -/
  candidate : Vec α n

namespace Descent

/-- The calls of a descent, with the one for the value at its end. -/
def calls (d : Descent α n) : List (Query α n) :=
  d.steps.flatMap (Step.calls d.scale) ++ [.value d.candidate]

/-- The number of coordinates that the tests did not visit. -/
def unvisited (d : Descent α n) : Nat := ImplicitFiltering.unvisited d.steps

/-- The steps lead from the projection of a point to the end of the descent. -/
def Faithful (config : Config α) (f : Objective σ α n) (P : Projection α n)
    (d : Descent α n) : Prop :=
  ∃ x y, P.project x = .ok y ∧ (⟨config, f, P, d.scale⟩ : Scale σ α n).Walk y d.steps d.candidate

/-- All calls of a descent are for values. -/
theorem isValue_of_mem_calls (d : Descent α n) : ∀ c ∈ d.calls, c.isValue = true := by
  refine List.forall_mem_append.mpr ⟨fun c hc => ?_, List.forall_mem_singleton.mpr rfl⟩
  obtain ⟨t, -, hc⟩ := List.mem_flatMap.mp hc
  exact t.isValue_of_mem_calls _ c hc

/-- Nothing is left unvisited exactly if all tests visited all coordinates. -/
theorem Faithful.unvisited_eq_zero_iff {config : Config α} {f : Objective σ α n}
    {P : Projection α n} {d : Descent α n} (hd : d.Faithful config f P) :
    d.unvisited = 0 ↔ ∀ t ∈ d.steps, t.visited = n := by
  obtain ⟨x, y, -, hwalk⟩ := hd
  unfold unvisited ImplicitFiltering.unvisited
  -- a sum of natural numbers is zero if all of them are
  rw [List.sum_eq_zero_iff, List.forall_mem_map]
  refine forall₂_congr fun t ht => ?_
  obtain ⟨_, hvisits⟩ := hwalk.visits t ht
  have hle := hvisits.le
  unfold Step.unvisited
  omega

/-- With one variable all tests visit all coordinates. -/
theorem Faithful.visited_eq_of_le_one {config : Config α} {f : Objective σ α n}
    {P : Projection α n} {d : Descent α n} (hd : d.Faithful config f P) (hn : n ≤ 1) :
    ∀ t ∈ d.steps, t.visited = n := by
  obtain ⟨x, y, -, hwalk⟩ := hd
  intro t ht
  obtain ⟨_, hvisits⟩ := hwalk.visits t ht
  exact hvisits.eq_of_le_one hn

end Descent

variable {config : Config α} {f : Objective σ α n} {P : Projection α n} {x : Vec α n}

/-- What is known of a run from `x` after descents at the given scales, with the count of values and
with the calls so far. -/
structure Ledger (config : Config α) (f : Objective σ α n) (P : Projection α n) (x : Vec α n)
    (scales : List α) (evaluations : Nat) (calls : List (Query α n))
    (descents : List (Descent α n)) : Prop where
  /-- The calls are those of the start and of the descents. -/
  calls_eq : ∃ y, P.project x = .ok y ∧ calls = .value y :: descents.flatMap Descent.calls
  /-- There is a descent for each scale. -/
  scales_eq : descents.map Descent.scale = scales
  /-- The descents were made with the objective of the run. -/
  faithful : ∀ d ∈ descents, d.Faithful config f P
  /-- The calls are counted, and with them the coordinates that no test visited. -/
  evaluations_eq : evaluations = calls.length + 2 * (descents.map Descent.unvisited).sum

namespace Ledger

variable {scales : List α} {evaluations : Nat} {calls : List (Query α n)}
  {descents : List (Descent α n)}

theorem append (h : Ledger config f P x scales evaluations calls descents) {d : Descent α n}
    (hd : d.Faithful config f P) :
    Ledger config f P x (scales ++ [d.scale]) (evaluations + (d.calls.length + 2 * d.unvisited))
      (calls ++ d.calls) (descents ++ [d]) where
  calls_eq := by
    obtain ⟨y, hy, hcalls⟩ := h.calls_eq
    refine ⟨y, hy, ?_⟩
    rw [hcalls, List.flatMap_append, List.flatMap_singleton, List.cons_append]
  scales_eq := by
    rw [List.map_append, h.scales_eq]
    rfl
  faithful := List.forall_mem_append.mpr ⟨h.faithful, List.forall_mem_singleton.mpr hd⟩
  evaluations_eq := by
    have hsum : ((descents ++ [d]).map Descent.unvisited).sum =
        (descents.map Descent.unvisited).sum + d.unvisited := by
      rw [List.map_append, List.sum_append, List.map_singleton, List.sum_singleton]
    rw [hsum, List.length_append, h.evaluations_eq]
    omega

end Ledger

/-- A visit is a descent and the value at its end. -/
theorem accounts_visit {scales : List α} {s : State α n} {calls : List (Query α n)}
    {descents : List (Descent α n)}
    (hs : Ledger config f P x scales s.evaluations calls descents) (h : α) :
    (visit config f.noted P s h).Accounts
      (fun t later => t.sweeps = s.sweeps ∧
        ∃ d, Ledger config f P x (scales ++ [h]) t.evaluations (calls ++ later) (descents ++ [d]))
      (visit config f P s h) := by
  refine (Scale.accounts_descend ⟨config, f, P, h⟩ s.best).bind ?_
  rintro ⟨candidate, stop, used⟩ walked _ ⟨y, hy, steps, hwalk, hwalked, hused⟩
  refine Run.accounts_noting_bind fun value _ => (Run.silent_record _).bind_accounts fun _ _ => ?_
  -- the calls of the descent and of the value at its end make up what is counted
  have hd : Ledger config f P x (scales ++ [h]) (s.evaluations + (used + 1))
      (calls ++ (walked ++ [.value candidate])) (descents ++ [⟨h, steps, candidate⟩]) := by
    have happend := hs.append (d := ⟨h, steps, candidate⟩) ⟨s.best, y, hy, hwalk⟩
    have hcalls : Descent.calls ⟨h, steps, candidate⟩ = walked ++ [.value candidate] := by
      rw [hwalked]
      rfl
    have hcount : (Descent.calls ⟨h, steps, candidate⟩).length +
        2 * Descent.unvisited ⟨h, steps, candidate⟩ = used + 1 := by
      rw [hcalls, List.length_append, List.length_singleton]
      show _ + 2 * unvisited steps = _
      have hcounted : used = 0 + walked.length + 2 * unvisited steps := hused
      omega
    rwa [hcount, hcalls] at happend
  dsimp only
  split_ifs
  · exact Run.accounts_pure ⟨rfl, _, hd⟩
  · exact Run.accounts_pure ⟨rfl, _, hd⟩

/-- The scales of so many sweeps. -/
def sweptScales (config : Config α) (sweeps : Nat) : List α :=
  (List.replicate sweeps config.scales).flatten

theorem sweptScales_succ (config : Config α) (sweeps : Nat) :
    sweptScales config (sweeps + 1) = sweptScales config sweeps ++ config.scales := by
  unfold sweptScales
  rw [List.replicate_succ', List.flatten_append, List.flatten_singleton]

/-- The calls up to a stage in the sweep after the given number of them, where the scales in `past`
have been visited. -/
def Swept (config : Config α) (f : Objective σ α n) (P : Projection α n) (x : Vec α n)
    (sweeps : Nat) (past : List α) (s : State α n) (calls : List (Query α n)) : Prop :=
  s.sweeps = sweeps + 1 ∧ ∃ descents,
    Ledger config f P x (sweptScales config sweeps ++ past) s.evaluations calls descents

/-- The calls up to a stage between two sweeps. -/
def Settled (config : Config α) (f : Objective σ α n) (P : Projection α n) (x : Vec α n)
    (s : State α n) (calls : List (Query α n)) : Prop :=
  ∃ descents, Ledger config f P x (sweptScales config s.sweeps) s.evaluations calls descents

theorem accounts_sweep {s : State α n} {calls : List (Query α n)}
    (hs : Settled config f P x s calls) :
    (sweep config f.noted P s).Accounts (fun t later => Settled config f P x t (calls ++ later))
      (sweep config f P s) := by
  -- the invariant of the scales of one sweep
  have hvisit : ∀ past t before h, Swept config f P x s.sweeps past t before →
      (visit config f.noted P t h).Accounts
        (fun u later => Swept config f P x s.sweeps (past ++ [h]) u (before ++ later))
        (visit config f P t h) := by
    rintro past t before h ⟨hsweeps, descents, ht⟩
    refine (accounts_visit ht h).mono ?_
    rintro u later ⟨hu, d, hd⟩
    rw [List.append_assoc] at hd
    exact ⟨hu.trans hsweeps, _, hd⟩
  -- at its start a sweep has visited no scale
  have hfirst : Swept config f P x s.sweeps [] { s with sweeps := s.sweeps + 1 } calls := by
    obtain ⟨descents, hs⟩ := hs
    exact ⟨rfl, descents, by rwa [List.append_nil]⟩
  refine (Run.accounts_foldlM hvisit config.scales hfirst).bind ?_
  rintro t later - ⟨hsweeps, descents, ht⟩
  refine (Run.silent_record _).bind_accounts fun _ _ => Run.accounts_pure ⟨descents, ?_⟩
  rw [List.append_nil]
  show Ledger config f P x (sweptScales config t.sweeps) t.evaluations _ descents
  rwa [hsweeps, sweptScales_succ]

/-! ### Runs -/

theorem accounts_start (config : Config α) (f : Objective σ α n) (P : Projection α n)
    (x : Vec α n) : (start f.noted P x).Accounts (Settled config f P x) (start f P x) := by
  refine (Run.silent_liftM _).bind_accounts fun y hy => Run.accounts_noting_bind fun value _ =>
    Run.accounts_pure ⟨[], ?_⟩
  exact
    { calls_eq := ⟨y, Run.ok_of_yields_liftM hy, rfl⟩
      scales_eq := rfl
      faithful := fun _ hd => absurd hd List.not_mem_nil
      evaluations_eq := rfl }

/-- What an outcome says about the descents of its run from `x`, and about the calls with which it
was made. -/
structure Accounted (config : Config α) (f : Objective σ α n) (P : Projection α n) (x : Vec α n)
    (o : Outcome α n) (calls : List (Query α n)) (descents : List (Descent α n)) : Prop where
  /-- The calls are those of the start, of the descents and of a simplex gradient at the end. -/
  calls_eq : ∃ y, P.project x = .ok y ∧ calls = .value y :: descents.flatMap Descent.calls ++
    Stencil.gradientCalls o.point (finest config)
  /-- There is a descent for each scale in each sweep. -/
  scales_eq : descents.map Descent.scale = sweptScales config o.iterations
  /-- The descents were made with the objective of the run. -/
  faithful : ∀ d ∈ descents, d.Faithful config f P
  /-- The values are reported, and two more for each coordinate that a test did not visit. -/
  evaluations_eq : o.valueEvaluations =
    (Tally.of calls).values + 2 * (descents.map Descent.unvisited).sum
  /-- No gradients are reported, and there were none. -/
  gradients_eq : o.gradientEvaluations = 0 ∧ ∀ c ∈ calls, c.isValue = true

/-- After the last sweep a simplex gradient is left. -/
theorem Ledger.accounted {s : State α n} {calls : List (Query α n)} {descents : List (Descent α n)}
    (h : Ledger config f P x (sweptScales config s.sweeps) s.evaluations calls descents)
    (stationarity : α) :
    Accounted config f P x (s.outcome stationarity)
      (calls ++ Stencil.gradientCalls s.best (finest config)) descents := by
  obtain ⟨⟨y, hy, hcalls⟩, hscales, hfaithful, hevaluations⟩ := h
  have hvalues : ∀ c ∈ calls ++ Stencil.gradientCalls s.best (finest config),
      c.isValue = true := by
    rw [hcalls]
    refine List.forall_mem_append.mpr ⟨List.forall_mem_cons.mpr ⟨rfl, fun c hc => ?_⟩,
      Stencil.isValue_of_mem_pairCalls _ _ _⟩
    obtain ⟨d, -, hc⟩ := List.mem_flatMap.mp hc
    exact d.isValue_of_mem_calls c hc
  refine ⟨⟨y, hy, by rw [hcalls]; rfl⟩, hscales, hfaithful, ?_, rfl, hvalues⟩
  show s.evaluations + 2 * n = List.countP _ _ + _
  rw [List.countP_eq_length.mpr hvalues, List.length_append, Stencil.length_gradientCalls,
    hevaluations]
  omega

/-- The report is exact if all tests visited all coordinates. -/
theorem Accounted.valueEvaluations_eq_iff {o : Outcome α n} {calls : List (Query α n)}
    {descents : List (Descent α n)} (h : Accounted config f P x o calls descents) :
    o.valueEvaluations = (Tally.of calls).values ↔
      ∀ d ∈ descents, ∀ t ∈ d.steps, t.visited = n := by
  have hsum : o.valueEvaluations = (Tally.of calls).values ↔
      (descents.map Descent.unvisited).sum = 0 := by
    rw [h.evaluations_eq]
    omega
  rw [hsum, List.sum_eq_zero_iff, List.forall_mem_map]
  exact forall₂_congr fun d hd => (h.faithful d hd).unvisited_eq_zero_iff

/-- **Counts of implicit filtering**: over every arithmetic, whatever the objective, the projection,
the settings and the start. The calls of a run are those of its start, of a descent for each scale
in each sweep and of a last simplex gradient. What is reported as the number of values exceeds them
by two for each coordinate that a test of a stencil did not visit. So it is exact if every test
visits all coordinates and only then; with one variable it always is. -/
theorem evaluations_exceed_calls (config : Config α) (f : Objective σ α n) (P : Projection α n)
    (x : Vec α n) :
    (minimize config f.noted P x).Accounts
      (fun o calls => ∃ descents, Accounted config f P x o calls descents ∧
        (o.valueEvaluations = (Tally.of calls).values ↔
          ∀ d ∈ descents, ∀ t ∈ d.steps, t.visited = n) ∧
        (n ≤ 1 → o.valueEvaluations = (Tally.of calls).values))
      (minimize config f P x) := by
  rw [minimize_eq_run, minimize_eq_run]
  have hstart : (routine config f.noted P x).start.Accounts
      (fun t calls => Settled config f P x t.1 calls) (routine config f P x).start := by
    refine (Run.silent_liftM _).bind_accounts fun _ _ => (Run.silent_record _).bind_accounts
      fun _ _ => (accounts_start config f P x).bind fun s calls _ hs => Run.accounts_pure ?_
    rwa [List.append_nil]
  refine hstart.bind fun s calls _ hs => ?_
  -- a step of the loop is a sweep
  have hstep : ∀ (t : State α n × Bool) before, Settled config f P x t.1 before →
      (loop config f P).continues t →
      ((loop config f.noted P).step t).Accounts
        (fun u later => Settled config f P x u.1 (before ++ later)) ((loop config f P).step t) := by
    intro t before ht _
    refine (accounts_sweep ht).bind fun u later _ hu => Run.accounts_pure ?_
    rwa [List.append_nil]
  have hloop : ((loop config f.noted P).run config.maxSweeps config.maxSweeps s).Accounts
      (fun t later => ¬ (loop config f P).continues t ∧ Settled config f P x t.1 (calls ++ later))
      ((loop config f P).run config.maxSweeps config.maxSweeps s) :=
    Loop.accounts_run (fun _ => Iff.rfl) (fun _ => rfl) hstep config.maxSweeps hs
  refine hloop.bind ?_
  -- the projected gradient at the end makes the last calls
  rintro ⟨last, _⟩ later - ⟨-, descents, hlast⟩
  refine (Stencil.accounts_simplexGradient f last.best (finest config)).bind
    fun g final _ hfinal => (Run.silent_liftM _).bind_accounts fun gap _ =>
      (Run.silent_record _).bind_accounts fun _ _ => Run.accounts_pure ?_
  have haccounted := hlast.accounted gap.norm
  rw [hfinal, List.append_nil, ← List.append_assoc]
  exact ⟨descents, haccounted, haccounted.valueEvaluations_eq_iff, fun hn =>
    haccounted.valueEvaluations_eq_iff.mpr fun d hd =>
      (haccounted.faithful d hd).visited_eq_of_le_one hn⟩

/-! ### A run in double precision -/

/-- The function `½ ‖x‖²` of two variables. -/
def doubleBowl : Objective Unit Float 2 := (Quadratic.simple 2).objective 2

/-- The square of the points whose coordinates are at most two. -/
def doubleSquare : Projection Float 2 := Box.projection (⟨#v[-2, -2], #v[2, 2]⟩ : Box Float 2) 2

/-- The scale one. -/
def unitScale : Config Float := { scales := [1] }

/-- From `(1, 0)` the first test ends at its first coordinate, where the origin is a better
neighbour: a run that asks for 34 values reports 36. -/
theorem evaluations_exceed_calls_bowl :
    ∃ o calls descents,
      ((minimize unitScale doubleBowl.noted doubleSquare #v[1, 0]).start ((), [])).1 = .ok o ∧
      ((minimize unitScale doubleBowl.noted doubleSquare #v[1, 0]).start ((), [])).2.memory.2 =
        calls ∧
      Accounted unitScale doubleBowl doubleSquare #v[1, 0] o calls descents ∧
      o.valueEvaluations = 36 ∧ (Tally.of calls).values = 34 ∧
      (descents.map Descent.unvisited).sum = 1 := by
  obtain ⟨calls, houtcome, hmemory, hcalls⟩ :=
    (evaluations_exceed_calls unitScale doubleBowl doubleSquare #v[1, 0]).exists_calls ()
  -- both numbers by evaluation; the equation of the report gives the rest
  have hcount : (Tally.of ((minimize unitScale doubleBowl.noted doubleSquare #v[1, 0]).start
      ((), [])).2.memory.2).values = 34 := by decide +kernel
  have hreport : ((minimize unitScale doubleBowl doubleSquare #v[1, 0]).start ()).1.toOption.map
      Outcome.valueEvaluations = some 36 := by decide +kernel
  cases hrun : ((minimize unitScale doubleBowl doubleSquare #v[1, 0]).start ()).1 with
  | error e =>
    rw [hrun] at hreport
    cases hreport
  | ok o =>
    rw [hrun] at hreport houtcome
    rw [hmemory] at hcount
    obtain ⟨descents, haccounted, -, -⟩ := hcalls o hrun
    have hevaluations := haccounted.evaluations_eq
    rw [Option.some.inj hreport, hcount] at hevaluations
    exact ⟨o, calls, descents, houtcome, congrArg Prod.snd hmemory, haccounted,
      Option.some.inj hreport, hcount, by omega⟩

end ImplicitFiltering

end Downhill
