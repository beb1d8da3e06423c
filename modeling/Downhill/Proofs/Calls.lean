import Downhill.Objective.Basic
import Downhill.Proofs.Loop
import Downhill.Residual.LeastSquares
import Downhill.Solve.ConjugateGradient
import Mathlib.Tactic.SplitIfs

/-!
# Noted calls

Which points a run looks at, and how often, is a question about the calls that it makes. To answer
it the memory of the run gets a log beside it, and the functions that are called note their calls
there (`Objective.noted`). What such a function does on its own, such as the differences by which a
missing gradient is approximated, is part of the call.

`noted.Mirrors action Q` says that the action with notes does what the action without them does,
whatever the session, and that `Q` holds of the outcome and of the calls that were noted on the way.
Three ways to choose `Q` are common, and each has a lemma for each way an action is built:

* `noted.Keeps p G action`: all calls satisfy `p`, whatever the outcome, and results satisfy `G`.
* `noted.Accounts Q action`: a result and the calls that led to it satisfy `Q`.
* `noted.Silent action`: there are no calls. A linear solve, which works on its matrix alone, is of
  this kind (`ConjugateGradient.silent_solveWith`).
-/

namespace Downhill

variable {σ κ α β γ S : Type}

/-- The session with a log beside its memory. -/
def Session.beside (s : Session σ α) (log : List κ) : Session (σ × List κ) α :=
  ⟨(s.memory, log), s.journal⟩

namespace Run

/-- The action on a memory with a log beside it, to which it notes a call before it starts. -/
def noting (call : κ) (action : Run σ α β) : Run (σ × List κ) α β :=
  ExceptT.mk fun s =>
    let (outcome, t) := action.exec ⟨s.memory.1, s.journal⟩
    (outcome, t.beside (s.memory.2 ++ [call]))

/-- The action with notes does what `action` does, and `Q` holds of its outcome and of its calls. -/
def Mirrors (noted : Run (σ × List κ) α β) (Q : Except (Failure α) β → List κ → Prop)
    (action : Run σ α β) : Prop :=
  ∀ s log, ∃ calls, noted.exec (s.beside log) =
      ((action.exec s).1, (action.exec s).2.beside (log ++ calls)) ∧ Q (action.exec s).1 calls

variable {Q : Except (Failure α) β → List κ → Prop}

/-- Nothing is noted where nothing is called. -/
theorem mirrors_pure {b : β} (h : Q (.ok b) []) :
    (pure b : Run (σ × List κ) α β).Mirrors Q (pure b) :=
  fun _ _ => ⟨[], by rw [List.append_nil]; rfl, h⟩

theorem mirrors_throw {e : Failure α} (h : Q (.error e) []) :
    (throw e : Run (σ × List κ) α β).Mirrors Q (throw e) :=
  fun _ _ => ⟨[], by rw [List.append_nil]; rfl, h⟩

theorem mirrors_liftM {r : Except (Failure α) β} (h : Q r []) :
    (liftM r : Run (σ × List κ) α β).Mirrors Q (liftM r) :=
  fun _ _ => ⟨[], by rw [List.append_nil]; rfl, h⟩

theorem mirrors_record {Q : Except (Failure α) Unit → List κ → Prop} {event : Event α}
    (h : Q (.ok ()) []) : (record event : Run (σ × List κ) α Unit).Mirrors Q (record event) :=
  fun _ _ => ⟨[], by rw [List.append_nil]; rfl, h⟩

/-- The call is noted whatever its outcome is. -/
theorem mirrors_noting {call : κ} {action : Run σ α β} (h : ∀ r, Q r [call]) :
    (noting call action).Mirrors Q action :=
  fun _ _ => ⟨[call], rfl, h _⟩

/-- What follows an action adds its calls to those that were noted before. -/
theorem Mirrors.bind {R : Except (Failure α) γ → List κ → Prop} {a' : Run (σ × List κ) α β}
    {a : Run σ α β} {f' : β → Run (σ × List κ) α γ} {f : β → Run σ α γ} (ha : a'.Mirrors Q a)
    (hf : ∀ b calls, a.Yields b → Q (.ok b) calls →
      (f' b).Mirrors (fun r later => R r (calls ++ later)) (f b))
    (he : ∀ e calls, Q (.error e) calls → R (.error e) calls) :
    (a' >>= f').Mirrors R (a >>= f) := by
  intro s log
  obtain ⟨calls, hexec, hQ⟩ := ha s log
  rw [exec_bind, exec_bind]
  -- a failure of the first part ends both runs, with the calls so far
  rcases hr : a.exec s with ⟨e | b, t⟩
  · rw [hr] at hexec hQ
    rw [hexec]
    exact ⟨calls, rfl, he e calls hQ⟩
  · rw [hr] at hexec hQ
    rw [hexec]
    obtain ⟨later, hlater, hR⟩ := hf b calls ⟨s, t, hr⟩ hQ t (log ++ calls)
    refine ⟨calls ++ later, ?_, hR⟩
    rw [← List.append_assoc]
    exact hlater

/-- What holds of outcomes and calls may be weakened. -/
theorem Mirrors.mono {R : Except (Failure α) β → List κ → Prop} {a' : Run (σ × List κ) α β}
    {a : Run σ α β} (h : a'.Mirrors Q a) (hQ : ∀ r calls, Q r calls → R r calls) :
    a'.Mirrors R a := by
  intro s log
  obtain ⟨calls, hexec, hcalls⟩ := h s log
  exact ⟨calls, hexec, hQ _ _ hcalls⟩

/-- A run with notes has the outcome of the one without them. -/
theorem Mirrors.exists_calls {noted : Run (σ × List κ) α β} {action : Run σ α β}
    (h : noted.Mirrors Q action) (memory : σ) :
    ∃ calls, (noted.start (memory, [])).1 = (action.start memory).1 ∧
      (noted.start (memory, [])).2.memory = ((action.start memory).2.memory, calls) ∧
      Q (action.start memory).1 calls := by
  obtain ⟨calls, hexec, hQ⟩ := h ⟨memory, #[]⟩ []
  exact ⟨calls, congrArg Prod.fst hexec, congrArg (fun o => o.2.memory) hexec, hQ⟩

/-! ### All calls -/

/-- The action with notes does what `action` does; its calls satisfy `p`, and its results `G`. -/
def Keeps (noted : Run (σ × List κ) α β) (p : κ → Prop) (G : β → Prop) (action : Run σ α β) :
    Prop :=
  noted.Mirrors (fun r calls => (∀ c ∈ calls, p c) ∧ ∀ b, r = .ok b → G b) action

section Keeps

variable {p q : κ → Prop} {G G' : β → Prop}

theorem keeps_pure {b : β} (h : G b) : (pure b : Run (σ × List κ) α β).Keeps p G (pure b) :=
  mirrors_pure ⟨fun _ hc => absurd hc List.not_mem_nil, fun _ hb => Except.ok.inj hb ▸ h⟩

theorem keeps_throw (e : Failure α) : (throw e : Run (σ × List κ) α β).Keeps p G (throw e) :=
  mirrors_throw ⟨fun _ hc => absurd hc List.not_mem_nil, fun _ hb => by cases hb⟩

theorem keeps_liftM {r : Except (Failure α) β} (h : ∀ b, r = .ok b → G b) :
    (liftM r : Run (σ × List κ) α β).Keeps p G (liftM r) :=
  mirrors_liftM ⟨fun _ hc => absurd hc List.not_mem_nil, h⟩

/-- A check, whose result is of no interest. -/
theorem keeps_check (r : Except (Failure α) β) :
    (liftM r : Run (σ × List κ) α β).Keeps p (fun _ => True) (liftM r) :=
  keeps_liftM fun _ _ => trivial

theorem keeps_record (event : Event α) :
    (record event : Run (σ × List κ) α Unit).Keeps p (fun _ => True) (record event) :=
  mirrors_record ⟨fun _ hc => absurd hc List.not_mem_nil, fun _ _ => trivial⟩

/-- A single call has to satisfy the predicate itself. -/
theorem keeps_noting {call : κ} (h : p call) (action : Run σ α β) :
    (noting call action).Keeps p (fun _ => True) action :=
  mirrors_noting fun _ => ⟨fun _ hc => List.mem_singleton.mp hc ▸ h, fun _ _ => trivial⟩

/-- The second part only has to keep `p` on results that satisfy `G`. -/
theorem Keeps.bind {G' : γ → Prop} {a' : Run (σ × List κ) α β} {a : Run σ α β}
    {f' : β → Run (σ × List κ) α γ} {f : β → Run σ α γ} (ha : a'.Keeps p G a)
    (hf : ∀ b, G b → (f' b).Keeps p G' (f b)) : (a' >>= f').Keeps p G' (a >>= f) := by
  refine Mirrors.bind ha (fun b calls _ hb => ?_) fun e calls hcalls =>
    ⟨hcalls.1, fun _ h => by cases h⟩
  refine (hf b (hb.2 b rfl)).mono fun r later hlater => ⟨fun c hc => ?_, hlater.2⟩
  exact (List.mem_append.mp hc).elim (hb.1 c) (hlater.1 c)

/-- What follows a failure is of no interest. -/
theorem keeps_throw_bind {G' : γ → Prop} (e : Failure α) (f' : β → Run (σ × List κ) α γ)
    (f : β → Run σ α γ) : (throw e >>= f').Keeps p G' (throw e >>= f) :=
  (keeps_throw (G := fun _ => False) e).bind fun _ h => h.elim

theorem Keeps.mono {a' : Run (σ × List κ) α β} {a : Run σ α β} (h : a'.Keeps p G a)
    (hp : ∀ c, p c → q c) (hG : ∀ b, G b → G' b) : a'.Keeps q G' a :=
  Mirrors.mono h fun _ _ hcalls =>
    ⟨fun c hc => hp c (hcalls.1 c hc), fun b hb => hG b (hcalls.2 b hb)⟩

end Keeps

/-! ### No calls -/

/-- The action with notes does what `action` does, and there are no calls. -/
def Silent (noted : Run (σ × List κ) α β) (action : Run σ α β) : Prop :=
  noted.Mirrors (fun _ calls => calls = []) action

theorem silent_pure (b : β) : (pure b : Run (σ × List κ) α β).Silent (pure b) := mirrors_pure rfl

theorem silent_throw (e : Failure α) : (throw e : Run (σ × List κ) α β).Silent (throw e) :=
  mirrors_throw rfl

theorem silent_liftM (r : Except (Failure α) β) :
    (liftM r : Run (σ × List κ) α β).Silent (liftM r) := mirrors_liftM rfl

theorem silent_record (event : Event α) :
    (record event : Run (σ × List κ) α Unit).Silent (record event) := mirrors_record rfl

/-- Actions without calls compose to one. -/
theorem Silent.bind {a' : Run (σ × List κ) α β} {a : Run σ α β} {f' : β → Run (σ × List κ) α γ}
    {f : β → Run σ α γ} (ha : a'.Silent a) (hf : ∀ b, (f' b).Silent (f b)) :
    (a' >>= f').Silent (a >>= f) := by
  refine Mirrors.bind ha (fun b calls _ hcalls => ?_) fun _ _ => id
  rw [hcalls]
  exact hf b

/-! ### The calls that lead to a result -/

/-- The action with notes does what `action` does, and a result and its calls satisfy `Q`. -/
def Accounts (noted : Run (σ × List κ) α β) (Q : β → List κ → Prop) (action : Run σ α β) : Prop :=
  noted.Mirrors (fun r calls => ∀ b, r = .ok b → Q b calls) action

section Accounts

variable {Q : β → List κ → Prop} {R : γ → List κ → Prop} {a' : Run (σ × List κ) α β}
  {a : Run σ α β} {f' : β → Run (σ × List κ) α γ} {f : β → Run σ α γ}

theorem accounts_pure {b : β} (h : Q b []) : (pure b : Run (σ × List κ) α β).Accounts Q (pure b) :=
  mirrors_pure fun _ hb => Except.ok.inj hb ▸ h

theorem accounts_throw (e : Failure α) : (throw e : Run (σ × List κ) α β).Accounts Q (throw e) :=
  mirrors_throw fun _ hb => by cases hb

/-- The calls of the first part stand before those of the second. -/
theorem Accounts.bind (ha : a'.Accounts Q a)
    (hf : ∀ b calls, a.Yields b → Q b calls →
      (f' b).Accounts (fun c later => R c (calls ++ later)) (f b)) :
    (a' >>= f').Accounts R (a >>= f) :=
  Mirrors.bind ha (fun b calls hb hcalls => hf b calls hb (hcalls b rfl)) fun _ _ _ _ h => by
    cases h

/-- What follows an action without calls. -/
theorem Silent.bind_accounts (ha : a'.Silent a)
    (hf : ∀ b, a.Yields b → (f' b).Accounts R (f b)) : (a' >>= f').Accounts R (a >>= f) := by
  refine Mirrors.bind ha (fun b calls hb hcalls => ?_) fun _ _ _ _ h => by cases h
  rw [hcalls]
  exact hf b hb

theorem accounts_noting_bind {call : κ}
    (hf : ∀ b, a.Yields b → (f' b).Accounts (fun c later => R c (call :: later)) (f b)) :
    (noting call a >>= f').Accounts R (a >>= f) := by
  have hcall : (noting call a).Mirrors (fun _ calls => calls = [call]) a :=
    mirrors_noting fun _ => rfl
  refine hcall.bind (fun b calls hb hcalls => ?_) fun _ _ _ _ h => by cases h
  rw [hcalls]
  exact hf b hb

/-- What holds of a result and its calls may be weakened. -/
theorem Accounts.mono {R : β → List κ → Prop} (h : a'.Accounts Q a)
    (hQ : ∀ b calls, Q b calls → R b calls) : a'.Accounts R a :=
  Mirrors.mono h fun _ _ hcalls b hb => hQ b _ (hcalls b hb)

/-- A fold, with what holds of its stages after the elements so far and of their calls. -/
theorem accounts_foldlM {I : List γ → β → List κ → Prop} {f' : β → γ → Run (σ × List κ) α β}
    {f : β → γ → Run σ α β}
    (hf : ∀ past b calls c, I past b calls →
      (f' b c).Accounts (fun next later => I (past ++ [c]) next (calls ++ later)) (f b c)) :
    ∀ (cs : List γ) {past : List γ} {b : β} {calls : List κ}, I past b calls →
      (cs.foldlM f' b).Accounts (fun last later => I (past ++ cs) last (calls ++ later))
        (cs.foldlM f b) := by
  -- on the elements that are left; those that are done stand in `past`
  intro cs
  induction cs with
  | nil =>
    intro past b calls hb
    refine accounts_pure ?_
    rwa [List.append_nil, List.append_nil]
  | cons c cs ih =>
    intro past b calls hb
    rw [List.foldlM_cons, List.foldlM_cons]
    refine (hf past b calls c hb).bind fun next later _ hnext =>
      (ih hnext).mono fun last latest h => ?_
    rwa [List.append_assoc, List.append_assoc] at h

/-- A table whose entries make known calls. -/
theorem accounts_tabulateM :
    ∀ {n : Nat} {entry' : Fin n → Run (σ × List κ) α β} {entry : Fin n → Run σ α β}
      {c : Fin n → List κ}, (∀ i, (entry' i).Accounts (fun _ calls => calls = c i) (entry i)) →
      (Vec.tabulateM n entry').Accounts (fun _ calls => calls = (List.finRange n).flatMap c)
        (Vec.tabulateM n entry) := by
  intro n
  induction n with
  | zero => exact fun _ => accounts_pure rfl
  | succ n ih =>
    intro entry' entry c h
    -- the last entry is computed after all others
    refine (ih fun i => h i.castSucc).bind fun _ calls _ hcalls => (h (Fin.last n)).bind
      fun _ later _ hlater => accounts_pure ?_
    rw [hcalls, hlater, List.finRange_succ_last, List.append_nil, List.flatMap_append,
      List.flatMap_map, List.flatMap_singleton]

end Accounts

end Run

/-! ### Loops -/

/-- A loop with notes whose steps mirror those of one without. -/
theorem Loop.keeps_run {L' : Loop (σ × List κ) α S} {L : Loop σ α S} {p : κ → Prop}
    {G : S → Prop} {cap : Nat} (hgo : ∀ s, L'.continues s ↔ L.continues s)
    (hexhausted : ∀ s, L'.exhausted cap s = L.exhausted cap s)
    (hstep : ∀ s, G s → (L'.step s).Keeps p G (L.step s)) :
    ∀ (remaining : Nat) {s : S}, G s →
      (L'.run cap remaining s).Keeps p G (L.run cap remaining s) := by
  -- on the steps that remain; both loops test the same stages
  intro remaining
  induction remaining with
  | zero =>
    intro s hs
    by_cases h : L.continues s
    · rw [run_zero_of_continues h, run_zero_of_continues ((hgo s).mpr h), hexhausted]
      exact Run.keeps_throw _
    · rw [run_of_not_continues h, run_of_not_continues (mt (hgo s).mp h)]
      exact Run.keeps_pure hs
  | succ remaining ih =>
    intro s hs
    by_cases h : L.continues s
    · rw [run_succ_of_continues h, run_succ_of_continues ((hgo s).mpr h)]
      exact (hstep s hs).bind fun _ => ih
    · rw [run_of_not_continues h, run_of_not_continues (mt (hgo s).mp h)]
      exact Run.keeps_pure hs

/-- The same, with what holds of a stage and of the calls that led to it. -/
theorem Loop.accounts_run {L' : Loop (σ × List κ) α S} {L : Loop σ α S} {I : S → List κ → Prop}
    {cap : Nat} (hgo : ∀ s, L'.continues s ↔ L.continues s)
    (hexhausted : ∀ s, L'.exhausted cap s = L.exhausted cap s)
    (hstep : ∀ s calls, I s calls → L.continues s →
      (L'.step s).Accounts (fun t later => I t (calls ++ later)) (L.step s)) :
    ∀ (remaining : Nat) {s : S} {calls : List κ}, I s calls →
      (L'.run cap remaining s).Accounts
        (fun t later => ¬ L.continues t ∧ I t (calls ++ later)) (L.run cap remaining s) := by
  intro remaining
  induction remaining with
  | zero =>
    intro s calls hs
    by_cases h : L.continues s
    · rw [run_zero_of_continues h, run_zero_of_continues ((hgo s).mpr h), hexhausted]
      exact Run.accounts_throw _
    · rw [run_of_not_continues h, run_of_not_continues (mt (hgo s).mp h)]
      exact Run.accounts_pure ⟨h, by rwa [List.append_nil]⟩
  | succ remaining ih =>
    intro s calls hs
    by_cases h : L.continues s
    · rw [run_succ_of_continues h, run_succ_of_continues ((hgo s).mpr h)]
      refine (hstep s calls hs h).bind fun t later _ ht => ?_
      -- the calls of the step and of the rest follow those that led to the stage
      refine (ih ht).mono fun u latest hu => ?_
      rwa [← List.append_assoc]
    · rw [run_of_not_continues h, run_of_not_continues (mt (hgo s).mp h)]
      exact Run.accounts_pure ⟨h, by rwa [List.append_nil]⟩

/-! ### Objectives -/

/-- A call of a function of an objective. -/
inductive Query (α : Type) (n : Nat) where
  /-- The value at a point. -/
  | value (x : Vec α n)
  /-- The gradient at a point. -/
  | gradient (x : Vec α n)
  /-- The Hessian at a point. -/
  | hessian (x : Vec α n)
  /-- The product of the Hessian at a point and a vector. -/
  | hessianProduct (x v : Vec α n)

/-- The point at which a function is called. -/
def Query.point {n : Nat} : Query α n → Vec α n
  | .value x => x
  | .gradient x => x
  | .hessian x => x
  | .hessianProduct x _ => x

namespace Objective

variable [Scalar α] {n : Nat} (f : Objective σ α n)

/-- The objective that notes its calls. -/
def noted : Objective (σ × List (Query α n)) α n where
  value x := Run.noting (.value x) (f.value x)
  gradient x := Run.noting (.gradient x) (f.gradient x)
  hessian x := Run.noting (.hessian x) (f.hessian x)
  hessianProduct x v := Run.noting (.hessianProduct x v) (f.hessianProduct x v)

variable {p : Query α n → Prop} {x : Vec α n}

theorem keeps_value (h : p (.value x)) :
    (f.noted.value x).Keeps p (fun _ => True) (f.value x) := Run.keeps_noting h _

theorem keeps_gradient (h : p (.gradient x)) :
    (f.noted.gradient x).Keeps p (fun _ => True) (f.gradient x) := Run.keeps_noting h _

theorem keeps_hessianProduct {v : Vec α n} (h : p (.hessianProduct x v)) :
    (f.noted.hessianProduct x v).Keeps p (fun _ => True) (f.hessianProduct x v) :=
  Run.keeps_noting h _

end Objective

/-! ### Residual models -/

/-- A call of a function of a residual model. -/
inductive ModelQuery (α : Type) (m : Nat) where
  /-- The residuals at a point. -/
  | residual (p : Vec α m)
  /-- The Jacobian at a point. -/
  | jacobian (p : Vec α m)

/-- The call is one for residuals. -/
def ModelQuery.isResidual {m : Nat} : ModelQuery α m → Bool
  | .residual _ => true
  | .jacobian _ => false

/-- The model that notes its calls. -/
def ResidualModel.noted {m : Nat} (model : ResidualModel σ α m) :
    ResidualModel (σ × List (ModelQuery α m)) α m where
  residual p := Run.noting (.residual p) (model.residual p)
  jacobian p := Run.noting (.jacobian p) (model.jacobian p)

/-! ### Linear solves -/

variable [Scalar α] {n r c : Nat}

namespace ConjugateGradient

namespace Problem

variable {p : Problem α n}

/-- The residual is recomputed from the matrix. -/
theorem silent_settle (s : State α n) :
    (p.settle s : Run (σ × List κ) α _).Silent (p.settle s) := by
  unfold settle
  dsimp only
  split_ifs
  · exact Run.silent_pure _
  · exact (Run.silent_record _).bind fun _ => (Run.silent_liftM _).bind fun _ => Run.silent_pure _
  · exact Run.silent_pure _

theorem silent_step (s : State α n) : (p.step s : Run (σ × List κ) α _).Silent (p.step s) := by
  unfold step
  dsimp only
  split_ifs
  · exact (Run.silent_throw _).bind fun _ => (Run.silent_liftM _).bind fun _ =>
      (Run.silent_record _).bind fun _ => Run.silent_pure _
  · exact (Run.silent_liftM _).bind fun _ => (Run.silent_record _).bind fun _ => Run.silent_pure _

/-- The iteration of conjugate gradients calls nothing. -/
theorem silent_iterate (cap : Nat) :
    ∀ (remaining : Nat) (s : State α n),
      (p.iterate cap remaining s : Run (σ × List κ) α _).Silent (p.iterate cap remaining s) := by
  intro remaining
  induction remaining with
  | zero =>
    intro s
    rw [iterate, iterate]
    refine (silent_settle s).bind fun outcome => ?_
    -- a state that is not settled may still go on
    cases outcome with
    | inl residual => exact Run.silent_pure _
    | inr s => exact Run.silent_throw _
  | succ remaining ih =>
    intro s
    rw [iterate, iterate]
    refine (silent_settle s).bind fun outcome => ?_
    cases outcome with
    | inl residual => exact Run.silent_pure _
    | inr s => exact (silent_step s).bind fun _ => ih _

theorem silent_run (cap : Nat) : (p.run cap : Run (σ × List κ) α _).Silent (p.run cap) :=
  (Run.silent_liftM _).bind fun _ => (Run.silent_liftM _).bind fun _ => silent_iterate cap _ _

end Problem

/-- A preconditioned solve calls nothing. -/
theorem silent_solveWith (config : Config α) (A : Mat α r c) (b : Vec α n)
    (M : Preconditioner α n) :
    (solveWith config A b M : Run (σ × List κ) α _).Silent (solveWith config A b M) := by
  refine (Run.silent_liftM _).bind fun _ => (Run.silent_liftM _).bind fun _ =>
    (Run.silent_record _).bind fun _ => (Problem.silent_run _).bind fun _ => ?_
  dsimp only
  split_ifs
  · exact (Run.silent_throw _).bind fun _ => (Run.silent_record _).bind fun _ => Run.silent_pure _
  · exact (Run.silent_record _).bind fun _ => Run.silent_pure _

end ConjugateGradient

/-- The attempts at a factor call nothing. -/
theorem IncompleteCholesky.silent_attempt (A : Mat α n n) (increment : α) :
    ∀ (remaining failed : Nat) (shift : α),
      (attempt A increment remaining failed shift : Run (σ × List κ) α _).Silent
        (attempt A increment remaining failed shift) := by
  intro remaining
  induction remaining with
  | zero =>
    intro failed shift
    exact Run.silent_throw _
  | succ remaining ih =>
    intro failed shift
    rw [attempt, attempt]
    split
    · split_ifs
      · exact (Run.silent_record _).bind fun _ => Run.silent_pure _
      · exact Run.silent_pure _
    · exact ih _ _

theorem IncompleteCholesky.silent_factorize (A : Mat α r c) (increment : α) :
    (factorize A increment : Run (σ × List κ) α _).Silent (factorize A increment) := by
  refine (Run.silent_liftM _).bind fun _ => ?_
  split_ifs
  · exact silent_attempt _ _ _ _ _
  · exact Run.silent_throw _

/-- A solve with its own preconditioner calls nothing. -/
theorem ConjugateGradient.silent_solve (config : Config α) (A : Mat α r c) (b : Vec α n) :
    (solve config A b : Run (σ × List κ) α _).Silent (solve config A b) :=
  (Run.silent_liftM _).bind fun _ => (Run.silent_liftM _).bind fun _ =>
    (IncompleteCholesky.silent_factorize _ _).bind fun _ => silent_solveWith _ _ _ _

end Downhill
