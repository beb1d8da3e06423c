import Downhill.Objective.Basic
import Downhill.Proofs.Loop
import Downhill.Residual.LeastSquares
import Mathlib.Data.List.Forall2

/-!
# Journals of two runs

Each routine that reports its progress has a flag for the level of these events. What the flag
changes is a question about two runs, one with the flag set and one with the flag unset.

`Run.Relates R a a'` says that the actions `a` and `a'` have the same outcome, leave the same memory
and append events that `R` relates one by one, whatever the journal that they find. It has one lemma
for each way an action is built. Two choices of `R` matter:

* `Run.Relevels own Q a a'`: the events are the same up to the level of the reports of the routine
  `own`, which is `info` in the first action and `debug` in the second.
* `a.Writes Q`: the action appends events that satisfy `Q`, and does nothing else with the journal.
  This is asked of objectives and models, whose events may have any message.

The flags of all routines, in both runs, enter through `Reporter.Flags own r v v'`: those of `own`
differ, and those of any other routine agree.
-/

namespace Downhill

variable {σ α β γ S : Type}

/-! ### Reporters -/

/-- The routines that report progress under a flag. -/
inductive Reporter where
  /-- The linear solver. -/
  | solver
  /-- The Wolfe-Powell line search. -/
  | wolfePowell
  /-- The projected backtracking line search. -/
  | backtracking
  /-- Newton descent. -/
  | newton
  /-- Quasi-Newton descent. -/
  | quasiNewton
  /-- Levenberg-Marquardt descent. -/
  | levenbergMarquardt
  /-- Projected inexact Newton descent. -/
  | projectedNewton
  /-- Implicit filtering. -/
  | implicitFiltering
deriving DecidableEq

namespace Reporter

/-- The messages of the reports of a routine. -/
def messages : Reporter → List String
  | solver => ["start PCG solver", "PCG solver terminated"]
  | wolfePowell => ["start Wolfe-Powell search", "Wolfe-Powell search terminated"]
  | backtracking =>
    ["start projected backtracking search", "projected backtracking search terminated"]
  | newton => ["start Newton descent", "Newton descent terminated"]
  | quasiNewton =>
    ["start BFGS descent", "reset BFGS matrix: no descent direction",
      "reset BFGS matrix: yᵀs is not positive", "BFGS descent terminated"]
  | levenbergMarquardt =>
    ["start Levenberg-Marquardt descent", "Levenberg-Marquardt descent terminated"]
  | projectedNewton => ["start projected Newton-CG", "projected Newton-CG terminated"]
  | implicitFiltering =>
    ["start implicit filtering", "implicit filtering sweep", "implicit filtering terminated"]

theorem notMem_messages {r own : Reporter} (h : r ≠ own) : ∀ m ∈ r.messages, m ∉ own.messages := by
  cases r <;> cases own <;> first | exact absurd rfl h | decide

/-- The flags of the routine `r` in two runs: set and unset if it is the routine `own`, and
otherwise the same. -/
def Flags (own r : Reporter) (v v' : Bool) : Prop :=
  if r = own then v = true ∧ v' = false else v = v'

/-- A routine is looked at with its flag set and with it unset. -/
theorem flags_self (own : Reporter) : own.Flags own true false := by
  rw [Flags, if_pos rfl]
  exact ⟨rfl, rfl⟩

/-- Another routine has the same flag in both runs. -/
theorem flags_of_ne {own r : Reporter} (h : r ≠ own) (v : Bool) : own.Flags r v v := by
  rw [Flags, if_neg h]

end Reporter

/-! ### Events of two runs -/

/-- An event of a run with the flag of `own` set, and the one in its place in a run with the flag
unset. -/
inductive Event.Relevelled (own : Reporter) (Q : Event α → Prop) : Event α → Event α → Prop
  /-- A report of `own` has another level. -/
  | report {message : String} {fields : List (String × Datum α)} (h : message ∈ own.messages) :
    Relevelled own Q ⟨.info, message, fields⟩ ⟨.debug, message, fields⟩
  /-- Any other event is the same. -/
  | same {e : Event α} (h : e.message ∉ own.messages ∨ Q e) : Relevelled own Q e e

namespace Run

/-! ### Actions with related events -/

/-- The actions have the same outcome, leave the same memory and append events that `R` relates,
whatever the journal that they find. -/
def Relates (R : Event α → Event α → Prop) (a a' : Run σ α β) : Prop :=
  ∀ memory, ∃ outcome memory' events events', List.Forall₂ R events events' ∧
    ∀ journal, a.exec ⟨memory, journal⟩ = (outcome, ⟨memory', journal ++ events⟩) ∧
      a'.exec ⟨memory, journal⟩ = (outcome, ⟨memory', journal ++ events'⟩)

section Relates

variable {R R' : Event α → Event α → Prop} {a a' : Run σ α β} {f f' : β → Run σ α γ}

/-- The relation of the events may be weakened. -/
theorem Relates.mono (h : Relates R a a') (hR : ∀ e e', R e e' → R' e e') : Relates R' a a' := by
  intro memory
  obtain ⟨outcome, memory', events, events', hevents, hexec⟩ := h memory
  exact ⟨outcome, memory', events, events', hevents.imp hR, hexec⟩

theorem relates_of_exec (h : ∀ memory, ∃ outcome memory', ∀ journal,
    a.exec ⟨memory, journal⟩ = (outcome, ⟨memory', journal⟩)) : Relates R a a := by
  intro memory
  obtain ⟨outcome, memory', hexec⟩ := h memory
  exact ⟨outcome, memory', [], [], .nil, fun journal => by simp [hexec]⟩

theorem relates_pure (b : β) : Relates R (pure b : Run σ α β) (pure b) :=
  relates_of_exec fun _ => ⟨_, _, fun _ => rfl⟩

theorem relates_throw (e : Failure α) : Relates R (throw e : Run σ α β) (throw e) :=
  relates_of_exec fun _ => ⟨_, _, fun _ => rfl⟩

theorem relates_liftM (r : Except (Failure α) β) : Relates R (liftM r : Run σ α β) (liftM r) :=
  relates_of_exec fun _ => ⟨_, _, fun _ => rfl⟩

theorem relates_draw (g : σ → β × σ) : Relates R (draw g : Run σ α β) (draw g) :=
  relates_of_exec fun memory => ⟨.ok (g memory).1, (g memory).2, fun _ => rfl⟩

/-- Two events in the same place have to be related. -/
theorem relates_record {e e' : Event α} (h : R e e') :
    Relates R (record e : Run σ α Unit) (record e') :=
  fun memory => ⟨.ok (), memory, [e], [e'], .cons h .nil, fun journal => ⟨by simp, by simp⟩⟩

/-- Related actions that go on to related ones are related as sequences. -/
theorem Relates.bind (ha : Relates R a a') (hf : ∀ b, Relates R (f b) (f' b)) :
    Relates R (a >>= f) (a' >>= f') := by
  intro memory
  obtain ⟨outcome, memory', events, events', hevents, hexec⟩ := ha memory
  cases outcome with
  -- the failure is the same in both runs, so neither of them goes on
  | error e =>
    refine ⟨.error e, memory', events, events', hevents, fun journal => ?_⟩
    rw [exec_bind, exec_bind, (hexec journal).1, (hexec journal).2]
    exact ⟨rfl, rfl⟩
  | ok b =>
    obtain ⟨outcome, memory'', later, later', hlater, hexec'⟩ := hf b memory'
    refine ⟨outcome, memory'', events ++ later, events' ++ later', List.rel_append hevents hlater,
      fun journal => ?_⟩
    -- the events of the second part follow those of the first
    have happend : ∀ first second : List (Event α),
        journal ++ first ++ second = journal ++ (first ++ second) := fun first second =>
      Array.ext' (by simp)
    rw [exec_bind, exec_bind, (hexec journal).1, (hexec journal).2, ← happend, ← happend]
    exact ⟨(hexec' _).1, (hexec' _).2⟩

/-- An observed failure is a result, and the same in both runs. -/
theorem relates_observe (h : Relates R a a') : Relates R (observe a) (observe a') := by
  intro memory
  obtain ⟨outcome, memory', events, events', hevents, hexec⟩ := h memory
  refine ⟨.ok outcome, memory', events, events', hevents, fun journal => ?_⟩
  have hobserve : ∀ (b : Run σ α β) (s : Session σ α),
      (observe b).exec s = (.ok (b.exec s).1, (b.exec s).2) := fun _ _ => rfl
  rw [hobserve, hobserve, (hexec journal).1, (hexec journal).2]
  exact ⟨rfl, rfl⟩

theorem Relates.ite {p p' : Prop} {_ : Decidable p} {_ : Decidable p'} {b b' : Run σ α β}
    (hp : p ↔ p') (ha : Relates R a a') (hb : Relates R b b') :
    Relates R (if p then a else b) (if p' then a' else b') := by
  by_cases h : p
  · rwa [if_pos h, if_pos (hp.mp h)]
  · rwa [if_neg h, if_neg (mt hp.mpr h)]

/-- Both actions fail if a test holds, and go on otherwise. -/
theorem Relates.guard {p p' : Prop} {_ : Decidable p} {_ : Decidable p'} {e : Failure α}
    {f f' : Unit → Run σ α β} (hp : p ↔ p') (h : Relates R (f ()) (f' ())) :
    Relates R (if p then throw e >>= f else f ()) (if p' then throw e >>= f' else f' ()) :=
  .ite hp ((relates_throw e).bind fun _ => h) h

theorem relates_foldlM {f f' : β → γ → Run σ α β} (hf : ∀ b c, Relates R (f b c) (f' b c)) :
    ∀ (cs : List γ) (b : β), Relates R (cs.foldlM f b) (cs.foldlM f' b) := by
  -- on the list, for every accumulator
  intro cs
  induction cs with
  | nil => exact relates_pure
  | cons c cs ih =>
    intro b
    rw [List.foldlM_cons, List.foldlM_cons]
    exact (hf b c).bind ih

/-- Tests of a list are related if the tests of its elements are; both stop at the same one. -/
theorem relates_allM {f f' : γ → Run σ α Bool} (hf : ∀ c, Relates R (f c) (f' c)) :
    ∀ cs : List γ, Relates R (cs.allM f) (cs.allM f') := by
  intro cs
  induction cs with
  | nil => exact relates_pure true
  | cons c cs ih =>
    rw [List.allM, List.allM]
    refine (hf c).bind fun holds => ?_
    cases holds with
    | true => exact ih
    | false => exact relates_pure false

theorem relates_tabulateM : ∀ {n : Nat} {f f' : Fin n → Run σ α β},
    (∀ i, Relates R (f i) (f' i)) → Relates R (Vec.tabulateM n f) (Vec.tabulateM n f') := by
  intro n
  induction n with
  | zero => exact fun _ => relates_pure _
  | succ n ih =>
    intro f f' hf
    exact (ih fun i => hf _).bind fun _ => (hf _).bind fun _ => relates_pure _

end Relates

/-! ### What the flag of a routine changes -/

variable {own r : Reporter} {Q : Event α → Prop} {v v' : Bool}

/-- The actions do the same, up to the level of the reports of `own`. -/
abbrev Relevels (own : Reporter) (Q : Event α → Prop) (a a' : Run σ α β) : Prop :=
  Relates (Event.Relevelled own Q) a a'

/-- The action appends events that satisfy `Q`, and what it does does not depend on the journal that
it finds. -/
abbrev Writes (Q : Event α → Prop) (a : Run σ α β) : Prop :=
  Relates (fun e e' => e = e' ∧ Q e) a a

/-- An action that does not know a flag does the same under both. -/
theorem Writes.relevels {a : Run σ α β} (h : a.Writes Q) : Relevels own Q a a :=
  Relates.mono h fun _ _ ⟨heq, he⟩ => heq ▸ .same (.inr he)

theorem relevels_record {level : Level} {message : String} {fields : List (String × Datum α)}
    (h : message ∉ own.messages) :
    Relevels own Q (record ⟨level, message, fields⟩ : Run σ α Unit)
      (record ⟨level, message, fields⟩) :=
  relates_record (.same (.inl h))

/-- A report of a routine, under the flags of that routine. -/
theorem relevels_report (h : own.Flags r v v') {message : String} (hm : message ∈ r.messages)
    (fields : List (String × Datum α)) :
    Relevels own Q (report v message fields : Run σ α Unit) (report v' message fields) := by
  unfold Reporter.Flags at h
  split_ifs at h with hr
  · obtain ⟨rfl, rfl⟩ := h
    exact relates_record (.report (hr ▸ hm))
  -- another routine reports at one level, and with messages that are not those of `own`
  · cases h
    exact relevels_record (Reporter.notMem_messages hr message hm)

/-- Setting the flag of `own` changes the level of the reports of `own` and nothing else. -/
def FlagSetsLevel (own : Reporter) (Q : Event α → Prop) (action : Bool → Run σ α β) : Prop :=
  Relevels own Q (action true) (action false)

end Run

/-! ### Loops -/

/-- Loops whose steps append related events, where the tests and the failures agree. -/
theorem Loop.relates_run {R : Event α → Event α → Prop} {L L' : Loop σ α S} {cap : Nat}
    (hgo : ∀ s, L.continues s ↔ L'.continues s)
    (hexhausted : ∀ s, L.exhausted cap s = L'.exhausted cap s)
    (hstep : ∀ s, Run.Relates R (L.step s) (L'.step s)) :
    ∀ (remaining : Nat) (s : S),
      Run.Relates R (L.run cap remaining s) (L'.run cap remaining s) := by
  intro remaining
  induction remaining with
  | zero =>
    intro s
    rw [run, run, hexhausted]
    exact .ite (hgo s) (Run.relates_throw _) (Run.relates_pure s)
  | succ remaining ih =>
    intro s
    rw [run, run]
    exact .ite (hgo s) ((hstep s).bind ih) (Run.relates_pure s)

/-- The parts of a routine are related one by one. -/
theorem Routine.relates_run {R : Event α → Event α → Prop} {A A' : Routine σ α S β} {cap : Nat}
    (hstart : Run.Relates R A.start A'.start)
    (hgo : ∀ s, A.loop.continues s ↔ A'.loop.continues s)
    (hexhausted : ∀ s, A.loop.exhausted cap s = A'.loop.exhausted cap s)
    (hstep : ∀ s, Run.Relates R (A.loop.step s) (A'.loop.step s))
    (hfinish : ∀ s, Run.Relates R (A.finish s) (A'.finish s)) :
    Run.Relates R (A.run cap) (A'.run cap) :=
  hstart.bind fun s => (Loop.relates_run hgo hexhausted hstep cap s).bind hfinish

/-! ### Objectives and models -/

/-- The evaluations of the objective append events that satisfy `Q`, and do nothing else with the
journal. -/
structure Objective.Writes [Scalar α] {n : Nat} (Q : Event α → Prop) (f : Objective σ α n) :
    Prop where
  value : ∀ x, (f.value x).Writes Q
  gradient : ∀ x, (f.gradient x).Writes Q
  hessian : ∀ x, (f.hessian x).Writes Q
  hessianProduct : ∀ x v, (f.hessianProduct x v).Writes Q

/-- The evaluations of the model append events that satisfy `Q`, and do nothing else with the
journal. -/
structure ResidualModel.Writes {m : Nat} (Q : Event α → Prop) (model : ResidualModel σ α m) :
    Prop where
  residual : ∀ p, (model.residual p).Writes Q
  jacobian : ∀ p, (model.jacobian p).Writes Q

end Downhill
