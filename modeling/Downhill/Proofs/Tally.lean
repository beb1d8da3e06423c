import Downhill.Proofs.Calls
import Downhill.Search.Params

/-!
# Tallies and calls

The searches and descents keep a tally of the values and gradients that they ask for, next to the
calls themselves. `Tally.of calls` is what a tally has to be.

`noted.Tallies tally before action` says that the action with notes does what the action without
them does, and that the tally of a result is `before` together with that of the calls on the way.
There is a lemma for each way an action is built, so that a routine is gone through once from its
start to its end, with `before` as the tally that it should have reached. A routine that starts from
no evaluations can follow any others (`Tallies.after`).
-/

namespace Downhill

variable {σ α β γ S : Type} {n : Nat}

/-! ### Calls -/

/-- The call is one for a value. -/
def Query.isValue : Query α n → Bool
  | .value _ => true
  | .gradient _ | .hessian _ | .hessianProduct _ _ => false

/-- The call is one for a gradient. -/
def Query.isGradient : Query α n → Bool
  | .gradient _ => true
  | .value _ | .hessian _ | .hessianProduct _ _ => false

namespace Tally

/-- The values and the gradients among the calls. -/
def of (calls : List (Query α n)) : Tally where
  values := calls.countP Query.isValue
  gradients := calls.countP Query.isGradient

/-- Tallies are equal when both counts are. -/
theorem eq_iff {s t : Tally} : s = t ↔ s.values = t.values ∧ s.gradients = t.gradients := by
  cases s
  cases t
  rw [Tally.mk.injEq]

theorem add_none (t : Tally) : t + none = t := rfl

theorem none_add (t : Tally) : none + t = t := eq_iff.mpr ⟨Nat.zero_add _, Nat.zero_add _⟩

theorem add_assoc (r s t : Tally) : r + s + t = r + (s + t) :=
  eq_iff.mpr ⟨Nat.add_assoc .., Nat.add_assoc ..⟩

/-- A value may be counted on either side of a sum. -/
theorem value_add (s t : Tally) : s.value + t = s + t.value :=
  eq_iff.mpr ⟨Nat.succ_add_eq_add_succ .., rfl⟩

/-- A gradient may be counted on either side of a sum. -/
theorem gradient_add (s t : Tally) : s.gradient + t = s + t.gradient :=
  eq_iff.mpr ⟨rfl, Nat.succ_add_eq_add_succ ..⟩

variable (x v : Vec α n) (calls later : List (Query α n))

/-- The tally of a log is the sum over its parts. -/
theorem of_append : of (calls ++ later) = of calls + of later :=
  eq_iff.mpr ⟨List.countP_append, List.countP_append⟩

theorem of_value_cons : of (.value x :: calls) = (of calls).value := by
  simp [of, value, List.countP_cons, Query.isValue, Query.isGradient]

theorem of_gradient_cons : of (.gradient x :: calls) = (of calls).gradient := by
  simp [of, gradient, List.countP_cons, Query.isValue, Query.isGradient]

theorem of_hessian_cons : of (.hessian x :: calls) = of calls := by
  simp [of, Query.isValue, Query.isGradient]

/-- Products with the Hessian are not counted. -/
theorem of_hessianProduct_cons : of (.hessianProduct x v :: calls) = of calls := by
  simp [of, Query.isValue, Query.isGradient]

end Tally

/-! ### Runs -/

namespace Run

/-- The action with notes does what `action` does, and the tally of its result is `before` together
with that of its calls. -/
def Tallies (noted : Run (σ × List (Query α n)) α β) (tally : β → Tally) (before : Tally)
    (action : Run σ α β) : Prop :=
  noted.Accounts (fun b calls => tally b = before + .of calls) action

variable {tally : β → Tally} {total : γ → Tally} {before : Tally}
  {a' : Run (σ × List (Query α n)) α β} {a : Run σ α β} {f' : β → Run (σ × List (Query α n)) α γ}
  {f : β → Run σ α γ}

/-- A result without calls reports what was counted before. -/
theorem tallies_pure {b : β} (h : tally b = before) :
    (pure b : Run (σ × List (Query α n)) α β).Tallies tally before (pure b) :=
  accounts_pure h

theorem tallies_throw (e : Failure α) :
    (throw e : Run (σ × List (Query α n)) α β).Tallies tally before (throw e) :=
  accounts_throw e

/-- What follows a failure is of no interest. -/
theorem tallies_throw_bind (e : Failure α) :
    (throw e >>= f').Tallies total before (throw e >>= f) :=
  (accounts_throw (Q := fun _ _ => False) e).bind fun _ _ _ h => h.elim

/-- What follows an action goes on from its tally. -/
theorem Tallies.bind (ha : a'.Tallies tally before a)
    (hf : ∀ b, (f' b).Tallies total (tally b) (f b)) :
    (a' >>= f').Tallies total before (a >>= f) := by
  refine Accounts.bind ha fun b calls _ hb => (hf b).mono fun c later hc => ?_
  -- the calls of both parts are counted one after the other
  rw [hc, hb, Tally.add_assoc, Tally.of_append]

/-- What follows an action without calls. -/
theorem Silent.bind_tallies (ha : a'.Silent a) (hf : ∀ b, (f' b).Tallies total before (f b)) :
    (a' >>= f').Tallies total before (a >>= f) :=
  ha.bind_accounts fun b _ => hf b

/-- An action that starts from no evaluations, after some others. -/
theorem Tallies.after (ha : a'.Tallies tally .none a) (before : Tally) :
    a'.Tallies (fun b => before + tally b) before a := by
  refine Accounts.mono ha fun b calls hb => ?_
  show before + tally b = _
  rw [hb, Tally.none_add]

/-- An action that starts from no evaluations reports its own calls. -/
theorem Tallies.accounts (ha : a'.Tallies tally .none a) :
    a'.Accounts (fun b calls => tally b = .of calls) a := by
  refine Accounts.mono ha fun b calls hb => ?_
  rw [hb, Tally.none_add]

/-- The log of a run that is known to report a tally. -/
theorem Accounts.of_memory_start {memory : σ} {t : Tally}
    (ha : a'.Accounts (fun b calls => tally b = .of calls) a)
    (hrun : (a.start memory).1.toOption.map tally = some t) :
    Tally.of (a'.start (memory, [])).2.memory.2 = t := by
  obtain ⟨calls, -, hmemory, hcalls⟩ := ha.exists_calls memory
  rw [hmemory]
  -- a run that reports a tally has not failed
  cases hr : (a.start memory).1 with
  | error e =>
    rw [hr] at hrun
    cases hrun
  | ok b =>
    rw [hr] at hrun
    rw [← hcalls b hr]
    exact Option.some.inj hrun

end Run

/-! ### Calls of an objective -/

namespace Objective

variable [Scalar α] (f : Objective σ α n) {x v : Vec α n} {tally : γ → Tally} {before : Tally}

/-- After a value is called, one more is counted. -/
theorem tallies_value_bind {g' : α → Run (σ × List (Query α n)) α γ} {g : α → Run σ α γ}
    (hg : ∀ t, (g' t).Tallies tally before.value (g t)) :
    (f.noted.value x >>= g').Tallies tally before (f.value x >>= g) := by
  refine Run.accounts_noting_bind fun t _ => (hg t).mono fun c calls hc => ?_
  rw [hc, Tally.value_add, Tally.of_value_cons]

/-- After a gradient is called, one more is counted. -/
theorem tallies_gradient_bind {g' : Vec α n → Run (σ × List (Query α n)) α γ}
    {g : Vec α n → Run σ α γ} (hg : ∀ t, (g' t).Tallies tally before.gradient (g t)) :
    (f.noted.gradient x >>= g').Tallies tally before (f.gradient x >>= g) := by
  refine Run.accounts_noting_bind fun t _ => (hg t).mono fun c calls hc => ?_
  rw [hc, Tally.gradient_add, Tally.of_gradient_cons]

theorem tallies_hessian_bind {g' : AnyMat α → Run (σ × List (Query α n)) α γ}
    {g : AnyMat α → Run σ α γ} (hg : ∀ t, (g' t).Tallies tally before (g t)) :
    (f.noted.hessian x >>= g').Tallies tally before (f.hessian x >>= g) := by
  refine Run.accounts_noting_bind fun t _ => (hg t).mono fun c calls hc => ?_
  rw [hc, Tally.of_hessian_cons]

theorem tallies_hessianProduct_bind {g' : Vec α n → Run (σ × List (Query α n)) α γ}
    {g : Vec α n → Run σ α γ} (hg : ∀ t, (g' t).Tallies tally before (g t)) :
    (f.noted.hessianProduct x v >>= g').Tallies tally before (f.hessianProduct x v >>= g) := by
  refine Run.accounts_noting_bind fun t _ => (hg t).mono fun c calls hc => ?_
  rw [hc, Tally.of_hessianProduct_cons]

end Objective

/-! ### Loops -/

/-- A loop whose steps keep the tally of a stage. -/
theorem Loop.tallies_run {L' : Loop (σ × List (Query α n)) α S} {L : Loop σ α S}
    {tally : S → Tally} {cap : Nat} (hgo : ∀ s, L'.continues s ↔ L.continues s)
    (hexhausted : ∀ s, L'.exhausted cap s = L.exhausted cap s)
    (hstep : ∀ s, (L'.step s).Tallies tally (tally s) (L.step s)) (remaining : Nat) (s : S) :
    (L'.run cap remaining s).Tallies tally (tally s) (L.run cap remaining s) := by
  -- a stage reports what was counted before the loop and the calls since
  have hkeeps : ∀ t calls, tally t = tally s + .of calls → L.continues t →
      (L'.step t).Accounts (fun u later => tally u = tally s + .of (calls ++ later))
        (L.step t) := by
    intro t calls ht _
    refine (hstep t).mono fun u later hu => ?_
    rw [hu, ht, Tally.add_assoc, Tally.of_append]
  have hnothing : tally s = tally s + .of ([] : List (Query α n)) := (Tally.add_none _).symm
  exact (Loop.accounts_run hgo hexhausted hkeeps remaining hnothing).mono fun _ _ ht => ht.2

/-- A routine whose loop keeps the tally of a stage. -/
theorem Routine.tallies_run {R' : Routine (σ × List (Query α n)) α S β} {R : Routine σ α S β}
    {T : S → Tally} {total : β → Tally} {cap : Nat}
    (hgo : ∀ s, R'.loop.continues s ↔ R.loop.continues s)
    (hexhausted : ∀ s, R'.loop.exhausted cap s = R.loop.exhausted cap s)
    (hstart : R'.start.Tallies T .none R.start)
    (hstep : ∀ s, (R'.loop.step s).Tallies T (T s) (R.loop.step s))
    (hfinish : ∀ s, (R'.finish s).Tallies total (T s) (R.finish s)) :
    (R'.run cap).Tallies total .none (R.run cap) :=
  hstart.bind fun s => (Loop.tallies_run hgo hexhausted hstep cap s).bind hfinish

end Downhill
