import Downhill.Failure

/-!
# Runs

A routine of this library is an action of `Run σ α`: it may fail with a `Failure α`, it records
progress events in a journal, and it carries a memory of type `σ` for the objectives that have one
(a noisy objective keeps its position in a random stream there). A failing run keeps the journal
and the memory it had.

`Run.report` records the progress of a routine: its flag `verbose` only chooses the level.
-/

namespace Downhill

/-! ### Events -/

/-- How important an event is. -/
inductive Level where
  /-- Progress that was asked for. -/
  | info
  /-- Progress. -/
  | debug
  /-- A single step. -/
  | trace
deriving DecidableEq, Repr

/-- A value that an event carries. -/
inductive Datum (α : Type) where
  /-- A count. -/
  | count (n : Nat)
  /-- A scalar. -/
  | number (x : α)
  /-- A name. -/
  | name (s : String)
deriving DecidableEq, Repr

/-- An event in the journal of a run. -/
structure Event (α : Type) where
  /-- The level. -/
  level : Level
  /-- What happened. -/
  message : String
  /-- Named values. -/
  fields : List (String × Datum α)
deriving DecidableEq, Repr

/-! ### Runs -/

/-- What a run carries along. -/
structure Session (σ α : Type) where
  /-- The memory of the objectives. -/
  memory : σ
  /-- The events so far, in order. -/
  journal : Array (Event α)

/-- Actions that may fail, record events and use a memory. -/
abbrev Run (σ α : Type) := ExceptT (Failure α) (StateM (Session σ α))

/-- A computation without events and memory is an action. -/
instance {σ α : Type} : MonadLift (Except (Failure α)) (Run σ α) where
  monadLift result := ExceptT.mk (pure result)

namespace Run

variable {σ α β : Type}

/-- The outcome of an action, and the session after it. -/
def start (action : Run σ α β) (memory : σ) : Except (Failure α) β × Session σ α :=
  (ExceptT.run action).run ⟨memory, #[]⟩

/-- The outcome of an action as a value; the action that gives it does not fail. -/
def observe (action : Run σ α β) : Run σ α (Except (Failure α) β) :=
  ExceptT.lift (ExceptT.run action)

/-- Appends an event to the journal. -/
def record (event : Event α) : Run σ α Unit :=
  modify fun s => { s with journal := s.journal.push event }

/-- Records progress, at level `info` if `verbose` is set and at level `debug` otherwise. -/
def report (verbose : Bool) (message : String) (fields : List (String × Datum α)) : Run σ α Unit :=
  record ⟨if verbose then .info else .debug, message, fields⟩

/-- Records a single step. -/
def trace (message : String) (fields : List (String × Datum α)) : Run σ α Unit :=
  record ⟨.trace, message, fields⟩

/-- Draws from the memory. -/
def draw (f : σ → β × σ) : Run σ α β :=
  modifyGet fun s => let (x, memory) := f s.memory; (x, { s with memory })

end Run

end Downhill
