import PagedKernel.Fault
import PagedKernel.Log.Event

/-! Operations on a state that report events and may fault. State and events
survive a fault, so that what was done before it can still be seen. A call is
an operation that may also be refused with an error of its own. -/

namespace PagedKernel

/-- A state with the events reported so far. -/
structure Traced (σ : Type) where
  state : σ
  events : Array Event

/-- Runs on a state, reports events, may fault. -/
abbrev Op (σ α : Type) := EStateM Fault (Traced σ) α

/-- An operation that may be refused with an error. -/
abbrev Call (ε σ α : Type) := ExceptT ε (Op σ) α

/-- A part of a state, with the way to put a new value in its place. -/
structure Focus (σ τ : Type) where
  split : σ → τ × (τ → σ)

namespace Op

variable {σ τ α : Type}

def record (e : Event) : Op σ Unit := fun ⟨s, events⟩ =>
  .ok () ⟨s, events.push e⟩

def fault (f : Fault) : Op σ α := fun t => .error f t

def read (f : σ → α) : Op σ α := fun ⟨s, events⟩ =>
  .ok (f s) ⟨s, events⟩

def inspect (f : σ → Except Fault α) : Op σ α := fun ⟨s, events⟩ =>
  match f s with
  | .ok a => .ok a ⟨s, events⟩
  | .error e => .error e ⟨s, events⟩

def update (f : σ → α × σ) : Op σ α := fun ⟨s, events⟩ =>
  match f s with
  | (a, s) => .ok a ⟨s, events⟩

def modify (f : σ → σ) : Op σ Unit := fun ⟨s, events⟩ =>
  .ok () ⟨f s, events⟩

def ofExcept : Except Fault α → Op σ α
  | .ok a => fun t => .ok a t
  | .error e => fun t => .error e t

instance : MonadLift (Except Fault) (Op σ) := ⟨ofExcept⟩

def zoom (part : Focus σ τ) (x : Op τ α) : Op σ α := fun ⟨s, events⟩ =>
  match part.split s with
  | (t, back) =>
    match x ⟨t, events⟩ with
    | .ok a ⟨t, events⟩ => .ok a ⟨back t, events⟩
    | .error e ⟨t, events⟩ => .error e ⟨back t, events⟩

end Op

namespace Call

variable {ε σ τ α : Type}

def record (e : Event) : Call ε σ Unit :=
  ExceptT.lift (Op.record e)

def zoom (part : Focus σ τ) (x : Call ε τ α) : Call ε σ α :=
  ExceptT.mk (Op.zoom part x.run)

def zoomOp (part : Focus σ τ) (x : Op τ α) : Call ε σ α :=
  ExceptT.lift (Op.zoom part x)

def report (event : ε → Event) (x : Call ε σ α) : Call ε σ α :=
  tryCatch x fun e => do
    Call.record (event e)
    throw e

end Call
end PagedKernel
