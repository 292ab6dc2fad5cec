import Uniprocessor.Failure

/-!
# Attempts

An operation on a state that may be refused leaves a state behind either way: what was done before
the refusal stays done.  `Attempt` is such an outcome, and `andThen` goes on only after a success.
-/

namespace Uniprocessor

/-- The outcome of an operation, and the state it leaves behind. -/
structure Attempt (σ α : Type) where
  result : Except Failure α
  state : σ

namespace Attempt

variable {σ τ α β : Type}

/-- A success. -/
def done (a : α) (s : σ) : Attempt σ α :=
  ⟨.ok a, s⟩

/-- A refusal. -/
def refused (e : Failure) (s : σ) : Attempt σ α :=
  ⟨.error e, s⟩

/-- Goes on with the result of a success, in the state it left. -/
def andThen (x : Attempt σ α) (f : α → σ → Attempt σ β) : Attempt σ β :=
  match x.result with
  | .ok a => f a x.state
  | .error e => refused e x.state

/-- The same outcome with the state put into a larger one. -/
def within (x : Attempt σ α) (g : σ → τ) : Attempt τ α :=
  ⟨x.result, g x.state⟩

@[simp] theorem andThen_done (a : α) (s : σ) (f : α → σ → Attempt σ β) :
    (done a s).andThen f = f a s := rfl

@[simp] theorem andThen_refused (e : Failure) (s : σ) (f : α → σ → Attempt σ β) :
    (refused e s : Attempt σ α).andThen f = refused e s := rfl

@[simp] theorem within_done (a : α) (s : σ) (g : σ → τ) :
    (done a s).within g = done a (g s) := rfl

@[simp] theorem within_refused (e : Failure) (s : σ) (g : σ → τ) :
    (refused e s : Attempt σ α).within g = refused e (g s) := rfl

end Attempt

end Uniprocessor
