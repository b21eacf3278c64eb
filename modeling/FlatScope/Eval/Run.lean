import FlatScope.Eval.Error

/-!
# Runs

A `Process` takes a state over to another one and yields a result, or is interrupted, or is not
finished within the steps it was given. A `Run` is a piece of a running program, whose state is the
store. An interruption passes through everything up to the loop or the call that it is for. It also
passes out of a function: a `break` outside of any loop of its function ends the loop around the
call.
-/

namespace FlatScope

/-- What ends a piece of a program before its end. -/
inductive Interrupt where
  | failed (e : RunError)
  | returned (value : Value)
  | broke
  | continued
  deriving DecidableEq, Repr

/-- How a piece of a program ends, over the states `σ`. -/
inductive Outcome (σ α : Type) where
  | done (result : α) (state : σ)
  | interrupted (why : Interrupt) (state : σ)
  /-- It is not finished within the given steps. -/
  | outOfFuel

/-- A piece of a running program that changes a state of type `σ`. -/
def Process (σ α : Type) := σ → Outcome σ α

namespace Process

variable {σ α β : Type}

protected def pure (a : α) : Process σ α := fun s => .done a s

protected def bind (m : Process σ α) (f : α → Process σ β) : Process σ β := fun s =>
  match m s with
  | .done a s => f a s
  | .interrupted w s => .interrupted w s
  | .outOfFuel => .outOfFuel

instance : Monad (Process σ) where
  pure := Process.pure
  bind := Process.bind

/-- Not finished. -/
def outOfFuel : Process σ α := fun _ => .outOfFuel

/-- Stops by an interruption. -/
def interrupt (w : Interrupt) : Process σ α := fun s => .interrupted w s

/-- Stops by an error. -/
def fail (e : RunError) : Process σ α := interrupt (.failed e)

/-- The result of a computation that reads the state, or its error. -/
def read (f : σ → Except RunError α) : Process σ α := fun s =>
  match f s with
  | .ok a => .done a s
  | .error e => .interrupted (.failed e) s

/-- Changes the state at the place that is found in it, or stops by the error of there being
    none. -/
def changeAt {ι : Type} (place : σ → Except RunError ι) (f : ι → σ → σ) : Process σ Unit := fun s =>
  match place s with
  | .ok i => .done () (f i s)
  | .error e => .interrupted (.failed e) s

/-- Makes something in the state. -/
def make (f : σ → α × σ) : Process σ α := fun s =>
  let (a, s) := f s
  .done a s

end Process

/-- A piece of a running program. -/
abbrev Run := Process Store

end FlatScope
