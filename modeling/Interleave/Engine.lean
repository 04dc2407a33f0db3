import Interleave.Config
import Interleave.Fault
import Interleave.Log

/-! # Engines

An engine performs one execution of a program under a scheduler, which it holds meanwhile.  A call
of an engine can be broken off, by a fault or because it ran out of fuel; the engine then stays as
it was left. -/

namespace Interleave

/-- How a call of an engine was broken off. -/
inductive Break where
  | fault (f : Fault)
  /-- The fuel given to the call did not suffice. -/
  | outOfFuel
deriving DecidableEq, Repr, Inhabited

/-- A call of an engine with states of type `ε`: it changes the state and gives a value or is broken
off. -/
abbrev Call (ε α : Type) := ExceptT Break (StateM ε) α

/-- The states of type `ε` are those of an engine that runs under schedulers of type `σ`. -/
class Engine (ε : Type) (σ : outParam Type) where
  /-- Execute the program to its end, to an error, or to where the scheduler ends the execution;
  tells whether there was an error. -/
  run : Call ε Bool
  /-- Find out whether the execution can be explained under sequential consistency; tells whether
  there was a violation. -/
  checkRobustness : Call ε Bool
  /-- Hand out the trace of the execution. -/
  extractTrace : Call ε Trace
  /-- The scheduler. -/
  scheduler : ε → σ
  /-- What has been logged. -/
  log : ε → List LogRecord

namespace Engine

variable {ε σ : Type} [Engine ε σ]

/-- Perform one execution as a configuration asks for it.  The trace is handed out only if there
was an error or all traces are collected. -/
def execute (cfg : Config) : Call ε Trace := do
  let errored ← Engine.run
  let errored ← if cfg.checkRobustness && !errored then Engine.checkRobustness else pure errored
  if errored || cfg.collectTraces then Engine.extractTrace else pure .empty

end Engine

end Interleave
