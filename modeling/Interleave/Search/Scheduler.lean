import Interleave.Access
import Interleave.Log

/-! # Schedulers

A scheduler decides, at every scheduling point of an execution, which of the candidates takes its
step, and after each execution whether there is another one to explore. -/

namespace Interleave

/-- The answer of a scheduler at a scheduling point. -/
inductive Decision where
  /-- The process takes its step. -/
  | run (p : Proc)
  /-- The execution ends here. -/
  | stop
  /-- The execution ends here, because the process that is due at this position is not offered. -/
  | diverged (position : Nat) (p : Proc)
  /-- The scheduler broke down: its record of the execution is not where the execution is. -/
  | outOfStep
deriving DecidableEq, Repr, Inhabited

namespace Decision

/-- The chosen process, if there is one. -/
def proc? : Decision → Option Proc
  | run p => some p
  | _ => none

/-- What is logged about a decision. -/
def log : Decision → List LogRecord
  | diverged i p => [.warn (s!"replay diverged at {i}: " ++ p.text ++ " is not enabled")]
  | _ => []

end Decision

/-- Where a scheduler stands in its exploration. -/
inductive Phase where
  /-- An execution is under way. -/
  | exploring
  /-- The execution has ended. -/
  | readyForNext
  /-- No execution is left. -/
  | exhausted
deriving DecidableEq, Repr, Inhabited

/-- The states of type `σ` are those of a scheduler. -/
class Scheduler (σ : Type) where
  /-- Choose among the candidates at a scheduling point. -/
  schedule : σ → List Candidate → Decision × σ
  /-- An error stopped the current execution. -/
  executionFailed : σ → σ
  /-- The current execution has ended. -/
  endExecution : σ → σ
  /-- The execution that ended was equivalent to an earlier one. -/
  wasRedundant : σ → Bool
  /-- Go on to the next execution, if there is one. -/
  advance : σ → Bool × σ

end Interleave
