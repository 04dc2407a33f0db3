import Interleave.Machine.Step
import Interleave.Memory.Cycle
import Interleave.Search.Scheduler

/-! # Running the machine under a scheduler

Again and again all threads come to rest, the candidates are offered to the scheduler, and the
chosen process takes its step.  The run ends when everything is done, when nothing can be done (a
deadlock), when the scheduler ends it, or with an error.  A program need not end, so a run is given
fuel: the number of scheduling points that it may reach. -/

namespace Interleave

/-- How a run ended. -/
inductive Ending where
  /-- Everything is done. -/
  | completed
  /-- The scheduler ended the execution. -/
  | refused
  | stopped (why : Stop)
  | outOfFuel
deriving DecidableEq, Repr, Inhabited

namespace Machine

variable {σ : Type} [Scheduler σ]

/-- Run the machine under a scheduler. -/
def runLoop (s : Setup) : (fuel : Nat) → Machine → σ → Ending × Machine × σ
  | 0, m, q => (.outOfFuel, m, q)
  | fuel + 1, m, q =>
    match m.settle s with
    | (m, some why) => (.stopped why, m, q)
    | (m, none) =>
      match m.candidates s with
      | .error why => (.stopped why, m, q)
      | .ok [] =>
        if m.isDone then (.completed, m, q)
        else match m.deadlock s with
          | .ok e => (.stopped (.error e), m, q)
          | .error why => (.stopped why, m, q)
      | .ok cs =>
        match Scheduler.schedule q cs with
        | (.run p, q) =>
          match m.step s p with
          | .error why => (.stopped why, m, q)
          | .ok m => runLoop s fuel m q
        | (.outOfStep, q) => (.stopped (.fault (.raised "schedule out of step")), m, q)
        | (d, q) => (.refused, { m with log := m.log ++ d.log }, q)

/-- Look for a violation of sequential consistency in an execution without errors; it is recorded as
an error. -/
def checkRobustness (m : Machine) : Bool × Machine :=
  if !m.errors.isEmpty then (false, m)
  else match m.graph.findCycle with
    | none => (false, m)
    | some cycle =>
      let message := "execution is not sequentially consistent: " ++ m.graph.describe cycle
      (true, { m with errors := m.errors ++ [⟨.robustnessViolation, none, message⟩] })

/-- Hand out the trace; the events are gone afterwards, the errors stay. -/
def extractTrace (m : Machine) : Trace × Machine := (⟨m.events, m.errors⟩, { m with events := [] })

end Machine

end Interleave
