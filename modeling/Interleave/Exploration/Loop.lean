import Interleave.Engine
import Interleave.Exploration.Result
import Interleave.Program.Session
import Interleave.Search.Scheduler

/-! # Exploring the executions of a program

An exploration performs one execution after the other, each with an engine of its own, until the
scheduler has no other or an error was found and one error is enough.  It works for every scheduler
and every way to create engines.

The program is rebuilt from its source at regular intervals.  A fault of an engine is contained: it
becomes the one error of its execution. -/

namespace Interleave

/-- What an exploration needs, apart from its scheduler. -/
structure Exploration (σ ε : Type) where
  registry : Registry
  config : Config
  /-- Create the engine of an execution. -/
  create : Program → Config → σ → Except Failure ε

/-- An exploration under way: what stands between two executions. -/
structure Progress (σ : Type) where
  session : Session
  scheduler : σ
  result : Result
  /-- Number of executions performed. -/
  iteration : Nat
  log : List LogRecord

/-- How an execution left the exploration. -/
inductive Outcome where
  /-- Another execution follows. -/
  | continues
  | finished
  | failed (f : Failure)
  | outOfFuel
deriving DecidableEq, Repr, Inhabited

namespace Exploration

variable {σ ε : Type} [Scheduler σ] [Engine ε σ]

/-- The session for the next execution. -/
def refresh (x : Exploration σ ε) (g : Progress σ) : Except Failure Session :=
  if x.config.recyclesAt g.iteration then g.session.rebuild x.registry else .ok g.session

/-- Account for an execution that left the given trace. -/
def account (x : Exploration σ ε) (g : Progress σ) (trace : Trace) : Outcome × Progress σ :=
  let q := if trace.wasCutShort then Scheduler.executionFailed g.scheduler else g.scheduler
  let q := Scheduler.endExecution q
  let result := g.result.add x.config.collectTraces trace (Scheduler.wasRedundant q)
  if trace.hasErrors && !x.config.exploreAll then
    (.finished, { g with scheduler := q, result, iteration := g.iteration + 1 })
  else
    let (more, q) := Scheduler.advance q
    (if more then .continues else .finished,
      { g with scheduler := q, result, iteration := g.iteration + 1 })

/-- Perform one execution. -/
def round (x : Exploration σ ε) (g : Progress σ) : Outcome × Progress σ :=
  match x.refresh g with
  | .error f => (.failed f, g)
  | .ok session =>
    let g := { g with session }
    match x.create session.program x.config g.scheduler with
    | .error f => (.failed f, g)
    | .ok engine =>
      let (reply, engine) := (Engine.execute x.config : Call ε Trace).run engine
      let g := { g with scheduler := Engine.scheduler engine, log := g.log ++ Engine.log engine }
      match reply with
      | .ok trace => x.account g trace
      | .error (.fault f) => x.account g (.ofError f.toError)
      | .error .outOfFuel => (.outOfFuel, g)

/-- Perform executions, at most `fuel` of them, for as long as others follow. -/
def rounds (x : Exploration σ ε) : (fuel : Nat) → Progress σ → Outcome × Progress σ
  | 0, g => (.outOfFuel, g)
  | fuel + 1, g =>
    match x.round g with
    | (.continues, g) => rounds x fuel g
    | (o, g) => (o, g)

/-- What is logged before the first execution. -/
def opening (cfg : Config) (s : Session) : LogRecord :=
  .info ("Exploring " ++ s.title ++ " under " ++ cfg.model.name ++ " (robustness: "
    ++ toString cfg.checkRobustness ++ ", all traces: " ++ toString cfg.exploreAll ++ ")")

/-- What is logged behind the last execution. -/
def closing (r : Result) : LogRecord :=
  .info (s!"Explored {r.traceCount} traces, {r.blockedCount} sleep-set blocked"
    ++ (if r.hasErrors then ", errors found" else ""))

/-- Explore the program of a session under a scheduler. -/
def explore (x : Exploration σ ε) (fuel : Nat) (s : Session) (q : σ) : Outcome × Progress σ :=
  match x.rounds fuel ⟨s, q, .empty, 0, [opening x.config s]⟩ with
  | (.finished, g) => (.finished, { g with log := g.log ++ [closing g.result] })
  | (o, g) => (o, g)

end Exploration

end Interleave
