import Interleave.Engine
import Interleave.Machine.Run
import Interleave.Program.Session

/-! # The interpreter

An `Interpreter` executes programs under one memory model.  `create` sets up an execution; the
`Execution` is an engine. -/

namespace Interleave

/-- An interpreter for a memory model; its executions get the given fuel. -/
structure Interpreter where
  model : MemoryModel
  fuel : Nat
deriving DecidableEq, Repr, Inhabited

/-- An execution under way, with its scheduler. -/
structure Execution (σ : Type) where
  setup : Setup
  fuel : Nat
  machine : Machine
  scheduler : σ

namespace Interpreter

/-- Largest number of memory cells of an execution. -/
def maxCells : Nat := 1 <<< 24

/-- The interpreter for a memory model. -/
def forModel (fuel : Nat) : MemoryModel → Except Failure Interpreter
  | .sc => .ok ⟨.sc, fuel⟩
  | .tso => .ok ⟨.tso, fuel⟩
  | .pso => .error (.unsupportedModel .pso)

/-- Set up an execution of a program. -/
def create {σ : Type} (r : Registry) (i : Interpreter) (p : Program) (cfg : Config) (q : σ) :
    Except Failure (Execution σ) := do
  if cfg.model ≠ i.model then throw (.engine (.wrongModel i.model cfg.model))
  if maxCells < p.globals.length then throw (.engine (.memoryLimit p.globals.length maxCells))
  let setup : Setup := ⟨p, r, i.model == .tso, cfg.maxLocalSteps⟩
  match (p.find? Program.entryPoint).map (Machine.start setup) with
  | some (.ok m) => return ⟨setup, i.fuel, m, q⟩
  | _ => throw (.missingEntryPoint Program.entryPoint)

end Interpreter

namespace Execution

variable {σ : Type} [Scheduler σ]

/-- Run to the end; an error of the program is recorded. -/
def run (x : Execution σ) : Except Break Bool × Execution σ :=
  let (ending, m, scheduler) := x.machine.runLoop x.setup x.fuel x.scheduler
  match ending with
  | .completed | .refused => (.ok (!m.errors.isEmpty), { x with machine := m, scheduler })
  | .stopped (.error e) =>
    (.ok true, { x with machine := { m with errors := m.errors ++ [e] }, scheduler })
  | .stopped (.fault f) => (.error (.fault f), { x with machine := m, scheduler })
  | .outOfFuel => (.error .outOfFuel, { x with machine := m, scheduler })

instance : Engine (Execution σ) σ where
  run := fun x => x.run
  checkRobustness := fun x =>
    let (found, machine) := x.machine.checkRobustness
    (.ok found, { x with machine })
  extractTrace := fun x =>
    let (trace, machine) := x.machine.extractTrace
    (.ok trace, { x with machine })
  scheduler := Execution.scheduler
  log x := x.machine.log

end Execution

end Interleave
