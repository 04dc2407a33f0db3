import Interleave.Exploration.Loop
import Interleave.Machine.Interpreter
import Interleave.Search.Reduction

/-! # The checker

A `Checker` holds a session and a configuration and explores the interleavings of the session's
program.  `Checker.run` is the entry point: it explores them with the reduction. -/

namespace Interleave

/-- A program under check, and how it is to be explored. -/
structure Checker where
  registry : Registry
  config : Config
  session : Session
  /-- The interpreter to use instead of the one for the configured memory model. -/
  interpreter : Option Interpreter
deriving DecidableEq, Repr, Inhabited

namespace Checker

/-- More fuel than an exploration can use up in practice. -/
def ampleFuel : Nat := 1 <<< 60

/-- A checker for a program text. -/
def ofText (r : Registry) (cfg : Config) (text : String) : Except Failure Checker := do
  return ⟨r, cfg, ← Session.ofText r text, none⟩

/-- A checker for the file of the given name and contents. -/
def ofFile (r : Registry) (cfg : Config) (path : String) (bytes : Option ByteArray) :
    Except Failure Checker := do
  return ⟨r, cfg, ← Session.ofFile r path bytes, none⟩

/-- Rebuild the program from its source. -/
def rebuild (c : Checker) : Except Failure Checker := do
  return { c with session := ← c.session.rebuild c.registry }

/-- The interpreter of an exploration. -/
def select (c : Checker) (fuel : Nat) : Except Failure Interpreter :=
  match c.interpreter with
  | some i => .ok i
  | none => Interpreter.forModel fuel c.config.model

/-- An exploration that fails before it starts. -/
def fail {σ : Type} (c : Checker) (f : Failure) (q : σ) : Outcome × Progress σ :=
  (.failed f, ⟨c.session, q, .empty, 0, []⟩)

/-- Explore the program under a scheduler. -/
def runWith {σ : Type} [Scheduler σ] (c : Checker) (fuel : Nat) (q : σ) : Outcome × Progress σ :=
  match c.select fuel with
  | .error f => c.fail f q
  | .ok i =>
    let x : Exploration σ (Execution σ) := ⟨c.registry, c.config, i.create c.registry⟩
    x.explore fuel c.session q

/-- Explore the program with the reduction. -/
def run (c : Checker) (fuel : Nat) : Outcome × Progress Reduction :=
  let q := Reduction.start c.config.maxDepth
  match c.config.model with
  | .pso => c.fail (.unsupportedModel .pso) q
  | _ => c.runWith fuel q

end Checker

end Interleave
