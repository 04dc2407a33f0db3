/-! # Configuration of an exploration -/

namespace Interleave

/-- The memory model under which a program is explored. -/
inductive MemoryModel where
  /-- Sequential consistency: a store is visible to all threads at once. -/
  | sc
  /-- Total store order: stores pass through a first-in-first-out buffer per thread. -/
  | tso
  /-- Partial store order: it has a name, but nothing executes it. -/
  | pso
deriving DecidableEq, Repr, Inhabited

namespace MemoryModel

/-- Name of a model. -/
def name : MemoryModel → String
  | sc => "sc"
  | tso => "tso"
  | pso => "pso"

/-- The model of a name, written in upper or lower case. -/
def ofName? (s : String) : Option MemoryModel :=
  let lower := s.map Char.toLower
  [sc, tso, pso].find? fun m => m.name == lower

/-- What is reported about a name that belongs to no model. -/
def unknownName (s : String) : String := "unknown memory model `" ++ s ++ "`"

end MemoryModel

/-- Parameters of an exploration. -/
structure Config where
  model : MemoryModel := .sc
  /-- Check that every execution can be explained under sequential consistency. -/
  checkRobustness : Bool := false
  /-- Go on after the first execution with an error. -/
  exploreAll : Bool := false
  /-- Keep the trace of every execution. -/
  collectTraces : Bool := false
  /-- Rebuild the program every that many executions. -/
  recycleInterval : Option Nat := some 1000
  /-- Largest number of scheduling decisions in one execution. -/
  maxDepth : Option Nat := none
  /-- Largest number of consecutive thread-local instructions. -/
  maxLocalSteps : Nat := 100000
deriving DecidableEq, Repr, Inhabited

/-- Whether the program is rebuilt before execution number `i` (counted from zero). -/
def Config.recyclesAt (cfg : Config) (i : Nat) : Bool :=
  match cfg.recycleInterval with
  | none => false
  | some n => 0 < n && (i + 1) % n == 0

end Interleave
