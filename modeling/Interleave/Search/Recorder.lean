import Interleave.Search.Reduction

/-! # Recording an exploration

A `Recorder` is the reduction with a record of what an exploration asks of it: how often it went on
to another execution, reported an error or the end of an execution, and the schedules of the first
few executions. -/

namespace Interleave

/-- How one execution went. -/
structure ScheduleRecord where
  schedule : List Proc
  redundant : Bool
  bounded : Bool
deriving DecidableEq, Repr, Inhabited

/-- The reduction with a record of what is asked of it. -/
structure Recorder where
  reduction : Reduction
  advances : Nat
  failures : Nat
  ends : Nat
  /-- How many schedules are kept. -/
  limit : Nat
  schedules : List ScheduleRecord
deriving DecidableEq

namespace Recorder

/-- A record of nothing so far, which keeps the first `limit` schedules. -/
def start (maxDepth : Option Nat) (limit : Nat) : Recorder := ⟨.start maxDepth, 0, 0, 0, limit, []⟩

instance : Scheduler Recorder where
  schedule s cs :=
    let (d, reduction) := s.reduction.schedule cs
    (d, { s with reduction })
  executionFailed s :=
    { s with reduction := s.reduction.executionFailed, failures := s.failures + 1 }
  endExecution s :=
    let reduction := s.reduction.endExecution
    let record := ⟨reduction.currentSchedule, reduction.blocked, reduction.bounded⟩
    { s with
      reduction
      ends := s.ends + 1
      schedules := if s.schedules.length < s.limit then s.schedules ++ [record] else s.schedules }
  wasRedundant s := s.reduction.blocked
  advance s :=
    let (more, reduction) := s.reduction.advance
    (more, { s with reduction, advances := s.advances + 1 })

end Recorder

end Interleave
