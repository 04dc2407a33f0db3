import Interleave.Trace

/-! # The result of an exploration -/

namespace Interleave

/-- What a complete exploration found. -/
structure Result where
  /-- Number of executions that were not redundant. -/
  traceCount : Nat
  /-- Number of executions that sleep sets showed to be redundant. -/
  blockedCount : Nat
  /-- The first trace with an error. -/
  errorTrace : Option Trace
  /-- Every trace, if they were to be collected. -/
  allTraces : List Trace
deriving DecidableEq, Repr, Inhabited

namespace Result

/-- What has been found before the first execution. -/
def empty : Result := ⟨0, 0, none, []⟩

/-- Whether an execution had an error. -/
def hasErrors (r : Result) : Bool := r.errorTrace.isSome

/-- Number of executions, redundant or not. -/
def executionCount (r : Result) : Nat := r.traceCount + r.blockedCount

/-- Account for one more execution. -/
def add (r : Result) (collect : Bool) (trace : Trace) (redundant : Bool) : Result :=
  { traceCount := if redundant then r.traceCount else r.traceCount + 1
    blockedCount := if redundant then r.blockedCount + 1 else r.blockedCount
    errorTrace := r.errorTrace.or (if trace.hasErrors then some trace else none)
    allTraces := if collect then r.allTraces ++ [trace] else r.allTraces }

/-- A result as a report. -/
def text (r : Result) : String :=
  s!"Traces explored: {r.traceCount}\nSleep-set blocked: {r.blockedCount}\n" ++
    (match r.errorTrace with
      | none => "No errors found"
      | some t => "Error trace:\n" ++ t.text)

theorem executionCount_add (r : Result) (collect : Bool) (trace : Trace) (redundant : Bool) :
    (r.add collect trace redundant).executionCount = r.executionCount + 1 := by
  cases redundant <;> simp [add, executionCount] <;> omega

end Result

end Interleave
