import Interleave.Trace

/-! # Faults

A fault is the breakdown of an engine itself, as opposed to an error of the program that it
executes.  The checker survives it: the execution at hand is given up, and the fault becomes the
one error of its trace. -/

namespace Interleave

/-- How an engine broke down. -/
inductive Fault where
  /-- It used an index beyond the end of a sequence. -/
  | outOfBounds (index size : Nat)
  /-- It gave up with a message. -/
  | raised (message : String)
  /-- It gave up without one. -/
  | silent
deriving DecidableEq, Repr, Inhabited

namespace Fault

/-- The wording of each fault. -/
def message : Fault → String
  | outOfBounds i n => s!"index out of bounds: the len is {n} but the index is {i}"
  | raised m => m
  | silent => "unknown fault"

/-- The error that a contained fault leaves on the trace. -/
def toError (f : Fault) : TraceError :=
  ⟨.hostFault, none, "fault while executing: " ++ f.message⟩

end Fault

/-- Why an execution cannot go on. -/
inductive Stop where
  /-- The program made an error. -/
  | error (e : TraceError)
  /-- The engine broke down. -/
  | fault (f : Fault)
deriving DecidableEq, Repr, Inhabited

/-- The element at an index that has to exist. -/
def fetch {α : Type} (l : List α) (i : Nat) : Except Stop α :=
  match l[i]? with
  | some a => .ok a
  | none => .error (.fault (.outOfBounds i l.length))

end Interleave
