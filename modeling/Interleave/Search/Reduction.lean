import Interleave.Clock
import Interleave.Search.Path
import Interleave.Search.Scheduler

/-! # Dynamic partial-order reduction

The scheduler `Reduction` explores one execution for each class of equivalent interleavings.

* The history of the current execution gives every operation a clock, which holds what happens
  before it.
* When an operation races with an earlier one that does not happen before it, the other order is a
  behaviour of its own, and its process has to be tried at the branch of the earlier operation.
* An execution that was stopped by an error shows no races of the operations it did not reach, so
  every enabled process has to be tried along its whole path.
* Sleep sets keep it from trying what is known to be covered; an execution in which every enabled
  process is asleep ends there and counts as redundant. -/

namespace Interleave

/-- An operation of the current execution. -/
structure Operated where
  candidate : Candidate
  /-- What happens before it, itself included. -/
  clock : Clock
deriving DecidableEq, Repr, Inhabited

namespace Operated

/-- Whether the operation happens before whatever has the given clock. -/
def happensBefore (e : Operated) (c : Clock) : Bool :=
  e.clock.get e.candidate.proc.index ≤ c.get e.candidate.proc.index

end Operated

/-- The operations of an execution, in order. -/
abbrev History := List Operated

namespace History

/-- What happens before the next operation of a process on account of the process itself: its last
operation, or the operation that created its thread. -/
def clockOf (h : History) (p : Proc) : Clock :=
  match h.reverse.find? fun e => e.candidate.proc == p || e.candidate.access == .spawn p.owner with
  | some e => e.clock
  | none => .empty

/-- The clocks of the stores that wait in the buffer of thread `t`, oldest first. -/
def waiting (h : History) (t : Nat) : List Clock :=
  h.foldl (fun q e =>
    if e.candidate.proc == .flush t then q.tail
    else if e.candidate.proc == .thread t && e.candidate.access.isEnqueue then q ++ [e.clock]
    else q) []

/-- Whether `c` has to be ordered behind the earlier operation `e`.  A flush is ordered behind the
one store that it commits, and not behind those that merely wait with it. -/
def orders (e : Operated) (c : Candidate) : Bool :=
  let isFlush := match c.proc with
    | .flush _ => true
    | .thread _ => false
  !(e.candidate.access.isEnqueue && isFlush) && e.candidate.dependent c

/-- What happens before an operation that is performed now, itself included. -/
def clockAt (h : History) (c : Candidate) : Clock :=
  let own := h.clockOf c.proc
  let joined := h.foldl (fun k e => if orders e c then k.join e.clock else k) own
  let committed := match c.proc with
    | .flush t => ((h.waiting t).head?.map joined.join).getD joined
    | .thread _ => joined
  committed.tick c.proc.index

/-- The positions of the operations that race with `c` and do not happen before it. -/
def racing (h : History) (c : Candidate) : List Nat :=
  let own := h.clockOf c.proc
  h.zipIdx.filterMap fun (e, i) =>
    if e.candidate.races c && !e.happensBefore own then some i else none

/-- Perform an operation. -/
def record (h : History) (c : Candidate) : History := h ++ [⟨c, h.clockAt c⟩]

/-- The process that performed the last operation. -/
def last? (h : History) : Option Proc := h.getLast?.map fun e => e.candidate.proc

end History

/-- The state of the reduction. -/
structure Reduction where
  path : Path
  history : History
  /-- Every enabled process was asleep. -/
  blocked : Bool
  /-- The depth bound was reached. -/
  bounded : Bool
  phase : Phase
  maxDepth : Option Nat
deriving DecidableEq

namespace Reduction

/-- The reduction at the start of an exploration; `maxDepth` bounds the number of scheduling points
of an execution. -/
def start (maxDepth : Option Nat) : Reduction := ⟨.empty, [], false, false, .exploring, maxDepth⟩

/-- The scheduling decisions of the current execution. -/
def currentSchedule (r : Reduction) : List Proc := r.path.schedule

/-- The process to run when an execution is where none has been before: the one that ran last, to
avoid needless changes between threads, and otherwise the least that is awake. -/
def pick (h : History) (awake : List Proc) : Option Proc :=
  match h.last? with
  | some (.thread t) => if awake.contains (.thread t) then some (.thread t) else Proc.least? awake
  | _ => Proc.least? awake

/-- The decision at the current position, with the branch for it on the path. -/
def choose (r : Reduction) (cs : List Candidate) : Decision × Reduction :=
  match r.path.replay? with
  | some p =>
    if cs.any fun c => c.proc == p then (.run p, r) else (.diverged r.path.position p, r)
  | none =>
    match r.path.nextSleep? with
    | none => (.outOfStep, r)
    | some sleep =>
      let awake := (cs.map Candidate.proc).filter fun p => !sleep.any fun c => c.proc == p
      match pick r.history awake with
      | none => (.stop, { r with blocked := true })
      | some p =>
        match r.path.push? (.start cs sleep p) with
        | none => (.outOfStep, r)
        | some path => (.run p, { r with path })

/-- Have the process of `c` tried wherever `c` races with an earlier operation. -/
def requestRaces (r : Reduction) (c : Candidate) : Path :=
  (r.history.racing c).foldl (fun path i => path.request i c.proc) r.path

/-- Pass the current branch with operation `c`. -/
def perform (r : Reduction) (c : Candidate) : Reduction :=
  { r with path := (r.requestRaces c).forward, history := r.history.record c }

/-- Whether the depth bound forbids another decision. -/
def atBound (r : Reduction) : Bool :=
  match r.maxDepth with
  | some n => n ≤ r.path.position
  | none => false

/-- Decide at a scheduling point, and note the races of the operation that is performed. -/
def schedule (r : Reduction) (cs : List Candidate) : Decision × Reduction :=
  if r.phase = .exhausted ∨ cs = [] then (.stop, r)
  else if r.atBound then (.stop, { r with bounded := true })
  else match r.choose cs with
    | (.run p, r') =>
      match cs.find? fun c => c.proc == p with
      | some c => (.run p, r'.perform c)
      | none => (.stop, r')
    | (d, r') => (d, r')

/-- Have every enabled process tried along the whole path. -/
def executionFailed (r : Reduction) : Reduction :=
  { r with path := (List.range r.path.position).foldl Path.requestAll r.path }

/-- The current execution has ended. -/
def endExecution (r : Reduction) : Reduction :=
  if r.phase = .exploring then { r with phase := .readyForNext } else r

/-- Go on to the next execution; its history starts empty. -/
def advance (r : Reduction) : Bool × Reduction :=
  if r.phase = .exhausted then (false, r)
  else match r.path.advance with
    | (true, path) =>
      (true,
        { r with path, history := [], blocked := false, bounded := false, phase := .exploring })
    | (false, path) => (false, { r with path, phase := .exhausted })

instance : Scheduler Reduction where
  schedule := schedule
  executionFailed := executionFailed
  endExecution := endExecution
  wasRedundant := blocked
  advance := advance

end Reduction

end Interleave
