import Interleave.Access
import Interleave.Search.ProcSet

/-! # The path of an exploration

The tree of all interleavings is explored depth first, and only the path of the current execution is
kept: one `Branch` per scheduling point.  A branch remembers the processes that have been tried
there (`done`) and those that still have to be (`backtrack`); `Path.advance` moves to the deepest
branch with a process left to try.

The sleep set of a branch holds the candidates whose execution there is known to be redundant: they
were tried at an earlier branch, and nothing dependent with them has happened since. -/

namespace Interleave

/-- A scheduling point. -/
structure Branch where
  /-- The enabled processes, each with its next operation. -/
  candidates : List Candidate
  /-- Candidates whose execution here is known to be redundant. -/
  sleep : List Candidate
  /-- The process that takes its step in the current execution. -/
  chosen : Proc
  /-- Processes still to be tried here. -/
  backtrack : ProcSet
  /-- Processes that have been tried here. -/
  done : ProcSet
deriving DecidableEq

namespace Branch

/-- A branch reached for the first time. -/
def start (candidates sleep : List Candidate) (chosen : Proc) : Branch :=
  ⟨candidates, sleep, chosen, .empty, .empty⟩

/-- What a process could do here. -/
def candidate? (b : Branch) (p : Proc) : Option Candidate := b.candidates.find? fun c => c.proc == p

/-- Whether a process could do something here. -/
def isEnabled (b : Branch) (p : Proc) : Bool := (b.candidate? p).isSome

/-- Whether running a process here is known to be redundant. -/
def isAsleep (b : Branch) (p : Proc) : Bool := b.sleep.any fun c => c.proc == p

/-- Whether a process is neither tried, nor due to be tried, nor asleep here. -/
def isFresh (b : Branch) (p : Proc) : Bool :=
  p != b.chosen && !decide (p ∈ b.done) && !decide (p ∈ b.backtrack) && !b.isAsleep p

/-- The sleep set behind this branch: what is asleep here or was tried here stays asleep, unless
the chosen operation is dependent with it. -/
def sleepAfter (b : Branch) : List Candidate :=
  match b.candidate? b.chosen with
  | none => []
  | some chosen =>
    let tried := b.candidates.filter fun c => c.proc != b.chosen && decide (c.proc ∈ b.done)
    (b.sleep ++ tried).filter fun c => !c.dependent chosen

/-- Have every enabled process tried here. -/
def requestAll (b : Branch) : Branch :=
  { b with backtrack := b.backtrack.insertAll ((b.candidates.map Candidate.proc).filter b.isFresh) }

/-- Have a process tried here.  If it is not enabled or asleep, nothing is known about which
process leads to it, and every enabled one has to be tried instead. -/
def request (b : Branch) (p : Proc) : Branch :=
  if !b.isEnabled p || b.isAsleep p then b.requestAll
  else if b.isFresh p then { b with backtrack := b.backtrack.insert p }
  else b

/-- The branch with its least process that is still to be tried as the chosen one. -/
def next? (b : Branch) : Option Branch :=
  let done := b.done.insert b.chosen
  let usable := fun p => !decide (p ∈ done) && !b.isAsleep p
  (b.backtrack.dropUntil usable).map fun (p, rest) =>
    { b with chosen := p, backtrack := rest, done }

end Branch

/-- The branches of the current execution, from the root, and how many of them it has passed. -/
structure Path where
  branches : List Branch
  position : Nat
deriving DecidableEq

namespace Path

/-- The path before the first scheduling point. -/
def empty : Path := ⟨[], 0⟩

/-- The choice recorded at the current position, if the execution has been here before. -/
def replay? (p : Path) : Option Proc := (p.branches[p.position]?).map Branch.chosen

/-- The sleep set of a new branch at the current position; there is none if the path does not reach
that far. -/
def nextSleep? (p : Path) : Option (List Candidate) :=
  match p.position with
  | 0 => some []
  | n + 1 => (p.branches[n]?).map Branch.sleepAfter

/-- Append a branch at the current position, which has to be the end of the path. -/
def push? (p : Path) (b : Branch) : Option Path :=
  if p.position = p.branches.length then some { p with branches := p.branches ++ [b] } else none

/-- Pass the branch at the current position. -/
def forward (p : Path) : Path := { p with position := p.position + 1 }

/-- Have a process tried at branch `i`. -/
def request (p : Path) (i : Nat) (q : Proc) : Path :=
  { p with branches := p.branches.modify i (·.request q) }

/-- Have every enabled process tried at branch `i`. -/
def requestAll (p : Path) (i : Nat) : Path :=
  { p with branches := p.branches.modify i Branch.requestAll }

/-- The path up to its deepest branch with a process left to try, which becomes the chosen one. -/
def nextBranches? : List Branch → Option (List Branch)
  | [] => none
  | b :: bs =>
    match nextBranches? bs with
    | some bs' => some (b :: bs')
    | none => b.next?.map fun b' => [b']

/-- Go back to the start of the path, on to the next execution; `false` if none is left. -/
def advance (p : Path) : Bool × Path :=
  match nextBranches? p.branches with
  | some bs => (true, ⟨bs, 0⟩)
  | none => (false, ⟨[], 0⟩)

/-- The processes chosen at the branches that the execution has passed. -/
def schedule (p : Path) : List Proc := (p.branches.take p.position).map Branch.chosen

end Path

end Interleave
