import Interleave.Search.Scheduler

/-! # Scripted schedulers

A `Script` drives a single execution by a list of moves and, behind it, by a fixed policy.  It keeps
a record of what was offered and chosen.  A move may name a process that is not offered, which is
how an execution is led where no other scheduler takes it. -/

namespace Interleave

/-- One scheduling decision of a script. -/
inductive Move where
  /-- Run this process, offered or not. -/
  | proc (p : Proc)
  /-- Run the candidate of this number, counted round and round. -/
  | index (i : Nat)
  | stop
deriving DecidableEq, Repr, Inhabited

/-- How to decide behind the end of the moves. -/
inductive Policy where
  | first
  | last
  /-- Candidate number `n` at decision number `n`, counted round and round. -/
  | rotate
  | stop
deriving DecidableEq, Repr, Inhabited

/-- A scheduler that follows moves, then a policy, up to a limit. -/
structure Script where
  moves : List Move
  policy : Policy
  /-- From this decision on, the execution is stopped. -/
  limit : Nat
  /-- The decisions so far: the candidates, and the process that was chosen. -/
  offered : List (List Candidate × Option Proc)
deriving DecidableEq, Repr, Inhabited

namespace Script

/-- A script before its first decision. -/
def start (moves : List Move) (policy : Policy) (limit : Nat) : Script := ⟨moves, policy, limit, []⟩

/-- Candidate number `i`, counted round and round. -/
def around (cs : List Candidate) (i : Nat) : Option Proc :=
  (cs[i % cs.length]?).map Candidate.proc

/-- The process to run, if any. -/
def choice (s : Script) (cs : List Candidate) : Option Proc :=
  let n := s.offered.length
  if s.limit ≤ n then none
  else match s.moves[n]? with
    | some (.proc p) => some p
    | some (.index i) => around cs i
    | some .stop => none
    | none =>
      match s.policy with
      | .first => cs.head?.map Candidate.proc
      | .last => cs.getLast?.map Candidate.proc
      | .rotate => around cs n
      | .stop => none

/-- A script follows its moves through one execution and knows no other. -/
instance : Scheduler Script where
  schedule s cs :=
    let p := s.choice cs
    (match p with
      | some p => .run p
      | none => .stop,
      { s with offered := s.offered ++ [(cs, p)] })
  executionFailed := id
  endExecution := id
  wasRedundant _ := false
  advance s := (false, s)

end Script

end Interleave
