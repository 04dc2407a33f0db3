import Interleave.Proc

/-! # Accesses to shared state

An `Access` is the next visible operation of a process, and a `Candidate` is a process together
with that operation.  Two relations between candidates drive the reduction of interleavings:

* `Candidate.dependent`: the two operations need not commute, so their order matters to whatever
  follows;
* `Candidate.races`: they are dependent and both orders can occur, so that the other order is a
  behaviour of its own. -/

namespace Interleave

/-- Address of a shared memory cell. -/
abbrev Addr := UInt64

/-- The next visible operation of a process. -/
inductive Access where
  | read (a : Addr)
  | write (a : Addr)
  | lock (a : Addr)
  | unlock (a : Addr)
  /-- Create the given thread. -/
  | spawn (t : Nat)
  /-- Wait for the given thread. -/
  | join (t : Nat)
  | fence
  /-- Append a store to the own store buffer. -/
  | enqueue (a : Addr)
deriving DecidableEq, Repr, Inhabited

namespace Access

/-- The memory cell that an access touches, if any. -/
def object : Access → Option Addr
  | read a | write a | lock a | unlock a => some a
  | spawn _ | join _ | fence | enqueue _ => none

/-- Whether an access only reads. -/
def isRead : Access → Bool
  | read _ => true
  | _ => false

/-- Whether an access puts a store into the buffer. -/
def isEnqueue : Access → Bool
  | enqueue _ => true
  | _ => false

/-- Accesses for which a thread first has to drain its store buffer. -/
def drains : Access → Bool
  | fence | spawn _ | lock _ | unlock _ => true
  | _ => false

/-- The two accesses touch one cell, and not both of them only read it. -/
def conflicts (a b : Access) : Bool :=
  match a.object, b.object with
  | some x, some y => x == y && !(a.isRead && b.isRead)
  | _, _ => false

/-- The access concerns the given thread itself: it creates or awaits it. -/
def concerns : Access → Nat → Bool
  | spawn c, t => c == t
  | join c, t => c == t
  | _, _ => false

/-- Accesses that, on one mutex, are never both enabled: a mutex that can be locked is free, and
one that can be unlocked is held, by a single thread. -/
def excludes : Access → Access → Bool
  | lock _, unlock _ => true
  | unlock _, unlock _ => true
  | unlock _, lock _ => true
  | _, _ => false

/-- An access in reports. -/
def text : Access → String
  | read a => s!"read #{a}"
  | write a => s!"write #{a}"
  | lock a => s!"lock #{a}"
  | unlock a => s!"unlock #{a}"
  | spawn t => s!"spawn T{t}"
  | join t => s!"join T{t}"
  | fence => "fence"
  | enqueue a => s!"buffer #{a}"

end Access

/-- A process that is offered for scheduling, with its next operation. -/
structure Candidate where
  proc : Proc
  access : Access
deriving DecidableEq, Repr, Inhabited

namespace Candidate

/-- A candidate in reports. -/
def text (c : Candidate) : String := c.proc.text ++ ": " ++ c.access.text

/-- The operation of `c` bears on process `q` through the structure of the program rather than
through memory: it creates or awaits the thread of `q`, or `q` flushes the buffer that the
operation fills or has to find empty. -/
def bearsOn (c : Candidate) (q : Proc) : Bool :=
  c.access.concerns q.owner ||
    (match c.proc, q with
      | .thread t, .flush u => t == u && (c.access.drains || c.access.isEnqueue)
      | _, _ => false)

/-- Whether the order of two operations can matter.  Dependent operations are ordered by
happens-before, and performing one of them wakes the other up from a sleep set. -/
def dependent (c d : Candidate) : Bool :=
  c.proc == d.proc || c.access.conflicts d.access || c.bearsOn d.proc || d.bearsOn c.proc

/-- Whether two operations of different processes are dependent and both orders can occur. -/
def races (c d : Candidate) : Bool :=
  c.proc != d.proc && !c.access.excludes d.access && c.access.conflicts d.access

theorem dependent_comm (c d : Candidate) : c.dependent d = d.dependent c := by
  have h : c.access.conflicts d.access = d.access.conflicts c.access := by
    simp only [Access.conflicts]
    cases c.access.object <;> cases d.access.object <;> simp [Bool.and_comm, BEq.comm]
  simp only [dependent, h, BEq.comm (a := c.proc), Bool.or_assoc, Bool.or_comm (c.bearsOn d.proc)]

theorem dependent_of_races {c d : Candidate} (h : c.races d = true) : c.dependent d = true := by
  simp only [races, Bool.and_eq_true] at h
  simp [dependent, h.2]

end Candidate

end Interleave
