import Interleave.Engine
import Interleave.Failure
import Interleave.Program.Basic
import Interleave.Search.Scheduler

/-! # Straight-line threads

The simplest concurrent programs: every thread is a list of accesses that it performs one after the
other, and nothing ever has to wait.  They are what a reduction of interleavings is best understood
on, and rules can make them fail at chosen points, which shows how an exploration deals with errors,
faults and violations.  A `Tally` counts the calls that an exploration makes. -/

namespace Interleave

/-- What happens to an execution at a point of its choice. -/
inductive Trouble where
  | error
  | fault
  /-- The execution goes on, but it will be found to violate sequential consistency. -/
  | violation
deriving DecidableEq, Repr, Inhabited

/-- Trouble for thread number `thread` at its access number `pc`, provided that the thread number
`before.1` has performed at most `before.2` accesses. -/
structure TroubleRule where
  thread : Nat
  pc : Nat
  before : Option (Nat × Nat)
  trouble : Trouble
deriving DecidableEq, Repr, Inhabited

/-- Straight-line threads, each with its process and its accesses. -/
structure StraightLine where
  threads : List (Proc × List Access)
  rules : List TroubleRule
  /-- Largest number of executions. -/
  cap : Nat
deriving DecidableEq, Repr, Inhabited

/-- Number of calls of an engine's operations. -/
structure Tally where
  created : Nat := 0
  ran : Nat := 0
  checked : Nat := 0
  extracted : Nat := 0
deriving DecidableEq, Repr, Inhabited

/-- A scheduler together with a tally of the engines that used it. -/
structure Tallied (σ : Type) where
  scheduler : σ
  tally : Tally

instance {σ : Type} [Scheduler σ] : Scheduler (Tallied σ) where
  schedule x cs :=
    let (d, scheduler) := Scheduler.schedule x.scheduler cs
    (d, { x with scheduler })
  executionFailed x := { x with scheduler := Scheduler.executionFailed x.scheduler }
  endExecution x := { x with scheduler := Scheduler.endExecution x.scheduler }
  wasRedundant x := Scheduler.wasRedundant x.scheduler
  advance x :=
    let (more, scheduler) := Scheduler.advance x.scheduler
    (more, { x with scheduler })

namespace StraightLine

/-- An execution under way. -/
structure State where
  /-- Number of accesses that each thread has performed. -/
  pcs : List Nat
  events : List Event
  errors : List TraceError
  violated : Bool
  log : List LogRecord
deriving DecidableEq, Repr, Inhabited

/-- No access has been performed. -/
def start (l : StraightLine) : State := ⟨l.threads.map fun _ => 0, [], [], false, []⟩

/-- Number of accesses of all threads together. -/
def size (l : StraightLine) : Nat := l.threads.foldl (fun n th => n + th.2.length) 0

/-- Number of accesses that thread number `t` has performed. -/
def pc (st : State) (t : Nat) : Nat := st.pcs.getD t 0

/-- The next access of each thread that has one. -/
def candidates (l : StraightLine) (st : State) : List Candidate :=
  l.threads.zipIdx.filterMap fun ((p, as), t) => (as[pc st t]?).map fun a => ⟨p, a⟩

/-- What happens when thread number `t` performs its next access. -/
def troubles (l : StraightLine) (st : State) (t : Nat) : List Trouble :=
  let due := l.rules.filter fun r =>
    r.thread == t && r.pc == pc st t &&
      (match r.before with
        | some (u, n) => decide (pc st u ≤ n)
        | none => true)
  due.map TroubleRule.trouble

/-- How the execution goes on after an access. -/
inductive After where
  | continues
  | errored
  | faulted (f : Fault)

/-- Meet one trouble after the other, at a site. -/
def meet (site : Site) : List Trouble → State → After × State
  | [], st => (.continues, st)
  | .error :: _, st =>
    (.errored, { st with errors := st.errors ++ [⟨.abort, some site, "scripted error"⟩] })
  | .fault :: _, st => (.faulted (.raised s!"scripted fault at {site.pc}"), st)
  | .violation :: rest, st => meet site rest { st with violated := true }

/-- Thread number `t`, of process `p`, performs its next access. -/
def step (l : StraightLine) (st : State) (t : Nat) (p : Proc) : After × State :=
  let site : Site := ⟨t, "line", pc st t⟩
  let st' := { st with events := st.events ++ [⟨p, site, .fence⟩] }
  match meet site (l.troubles st t) st' with
  | (.continues, st') => (.continues, { st' with pcs := st'.pcs.modify t (· + 1) })
  | other => other

/-- Perform accesses as the scheduler chooses them; as many as there are suffice for fuel. -/
def runLoop {σ : Type} [Scheduler σ] (l : StraightLine) :
    (fuel : Nat) → State → σ → Except Break Bool × State × σ
  | 0, st, q => (.ok false, st, q)
  | fuel + 1, st, q =>
    match l.candidates st with
    | [] => (.ok false, st, q)
    | cs =>
      match Scheduler.schedule q cs with
      | (.run p, q) =>
        match l.threads.findIdx? fun th => th.1 == p with
        | none => (.ok false, st, q)
        | some t =>
          match l.step st t p with
          | (.continues, st) => runLoop l fuel st q
          | (.errored, st) => (.ok true, st, q)
          | (.faulted f, st) => (.error (.fault f), st, q)
      | (.outOfStep, q) => (.error (.fault (.raised "schedule out of step")), st, q)
      | (d, q) => (.ok false, { st with log := st.log ++ d.log }, q)

/-- The engine of an execution. -/
structure Run (σ : Type) where
  script : StraightLine
  state : State
  scheduler : Tallied σ

variable {σ : Type}

/-- Create the engine of an execution, unless there have been too many. -/
def create (l : StraightLine) (_ : Program) (_ : Config) (q : Tallied σ) :
    Except Failure (Run σ) :=
  if l.cap ≤ q.tally.created then .error (.engine (.engineLimit l.cap))
  else .ok ⟨l, l.start, { q with tally := { q.tally with created := q.tally.created + 1 } }⟩

/-- Count a call. -/
def Run.count (x : Run σ) (f : Tally → Tally) : Run σ :=
  { x with scheduler := { x.scheduler with tally := f x.scheduler.tally } }

instance [Scheduler σ] : Engine (Run σ) (Tallied σ) where
  run := fun x =>
    let x := x.count fun n => { n with ran := n.ran + 1 }
    let (reply, state, scheduler) := x.script.runLoop (x.script.size + 1) x.state x.scheduler
    (reply, { x with state, scheduler })
  checkRobustness := fun x =>
    let x := x.count fun n => { n with checked := n.checked + 1 }
    let violation : TraceError := ⟨.robustnessViolation, none, "scripted violation"⟩
    if x.state.violated then
      (.ok true, { x with state := { x.state with errors := x.state.errors ++ [violation] } })
    else (.ok false, x)
  extractTrace := fun x =>
    let x := x.count fun n => { n with extracted := n.extracted + 1 }
    (.ok ⟨x.state.events, x.state.errors⟩, { x with state := { x.state with events := [] } })
  scheduler := Run.scheduler
  log x := x.state.log

end StraightLine

end Interleave
