import Interleave.Text.Blank
import Interleave.Text.Split
import Interleave.Text.Decimal
import Interleave.Proc
import Interleave.Access
import Interleave.Clock
import Interleave.Config
import Interleave.Log
import Interleave.Trace
import Interleave.Fault
import Interleave.Failure
import Interleave.Program.Basic
import Interleave.Program.Listing
import Interleave.Program.ReadError
import Interleave.Program.Reader
import Interleave.Program.Builtin
import Interleave.Program.Session
import Interleave.Memory.Graph
import Interleave.Memory.Cycle
import Interleave.Search.Scheduler
import Interleave.Search.ProcSet
import Interleave.Search.Path
import Interleave.Search.Reduction
import Interleave.Search.Script
import Interleave.Search.Recorder
import Interleave.Engine
import Interleave.Machine.Basic
import Interleave.Machine.Local
import Interleave.Machine.Step
import Interleave.Machine.Run
import Interleave.Machine.Interpreter
import Interleave.Containment
import Interleave.Exploration.Result
import Interleave.Exploration.Loop
import Interleave.Exploration.StraightLine
import Interleave.Exploration.Checker
import Interleave.Main
import Interleave.Proofs.Equivalence
import Interleave.Proofs.HappensBefore
import Interleave.Proofs.Search.Branch
import Interleave.Proofs.Search.Execution
import Interleave.Proofs.Search.Tree
import Interleave.Proofs.Search.Exploration
import Interleave.Proofs.Search.NoRepetition
import Interleave.Proofs.Search.Queries
import Interleave.Proofs.Search.Requests
import Interleave.Proofs.Commuting
import Interleave.Proofs.Search.Coverage
import Interleave.Proofs.StraightLine
import Interleave.Proofs.Machine.Offer
import Interleave.Proofs.Machine.Change
import Interleave.Proofs.Machine.Independence
import Interleave.Proofs.Machine.Rest
import Interleave.Proofs.Machine.Diamond
import Interleave.Proofs.Machine.System
import Interleave.Proofs.Machine.Behaviour
import Interleave.Proofs.Memory.Cycle
import Interleave.Proofs.Memory.Renaming
import Interleave.Proofs.Memory.Ledger
import Interleave.Proofs.Machine.Robustness
import Interleave.Proofs.Machine.Run
import Interleave.Proofs.Machine.Reversal
import Interleave.Proofs.Machine.Visits
import Interleave.Proofs.Machine.Agreement
import Interleave.Proofs.Machine.Values
import Interleave.Proofs.Machine.Unbuffered
import Interleave.Proofs.Machine.Course
import Interleave.Proofs.Machine.Linearize
import Interleave.Proofs.Memory.Crossing
import Interleave.Proofs.Machine.Junction
import Interleave.Proofs.Machine.Errors
import Interleave.Proofs.Machine.Conclusion
import Interleave.Proofs.Exploration.Completeness
import Interleave.Proofs.Exploration.Observation
import Interleave.Proofs.Exploration.Transcript
import Interleave.Proofs.Exploration.Replay
import Interleave.Proofs.Exploration.Sleep
import Interleave.Proofs.Exploration.Recycling
import Interleave.Proofs.Machine.Loop
import Interleave.Proofs.Machine.Replay
import Interleave.Proofs.Machine.Immediate
import Interleave.Proofs.Memory.Sequential
import Interleave.Proofs.Machine.SingleThread
import Interleave.Proofs.Program.InRange
import Interleave.Proofs.Machine.Safety
import Interleave.Proofs.Exploration.Termination
import Interleave.Proofs.Containment
import Interleave.Proofs.Search.Chains
import Interleave.Proofs.Memory.Traversal
import Interleave.Proofs.Program.Declared
import Interleave.Proofs.Program.RoundTrip
import Interleave.Proofs.Machine.Announced
import Interleave.Proofs.Machine.Mutex
import Interleave.Proofs.Machine.Recorded
import Interleave.Proofs.Exploration.Finality
import Interleave.Proofs.Machine.LocalRun
import Interleave.Proofs.Memory.VisitingOrder
import Interleave.Proofs.Search.Advance
import Interleave.Proofs.Machine.Deadlock
