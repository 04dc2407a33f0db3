import Interleave.Access
import Interleave.Text.Decimal

/-! # Execution traces

A `Trace` lists the visible operations of one execution and the errors found in it.  Errors of the
checked program are data: they are recorded on the trace and never interrupt the checker. -/

namespace Interleave

/-- A position in the checked program. -/
structure Site where
  thread : Nat
  function : String
  pc : Nat
deriving DecidableEq, Repr, Inhabited

/-- A position in reports. -/
def Site.text (s : Site) : String := s!"T{s.thread} in {s.function} at #{s.pc}"

/-- The kinds of error that an execution can show. -/
inductive ErrorKind where
  | assertionFailure
  | invalidMemoryAccess
  | abort
  /-- An operation misused by the program, like joining a thread that does not exist. -/
  | invalidOperation
  | deadlock
  | stepLimit
  /-- The execution cannot be explained under sequential consistency. -/
  | robustnessViolation
  /-- A fault of the engine, caught while it was executing the program. -/
  | hostFault
deriving DecidableEq, Repr, Inhabited

namespace ErrorKind

/-- The words for a kind of error. -/
def text : ErrorKind → String
  | assertionFailure => "assertion failure"
  | invalidMemoryAccess => "invalid memory access"
  | abort => "abort"
  | invalidOperation => "invalid operation"
  | deadlock => "deadlock"
  | stepLimit => "step limit exceeded"
  | robustnessViolation => "robustness violation"
  | hostFault => "host fault"

/-- Whether the error was found after the end of an execution that went well. -/
def isRobustness (k : ErrorKind) : Bool := k == robustnessViolation

end ErrorKind

/-- An error found in an execution. -/
structure TraceError where
  kind : ErrorKind
  site : Option Site
  message : String
deriving DecidableEq, Repr, Inhabited

/-- An error in reports. -/
def TraceError.text (e : TraceError) : String :=
  match e.site with
  | none => e.kind.text ++ ": " ++ e.message
  | some s => e.kind.text ++ " (" ++ s.text ++ "): " ++ e.message

/-- What a visible operation did. -/
inductive EventKind where
  | load (addr : Addr) (value : Int64) (fromBuffer : Bool)
  /-- A store reaching memory. -/
  | store (addr : Addr) (value : Int64)
  /-- A store entering the store buffer. -/
  | enqueue (addr : Addr) (value : Int64)
  | fence
  | spawn (child : Nat)
  | join (child : Nat)
  | lock (addr : Addr)
  | unlock (addr : Addr)
deriving DecidableEq, Repr, Inhabited

/-- An operation in reports. -/
def EventKind.text : EventKind → String
  | load a v fromBuffer =>
    s!"load #{a} = " ++ Decimal.write v ++ (if fromBuffer then " (buffer)" else "")
  | store a v => s!"store #{a} := " ++ Decimal.write v
  | enqueue a v => s!"buffer #{a} := " ++ Decimal.write v
  | fence => "fence"
  | spawn t => s!"spawn T{t}"
  | join t => s!"join T{t}"
  | lock a => s!"lock #{a}"
  | unlock a => s!"unlock #{a}"

/-- A visible operation performed by a process. -/
structure Event where
  proc : Proc
  site : Site
  kind : EventKind
deriving DecidableEq, Repr, Inhabited

/-- An event as one line: the process is set flush right in eight columns. -/
def Event.text (e : Event) : String :=
  let name := e.proc.text
  String.ofList (List.replicate (8 - name.length) ' ') ++ name ++ "  " ++ e.kind.text
    ++ s!"  [{e.site.function}#{e.site.pc}]"

/-- The events of one execution and the errors detected in it.  An empty trace also stands for a
trace that was not asked for. -/
structure Trace where
  events : List Event
  errors : List TraceError
deriving DecidableEq, Repr, Inhabited

namespace Trace

/-- The trace of nothing. -/
def empty : Trace := ⟨[], []⟩

/-- The trace of which only one error is known. -/
def ofError (e : TraceError) : Trace := ⟨[], [e]⟩

/-- Whether the execution had an error. -/
def hasErrors (t : Trace) : Bool := !t.errors.isEmpty

/-- Whether nothing is recorded. -/
def isEmpty (t : Trace) : Bool := t.events.isEmpty && t.errors.isEmpty

/-- An error other than a robustness violation stopped the execution before its end. -/
def wasCutShort (t : Trace) : Bool := t.errors.any fun e => !e.kind.isRobustness

/-- A trace as lines, events first. -/
def text (t : Trace) : String :=
  String.join (t.events.map fun e => e.text ++ "\n")
    ++ String.join (t.errors.map fun e => "Error: " ++ e.text ++ "\n")

@[simp] theorem hasErrors_empty : empty.hasErrors = false := rfl

@[simp] theorem hasErrors_ofError (e : TraceError) : (ofError e).hasErrors = true := rfl

theorem hasErrors_of_wasCutShort {t : Trace} (h : t.wasCutShort = true) : t.hasErrors = true := by
  cases t with
  | mk events errors => cases errors <;> simp_all [wasCutShort, hasErrors]

end Trace

end Interleave
