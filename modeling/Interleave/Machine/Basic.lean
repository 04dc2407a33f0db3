import Interleave.Fault
import Interleave.Log
import Interleave.Memory.Graph
import Interleave.Program.Builtin

/-! # The machine

The machine executes a program: it has one memory cell per global and any number of threads, each
running one function with registers of its own.  The cells are addressed from one, so that the
address of global `g` is `g + 1`, and zero is the address of nothing.

In a `Setup` with `buffered` stores, a store first enters the buffer of its thread and reaches
memory when it is flushed; otherwise it reaches memory at once. -/

namespace Interleave

/-- What stays fixed during an execution. -/
structure Setup where
  program : Program
  registry : Registry
  /-- Stores pass through a buffer per thread. -/
  buffered : Bool
  maxLocalSteps : Nat
deriving DecidableEq, Repr, Inhabited

/-- A store that waits in a buffer. -/
structure Pending where
  addr : Addr
  value : Int64
  /-- Its node of the memory graph. -/
  node : Nat
  /-- Where it was issued. -/
  site : Site
deriving DecidableEq, Repr, Inhabited

/-- A thread of the checked program. -/
structure Thread where
  /-- Index of the function it runs. -/
  function : Nat
  pc : Nat
  regs : List Int64
  finished : Bool
  /-- Its stores that have not reached memory, oldest first. -/
  buffer : List Pending
deriving DecidableEq, Repr, Inhabited

/-- The state of an execution. -/
structure Machine where
  memory : List Int64
  threads : List Thread
  /-- The visible operations performed so far. -/
  events : List Event
  errors : List TraceError
  graph : Memory.Graph
  /-- What the program printed and the scheduler remarked. -/
  log : List LogRecord
deriving DecidableEq, Repr, Inhabited

namespace Setup

/-- The function of an index. -/
def function (s : Setup) (f : Nat) : Except Stop Function := fetch s.program.functions f

end Setup

namespace Thread

/-- A thread at the start of function `f`; its registers hold zero. -/
def start (s : Setup) (f : Nat) : Except Stop Thread := do
  let fn ← s.function f
  return ⟨f, 0, List.replicate fn.registers.length 0, false, []⟩

/-- Value of a register. -/
def reg (th : Thread) (r : Reg) : Except Stop Int64 := fetch th.regs r

/-- Put a value into a register. -/
def setReg (th : Thread) (r : Reg) (v : Int64) : Except Stop Thread :=
  if r < th.regs.length then .ok { th with regs := th.regs.set r v }
  else .error (.fault (.outOfBounds r th.regs.length))

/-- Value of an operand. -/
def value (th : Thread) : Operand → Except Stop Int64
  | .reg r => th.reg r
  | .imm v => .ok v

/-- Go on to the next instruction. -/
def next (th : Thread) : Thread := { th with pc := th.pc + 1 }

/-- Nothing is left to do, neither in the function nor in the buffer. -/
def isDone (th : Thread) : Bool := th.finished && th.buffer.isEmpty

/-- The newest buffered store to an address. -/
def forwarded (th : Thread) (a : Addr) : Option Pending :=
  th.buffer.reverse.find? fun b => b.addr == a

end Thread

namespace Machine

/-- Address of a global. -/
def globalAddr (g : Nat) : Addr := UInt64.ofNat (g + 1)

/-- The machine at the start of an execution that begins in function `entry`. -/
def start (s : Setup) (entry : Nat) : Except Stop Machine := do
  return ⟨s.program.globals.map Global.init, [← Thread.start s entry], [], [], .empty, []⟩

/-- The memory cell of an address, if it has one. -/
def cell? (m : Machine) (a : Addr) : Option Nat :=
  if 0 < a.toNat ∧ a.toNat ≤ m.memory.length then some (a.toNat - 1) else none

/-- The value in a cell. -/
def read (m : Machine) (cell : Nat) : Int64 := m.memory.getD cell 0

/-- Put a value into a cell. -/
def write (m : Machine) (cell : Nat) (v : Int64) : Machine :=
  { m with memory := m.memory.set cell v }

/-- The thread of a number. -/
def thread (m : Machine) (t : Nat) : Except Stop Thread := fetch m.threads t

/-- Replace the thread of a number. -/
def setThread (m : Machine) (t : Nat) (th : Thread) : Machine :=
  { m with threads := m.threads.set t th }

/-- The other thread whose number is the given value, if there is one. -/
def joinee? (m : Machine) (t : Nat) (v : Int64) : Option Nat :=
  let c := v.toInt.toNat
  if 0 ≤ v.toInt ∧ c < m.threads.length ∧ c ≠ t then some c else none

/-- Every thread has come to its end. -/
def isDone (m : Machine) : Bool := m.threads.all Thread.isDone

end Machine

end Interleave
