import Interleave.Machine.Local

/-! # Visible operations

A thread at rest stands before a visible instruction.  What it announces there, so that a scheduler can
choose (`candidates`), and what it does when it is chosen (`step`) are read off the instruction
separately.

A thread is not offered while it has to wait: for a mutex to be free, for a joined thread to end,
or, before an operation that drains the buffer, for its own stores to reach memory. -/

namespace Interleave

/-- Address of a memory operand; it need not have a cell. -/
def Thread.address (th : Thread) : Location → Except Stop Addr
  | .global g => .ok (Machine.globalAddr g)
  | .indirect r => do return (← th.reg r).toUInt64

namespace Machine

/-! ### What is offered -/

/-- The access by which thread number `t`, which is `th`, announces an instruction, unless it has to
wait for other threads.  A join that names no other thread is announced as a fence; performing it is an
error. -/
def accessOf (s : Setup) (m : Machine) (t : Nat) (th : Thread) :
    Instr Nat → Except Stop (Option Access)
  | .load _ l => do return some (.read (← th.address l))
  | .store l _ => do
    let a ← th.address l
    return some (if s.buffered then .enqueue a else .write a)
  | .fence => return some .fence
  | .spawn _ _ => return some (.spawn m.threads.length)
  | .join v => do
    match m.joinee? t (← th.value v) with
    | some c => return if (m.threads[c]?.map Thread.isDone).getD false then some (.join c) else none
    | none => return some .fence
  | .lock l => do
    let a ← th.address l
    match m.cell? a with
    | some cell => return if m.read cell = 0 then some (.lock a) else none
    | none => return some (.lock a)
  | .unlock l => do return some (.unlock (← th.address l))
  | _ => return none

/-- What thread number `t` can do next. -/
def offer (s : Setup) (m : Machine) (t : Nat) (th : Thread) : Except Stop (Option Candidate) := do
  if th.finished then return none
  let f ← s.function th.function
  match f.body[th.pc]? with
  | none => return none
  | some i =>
    match ← m.accessOf s t th i with
    | none => return none
    | some a =>
      if s.buffered && a.drains && !th.buffer.isEmpty then return none
      else return some ⟨.thread t, a⟩

/-- The flushes that can be performed next: one for each buffer that is not empty. -/
def flushes (m : Machine) : List Candidate :=
  m.threads.zipIdx.filterMap fun (th, t) => th.buffer.head?.map fun b => ⟨.flush t, .write b.addr⟩

/-- Everything that can be done next: the threads in order, then the flushes in order. -/
def candidates (s : Setup) (m : Machine) : Except Stop (List Candidate) := do
  let offers ← m.threads.zipIdx.mapM fun (th, t) => m.offer s t th
  return offers.filterMap id ++ m.flushes

/-! ### What is done -/

/-- The cell of an address that thread number `t` uses at a site. -/
def cellAt (m : Machine) (site : Site) (what : String) (a : Addr) : Except Stop Nat :=
  match m.cell? a with
  | some cell => .ok cell
  | none =>
    site.fails .invalidMemoryAccess (what ++ " invalid address " ++ Decimal.write a.toInt64)

/-- Execute a visible instruction of thread number `t`, which is `th` and stands at `site`. -/
def execVisible (s : Setup) (m : Machine) (t : Nat) (th : Thread) (site : Site) :
    Instr Nat → Except Stop (Machine × EventKind)
  | .load d l => do
    let a ← th.address l
    let cell ← m.cellAt site "load from" a
    match th.forwarded a with
    | some b =>
      let th' ← th.setReg d b.value
      return ({ m.setThread t th' with graph := m.graph.read t a (some b.node) },
        .load a b.value true)
    | none =>
      let th' ← th.setReg d (m.read cell)
      return ({ m.setThread t th' with graph := m.graph.read t a none },
        .load a (m.read cell) false)
  | .store l x => do
    let a ← th.address l
    let cell ← m.cellAt site "store to" a
    let v ← th.value x
    let node := m.graph.nodes.length
    let graph := m.graph.write t a
    if s.buffered then
      let th' := { th with buffer := th.buffer ++ [⟨a, v, node, site⟩] }
      return ({ m.setThread t th' with graph }, .enqueue a v)
    else
      return ({ m.write cell v with graph := graph.commit node }, .store a v)
  | .fence => return (m, .fence)
  | .spawn d f => do
    let child := m.threads.length
    let new ← Thread.start s f
    let th' ← th.setReg d (Int64.ofNat child)
    return ({ m with threads := m.threads.set t th' ++ [new] }, .spawn child)
  | .join x => do
    let v ← th.value x
    match m.joinee? t v with
    | some c => return (m, .join c)
    | none => site.fails .invalidOperation ("join of invalid thread " ++ Decimal.write v)
  | .lock l => do
    let a ← th.address l
    let cell ← m.cellAt site "lock at" a
    return ({ m.write cell 1 with graph := m.graph.update t a }, .lock a)
  | .unlock l => do
    let a ← th.address l
    let cell ← m.cellAt site "unlock at" a
    if m.read cell = 0 then
      site.fails .invalidOperation s!"unlock of mutex #{a} that is not locked"
    else
      return ({ m.write cell 0 with graph := m.graph.update t a }, .unlock a)
  | _ => site.fails .invalidOperation "not a scheduling point"

/-- Thread number `t` executes its next instruction.  A thread past its last instruction does
nothing. -/
def stepThread (s : Setup) (m : Machine) (t : Nat) : Except Stop Machine := do
  let th ← m.thread t
  let f ← s.function th.function
  let site := th.site t f
  match f.body[th.pc]? with
  | none => return m
  | some i =>
    let (m', kind) ← m.execVisible s t th site i
    return { m' with
      threads := m'.threads.modify t Thread.next
      events := m'.events ++ [⟨.thread t, site, kind⟩] }

/-- The oldest buffered store of thread number `t` reaches memory.  An empty buffer is left as it
is. -/
def stepFlush (m : Machine) (t : Nat) : Except Stop Machine := do
  let th ← m.thread t
  match th.buffer with
  | [] => return m
  | b :: rest =>
    let m' := m.setThread t { th with buffer := rest }
    let m' := match m.cell? b.addr with
      | some cell => m'.write cell b.value
      | none => m'
    return { m' with
      graph := m.graph.commit b.node
      events := m.events ++ [⟨.flush t, b.site, .store b.addr b.value⟩] }

/-- A process takes its step, whether it was offered or not. -/
def step (s : Setup) (m : Machine) : Proc → Except Stop Machine
  | .thread t => m.stepThread s t
  | .flush t => m.stepFlush t

/-- The error of a state in which nothing can be done though not everything is done. -/
def deadlock (s : Setup) (m : Machine) : Except Stop TraceError := do
  let waiting := m.threads.zipIdx.filter fun (th, _) => !th.finished
  let sites ← waiting.mapM fun (th, t) => do return (th.site t (← s.function th.function)).text
  return ⟨.deadlock, none, "no thread can proceed: " ++ ", ".intercalate sites⟩

end Machine

end Interleave
