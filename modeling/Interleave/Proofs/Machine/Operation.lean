import Interleave.Machine.Step
import Interleave.Proofs.Result

/-! # Operations

The operation of a visible instruction is the instruction with the operands evaluated on which it
depends what the thread announces.  A thread announces an instruction and executes it by matches of
their own (`Machine.accessOf`, `Machine.execVisible`).  The two agree on the operation: what is announced
is read off the operation (`Machine.accessOf_eq`), and what is done is what the same operation does
(`Machine.execVisible_eq`). -/

namespace Interleave

/-- A visible instruction at an evaluated address, or with the evaluated number of a thread. -/
inductive Operation where
  | load (dst : Reg) (addr : Addr)
  | store (addr : Addr) (value : Operand)
  | fence
  | spawn (dst : Reg) (function : Nat)
  | join (thread : Int64)
  | lock (addr : Addr)
  | unlock (addr : Addr)
deriving DecidableEq, Repr, Inhabited

namespace Thread

/-- The operation of an instruction, if it is visible. -/
def operation (th : Thread) : Instr Nat → Except Stop (Option Operation)
  | .load d l => do return some (.load d (← th.address l))
  | .store l x => do return some (.store (← th.address l) x)
  | .fence => .ok (some .fence)
  | .spawn d f => .ok (some (.spawn d f))
  | .join x => do return some (.join (← th.value x))
  | .lock l => do return some (.lock (← th.address l))
  | .unlock l => do return some (.unlock (← th.address l))
  | _ => .ok none

theorem of_operation (th : Thread) {i : Instr Nat} {op : Operation}
    (h : th.operation i = .ok (some op)) :
    match op with
    | .load d _ => ∃ l, i = .load d l
    | .store _ x => ∃ l, i = .store l x
    | .fence => i = .fence
    | .spawn d f => i = .spawn d f
    | .join _ => ∃ x, i = .join x
    | .lock _ => ∃ l, i = .lock l
    | .unlock _ => ∃ l, i = .unlock l := by
  cases i with
  | load | store | join | lock | unlock =>
      obtain ⟨_, -, h⟩ := exists_of_bind h
      cases h
      exact ⟨_, rfl⟩
  | fence | spawn =>
      cases h
      rfl
  | _ => cases h

end Thread

namespace Machine

variable (s : Setup) (m : Machine) (t : Nat) (th : Thread) (site : Site)

/-! ### What is announced -/

/-- The access by which thread number `t` announces an operation, unless it has to wait for other
threads. -/
def announce : Operation → Option Access
  | .load _ a => some (.read a)
  | .store a _ => some (if s.buffered then .enqueue a else .write a)
  | .fence => some .fence
  | .spawn _ _ => some (.spawn m.threads.length)
  | .join v =>
    match m.joinee? t v with
    | some c => if (m.threads[c]?.map Thread.isDone).getD false then some (.join c) else none
    | none => some .fence
  | .lock a =>
    match m.cell? a with
    | some cell => if m.read cell = 0 then some (.lock a) else none
    | none => some (.lock a)
  | .unlock a => some (.unlock a)

/-- **An instruction is announced by its operation.** -/
theorem accessOf_eq (i : Instr Nat) :
    m.accessOf s t th i = (th.operation i).map fun op? => op?.bind (m.announce s t) := by
  cases i with
  | join x =>
      simp only [accessOf, Thread.operation]
      cases th.value x with
      | error why => rfl
      | ok v =>
          simp only [ok_bind, pure_eq_ok, Except.map, Option.bind_some, announce]
          cases m.joinee? t v <;> rfl
  | lock l =>
      simp only [accessOf, Thread.operation]
      cases th.address l with
      | error why => rfl
      | ok a =>
          simp only [ok_bind, pure_eq_ok, Except.map, Option.bind_some, announce]
          cases m.cell? a <;> rfl
  | load d l | store l x | unlock l =>
      simp only [accessOf, Thread.operation]
      cases th.address l <;> rfl
  | _ => rfl

/-! ### What is done -/

/-- Perform an operation of thread number `t`, which is `th` and stands at `site`. -/
def perform : Operation → Except Stop (Machine × EventKind)
  | .load d a => do
    let cell ← m.cellAt site "load from" a
    match th.forwarded a with
    | some b =>
      let th' ← th.setReg d b.value
      return ({ m.setThread t th' with graph := m.graph.read t a (some b.node) },
        .load a b.value true)
    | none =>
      let th' ← th.setReg d (m.read cell)
      return ({ m.setThread t th' with graph := m.graph.read t a none },
        .load a (m.read cell) false)
  | .store a x => do
    let cell ← m.cellAt site "store to" a
    let v ← th.value x
    let node := m.graph.nodes.length
    let graph := m.graph.write t a
    if s.buffered then
      let th' := { th with buffer := th.buffer ++ [⟨a, v, node, site⟩] }
      return ({ m.setThread t th' with graph }, .enqueue a v)
    else
      return ({ m.write cell v with graph := graph.commit node }, .store a v)
  | .fence => return (m, .fence)
  | .spawn d f => do
    let child := m.threads.length
    let new ← Thread.start s f
    let th' ← th.setReg d (Int64.ofNat child)
    return ({ m with threads := m.threads.set t th' ++ [new] }, .spawn child)
  | .join v =>
    match m.joinee? t v with
    | some c => return (m, .join c)
    | none => site.fails .invalidOperation ("join of invalid thread " ++ Decimal.write v)
  | .lock a => do
    let cell ← m.cellAt site "lock at" a
    return ({ m.write cell 1 with graph := m.graph.update t a }, .lock a)
  | .unlock a => do
    let cell ← m.cellAt site "unlock at" a
    if m.read cell = 0 then
      site.fails .invalidOperation s!"unlock of mutex #{a} that is not locked"
    else
      return ({ m.write cell 0 with graph := m.graph.update t a }, .unlock a)

/-- **An instruction is executed by performing its operation.** -/
theorem execVisible_eq (i : Instr Nat) :
    m.execVisible s t th site i = th.operation i >>= fun op? =>
      op?.elim (site.fails .invalidOperation "not a scheduling point") (m.perform s t th site) := by
  cases i with
  | load d l | store l x | lock l | unlock l =>
      simp only [execVisible, Thread.operation]
      cases th.address l <;> rfl
  | join x =>
      simp only [execVisible, Thread.operation]
      cases th.value x <;> rfl
  | _ => rfl

end Machine

end Interleave
