import Interleave.Machine.Basic

/-! # Thread-local instructions

An instruction that is not visible concerns only the registers and the position of its thread, so a
thread runs through such instructions without asking the scheduler (`runLocal`).  It comes to rest
when it is finished or its next instruction is visible, or it stops with an error; a thread that
does neither within the permitted number of steps has exceeded its step limit. -/

namespace Interleave

/-- How an operand is named in messages. -/
def Operand.describe (f : Function) : Operand → Except Stop String
  | reg r => do return "%" ++ (← fetch f.registers r)
  | imm v => .ok (Decimal.write v)

/-- The error of a program at a site. -/
def Site.fails {α : Type} (site : Site) (kind : ErrorKind) (message : String) : Except Stop α :=
  .error (.error ⟨kind, some site, message⟩)

namespace Thread

/-- Where thread number `t` stands in function `f`. -/
def site (th : Thread) (t : Nat) (f : Function) : Site := ⟨t, f.name, th.pc⟩

/-- Call a builtin, with what it logs. -/
def callBuiltin (s : Setup) (t : Nat) (f : Function) (th : Thread) (name : String)
    (args : List Operand) : Except Stop (List LogRecord) :=
  let site := th.site t f
  match s.registry.lookup name with
  | .ok (some b) => do
    let values ← args.mapM th.value
    match b.effect with
    | .assert =>
      if values.head?.getD 0 = 0 then
        let arg ← match args.head? with
          | some a => a.describe f
          | none => pure ""
        site.fails .assertionFailure (name ++ "(" ++ arg ++ ") failed")
      else return []
    | .abort => site.fails .abort (name ++ "() called")
    | .yield => return []
    | .print => return [.info (s!"T{t}: " ++ " ".intercalate (values.map Decimal.write))]
  | _ => site.fails .invalidOperation ("call to unknown function `" ++ name ++ "`")

/-- Execute a thread-local instruction of thread number `t`, with what it logs. -/
def execLocal (s : Setup) (t : Nat) (f : Function) (th : Thread) :
    Instr Nat → Except Stop (Thread × List LogRecord)
  | .mov d v => do
    let th' ← th.setReg d (← th.value v)
    return (th'.next, [])
  | .bin op d l r => do
    let th' ← th.setReg d (op.apply (← th.value l) (← th.value r))
    return (th'.next, [])
  | .addr d g => do
    let th' ← th.setReg d (Machine.globalAddr g).toInt64
    return (th'.next, [])
  | .assert v => do
    if (← th.value v) = 0 then
      (th.site t f).fails .assertionFailure ("assert " ++ (← v.describe f) ++ " failed")
    else return (th.next, [])
  | .jump target => return ({ th with pc := target }, [])
  | .branch c ifZero target => do
    if ((← th.value c) == 0) == ifZero then return ({ th with pc := target }, [])
    else return (th.next, [])
  | .call name args => do return (th.next, ← th.callBuiltin s t f name args)
  | .ret => return ({ th with finished := true }, [])
  | _ => return (th.next, [])

end Thread

/-- How a run through thread-local instructions ended. -/
structure LocalRun where
  thread : Thread
  log : List LogRecord
  /-- Why it did not come to rest, if it did not. -/
  stop : Option Stop
deriving DecidableEq, Repr, Inhabited

/-- Let thread number `t` execute thread-local instructions until it comes to rest, at most `steps`
of them; what it logs is put in front of `logged`, the latest first. -/
def runLocalFrom (s : Setup) (t : Nat) :
    (steps : Nat) → Thread → (logged : List LogRecord) → LocalRun
  | steps, th, logged =>
    if th.finished then ⟨th, logged.reverse, none⟩
    else match s.function th.function with
      | .error e => ⟨th, logged.reverse, some e⟩
      | .ok f =>
        match f.body[th.pc]? with
        | none => ⟨{ th with finished := true }, logged.reverse, none⟩
        | some i =>
          if i.isVisible then ⟨th, logged.reverse, none⟩
          else match steps with
            | 0 =>
              let message := s!"more than {s.maxLocalSteps} consecutive local steps"
              ⟨th, logged.reverse, some (.error ⟨.stepLimit, some (th.site t f), message⟩)⟩
            | steps + 1 =>
              match th.execLocal s t f i with
              | .error e => ⟨th, logged.reverse, some e⟩
              | .ok (th', out) => runLocalFrom s t steps th' (out.reverse ++ logged)

/-- Let thread number `t` execute thread-local instructions until it comes to rest. -/
def runLocal (s : Setup) (t : Nat) (th : Thread) : LocalRun :=
  runLocalFrom s t s.maxLocalSteps th []

/-- Let the threads of a list, numbered from `t`, come to rest one after the other; the first that
stops keeps those behind it from running. -/
def settleFrom (s : Setup) : (t : Nat) → List Thread → List Thread × List LogRecord × Option Stop
  | _, [] => ([], [], none)
  | t, th :: ths =>
    let run := runLocal s t th
    match run.stop with
    | some e => (run.thread :: ths, run.log, some e)
    | none =>
      let (ths', log, stop) := settleFrom s (t + 1) ths
      (run.thread :: ths', run.log ++ log, stop)

/-- Let every thread come to rest. -/
def Machine.settle (s : Setup) (m : Machine) : Machine × Option Stop :=
  let (threads, log, stop) := settleFrom s 0 m.threads
  ({ m with threads, log := m.log ++ log }, stop)

end Interleave
