import Interleave.Proofs.Machine.Safety

/-! # Runs through thread-local instructions

The local run of a thread is the sequence of thread-local instructions that it executes until it is finished,
leaves the body of its function, fails or stands at a visible instruction.  It need not end.  `LocalSteps`
describes its beginnings, one instruction at a time, without a limit.

A machine lets its threads run one after the other (`Machine.settle_eq_settleAll`).  With a limit of `m`
instructions such a run has one of three outcomes (`LocalOutcome`): the local run is over after at most `m`
instructions, one of the first `m` instructions fails, or there is an instruction behind the first `m`.
Exactly one of them applies, and it is what the machine does (`Machine.settleThread_exact`). -/

namespace Interleave

namespace Thread

variable {f : Function} {th th' : Thread} {i : Instr Nat}

/-- The thread is about to execute the thread-local instruction `i`. -/
structure Runs (f : Function) (th : Thread) (i : Instr Nat) : Prop where
  unfinished : th.finished = false
  instr : f.body[th.pc]? = some i
  isLocal : i.isVisible = false

/-- The thread executes nothing by itself; a thread that has left the body is finished from now on. -/
inductive Rests (f : Function) (th : Thread) : Thread → Prop
  | finished (finished : th.finished = true) : Rests f th th
  | left (unfinished : th.finished = false) (instr : f.body[th.pc]? = none) :
      Rests f th { th with finished := true }
  | visible {i : Instr Nat} (unfinished : th.finished = false) (instr : f.body[th.pc]? = some i)
      (isVisible : i.isVisible = true) : Rests f th th

theorem runs_or_rests (f : Function) (th : Thread) : (∃ i, th.Runs f i) ∨ ∃ th', th.Rests f th' := by
  cases hfin : th.finished with
  | true => exact .inr ⟨th, .finished hfin⟩
  | false =>
      cases hi : f.body[th.pc]? with
      | none => exact .inr ⟨_, .left hfin hi⟩
      | some i =>
          cases hvis : i.isVisible with
          | true => exact .inr ⟨th, .visible hfin hi hvis⟩
          | false => exact .inl ⟨i, hfin, hi, hvis⟩

end Thread

/-- Thread number `t` goes from `th` to `th'` by executing `n` thread-local instructions of `f`, which log
`log`. -/
inductive LocalSteps (s : Setup) (t : Nat) (f : Function) :
    (n : Nat) → (th : Thread) → (log : List LogRecord) → (th' : Thread) → Prop
  | refl (th : Thread) : LocalSteps s t f 0 th [] th
  | step {n : Nat} {th th₁ th' : Thread} {i : Instr Nat} {out log : List LogRecord} (runs : th.Runs f i)
      (exec : th.execLocal s t f i = .ok (th₁, out)) (rest : LocalSteps s t f n th₁ log th') :
      LocalSteps s t f (n + 1) th (out ++ log) th'

/-- The error of a thread that goes beyond the limit. -/
def stepLimit (s : Setup) (site : Site) : TraceError :=
  ⟨.stepLimit, some site, s!"more than {s.maxLocalSteps} consecutive local steps"⟩

/-- What a local run comes to within `m` instructions. -/
inductive LocalOutcome (s : Setup) (t : Nat) (f : Function) (m : Nat) (th : Thread) : LocalRun → Prop
  /-- It is over after at most `m` instructions. -/
  | rests {n : Nat} {th₁ th' : Thread} {log : List LogRecord} (le : n ≤ m)
      (steps : LocalSteps s t f n th log th₁) (rests : th₁.Rests f th') :
      LocalOutcome s t f m th ⟨th', log, none⟩
  /-- One of the first `m` instructions fails. -/
  | fails {n : Nat} {th' : Thread} {log : List LogRecord} {i : Instr Nat} {why : Stop} (lt : n < m)
      (steps : LocalSteps s t f n th log th') (runs : th'.Runs f i)
      (exec : th'.execLocal s t f i = .error why) : LocalOutcome s t f m th ⟨th', log, some why⟩
  /-- There is an instruction behind the first `m`. -/
  | exceeds {th' : Thread} {log : List LogRecord} {i : Instr Nat} (steps : LocalSteps s t f m th log th')
      (runs : th'.Runs f i) :
      LocalOutcome s t f m th ⟨th', log, some (.error (stepLimit s (th'.site t f)))⟩

section

variable {s : Setup} {t n k : Nat} {f : Function} {th th' th₁ : Thread} {i : Instr Nat}
  {log out logged : List LogRecord} {why : Stop} {r : LocalRun}

/-! ### One instruction -/

theorem runLocalFrom_of_rests (hf : s.function th.function = .ok f) (h : th.Rests f th') :
    runLocalFrom s t n th logged = ⟨th', logged.reverse, none⟩ := by
  unfold runLocalFrom
  cases h with
  | finished hfin => simp [hfin]
  | left hfin hi => simp [hfin, hf, hi]
  | visible hfin hi hvis => simp [hfin, hf, hi, hvis]

theorem runLocalFrom_of_runs (hf : s.function th.function = .ok f) (h : th.Runs f i) :
    runLocalFrom s t n th logged =
      match n with
      | 0 => ⟨th, logged.reverse, some (.error (stepLimit s (th.site t f)))⟩
      | n + 1 =>
        match th.execLocal s t f i with
        | .error why => ⟨th, logged.reverse, some why⟩
        | .ok (th', out) => runLocalFrom s t n th' (out.reverse ++ logged) := by
  rw [runLocalFrom]
  cases n with
  | zero => simp [h.unfinished, hf, h.instr, h.isLocal, stepLimit]
  | succ n =>
      cases hexec : th.execLocal s t f i with
      | error why => simp [h.unfinished, hf, h.instr, h.isLocal, hexec]
      | ok x => simp [h.unfinished, hf, h.instr, h.isLocal, hexec]

/-! ### Many instructions -/

theorem LocalSteps.regs_eq (h : LocalSteps s t f n th log th') :
    th'.function = th.function ∧ th'.regs.length = th.regs.length := by
  induction h with
  | refl th => exact ⟨rfl, rfl⟩
  | step _ hexec _ ih =>
      obtain ⟨hfunction, hregs⟩ := Thread.regs_execLocal hexec
      exact ⟨ih.1.trans hfunction, ih.2.trans hregs⟩

/-- **Each instruction of the local run uses up one step.** -/
theorem LocalSteps.runLocalFrom_eq (h : LocalSteps s t f n th log th')
    (hf : s.function th.function = .ok f) (k : Nat) (logged : List LogRecord) :
    runLocalFrom s t (n + k) th logged = runLocalFrom s t k th' (log.reverse ++ logged) := by
  induction h generalizing logged with
  | refl th => simp
  | @step n th th₁ th' i out log hruns hexec _ ih =>
      have hf₁ : s.function th₁.function = .ok f := by rw [(Thread.regs_execLocal hexec).1, hf]
      rw [Nat.add_right_comm, runLocalFrom_of_runs hf hruns]
      simp only [hexec]
      rw [ih hf₁, List.reverse_append, List.append_assoc]

/-- **Every outcome is the result of the run.** -/
theorem LocalOutcome.runLocalFrom_eq {m : Nat} (h : LocalOutcome s t f m th r)
    (hf : s.function th.function = .ok f) : runLocalFrom s t m th [] = r := by
  cases h with
  | @rests n th₁ th' log hle hsteps hrests =>
      have hf₁ : s.function th₁.function = .ok f := by rw [hsteps.regs_eq.1, hf]
      obtain ⟨k, rfl⟩ := Nat.exists_eq_add_of_le hle
      rw [hsteps.runLocalFrom_eq hf, runLocalFrom_of_rests hf₁ hrests]
      simp
  | @fails n th' log i why hlt hsteps hruns hexec =>
      have hf₁ : s.function th'.function = .ok f := by rw [hsteps.regs_eq.1, hf]
      obtain ⟨k, rfl⟩ := Nat.exists_eq_add_of_lt hlt
      rw [Nat.add_assoc, hsteps.runLocalFrom_eq hf, runLocalFrom_of_runs hf₁ hruns]
      simp [hexec]
  | @exceeds th' log i hsteps hruns =>
      have hf₁ : s.function th'.function = .ok f := by rw [hsteps.regs_eq.1, hf]
      have hrun := hsteps.runLocalFrom_eq hf 0 []
      rw [Nat.add_zero] at hrun
      rw [hrun, runLocalFrom_of_runs hf₁ hruns]
      simp

/-- **Every local run has an outcome**, also one that does not end. -/
theorem exists_localOutcome (s : Setup) (t : Nat) (f : Function) (m : Nat) (th : Thread) :
    ∃ r, LocalOutcome s t f m th r := by
  induction m generalizing th with
  | zero =>
      rcases th.runs_or_rests f with ⟨i, hruns⟩ | ⟨th', hrests⟩
      · exact ⟨_, .exceeds (.refl th) hruns⟩
      · exact ⟨_, .rests (Nat.le_refl 0) (.refl th) hrests⟩
  | succ m ih =>
      rcases th.runs_or_rests f with ⟨i, hruns⟩ | ⟨th', hrests⟩
      · cases hexec : th.execLocal s t f i with
        | error why => exact ⟨_, .fails (Nat.succ_pos m) (.refl th) hruns hexec⟩
        | ok x =>
            obtain ⟨th₁, out⟩ := x
            obtain ⟨r, hr⟩ := ih th₁
            cases hr with
            | rests hle hsteps hrests =>
                exact ⟨_, .rests (Nat.succ_le_succ hle) (.step hruns hexec hsteps) hrests⟩
            | fails hlt hsteps hruns' hexec' =>
                exact ⟨_, .fails (Nat.succ_lt_succ hlt) (.step hruns hexec hsteps) hruns' hexec'⟩
            | exceeds hsteps hruns' => exact ⟨_, .exceeds (.step hruns hexec hsteps) hruns'⟩
      · exact ⟨_, .rests (Nat.zero_le _) (.refl th) hrests⟩

theorem localOutcome_iff (hf : s.function th.function = .ok f) :
    LocalOutcome s t f s.maxLocalSteps th r ↔ runLocal s t th = r := by
  constructor
  · exact fun h => h.runLocalFrom_eq hf
  · rintro rfl
    obtain ⟨r, hr⟩ := exists_localOutcome s t f s.maxLocalSteps th
    rw [runLocal, hr.runLocalFrom_eq hf]
    exact hr

theorem thread_runLocal (s : Setup) (t : Nat) (th : Thread) :
    ∃ pc regs finished, (runLocal s t th).thread = { th with pc, regs, finished } := by
  refine ⟨(runLocal s t th).thread.pc, (runLocal s t th).thread.regs,
    (runLocal s t th).thread.finished, ?_⟩
  rw [← (regs_runLocal s t th).1, ← buffer_runLocal s t th]

end

namespace Machine

variable {s : Setup} {m : Machine} {t : Nat} {th : Thread} {f : Function}

/-! ### One thread of a machine -/

/-- Let thread number `t` of the machine come to rest. -/
def settleThread (s : Setup) (m : Machine) (t : Nat) : Machine × Option Stop :=
  match m.thread t with
  | .error why => (m, some why)
  | .ok th =>
    let run := runLocal s t th
    ({ m.setThread t run.thread with log := m.log ++ run.log }, run.stop)

/-- Let the threads of a list come to rest one after the other, until one of them stops. -/
def settleAll (s : Setup) : List Nat → Machine → Machine × Option Stop
  | [], m => (m, none)
  | t :: ts, m =>
    match m.settleThread s t with
    | (m, some why) => (m, some why)
    | (m, none) => settleAll s ts m

theorem settleThread_eq (hth : m.threads[t]? = some th) : m.settleThread s t =
    ({ m.setThread t (runLocal s t th).thread with log := m.log ++ (runLocal s t th).log },
      (runLocal s t th).stop) := by
  rw [settleThread, thread_of_getElem? hth]

theorem settleAll_eq (s : Setup) (m : Machine) (before ths : List Thread) :
    settleAll s (List.range' before.length ths.length) { m with threads := before ++ ths } =
      ({ m with
        threads := before ++ (settleFrom s before.length ths).1
        log := m.log ++ (settleFrom s before.length ths).2.1 },
        (settleFrom s before.length ths).2.2) := by
  induction ths generalizing m before with
  | nil => simp [settleAll, settleFrom]
  | cons th ths ih =>
      have hth : (before ++ th :: ths)[before.length]? = some th := by simp
      rw [List.length_cons, List.range'_succ, settleAll, settleThread_eq hth, settleFrom]
      cases hstop : (runLocal s before.length th).stop with
      | some why => simp [setThread]
      | none =>
          have hrest := ih { m with log := m.log ++ (runLocal s before.length th).log }
            (before ++ [(runLocal s before.length th).thread])
          simpa [setThread] using hrest

/-- **A machine comes to rest thread by thread**, in the order of their numbers. -/
theorem settle_eq_settleAll (s : Setup) (m : Machine) :
    m.settle s = settleAll s (List.range m.threads.length) m := by
  have hall := settleAll_eq s m [] m.threads
  rw [List.length_nil, ← List.range_eq_range'] at hall
  exact hall.symm

theorem settleThread_of_settleThread (hth : m.threads[t]? = some th)
    (h : (m.settleThread s t).2 = none) :
    (m.settleThread s t).1.settleThread s t = ((m.settleThread s t).1, none) := by
  rw [settleThread_eq hth] at h ⊢
  have hrest := Thread.atRest_runLocal h
  have hlt := (List.getElem?_eq_some_iff.mp hth).1
  have hbehind : { m.setThread t (runLocal s t th).thread with
      log := m.log ++ (runLocal s t th).log }.threads[t]? = some (runLocal s t th).thread := by
    simp [setThread, hlt]
  rw [settleThread_eq hbehind, hrest.runLocal_eq]
  simp [setThread]

/-- No thread that fits its function makes the engine break down while it runs by itself. -/
theorem settleThread_ne_fault (hs : s.program.InRange) (hth : m.threads[t]? = some th)
    (hf : s.function th.function = .ok f) (hregs : th.regs.length = f.registers.length) (x : Fault) :
    (m.settleThread s t).2 ≠ some (.fault x) := by
  rw [settleThread_eq hth]
  intro hstop
  have houtcome := (localOutcome_iff (t := t) hf).mpr rfl
  generalize runLocal s t th = r at hstop houtcome
  cases houtcome with
  | rests => cases hstop
  | @fails n th' log i why hlt hsteps hruns hexec =>
      obtain ⟨hfunction, hlength⟩ := hsteps.regs_eq
      rw [show why = .fault x from Option.some.inj hstop] at hexec
      exact Thread.execLocal_ne_fault hs (by rw [hfunction, hf])
        (List.mem_of_getElem? hruns.instr) (hlength.trans hregs) x hexec
  | exceeds => cases hstop

/-- **Local execution is exactly bounded and private.**  For a thread of a machine and the function that it
runs: its local run has exactly one outcome within the limit, and this is what happens when the machine lets
the thread come to rest.  If all indices of the program exist and the thread has the registers of its
function, the engine does not break down in doing so.  In every case at most the position, the registers and
the mark of the thread that it is finished have changed, apart from what is logged; and once the thread has
come to rest, doing it again changes nothing. -/
theorem settleThread_exact (s : Setup) (m : Machine) (hth : m.threads[t]? = some th)
    (hf : s.function th.function = .ok f) :
    (∃! r, LocalOutcome s t f s.maxLocalSteps th r) ∧
    (∀ r, LocalOutcome s t f s.maxLocalSteps th r →
      m.settleThread s t = ({ m.setThread t r.thread with log := m.log ++ r.log }, r.stop)) ∧
    (∀ source, Program.read source = .ok s.program → th.regs.length = f.registers.length →
      ∀ x, (m.settleThread s t).2 ≠ some (.fault x)) ∧
    (∃ pc regs finished log, (m.settleThread s t).1 =
      { m.setThread t { th with pc, regs, finished } with log := m.log ++ log }) ∧
    ((m.settleThread s t).2 = none →
      (m.settleThread s t).1.settleThread s t = ((m.settleThread s t).1, none)) := by
  have houtcome : ∀ r, LocalOutcome s t f s.maxLocalSteps th r ↔ runLocal s t th = r :=
    fun r => localOutcome_iff hf
  refine ⟨⟨runLocal s t th, (houtcome _).mpr rfl, fun r hr => ((houtcome r).mp hr).symm⟩, ?_, ?_, ?_,
    settleThread_of_settleThread hth⟩
  · intro r hr
    rw [settleThread_eq hth, (houtcome r).mp hr]
  · intro source hread hregs
    exact settleThread_ne_fault (Program.inRange_read hread) hth hf hregs
  · obtain ⟨pc, regs, finished, hsame⟩ := thread_runLocal s t th
    exact ⟨pc, regs, finished, (runLocal s t th).log, by rw [settleThread_eq hth, hsame]⟩

/-- A function that counts its register down to zero and returns: twice two instructions for two rounds, and
one more. -/
def countdown : Function := ⟨"main", ["n"], [.bin .sub 0 (.reg 0) (.imm 1), .branch (.reg 0) false 0, .ret]⟩

/-- The function alone, with a limit of local steps. -/
def countdownSetup (limit : Nat) : Setup := ⟨⟨"e", [], [countdown]⟩, .standard, true, limit⟩

/-- Five steps are enough for two rounds, four are not. -/
theorem settleThread_exact_countdown :
    let th : Thread := ⟨0, 0, [2], false, []⟩
    let m : Machine := ⟨[], [th], [], [], .empty, []⟩
    (∃ r, LocalOutcome (countdownSetup 5) 0 countdown 5 th r ∧ r.stop = none ∧
      m.settleThread (countdownSetup 5) 0 = ({ m with threads := [⟨0, 2, [0], true, []⟩] }, none)) ∧
    ∃ r, LocalOutcome (countdownSetup 4) 0 countdown 4 th r ∧
      r.stop = some (.error (stepLimit (countdownSetup 4) ⟨0, "main", 2⟩)) := by
  intro th m
  have hth : m.threads[0]? = some th := rfl
  obtain ⟨⟨r, hr, -⟩, houtcome, -⟩ := settleThread_exact (f := countdown) (countdownSetup 5) m hth rfl
  obtain ⟨⟨r', hr', -⟩, houtcome', -⟩ := settleThread_exact (f := countdown) (countdownSetup 4) m hth rfl
  have hrests : m.settleThread (countdownSetup 5) 0 =
      ({ m with threads := [⟨0, 2, [0], true, []⟩] }, none) := by decide +kernel
  have hexceeds : (m.settleThread (countdownSetup 4) 0).2 =
      some (.error (stepLimit (countdownSetup 4) ⟨0, "main", 2⟩)) := by decide +kernel
  refine ⟨⟨r, hr, ?_, hrests⟩, r', hr', ?_⟩
  · rw [houtcome r hr] at hrests
    exact congrArg Prod.snd hrests
  · rw [houtcome' r' hr'] at hexceeds
    exact hexceeds

end Machine

end Interleave
