import Interleave.Exploration.Checker
import Interleave.Proofs.Machine.Conclusion

/-! # The reduction loses no behaviour

A checker explores the executions of its program with the reduction.  `Checker.executions` lists them,
each by its trace and whether it was redundant; the result of the checker is what these add up to
(`Checker.Starts.result_run`).  Without the reduction an execution is led through any of its
candidates by a script.

If the scheduling points of the program are in order and its executions are finite, then the
executions that are not redundant show the same behaviours as all executions
(`Checker.run_complete`).  Three programs lose an error: one unlocks a mutex that it does not hold
(`Checker.run_loses_unheld`), one has a thread wait for a mutex while the holder waits for something
else (`Checker.run_loses_held`), and one has a thread store twice and then load
(`Checker.run_loses_pending`). -/

namespace Interleave

/-! ### Executions of an exploration -/

namespace Exploration

variable {σ ε : Type} [Scheduler σ] [Engine ε σ]

/-- The trace that is accounted for when an execution has replied. -/
def reported? : Except Break Trace → Option Trace
  | .ok trace => some trace
  | .error (.fault f) => some (.ofError f.toError)
  | .error .outOfFuel => none

/-- Perform one execution that is not yet accounted for. -/
def attempt (x : Exploration σ ε) (g : Progress σ) : Option (Progress σ × Trace) :=
  match x.refresh g with
  | .error _ => none
  | .ok session =>
    match x.create session.program x.config g.scheduler with
    | .error _ => none
    | .ok engine =>
      let (reply, engine) := (Engine.execute x.config : Call ε Trace).run engine
      (reported? reply).map fun trace =>
        ({ g with session, scheduler := Engine.scheduler engine, log := g.log ++ Engine.log engine },
          trace)

/-- The scheduler when an execution has been accounted for. -/
def concluded (q : σ) (trace : Trace) : σ :=
  Scheduler.endExecution (if trace.wasCutShort then Scheduler.executionFailed q else q)

/-- The executions that are performed, at most `fuel` of them: the trace of each, and whether it was
redundant. -/
def executions (x : Exploration σ ε) : (fuel : Nat) → Progress σ → List (Trace × Bool)
  | 0, _ => []
  | fuel + 1, g =>
    match x.attempt g with
    | none => []
    | some (g, trace) =>
      (trace, Scheduler.wasRedundant (concluded g.scheduler trace)) ::
        match x.account g trace with
        | (.continues, g) => executions x fuel g
        | _ => []

variable (x : Exploration σ ε) (g : Progress σ)

omit [Engine ε σ] in
theorem result_account (trace : Trace) :
    (x.account g trace).2.result = g.result.add x.config.collectTraces trace
      (Scheduler.wasRedundant (concluded g.scheduler trace)) := by
  unfold account concluded
  simp only
  split <;> rfl

omit [Engine ε σ] in
theorem account_eq (hall : x.config.exploreAll = true) (trace : Trace) :
    ∃ g', x.account g trace =
        (if (Scheduler.advance (concluded g.scheduler trace)).1 then .continues else .finished, g') ∧
      g'.scheduler = (Scheduler.advance (concluded g.scheduler trace)).2 ∧
      g'.session = g.session := by
  simp only [account, hall, Bool.not_true, Bool.and_false, Bool.false_eq_true, if_false]
  exact ⟨_, rfl, rfl, rfl⟩

omit [Scheduler σ] in
variable {x g} in
/-- An execution is one of the engine that is created for the session. -/
theorem exists_of_attempt {g' : Progress σ} {trace : Trace} (h : x.attempt g = some (g', trace)) :
    ∃ session engine y, x.refresh g = .ok session ∧
      x.create session.program x.config g.scheduler = .ok engine ∧
      (Engine.execute x.config : Call ε Trace).run engine = y ∧ reported? y.1 = some trace ∧
      g' = { g with session, scheduler := Engine.scheduler y.2, log := g.log ++ Engine.log y.2 } := by
  unfold attempt at h
  cases hsession : x.refresh g with
  | error f => simp [hsession] at h
  | ok session =>
      simp only [hsession] at h
      cases hengine : x.create session.program x.config g.scheduler with
      | error f => simp [hengine] at h
      | ok engine =>
          simp only [hengine] at h
          obtain ⟨trace', hreported, heq⟩ := Option.map_eq_some_iff.mp h
          cases heq
          exact ⟨session, engine, _, rfl, hengine, rfl, hreported, rfl⟩

theorem round_of_attempt {g' : Progress σ} {trace : Trace} (h : x.attempt g = some (g', trace)) :
    x.round g = x.account g' trace ∧ g'.result = g.result := by
  obtain ⟨session, engine, ⟨reply, engine'⟩, hrefresh, hcreate, hexecute, hreported, rfl⟩ :=
    exists_of_attempt h
  refine ⟨?_, rfl⟩
  unfold round
  simp only [hrefresh, hcreate, hexecute]
  match reply, hreported with
  | .ok _, rfl => rfl
  | .error (.fault f), rfl => rfl

theorem round_of_attempt_eq_none (h : x.attempt g = none) :
    (x.round g).1 ≠ .continues ∧ (x.round g).1 ≠ .finished ∧ (x.round g).2.result = g.result := by
  unfold attempt at h
  unfold round
  cases hsession : x.refresh g with
  | error f => exact ⟨by simp, by simp, rfl⟩
  | ok session =>
      simp only [hsession] at h ⊢
      cases hengine : x.create session.program x.config g.scheduler with
      | error f => exact ⟨by simp, by simp, rfl⟩
      | ok engine =>
          simp only [hengine] at h ⊢
          generalize ExceptT.run (Engine.execute x.config) engine = y at h ⊢
          obtain ⟨reply, engine'⟩ := y
          have hreported := Option.map_eq_none_iff.mp h
          rcases reply with (f | _) | trace
          · cases hreported
          · exact ⟨by simp, by simp, rfl⟩
          · cases hreported

/-- **The result of an exploration** is what its executions add up to. -/
theorem result_rounds (fuel : Nat) :
    (x.rounds fuel g).2.result = (x.executions fuel g).foldl
      (fun r e => r.add x.config.collectTraces e.1 e.2) g.result := by
  induction fuel generalizing g with
  | zero => rfl
  | succ fuel ih =>
      rw [rounds, executions]
      cases hattempt : x.attempt g with
      | none =>
          obtain ⟨hne, -, hresult⟩ := x.round_of_attempt_eq_none g hattempt
          generalize x.round g = y at hne hresult
          obtain ⟨o, g₁⟩ := y
          cases o with
          | continues => exact absurd rfl hne
          | _ => exact hresult
      | some y =>
          obtain ⟨g₁, trace⟩ := y
          obtain ⟨hround, hg⟩ := x.round_of_attempt g hattempt
          rw [hround, List.foldl_cons, ← hg, ← result_account]
          generalize x.account g₁ trace = y
          obtain ⟨o, g₂⟩ := y
          cases o with
          | continues => exact ih g₂
          | _ => rfl

theorem explore_eq (fuel : Nat) (s : Session) (q : σ) :
    (x.explore fuel s q).1 = (x.rounds fuel ⟨s, q, .empty, 0, [opening x.config s]⟩).1 ∧
    (x.explore fuel s q).2.result =
      (x.rounds fuel ⟨s, q, .empty, 0, [opening x.config s]⟩).2.result := by
  unfold explore
  generalize x.rounds fuel ⟨s, q, .empty, 0, [opening x.config s]⟩ = y
  obtain ⟨o, g⟩ := y
  cases o <;> exact ⟨rfl, rfl⟩

theorem exists_rounds_of_explore {fuel : Nat} {s : Session} {q : σ}
    (h : (x.explore fuel s q).1 = .finished) :
    ∃ g, x.rounds fuel ⟨s, q, .empty, 0, [opening x.config s]⟩ = (.finished, g) ∧
      x.explore fuel s q = (.finished, { g with log := g.log ++ [closing g.result] }) := by
  unfold explore at h ⊢
  generalize x.rounds fuel ⟨s, q, .empty, 0, [opening x.config s]⟩ = y at h ⊢
  obtain ⟨o, g⟩ := y
  cases o with
  | finished => exact ⟨g, rfl, rfl⟩
  | _ => cases h

end Exploration

namespace Execution

variable {σ : Type} [Scheduler σ] {cfg : Config} {x x' : Execution σ}

/-- The trace is taken behind the run, and behind the search for a violation if there is one. -/
theorem execute_of_ok (hcollect : cfg.collectTraces = true) {errored : Bool}
    (h : x.run = (.ok errored, x')) :
    ∃ x'', ExceptT.run (Engine.execute cfg : Call (Execution σ) Trace) x =
        (.ok (if cfg.checkRobustness && !errored then x'.machine.checkRobustness.2
          else x'.machine).extractTrace.1, x'') ∧ x''.scheduler = x'.scheduler := by
  have hrun : Engine.run x = x.run := rfl
  have hcheck : Engine.checkRobustness x' =
      (.ok x'.machine.checkRobustness.1, { x' with machine := x'.machine.checkRobustness.2 }) := rfl
  have hextract : ∀ y : Execution σ, Engine.extractTrace y =
      (.ok y.machine.extractTrace.1, { y with machine := y.machine.extractTrace.2 }) := fun _ => rfl
  simp only [Engine.execute, hcollect, Bool.or_true, if_true, ExceptT.run, bind, ExceptT.bind,
    ExceptT.mk, StateT.bind, ExceptT.bindCont, hrun, h]
  split
  · simp only [bind, StateT.bind, ExceptT.bindCont, hcheck, hextract]
    exact ⟨_, rfl, rfl⟩
  · exact ⟨_, hextract x', rfl⟩

theorem execute_of_error {why : Break} (h : x.run = (.error why, x')) :
    ExceptT.run (Engine.execute cfg : Call (Execution σ) Trace) x = (.error why, x') := by
  have hrun : Engine.run x = x.run := rfl
  simp only [Engine.execute, ExceptT.run, bind, ExceptT.bind, ExceptT.mk, StateT.bind, hrun, h]
  rfl

/-- **The trace of an execution** is the one that is taken from the run of its machine. -/
theorem reported_execute (hcollect : cfg.collectTraces = true) {ending : Ending} {m : Machine} {q : σ}
    (h : x.machine.runLoop x.setup x.fuel x.scheduler = (ending, m, q)) :
    Exploration.reported? (ExceptT.run (Engine.execute cfg : Call (Execution σ) Trace) x).1 =
        ending.trace? cfg.checkRobustness m ∧
      Engine.scheduler (ExceptT.run (Engine.execute cfg : Call (Execution σ) Trace) x).2 = q := by
  have hended : ∀ e : Ending, e = .completed ∨ e = .refused → ending = e →
      Exploration.reported? (ExceptT.run (Engine.execute cfg : Call (Execution σ) Trace) x).1 =
          ending.trace? cfg.checkRobustness m ∧
        Engine.scheduler (ExceptT.run (Engine.execute cfg : Call (Execution σ) Trace) x).2 = q := by
    rintro e he rfl
    have hrun : x.run = (.ok (!m.errors.isEmpty), { x with machine := m, scheduler := q }) := by
      rcases he with rfl | rfl <;> simp [run, h]
    obtain ⟨x'', hexecute, hscheduler⟩ := execute_of_ok hcollect hrun
    rw [hexecute]
    refine ⟨?_, hscheduler⟩
    have hmachine : (if cfg.checkRobustness && !!m.errors.isEmpty then m.checkRobustness.2 else m) =
        if cfg.checkRobustness then m.checkRobustness.2 else m := by
      cases herrors : m.errors.isEmpty <;> simp [Machine.checkRobustness, herrors]
    rcases he with rfl | rfl <;> simp only [Exploration.reported?, Ending.trace?, hmachine] <;>
      split <;> rfl
  cases ending with
  | completed => exact hended _ (.inl rfl) rfl
  | refused => exact hended _ (.inr rfl) rfl
  | stopped why =>
      cases why with
      | error e =>
          have hrun : x.run = (.ok true,
              { x with machine := { m with errors := m.errors ++ [e] }, scheduler := q }) := by
            simp [run, h]
          obtain ⟨x'', hexecute, hscheduler⟩ := execute_of_ok hcollect hrun
          rw [hexecute]
          refine ⟨?_, hscheduler⟩
          simp [Exploration.reported?, Ending.trace?, Machine.extractTrace]
      | fault f =>
          have hrun : x.run = (.error (.fault f), { x with machine := m, scheduler := q }) := by
            simp [run, h]
          rw [execute_of_error hrun]
          exact ⟨rfl, rfl⟩
  | outOfFuel =>
      have hrun : x.run = (.error .outOfFuel, { x with machine := m, scheduler := q }) := by
        simp [run, h]
      rw [execute_of_error hrun]
      exact ⟨rfl, rfl⟩
end Execution

namespace Checker

variable {c : Checker} {m : Machine} {fuel : Nat} {σ : Type} [Scheduler σ]

/-- What stays fixed during the executions. -/
def setup (c : Checker) : Setup :=
  ⟨c.session.program, c.registry, c.config.model == .tso, c.config.maxLocalSteps⟩

/-- The exploration by the interpreter of the configured memory model. -/
def exploration (σ : Type) [Scheduler σ] (c : Checker) (fuel : Nat) : Exploration σ (Execution σ) :=
  ⟨c.registry, c.config, (⟨c.config.model, fuel⟩ : Interpreter).create c.registry⟩

/-- What stands before the first execution. -/
def beginning (c : Checker) (q : σ) : Progress σ :=
  ⟨c.session, q, .empty, 0, [Exploration.opening c.config c.session]⟩

/-- The executions that are performed with the reduction: the trace of each, and whether it was
redundant. -/
def executions (c : Checker) (fuel : Nat) : List (Trace × Bool) :=
  (c.exploration Reduction fuel).executions fuel (c.beginning (.start c.config.maxDepth))

/-- The checker holds a program text, and its executions start with the machine `m`. -/
structure Starts (c : Checker) (m : Machine) : Prop where
  model : c.config.model ≠ .pso
  interpreter : c.interpreter = none
  source : Program.build c.registry c.session.source = .ok c.session.program
  cells : c.session.program.globals.length ≤ Interpreter.maxCells
  machine : (c.session.program.find? Program.entryPoint).map (Machine.start c.setup) = some (.ok m)

omit [Scheduler σ] in
/-- The session still holds the program that the checker was made for. -/
structure Kept (c : Checker) (g : Progress σ) : Prop where
  source : g.session.source = c.session.source
  program : g.session.program = c.session.program

omit [Scheduler σ] in
/-- The program is rebuilt as it was. -/
theorem exists_refresh {ε : Type}
    (hsource : Program.build c.registry c.session.source = .ok c.session.program)
    {x : Exploration σ ε} (hx : x.registry = c.registry) {g : Progress σ} (hg : c.Kept g) :
    ∃ session, x.refresh g = .ok session ∧
      session.source = c.session.source ∧ session.program = c.session.program := by
  unfold Exploration.refresh
  split
  · rw [← hg.source, ← hx] at hsource
    exact ⟨{ g.session with program := c.session.program, generation := g.session.generation + 1 },
      congrArg (fun p => p.map fun p =>
        { g.session with program := p, generation := g.session.generation + 1 }) hsource,
      hg.source, rfl⟩
  · exact ⟨g.session, rfl, hg.source, hg.program⟩

theorem runWith_eq_explore (hmodel : c.config.model ≠ .pso) (hinterpreter : c.interpreter = none)
    (fuel : Nat) (q : σ) : c.runWith fuel q = (c.exploration σ fuel).explore fuel c.session q := by
  have hselect : c.select fuel = .ok ⟨c.config.model, fuel⟩ := by
    unfold select
    rw [hinterpreter]
    cases h : c.config.model with
    | sc => rfl
    | tso => rfl
    | pso => exact absurd h hmodel
  unfold runWith
  rw [hselect]
  rfl

theorem run_eq_runWith (hmodel : c.config.model ≠ .pso) (fuel : Nat) :
    c.run fuel = c.runWith fuel (Reduction.start c.config.maxDepth) := by
  unfold run
  cases h : c.config.model with
  | sc => rfl
  | tso => rfl
  | pso => exact absurd h hmodel

namespace Starts

theorem runWith_eq (h : c.Starts m) (fuel : Nat) (q : σ) :
    c.runWith fuel q = (c.exploration σ fuel).explore fuel c.session q :=
  runWith_eq_explore h.model h.interpreter fuel q

theorem run_eq (h : c.Starts m) (fuel : Nat) :
    c.run fuel = (c.exploration Reduction fuel).explore fuel c.session (.start c.config.maxDepth) := by
  rw [run_eq_runWith h.model, h.runWith_eq]

theorem result_run (h : c.Starts m) (fuel : Nat) :
    (c.run fuel).2.result = (c.executions fuel).foldl
      (fun r e => r.add c.config.collectTraces e.1 e.2) .empty := by
  rw [h.run_eq, (Exploration.explore_eq _ _ _ _).2, Exploration.result_rounds]
  rfl

omit [Scheduler σ] in
theorem create_eq (h : c.Starts m) (fuel : Nat) (q : σ) :
    (⟨c.config.model, fuel⟩ : Interpreter).create c.registry c.session.program c.config q =
      .ok ⟨c.setup, fuel, m, q⟩ := by
  have hmachine := h.machine
  unfold setup at hmachine
  have hcells : ¬ Interpreter.maxCells < c.session.program.globals.length := Nat.not_lt.mpr h.cells
  simp only [Interpreter.create, ne_eq, not_true_eq_false, if_false, hcells, hmachine]
  rfl

theorem attempt_of_execute (h : c.Starts m) {g : Progress σ} (hg : c.Kept g)
    {y : Except Break Trace × Execution σ}
    (hexecute : ExceptT.run (Engine.execute c.config : Call (Execution σ) Trace)
      ⟨c.setup, fuel, m, g.scheduler⟩ = y) :
    ∃ g', (c.exploration σ fuel).attempt g =
        (Exploration.reported? y.1).map (fun trace => (g', trace)) ∧
      g'.scheduler = y.2.scheduler ∧ c.Kept g' := by
  obtain ⟨session, hrefresh, hsource, hprogram⟩ :=
    exists_refresh h.source (x := c.exploration σ fuel) rfl hg
  have hcreate : (c.exploration σ fuel).create session.program (c.exploration σ fuel).config
      g.scheduler = .ok ⟨c.setup, fuel, m, g.scheduler⟩ := by
    rw [hprogram]
    exact h.create_eq fuel g.scheduler
  subst hexecute
  unfold Exploration.attempt
  simp only [hrefresh, hcreate]
  exact ⟨_, rfl, rfl, hsource, hprogram⟩

/-- An execution leaves the trace that is taken from the run of the machine. -/
theorem attempt_eq (h : c.Starts m) (hcollect : c.config.collectTraces = true) {g : Progress σ}
    (hg : c.Kept g) {ending : Ending} {m' : Machine} {q : σ}
    (hloop : m.runLoop c.setup fuel g.scheduler = (ending, m', q)) :
    ∃ g', (c.exploration σ fuel).attempt g =
        (ending.trace? c.config.checkRobustness m').map (fun trace => (g', trace)) ∧
      g'.scheduler = q ∧ c.Kept g' := by
  obtain ⟨hreported, hscheduler⟩ := Execution.reported_execute hcollect
    (x := ⟨c.setup, fuel, m, g.scheduler⟩) hloop
  obtain ⟨g', hattempt, hg', hkept⟩ := h.attempt_of_execute hg (show ExceptT.run (Engine.execute
    c.config : Call (Execution σ) Trace) ⟨c.setup, fuel, m, g.scheduler⟩ = _ from rfl)
  exact ⟨g', hreported ▸ hattempt, hg'.trans hscheduler, hkept⟩

end Starts

/-! ### The exploration with the reduction -/

open Machine Reduction

/-- The execution in the log of the reduction is the one with the given trace, redundant or not. -/
structure Accounts (checks : Bool) (s : Setup) (m : Machine) (x : Explored) (e : Trace × Bool) :
    Prop where
  redundant : e.2 = x.final.blocked
  reports : Breaks s m x.ops → x.failed = true
  behaviour : x.final.blocked = false → e.1.behaviour = m.behaviour checks s (procs x.ops)

namespace Starts

/-- **One more execution**, which the reduction leads and then accounts for. -/
theorem exists_execution (h : c.Starts m) (hcollect : c.config.collectTraces = true)
    (herrors : m.errors = []) {g : Progress Reduction} (hg : c.Kept g)
    (hfuel : ∀ ops, IsRun (system c.setup m).offers ops → ops.length < fuel) {log : List Explored}
    (hx : Explores (system c.setup m).offers none log true g.scheduler) :
    ∃ g' trace, (c.exploration Reduction fuel).attempt g = some (g', trace) ∧ c.Kept g' ∧
      Explores (system c.setup m).offers none
        (log ++ [⟨Exploration.concluded g'.scheduler trace, trace.wasCutShort⟩])
        (Exploration.concluded g'.scheduler trace).advance.1
        (Exploration.concluded g'.scheduler trace).advance.2 ∧
      Accounts c.config.checkRobustness c.setup m
        ⟨Exploration.concluded g'.scheduler trace, trace.wasCutShort⟩
        (trace, Scheduler.wasRedundant (Exploration.concluded g'.scheduler trace)) := by
  obtain ⟨-, t, -, hprepared, -⟩ := hx.tree (fun _ => False) (by simp)
  have hunderway := underway_nil (hprepared rfl).1.midway
  obtain ⟨ops, hrun, hconc⟩ := runLoop_concludes (guided_reduction c.setup m _ _ g.scheduler) fuel
    IsRun.nil hunderway (reach_nil c.setup m) rfl
  generalize hloop : m.runLoop c.setup fuel g.scheduler = y at hconc
  cases hconc with
  | @ended ending m' q hends hstate =>
      have hover := hstate.over hends.offers_eq_nil
      obtain ⟨g', hattempt, rfl, hkept⟩ := h.attempt_eq hcollect hg hloop
      obtain ⟨trace, htrace, hbehaviour, hcut⟩ := hends.exists_trace herrors c.config.checkRobustness
      rw [htrace] at hattempt
      have hops : Explored.ops ⟨Exploration.concluded g'.scheduler trace, trace.wasCutShort⟩ = ops :=
        hover.executed.ops_finish _
      refine ⟨g', trace, hattempt, hkept, .execution trace.wasCutShort hx hover.executes, rfl, ?_, ?_⟩
      · rw [hops]
        exact hcut
      · rw [hops]
        exact fun _ => hbehaviour
  | @refused m' log' q hlt hreach hoffered hover =>
      obtain ⟨g', hattempt, rfl, hkept⟩ := h.attempt_eq hcollect hg hloop
      obtain ⟨trace, htrace⟩ : ∃ trace, Ending.refused.trace? c.config.checkRobustness
        { m' with log := log' } = some trace := ⟨_, rfl⟩
      rw [htrace] at hattempt
      have hops : Explored.ops ⟨Exploration.concluded g'.scheduler trace, trace.wasCutShort⟩ = ops :=
        hover.executed.ops_finish _
      refine ⟨g', trace, hattempt, hkept, .execution trace.wasCutShort hx hover.executes, rfl, ?_, ?_⟩
      · rw [hops]
        exact fun hbreaks => absurd (hbreaks m' hreach).1 hoffered
      · intro hblocked
        have hrec := (hover.executed.recorded trace.wasCutShort).blocked rfl
        rw [hover.executed.ops_finish, offers_of_ok hreach] at hrec
        have hblocked' := hrec.mpr hoffered
        rw [show (g'.scheduler.finish trace.wasCutShort).blocked = false from hblocked] at hblocked'
        cases hblocked'
  | outOfFuel hlength =>
      have := hfuel ops hrun
      simp only [List.length_nil, Nat.zero_add] at hlength
      omega

/-- The rounds of the exploration finish it or add as many executions as they are. -/
theorem rounds_explores (h : c.Starts m) (hall : c.config.exploreAll = true)
    (hcollect : c.config.collectTraces = true) (herrors : m.errors = [])
    (hfuel : ∀ ops, IsRun (system c.setup m).offers ops → ops.length < fuel) (k : Nat)
    {g : Progress Reduction} (hg : c.Kept g) {log : List Explored}
    (hx : Explores (system c.setup m).offers none log true g.scheduler) :
    ∃ log' r, (((c.exploration Reduction fuel).rounds k g).1 = .finished ∧
        Explores (system c.setup m).offers none (log ++ log') false r ∧
        List.Forall₂ (Accounts c.config.checkRobustness c.setup m) log'
          ((c.exploration Reduction fuel).executions k g)) ∨
      log'.length = k ∧ Explores (system c.setup m).offers none (log ++ log') true r := by
  induction k generalizing g log with
  | zero => exact ⟨[], g.scheduler, .inr ⟨rfl, by simpa using hx⟩⟩
  | succ k ih =>
      obtain ⟨g', trace, hattempt, hkept, hx', haccounts⟩ :=
        h.exists_execution hcollect herrors hg hfuel hx
      have hround := ((c.exploration Reduction fuel).round_of_attempt g hattempt).1
      obtain ⟨g'', haccount, hscheduler, hsession⟩ :=
        (c.exploration Reduction fuel).account_eq g' hall trace
      rw [Exploration.rounds, Exploration.executions]
      simp only [hattempt, hround, haccount]
      generalize hy : Scheduler.advance (Exploration.concluded g'.scheduler trace) = y at hscheduler ⊢
      replace hy : (Exploration.concluded g'.scheduler trace).advance = y := hy
      rw [hy] at hx'
      obtain ⟨more, r⟩ := y
      cases more with
      | false => exact ⟨[_], r, .inl ⟨rfl, hx', .cons haccounts .nil⟩⟩
      | true =>
          obtain ⟨log', r', hor⟩ := ih (g := g'')
            ⟨by rw [hsession, hkept.source], by rw [hsession, hkept.program]⟩ (hscheduler ▸ hx')
          refine ⟨⟨Exploration.concluded g'.scheduler trace, trace.wasCutShort⟩ :: log', r', ?_⟩
          rw [List.append_assoc, List.singleton_append] at hor
          rcases hor with ⟨hfinished, hexplores, hforall⟩ | ⟨hlength, hexplores⟩
          · exact .inl ⟨hfinished, hexplores, .cons haccounts hforall⟩
          · exact .inr ⟨by rw [List.length_cons, hlength], hexplores⟩

/-- **The exploration ends**, and its log tells of all executions of the checker. -/
theorem exists_explores (h : c.Starts m) (hall : c.config.exploreAll = true)
    (hcollect : c.config.collectTraces = true) (hdepth : c.config.maxDepth = none)
    (herrors : m.errors = []) (hhalts : Halts c.setup m) :
    ∃ enough, ∀ fuel ≥ enough, (∀ ops, IsRun (system c.setup m).offers ops → ops.length < fuel) ∧
      (c.run fuel).1 = .finished ∧
      ∃ log r, Explores (system c.setup m).offers none log false r ∧
        List.Forall₂ (Accounts c.config.checkRobustness c.setup m) log (c.executions fuel) := by
  obtain ⟨n, ps, hruns⟩ := hhalts.exists_procs
  refine ⟨max (n + 1) ((words ps n).length + 1), fun fuel hfuel => ?_⟩
  have hlt : ∀ ops, IsRun (system c.setup m).offers ops → ops.length < fuel := by
    intro ops hrun
    have := (hruns ops hrun).1
    omega
  have hstart : Explores (system c.setup m).offers none [] true (c.beginning
      (Reduction.start c.config.maxDepth)).scheduler := by
    rw [hdepth]
    exact .start
  refine ⟨hlt, ?_⟩
  rw [h.run_eq, (Exploration.explore_eq _ _ _ _).1]
  obtain ⟨log, r, ⟨hfinished, hx, hforall⟩ | ⟨hlength, hx⟩⟩ :=
    h.rounds_explores hall hcollect herrors hlt fuel ⟨rfl, rfl⟩ hstart
  · exact ⟨hfinished, log, r, by simpa using hx, hforall⟩
  · have := hx.length_le (nodup_offers c.setup m) fun ops hrun _ => hruns ops hrun
    rw [List.nil_append, hlength] at this
    omega

/-! ### Executions without the reduction -/

/-- A script leads the checker through the complete run that it picks. -/
theorem exists_scripted (h : c.Starts m) (hall : c.config.exploreAll = true)
    (hcollect : c.config.collectTraces = true) (herrors : m.errors = [])
    (hfuel : ∀ ops, IsRun (system c.setup m).offers ops → ops.length < fuel) (choices : List Nat) :
    ∃ ops trace, IsRun (system c.setup m).offers ops ∧ (system c.setup m).offers (procs ops) = [] ∧
      PickedBy (system c.setup m).offers choices ops ∧
      (c.runWith fuel (picking choices fuel)).2.result.allTraces = [trace] ∧
      trace.behaviour = m.behaviour c.config.checkRobustness c.setup (procs ops) := by
  obtain ⟨ops, hrun, hconc⟩ := runLoop_concludes (guided_script c.setup m choices fuel) fuel
    IsRun.nil (picked_nil _ choices fuel) (reach_nil c.setup m) rfl
  have hlt := hfuel ops hrun
  generalize hloop : m.runLoop c.setup fuel (picking choices fuel) = y at hconc
  cases hconc with
  | @ended ending m' q hends hstate =>
      obtain ⟨trace, htrace, hbehaviour, -⟩ := hends.exists_trace herrors c.config.checkRobustness
      obtain ⟨g', hattempt, rfl, -⟩ := h.attempt_eq hcollect (g := c.beginning (picking choices fuel))
        ⟨rfl, rfl⟩ hloop
      rw [htrace] at hattempt
      refine ⟨ops, trace, hrun, hends.offers_eq_nil, hstate.picked, ?_, hbehaviour⟩
      rw [h.runWith_eq, (Exploration.explore_eq _ _ _ _).2, Exploration.result_rounds]
      cases fuel with
      | zero => simp at hlt
      | succ k =>
          have hone : (c.exploration Script (k + 1)).executions (k + 1)
              (c.beginning (picking choices (k + 1))) = [(trace, false)] := by
            rw [Exploration.executions]
            obtain ⟨g'', haccount, -, -⟩ := (c.exploration Script (k + 1)).account_eq g' hall trace
            simp only [hattempt, Option.map_some, haccount]
            rfl
          have hcollect' : (c.exploration Script (k + 1)).config.collectTraces = true := hcollect
          refine (congrArg (fun l => (List.foldl _ Result.empty l).allTraces) hone).trans ?_
          simp [Result.add, Result.empty, hcollect']
  | refused _ _ _ hle => omega
  | outOfFuel hlength =>
      simp only [List.length_nil, Nat.zero_add] at hlength
      omega

end Starts

theorem starts_ofText {registry : Registry} {cfg : Config} {text : String}
    (htext : Checker.ofText registry cfg text = .ok c) (hmodel : c.config.model ≠ .pso)
    (hcells : c.session.program.globals.length ≤ Interpreter.maxCells)
    (hmachine : (c.session.program.find? Program.entryPoint).map (Machine.start c.setup) =
      some (.ok m)) : c.Starts m := by
  cases hbuild : Program.build registry text with
  | error f => simp [ofText, Session.ofText, hbuild] at htext
  | ok p =>
      simp only [ofText, Session.ofText, hbuild, ok_bind, pure_eq_ok, Except.ok.injEq] at htext
      subst htext
      exact ⟨hmodel, rfl, hbuild, hcells, hmachine⟩

theorem ne_nil_of_explores {offers : Offers} {log : List Explored} {more : Bool} {r : Reduction}
    (h : Explores offers none log more r) (hmore : more = false) : log ≠ [] := by
  cases h with
  | start => cases hmore
  | execution => simp

theorem exists_of_forall₂ {α β : Type} {R : α → β → Prop} {l : List α} {l' : List β} {a : α}
    (h : List.Forall₂ R l l') (ha : a ∈ l) : ∃ b ∈ l', R a b := by
  induction h with
  | nil => cases ha
  | @cons x y l l' hxy _ ih =>
      rcases List.mem_cons.mp ha with rfl | ha
      · exact ⟨y, by simp, hxy⟩
      · obtain ⟨b, hb, hab⟩ := ih ha
        exact ⟨b, List.mem_cons_of_mem _ hb, hab⟩

/-- Among the executions of a finished exploration is one that shows what the complete run shows. -/
theorem exists_of_run {log : List Explored} {r : Reduction} (checks : Bool) {s : Setup}
    {ops : List Candidate} (ho : Orderly s m) (hempty : ∀ th ∈ m.threads, th.buffer = [])
    (htold : m.Told) (hx : Explores (system s m).offers none log false r)
    (hreported : ∀ x ∈ log, Breaks s m x.ops → x.failed = true)
    (hrun : IsRun (system s m).offers ops) (hend : (system s m).offers (procs ops) = []) :
    ∃ x ∈ log, x.final.blocked = false ∧
      m.behaviour checks s (procs x.ops) = m.behaviour checks s (procs ops) := by
  have hs := ho.lawful hempty
  have hfail : ∀ ops, (system s m).fault ops ≠ none → Breaks s m ops := by
    intro ops hf m' hm'
    exact absurd (fault_system_eq_none.mpr ⟨m', hm'⟩) hf
  have hrec := (hx.tree (Breaks s m) hreported).1
  have hresumes : ∀ x ∈ log, ¬ Breaks s m x.ops → (system s m).Resumes x.ops := fun x hx =>
    ho.resumes hempty (hrec x hx).run
  cases hreach : m.reach s (procs ops) with
  | ok m₁ =>
      obtain ⟨x, hmem, hblocked, hequiv, -⟩ := hs.exists_equivalent_of_resumes (Breaks s m) hfail hx
        hreported hresumes ⟨hrun, fault_system_eq_none.mpr ⟨m₁, hreach⟩⟩ hend
      exact ⟨x, hmem, hblocked,
        (behaviour_of_equivalent ho hempty htold hequiv hrun hreach checks).symm⟩
  | error why =>
      have hfault : ∀ v, (system s m).fault v = some why → m.reach s (procs v) = .error why := by
        intro v hv
        simp only [system] at hv
        cases hm : m.reach s (procs v) with
        | ok m' => simp [hm] at hv
        | error why' =>
            rw [hm, errorOf?_error] at hv
            rw [Option.some.inj hv]
      have hops : (system s m).fault ops = some why := by
        simp only [system, hreach, errorOf?_error]
      obtain ⟨x, hmem, hblocked, hwhy⟩ : ∃ x ∈ log, x.final.blocked = false ∧
          (system s m).fault x.ops = some why := by
        cases ops using List.reverseRecOn with
        | nil =>
            -- the first thread does not come to rest, and all executions end at once
            obtain ⟨x, hmem⟩ := List.exists_mem_of_ne_nil log (ne_nil_of_explores hx rfl)
            have hnil : x.ops = [] := by
              cases hxo : x.ops with
              | nil => rfl
              | cons d w =>
                  have hd := (hrec x hmem).run [] d w hxo
                  rw [show (system s m).offers (procs []) = [] from hend] at hd
                  cases hd
            refine ⟨x, hmem, ?_, by rw [hnil, hops]⟩
            rw [← Bool.not_eq_true, (hrec x hmem).blocked rfl, hnil]
            exact not_not.mpr hend
        | append_singleton v d =>
            obtain ⟨m₁, hm₁, -⟩ := mem_offers_system.mp hrun.offered
            exact hs.exists_fault (Breaks s m) hfail hx hreported hresumes
              ⟨hrun.left, fault_system_eq_none.mpr ⟨m₁, hm₁⟩⟩ hrun.offered hops
      refine ⟨x, hmem, hblocked, ?_⟩
      rw [behaviour, behaviour, hfault _ hwhy, hreach]

/-- **The reduction loses no behaviour.**  Let all scheduling points of a program be in order and all
its executions be finite.  Then the exploration ends, and its executions that are not redundant show
the same behaviours as all executions in which a script picks the candidates. -/
theorem run_complete {registry : Registry} {cfg : Config} {text : String}
    (htext : Checker.ofText registry cfg text = .ok c) (hmodel : c.config.model ≠ .pso)
    (hall : c.config.exploreAll = true) (hcollect : c.config.collectTraces = true)
    (hdepth : c.config.maxDepth = none)
    (hcells : c.session.program.globals.length ≤ Interpreter.maxCells)
    (hmachine : (c.session.program.find? Program.entryPoint).map (Machine.start c.setup) =
      some (.ok m))
    (hhalts : Halts c.setup m) (horderly : Orderly c.setup m) :
    ∃ enough, ∀ fuel ≥ enough, (c.run fuel).1 = .finished ∧
      (c.run fuel).2.result =
        (c.executions fuel).foldl (fun r e => r.add true e.1 e.2) .empty ∧
      ∀ b, (∃ e ∈ c.executions fuel, e.2 = false ∧ e.1.behaviour = b) ↔
        ∃ choices, ∃ trace ∈ (c.runWith fuel (picking choices fuel)).2.result.allTraces,
          trace.behaviour = b := by
  have hstarts := starts_ofText htext hmodel hcells hmachine
  obtain ⟨entry, -, hstart⟩ := Option.map_eq_some_iff.mp hmachine
  have hempty := buffers_start hstart
  obtain ⟨herrors, htold⟩ : m.errors = [] ∧ m.Told := by
    obtain ⟨th, -, rfl⟩ := start_eq_ok hstart
    exact ⟨rfl, told_of_start rfl rfl hempty⟩
  obtain ⟨enough, henough⟩ := hstarts.exists_explores hall hcollect hdepth herrors hhalts
  refine ⟨enough, fun fuel hfuel => ?_⟩
  obtain ⟨hlt, hfinished, log, r, hx, hforall⟩ := henough fuel hfuel
  refine ⟨hfinished, by rw [hstarts.result_run, hcollect], fun b => ⟨?_, ?_⟩⟩
  · rintro ⟨e, he, hredundant, rfl⟩
    obtain ⟨x, hmem, haccounts⟩ := exists_of_forall₂ hforall.flip he
    have hblocked : x.final.blocked = false := haccounts.redundant.symm.trans hredundant
    have hrec := (hx.tree (fun _ => False) (by simp)).1 x hmem
    have hend : (system c.setup m).offers (procs x.ops) = [] := by
      by_contra hne
      rw [(hrec.blocked rfl).mpr hne] at hblocked
      cases hblocked
    obtain ⟨choices, hpicked⟩ := exists_choices hrec.run
    obtain ⟨ops, trace, -, hend', hpicked', htraces, hbehaviour⟩ :=
      hstarts.exists_scripted hall hcollect herrors hlt choices
    obtain rfl := eq_of_picked hpicked' hpicked hend' hend
    refine ⟨choices, trace, by simp [htraces], ?_⟩
    rw [hbehaviour, haccounts.behaviour hblocked]
  · rintro ⟨choices, trace, htrace, rfl⟩
    obtain ⟨ops, trace', hrun, hend, -, htraces, hbehaviour⟩ :=
      hstarts.exists_scripted hall hcollect herrors hlt choices
    rw [htraces, List.mem_singleton] at htrace
    subst htrace
    obtain ⟨x, hmem, hblocked, hsame⟩ := exists_of_run c.config.checkRobustness horderly
      hempty htold hx (fun x hx => by
        obtain ⟨e, -, haccounts⟩ := exists_of_forall₂ hforall hx
        exact haccounts.reports) hrun hend
    obtain ⟨e, he, haccounts⟩ := exists_of_forall₂ hforall hmem
    refine ⟨e, he, haccounts.redundant.trans hblocked, ?_⟩
    rw [haccounts.behaviour hblocked, hsame, hbehaviour]

/-- All executions are explored, and all traces kept. -/
def exhaustive (model : MemoryModel) : Config :=
  { model, exploreAll := true, collectTraces := true }

/-- Two threads use one variable under a mutex. -/
def guardedText : String :=
  "global m = 0\nglobal x = 0\nfn other \x7b\nlock @m\nstore @x, 1\nunlock @m\nret\n\x7d\n" ++
    "fn main \x7b\nspawn %t, other\nlock @m\nload %a, @x\nunlock @m\njoin %t\nret\n\x7d\n"

/-- Two threads store to one variable each and load the other one. -/
def crossedText : String :=
  "global x = 0\nglobal y = 0\nfn other \x7b\nstore @y, 1\nload %b, @x\nret\n\x7d\n" ++
    "fn main \x7b\nspawn %t, other\nstore @x, 1\nload %a, @y\nret\n\x7d\n"

/-- Whether the program starts, takes at most `n` turns and has all its scheduling points in order. -/
def isOrderly (c : Checker) (n : Nat) : Bool :=
  decide (c.session.program.globals.length ≤ Interpreter.maxCells) &&
    ((c.session.program.find? Program.entryPoint).map (Machine.start c.setup)).any fun result =>
      result.toOption.any fun m =>
        (m.rest c.setup).toOption.all (holdsAlways c.setup (isInOrder c.setup) n)

theorem exists_of_isOrderly {n : Nat} (h : c.isOrderly n = true) :
    c.session.program.globals.length ≤ Interpreter.maxCells ∧
      ∃ m, (c.session.program.find? Program.entryPoint).map (Machine.start c.setup) = some (.ok m) ∧
        Halts c.setup m ∧ Orderly c.setup m := by
  simp only [isOrderly, Bool.and_eq_true, decide_eq_true_eq] at h
  obtain ⟨hcells, hany⟩ := h
  obtain ⟨result, hresult, hm⟩ := (Option.any_eq_true _ _).mp hany
  obtain ⟨m, rfl, halways⟩ := exists_of_any hm
  obtain ⟨horderly, hhalts⟩ := orderly_of_holdsAlways halways
  exact ⟨hcells, m, hresult, hhalts, horderly⟩

theorem run_complete_guarded :
    [(MemoryModel.sc, guardedText), (.tso, crossedText)].Forall fun x =>
      ∃ c m, Checker.ofText .standard (exhaustive x.1) x.2 = .ok c ∧
        (c.session.program.find? Program.entryPoint).map (Machine.start c.setup) = some (.ok m) ∧
        Halts c.setup m ∧ Orderly c.setup m ∧
        ∃ enough, ∀ fuel ≥ enough, (c.run fuel).1 = .finished ∧
          (c.run fuel).2.result =
            (c.executions fuel).foldl (fun r e => r.add true e.1 e.2) .empty ∧
          ∀ b, (∃ e ∈ c.executions fuel, e.2 = false ∧ e.1.behaviour = b) ↔
            ∃ choices, ∃ trace ∈ (c.runWith fuel (picking choices fuel)).2.result.allTraces,
              trace.behaviour = b := by
  rw [List.forall_iff_forall_mem]
  intro x hx
  have horderly : x.1 ≠ .pso ∧ (Checker.ofText .standard (exhaustive x.1) x.2).toOption.any
      (fun c => decide (c.config = exhaustive x.1) && c.isOrderly 10) = true := by
    simp only [List.mem_cons, List.not_mem_nil, or_false] at hx
    rcases hx with rfl | rfl
    · exact ⟨by decide, by decide +kernel⟩
    · exact ⟨by decide, by decide +kernel⟩
  obtain ⟨hmodel, hany⟩ := horderly
  obtain ⟨c, htext, hc⟩ := exists_of_any hany
  simp only [Bool.and_eq_true, decide_eq_true_eq] at hc
  obtain ⟨hconfig, horderly⟩ := hc
  obtain ⟨hcells, m, hmachine, hhalts, horderly⟩ := exists_of_isOrderly horderly
  refine ⟨c, m, htext, hmachine, hhalts, horderly,
    run_complete htext ?_ ?_ ?_ ?_ hcells hmachine hhalts horderly⟩
  · rwa [hconfig]
  · rw [hconfig, exhaustive]
  · rw [hconfig, exhaustive]
  · rw [hconfig, exhaustive]

/-! ### Behaviours that are lost -/

/-- The exploration finishes without an error, and a script leads to the error. -/
def losesError (c : Checker) (fuel : Nat) (choices : List Nat) (kind : ErrorKind) (site : Site) :
    Bool :=
  (match c.run fuel with
    | (outcome, c') => outcome == .finished && c'.result.allTraces.all (·.errors.isEmpty)) &&
    (c.runWith fuel (picking choices fuel)).2.result.allTraces.any fun trace =>
      trace.errors.head?.any fun e => e.kind == kind && e.site == some site

theorem of_losesError {fuel : Nat} {choices : List Nat} {kind : ErrorKind} {site : Site}
    (h : c.losesError fuel choices kind site = true) :
    (c.run fuel).1 = .finished ∧
      (¬ ∃ trace ∈ (c.run fuel).2.result.allTraces, trace.behaviour = .failed kind (some site)) ∧
      ∃ choices, ∃ trace ∈ (c.runWith fuel (picking choices fuel)).2.result.allTraces,
        trace.behaviour = .failed kind (some site) := by
  simp only [losesError, Bool.and_eq_true, beq_iff_eq, List.all_eq_true, List.isEmpty_iff,
    List.any_eq_true, Option.any_eq_true] at h
  obtain ⟨⟨hfinished, hnone⟩, trace, htrace, e, he, hkind, hsite⟩ := h
  refine ⟨hfinished, fun ⟨trace, htrace, hb⟩ => ?_, choices, trace, htrace, ?_⟩
  · simp [Trace.behaviour, hnone trace htrace, Event.shown] at hb
  · obtain ⟨rest, hrest⟩ := List.head?_eq_some_iff.mp he
    simp [Trace.behaviour, hrest, hkind, hsite]

/-- A thread unlocks a mutex that it does not hold. -/
def unheldText : String :=
  "global m = 0\nfn other \x7b\nunlock @m\nret\n\x7d\n" ++
    "fn main \x7b\nspawn %t, other\nlock @m\njoin %t\nret\n\x7d\n"

/-- **An error that is lost**: the unlock is offered beside the lock, which does not race with it. -/
theorem run_loses_unheld :
    ∃ c, Checker.ofText .standard (exhaustive .sc) unheldText = .ok c ∧ ∃ fuel,
      (c.run fuel).1 = .finished ∧
      (¬ ∃ trace ∈ (c.run fuel).2.result.allTraces,
        trace.behaviour = .failed .invalidOperation (some ⟨1, "other", 0⟩)) ∧
      ∃ choices, ∃ trace ∈ (c.runWith fuel (picking choices fuel)).2.result.allTraces,
        trace.behaviour = .failed .invalidOperation (some ⟨1, "other", 0⟩) := by
  obtain ⟨c, htext, hc⟩ := exists_of_any
    (x := Checker.ofText .standard (exhaustive .sc) unheldText)
    (p := fun c => c.losesError 10 [0, 1] .invalidOperation ⟨1, "other", 0⟩) (by decide +kernel)
  exact ⟨c, htext, 10, of_losesError hc⟩

/-- A thread holds the mutex `a` and joins the first thread while the last thread waits for `a`. -/
def heldText : String :=
  "global a=0\nglobal k=0\nglobal v=0\nglobal u=0\nglobal x=0\nfn g \x7b\nstore @x,1\nret\n\x7d\n" ++
    "fn h \x7b\nlock @a\nstore @k,1\nload %v,@v\nload %u,@u\nbrz %v,r\nbrz %u,s\n" ++
    "r:\nload %x,@x\nlt %x,%x,%u\nbrz %x,s\nassert 0\ns:\njoin 1\nunlock @a\nret\n\x7d\n" ++
    "fn r \x7b\nstore @v,1\nload %k,@k\nbrnz %k,e\nlock @a\nstore @u,1\nunlock @a\n" ++
    "e:\nret\n\x7d\nfn main \x7b\nspawn %t,g\nspawn %t,h\nspawn %t,r\nret\n\x7d\n"

/-- **Another error that is lost**: the executions in which the last thread waits for `a` are redundant
before it gets the mutex, and so its race for `a` is never seen. -/
theorem run_loses_held :
    ∃ c, Checker.ofText .standard (exhaustive .sc) heldText = .ok c ∧ ∃ fuel,
      (c.run fuel).1 = .finished ∧
      (¬ ∃ trace ∈ (c.run fuel).2.result.allTraces,
        trace.behaviour = .failed .assertionFailure (some ⟨2, "h", 9⟩)) ∧
      ∃ choices, ∃ trace ∈ (c.runWith fuel (picking choices fuel)).2.result.allTraces,
        trace.behaviour = .failed .assertionFailure (some ⟨2, "h", 9⟩) := by
  obtain ⟨c, htext, hc⟩ := exists_of_any
    (x := Checker.ofText .standard (exhaustive .sc) heldText)
    (p := fun c => c.losesError 30 [0, 0, 0, 2, 2, 2, 1, 1, 1, 1, 1, 1, 1] .assertionFailure
      ⟨2, "h", 9⟩) (by decide +kernel)
  exact ⟨c, htext, 30, of_losesError hc⟩

/-- The thread `p` stores `c`, and if it finds `a` stored it stores `a` and loads `b`.  The other threads
store `c` too, after `b` and before `a`. -/
def pendingText : String :=
  "global a=0\nglobal b=0\nglobal c=0\nfn p \x7b\nstore @c,2\nload %a,@a\nbrz %a,l\nstore @a,2\n" ++
    "load %b,@b\nbrz %b,e\nl:\nstore @c,3\ne:\nret\n\x7d\nfn q \x7b\nstore @c,1\nstore @a,1\nret\n\x7d\n" ++
    "fn main \x7b\nspawn %p,p\nspawn %q,q\nstore @b,1\nstore @c,1\njoin %p\njoin %q\nfence\n" ++
    "load %c,@c\nne %c,%c,2\nassert %c\nret\n\x7d\n"

/-- **An error that is lost behind waiting stores**: where `p` flushes `c` behind the main thread, before it
stores `a`, that store counts as one behind the flush, although the two commute.  So the load of `b` counts
as one behind the store of `b`, and their race is not seen. -/
theorem run_loses_pending :
    ∃ c, Checker.ofText .standard (exhaustive .tso) pendingText = .ok c ∧ ∃ fuel,
      (c.run fuel).1 = .finished ∧
      (¬ ∃ trace ∈ (c.run fuel).2.result.allTraces,
        trace.behaviour = .failed .assertionFailure (some ⟨0, "main", 9⟩)) ∧
      ∃ choices, ∃ trace ∈ (c.runWith fuel (picking choices fuel)).2.result.allTraces,
        trace.behaviour = .failed .assertionFailure (some ⟨0, "main", 9⟩) := by
  obtain ⟨c, htext, hc⟩ := exists_of_any
    (x := Checker.ofText .standard (exhaustive .tso) pendingText)
    (p := fun c => c.losesError 30 [0, 0, 0, 0, 0, 1, 1, 3, 3] .assertionFailure ⟨0, "main", 9⟩)
    (by decide +kernel)
  exact ⟨c, htext, 30, of_losesError hc⟩

end Checker

end Interleave
