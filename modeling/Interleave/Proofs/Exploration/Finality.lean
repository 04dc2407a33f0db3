import Interleave.Proofs.Exploration.Completeness
import Interleave.Proofs.Exploration.Observation
import Interleave.Proofs.Machine.Loop
import Interleave.Proofs.Memory.Growth

/-! # Violations of robustness are final

An execution that the scheduler ends early, because all that is offered is asleep or the depth bound is
reached, is checked for robustness like one that comes to its end.  A cycle that is found then is one of
every completion, because the memory graph only grows.

Only a run without an error is checked (`Execution.reportsViolation_iff`).  So the completion reports the
violation again unless it runs into an error of the program (`Execution.violation_final`), and then it
reports the error alone (`Execution.violation_lost_behind_error`). -/

namespace Interleave

/-! ### Errors of a run -/

namespace Machine

variable {s : Setup} {m m₁ : Machine} {e : TraceError} {σ : Type} [Scheduler σ]

theorem ordinary_blockage (h : m.Calm s) (he : m.blockage s = .error e) :
    e.kind.isRobustness = false := by
  obtain ⟨message, hdeadlock⟩ := exists_deadlock s h
  rw [blockage, hdeadlock] at he
  cases he
  rfl

theorem ordinary_arrive (h : m.arrive s = .error (.stopped (.error e), m₁)) :
    e.kind.isRobustness = false := by
  rcases arrive_eq_error h with ⟨why, hsettle, hending⟩ | ⟨hsettle, ⟨why, hcs, hending⟩ | ⟨hcs, hending⟩⟩
  · cases hending
    exact ErrorKind.isRobustness_of_isOfThread
      (ordinary_settleFrom s 0 m.threads (congrArg Prod.snd hsettle))
  · cases hending
    exact ErrorKind.isRobustness_of_isOfThread (ordinary_candidates s m₁ e hcs)
  · split at hending
    · cases hending
    · exact ordinary_blockage (calm_of_settle hsettle hcs) (Ending.stopped.inj hending).symm

theorem ordinary_round {q : σ} {halt : Ending × Machine × σ} (h : m.round s q = .error halt)
    (he : halt.1 = .stopped (.error e)) : e.kind.isRobustness = false := by
  unfold round at h
  cases harrive : m.arrive s with
  | error x =>
      obtain ⟨ending, m₁⟩ := x
      rw [harrive] at h
      cases h
      cases he
      exact ordinary_arrive harrive
  | ok x =>
      obtain ⟨m₁, cs⟩ := x
      simp only [harrive] at h
      generalize Scheduler.schedule q cs = decided at h
      obtain ⟨d, q'⟩ := decided
      cases d with
      | run p =>
          simp only at h
          cases hstep : m₁.step s p with
          | error why =>
              rw [hstep] at h
              cases h
              cases he
              exact ErrorKind.isRobustness_of_isOfThread (ordinary_step s m₁ p e hstep)
          | ok m₂ =>
              rw [hstep] at h
              cases h
      | _ =>
          cases h
          cases he

theorem ordinary_runLoop {fuel : Nat} {q : σ} (he : (m.runLoop s fuel q).1 = .stopped (.error e)) :
    e.kind.isRobustness = false := by
  induction fuel generalizing m q with
  | zero => cases he
  | succ fuel ih =>
      rw [runLoop_succ] at he
      cases hround : m.round s q with
      | error halt =>
          rw [hround] at he
          exact ordinary_round hround he
      | ok x =>
          rw [hround] at he
          exact ih he

theorem checkRobustness_of_cycle (herrors : m.errors = []) :
    m.checkRobustness.1 = m.graph.findCycle.isSome ∧
      (m.checkRobustness.2.errors.any fun e => e.kind.isRobustness) = m.graph.findCycle.isSome := by
  unfold checkRobustness
  cases m.graph.findCycle with
  | none => simp [herrors]
  | some cycle => simp [herrors, ErrorKind.isRobustness]

/-- **A cycle stays** in all that comes behind the events with which it was found. -/
theorem Told.isSome_findCycle {m' : Machine} (h : m.Told) (h' : m'.Told)
    (hevents : m.events <+: m'.events) (hcycle : m.graph.findCycle.isSome = true) :
    m'.graph.findCycle.isSome = true := by
  obtain ⟨rest, hrest⟩ := hevents
  rw [h.graph] at hcycle
  rw [h'.graph, ← hrest]
  exact (Memory.Ledger.extends_ofEvents m.events rest).isSome_findCycle
    (Memory.Ledger.sound_ofEvents _).graph (Memory.Ledger.sound_ofEvents _).graph hcycle

end Machine

/-! ### What is reported for an execution -/

namespace Execution

variable {σ : Type} [Scheduler σ] {cfg : Config} {x x' : Execution σ}

/-- The trace of the execution reports a violation of robustness. -/
def reportsViolation (cfg : Config) (x : Execution σ) : Bool :=
  (Exploration.reported? (ExceptT.run (Engine.execute cfg : Call (Execution σ) Trace) x).1).any
    fun trace => trace.errors.any fun e => e.kind.isRobustness

theorem told_run (h : x.machine.Told) : x.run.2.machine.Told := by
  have htold := Machine.told_runLoop h x.setup x.fuel x.scheduler
  unfold run
  generalize x.machine.runLoop x.setup x.fuel x.scheduler = r at htold
  obtain ⟨ending, m, q⟩ := r
  cases ending with
  | stopped why =>
      cases why with
      | error e => exact ⟨htold.graph, htold.waiting, htold.addr⟩
      | fault f => exact htold
  | _ => exact htold

theorem errors_of_run (h : x.run = (.ok false, x')) : x'.machine.errors = [] := by
  unfold run at h
  generalize x.machine.runLoop x.setup x.fuel x.scheduler = r at h
  obtain ⟨ending, m, q⟩ := r
  cases ending with
  | stopped why => cases why <;> cases h
  | outOfFuel => cases h
  | _ =>
      simp only [Prod.mk.injEq, Except.ok.injEq, Bool.not_eq_false', List.isEmpty_iff] at h
      rw [← h.2]
      exact h.1

theorem ordinary_of_run (herrors : x.machine.errors = []) (h : x.run = (.ok true, x')) :
    ∀ e ∈ x'.machine.errors, e.kind.isRobustness = false := by
  have hkept := Machine.errors_runLoop x.machine x.setup x.fuel x.scheduler
  have hordinary : ∀ e, (x.machine.runLoop x.setup x.fuel x.scheduler).1 = .stopped (.error e) →
      e.kind.isRobustness = false := fun e => Machine.ordinary_runLoop
  unfold run at h
  generalize x.machine.runLoop x.setup x.fuel x.scheduler = r at h hkept hordinary
  obtain ⟨ending, m, q⟩ := r
  have hnil : m.errors = [] := hkept.trans herrors
  cases ending with
  | stopped why =>
      cases why with
      | error e =>
          cases h
          simpa [hnil] using hordinary e rfl
      | fault f => cases h
  | outOfFuel => cases h
  | _ => simp [hnil] at h

theorem reportsViolation_of_ok {errored : Bool} (h : x.run = (.ok errored, x')) (found : Bool)
    (m : Machine) (hchecked : (if cfg.checkRobustness && !errored then x'.machine.checkRobustness
      else (errored, x'.machine)) = (found, m)) :
    x.reportsViolation cfg =
      ((found || cfg.collectTraces) && m.errors.any fun e => e.kind.isRobustness) := by
  have hrun : ExceptT.run (Engine.run : Call (Execution σ) Bool) x = x.run := rfl
  have htrace : ∀ (found : Bool) (y : Execution σ),
      (Exploration.reported? (ExceptT.run (if found || cfg.collectTraces then Engine.extractTrace
        else pure .empty : Call (Execution σ) Trace) y).1).any
          (fun trace => trace.errors.any fun e => e.kind.isRobustness) =
        ((found || cfg.collectTraces) && y.machine.errors.any fun e => e.kind.isRobustness) := by
    intro found y
    cases found || cfg.collectTraces <;> rfl
  rw [reportsViolation, Engine.execute, Call.run_bind, hrun, h]
  simp only
  split at hchecked
  · rename_i hasked
    have hcheck : ExceptT.run (Engine.checkRobustness : Call (Execution σ) Bool) x' =
        (.ok found, { x' with machine := m }) :=
      congrArg (fun r : Bool × Machine =>
        ((.ok r.1, { x' with machine := r.2 }) : Except Break Bool × Execution σ)) hchecked
    rw [if_pos hasked, Call.run_bind, hcheck]
    exact htrace found _
  · rename_i hasked
    cases hchecked
    rw [if_neg hasked]
    exact htrace errored x'

/-- **When a violation is reported**: the check is asked for, the run had no error, and the memory graph
behind it has a cycle. -/
theorem reportsViolation_iff (herrors : x.machine.errors = []) :
    x.reportsViolation cfg = true ↔ cfg.checkRobustness = true ∧ x.run.1 = .ok false ∧
      x.run.2.machine.graph.findCycle.isSome = true := by
  cases hx : x.run with
  | mk reply x' =>
  cases reply with
  | error why =>
      rw [reportsViolation, execute_of_error hx]
      cases why <;> simp [Exploration.reported?, Trace.ofError, Fault.toError, ErrorKind.isRobustness]
  | ok errored =>
      cases errored with
      | true =>
          rw [reportsViolation_of_ok hx true x'.machine (by simp)]
          simpa using ordinary_of_run herrors hx
      | false =>
          have hnil := errors_of_run hx
          cases hasked : cfg.checkRobustness with
          | false =>
              rw [reportsViolation_of_ok hx false x'.machine (by simp [hasked])]
              simp [hnil]
          | true =>
              obtain ⟨hfound, hany⟩ := Machine.checkRobustness_of_cycle hnil
              rw [reportsViolation_of_ok hx x'.machine.checkRobustness.1 x'.machine.checkRobustness.2
                (by simp [hasked]), hfound, hany]
              cases x'.machine.graph.findCycle <;> simp

omit [Scheduler σ] in
/-- An execution begins without an error, and with the memory graph of no events. -/
theorem begins_of_create {r : Registry} {i : Interpreter} {p : Program} {q : σ}
    (h : i.create r p cfg q = .ok x) : x.machine.Told ∧ x.machine.errors = [] := by
  simp only [Interpreter.create, bind, Except.bind] at h
  split at h
  · cases h
  · split at h
    · cases h
    · split at h
      · rename_i m hm
        obtain ⟨entry, -, hstart⟩ := Option.map_eq_some_iff.mp hm
        cases h
        obtain ⟨th, -, heq⟩ := Machine.start_eq_ok hstart
        exact ⟨Machine.told_start hstart, congrArg Machine.errors heq⟩
      · cases h

/-- **A violation that was found is final.**  However a memory graph is built up, the accesses that follow
leave it all its edges, and a cycle that was found before is found behind them.  So if a violation of
robustness is reported for an execution, whether it came to its end or the scheduler ended it, the memory
graph of every execution that goes on behind its events has a cycle, and the violation is reported
again if and only if that execution has no error of its own. -/
theorem violation_final :
    (∀ g g' : Memory.Graph, g.Built → Relation.ReflTransGen Memory.Graph.Grows g g' →
      (∀ e ∈ g.edges, e ∈ g'.edges) ∧ (g.findCycle.isSome = true → g'.findCycle.isSome = true)) ∧
    ∀ (σ τ : Type) [Scheduler σ] [Scheduler τ] (r : Registry) (i : Interpreter) (p : Program)
      (cfg : Config) (q : σ) (q' : τ) (x : Execution σ) (y : Execution τ),
      i.create r p cfg q = .ok x → i.create r p cfg q' = .ok y → x.reportsViolation cfg = true →
      x.run.2.machine.events <+: y.run.2.machine.events →
      y.run.2.machine.graph.findCycle.isSome = true ∧
        (y.reportsViolation cfg = true ↔ y.run.1 = .ok false) := by
  constructor
  · intro g g' hg hgrows
    have hextends := Memory.Graph.extends_of_grows hgrows
    exact ⟨fun e he => hextends.edge he, hextends.isSome_findCycle hg.sound (hg.of_grows hgrows).sound⟩
  · intro σ τ _ _ r i p cfg q q' x y hx hy hviolates hevents
    obtain ⟨htold, herrors⟩ := begins_of_create hx
    obtain ⟨htold', herrors'⟩ := begins_of_create hy
    obtain ⟨hasked, -, hcycle⟩ := (reportsViolation_iff herrors).mp hviolates
    have hcycle' := (told_run htold).isSome_findCycle (told_run htold') hevents hcycle
    rw [reportsViolation_iff herrors']
    exact ⟨hcycle', fun h => h.2.1, fun hends => ⟨hasked, hends, hcycle'⟩⟩

/-- Two threads store to one cell each and then load the other one.  The first thread waits until the
second one has let it go, and in the end it asserts `v`. -/
def relay (v : Operand) : Program :=
  ⟨"e", [⟨"x", 0⟩, ⟨"y", 0⟩, ⟨"go", 1⟩],
    [⟨"other", ["b"],
        [.unlock (.global 2), .store (.global 0) (.imm 1), .load 0 (.global 1), .fence, .ret]⟩,
      ⟨"main", ["a", "t"],
        [.spawn 1 0, .lock (.global 2), .store (.global 1) (.imm 1), .load 0 (.global 0), .fence,
          .join (.reg 1), .assert v, .ret]⟩]⟩

/-- The executions of the two threads are checked for robustness. -/
def relayConfig : Config := { model := .tso, checkRobustness := true }

/-- The first execution that the reduction performs, within a bound for its depth. -/
def relayed (v : Operand) (maxDepth : Option Nat) : Except Failure (Execution Reduction) :=
  (⟨.tso, 50⟩ : Interpreter).create .standard (relay v) relayConfig (.start maxDepth)

/-- Ten decisions of the reduction are enough to see the violation; it is still there two decisions later,
at the end. -/
theorem violation_final_relay :
    (∃ g : Memory.Graph, g.Built ∧ g.findCycle.isSome = true ∧ (1, 2) ∈ (g.read 1 16 none).edges ∧
      (g.read 1 16 none).findCycle.isSome = true) ∧
    ∃ x y, relayed (.imm 1) (some 10) = .ok x ∧ relayed (.imm 1) none = .ok y ∧
      x.run.2.scheduler.bounded = true ∧ x.reportsViolation relayConfig = true ∧
      y.run.2.machine.isDone = true ∧ y.run.2.machine.graph.findCycle.isSome = true ∧
      y.reportsViolation relayConfig = true := by
  obtain ⟨hgraphs, hexecutions⟩ := violation_final
  constructor
  · have hissued : Memory.Graph.Built
        ((((Memory.Graph.empty.write 1 8).read 1 16 none).write 2 16).read 2 8 none) :=
      .read 2 8 none (.write 2 16 (.read 1 16 none (.write 1 8 .empty) (by simp))) (by simp)
    have hbuilt := Memory.Graph.Built.commit 2 (.commit 0 hissued (by decide)) (by decide)
    obtain ⟨hedges, hcycle⟩ := hgraphs _ _ hbuilt (.single (.read _ 1 16 none (by simp)))
    exact ⟨_, hbuilt, by decide +kernel, hedges (1, 2) (by decide +kernel), hcycle (by decide +kernel)⟩
  · obtain ⟨x, hx, hy⟩ := exists_of_any (x := relayed (.imm 1) (some 10))
      (p := fun x => (relayed (.imm 1) none).toOption.any fun y =>
        x.run.2.scheduler.bounded && x.reportsViolation relayConfig &&
          x.run.2.machine.events.isPrefixOf y.run.2.machine.events && y.run.2.machine.isDone &&
          y.run.1 == .ok false)
      (by decide +kernel)
    obtain ⟨y, hy, hxy⟩ := exists_of_any hy
    simp only [Bool.and_eq_true, List.isPrefixOf_iff_prefix, beq_iff_eq] at hxy
    obtain ⟨⟨⟨⟨hbounded, hviolates⟩, hevents⟩, hdone⟩, hends⟩ := hxy
    obtain ⟨hcycle, hreports⟩ := hexecutions _ _ _ _ _ _ _ _ x y hx hy hviolates hevents
    exact ⟨x, y, hx, hy, hbounded, hviolates, hdone, hcycle, hreports.mpr hends⟩

/-- **A violation is lost behind an error.**  Ten decisions of the reduction are enough to see the
violation.  Without the bound the execution goes on, its assertion fails, and only that is reported. -/
theorem violation_lost_behind_error :
    ∃ x y, relayed (.reg 0) (some 10) = .ok x ∧ relayed (.reg 0) none = .ok y ∧
      x.run.2.scheduler.bounded = true ∧ x.reportsViolation relayConfig = true ∧
      x.run.2.machine.events <+: y.run.2.machine.events ∧
      y.run.2.machine.errors.map TraceError.kind = [.assertionFailure] ∧
      y.reportsViolation relayConfig = false := by
  obtain ⟨x, hx, hy⟩ := exists_of_any (x := relayed (.reg 0) (some 10))
    (p := fun x => (relayed (.reg 0) none).toOption.any fun y =>
      x.run.2.scheduler.bounded && x.reportsViolation relayConfig &&
        x.run.2.machine.events.isPrefixOf y.run.2.machine.events &&
        y.run.2.machine.errors.map TraceError.kind == [.assertionFailure] &&
        !y.reportsViolation relayConfig)
    (by decide +kernel)
  obtain ⟨y, hy, hxy⟩ := exists_of_any hy
  simp only [Bool.and_eq_true, List.isPrefixOf_iff_prefix, beq_iff_eq, Bool.not_eq_true'] at hxy
  obtain ⟨⟨⟨⟨hbounded, hviolates⟩, hevents⟩, herrors⟩, hlost⟩ := hxy
  exact ⟨x, y, hx, hy, hbounded, hviolates, hevents, herrors, hlost⟩

end Execution

end Interleave
