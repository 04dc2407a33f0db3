import Interleave.Exploration.Checker

/-! # Watching a scheduler at work

An exploration works with any scheduler, so one may hand it a scheduler under observation: `Observed σ`
does what a scheduler of type `σ` does and keeps a record of it.  What an exploration sees of a
scheduler is what the scheduler answers; a map between two schedulers that respects the answers
(`Scheduler.Respects`) therefore goes through all parts of an exploration, from the run of the machine
(`Machine.runLoop_map`) to the whole (`Checker.runWith_map`).  The same holds of its engines
(`Engine.Respects`, `Exploration.explore_map`).  To forget the record is such a map, so that
`Checker.observe` is `Checker.run` with a record (`Checker.run_eq_observe`). -/

namespace Interleave

/-- The map between the states of two schedulers respects all that they do. -/
structure Scheduler.Respects {τ σ : Type} [Scheduler τ] [Scheduler σ] (f : τ → σ) : Prop where
  schedule : ∀ q cs, Scheduler.schedule (f q) cs = Prod.map id f (Scheduler.schedule q cs)
  executionFailed : ∀ q, Scheduler.executionFailed (f q) = f (Scheduler.executionFailed q)
  endExecution : ∀ q, Scheduler.endExecution (f q) = f (Scheduler.endExecution q)
  wasRedundant : ∀ q, Scheduler.wasRedundant (f q) = Scheduler.wasRedundant q
  advance : ∀ q, Scheduler.advance (f q) = Prod.map id f (Scheduler.advance q)

open Scheduler (Respects)

variable {τ σ : Type} [Scheduler τ] [Scheduler σ] {f : τ → σ}

/-! ### Executions -/

theorem Machine.runLoop_map (hf : Respects f) (s : Setup) (fuel : Nat) (m : Machine) (q : τ) :
    m.runLoop s fuel (f q) = Prod.map id (Prod.map id f) (m.runLoop s fuel q) := by
  induction fuel generalizing m q with
  | zero => rfl
  | succ fuel ih =>
      rw [runLoop, runLoop]
      generalize m.settle s = settled
      obtain ⟨m, _ | why⟩ := settled
      · simp only
        cases m.candidates s with
        | error why => rfl
        | ok cs =>
            cases cs with
            | nil =>
                simp only
                split
                · rfl
                · split <;> rfl
            | cons c cs =>
                simp only [hf.schedule]
                generalize Scheduler.schedule q (c :: cs) = answer
                obtain ⟨d, q⟩ := answer
                cases d with
                | run p =>
                    simp only [Prod.map, id]
                    cases m.step s p with
                    | error why => rfl
                    | ok m => exact ih m q
                | _ => rfl
      · rfl

/-- The execution with another scheduler. -/
def Execution.map (f : τ → σ) (x : Execution τ) : Execution σ :=
  ⟨x.setup, x.fuel, x.machine, f x.scheduler⟩

theorem Execution.run_map (hf : Respects f) (x : Execution τ) :
    (x.map f).run = Prod.map id (Execution.map f) x.run := by
  simp only [Execution.run, Execution.map, Machine.runLoop_map hf]
  generalize x.machine.runLoop x.setup x.fuel x.scheduler = ran
  obtain ⟨ending, m, q⟩ := ran
  cases ending with
  | stopped why => cases why <;> rfl
  | _ => rfl

/-- A call goes on behind its first part unless that was broken off. -/
theorem Call.run_bind {ε α β : Type} (x : Call ε α) (k : α → Call ε β) (e : ε) :
    ExceptT.run (x >>= k) e = match ExceptT.run x e with
      | (.ok a, e) => ExceptT.run (k a) e
      | (.error why, e) => (.error why, e) := by
  simp only [ExceptT.run, bind, ExceptT.bind, ExceptT.mk, StateT.bind, ExceptT.bindCont]
  generalize x e = reply
  obtain ⟨_ | a, e⟩ := reply <;> rfl

/-- The two calls do the same to engines that the map relates. -/
def Call.Alike {ε ε' α : Type} (φ : ε' → ε) (y : Call ε α) (x : Call ε' α) : Prop :=
  ∀ e, ExceptT.run y (φ e) = Prod.map id φ (ExceptT.run x e)

theorem Call.map_bind {ε ε' α β : Type} {φ : ε' → ε} {y : Call ε α} {x : Call ε' α}
    {l : α → Call ε β} {k : α → Call ε' β} {e : ε'}
    (h : ExceptT.run y (φ e) = Prod.map id φ (ExceptT.run x e)) (hk : ∀ a, Alike φ (l a) (k a)) :
    ExceptT.run (y >>= l) (φ e) = Prod.map id φ (ExceptT.run (x >>= k) e) := by
  rw [run_bind, run_bind, h]
  generalize ExceptT.run x e = reply
  obtain ⟨_ | a, e⟩ := reply
  · rfl
  · exact hk a e

/-- The map between the states of two engines respects all that they do, and is `f` on their
schedulers. -/
structure Engine.Respects {ε ε' : Type} [Engine ε' τ] [Engine ε σ] (f : τ → σ) (φ : ε' → ε) :
    Prop where
  run : Call.Alike φ Engine.run Engine.run
  checkRobustness : Call.Alike φ Engine.checkRobustness Engine.checkRobustness
  extractTrace : Call.Alike φ Engine.extractTrace Engine.extractTrace
  scheduler : ∀ e, Engine.scheduler (φ e) = f (Engine.scheduler e)
  log : ∀ e, Engine.log (φ e) = Engine.log e

section

variable {ε ε' : Type} [Engine ε' τ] [Engine ε σ] {φ : ε' → ε}

omit [Scheduler τ] [Scheduler σ] in
/-- An execution goes the same way if the run does. -/
theorem Engine.map_execute (cfg : Config) {e : ε'}
    (hrun : ExceptT.run (Engine.run : Call ε Bool) (φ e) = Prod.map id φ (ExceptT.run Engine.run e))
    (hcheck : Call.Alike φ (Engine.checkRobustness : Call ε Bool) Engine.checkRobustness)
    (hextract : Call.Alike φ (Engine.extractTrace : Call ε Trace) Engine.extractTrace) :
    ExceptT.run (Engine.execute cfg : Call ε Trace) (φ e) =
      Prod.map id φ (ExceptT.run (Engine.execute cfg) e) := by
  have hhanded : ∀ errored : Bool, Call.Alike φ
      (if errored || cfg.collectTraces then Engine.extractTrace else pure .empty)
      (if errored || cfg.collectTraces then Engine.extractTrace else pure .empty) := by
    intro errored
    split
    · exact hextract
    · exact fun _ => rfl
  refine Call.map_bind hrun fun errored => ?_
  split
  · exact fun e => Call.map_bind (hcheck e) hhanded
  · exact fun e => Call.map_bind (φ := φ) rfl hhanded

omit [Scheduler τ] [Scheduler σ] in
theorem Engine.Respects.execute (h : Engine.Respects f φ) (cfg : Config) :
    Call.Alike φ (Engine.execute cfg : Call ε Trace) (Engine.execute cfg) :=
  fun e => map_execute cfg (h.run e) h.checkRobustness h.extractTrace

end

theorem Execution.respects_map (hf : Respects f) : Engine.Respects f (Execution.map f) where
  run := run_map hf
  checkRobustness _ := rfl
  extractTrace _ := rfl
  scheduler _ := rfl
  log _ := rfl

theorem Execution.scheduler_execute (cfg : Config) (x : Execution σ) :
    (ExceptT.run (Engine.execute cfg : Call (Execution σ) Trace) x).2.scheduler =
      x.run.2.scheduler := by
  have hextract : ∀ (errored : Bool) (y : Execution σ),
      (ExceptT.run (if errored || cfg.collectTraces then Engine.extractTrace else pure .empty :
        Call (Execution σ) Trace) y).2.scheduler = y.scheduler := by
    intro errored y
    split <;> rfl
  have hrun : ExceptT.run (Engine.run : Call (Execution σ) Bool) x = x.run := rfl
  rw [Engine.execute, Call.run_bind, hrun]
  generalize x.run = ran
  obtain ⟨_ | errored, y⟩ := ran
  · rfl
  · simp only
    split
    · exact hextract _ { y with machine := y.machine.checkRobustness.2 }
    · exact hextract errored y

/-! ### Explorations -/

/-- The same progress with another scheduler. -/
def Progress.map (f : τ → σ) (g : Progress τ) : Progress σ :=
  ⟨g.session, f g.scheduler, g.result, g.iteration, g.log⟩

namespace Exploration

variable {ε ε' : Type} [Engine ε' τ] [Engine ε σ] {φ : ε' → ε} {x : Exploration τ ε'}
  {y : Exploration σ ε}

/-- The two explorations are the same but for their schedulers and engines. -/
structure Mapped (f : τ → σ) (φ : ε' → ε) (x : Exploration τ ε') (y : Exploration σ ε) : Prop where
  registry : y.registry = x.registry
  config : y.config = x.config
  create : ∀ p q, y.create p x.config (f q) = (x.create p x.config q).map φ

omit [Engine ε' τ] [Engine ε σ] in
theorem account_map (hf : Respects f) (hconfig : y.config = x.config) (g : Progress τ)
    (trace : Trace) :
    y.account (g.map f) trace = Prod.map id (Progress.map f) (x.account g trace) := by
  have hfailed : (if trace.wasCutShort then Scheduler.executionFailed (f g.scheduler)
      else f g.scheduler) =
      f (if trace.wasCutShort then Scheduler.executionFailed g.scheduler else g.scheduler) := by
    rw [hf.executionFailed, apply_ite f]
  simp only [account, Progress.map, hconfig, hfailed, hf.endExecution, hf.wasRedundant, hf.advance]
  split <;> rfl

theorem round_map (hf : Respects f) (hφ : Engine.Respects f φ) (h : Mapped f φ x y)
    (g : Progress τ) : y.round (g.map f) = Prod.map id (Progress.map f) (x.round g) := by
  have hrefresh : y.refresh (g.map f) = x.refresh g := by
    simp only [refresh, Progress.map, h.registry, h.config]
  unfold round
  rw [hrefresh]
  cases x.refresh g with
  | error why => rfl
  | ok session =>
      simp only [Progress.map, h.config, h.create]
      cases x.create session.program x.config g.scheduler with
      | error why => rfl
      | ok engine =>
          simp only [Except.map, hφ.execute x.config engine]
          generalize ExceptT.run (Engine.execute x.config) engine = reply
          obtain ⟨reply, engine⟩ := reply
          simp only [Prod.map, id, hφ.scheduler, hφ.log]
          match reply with
          | .ok trace => exact account_map hf h.config ⟨session, _, g.result, g.iteration, _⟩ trace
          | .error (.fault _) => exact account_map hf h.config ⟨session, _, g.result, g.iteration, _⟩ _
          | .error .outOfFuel => rfl

theorem rounds_map (hf : Respects f) (hφ : Engine.Respects f φ) (h : Mapped f φ x y) (fuel : Nat)
    (g : Progress τ) : y.rounds fuel (g.map f) = Prod.map id (Progress.map f) (x.rounds fuel g) := by
  induction fuel generalizing g with
  | zero => rfl
  | succ fuel ih =>
      rw [rounds, rounds, round_map hf hφ h]
      generalize x.round g = done
      obtain ⟨outcome, g⟩ := done
      cases outcome with
      | continues => exact ih g
      | _ => rfl

/-- **An exploration sees of its scheduler and its engines only what they answer.** -/
theorem explore_map (hf : Respects f) (hφ : Engine.Respects f φ) (h : Mapped f φ x y) (fuel : Nat)
    (s : Session) (q : τ) :
    y.explore fuel s (f q) = Prod.map id (Progress.map f) (x.explore fuel s q) := by
  have hrounds := rounds_map hf hφ h fuel ⟨s, q, .empty, 0, [opening x.config s]⟩
  unfold explore
  rw [h.config, show (⟨s, f q, .empty, 0, [opening x.config s]⟩ : Progress σ) =
    Progress.map f ⟨s, q, .empty, 0, [opening x.config s]⟩ from rfl, hrounds]
  generalize x.rounds fuel _ = done
  obtain ⟨outcome, g⟩ := done
  cases outcome <;> rfl

theorem scheduler_explore (x : Exploration τ ε') (fuel : Nat) (s : Session) (q : τ) :
    (x.explore fuel s q).2.scheduler =
      (x.rounds fuel ⟨s, q, .empty, 0, [opening x.config s]⟩).2.scheduler := by
  unfold explore
  generalize x.rounds fuel ⟨s, q, .empty, 0, [opening x.config s]⟩ = done
  obtain ⟨outcome, g⟩ := done
  cases outcome <;> rfl

end Exploration

namespace Checker

/-- The exploration with an interpreter. -/
def explorationBy (σ : Type) [Scheduler σ] (c : Checker) (i : Interpreter) :
    Exploration σ (Execution σ) := ⟨c.registry, c.config, i.create c.registry⟩

variable (c : Checker)

omit [Scheduler τ] [Scheduler σ] in
theorem create_map (r : Registry) (i : Interpreter) (p : Program) (cfg : Config) (q : τ) :
    i.create r p cfg (f q) = (i.create r p cfg q).map (Execution.map f) := by
  simp only [Interpreter.create, bind, Except.bind]
  split
  · rfl
  · split
    · rfl
    · split <;> rfl

/-- A checker sees of its scheduler only what that answers. -/
theorem runWith_map (hf : Respects f) (fuel : Nat) (q : τ) :
    c.runWith fuel (f q) = Prod.map id (Progress.map f) (c.runWith fuel q) := by
  unfold runWith
  cases c.select fuel with
  | error why => rfl
  | ok i =>
      exact Exploration.explore_map (x := c.explorationBy τ i) (y := c.explorationBy σ i) hf
        (Execution.respects_map hf) ⟨rfl, rfl, fun p q => create_map c.registry i p c.config q⟩ fuel
        c.session q

end Checker

/-! ### The observer -/

/-- A scheduler under observation. -/
structure Observed (σ : Type) where
  scheduler : σ
  /-- The scheduler before the current execution. -/
  first : σ
  /-- What the scheduler was when it was asked to decide, and what it was offered. -/
  asked : List (σ × List Candidate)
  /-- What the scheduler was before and behind each execution that has ended. -/
  ended : List (σ × σ)

namespace Observed

/-- An observation that has just begun. -/
def start (q : σ) : Observed σ := ⟨q, q, [], []⟩

instance : Scheduler (Observed σ) where
  schedule q cs :=
    let (d, scheduler) := Scheduler.schedule q.scheduler cs
    (d, { q with scheduler, asked := q.asked ++ [(q.scheduler, cs)] })
  executionFailed q := { q with scheduler := Scheduler.executionFailed q.scheduler }
  endExecution q :=
    let scheduler := Scheduler.endExecution q.scheduler
    { q with scheduler, ended := q.ended ++ [(q.first, scheduler)] }
  wasRedundant q := Scheduler.wasRedundant q.scheduler
  advance q :=
    let (more, scheduler) := Scheduler.advance q.scheduler
    (more, { q with scheduler, first := scheduler })

theorem respects_scheduler : Respects (scheduler : Observed σ → σ) where
  schedule _ _ := rfl
  executionFailed _ := rfl
  endExecution _ := rfl
  wasRedundant _ := rfl
  advance _ := rfl

end Observed

namespace Checker

/-- Explore the program with the reduction under observation. -/
def observe (c : Checker) (fuel : Nat) : Outcome × Progress (Observed Reduction) :=
  let q := Observed.start (Reduction.start c.config.maxDepth)
  match c.config.model with
  | .pso => c.fail (.unsupportedModel .pso) q
  | _ => c.runWith fuel q

/-- **Observation does not interfere.** -/
theorem run_eq_observe (c : Checker) (fuel : Nat) :
    c.run fuel = Prod.map id (Progress.map Observed.scheduler) (c.observe fuel) := by
  have hrunWith := c.runWith_map Observed.respects_scheduler fuel
    (Observed.start (Reduction.start c.config.maxDepth))
  unfold run observe
  cases c.config.model with
  | pso => rfl
  | _ => exact hrunWith

end Checker

end Interleave
