import Interleave.Proofs.Exploration.Replay
import Interleave.Proofs.Exploration.Transcript
import Interleave.Proofs.Machine.Loop
import Interleave.Proofs.Machine.Safety

/-! # Bounded explorations end

A program need not end, and it may create threads without end.  If the depth is bounded then its
exploration ends all the same (`Checker.run_terminates`): in an execution of at most `d` decisions at
most `d` threads take part, so that there are at most `(2 * d + 1) ^ d` sequences of decisions, and no
two executions make the same decisions.

The decisions are counted by a scheduler, `Counted`.  A run that comes to an end without using up its
fuel does not change with more fuel (`Checker.run_of_le`), so what is found is the answer.  Why the
exploration ended is told by the last of the notes on it (`Exploration.EndsBy`). -/

namespace Interleave

/-! ### More fuel -/

section

variable {σ : Type} [Scheduler σ]

/-- The execution with other fuel. -/
def Execution.refueled (fuel : Nat) (x : Execution σ) : Execution σ := { x with fuel }

theorem Execution.run_refueled {x : Execution σ} {fuel : Nat} (hle : x.fuel ≤ fuel)
    (h : (x.machine.runLoop x.setup x.fuel x.scheduler).1 ≠ .outOfFuel) :
    (x.refueled fuel).run = Prod.map id (refueled fuel) x.run := by
  simp only [run, refueled, Machine.runLoop_of_le hle _ _ h]
  generalize x.machine.runLoop x.setup x.fuel x.scheduler = ran
  obtain ⟨ending, m, q⟩ := ran
  cases ending with
  | stopped why => cases why <;> rfl
  | _ => rfl

theorem Execution.execute_refueled (cfg : Config) {x : Execution σ} {fuel : Nat} (hle : x.fuel ≤ fuel)
    (h : (ExceptT.run (Engine.execute cfg : Call (Execution σ) Trace) x).1 ≠ .error .outOfFuel) :
    ExceptT.run (Engine.execute cfg : Call (Execution σ) Trace) (x.refueled fuel) =
      Prod.map id (refueled fuel) (ExceptT.run (Engine.execute cfg) x) :=
  Engine.map_execute cfg (run_refueled hle (mt (reply_execute cfg x).mpr h)) (fun _ => rfl)
    fun _ => rfl

namespace Checker

variable {c : Checker} {i j : Interpreter}

omit [Scheduler σ] in
theorem create_refueled (hmodel : j.model = i.model) (r : Registry) (p : Program) (cfg : Config)
    (q : σ) :
    (∃ why, i.create r p cfg q = .error why ∧ j.create r p cfg q = .error why) ∨
      ∃ x : Execution σ, x.fuel = i.fuel ∧ i.create r p cfg q = .ok x ∧
        j.create r p cfg q = .ok (x.refueled j.fuel) := by
  simp only [Interpreter.create, hmodel, bind, Except.bind]
  split
  · exact .inl ⟨_, rfl, rfl⟩
  · split
    · exact .inl ⟨_, rfl, rfl⟩
    · split
      · exact .inr ⟨_, rfl, rfl, rfl⟩
      · exact .inl ⟨_, rfl, rfl⟩

theorem round_refueled (hmodel : j.model = i.model) (hle : i.fuel ≤ j.fuel) {g : Progress σ}
    (h : ((c.explorationBy σ i).round g).1 ≠ .outOfFuel) :
    (c.explorationBy σ j).round g = (c.explorationBy σ i).round g := by
  have hrefresh : (c.explorationBy σ j).refresh g = (c.explorationBy σ i).refresh g := rfl
  unfold Exploration.round at h ⊢
  rw [hrefresh]
  cases hsession : (c.explorationBy σ i).refresh g with
  | error f => rfl
  | ok session =>
      simp only [hsession] at h ⊢
      rcases create_refueled hmodel c.registry session.program c.config g.scheduler with
        ⟨why, hi, hj⟩ | ⟨x, hfuel, hi, hj⟩
      · simp only [explorationBy, hi, hj]
      · simp only [explorationBy, hi] at h
        simp only [explorationBy, hi, hj]
        have hexecute : (ExceptT.run (Engine.execute c.config : Call (Execution σ) Trace) x).1 ≠
            .error .outOfFuel := by
          intro hreply
          generalize ExceptT.run (Engine.execute c.config : Call (Execution σ) Trace) x = y at h hreply
          obtain ⟨reply, x⟩ := y
          subst hreply
          exact h rfl
        rw [Execution.execute_refueled c.config (hfuel ▸ hle) hexecute]
        rfl

theorem rounds_refueled (hmodel : j.model = i.model) (hle : i.fuel ≤ j.fuel) {n k : Nat} (hnk : n ≤ k)
    {g : Progress σ} (h : ((c.explorationBy σ i).rounds n g).1 ≠ .outOfFuel) :
    (c.explorationBy σ j).rounds k g = (c.explorationBy σ i).rounds n g := by
  induction n generalizing k g with
  | zero => exact absurd rfl h
  | succ n ih =>
      obtain ⟨k, rfl⟩ : ∃ l, k = l + 1 := ⟨k - 1, by omega⟩
      rw [Exploration.rounds] at h ⊢
      rw [Exploration.rounds, round_refueled hmodel hle]
      · generalize (c.explorationBy σ i).round g = done at h
        obtain ⟨outcome, g⟩ := done
        cases outcome with
        | continues => exact ih (Nat.le_of_succ_le_succ hnk) h
        | _ => rfl
      · intro hround
        generalize (c.explorationBy σ i).round g = done at h hround
        obtain ⟨outcome, g⟩ := done
        subst hround
        exact h rfl

theorem runWith_of_le {n k : Nat} (hnk : n ≤ k) {q : σ} (h : (c.runWith n q).1 ≠ .outOfFuel) :
    c.runWith k q = c.runWith n q := by
  have hexplore : ∀ i j : Interpreter, j.model = i.model → i.fuel ≤ j.fuel →
      ((c.explorationBy σ i).explore n c.session q).1 ≠ .outOfFuel →
      (c.explorationBy σ j).explore k c.session q = (c.explorationBy σ i).explore n c.session q := by
    intro i j hmodel hle h
    rw [(Exploration.explore_eq _ _ _ _).1] at h
    unfold Exploration.explore
    rw [← rounds_refueled hmodel hle hnk h]
    rfl
  unfold runWith select at h ⊢
  cases hinterpreter : c.interpreter with
  | some i =>
      simp only [hinterpreter] at h ⊢
      exact hexplore i i rfl (Nat.le_refl _) h
  | none =>
      simp only [hinterpreter] at h ⊢
      cases hmodel : c.config.model with
      | pso => rfl
      | sc =>
          simp only [hmodel, Interpreter.forModel] at h ⊢
          exact hexplore ⟨.sc, n⟩ ⟨.sc, k⟩ rfl hnk h
      | tso =>
          simp only [hmodel, Interpreter.forModel] at h ⊢
          exact hexplore ⟨.tso, n⟩ ⟨.tso, k⟩ rfl hnk h

/-- **A run that has come to its end does not change with more fuel.** -/
theorem run_of_le {n k : Nat} (hnk : n ≤ k) (h : (c.run n).1 ≠ .outOfFuel) : c.run k = c.run n := by
  unfold run at h ⊢
  cases hmodel : c.config.model with
  | pso => rfl
  | _ =>
      simp only [hmodel] at h ⊢
      exact runWith_of_le hnk h

end Checker

end

/-! ### Counting decisions -/

/-- A scheduler whose decisions are counted. -/
structure Counted (σ : Type) where
  scheduler : σ
  /-- Number of decisions in the current execution. -/
  decisions : Nat
  /-- Number of decisions in each execution that has ended. -/
  counts : List Nat

namespace Counted

/-- Nothing has been decided. -/
def start {σ : Type} (q : σ) : Counted σ := ⟨q, 0, []⟩

instance {σ : Type} [Scheduler σ] : Scheduler (Counted σ) where
  schedule q cs :=
    let (d, scheduler) := Scheduler.schedule q.scheduler cs
    (d, { q with scheduler, decisions := q.decisions + d.proc?.toList.length })
  executionFailed q := { q with scheduler := Scheduler.executionFailed q.scheduler }
  endExecution q := ⟨Scheduler.endExecution q.scheduler, 0, q.counts ++ [q.decisions]⟩
  wasRedundant q := Scheduler.wasRedundant q.scheduler
  advance q :=
    let (more, scheduler) := Scheduler.advance q.scheduler
    (more, { q with scheduler })

theorem respects_scheduler {σ : Type} [Scheduler σ] :
    Scheduler.Respects (scheduler : Counted σ → σ) where
  schedule _ _ := rfl
  executionFailed _ := rfl
  endExecution _ := rfl
  wasRedundant _ := rfl
  advance _ := rfl

theorem concluded_eq (q : Counted Reduction) (trace : Trace) :
    Exploration.concluded q trace =
      ⟨q.scheduler.finish trace.wasCutShort, 0, q.counts ++ [q.decisions]⟩ := by
  unfold Exploration.concluded Reduction.finish
  split <;> rfl

/-- The current execution has performed `ops`, and `P` holds of the reduction. -/
structure Performs (P : List Candidate → Reduction → Prop) (counts : List Nat) (ops : List Candidate)
    (q : Counted Reduction) : Prop where
  scheduler : P ops q.scheduler
  decisions : q.decisions = ops.length
  counts_eq : q.counts = counts

end Counted

open Machine Reduction Counted

theorem Machine.guided_counted (s : Setup) (m : Machine) (maxDepth : Option Nat) (old : List Branch)
    (r₀ : Reduction) (counts : List Nat) :
    Guided s m (Performs (Underway (system s m).offers maxDepth old r₀) counts)
      (Performs (Over (system s m).offers maxDepth old r₀) counts) := by
  intro ops q h _
  have hanswer : Scheduler.schedule q ((system s m).offers (procs ops)) =
      ((q.scheduler.schedule ((system s m).offers (procs ops))).1,
        ⟨(q.scheduler.schedule ((system s m).offers (procs ops))).2, q.decisions +
          (q.scheduler.schedule ((system s m).offers (procs ops))).1.proc?.toList.length,
          q.counts⟩) := rfl
  rcases h.scheduler.schedule with ⟨c, hc, r', hs, hunderway⟩ | ⟨r', hs, hover⟩
  · rw [hs] at hanswer
    refine .inl ⟨c, hc, _, hanswer, hunderway, ?_, h.counts_eq⟩
    rw [List.length_append, ← h.decisions]
    rfl
  · rw [hs] at hanswer
    exact .inr ⟨_, hanswer, hover, h.decisions, h.counts_eq⟩

/-- **An execution within the depth bound** comes to its end. -/
theorem Execution.performs_execute (cfg : Config) {s : Setup} {m : Machine} {d fuel : Nat}
    (hfuel : d < fuel) {q : Counted Reduction} {old : List Branch}
    (hmidway : Midway (system s m).offers (some d) old [] q.scheduler) (hdecisions : q.decisions = 0) :
    let y := ExceptT.run (Engine.execute cfg : Call (Execution (Counted Reduction)) Trace)
      ⟨s, fuel, m, q⟩
    y.1 ≠ .error .outOfFuel ∧ ∃ ops,
      Performs (Over (system s m).offers (some d) old q.scheduler) q.counts ops y.2.scheduler := by
  obtain ⟨ops, ⟨hreply, ⟨hnil, h⟩ | h⟩ | ⟨-, hlength, h⟩⟩ := concludes_execute cfg
    (guided_counted s m (some d) old q.scheduler q.counts) fuel (q := q)
    ⟨underway_nil hmidway, hdecisions, rfl⟩
  · exact ⟨hreply, ops, h.scheduler.over hnil, h.decisions, h.counts_eq⟩
  · exact ⟨hreply, ops, h⟩
  · -- the path never gets longer than `d`, and so the fuel is not used up
    have hle := h.scheduler.midway.position_le
    have hwithin := h.scheduler.midway.within d rfl
    omega

/-! ### The bound -/

/-- **The number of executions** of depth `d` at most.  The executions begin with one thread, and each
decision creates at most one. -/
theorem Machine.length_le_of_explores {s : Setup} {m : Machine} (hm : m.threads.length = 1) {d : Nat}
    {log : List Explored} {more : Bool} {r : Reduction}
    (h : Explores (system s m).offers (some d) log more r) : log.length ≤ (2 * d + 1) ^ d := by
  have hrun : ∀ ops, IsRun (system s m).offers ops → (∀ k, some d = some k → ops.length ≤ k) →
      ops.length ≤ d ∧ procs ops ⊆ procsBelow d := by
    intro ops hrun hwithin
    have hle := hwithin d rfl
    exact ⟨hle, procs_subset_procsBelow hrun (by omega)⟩
  have hlength : (procsBelow d).length = 2 * d := by
    rw [procsBelow, List.length_append, List.length_map, List.length_map, List.length_range]
    omega
  calc log.length
      ≤ (words (procsBelow d) d).length := h.length_le (nodup_offers s m) hrun
    _ ≤ ((procsBelow d).length + 1) ^ d := length_words_le _ d
    _ = (2 * d + 1) ^ d := by rw [hlength]

/-- The scheduler is asked for another execution, or one error is enough. -/
theorem Exploration.account_cases {σ ε : Type} [Scheduler σ] (x : Exploration σ ε) (g : Progress σ)
    (trace : Trace) :
    (∃ g', x.account g trace = (.finished, g') ∧ g'.scheduler = concluded g.scheduler trace ∧
      g'.session = g.session) ∨
    ∃ g', x.account g trace = (if (Scheduler.advance (concluded g.scheduler trace)).1 then .continues
        else .finished, g') ∧
      g'.scheduler = (Scheduler.advance (concluded g.scheduler trace)).2 ∧
      g'.session = g.session := by
  unfold account
  simp only
  split
  · exact .inl ⟨_, rfl, rfl, rfl⟩
  · exact .inr ⟨_, rfl, rfl, rfl⟩

theorem Exploration.explore_of_create_eq_error {σ ε : Type} [Scheduler σ] [Engine ε σ]
    {x : Exploration σ ε} {s session : Session} {q : σ} {f : Failure}
    (hrefresh : x.refresh ⟨s, q, .empty, 0, [opening x.config s]⟩ = .ok session)
    (hcreate : x.create session.program x.config q = .error f) (fuel : Nat) :
    x.explore (fuel + 1) s q = (.failed f, ⟨session, q, .empty, 0, [opening x.config s]⟩) := by
  simp only [explore, rounds, round, hrefresh, hcreate]

namespace Checker

variable {c : Checker} {m : Machine} {d fuel : Nat} {g : Progress (Counted Reduction)}
  {log : List Explored}

/-- The executions in the log have been performed, and their decisions counted. -/
structure Counts (c : Checker) (log : List Explored) (g : Progress (Counted Reduction)) : Prop where
  kept : c.Kept g
  counts : g.scheduler.counts = log.map fun x => x.ops.length
  executions : g.result.executionCount = log.length

/-- **One more execution** of depth `d` at most. -/
theorem Starts.exists_attempt (h : c.Starts m) (hfuel : d < fuel) (hkept : c.Kept g)
    (hdecisions : g.scheduler.decisions = 0)
    (hx : Explores (system c.setup m).offers (some d) log true g.scheduler.scheduler) :
    ∃ g' trace ops, (c.exploration (Counted Reduction) fuel).attempt g = some (g', trace) ∧
      c.Kept g' ∧ Performs (Over (system c.setup m).offers (some d)
        g.scheduler.scheduler.path.branches g.scheduler.scheduler) g.scheduler.counts ops
        g'.scheduler := by
  obtain ⟨-, t, -, hprepared, -⟩ := hx.tree (fun _ => False) (by simp)
  obtain ⟨hreply, ops, hperforms⟩ := Execution.performs_execute c.config hfuel (q := g.scheduler)
    (hprepared rfl).1.midway hdecisions
  generalize hexecute : ExceptT.run (Engine.execute c.config :
    Call (Execution (Counted Reduction)) Trace) ⟨c.setup, fuel, m, g.scheduler⟩ = y at hreply hperforms
  obtain ⟨g', hattempt, hscheduler, hkept'⟩ := h.attempt_of_execute hkept hexecute
  obtain ⟨trace, htrace⟩ : ∃ trace, Exploration.reported? y.1 = some trace := by
    match y.1, hreply with
    | .ok trace, _ => exact ⟨trace, rfl⟩
    | .error (.fault f), _ => exact ⟨_, rfl⟩
  rw [htrace] at hattempt
  exact ⟨g', trace, ops, hattempt, hkept', hscheduler ▸ hperforms⟩

/-- **One more round**, behind which the exploration is finished or goes on. -/
theorem Starts.counts_round (h : c.Starts m) (hfuel : d < fuel) (hg : c.Counts log g)
    (hdecisions : g.scheduler.decisions = 0)
    (hx : Explores (system c.setup m).offers (some d) log true g.scheduler.scheduler) :
    ∃ e o g', (c.exploration (Counted Reduction) fuel).round g = (o, g') ∧ c.Counts (log ++ [e]) g' ∧
      (∃ more r, Explores (system c.setup m).offers (some d) (log ++ [e]) more r) ∧
      (o = .finished ∨ o = .continues ∧ g'.scheduler.decisions = 0 ∧
        Explores (system c.setup m).offers (some d) (log ++ [e]) true g'.scheduler.scheduler) := by
  obtain ⟨g₁, trace, ops, hattempt, hkept, hperforms⟩ := h.exists_attempt hfuel hg.kept hdecisions hx
  obtain ⟨hround, hresult⟩ := (c.exploration (Counted Reduction) fuel).round_of_attempt g hattempt
  have hexplores := Explores.execution trace.wasCutShort hx hperforms.scheduler.executes
  have hops : Explored.ops ⟨g₁.scheduler.scheduler.finish trace.wasCutShort, trace.wasCutShort⟩ = ops :=
    hperforms.scheduler.executed.ops_finish _
  have hcounts : ∀ o g', (c.exploration (Counted Reduction) fuel).account g₁ trace = (o, g') →
      g'.session = g₁.session → g'.scheduler.counts = g₁.scheduler.counts ++ [g₁.scheduler.decisions] →
      c.Counts (log ++ [⟨g₁.scheduler.scheduler.finish trace.wasCutShort, trace.wasCutShort⟩]) g' := by
    intro o g' haccount hsession hcounts
    have hadd := (c.exploration (Counted Reduction) fuel).result_account g₁ trace
    rw [haccount, hresult] at hadd
    refine ⟨⟨hsession ▸ hkept.source, hsession ▸ hkept.program⟩, ?_, ?_⟩
    · rw [hcounts, hperforms.counts_eq, hperforms.decisions, hg.counts, List.map_append,
        List.map_singleton, hops]
    · rw [hadd, Result.executionCount_add, hg.executions, List.length_append, List.length_singleton]
  rw [hround]
  rcases Exploration.account_cases (c.exploration (Counted Reduction) fuel) g₁ trace with
    ⟨g', haccount, hscheduler, hsession⟩ | ⟨g', haccount, hscheduler, hsession⟩
  · refine ⟨_, .finished, g', haccount, hcounts _ g' haccount hsession ?_, ⟨_, _, hexplores⟩, .inl rfl⟩
    rw [hscheduler, concluded_eq]
  · have hadvance : Scheduler.advance (Exploration.concluded g₁.scheduler trace) =
        ((g₁.scheduler.scheduler.finish trace.wasCutShort).advance.1,
          ⟨(g₁.scheduler.scheduler.finish trace.wasCutShort).advance.2, 0,
            g₁.scheduler.counts ++ [g₁.scheduler.decisions]⟩) := by
      rw [concluded_eq]
      rfl
    rw [hadvance] at haccount hscheduler
    refine ⟨_, _, g', haccount, hcounts _ g' haccount hsession (by rw [hscheduler]),
      ⟨_, _, hexplores⟩, ?_⟩
    rw [hscheduler]
    cases hmore : (g₁.scheduler.scheduler.finish trace.wasCutShort).advance.1 with
    | false => exact .inl rfl
    | true => exact .inr ⟨rfl, rfl, hmore ▸ hexplores⟩

/-- **Many rounds** finish the exploration or add as many executions as they are. -/
theorem Starts.counts_rounds (h : c.Starts m) (hfuel : d < fuel) (k : Nat) (hg : c.Counts log g)
    (hdecisions : g.scheduler.decisions = 0)
    (hx : Explores (system c.setup m).offers (some d) log true g.scheduler.scheduler) :
    ∃ log' o g', (c.exploration (Counted Reduction) fuel).rounds k g = (o, g') ∧
      c.Counts (log ++ log') g' ∧
      (∃ more r, Explores (system c.setup m).offers (some d) (log ++ log') more r) ∧
      (o = .finished ∨ log'.length = k) := by
  induction k generalizing g log with
  | zero =>
      refine ⟨[], .outOfFuel, g, rfl, ?_, ?_, .inr rfl⟩
      · rwa [List.append_nil]
      · rw [List.append_nil]
        exact ⟨_, _, hx⟩
  | succ k ih =>
      rw [Exploration.rounds]
      obtain ⟨e, o, g₁, hround, hg₁, hexplores, rfl | ⟨rfl, hdecisions₁, hx₁⟩⟩ :=
        h.counts_round hfuel hg hdecisions hx
      · rw [hround]
        exact ⟨[e], .finished, g₁, rfl, hg₁, hexplores, .inl rfl⟩
      · rw [hround]
        obtain ⟨log', o, g', hrounds, hg', hexplores', hend⟩ := ih hg₁ hdecisions₁ hx₁
        rw [List.append_assoc, List.singleton_append] at hg' hexplores'
        refine ⟨e :: log', o, g', hrounds, hg', hexplores', hend.imp_right fun hlength => ?_⟩
        rw [List.length_cons, hlength]

/-- Explore the program with the reduction, whose decisions are counted. -/
def count (c : Checker) (fuel : Nat) : Outcome × Progress (Counted Reduction) :=
  c.runWith fuel (Counted.start (Reduction.start c.config.maxDepth))

/-- What is counted in an exploration of depth `d`: the executions, and the decisions in each. -/
structure Bounded (d : Nat) (g : Progress (Counted Reduction)) : Prop where
  executions : g.result.executionCount ≤ (2 * d + 1) ^ d
  counted : g.scheduler.counts.length = g.result.executionCount
  decisions : ∀ n ∈ g.scheduler.counts, n ≤ d

theorem Starts.count_finished (h : c.Starts m) (hthreads : m.threads.length = 1)
    (hdepth : c.config.maxDepth = some d) (hfuel : (2 * d + 1) ^ d < fuel) :
    (c.count fuel).1 = .finished ∧ Bounded d (c.count fuel).2 := by
  have hd : d < fuel := by
    cases d with
    | zero => omega
    | succ d =>
        have := Nat.lt_pow_self (n := d + 1) (show 1 < 2 * (d + 1) + 1 by omega)
        omega
  have hstart : Explores (system c.setup m).offers (some d) [] true
      (c.beginning (Counted.start (Reduction.start c.config.maxDepth))).scheduler.scheduler := by
    rw [hdepth]
    exact .start
  obtain ⟨log, o, g, hrounds, hg, ⟨more, r, hx⟩, hend⟩ := h.counts_rounds hd fuel
    (g := c.beginning (Counted.start (Reduction.start c.config.maxDepth)))
    ⟨⟨rfl, rfl⟩, rfl, rfl⟩ rfl hstart
  rw [List.nil_append] at hg hx
  have hle := length_le_of_explores hthreads hx
  obtain rfl : o = .finished := hend.resolve_right (by omega)
  obtain ⟨g', hrounds', hexplore⟩ := (c.exploration (Counted Reduction) fuel).exists_rounds_of_explore
    (by rw [(Exploration.explore_eq _ _ _ _).1]; exact congrArg Prod.fst hrounds)
  obtain rfl : g = g' := congrArg Prod.snd (hrounds.symm.trans hrounds')
  rw [count, h.runWith_eq, hexplore]
  refine ⟨rfl, hg.executions ▸ hle, ?_, fun n hn => ?_⟩
  · simp only [hg.counts, hg.executions, List.length_map]
  · rw [hg.counts] at hn
    obtain ⟨e, he, rfl⟩ := List.mem_map.mp hn
    exact ((hx.tree (fun _ => False) (by simp)).1 e he).within d rfl

theorem count_failed (hsource : Program.build c.registry c.session.source = .ok c.session.program)
    (hmodel : c.config.model ≠ .pso) (hinterpreter : c.interpreter = none)
    (hcells : Interpreter.maxCells < c.session.program.globals.length) (hfuel : 0 < fuel) (d : Nat) :
    (c.count fuel).1 = .failed
        (.engine (.memoryLimit c.session.program.globals.length Interpreter.maxCells)) ∧
      Bounded d (c.count fuel).2 := by
  obtain ⟨k, rfl⟩ : ∃ k, fuel = k + 1 := ⟨fuel - 1, by omega⟩
  obtain ⟨session, hrefresh, -, hprogram⟩ := exists_refresh hsource
    (x := c.exploration (Counted Reduction) (k + 1)) rfl
    (g := c.beginning (Counted.start (Reduction.start c.config.maxDepth))) ⟨rfl, rfl⟩
  have hcreate : (c.exploration (Counted Reduction) (k + 1)).create session.program
      (c.exploration (Counted Reduction) (k + 1)).config
      (Counted.start (Reduction.start c.config.maxDepth)) = .error
        (.engine (.memoryLimit c.session.program.globals.length Interpreter.maxCells)) := by
    rw [hprogram]
    simp only [exploration, Interpreter.create, ne_eq, not_true_eq_false, if_false, hcells, if_true]
    rfl
  rw [count, runWith_eq_explore hmodel hinterpreter,
    Exploration.explore_of_create_eq_error hrefresh hcreate]
  exact ⟨rfl, Nat.zero_le _, rfl, fun n hn => absurd hn List.not_mem_nil⟩

theorem exists_machine_start {s : Setup}
    (hmain : (s.program.find? Program.entryPoint).isSome = true) :
    ∃ m, (s.program.find? Program.entryPoint).map (Machine.start s) = some (.ok m) ∧
      m.threads.length = 1 := by
  obtain ⟨entry, hentry⟩ := Option.isSome_iff_exists.mp hmain
  obtain ⟨th, hth, -⟩ := Machine.exists_start (s := s)
    (List.findIdx?_eq_some_iff_findIdx_eq.mp hentry).1
  refine ⟨⟨s.program.globals.map Global.init, [th], [], [], .empty, []⟩, ?_, rfl⟩
  rw [hentry, Option.map_some, Machine.start, hth]
  rfl

theorem run_eq_count (hmodel : c.config.model ≠ .pso) (fuel : Nat) :
    c.run fuel = Prod.map id (Progress.map Counted.scheduler) (c.count fuel) := by
  rw [run_eq_runWith hmodel]
  exact c.runWith_map Counted.respects_scheduler fuel
    (Counted.start (Reduction.start c.config.maxDepth))

/-- The exploration with the reduction, under observation. -/
def note (c : Checker) (fuel : Nat) : Outcome × Progress (Noted Reduction) :=
  (c.exploration Reduction fuel).noted.explore fuel c.session (.start (.start c.config.maxDepth))

theorem run_eq_explore (hmodel : c.config.model ≠ .pso) (hinterpreter : c.interpreter = none)
    (fuel : Nat) : c.run fuel =
      (c.exploration Reduction fuel).explore fuel c.session (.start c.config.maxDepth) := by
  rw [run_eq_runWith hmodel, runWith_eq_explore hmodel hinterpreter]

theorem run_eq_note (hmodel : c.config.model ≠ .pso) (hinterpreter : c.interpreter = none)
    (fuel : Nat) : c.run fuel = Prod.map id (Progress.map Noted.state) (c.note fuel) := by
  rw [run_eq_explore hmodel hinterpreter]
  exact Exploration.explore_noted _ fuel _ _

theorem endsBy_run (hmodel : c.config.model ≠ .pso) (hinterpreter : c.interpreter = none)
    (h : (c.run fuel).1 = .finished) :
    Exploration.EndsBy c.config (c.run fuel).2.result (c.note fuel).2.scheduler.notes := by
  rw [run_eq_explore hmodel hinterpreter] at h ⊢
  obtain ⟨es, hconsists⟩ := Exploration.exists_consists _ fuel _ _ h
  exact hconsists.endsBy

section

variable {registry : Registry} {cfg : Config} {text : String}
  (htext : Checker.ofText registry cfg text = .ok c) (hmodel : c.config.model ≠ .pso)
  (hmain : (c.session.program.find? Program.entryPoint).isSome = true)
  (hdepth : c.config.maxDepth = some d)

include htext

theorem interpreter_ofText : c.interpreter = none := by
  obtain ⟨session, -, hc⟩ := exists_of_bind htext
  cases hc
  rfl

include hmodel hmain hdepth

/-- Beyond the bound on the executions fuel is enough, however many variables there are. -/
theorem count_of_lt (hfuel : (2 * d + 1) ^ d < fuel) :
    ((c.count fuel).1 = .finished ∨
      Interpreter.maxCells < c.session.program.globals.length ∧ (c.count fuel).1 = .failed
        (.engine (.memoryLimit c.session.program.globals.length Interpreter.maxCells))) ∧
      Bounded d (c.count fuel).2 := by
  rcases Nat.lt_or_ge Interpreter.maxCells c.session.program.globals.length with hcells | hcells
  · obtain ⟨hfailed, hbounded⟩ := count_failed (Made.ofText htext).source hmodel
      (interpreter_ofText htext) hcells (Nat.zero_lt_of_lt hfuel) d
    exact ⟨.inr ⟨hcells, hfailed⟩, hbounded⟩
  · obtain ⟨m, hmachine, hthreads⟩ := exists_machine_start (s := c.setup) hmain
    obtain ⟨hfinished, hbounded⟩ := (starts_ofText htext hmodel hcells hmachine).count_finished
      hthreads hdepth hfuel
    exact ⟨.inl hfinished, hbounded⟩

end

/-- **Bounded explorations end.**  Let a program have an entry point, and let the depth of its
exploration be bounded by `d`.  Then the exploration gives one answer, whatever fuel beyond
`(2 * d + 1) ^ d` it is given: it finishes, or the program has too many variables.  It performs at most
`(2 * d + 1) ^ d` executions, and makes at most `d` decisions in each of them.  It finishes because
the reduction has no other execution, or at an error. -/
theorem run_terminates {registry : Registry} {cfg : Config} {text : String}
    (htext : Checker.ofText registry cfg text = .ok c) (hmodel : c.config.model ≠ .pso)
    (hmain : (c.session.program.find? Program.entryPoint).isSome = true)
    (hdepth : c.config.maxDepth = some d) :
    ∃ outcome g, (outcome = .finished ∨ Interpreter.maxCells < c.session.program.globals.length ∧
        outcome = .failed
          (.engine (.memoryLimit c.session.program.globals.length Interpreter.maxCells))) ∧
      ∀ fuel > (2 * d + 1) ^ d, c.run fuel = (outcome, g) ∧
        c.run fuel = Prod.map id (Progress.map Counted.scheduler) (c.count fuel) ∧
        Bounded d (c.count fuel).2 ∧
        c.run fuel = Prod.map id (Progress.map Noted.state) (c.note fuel) ∧
        (outcome = .finished →
          Exploration.EndsBy c.config g.result (c.note fuel).2.scheduler.notes) := by
  have hinterpreter := interpreter_ofText htext
  have henough := (count_of_lt htext hmodel hmain hdepth (Nat.lt_succ_self ((2 * d + 1) ^ d))).1
  rw [show (c.count ((2 * d + 1) ^ d + 1)).1 = (c.run ((2 * d + 1) ^ d + 1)).1 by
    rw [run_eq_count hmodel]; rfl] at henough
  have hsame : ∀ fuel > (2 * d + 1) ^ d, c.run fuel = c.run ((2 * d + 1) ^ d + 1) := by
    refine fun fuel hfuel => run_of_le hfuel fun houtOfFuel => ?_
    rw [houtOfFuel] at henough
    simp at henough
  refine ⟨(c.run ((2 * d + 1) ^ d + 1)).1, (c.run ((2 * d + 1) ^ d + 1)).2, henough, fun fuel hfuel =>
    ⟨hsame fuel hfuel, run_eq_count hmodel fuel, (count_of_lt htext hmodel hmain hdepth hfuel).2,
      run_eq_note hmodel hinterpreter fuel, fun hfinished => ?_⟩⟩
  rw [← hsame fuel hfuel] at hfinished ⊢
  exact endsBy_run hmodel hinterpreter hfinished

/-- Every thread creates another one and waits for it, and all of them write to one variable. -/
def endlessText : String :=
  "global x = 0\nfn next \x7b\nspawn %t, next\nstore @x, 1\njoin %t\nret\n\x7d\n" ++
    "fn main \x7b\nspawn %t, next\nstore @x, 2\njoin %t\nret\n\x7d\n"

theorem run_terminates_endless :
    ∃ c : Checker, Checker.ofText .standard { exhaustive .sc with maxDepth := some 4 } endlessText =
        .ok c ∧ c.config.model ≠ .pso ∧
      (c.session.program.find? Program.entryPoint).isSome = true ∧ c.config.maxDepth = some 4 ∧
      ∃ g, ∀ fuel > (2 * 4 + 1) ^ 4, c.run fuel = (.finished, g) ∧
        c.run fuel = Prod.map id (Progress.map Counted.scheduler) (c.count fuel) ∧
        Bounded 4 (c.count fuel).2 ∧
        c.run fuel = Prod.map id (Progress.map Noted.state) (c.note fuel) ∧
        (c.note fuel).2.scheduler.notes.getLast? = some (.advanced false) := by
  obtain ⟨c, htext, hc⟩ := exists_of_any
    (x := Checker.ofText .standard { exhaustive .sc with maxDepth := some 4 } endlessText)
    (p := fun c => decide (c.config.model ≠ .pso) &&
      (c.session.program.find? Program.entryPoint).isSome && decide (c.config.maxDepth = some 4) &&
      decide (c.session.program.globals.length ≤ Interpreter.maxCells) && c.config.exploreAll)
    (by decide +kernel)
  simp only [Bool.and_eq_true, decide_eq_true_eq] at hc
  obtain ⟨⟨⟨⟨hmodel, hmain⟩, hdepth⟩, hcells⟩, hall⟩ := hc
  obtain ⟨outcome, g, rfl | ⟨hlt, -⟩, h⟩ := run_terminates htext hmodel hmain hdepth
  · refine ⟨c, htext, hmodel, hmain, hdepth, g, fun fuel hfuel => ?_⟩
    obtain ⟨hrun, hcount, hbounded, hnote, hends⟩ := h fuel hfuel
    refine ⟨hrun, hcount, hbounded, hnote, ?_⟩
    cases hends rfl with
    | exhausted hlast _ => exact hlast
    | stopped _ _ _ hfirst => exact absurd hall (by simp [hfirst])
  · exact absurd hlt (Nat.not_lt.mpr hcells)

end Checker

end Interleave
