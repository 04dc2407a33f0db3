import Interleave.Proofs.Exploration.Completeness
import Interleave.Proofs.Exploration.Observation
import Interleave.Proofs.Search.Requests

/-! # Executions follow the path

Between two executions the reduction holds a path of branches that were met in different earlier
executions, and since then were given requests, cut and switched.  Nevertheless the next execution
finds at each of them the candidates that are recorded there, and goes through the whole path before
it makes a choice of its own (`Checker.observe_follows`).

The reason is that what is offered depends only on the processes that have taken their steps, and that
the path keeps the branches above the one that is switched.  So during an execution the reduction is
always `Midway` in its system; the observer carries this through the run of the machine
(`Machine.guided_observed`), the rounds (`Checker.tracked_round`) and the whole exploration
(`Checker.tracked_observe`). -/

namespace Interleave

namespace Reduction

variable {offers : Offers} {maxDepth : Option Nat}

/-- The reduction was asked in the midst of an execution, and it was offered what the engine offers
there. -/
def Asked (offers : Offers) (maxDepth : Option Nat) (r : Reduction) (cs : List Candidate) : Prop :=
  ∃ old ops, Midway offers maxDepth old ops r ∧ cs = offers (procs ops)

/-- On the path the recorded candidates are offered, and the recorded choice is made. -/
theorem Asked.replay {r : Reduction} {cs : List Candidate} (h : Asked offers maxDepth r cs)
    {b : Branch} (hb : r.path.branches[r.path.position]? = some b) :
    cs = b.candidates ∧ (r.schedule cs).1 = .run b.chosen := by
  obtain ⟨old, ops, hmidway, rfl⟩ := h
  have hlt := (List.getElem?_eq_some_iff.mp hb).1
  have hbound : r.atBound = false := by
    unfold atBound
    split
    · next n hn =>
      have := hmidway.within n (hmidway.maxDepth_eq ▸ hn)
      exact decide_eq_false (by omega)
    · rfl
  rw [hmidway.position] at hb hlt
  rcases hmidway.follows_cases with hw | ⟨w, c, b', hw, hpre, hb', hcs, hop⟩
  · rw [← hw.length_eq] at hlt
    exact absurd hlt (Nat.lt_irrefl _)
  · obtain rfl : b = b' := Option.some.inj (hb.symm.trans hb')
    have hs := (hmidway.schedule_replay hbound hw hpre hb hcs hop).1
    rw [(Branch.mem_of_candidate? hop).2] at hs
    exact ⟨hcs.symm, congrArg Prod.fst hs⟩

theorem Asked.ne_diverged {r : Reduction} {cs : List Candidate} (h : Asked offers maxDepth r cs)
    (i : Nat) (p : Proc) : (r.schedule cs).1 ≠ .diverged i p := by
  obtain ⟨old, ops, hmidway, rfl⟩ := h
  rcases hmidway.schedule with ⟨c, -, r', hs, -⟩ | ⟨r', hs, -⟩ <;> rw [hs] <;> simp

/-- An execution that has ended went through the whole path on which it began. -/
theorem Executed.plan_prefix {first r : Reduction} {ops : List Candidate}
    (h : Executed offers maxDepth first.path.branches ops r) (failed : Bool) :
    first.plan <+: (r.finish failed).currentSchedule := by
  have hfollows := h.follows.grows (allGrow_finish h.exploring failed)
  have hschedule : (r.finish failed).currentSchedule =
      (r.finish failed).path.branches.map Branch.chosen := by
    rw [hfollows.map_chosen, (h.recorded failed).schedule, h.ops_finish]
  obtain ⟨bs, new, hbs, hold, -⟩ := h.branches
  rw [hschedule, (allGrow_finish h.exploring failed).map_chosen, hbs, List.map_append,
    hold.map_chosen]
  exact List.prefix_append _ _

/-! ### The states of an observed reduction -/

/-- What has been observed so far. -/
structure Tracked (offers : Offers) (maxDepth : Option Nat) (q : Observed Reduction) : Prop where
  asked : ∀ x ∈ q.asked, Asked offers maxDepth x.1 x.2
  ended : ∀ e ∈ q.ended, e.1.plan <+: e.2.currentSchedule

/-- An execution is about to begin. -/
structure Poised (offers : Offers) (maxDepth : Option Nat) (q : Observed Reduction) : Prop where
  tracked : Tracked offers maxDepth q
  prepared : ∃ t, Prepared offers maxDepth (fun _ => False) q.scheduler t
  first_eq : q.first = q.scheduler

/-- An execution is under way, after the operations `ops`. -/
structure OnTheWay (offers : Offers) (maxDepth : Option Nat) (ops : List Candidate)
    (q : Observed Reduction) : Prop where
  tracked : Tracked offers maxDepth q
  prepared : ∃ t, Prepared offers maxDepth (fun _ => False) q.first t
  midway : Midway offers maxDepth q.first.path.branches ops q.scheduler

/-- An execution is over, after the operations `ops`. -/
structure Through (offers : Offers) (maxDepth : Option Nat) (ops : List Candidate)
    (q : Observed Reduction) : Prop where
  tracked : Tracked offers maxDepth q
  prepared : ∃ t, Prepared offers maxDepth (fun _ => False) q.first t
  executed : Executed offers maxDepth q.first.path.branches ops q.scheduler

variable {q : Observed Reduction} {ops : List Candidate}

theorem poised_start : Poised offers maxDepth (.start (start maxDepth)) :=
  ⟨⟨fun _ h => (List.not_mem_nil h).elim, fun _ h => (List.not_mem_nil h).elim⟩,
    ⟨_, prepared_start⟩, rfl⟩

theorem Poised.onTheWay (h : Poised offers maxDepth q) : OnTheWay offers maxDepth [] q := by
  obtain ⟨t, ht⟩ := h.prepared
  exact ⟨h.tracked, ⟨t, h.first_eq ▸ ht⟩, h.first_eq ▸ ht.midway⟩

theorem OnTheWay.through (h : OnTheWay offers maxDepth ops q) (hnil : offers (procs ops) = []) :
    Through offers maxDepth ops q := by
  refine ⟨h.tracked, h.prepared, ?_⟩
  rcases h.midway.schedule with ⟨c, hc, -⟩ | ⟨r', hs, hexecuted⟩
  · rw [hnil] at hc
    cases hc
  · rw [hnil, schedule_nil] at hs
    cases hs
    exact hexecuted

theorem Tracked.schedule (h : Tracked offers maxDepth q) (hq : OnTheWay offers maxDepth ops q) :
    Tracked offers maxDepth (Scheduler.schedule q (offers (procs ops))).2 := by
  refine ⟨fun x hx => ?_, h.ended⟩
  rcases List.mem_append.mp hx with hx | hx
  · exact h.asked x hx
  · rw [List.mem_singleton.mp hx]
    exact ⟨_, ops, hq.midway, rfl⟩

/-- **A decision under observation** goes on or ends the execution. -/
theorem OnTheWay.schedule (h : OnTheWay offers maxDepth ops q) :
    (∃ c ∈ offers (procs ops), ∃ q', Scheduler.schedule q (offers (procs ops)) = (.run c.proc, q') ∧
      OnTheWay offers maxDepth (ops ++ [c]) q') ∨
    ∃ q', Scheduler.schedule q (offers (procs ops)) = (.stop, q') ∧ Through offers maxDepth ops q' := by
  have htracked := h.tracked.schedule h
  have hanswer : Scheduler.schedule q (offers (procs ops)) =
      ((q.scheduler.schedule (offers (procs ops))).1, { q with
        scheduler := (q.scheduler.schedule (offers (procs ops))).2
        asked := q.asked ++ [(q.scheduler, offers (procs ops))] }) := rfl
  rw [hanswer] at htracked ⊢
  rcases h.midway.schedule with ⟨c, hc, r', hs, hmidway⟩ | ⟨r', hs, hexecuted⟩
  · rw [hs] at htracked ⊢
    exact .inl ⟨c, hc, _, rfl, htracked, h.prepared, hmidway⟩
  · rw [hs] at htracked ⊢
    exact .inr ⟨_, rfl, htracked, h.prepared, hexecuted⟩

theorem Through.tracked_concluded (h : Through offers maxDepth ops q) (trace : Trace) :
    Tracked offers maxDepth (Exploration.concluded q trace) ∧
      (Exploration.concluded q trace).scheduler = q.scheduler.finish trace.wasCutShort := by
  have hended : (Exploration.concluded q trace).ended =
      q.ended ++ [(q.first, q.scheduler.finish trace.wasCutShort)] := by
    unfold Exploration.concluded finish
    split <;> rfl
  have hasked : (Exploration.concluded q trace).asked = q.asked := by
    unfold Exploration.concluded
    split <;> rfl
  refine ⟨⟨hasked ▸ h.tracked.asked, fun e he => ?_⟩, ?_⟩
  · rw [hended] at he
    rcases List.mem_append.mp he with he | he
    · exact h.tracked.ended e he
    · rw [List.mem_singleton.mp he]
      exact h.executed.plan_prefix trace.wasCutShort
  · unfold Exploration.concluded finish
    split <;> rfl

/-- **From one execution to the next.** -/
theorem Through.advance (h : Through offers maxDepth ops q) (trace : Trace) :
    Tracked offers maxDepth (Scheduler.advance (Exploration.concluded q trace)).2 ∧
      ((Scheduler.advance (Exploration.concluded q trace)).1 = true →
        Poised offers maxDepth (Scheduler.advance (Exploration.concluded q trace)).2) := by
  obtain ⟨htracked, hfinish⟩ := h.tracked_concluded trace
  have htracked' : Tracked offers maxDepth (Scheduler.advance (Exploration.concluded q trace)).2 :=
    ⟨htracked.asked, htracked.ended⟩
  refine ⟨htracked', fun hmore => ⟨htracked', ?_, rfl⟩⟩
  obtain ⟨t, ht⟩ := h.prepared
  obtain ⟨-, t', -, -, hnext, -⟩ :=
    ht.executed h.executed (show False → trace.wasCutShort = true from False.elim)
  rw [← hfinish] at hnext
  exact ⟨t', (hnext hmore).2⟩

end Reduction

open Reduction

theorem Machine.guided_observed (s : Setup) (m : Machine) (maxDepth : Option Nat) :
    Guided s m (OnTheWay (system s m).offers maxDepth) (Through (system s m).offers maxDepth) :=
  fun _ _ h _ => h.schedule

theorem Execution.reply_execute {σ : Type} [Scheduler σ] (cfg : Config) (x : Execution σ) :
    (ExceptT.run (Engine.execute cfg : Call (Execution σ) Trace) x).1 = .error .outOfFuel ↔
      (x.machine.runLoop x.setup x.fuel x.scheduler).1 = .outOfFuel := by
  have hextract : ∀ (errored : Bool) (y : Execution σ),
      ∃ trace, (ExceptT.run (if errored || cfg.collectTraces then Engine.extractTrace
        else pure .empty : Call (Execution σ) Trace) y).1 = .ok trace := by
    intro errored y
    split <;> exact ⟨_, rfl⟩
  have hok : ∀ errored y, x.run = (.ok errored, y) →
      ∃ trace, (ExceptT.run (Engine.execute cfg : Call (Execution σ) Trace) x).1 = .ok trace := by
    intro errored y h
    rw [Engine.execute, Call.run_bind, show ExceptT.run (Engine.run : Call (Execution σ) Bool) x = x.run
      from rfl, h]
    simp only
    split
    · exact hextract _ _
    · exact hextract _ _
  have hrun : x.run.1 = .error .outOfFuel ↔
      (x.machine.runLoop x.setup x.fuel x.scheduler).1 = .outOfFuel := by
    unfold run
    generalize x.machine.runLoop x.setup x.fuel x.scheduler = y
    obtain ⟨ending, m, q⟩ := y
    cases ending with
    | stopped why => cases why <;> simp
    | _ => simp
  rw [← hrun]
  generalize hy : x.run = y at hok
  obtain ⟨why | errored, y⟩ := y
  · simp [execute_of_error hy]
  · obtain ⟨trace, htrace⟩ := hok errored y rfl
    simp [htrace]

/-- **An execution under a scheduler that chooses among what it is offered** ends by itself, is ended
by the scheduler, or is broken off for lack of fuel. -/
theorem Execution.concludes_execute {σ : Type} [Scheduler σ] (cfg : Config) {s : Setup} {m : Machine}
    {Q R : List Candidate → σ → Prop} (hguided : Machine.Guided s m Q R) (fuel : Nat) {q : σ}
    (hq : Q [] q) :
    let y := ExceptT.run (Engine.execute cfg : Call (Execution σ) Trace) ⟨s, fuel, m, q⟩
    ∃ ops, y.1 ≠ .error .outOfFuel ∧ ((Machine.system s m).offers (procs ops) = [] ∧
        Q ops y.2.scheduler ∨ R ops y.2.scheduler) ∨
      y.1 = .error .outOfFuel ∧ ops.length = fuel ∧ Q ops y.2.scheduler := by
  intro y
  obtain ⟨ops, -, hconc⟩ := Machine.runLoop_concludes hguided fuel IsRun.nil hq
    (Machine.reach_nil s m) rfl
  have hscheduler : y.2.scheduler = (m.runLoop s fuel q).2.2 := by
    refine (scheduler_execute cfg _).trans ?_
    simp only [run]
    split <;> rfl
  have hfuel : y.1 = .error .outOfFuel ↔ (m.runLoop s fuel q).1 = .outOfFuel :=
    reply_execute cfg ⟨s, fuel, m, q⟩
  rw [hscheduler, ne_eq, hfuel]
  generalize m.runLoop s fuel q = ran at hconc
  cases hconc with
  | ended hends hstate =>
      exact ⟨ops, .inl ⟨by cases hends <;> simp, .inl ⟨hends.offers_eq_nil, hstate⟩⟩⟩
  | refused _ _ _ hstate => exact ⟨ops, .inl ⟨by simp, .inr hstate⟩⟩
  | outOfFuel hlength hstate => exact ⟨ops, .inr ⟨rfl, by simpa using hlength, hstate⟩⟩

/-- An execution comes to its end or is broken off for lack of fuel. -/
theorem Execution.through_execute (cfg : Config) {s : Setup} {m : Machine} {maxDepth : Option Nat}
    {q : Observed Reduction} (fuel : Nat) (h : OnTheWay (Machine.system s m).offers maxDepth [] q) :
    let y := ExceptT.run (Engine.execute cfg : Call (Execution (Observed Reduction)) Trace)
      ⟨s, fuel, m, q⟩
    (∃ ops, Through (Machine.system s m).offers maxDepth ops y.2.scheduler) ∨
      y.1 = .error .outOfFuel ∧ Tracked (Machine.system s m).offers maxDepth y.2.scheduler := by
  obtain ⟨ops, ⟨-, ⟨hnil, hstate⟩ | hstate⟩ | ⟨hfuel, -, hstate⟩⟩ :=
    concludes_execute cfg (Machine.guided_observed s m maxDepth) fuel h
  · exact .inl ⟨ops, hstate.through hnil⟩
  · exact .inl ⟨ops, hstate⟩
  · exact .inr ⟨hfuel, hstate.tracked⟩

namespace Checker

variable {c : Checker} {offers : Offers} {maxDepth : Option Nat}

theorem create_cases {σ : Type} (c : Checker) (i : Interpreter) (q : σ) :
    (∃ why, i.create c.registry c.session.program c.config q = .error why) ∨
    ∃ m, (c.session.program.find? Program.entryPoint).map (Machine.start c.setup) = some (.ok m) ∧
      i.create c.registry c.session.program c.config q = .ok ⟨c.setup, i.fuel, m, q⟩ := by
  by_cases hmodel : c.config.model = i.model
  · have hsetup : (⟨c.session.program, c.registry, i.model == .tso, c.config.maxLocalSteps⟩ : Setup) =
        c.setup := by rw [setup, hmodel]
    by_cases hcells : Interpreter.maxCells < c.session.program.globals.length
    · refine .inl ⟨.engine (.memoryLimit c.session.program.globals.length Interpreter.maxCells), ?_⟩
      simp only [Interpreter.create, hmodel, ne_eq, not_true_eq_false, if_false, hcells, if_true]
      rfl
    · simp only [Interpreter.create, hmodel, ne_eq, not_true_eq_false, if_false, hcells, hsetup]
      cases (c.session.program.find? Program.entryPoint).map (Machine.start c.setup) with
      | none => exact .inl ⟨_, rfl⟩
      | some started =>
          cases started with
          | error why => exact .inl ⟨_, rfl⟩
          | ok m => exact .inr ⟨m, rfl, rfl⟩
  · refine .inl ⟨.engine (.wrongModel i.model c.config.model), ?_⟩
    simp only [Interpreter.create, ne_eq, hmodel, not_false_eq_true, if_true]
    rfl

theorem tracked_account (i : Interpreter) {g : Progress (Observed Reduction)} {ops : List Candidate}
    (h : Through offers maxDepth ops g.scheduler) (hkept : c.Kept g) (trace : Trace) :
    Tracked offers maxDepth ((c.explorationBy _ i).account g trace).2.scheduler ∧
      (((c.explorationBy _ i).account g trace).1 = .continues →
        c.Kept ((c.explorationBy _ i).account g trace).2 ∧
        Poised offers maxDepth ((c.explorationBy _ i).account g trace).2.scheduler) := by
  have hconcluded := (h.tracked_concluded trace).1
  obtain ⟨htracked, hpoised⟩ := h.advance trace
  unfold Exploration.account
  simp only
  split
  · exact ⟨hconcluded, fun hcontinues => by cases hcontinues⟩
  · refine ⟨htracked, fun hcontinues => ⟨⟨hkept.source, hkept.program⟩, hpoised ?_⟩⟩
    by_contra hmore
    rw [Bool.not_eq_true] at hmore
    have houtcome : (if (Scheduler.advance (Exploration.concluded g.scheduler trace)).1 then
      Outcome.continues else .finished) = .continues := hcontinues
    simp [hmore] at houtcome

section

variable (hsource : Program.build c.registry c.session.source = .ok c.session.program)
  (hoffers : ∀ m, (c.session.program.find? Program.entryPoint).map (Machine.start c.setup) =
    some (.ok m) → offers = (Machine.system c.setup m).offers)

include hsource hoffers

/-- **One more execution** under observation. -/
theorem tracked_round (i : Interpreter)
    {g : Progress (Observed Reduction)} (hkept : c.Kept g) (h : Poised offers maxDepth g.scheduler) :
    Tracked offers maxDepth ((c.explorationBy _ i).round g).2.scheduler ∧
      (((c.explorationBy _ i).round g).1 = .continues →
        c.Kept ((c.explorationBy _ i).round g).2 ∧
        Poised offers maxDepth ((c.explorationBy _ i).round g).2.scheduler) := by
  obtain ⟨session, hrefresh, hsession, hprogram⟩ :=
    exists_refresh hsource (x := c.explorationBy (Observed Reduction) i) rfl hkept
  unfold Exploration.round
  simp only [hrefresh]
  rw [hprogram]
  rcases c.create_cases i g.scheduler with ⟨why, hcreate⟩ | ⟨m, hmachine, hcreate⟩
  · rw [show (c.explorationBy _ i).create c.session.program (c.explorationBy _ i).config g.scheduler =
      .error why from hcreate]
    exact ⟨h.tracked, fun hcontinues => by cases hcontinues⟩
  rw [show (c.explorationBy _ i).create c.session.program (c.explorationBy _ i).config g.scheduler =
    .ok ⟨c.setup, i.fuel, m, g.scheduler⟩ from hcreate]
  obtain rfl := hoffers m hmachine
  have hexecute := Execution.through_execute (c.explorationBy (Observed Reduction) i).config i.fuel
    h.onTheWay
  simp only at hexecute ⊢
  generalize ExceptT.run (Engine.execute (c.explorationBy (Observed Reduction) i).config)
    (⟨c.setup, i.fuel, m, g.scheduler⟩ : Execution (Observed Reduction)) = y at hexecute ⊢
  obtain ⟨reply, x⟩ := y
  have hkept' : ∀ log, c.Kept ⟨session, x.scheduler, g.result, g.iteration, log⟩ :=
    fun _ => ⟨hsession, hprogram⟩
  rcases hexecute with ⟨ops, hthrough⟩ | ⟨hfuel, htracked⟩
  · cases reply with
    | ok trace => exact tracked_account i hthrough (hkept' _) trace
    | error why =>
        cases why with
        | fault f => exact tracked_account i hthrough (hkept' _) (.ofError f.toError)
        | outOfFuel => exact ⟨hthrough.tracked, fun hcontinues => by cases hcontinues⟩
  · obtain rfl : reply = .error .outOfFuel := hfuel
    exact ⟨htracked, fun hcontinues => by cases hcontinues⟩

/-- **Many executions** under observation. -/
theorem tracked_rounds (i : Interpreter) (fuel : Nat)
    {g : Progress (Observed Reduction)} (hkept : c.Kept g) (h : Poised offers maxDepth g.scheduler) :
    Tracked offers maxDepth ((c.explorationBy _ i).rounds fuel g).2.scheduler := by
  induction fuel generalizing g with
  | zero => exact h.tracked
  | succ fuel ih =>
      rw [Exploration.rounds]
      obtain ⟨htracked, hnext⟩ := tracked_round hsource hoffers i hkept h
      generalize (c.explorationBy _ i).round g = done at htracked hnext
      obtain ⟨outcome, g⟩ := done
      cases outcome with
      | continues =>
          obtain ⟨hkept, hpoised⟩ := hnext rfl
          exact ih hkept hpoised
      | _ => exact htracked

/-- **The whole exploration** under observation. -/
theorem tracked_observe (fuel : Nat) :
    Tracked offers c.config.maxDepth (c.observe fuel).2.scheduler := by
  have hrunWith : Tracked offers c.config.maxDepth
      (c.runWith fuel (Observed.start (Reduction.start c.config.maxDepth))).2.scheduler := by
    unfold runWith
    cases c.select fuel with
    | error why => exact poised_start.tracked
    | ok i =>
        show Tracked offers c.config.maxDepth
          ((c.explorationBy _ i).explore fuel c.session _).2.scheduler
        rw [Exploration.scheduler_explore]
        exact tracked_rounds hsource hoffers i fuel ⟨rfl, rfl⟩ poised_start
  unfold observe
  cases c.config.model with
  | pso => exact poised_start.tracked
  | _ => exact hrunWith

end

/-- A checker comes about for a text or a file, may be given an interpreter and may be rebuilt. -/
inductive Made : Checker → Prop where
  | ofText {r : Registry} {cfg : Config} {text : String} {c : Checker}
      (made : Checker.ofText r cfg text = .ok c) : Made c
  | ofFile {r : Registry} {cfg : Config} {path : String} {bytes : Option ByteArray} {c : Checker}
      (made : Checker.ofFile r cfg path bytes = .ok c) : Made c
  | withInterpreter {c : Checker} (before : Made c) (i : Interpreter) :
      Made { c with interpreter := some i }
  | rebuild {c c' : Checker} (before : Made c) (made : c.rebuild = .ok c') : Made c'

theorem Made.source (h : c.Made) :
    Program.build c.registry c.session.source = .ok c.session.program := by
  have hsession : ∀ {r : Registry} {text : String} {s : Session}, Session.ofText r text = .ok s →
      Program.build r s.source = .ok s.program := by
    intro r text s hs
    obtain ⟨p, hp, hs⟩ := exists_of_bind hs
    cases hs
    exact hp
  induction h with
  | ofText made =>
      obtain ⟨s, hs, hc⟩ := exists_of_bind made
      cases hc
      exact hsession hs
  | ofFile made =>
      obtain ⟨_, hfile, hc⟩ := exists_of_bind made
      obtain ⟨text, -, htext⟩ := exists_of_bind hfile
      obtain ⟨s, hs, heq⟩ := exists_of_bind htext
      have hbuild := hsession hs
      cases heq
      cases hc
      exact hbuild
  | withInterpreter _ _ ih => exact ih
  | rebuild _ made ih =>
      obtain ⟨s, hs, hc⟩ := exists_of_bind made
      obtain ⟨p, hp, hs⟩ := exists_of_bind hs
      cases hs
      cases hc
      exact hp

/-- **Executions follow the path.**  The exploration can be observed without changing it.  Whenever the
reduction is asked to decide before the end of its path, what is offered is what is recorded at the
branch there, and the recorded choice is made; never is the process that is due not offered.  An
execution that has ended went through all choices that were recorded when it began. -/
theorem observe_follows (hmade : c.Made) (fuel : Nat) :
    c.run fuel = ((c.observe fuel).1, (c.observe fuel).2.map Observed.scheduler) ∧
    (∀ r cs, (r, cs) ∈ (c.observe fuel).2.scheduler.asked →
      (∀ b, r.path.branches[r.path.position]? = some b →
        cs = b.candidates ∧ (r.schedule cs).1 = .run b.chosen) ∧
      ∀ i p, (r.schedule cs).1 ≠ .diverged i p) ∧
    ∀ first last, (first, last) ∈ (c.observe fuel).2.scheduler.ended →
      first.plan <+: last.currentSchedule := by
  obtain ⟨offers, hoffers⟩ : ∃ offers : Offers, ∀ m, (c.session.program.find?
      Program.entryPoint).map (Machine.start c.setup) = some (.ok m) →
        offers = (Machine.system c.setup m).offers := by
    by_cases hm : ∃ m, (c.session.program.find? Program.entryPoint).map (Machine.start c.setup) =
        some (.ok m)
    · obtain ⟨m, hm⟩ := hm
      refine ⟨(Machine.system c.setup m).offers, fun m' hm' => ?_⟩
      obtain rfl : m = m' := by simpa [hm] using hm'
      rfl
    · exact ⟨fun _ => [], fun m hm' => absurd ⟨m, hm'⟩ hm⟩
  have htracked := tracked_observe hmade.source hoffers fuel
  refine ⟨c.run_eq_observe fuel, fun r cs hx => ?_, fun first last he => htracked.ended _ he⟩
  have hasked := htracked.asked _ hx
  exact ⟨fun b hb => hasked.replay hb, hasked.ne_diverged⟩

/-- The second execution begins on a path, in a program that has been rebuilt. -/
theorem observe_follows_guarded :
    ∃ c : Checker, c.Made ∧ c.config.recycleInterval = some 1 ∧
      (∃ r cs b, (r, cs) ∈ (c.observe 20).2.scheduler.asked ∧
        r.path.branches[r.path.position]? = some b ∧ cs = b.candidates ∧
        (r.schedule cs).1 = .run b.chosen) ∧
      ∃ first last, (first, last) ∈ (c.observe 20).2.scheduler.ended ∧ first.plan ≠ [] ∧
        first.plan <+: last.currentSchedule := by
  obtain ⟨c, htext, hc⟩ := exists_of_any
    (x := Checker.ofText .standard { exhaustive .tso with recycleInterval := some 1 } guardedText)
    (p := fun c => decide (c.config.recycleInterval = some 1) &&
      ((c.observe 20).2.scheduler.asked.any fun x => x.1.path.position < x.1.path.branches.length) &&
      (c.observe 20).2.scheduler.ended.any fun e => !e.1.plan.isEmpty)
    (by decide +kernel)
  simp only [Bool.and_eq_true, decide_eq_true_eq, List.any_eq_true, Bool.not_eq_true',
    List.isEmpty_eq_false_iff] at hc
  obtain ⟨⟨hrecycle, ⟨r, cs⟩, hx, hlt⟩, ⟨first, last⟩, he, hne⟩ := hc
  obtain ⟨-, hasked, hended⟩ := observe_follows (.ofText htext) 20
  have hb := List.getElem?_eq_getElem hlt
  obtain ⟨hcs, hrun⟩ := (hasked r cs hx).1 _ hb
  exact ⟨c, .ofText htext, hrecycle, ⟨r, cs, _, hx, hb, hcs, hrun⟩, first, last, he, hne,
    hended first last he⟩

end Checker

end Interleave
