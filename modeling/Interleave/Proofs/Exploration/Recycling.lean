import Interleave.Proofs.Exploration.Replay

/-! # Rebuilding the program is invisible

The program of a session is rebuilt from its source at regular intervals.  An exploration that does so
goes the same way as one that does not (`Exploration.Recycles.rounds_eq`): the rebuilt program is the
one that was there before, and only the generation of the session counts the rebuilds.  Thus two
checkers that differ by their interval give the same answers (`Checker.run_recycling`). -/

namespace Interleave

/-- How often the program is rebuilt when `n` executions have started. -/
def rebuilds : (interval : Option Nat) → (n : Nat) → Nat
  | none, _ | some 0, _ => 0
  | some k, n => n / k

theorem rebuilds_succ (cfg : Config) (n : Nat) :
    rebuilds cfg.recycleInterval (n + 1) =
      rebuilds cfg.recycleInterval n + if cfg.recyclesAt n then 1 else 0 := by
  unfold Config.recyclesAt
  cases cfg.recycleInterval with
  | none => rfl
  | some k =>
      cases k with
      | zero => rfl
      | succ k =>
          simp only [rebuilds, Nat.succ_div, Nat.dvd_iff_mod_eq_zero, Nat.zero_lt_succ, decide_true,
            Bool.true_and, beq_iff_eq]

theorem rebuilds_zero (interval : Option Nat) : rebuilds interval 0 = 0 := by
  match interval with
  | none | some 0 => rfl
  | some (k + 1) => exact Nat.zero_div _

/-- The session when its program has been rebuilt `n` times. -/
def Session.rebuilt (s : Session) (n : Nat) : Session := { s with generation := s.generation + n }

theorem Session.rebuild_rebuilt {r : Registry} {s : Session}
    (hs : Program.build r s.source = .ok s.program) (n : Nat) :
    (s.rebuilt n).rebuild r = .ok (s.rebuilt (n + 1)) := by
  simp only [rebuild, rebuilt, hs]
  rfl

/-- The same progress in another session. -/
def Progress.inSession {σ : Type} (s : Session) (g : Progress σ) : Progress σ := { g with session := s }

/-! ### Explorations -/

namespace Exploration

variable {σ ε : Type} [Scheduler σ] [Engine ε σ]

/-- Number of executions that are started, at most `fuel` of them.  One whose engine cannot be created
counts. -/
def started (x : Exploration σ ε) : (fuel : Nat) → Progress σ → Nat
  | 0, _ => 0
  | fuel + 1, g =>
    match x.round g with
    | (.continues, g) => started x fuel g + 1
    | _ => 1

/-- The exploration `y` rebuilds the program, and `x` does not; otherwise they are the same. -/
structure Recycles (x y : Exploration σ ε) : Prop where
  registry : y.registry = x.registry
  config : x.config = { y.config with recycleInterval := none }
  create : ∀ p q, y.create p y.config q = x.create p x.config q

variable {x y : Exploration σ ε} {s : Session} {g : Progress σ}

omit [Scheduler σ] [Engine ε σ] in
theorem Recycles.refresh_eq (h : Recycles x y) (g : Progress σ) : x.refresh g = .ok g.session := by
  simp [refresh, h.config, Config.recyclesAt]

omit [Engine ε σ] in
theorem Recycles.account_inSession (h : Recycles x y) (s : Session) (g : Progress σ) (trace : Trace) :
    y.account (g.inSession s) trace = Prod.map id (Progress.inSession s) (x.account g trace) := by
  simp only [account, h.config, Progress.inSession]
  split <;> rfl

/-- **One round with a rebuild or without** is the same but for the session. -/
theorem Recycles.round_eq (h : Recycles x y) (hs : Program.build x.registry s.source = .ok s.program)
    (hg : g.session = s) :
    y.round (g.inSession (s.rebuilt (rebuilds y.config.recycleInterval g.iteration))) =
      Prod.map id
        (Progress.inSession (s.rebuilt (rebuilds y.config.recycleInterval (g.iteration + 1))))
        (x.round g) := by
  generalize hn : rebuilds y.config.recycleInterval (g.iteration + 1) = n
  have hrefresh : y.refresh (g.inSession
      (s.rebuilt (rebuilds y.config.recycleInterval g.iteration))) = .ok (s.rebuilt n) := by
    rw [rebuilds_succ] at hn
    unfold refresh
    subst hn
    cases hrecycles : y.config.recyclesAt g.iteration with
    | false => simp [Progress.inSession, hrecycles]
    | true =>
        simp only [Progress.inSession, hrecycles, if_true, h.registry]
        exact Session.rebuild_rebuilt hs _
  have hexecute : (Engine.execute x.config : Call ε Trace) = Engine.execute y.config := by
    rw [h.config]
    rfl
  have hcreate : y.create (s.rebuilt n).program y.config g.scheduler =
      x.create g.session.program x.config g.scheduler := by
    rw [h.create, hg]
    rfl
  unfold round
  simp only [hrefresh, h.refresh_eq, hexecute]
  simp only [Progress.inSession, hcreate]
  cases x.create g.session.program x.config g.scheduler with
  | error f => rfl
  | ok engine =>
      simp only
      generalize ExceptT.run (Engine.execute y.config) engine = reply
      obtain ⟨reply, engine⟩ := reply
      match reply with
      | .ok trace =>
          exact h.account_inSession _ ⟨g.session, Engine.scheduler engine, g.result, g.iteration, _⟩
            trace
      | .error (.fault _) =>
          exact h.account_inSession _ ⟨g.session, Engine.scheduler engine, g.result, g.iteration, _⟩ _
      | .error .outOfFuel => rfl

theorem of_round {o : Outcome} {g' : Progress σ} (h : x.round g = (o, g'))
    (ho : o = .continues ∨ o = .finished) :
    x.refresh g = .ok g'.session ∧ g'.iteration = g.iteration + 1 ∧
      g'.result.executionCount = g.result.executionCount + 1 := by
  cases hattempt : x.attempt g with
  | none =>
      obtain ⟨hcontinues, hfinished, -⟩ := x.round_of_attempt_eq_none g hattempt
      rw [h] at hcontinues hfinished
      exact absurd ho (not_or.mpr ⟨hcontinues, hfinished⟩)
  | some y =>
      obtain ⟨g₁, trace⟩ := y
      obtain ⟨hround, hresult⟩ := x.round_of_attempt g hattempt
      rw [hround] at h
      have hadd := x.result_account g₁ trace
      rw [h, hresult] at hadd
      rw [hadd, Result.executionCount_add]
      obtain ⟨session, engine, y, hrefresh, -, -, -, rfl⟩ := exists_of_attempt hattempt
      simp only [account] at h
      split at h <;> cases h <;> exact ⟨hrefresh, rfl, rfl⟩

theorem started_of_finished (fuel : Nat) {g' : Progress σ} (h : x.rounds fuel g = (.finished, g')) :
    g'.result.executionCount = g.result.executionCount + x.started fuel g := by
  induction fuel generalizing g with
  | zero => cases h
  | succ fuel ih =>
      rw [rounds] at h
      rw [started]
      generalize hround : x.round g = done at h ⊢
      obtain ⟨outcome, g₁⟩ := done
      cases outcome with
      | continues =>
          rw [ih h, (of_round hround (.inl rfl)).2.2]
          simp only
          omega
      | finished =>
          cases h
          exact (of_round hround (.inr rfl)).2.2
      | _ => cases h

theorem started_of_explore (x : Exploration σ ε) {fuel : Nat} {s : Session} {q : σ}
    (h : (x.explore fuel s q).1 = .finished) :
    x.started fuel ⟨s, q, .empty, 0, [opening x.config s]⟩ =
      (x.explore fuel s q).2.result.executionCount := by
  obtain ⟨g, hrounds, hexplore⟩ := x.exists_rounds_of_explore h
  rw [hexplore, started_of_finished fuel hrounds]
  exact (Nat.zero_add _).symm

/-- **Rounds with rebuilds and without** are the same but for the session. -/
theorem Recycles.rounds_eq (h : Recycles x y) (hs : Program.build x.registry s.source = .ok s.program)
    (fuel : Nat) (hg : g.session = s) :
    y.started fuel (g.inSession (s.rebuilt (rebuilds y.config.recycleInterval g.iteration))) =
        x.started fuel g ∧
      y.rounds fuel (g.inSession (s.rebuilt (rebuilds y.config.recycleInterval g.iteration))) =
        Prod.map id (Progress.inSession (s.rebuilt (rebuilds y.config.recycleInterval
          (g.iteration + x.started fuel g)))) (x.rounds fuel g) := by
  induction fuel generalizing g with
  | zero => exact ⟨rfl, rfl⟩
  | succ fuel ih =>
      rw [started, started, rounds, rounds, h.round_eq hs hg]
      generalize hround : x.round g = done
      obtain ⟨outcome, g'⟩ := done
      cases outcome with
      | continues =>
          -- without rebuilds the session stays, and the next round is compared with the same one
          obtain ⟨hrefresh, hiteration, -⟩ := of_round hround (.inl rfl)
          have hsession : g'.session = g.session := by
            rw [h.refresh_eq] at hrefresh
            exact (Except.ok.inj hrefresh).symm
          obtain ⟨hstarted, hrounds⟩ := ih (hsession.trans hg)
          rw [hiteration] at hstarted hrounds
          refine ⟨congrArg (· + 1) hstarted, hrounds.trans ?_⟩
          rw [Nat.add_assoc, Nat.add_comm 1]
      | _ => exact ⟨rfl, rfl⟩

/-- **Explorations with rebuilds and without** are the same but for the session. -/
theorem Recycles.explore_eq (h : Recycles x y) (hs : Program.build x.registry s.source = .ok s.program)
    (fuel : Nat) (q : σ) (g : Progress σ) (hg : g = ⟨s, q, .empty, 0, [opening y.config s]⟩) :
    y.started fuel g = x.started fuel g ∧
      y.explore fuel s q = Prod.map id (Progress.inSession
        (s.rebuilt (rebuilds y.config.recycleInterval (x.started fuel g)))) (x.explore fuel s q) := by
  obtain ⟨hstarted, hrounds⟩ := h.rounds_eq hs fuel (g := g) (by rw [hg])
  have hopening : opening x.config s = opening y.config s := by
    rw [h.config]
    rfl
  have hbegin : g.inSession (s.rebuilt (rebuilds y.config.recycleInterval g.iteration)) = g := by
    rw [hg, rebuilds_zero]
    rfl
  rw [hbegin] at hstarted hrounds
  refine ⟨hstarted, ?_⟩
  unfold explore
  rw [hopening, ← hg, hrounds, show g.iteration = 0 by rw [hg], Nat.zero_add]
  generalize x.rounds fuel g = done
  obtain ⟨outcome, g⟩ := done
  cases outcome <;> rfl

end Exploration

/-! ### Checkers -/

namespace Checker

variable (c : Checker)

/-- The same checker with another interval. -/
def recycling (interval : Option Nat) : Checker :=
  { c with config := { c.config with recycleInterval := interval } }

/-- Number of executions that the checker starts under a scheduler. -/
def startedWith (fuel : Nat) {σ : Type} [Scheduler σ] (q : σ) : Nat :=
  match c.select fuel with
  | .error _ => 0
  | .ok i => (c.explorationBy σ i).started fuel (c.beginning q)

/-- Number of executions that the checker starts. -/
def started (fuel : Nat) : Nat :=
  match c.config.model with
  | .pso => 0
  | _ => c.startedWith fuel (Reduction.start c.config.maxDepth)

variable {c}

theorem fail_inSession {σ : Type} (interval : Option Nat) (f : Failure) (q : σ) :
    c.fail f q = Prod.map id (Progress.inSession (c.session.rebuilt (rebuilds interval 0)))
      (c.fail f q) := by
  rw [rebuilds_zero]
  rfl

theorem runWith_recycling {σ : Type} [Scheduler σ]
    (hsource : Program.build c.registry c.session.source = .ok c.session.program)
    (interval : Option Nat) (fuel : Nat) (q : σ) :
    (c.recycling interval).startedWith fuel q = (c.recycling none).startedWith fuel q ∧
      (c.recycling interval).runWith fuel q = Prod.map id (Progress.inSession
        (c.session.rebuilt (rebuilds interval ((c.recycling none).startedWith fuel q))))
        ((c.recycling none).runWith fuel q) := by
  have hselect : ∀ interval, (c.recycling interval).select fuel = c.select fuel := fun _ => rfl
  unfold startedWith runWith
  simp only [hselect]
  cases c.select fuel with
  | error f => exact ⟨rfl, fail_inSession interval f q⟩
  | ok i =>
      have hrecycles : ((c.recycling none).explorationBy σ i).Recycles
        ((c.recycling interval).explorationBy σ i) := ⟨rfl, rfl, fun _ _ => rfl⟩
      exact hrecycles.explore_eq hsource fuel q _ rfl

theorem run_recycling_none
    (hsource : Program.build c.registry c.session.source = .ok c.session.program)
    (interval : Option Nat) (fuel : Nat) :
    (c.recycling interval).started fuel = (c.recycling none).started fuel ∧
      (c.recycling interval).run fuel = Prod.map id (Progress.inSession
        (c.session.rebuilt (rebuilds interval ((c.recycling none).started fuel))))
        ((c.recycling none).run fuel) := by
  have hrunWith := runWith_recycling hsource interval fuel (Reduction.start c.config.maxDepth)
  have hmodel : ∀ interval, (c.recycling interval).config.model = c.config.model := fun _ => rfl
  unfold started run
  simp only [hmodel]
  cases c.config.model with
  | pso => exact ⟨rfl, fail_inSession interval _ _⟩
  | _ => exact hrunWith

theorem started_of_run {fuel : Nat} (h : (c.run fuel).1 = .finished) :
    c.started fuel = (c.run fuel).2.result.executionCount := by
  have hrunWith : (c.runWith fuel (Reduction.start c.config.maxDepth)).1 = .finished →
      c.startedWith fuel (Reduction.start c.config.maxDepth) =
        (c.runWith fuel (Reduction.start c.config.maxDepth)).2.result.executionCount := by
    unfold startedWith runWith
    cases c.select fuel with
    | error f => exact fun h => by cases h
    | ok i => exact (c.explorationBy Reduction i).started_of_explore
  unfold run at h ⊢
  unfold started
  cases hmodel : c.config.model with
  | pso => simp [hmodel, fail] at h
  | _ => exact hrunWith (by simpa [hmodel] using h)

/-- **Rebuilding the program is invisible.**  Two checkers that differ by their interval come to the
same end, with the same result, the same scheduler and the same log, and start the same number of
executions.  No rebuild fails.  The session is the one at the beginning but for its generation, which
has grown by the number of whole intervals among the executions. -/
theorem run_recycling (hmade : c.Made) (interval interval' : Option Nat) (fuel : Nat) :
    (c.recycling interval).run fuel = Prod.map id
        (Progress.inSession ((c.recycling interval).run fuel).2.session)
        ((c.recycling interval').run fuel) ∧
      (c.recycling interval).started fuel = (c.recycling interval').started fuel ∧
      ((c.recycling interval).run fuel).2.session =
        c.session.rebuilt (rebuilds interval ((c.recycling interval).started fuel)) ∧
      (∀ n, (c.session.rebuilt n).rebuild c.registry = .ok (c.session.rebuilt (n + 1))) ∧
      (((c.recycling interval).run fuel).1 = .finished → (c.recycling interval).started fuel =
        ((c.recycling interval).run fuel).2.result.executionCount) := by
  obtain ⟨hstarted, hrun⟩ := run_recycling_none hmade.source interval fuel
  obtain ⟨hstarted', hrun'⟩ := run_recycling_none hmade.source interval' fuel
  refine ⟨?_, hstarted.trans hstarted'.symm, ?_, Session.rebuild_rebuilt hmade.source, started_of_run⟩
  · rw [hrun, hrun']
    rfl
  · rw [hrun, hstarted]
    rfl

/-- Each of two threads writes to its own variable and reads the other one. -/
def crossingText : String :=
  "global x = 0\nglobal y = 0\nfn other \x7b\nstore @y, 1\nload %b, @x\nret\n\x7d\n" ++
    "fn main \x7b\nspawn %t, other\nstore @x, 1\nload %a, @y\nret\n\x7d\n"

/-- There are five executions, and the program is rebuilt twice or never. -/
theorem run_recycling_crossing :
    ∃ c : Checker, c.Made ∧ ((c.recycling (some 2)).run 20).1 = .finished ∧
      ((c.recycling none).run 20).1 = .finished ∧
      ((c.recycling none).run 20).2.result = ((c.recycling (some 2)).run 20).2.result ∧
      ((c.recycling none).run 20).2.result.executionCount = 5 ∧
      ((c.recycling none).run 20).2.session.generation = 0 ∧
      ((c.recycling (some 2)).run 20).2.session.generation = 2 := by
  obtain ⟨c, htext, hc⟩ := exists_of_any
    (x := Checker.ofText .standard (exhaustive .tso) crossingText)
    (p := fun c => decide (c.session.generation = 0) &&
      let r := (c.recycling (some 2)).run 20
      decide (r.1 = .finished ∧ r.2.result.executionCount = 5)) (by decide +kernel)
  simp only [Bool.and_eq_true, decide_eq_true_eq] at hc
  obtain ⟨hgeneration, hfinished, hcount⟩ := hc
  obtain ⟨hrun, -, hsession, -⟩ := run_recycling (.ofText htext) none (some 2) 20
  obtain ⟨-, -, hsession', -, hstarted⟩ := run_recycling (.ofText htext) (some 2) none 20
  refine ⟨c, .ofText htext, hfinished, ?_, ?_, ?_, ?_, ?_⟩
  · rw [hrun]
    exact hfinished
  · rw [hrun]
    rfl
  · rw [hrun]
    exact hcount
  · rw [hsession]
    exact hgeneration
  · rw [hsession', hstarted hfinished, hcount, Session.rebuilt, hgeneration]
    rfl

end Checker

end Interleave
