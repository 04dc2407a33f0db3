import Interleave.Proofs.Machine.Visits

/-! # The run loop, round by round

In a `Machine.round` of the run loop the machine goes on to its next scheduling point
(`Machine.arrive`), the scheduler chooses, and the chosen process takes its step.  The run under a
scheduler that runs only what it is offered (`Scheduler.Obedient`) is a sequence of such rounds
(`Machine.run_runLoop`), and every such sequence is the run under a script that picks candidates by
their numbers (`Machine.Run.exists_picks`). -/

namespace Interleave

/-! ### Schedulers -/

namespace Scheduler

variable {σ : Type} [Scheduler σ] {q q' : σ} {p : Proc} {cs : List Candidate}

/-- From the state `q` on, whatever the scheduler is offered, it runs one of the processes offered or
ends the execution. -/
def Obedient (q : σ) : Prop :=
  ∃ Q : σ → Prop, Q q ∧ ∀ q cs, Q q →
    match schedule q cs with
    | (.run p, q') => p ∈ procs cs ∧ Q q'
    | (.outOfStep, _) => False
    | _ => True

theorem Obedient.run (h : Obedient q) (hs : schedule q cs = (.run p, q')) :
    p ∈ procs cs ∧ Obedient q' := by
  obtain ⟨Q, hq, hQ⟩ := h
  have hp := hQ q cs hq
  rw [hs] at hp
  exact ⟨hp.1, Q, hp.2, hQ⟩

theorem Obedient.ne_outOfStep (h : Obedient q) : schedule q cs ≠ (.outOfStep, q') := by
  obtain ⟨Q, hq, hQ⟩ := h
  intro hs
  have hfalse := hQ q cs hq
  rw [hs] at hfalse
  exact hfalse

/-- In its next `n` decisions, whatever it is offered, the scheduler runs one of the processes offered. -/
def Chooses : Nat → σ → Prop
  | 0, _ => True
  | n + 1, q => ∀ c cs, ∃ p q', schedule q (c :: cs) = (.run p, q') ∧ p ∈ procs (c :: cs) ∧ Chooses n q'

end Scheduler

namespace Script

variable {q : Script} {i : Nat} {choices : List Nat} {cs : List Candidate}

/-- The script that picks candidates by the given numbers, counted round and round, and then ends the
execution. -/
def picks (choices : List Nat) : Script := .start (choices.map .index) .stop choices.length

/-- The script is going to pick candidates by the given numbers and then to end the execution. -/
structure Due (q : Script) (choices : List Nat) : Prop where
  policy : q.policy = .stop
  moves : q.moves.drop q.offered.length = choices.map .index
  limit : q.offered.length + choices.length ≤ q.limit

theorem due_picks (choices : List Nat) : (picks choices).Due choices := by
  constructor <;> simp [picks, start]

theorem Due.choice_nil (h : q.Due []) : q.choice cs = none := by
  have hmove : q.moves[q.offered.length]? = none :=
    List.getElem?_eq_none (List.drop_eq_nil_iff.mp h.moves)
  simp only [choice, hmove, h.policy, ite_self]

theorem Due.choice_cons (h : q.Due (i :: choices)) : q.choice cs = around cs i := by
  have hlt : ¬ q.limit ≤ q.offered.length := by
    have := h.limit
    rw [List.length_cons] at this
    omega
  have hmove : q.moves[q.offered.length]? = some (.index i) := by
    rw [← List.head?_drop, h.moves]
    rfl
  unfold choice
  rw [if_neg hlt, hmove]

theorem Due.next (h : q.Due (i :: choices)) (x : List Candidate × Option Proc) :
    { q with offered := q.offered ++ [x] }.Due choices := by
  refine ⟨h.policy, ?_, ?_⟩
  · have hmoves := congrArg List.tail h.moves
    rw [List.tail_drop] at hmoves
    simpa using hmoves
  · have := h.limit
    rw [List.length_cons] at this
    simp only [List.length_append, List.length_singleton]
    omega

theorem around_mem {p : Proc} (h : around cs i = some p) : p ∈ procs cs := by
  obtain ⟨c, hc, rfl⟩ := Option.map_eq_some_iff.mp h
  exact List.mem_map_of_mem (List.mem_of_getElem? hc)

theorem exists_around {p : Proc} (h : p ∈ procs cs) : ∃ i, around cs i = some p := by
  obtain ⟨c, hc, rfl⟩ := List.mem_map.mp h
  obtain ⟨i, hi⟩ := List.mem_iff_getElem?.mp hc
  refine ⟨i, ?_⟩
  rw [around, Nat.mod_eq_of_lt (List.getElem?_eq_some_iff.mp hi).1, hi]
  rfl

theorem Due.obedient (h : q.Due choices) : Scheduler.Obedient q := by
  refine ⟨fun q => ∃ choices, q.Due choices, ⟨choices, h⟩, ?_⟩
  rintro q cs ⟨choices, h⟩
  simp only [Scheduler.schedule]
  cases choices with
  | nil =>
      rw [h.choice_nil]
      trivial
  | cons i choices =>
      rw [h.choice_cons]
      cases hp : around cs i with
      | none => trivial
      | some p => exact ⟨around_mem hp, choices, h.next _⟩

theorem obedient_picks (choices : List Nat) : Scheduler.Obedient (picks choices) :=
  (due_picks choices).obedient

theorem Due.chooses (h : q.Due choices) : Scheduler.Chooses choices.length q := by
  induction choices generalizing q with
  | nil => trivial
  | cons i choices ih =>
      intro c cs
      have hlt : i % (c :: cs).length < (c :: cs).length := Nat.mod_lt _ (Nat.succ_pos _)
      obtain ⟨p, hp⟩ : ∃ p, around (c :: cs) i = some p := by
        rw [around, List.getElem?_eq_getElem hlt]
        exact ⟨_, rfl⟩
      refine ⟨p, _, ?_, around_mem hp, ih (h.next (c :: cs, some p))⟩
      simp only [Scheduler.schedule, h.choice_cons, hp]

end Script

namespace Machine

variable {s : Setup} {m m' m₁ m₂ : Machine} {ending : Ending} {cs : List Candidate} {p : Proc}
  {why : Stop}

/-! ### Rounds -/

/-- Go on to the next scheduling point at which something is offered, or to the end of the run. -/
def arrive (s : Setup) (m : Machine) : Except (Ending × Machine) (Machine × List Candidate) :=
  match m.settle s with
  | (m, some why) => .error (.stopped why, m)
  | (m, none) =>
    match m.candidates s with
    | .error why => .error (.stopped why, m)
    | .ok [] => .error (if m.isDone then .completed else .stopped (m.blockage s), m)
    | .ok cs => .ok (m, cs)

theorem arrive_eq_ok (h : m.arrive s = .ok (m₁, cs)) :
    m.settle s = (m₁, none) ∧ m₁.candidates s = .ok cs ∧ cs ≠ [] := by
  unfold arrive at h
  split at h
  · cases h
  · split at h
    · cases h
    · cases h
    · cases h
      exact ⟨‹_›, ‹_›, ‹_›⟩

/-- A run that ends on its way has come to the end of its thread-local instructions, or to a place
where nothing is offered. -/
theorem arrive_eq_error (h : m.arrive s = .error (ending, m₁)) :
    (∃ why, m.settle s = (m₁, some why) ∧ ending = .stopped why) ∨
    m.settle s = (m₁, none) ∧
      ((∃ why, m₁.candidates s = .error why ∧ ending = .stopped why) ∨
        m₁.candidates s = .ok [] ∧
          ending = if m₁.isDone then .completed else .stopped (m₁.blockage s)) := by
  unfold arrive at h
  split at h
  · cases h
    exact .inl ⟨_, ‹_›, rfl⟩
  · split at h
    · cases h
      exact .inr ⟨‹_›, .inl ⟨_, ‹_›, rfl⟩⟩
    · cases h
      exact .inr ⟨‹_›, .inr ⟨‹_›, rfl⟩⟩
    · cases h

theorem arrive_of_settle_error (h : m.settle s = (m₁, some why)) :
    m.arrive s = .error (.stopped why, m₁) := by
  rw [arrive, h]

theorem arrive_of_candidates_error (h : m.settle s = (m₁, none)) (hcs : m₁.candidates s = .error why) :
    m.arrive s = .error (.stopped why, m₁) := by
  rw [arrive, h]
  simp only [hcs]

theorem arrive_of_nil (h : m.settle s = (m₁, none)) (hcs : m₁.candidates s = .ok []) :
    m.arrive s = .error (if m₁.isDone then .completed else .stopped (m₁.blockage s), m₁) := by
  rw [arrive, h]
  simp only [hcs]

theorem arrive_of_ne_nil (h : m.settle s = (m₁, none)) (hcs : m₁.candidates s = .ok cs)
    (hne : cs ≠ []) : m.arrive s = .ok (m₁, cs) := by
  rw [arrive, h]
  simp only [hcs]

theorem calm_of_arrive (h : m.arrive s = .ok (m₁, cs)) : m₁.Calm s := by
  obtain ⟨hsettle, hcs, -⟩ := arrive_eq_ok h
  exact calm_of_settle hsettle hcs

theorem offered_of_arrive (h : m.arrive s = .ok (m₁, cs)) (hp : p ∈ procs cs) :
    ∃ c, m₁.Offered s c ∧ c.proc = p := by
  obtain ⟨-, hcs, -⟩ := arrive_eq_ok h
  obtain ⟨c, hc, rfl⟩ := List.mem_map.mp hp
  exact ⟨c, (mem_candidates hcs).mp hc, rfl⟩

theorem settleFrom_of_atRest {ths : List Thread} (h : ∀ th ∈ ths, th.AtRest s) (t : Nat) :
    settleFrom s t ths = (ths, [], none) := by
  induction ths generalizing t with
  | nil => rfl
  | cons th ths ih =>
      obtain ⟨hth, hths⟩ := List.forall_mem_cons.mp h
      simp [settleFrom, hth.runLocal_eq, ih hths]

theorem atRest_settleFrom {ths ths' : List Thread} {log : List LogRecord} {t : Nat}
    (h : settleFrom s t ths = (ths', log, none)) : ∀ th ∈ ths', th.AtRest s := by
  have hstop := (settleFrom_eq s t ths).1
  have hthreads := (settleFrom_eq s t ths).2
  rw [h] at hstop hthreads
  rw [show ths' = _ from hthreads rfl]
  intro th hth
  obtain ⟨x, hx, rfl⟩ := List.mem_map.mp hth
  exact Thread.atRest_runLocal
    (List.filterMap_eq_nil_iff.mp (List.head?_eq_none_iff.mp hstop.symm) x hx)

theorem settle_of_settle (h : m.settle s = (m₁, none)) : m₁.settle s = (m₁, none) := by
  unfold settle at h ⊢
  generalize hsettled : settleFrom s 0 m.threads = settled at h
  obtain ⟨threads, log, stop⟩ := settled
  cases h
  simp [settleFrom_of_atRest (atRest_settleFrom hsettled)]

theorem arrive_of_settle (h : m.settle s = (m₁, none)) : m₁.arrive s = m.arrive s := by
  rw [arrive, arrive, h, settle_of_settle h]

section

variable {σ : Type} [Scheduler σ]

/-- A round of the run loop: the end of the run, or the machine and the scheduler behind it. -/
def round (s : Setup) (m : Machine) (q : σ) : Except (Ending × Machine × σ) (Machine × σ) :=
  match m.arrive s with
  | .error (ending, m) => .error (ending, m, q)
  | .ok (m, cs) =>
    match Scheduler.schedule q cs with
    | (.run p, q) =>
      match m.step s p with
      | .error why => .error (.stopped why, m, q)
      | .ok m => .ok (m, q)
    | (.outOfStep, q) => .error (.stopped (.fault (.raised "schedule out of step")), m, q)
    | (d, q) => .error (.refused, { m with log := m.log ++ d.log }, q)

/-- **The run loop goes round by round.** -/
theorem runLoop_succ (s : Setup) (fuel : Nat) (m : Machine) (q : σ) :
    m.runLoop s (fuel + 1) q =
      match m.round s q with
      | .error halt => halt
      | .ok (m, q) => m.runLoop s fuel q := by
  rw [runLoop, round, arrive]
  rcases m.settle s with ⟨m₁, _ | why⟩
  · simp only
    rcases m₁.candidates s with why | (_ | ⟨c, cs⟩)
    · rfl
    · cases hdone : m₁.isDone with
      | true => simp
      | false => cases hdead : m₁.deadlock s <;> simp [hdead, blockage]
    · simp only
      rcases Scheduler.schedule q (c :: cs) with ⟨d, q'⟩
      cases d with
      | run p =>
          simp only
          cases m₁.step s p <;> rfl
      | _ => rfl
  · rfl

/-- A run that has come to its end does not change with more fuel. -/
theorem runLoop_of_le {n k : Nat} (h : n ≤ k) (m : Machine) (q : σ)
    (hends : (m.runLoop s n q).1 ≠ .outOfFuel) : m.runLoop s k q = m.runLoop s n q := by
  induction n generalizing k m q with
  | zero => exact absurd rfl hends
  | succ n ih =>
      obtain ⟨k, rfl⟩ : ∃ l, k = l + 1 := ⟨k - 1, by omega⟩
      rw [runLoop_succ] at hends ⊢
      rw [runLoop_succ]
      cases hround : m.round s q with
      | error halt => rfl
      | ok x =>
          simp only [hround] at hends
          exact ih (Nat.le_of_succ_le_succ h) x.1 x.2 hends

theorem events_step {p : Proc} (h : m.step s p = .ok m') : m.events <+: m'.events := by
  obtain ⟨k, -, hbehind⟩ := (moves_step s).behind_of_ok trivial h
  exact ⟨_, hbehind.events.symm⟩

/-- What settling, steps and log records preserve holds behind a round, whatever the scheduler does. -/
theorem round_invariant {P : Machine → Prop} (hsettle : ∀ m, P m → P (m.settle s).1)
    (hstep : ∀ m m' p, P m → m.step s p = .ok m' → P m') (hlog : ∀ m log, P m → P { m with log })
    (hm : P m) (q : σ) :
    match m.round s q with
    | .error halt => P halt.2.1
    | .ok x => P x.1 := by
  have hm₁ := hsettle m hm
  unfold round
  cases harrive : m.arrive s with
  | error x => rcases arrive_eq_error harrive with ⟨why, hs, -⟩ | ⟨hs, -⟩ <;> rwa [hs] at hm₁
  | ok x =>
      obtain ⟨m₁, cs⟩ := x
      rw [(arrive_eq_ok harrive).1] at hm₁
      simp only
      rcases Scheduler.schedule q cs with ⟨d, q'⟩
      cases d with
      | run p =>
          simp only
          cases hs : m₁.step s p with
          | error why => exact hm₁
          | ok m₂ => exact hstep m₁ m₂ p hm₁ hs
      | outOfStep => exact hm₁
      | stop => exact hlog m₁ _ hm₁
      | diverged i p => exact hlog m₁ _ hm₁

/-- **What every step preserves holds at the end of the run loop**, under any scheduler. -/
theorem runLoop_invariant {P : Machine → Prop} (hsettle : ∀ m, P m → P (m.settle s).1)
    (hstep : ∀ m m' p, P m → m.step s p = .ok m' → P m') (hlog : ∀ m log, P m → P { m with log })
    (fuel : Nat) (hm : P m) (q : σ) : P (m.runLoop s fuel q).2.1 := by
  induction fuel generalizing m q with
  | zero => exact hm
  | succ fuel ih =>
      have hround := round_invariant hsettle hstep hlog hm q
      rw [runLoop_succ]
      cases hr : m.round s q with
      | error halt =>
          rw [hr] at hround
          exact hround
      | ok x =>
          rw [hr] at hround
          exact ih hround x.2

theorem told_runLoop (hm : m.Told) (s : Setup) (fuel : Nat) (q : σ) : (m.runLoop s fuel q).2.1.Told :=
  runLoop_invariant (P := Told) (fun _ hm => hm.settle) (fun _ _ _ hm hstep => hm.step hstep)
    (fun _ _ hm => ⟨hm.graph, hm.waiting, hm.addr⟩) fuel hm q

theorem errors_runLoop (m : Machine) (s : Setup) (fuel : Nat) (q : σ) :
    (m.runLoop s fuel q).2.1.errors = m.errors := by
  refine runLoop_invariant (P := fun m' => m'.errors = m.errors) (fun _ hm => hm) ?_ (fun _ _ hm => hm)
    fuel rfl q
  intro m₁ m₂ p hm hstep
  obtain ⟨k, -, hbehind⟩ := (moves_step s).behind_of_ok trivial hstep
  exact hbehind.errors.trans hm

theorem events_round (m : Machine) (q : σ) :
    match m.round s q with
    | .error halt => m.events <+: halt.2.1.events
    | .ok x => m.events <+: x.1.events :=
  round_invariant (P := fun m' => m.events <+: m'.events) (fun _ hm => hm)
    (fun _ _ _ hm hstep => hm.trans (events_step hstep)) (fun _ _ hm => hm) List.prefix_rfl q

/-- More fuel adds events at the end. -/
theorem events_runLoop {n k : Nat} (h : n ≤ k) (m : Machine) (q : σ) :
    (m.runLoop s n q).2.1.events <+: (m.runLoop s k q).2.1.events := by
  induction k generalizing n m q with
  | zero =>
      obtain rfl : n = 0 := by omega
      exact List.prefix_rfl
  | succ k ih =>
      have hround := events_round (s := s) m q
      rw [runLoop_succ s k]
      cases n with
      | zero =>
          cases hm : m.round s q with
          | error halt =>
              simp only [hm] at hround
              exact hround
          | ok x =>
              simp only [hm] at hround
              exact hround.trans (ih (Nat.zero_le k) x.1 x.2)
      | succ n =>
          rw [runLoop_succ]
          cases hm : m.round s q with
          | error halt => exact List.prefix_rfl
          | ok x => exact ih (Nat.le_of_succ_le_succ h) x.1 x.2

end

/-! ### Runs -/

/-- Some rounds in which the process to run is chosen among those offered: from which machine, how they
end, and with which machine. -/
inductive Run (s : Setup) : Machine → Ending → Machine → Prop
  | outOfFuel (m : Machine) : Run s m .outOfFuel m
  | ended {m m' : Machine} {ending : Ending} (arrive : m.arrive s = .error (ending, m')) :
      Run s m ending m'
  | refused {m m₁ : Machine} {cs : List Candidate} (arrive : m.arrive s = .ok (m₁, cs))
      (log : List LogRecord) : Run s m .refused { m₁ with log }
  | failed {m m₁ : Machine} {cs : List Candidate} {p : Proc} {why : Stop}
      (arrive : m.arrive s = .ok (m₁, cs)) (mem : p ∈ procs cs) (step : m₁.step s p = .error why) :
      Run s m (.stopped why) m₁
  | step {m m₁ m₂ m' : Machine} {cs : List Candidate} {p : Proc} {ending : Ending}
      (arrive : m.arrive s = .ok (m₁, cs)) (mem : p ∈ procs cs) (step : m₁.step s p = .ok m₂)
      (run : Run s m₂ ending m') : Run s m ending m'

/-- **The run loop under an obedient scheduler** goes through such rounds. -/
theorem run_runLoop {σ : Type} [Scheduler σ] {q : σ} (hq : Scheduler.Obedient q) (s : Setup)
    (fuel : Nat) (m : Machine) : Run s m (m.runLoop s fuel q).1 (m.runLoop s fuel q).2.1 := by
  induction fuel generalizing m q with
  | zero => exact .outOfFuel m
  | succ fuel ih =>
      rw [runLoop_succ, round]
      cases harrive : m.arrive s with
      | error x => exact .ended harrive
      | ok x =>
          obtain ⟨m₁, cs⟩ := x
          simp only
          cases hs : Scheduler.schedule q cs with
          | mk d q' =>
          cases d with
          | run p =>
              obtain ⟨hp, hq'⟩ := hq.run hs
              simp only
              cases hstep : m₁.step s p with
              | error why => exact .failed harrive hp hstep
              | ok m₂ => exact .step harrive hp hstep (ih hq' m₂)
          | outOfStep => exact absurd hs hq.ne_outOfStep
          | stop => exact .refused harrive _
          | diverged i p => exact .refused harrive _

/-- Every sequence of rounds is the run under a script. -/
theorem Run.exists_picks (h : Run s m ending m') :
    ∃ fuel choices, ∀ q : Script, q.Due choices →
      ∃ log q', m.runLoop s fuel q = (ending, { m' with log }, q') := by
  induction h with
  | outOfFuel m => exact ⟨0, [], fun q _ => ⟨m.log, q, rfl⟩⟩
  | @ended m m' ending harrive =>
      refine ⟨1, [], fun q _ => ⟨m'.log, q, ?_⟩⟩
      rw [runLoop_succ, round, harrive]
  | @refused m m₁ cs harrive log =>
      refine ⟨1, [], fun q hq => ⟨m₁.log ++ [], { q with offered := q.offered ++ [(cs, none)] }, ?_⟩⟩
      rw [runLoop_succ, round, harrive]
      simp only [Scheduler.schedule, hq.choice_nil]
      rfl
  | @failed m m₁ cs p why harrive hp hstep =>
      obtain ⟨i, hi⟩ := Script.exists_around hp
      refine ⟨1, [i], fun q hq => ⟨m₁.log, { q with offered := q.offered ++ [(cs, some p)] }, ?_⟩⟩
      rw [runLoop_succ, round, harrive]
      simp only [Scheduler.schedule, hq.choice_cons, hi, hstep]
  | @step m m₁ m₂ m' cs p ending harrive hp hstep _ ih =>
      obtain ⟨fuel, choices, hrun⟩ := ih
      obtain ⟨i, hi⟩ := Script.exists_around hp
      refine ⟨fuel + 1, i :: choices, fun q hq => ?_⟩
      obtain ⟨log, q', hloop⟩ := hrun _ (hq.next (cs, some p))
      refine ⟨log, q', ?_⟩
      rw [runLoop_succ, round, harrive]
      simp only [Scheduler.schedule, hq.choice_cons, hi, hstep]
      exact hloop

/-- Only a run that has not begun changes if the threads are at rest beforehand. -/
theorem Run.of_settle (h : Run s m ending m') (hsettle : m.settle s = (m₁, none)) :
    ending = .outOfFuel ∧ m' = m ∨ Run s m₁ ending m' := by
  have harrive := arrive_of_settle hsettle
  cases h with
  | outOfFuel => exact .inl ⟨rfl, rfl⟩
  | ended h => exact .inr (.ended (harrive.trans h))
  | refused h log => exact .inr (.refused (harrive.trans h) log)
  | failed h hp hstep => exact .inr (.failed (harrive.trans h) hp hstep)
  | step h hp hstep hrun => exact .inr (.step (harrive.trans h) hp hstep hrun)

theorem Run.of_arrive_error {ending' : Ending} (h : Run s m ending m')
    (harrive : m.arrive s = .error (ending', m₁)) :
    ending = .outOfFuel ∧ m' = m ∨ ending = ending' ∧ m' = m₁ := by
  cases h with
  | outOfFuel => exact .inl ⟨rfl, rfl⟩
  | ended h =>
      cases h.symm.trans harrive
      exact .inr ⟨rfl, rfl⟩
  | refused h log => cases h.symm.trans harrive
  | failed h _ _ => cases h.symm.trans harrive
  | step h _ _ _ => cases h.symm.trans harrive

/-- **What a round preserves holds at the end of every run.** -/
theorem Run.invariant {P : Machine → Prop} (hsettle : ∀ m, P m → P (m.settle s).1)
    (hstep : ∀ m m' c, P m → m.Calm s → m.Offered s c → m.step s c.proc = .ok m' → P m')
    (hlog : ∀ m log, P m → P { m with log }) (h : Run s m ending m') (hm : P m) : P m' := by
  have hok : ∀ {m m₁ cs}, P m → m.arrive s = .ok (m₁, cs) → P m₁ := by
    intro m m₁ cs hm harrive
    have := hsettle m hm
    rwa [(arrive_eq_ok harrive).1] at this
  induction h with
  | outOfFuel => exact hm
  | @ended m _ _ harrive =>
      have hm₁ := hsettle m hm
      rcases arrive_eq_error harrive with ⟨why, hs, -⟩ | ⟨hs, -⟩ <;> rwa [hs] at hm₁
  | refused harrive log => exact hlog _ log (hok hm harrive)
  | failed harrive _ _ => exact hok hm harrive
  | step harrive hp hstep' _ ih =>
      obtain ⟨c, hc, rfl⟩ := offered_of_arrive harrive hp
      exact ih (hstep _ _ c (hok hm harrive) (calm_of_arrive harrive) hc hstep')

theorem Run.told (h : Run s m ending m') (hm : m.Told) : m'.Told :=
  h.invariant (P := Told) (fun _ hm => hm.settle) (fun _ _ _ hm _ _ hstep => hm.step hstep)
    (fun _ _ hm => ⟨hm.graph, hm.waiting, hm.addr⟩) hm

theorem Run.buffers_of_completed (h : Run s m .completed m') : ∀ th ∈ m'.threads, th.buffer = [] := by
  generalize hending : Ending.completed = ending at h
  induction h with
  | outOfFuel => cases hending
  | @ended m m' ending harrive =>
      rcases arrive_eq_error harrive with ⟨why, -, rfl⟩ | ⟨-, ⟨why, -, rfl⟩ | ⟨-, hend⟩⟩
      · cases hending
      · cases hending
      · have hdone : m'.isDone = true := by
          by_contra hdone
          rw [← hending, if_neg hdone] at hend
          cases hend
        intro th hth
        have := List.all_eq_true.mp hdone th hth
        simpa [Thread.isDone] using (Bool.and_eq_true_iff.mp this).2
  | refused => cases hending
  | failed => cases hending
  | step _ _ _ _ ih => exact ih hending

end Machine

end Interleave
