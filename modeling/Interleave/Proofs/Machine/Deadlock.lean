import Interleave.Proofs.Machine.Announced
import Interleave.Proofs.Machine.Errors

/-! # Deadlocks

A thread may be kept from its next operation for several reasons: its own buffer is not drained, a mutex is
held, a joined thread is not finished or its buffer is not drained.  A buffer that is not drained can always
be flushed.  So where nothing is offered though not everything is done, all buffers are empty and every
thread that is not finished is held up by a mutex or by another such thread (`Machine.HeldUp`).

A run under a scheduler that always chooses goes on to such a scheduling point, or to one where everything is
done, or an error of a thread stops it on its way (`Machine.runLoop_cases`).  The first of these is what is
reported as a deadlock, and only the second counts as an end without error
(`Machine.deadlock_iff_stuck`). -/

namespace Interleave

/-! ### Visible instructions -/

theorem Thread.operation_of_isVisible {th : Thread} {i : Instr Nat} {op? : Option Operation}
    (hvis : i.isVisible = true) (h : th.operation i = .ok op?) : ∃ op, op? = some op := by
  cases i with
  | load | store | join | lock | unlock =>
      obtain ⟨x, -, h⟩ := exists_of_bind h
      cases h
      exact ⟨_, rfl⟩
  | fence | spawn =>
      cases h
      exact ⟨_, rfl⟩
  | _ => cases hvis

namespace Machine

variable {s : Setup} {m m' m₁ : Machine} {t n fuel : Nat} {th : Thread} {c : Candidate}
  {cs : List Candidate} {op : Operation} {why : Stop}

theorem exists_upcoming (hrest : th.AtRest s) (hready : th.Ready s) (hfin : th.finished = false) :
    ∃ op, th.upcoming s = .ok (some op) := by
  obtain ⟨f, i, hf, hi, hvis⟩ := hrest.resolve_left (by simp [hfin])
  obtain ⟨op?, hop⟩ := hready
  have hoperation : th.operation i = .ok op? := by simpa [Thread.upcoming, hfin, hf, hi] using hop
  obtain ⟨op, rfl⟩ := Thread.operation_of_isVisible hvis hoperation
  exact ⟨op, hop⟩

/-! ### Threads that are held up -/

/-- What keeps a thread from going on until another one has done something. -/
inductive HeldUp (s : Setup) (m : Machine) (t : Nat) (th : Thread) : Prop
  /-- The thread stands at the lock of a cell that does not hold zero. -/
  | lock {f : Function} {l : Location} {a : Addr} {cell : Nat} {v : Int64}
      (function : s.function th.function = .ok f) (instr : f.body[th.pc]? = some (.lock l))
      (address : th.address l = .ok a) (valid : m.cell? a = some cell)
      (value : m.memory[cell]? = some v) (held : v ≠ 0)
  /-- The thread stands at the join of another thread that is not finished. -/
  | join {f : Function} {v : Operand} {x : Int64} {u : Nat} {other : Thread}
      (function : s.function th.function = .ok f) (instr : f.body[th.pc]? = some (.join v))
      (value : th.value v = .ok x) (number : x.toInt = u) (ne : u ≠ t)
      (thread : m.threads[u]? = some other) (unfinished : other.finished = false)

/-- The operations for which a thread has to wait for others. -/
theorem announce_eq_none (h : m.announce s t op = none) :
    (∃ a cell, op = .lock a ∧ m.cell? a = some cell ∧ m.read cell ≠ 0) ∨
      ∃ x u, op = .join x ∧ m.joinee? t x = some u ∧
        (m.threads[u]?.map Thread.isDone).getD false = false := by
  cases op with
  | lock a =>
      simp only [announce] at h
      split at h
      · next cell hcell =>
        split at h
        · cases h
        · next hread => exact .inl ⟨a, cell, rfl, hcell, hread⟩
      · cases h
  | join x =>
      simp only [announce] at h
      split at h
      · next u hu =>
        split at h
        · cases h
        · next hdone => exact .inr ⟨x, u, rfl, hu, by simpa using hdone⟩
      · cases h
  | _ => cases h

theorem joinee?_eq_some {x : Int64} {u : Nat} (h : m.joinee? t x = some u) :
    x.toInt = u ∧ u < m.threads.length ∧ u ≠ t := by
  unfold joinee? at h
  simp only at h
  split at h
  · next hx =>
    cases h
    exact ⟨(Int.toNat_of_nonneg hx.1).symm, hx.2.1, hx.2.2⟩
  · cases h

theorem buffer_eq_nil_of_offered (h : m.offered s = []) (hth : th ∈ m.threads) : th.buffer = [] := by
  obtain ⟨t, ht⟩ := List.mem_iff_getElem?.mp hth
  cases hb : th.buffer with
  | nil => rfl
  | cons b rest =>
      have hmem := mem_offered.mpr (Offered.flush (s := s) ht (b := b) (by rw [hb]; rfl))
      rw [h] at hmem
      cases hmem

/-- **Where nothing is offered, a thread that is not finished is held up.** -/
theorem heldUp_of_offered (hm : m.Calm s) (h : m.offered s = []) (hth : m.threads[t]? = some th)
    (hfin : th.finished = false) : m.HeldUp s t th := by
  have hmem := List.mem_of_getElem? hth
  obtain ⟨op, hup⟩ := exists_upcoming (hm th hmem).1 (hm th hmem).2 hfin
  obtain ⟨-, f, i, hf, hi, hop⟩ := th.of_upcoming s hup
  have hannounce : m.announce s t op = none := by
    -- with the buffer empty, the thread would be admitted to whatever it announces
    cases ha : m.announce s t op with
    | none => rfl
    | some a =>
        have hadmits : m.admits s t th op = some ⟨.thread t, a⟩ :=
          admits_eq_some.mpr ⟨ha, rfl, by simp [buffer_eq_nil_of_offered h hmem]⟩
        have hoffered := mem_offered.mpr (.thread hth hup hadmits)
        rw [h] at hoffered
        cases hoffered
  have hinstr := th.of_operation hop
  rcases announce_eq_none hannounce with ⟨a, cell, rfl, hcell, hread⟩ | ⟨x, u, rfl, hu, hdone⟩
  · obtain ⟨l, rfl⟩ := hinstr
    obtain ⟨a', haddress, hop⟩ := exists_of_bind hop
    cases hop
    have hvalue : m.memory[cell]? = some (m.read cell) := by
      rw [read, List.getD_eq_getElem?_getD, List.getElem?_eq_getElem (cell?_eq_some hcell).2.2]
      rfl
    exact .lock hf hi haddress hcell hvalue hread
  · obtain ⟨v, rfl⟩ := hinstr
    obtain ⟨x', hvalue, hop⟩ := exists_of_bind hop
    cases hop
    obtain ⟨hnumber, hlt, hne⟩ := joinee?_eq_some hu
    have hother := List.getElem?_eq_getElem hlt
    have hbuffer := buffer_eq_nil_of_offered h (List.getElem_mem hlt)
    refine .join hf hi hvalue hnumber hne hother ?_
    simpa [hother, Thread.isDone, hbuffer] using hdone

theorem isDone_iff : m.isDone = true ↔ ∀ th ∈ m.threads, th.finished = true ∧ th.buffer = [] := by
  simp [isDone, Thread.isDone]

theorem offered_of_isDone (h : m.isDone = true) : m.offered s = [] := by
  refine List.eq_nil_iff_forall_not_mem.mpr fun c hc => ?_
  cases mem_offered.mp hc with
  | @thread t th op _ hth hup _ =>
      have hfin := (th.of_upcoming s hup).1
      simp [(isDone_iff.mp h th (List.mem_of_getElem? hth)).1] at hfin
  | @flush t th b hth hb => simp [(isDone_iff.mp h th (List.mem_of_getElem? hth)).2] at hb

/-- Where nothing is offered, everything is done or a thread is not finished. -/
theorem isDone_of_offered (h : m.offered s = []) :
    m.isDone = true ↔ ¬ ∃ th ∈ m.threads, th.finished = false := by
  rw [isDone_iff]
  constructor
  · rintro hdone ⟨th, hth, hfin⟩
    simp [(hdone th hth).1] at hfin
  · intro hfin th hth
    exact ⟨by simpa using fun hth' => hfin ⟨th, hth, hth'⟩, buffer_eq_nil_of_offered h hth⟩

/-! ### What stops a run on its way -/

/-- What stops a run on its way is a fault or an error that a thread makes by itself, and some thread is not
finished then. -/
structure Interrupted (m : Machine) (why : Stop) : Prop where
  kind : ∀ e, why = .error e → e.kind.isOfThread = true
  unfinished : ∃ th ∈ m.threads, th.finished = false

theorem finished_of_stop {logged : List LogRecord}
    (h : (runLocalFrom s t n th logged).stop = some why) :
    (runLocalFrom s t n th logged).thread.finished = false := by
  fun_induction runLocalFrom s t n th logged with
  | case1 | case3 | case4 => cases h
  | case2 _ _ _ hfin | case5 _ _ hfin | case6 _ _ hfin => simpa using hfin
  | case7 _ _ _ _ _ _ _ _ _ _ _ _ ih => exact ih h

theorem exists_unfinished_of_settleFrom {ths : List Thread}
    (h : (settleFrom s t ths).2.2 = some why) :
    ∃ th ∈ (settleFrom s t ths).1, th.finished = false := by
  induction ths generalizing t with
  | nil => cases h
  | cons th ths ih =>
      rw [settleFrom] at h ⊢
      cases hstop : (runLocal s t th).stop with
      | some why' => exact ⟨(runLocal s t th).thread, by simp, finished_of_stop hstop⟩
      | none =>
          simp only [hstop] at h ⊢
          obtain ⟨th', hth', hfin⟩ := ih h
          exact ⟨th', List.mem_cons_of_mem _ hth', hfin⟩

theorem interrupted_of_settle (h : m.settle s = (m₁, some why)) : m₁.Interrupted why := by
  unfold settle at h
  generalize hsettled : settleFrom s 0 m.threads = settled at h
  obtain ⟨threads, log, stop⟩ := settled
  cases h
  have hstop : (settleFrom s 0 m.threads).2.2 = some why := by rw [hsettled]
  refine ⟨?_, ?_⟩
  · rintro e rfl
    exact ordinary_settleFrom s 0 m.threads hstop
  · simpa [hsettled] using exists_unfinished_of_settleFrom hstop

theorem interrupted_of_candidates (h : m.candidates s = .error why) : m.Interrupted why := by
  refine ⟨fun e he => ordinary_candidates s m e (he ▸ h), ?_⟩
  obtain ⟨th, hth, herror⟩ := List.mem_filterMap.mp (List.mem_of_head? (candidates_eq_error.mp h))
  refine ⟨th, hth, ?_⟩
  cases hfin : th.finished with
  | false => rfl
  | true => simp [Thread.upcoming, hfin] at herror

/-- Only a thread can fail to take its step, not a flush. -/
theorem Offered.interrupted (hc : m.Offered s c) (h : m.step s c.proc = .error why) :
    m.Interrupted why := by
  refine ⟨fun e he => ordinary_step s m c.proc e (he ▸ h), ?_⟩
  cases hc with
  | @thread t th op _ hth hup _ => exact ⟨th, List.mem_of_getElem? hth, (th.of_upcoming s hup).1⟩
  | flush hth hb =>
      obtain ⟨m', hm'⟩ := exists_flush (s := s) hth hb
      rw [hm'] at h
      cases h

/-! ### How a run ends -/

/-- How a run ends where nothing is offered. -/
def conclusion (s : Setup) (m : Machine) : Ending :=
  if m.isDone then .completed else .stopped (m.blockage s)

theorem conclusion_eq_completed : m.conclusion s = .completed ↔ m.isDone = true := by
  simp [conclusion]

theorem conclusion_eq_deadlock (hm : m.Calm s) :
    (∃ e, m.conclusion s = .stopped (.error e) ∧ e.kind = .deadlock) ↔ ¬ m.isDone = true := by
  obtain ⟨message, hdead⟩ := exists_deadlock s hm
  cases hdone : m.isDone with
  | true => simp [conclusion, hdone]
  | false => simp [conclusion, hdone, blockage, hdead]

section

variable {σ : Type} [Scheduler σ] {q q' : σ}

/-- The run of `m` under the scheduler comes, after `n` steps, to the scheduling point `m'`, where the
candidates `cs` are offered. -/
inductive Comes (s : Setup) : (n : Nat) → (m : Machine) → (q : σ) → (m' : Machine) →
    (cs : List Candidate) → Prop
  | here {m m' : Machine} {q : σ} {cs : List Candidate} (settle : m.settle s = (m', none))
      (candidates : m'.candidates s = .ok cs) : Comes s 0 m q m' cs
  | step {n : Nat} {m m₁ m₂ m' : Machine} {q q' : σ} {p : Proc} {cs cs' : List Candidate}
      (settle : m.settle s = (m₁, none)) (candidates : m₁.candidates s = .ok cs) (ne : cs ≠ [])
      (chosen : Scheduler.schedule q cs = (.run p, q')) (step : m₁.step s p = .ok m₂)
      (rest : Comes s n m₂ q' m' cs') : Comes s (n + 1) m q m' cs'

theorem Comes.calm (h : Comes s n m q m' cs) : m'.Calm s := by
  induction h with
  | here hsettle hcs => exact calm_of_settle hsettle hcs
  | step _ _ _ _ _ _ ih => exact ih

theorem Comes.offered_eq (h : Comes s n m q m' cs) : m'.offered s = cs := by
  induction h with
  | here _ hcs => exact (candidates_eq_ok.mp hcs).2.symm
  | step _ _ _ _ _ _ ih => exact ih

/-- **A run that comes to a scheduling point where nothing is offered ends there.** -/
theorem Comes.runLoop_eq (h : Comes s n m q m' []) (hn : n < fuel) :
    ∃ q', m.runLoop s fuel q = (m'.conclusion s, m', q') := by
  generalize hcs : ([] : List Candidate) = cs at h
  induction h generalizing fuel with
  | @here m m' q cs hsettle hcandidates =>
      subst hcs
      obtain ⟨fuel, rfl⟩ := Nat.exists_eq_add_one_of_ne_zero (Nat.ne_zero_of_lt hn)
      refine ⟨q, ?_⟩
      rw [runLoop_succ, round, arrive_of_nil hsettle hcandidates]
      rfl
  | step hsettle hcandidates hne hchosen hstep _ ih =>
      obtain ⟨fuel, rfl⟩ := Nat.exists_eq_add_one_of_ne_zero (Nat.ne_zero_of_lt hn)
      rw [runLoop_of_schedule hsettle hcandidates hne hchosen, hstep]
      exact ih (Nat.lt_of_succ_lt_succ hn) hcs

/-- **How a run ends under a scheduler that always chooses**: its fuel is used up, something stops it on its
way, or it comes to a scheduling point where nothing is offered. -/
theorem runLoop_cases (hq : Scheduler.Chooses fuel q) (m : Machine) :
    (m.runLoop s fuel q).1 = .outOfFuel ∨
    (∃ why, (m.runLoop s fuel q).1 = .stopped why ∧ (m.runLoop s fuel q).2.1.Interrupted why) ∨
    ∃ n < fuel, Comes s n m q (m.runLoop s fuel q).2.1 [] ∧
      (m.runLoop s fuel q).1 = (m.runLoop s fuel q).2.1.conclusion s := by
  induction fuel generalizing m q with
  | zero => exact .inl rfl
  | succ fuel ih =>
      rw [runLoop_succ, round]
      cases harrive : m.arrive s with
      | error x =>
          obtain ⟨ending, m₁⟩ := x
          rcases arrive_eq_error harrive with ⟨why, hsettle, rfl⟩ | ⟨hsettle, ⟨why, hcs, rfl⟩ | ⟨hcs, rfl⟩⟩
          · exact .inr (.inl ⟨why, rfl, interrupted_of_settle hsettle⟩)
          · exact .inr (.inl ⟨why, rfl, interrupted_of_candidates hcs⟩)
          · exact .inr (.inr ⟨0, Nat.succ_pos fuel, .here hsettle hcs, rfl⟩)
      | ok x =>
          obtain ⟨m₁, cs⟩ := x
          obtain ⟨hsettle, hcs, hne⟩ := arrive_eq_ok harrive
          obtain ⟨c, rest, rfl⟩ := List.exists_cons_of_ne_nil hne
          obtain ⟨p, q', hchosen, hp, hq'⟩ := hq c rest
          simp only [hchosen]
          cases hstep : m₁.step s p with
          | error why =>
              obtain ⟨c, hc, rfl⟩ := offered_of_arrive harrive hp
              exact .inr (.inl ⟨why, rfl, hc.interrupted hstep⟩)
          | ok m₂ =>
              rcases ih hq' m₂ with hfuel | hstops | ⟨n, hn, hcomes, hends⟩
              · exact .inl hfuel
              · exact .inr (.inl hstops)
              · exact .inr (.inr
                  ⟨n + 1, Nat.succ_lt_succ hn, .step hsettle hcs hne hchosen hstep hcomes, hends⟩)

/-- The run ends with a deadlock exactly if it comes to a scheduling point where nothing is offered though a
thread is not finished. -/
theorem runLoop_deadlock_iff (hq : Scheduler.Chooses fuel q) (m : Machine) :
    (∃ e, (m.runLoop s fuel q).1 = .stopped (.error e) ∧ e.kind = .deadlock) ↔
      ∃ n < fuel, ∃ m', Comes s n m q m' [] ∧ ∃ th ∈ m'.threads, th.finished = false := by
  constructor
  · rintro ⟨e, hends, hkind⟩
    rcases runLoop_cases (s := s) hq m with hfuel | ⟨why, hstops, hwhy⟩ | ⟨n, hn, hcomes, hconclusion⟩
    · simp [hfuel] at hends
    · obtain rfl : why = .error e := by simpa [hstops] using hends
      have hthread := hwhy.kind e rfl
      simp [hkind, ErrorKind.isOfThread] at hthread
    · refine ⟨n, hn, _, hcomes, not_not.mp fun hfin => ?_⟩
      exact (conclusion_eq_deadlock hcomes.calm).mp ⟨e, hconclusion ▸ hends, hkind⟩
        ((isDone_of_offered hcomes.offered_eq).mpr hfin)
  · rintro ⟨n, hn, m', hcomes, hfin⟩
    obtain ⟨q', hrun⟩ := hcomes.runLoop_eq hn
    rw [hrun]
    exact (conclusion_eq_deadlock hcomes.calm).mpr fun hdone =>
      (isDone_of_offered hcomes.offered_eq).mp hdone hfin

/-- The run ends by itself and without an error exactly if it comes to a scheduling point where everything is
done. -/
theorem runLoop_completed_iff (hq : Scheduler.Chooses fuel q) (m : Machine) :
    (m.runLoop s fuel q).1 = .completed ↔
      ∃ n < fuel, ∃ m' cs, Comes s n m q m' cs ∧ m'.isDone = true := by
  constructor
  · intro hends
    rcases runLoop_cases (s := s) hq m with hfuel | ⟨why, hstops, -⟩ | ⟨n, hn, hcomes, hconclusion⟩
    · simp [hfuel] at hends
    · simp [hstops] at hends
    · exact ⟨n, hn, _, [], hcomes, conclusion_eq_completed.mp (hconclusion ▸ hends)⟩
  · rintro ⟨n, hn, m', cs, hcomes, hdone⟩
    obtain rfl : cs = [] := hcomes.offered_eq.symm.trans (offered_of_isDone hdone)
    obtain ⟨q', hrun⟩ := hcomes.runLoop_eq hn
    rw [hrun]
    exact conclusion_eq_completed.mpr hdone

/-- Behind a run that has ended, everything is done only if there was no error. -/
theorem runLoop_completed_iff_isDone (hq : Scheduler.Chooses fuel q)
    (hends : (m.runLoop s fuel q).1 ≠ .outOfFuel) :
    (m.runLoop s fuel q).1 = .completed ↔ (m.runLoop s fuel q).2.1.isDone = true := by
  rcases runLoop_cases (s := s) hq m with hfuel | ⟨why, hstops, -, th, hth, hfin⟩ | ⟨n, -, -, hconclusion⟩
  · exact absurd hfuel hends
  · have hdone : ¬ (m.runLoop s fuel q).2.1.isDone = true := fun hdone => by
      simp [(isDone_iff.mp hdone th hth).1] at hfin
    simp [hstops, hdone]
  · rw [hconclusion, conclusion_eq_completed]

theorem runLoop_ne_refused (hq : Scheduler.Chooses fuel q) : (m.runLoop s fuel q).1 ≠ .refused := by
  rcases runLoop_cases (s := s) hq m with hfuel | ⟨why, hstops, -⟩ | ⟨n, -, -, hconclusion⟩
  · simp [hfuel]
  · simp [hstops]
  · rw [hconclusion, conclusion]
    split <;> simp

/-- **A deadlock is reported exactly where the program is stuck.**  Under a scheduler that always chooses, a
run ends with a deadlock if and only if it comes to a scheduling point where nothing is offered though a
thread is not finished.  Wherever nothing is offered, all buffers are empty and every thread that is not
finished is held up by a mutex or by another such thread.  And a run ends without an error if and only if it
comes to a scheduling point where all threads are finished and all buffers are drained; no other run that has
ended leaves the machine so. -/
theorem deadlock_iff_stuck (hq : Scheduler.Chooses fuel q) (s : Setup) (m : Machine) :
    ((∃ e, (m.runLoop s fuel q).1 = .stopped (.error e) ∧ e.kind = .deadlock) ↔
      ∃ n < fuel, ∃ m', Comes s n m q m' [] ∧ ∃ th ∈ m'.threads, th.finished = false) ∧
    (∀ n m', Comes s n m q m' [] → (∀ th ∈ m'.threads, th.buffer = []) ∧
      ∀ t th, m'.threads[t]? = some th → th.finished = false → m'.HeldUp s t th) ∧
    (m.runLoop s fuel q).1 ≠ .refused ∧
    ((m.runLoop s fuel q).1 = .completed ↔
      ∃ n < fuel, ∃ m' cs, Comes s n m q m' cs ∧ ∀ th ∈ m'.threads, th.finished = true ∧ th.buffer = []) ∧
    ((m.runLoop s fuel q).1 ≠ .outOfFuel → ((m.runLoop s fuel q).1 = .completed ↔
      ∀ th ∈ (m.runLoop s fuel q).2.1.threads, th.finished = true ∧ th.buffer = [])) := by
  simp only [← isDone_iff]
  refine ⟨runLoop_deadlock_iff hq m, fun n m' hcomes => ⟨?_, ?_⟩, runLoop_ne_refused hq,
    runLoop_completed_iff hq m, runLoop_completed_iff_isDone hq⟩
  · exact fun th hth => buffer_eq_nil_of_offered hcomes.offered_eq hth
  · exact fun t th hth hfin => heldUp_of_offered hcomes.calm hcomes.offered_eq hth hfin

end

/-- A thread waits, with a mutex taken, for another one that wants the mutex. -/
def joinUnderLock : Setup :=
  ⟨⟨"e", [⟨"x", 0⟩, ⟨"a", 0⟩],
    [⟨"other", [], [.lock (.global 1), .ret]⟩,
      ⟨"main", ["t"], [.lock (.global 1), .spawn 0 0, .store (.global 0) (.imm 1), .join (.reg 0), .ret]⟩]⟩,
    .standard, true, 10⟩

/-- The machine before that. -/
def beforeJoin : Machine := ⟨[0, 0], [⟨1, 0, [0], false, []⟩], [], [], .empty, []⟩

/-- The store is still flushed before nothing is left to do. -/
theorem deadlock_iff_stuck_joinUnderLock :
    let q := Script.picks [0, 0, 0, 0, 0]
    let r := beforeJoin.runLoop joinUnderLock 5 q
    r.1 = .stopped (.error
      ⟨.deadlock, none, "no thread can proceed: T0 in main at #3, T1 in other at #0"⟩) ∧
    r.2.1.memory = [1, 1] ∧
    r.1 ≠ .completed ∧ ∃ n < 5, ∃ m' t th, Comes joinUnderLock n beforeJoin q m' [] ∧
      (∀ th ∈ m'.threads, th.buffer = []) ∧ m'.threads[t]? = some th ∧ m'.HeldUp joinUnderLock t th := by
  intro q r
  have hr : r.1 = .stopped (.error
      ⟨.deadlock, none, "no thread can proceed: T0 in main at #3, T1 in other at #0"⟩) ∧
      r.2.1.memory = [1, 1] := by decide +kernel
  obtain ⟨hdeadlock, hstuck, -⟩ :=
    deadlock_iff_stuck (Script.due_picks [0, 0, 0, 0, 0]).chooses joinUnderLock beforeJoin
  obtain ⟨n, hn, m', hcomes, th, hth, hfin⟩ := hdeadlock.mp ⟨_, hr.1, rfl⟩
  obtain ⟨hbuffers, hheld⟩ := hstuck n m' hcomes
  obtain ⟨t, ht⟩ := List.mem_iff_getElem?.mp hth
  exact ⟨hr.1, hr.2, by simp [hr.1], n, hn, m', t, th, hcomes, hbuffers, ht, hheld t th ht hfin⟩

end Machine

end Interleave
