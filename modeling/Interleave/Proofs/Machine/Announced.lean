import Interleave.Proofs.Machine.Safety

/-! # A machine performs what it announces

At a scheduling point each process is offered with the access that it is going to make.  If it is chosen,
either its step fails with an error of its thread, and the machine stays as it is, or the step adds one
event of that process, which tells of that access (`Access.Performed`).  The engine does not break down,
because the threads of a program that can be read fit their functions at all times
(`Machine.Visits.fits`).

One announcement is a pretence: a thread that is to join a thread that does not exist is offered with a
fence.  Its step always fails. -/

namespace Interleave

/-- What an announced access is performed as. -/
inductive Access.Performed : Access → EventKind → Prop
  | read (a : Addr) (v : Int64) (fromBuffer : Bool) : Performed (.read a) (.load a v fromBuffer)
  | write (a : Addr) (v : Int64) : Performed (.write a) (.store a v)
  | enqueue (a : Addr) (v : Int64) : Performed (.enqueue a) (.enqueue a v)
  | lock (a : Addr) : Performed (.lock a) (.lock a)
  | unlock (a : Addr) : Performed (.unlock a) (.unlock a)
  | spawn (t : Nat) : Performed (.spawn t) (.spawn t)
  | join (t : Nat) : Performed (.join t) (.join t)
  | fence : Performed .fence .fence

theorem EventKind.performed_access (k : EventKind) : k.access.Performed k := by
  cases k <;> constructor

namespace Machine

variable {s : Setup} {m m' m₀ m₁ : Machine} {c : Candidate} {t entry : Nat} {th : Thread}
  {op : Operation} {site : Site} {e : TraceError}

/-- Thread number `t` stands at the instruction. -/
def StandsAt (s : Setup) (m : Machine) (t : Nat) (i : Instr Nat) : Prop :=
  ∃ th f, m.threads[t]? = some th ∧ s.function th.function = .ok f ∧ f.body[th.pc]? = some i

/-! ### Errors -/

theorem site_of_cellAt {what : String} {a : Addr} (h : m.cellAt site what a = .error (.error e)) :
    e.site = some site := by
  unfold cellAt at h
  split at h
  · cases h
  · cases h
    rfl

theorem value_ne_error {x : Operand} : th.value x ≠ .error (.error e) := by
  intro h
  cases x with
  | reg r =>
      rw [Thread.value, Thread.reg, fetch] at h
      split at h <;> cases h
  | imm v => cases h

theorem setReg_ne_error {d : Reg} {v : Int64} : th.setReg d v ≠ .error (.error e) := by
  intro h
  rw [Thread.setReg_eq] at h
  split at h <;> cases h

theorem start_ne_error {f : Nat} : Thread.start s f ≠ .error (.error e) := by
  intro h
  unfold Thread.start Setup.function fetch at h
  split at h <;> cases h

theorem site_of_perform (h : m.perform s t th site op = .error (.error e)) : e.site = some site := by
  cases op with
  | load d a =>
      rcases error_of_bind h with h | ⟨cell, -, h⟩
      · exact site_of_cellAt h
      · -- behind the check of the address only the register could be missing
        split at h
        · rcases error_of_bind h with h | ⟨th', -, h⟩
          · exact absurd h setReg_ne_error
          · cases h
        · rcases error_of_bind h with h | ⟨th', -, h⟩
          · exact absurd h setReg_ne_error
          · cases h
  | store a x =>
      rcases error_of_bind h with h | ⟨cell, -, h⟩
      · exact site_of_cellAt h
      · rcases error_of_bind h with h | ⟨v, -, h⟩
        · exact absurd h value_ne_error
        · dsimp only at h
          split at h <;> cases h
  | fence => cases h
  | spawn d f =>
      rcases error_of_bind h with h | ⟨child, -, h⟩
      · exact absurd h start_ne_error
      · rcases error_of_bind h with h | ⟨th', -, h⟩
        · exact absurd h setReg_ne_error
        · cases h
  | join v =>
      simp only [perform] at h
      split at h
      · cases h
      · cases h
        rfl
  | lock a =>
      rcases error_of_bind h with h | ⟨cell, -, h⟩
      · exact site_of_cellAt h
      · cases h
  | unlock a =>
      rcases error_of_bind h with h | ⟨cell, -, h⟩
      · exact site_of_cellAt h
      · split at h
        · cases h
          rfl
        · cases h

theorem exists_flush {b : Pending} (hth : m.threads[t]? = some th) (hb : th.buffer.head? = some b) :
    ∃ m', m.step s (.flush t) = .ok m' := by
  cases hstep : m.step s (.flush t) with
  | ok m' => exact ⟨m', rfl⟩
  | error why =>
      have hchange := ((moves_step s).error_iff trivial).mp hstep
      rw [change_of_head hth hb] at hchange
      cases hchange

/-- **A step that fails reports an error of its own thread.** -/
theorem Offered.site_of_error (hc : m.Offered s c) (h : m.step s c.proc = .error (.error e)) :
    ∃ site, e.site = some site ∧ site.thread = c.proc.owner := by
  cases hc with
  | @thread t th op _ hth hup hadm =>
      obtain ⟨-, f, i, hf, -, -⟩ := th.of_upcoming s hup
      rw [(admits_eq_some.mp hadm).2.1] at h ⊢
      rw [step_of_upcoming hth hup hf] at h
      cases hperform : m.perform s t th (th.site t f) op with
      | ok x =>
          rw [hperform] at h
          cases h
      | error why =>
          rw [hperform] at h
          cases h
          exact ⟨th.site t f, site_of_perform hperform, rfl⟩
  | flush hth hb =>
      obtain ⟨m', hm'⟩ := exists_flush (s := s) hth hb
      rw [hm'] at h
      cases h

/-- The join of a thread that does not exist fails, though it is announced as a fence. -/
theorem Offered.fails_of_join {v : Operand} (hc : m.Offered s c) (hp : c.proc = .thread t)
    (hfence : c.access = .fence) (hjoin : m.StandsAt s t (.join v)) :
    ∃ site n, m.step s c.proc = .error (.error
      ⟨.invalidOperation, some site, "join of invalid thread " ++ Decimal.write n⟩) := by
  cases hc with
  | flush => cases hp
  | @thread u th op _ hth hup hadm =>
      obtain ⟨hannounce, hu, -⟩ := admits_eq_some.mp hadm
      obtain rfl : u = t := Proc.thread.inj (hu.symm.trans hp)
      obtain ⟨-, f, i, hf, hi, hop⟩ := th.of_upcoming s hup
      obtain ⟨th', f', hth', hf', hi'⟩ := hjoin
      obtain rfl : th' = th := Option.some.inj (hth'.symm.trans hth)
      obtain rfl : f' = f := Except.ok.inj (hf'.symm.trans hf)
      obtain rfl : i = .join v := Option.some.inj (hi.symm.trans hi')
      obtain ⟨n, -, hop⟩ := exists_of_bind hop
      cases hop
      have hnone : m.joinee? u n = none := by
        rw [hfence] at hannounce
        simp only [announce] at hannounce
        split at hannounce
        · split at hannounce <;> cases hannounce
        · assumption
      refine ⟨th'.site u f', n, ?_⟩
      rw [hu, step_of_upcoming hth hup hf]
      simp only [perform, hnone]
      rfl

/-! ### Performed steps -/

/-- The thread that is announced to be created is the next one, and behind the step it is there. -/
theorem Offered.exists_child {n : Nat} (hc : m.Offered s c) (hn : c.access = .spawn n)
    (hstep : m.step s c.proc = .ok m') :
    n = m.threads.length ∧ ∃ f child, Thread.start s f = .ok child ∧ m'.threads[n]? = some child := by
  obtain ⟨hlength, -⟩ := hc.of_spawn hn
  refine ⟨hlength, ?_⟩
  cases hc with
  | flush => cases hn
  | @thread t th op _ hth hup hadm =>
      obtain ⟨hannounce, hp, -⟩ := admits_eq_some.mp hadm
      obtain ⟨-, f, i, hf, -, -⟩ := th.of_upcoming s hup
      rw [hn] at hannounce
      have hspec := announce_eq_some hannounce
      rw [hp, step_of_upcoming hth hup hf] at hstep
      cases op with
      | spawn d g =>
          obtain ⟨x, hx, hm'⟩ := exists_of_bind hstep
          obtain ⟨child, hchild, hx⟩ := exists_of_bind hx
          obtain ⟨th', -, hx⟩ := exists_of_bind hx
          cases hx
          cases hm'
          have ht : t < (m.threads.set t th').length := by
            rw [List.length_set]
            exact (List.getElem?_eq_some_iff.mp hth).1
          refine ⟨g, child, hchild, ?_⟩
          simp only [passed, modify_append ht]
          simp [hlength]
      | store a v =>
          simp only at hspec
          split at hspec <;> cases hspec
      | join v => simp at hspec
      | _ => simp at hspec

/-- The candidate takes its step when the scheduler chooses it. -/
theorem runLoop_of_schedule {σ : Type} [Scheduler σ] {q q' : σ} {cs : List Candidate} {p : Proc}
    (hsettle : m₁.settle s = (m, none)) (hcs : m.candidates s = .ok cs) (hne : cs ≠ [])
    (hq : Scheduler.schedule q cs = (.run p, q')) (fuel : Nat) :
    m₁.runLoop s (fuel + 1) q =
      match m.step s p with
      | .error why => (.stopped why, m, q')
      | .ok m' => m'.runLoop s fuel q' := by
  rw [runLoop_succ, round, arrive_of_ne_nil hsettle hcs hne]
  simp only [hq]
  cases m.step s p with
  | error why => rfl
  | ok m' => rfl

/-! ### Threads fit at all times -/

theorem fits_start (h : start s entry = .ok m₀) : m₀.Fits s := by
  obtain ⟨th, hth, rfl⟩ := start_eq_ok h
  obtain ⟨f, hf, hth⟩ := exists_of_bind hth
  cases hth
  exact List.forall_mem_singleton.mpr ⟨f, hf, List.length_replicate⟩

theorem Visits.fits {allowed : Machine → Candidate → Prop} (hs : s.program.InRange)
    (hstart : Machine.start s entry = .ok m₀) (h : Visits s m₀ allowed m) : m.Fits s := by
  refine h.preserves (fits_start hstart) (fun m hm => hm.settle) (fun m log hm => hm) ?_
  intro m c m' hm hc hstep
  have hsafe := safe_step hs hm hc
  rw [hstep] at hsafe
  exact hsafe

/-- **What is offered is performed, or it fails with an error of its thread.** -/
theorem Offered.performs_or_fails (hs : s.program.InRange) (hm : m.Fits s) (hc : m.Offered s c) :
    (∃ e site, m.step s c.proc = .error (.error e) ∧ e.site = some site ∧
      site.thread = c.proc.owner) ∨
    ∃ m' e, m.step s c.proc = .ok m' ∧ m'.events = m.events ++ [e] ∧ e.proc = c.proc ∧
      c.access.Performed e.kind := by
  have hsafe := safe_step hs hm hc
  cases hstep : m.step s c.proc with
  | ok m' =>
      obtain ⟨e, rfl, hevents, -⟩ := (moves_step s).events trivial hc hstep
      exact .inr ⟨m', e, rfl, hevents, rfl, e.kind.performed_access⟩
  | error why =>
      rw [hstep] at hsafe
      cases why with
      | fault f => exact hsafe.elim
      | error e =>
          obtain ⟨site, hsite, hthread⟩ := hc.site_of_error hstep
          exact .inl ⟨e, site, rfl, hsite, hthread⟩

/-- **The machine performs what it announces.**  At every scheduling point `m` that an execution of a
program can reach, with and without buffers, the candidates can be told and no process is offered twice.
If the scheduler chooses a candidate, then either its step fails with an error of its thread, and the run
ends with the machine as it is, or the run goes on behind the step, which has added one event: it is one of
the chosen process and performs the announced access, and where a thread was announced to be created, the
thread of that number is there.  A fence that is announced by a thread at a join always fails. -/
theorem step_matches_announcement {source : String} (hread : Program.read source = .ok s.program)
    (hstart : start s entry = .ok m₀) (hvisits : Visits s m₀ Unrestricted m₁)
    (hsettle : m₁.settle s = (m, none)) :
    ∃ cs, m.candidates s = .ok cs ∧ (procs cs).Nodup ∧ ∀ c ∈ cs,
      ((∃ e site, m.step s c.proc = .error (.error e) ∧ e.site = some site ∧
          site.thread = c.proc.owner ∧
          ∀ (σ : Type) [Scheduler σ] (q q' : σ) (fuel : Nat),
            Scheduler.schedule q cs = (.run c.proc, q') →
              m₁.runLoop s (fuel + 1) q = (.stopped (.error e), m, q')) ∨
        ∃ m' e, m.step s c.proc = .ok m' ∧ m'.events = m.events ++ [e] ∧ e.proc = c.proc ∧
          c.access.Performed e.kind ∧
          (∀ n, c.access = .spawn n → n = m.threads.length ∧
            ∃ f child, Thread.start s f = .ok child ∧ m'.threads[n]? = some child) ∧
          ∀ (σ : Type) [Scheduler σ] (q q' : σ) (fuel : Nat),
            Scheduler.schedule q cs = (.run c.proc, q') →
              m₁.runLoop s (fuel + 1) q = m'.runLoop s fuel q') ∧
      ∀ t v, c = ⟨.thread t, .fence⟩ → m.StandsAt s t (.join v) →
        ∃ site n, m.step s c.proc = .error (.error
          ⟨.invalidOperation, some site, "join of invalid thread " ++ Decimal.write n⟩) := by
  have hrange := Program.inRange_read hread
  have hfits : m.Fits s := by
    have hm := (hvisits.fits hrange hstart).settle
    rwa [hsettle] at hm
  have hcs := hfits.candidates hrange
  refine ⟨m.offered s, hcs, nodup_offered s m, fun c hmem => ?_⟩
  have hc := mem_offered.mp hmem
  have hruns : ∀ (σ : Type) [Scheduler σ] (q q' : σ) (fuel : Nat),
      Scheduler.schedule q (m.offered s) = (.run c.proc, q') →
        m₁.runLoop s (fuel + 1) q = match m.step s c.proc with
          | .error why => (.stopped why, m, q')
          | .ok m' => m'.runLoop s fuel q' := fun σ _ q q' fuel hq =>
    runLoop_of_schedule hsettle hcs (List.ne_nil_of_mem hmem) hq fuel
  refine ⟨?_, ?_⟩
  · rcases hc.performs_or_fails hrange hfits with
      ⟨e, site, hstep, hsite, hthread⟩ | ⟨m', e, hstep, hevents, hproc, hkind⟩
    · rw [hstep] at hruns
      exact .inl ⟨e, site, hstep, hsite, hthread, hruns⟩
    · rw [hstep] at hruns
      exact .inr ⟨m', e, hstep, hevents, hproc, hkind, fun n hn => hc.exists_child hn hstep, hruns⟩
  · rintro t v rfl hjoin
    exact hc.fails_of_join rfl rfl hjoin

/-- One thread joins a thread that does not exist while the other one stores. -/
def strayJoinText : String :=
  "global x = 0\nfn other \x7b\nstore @x, 1\nret\n\x7d\n" ++
    "fn main \x7b\nspawn %t, other\njoin 5\nret\n\x7d\n"

theorem step_matches_announcement_strayJoin :
    ∃ p m₀ m, Program.read strayJoinText = .ok p ∧ start ⟨p, .standard, true, 10⟩ 1 = .ok m₀ ∧
      m₀.reach ⟨p, .standard, true, 10⟩ [.thread 0] = .ok m ∧
      m.candidates ⟨p, .standard, true, 10⟩ = .ok [⟨.thread 0, .fence⟩, ⟨.thread 1, .enqueue 1⟩] ∧
      (∃ site n, m.step ⟨p, .standard, true, 10⟩ (.thread 0) = .error (.error
        ⟨.invalidOperation, some site, "join of invalid thread " ++ Decimal.write n⟩)) ∧
      ∃ m' e, m.step ⟨p, .standard, true, 10⟩ (.thread 1) = .ok m' ∧ m'.events = m.events ++ [e] ∧
        e.proc = .thread 1 ∧ Access.Performed (.enqueue 1) e.kind := by
  obtain ⟨p, hread, hp⟩ := exists_of_any (x := Program.read strayJoinText)
    (p := fun p => (start ⟨p, .standard, true, 10⟩ 1).toOption.any fun m₀ =>
      (m₀.reach ⟨p, .standard, true, 10⟩ [.thread 0]).toOption.any fun m =>
        decide (m.settle ⟨p, .standard, true, 10⟩ = (m, none)) &&
        decide (m.candidates ⟨p, .standard, true, 10⟩ =
          .ok [⟨.thread 0, .fence⟩, ⟨.thread 1, .enqueue 1⟩]) &&
        (m.step ⟨p, .standard, true, 10⟩ (.thread 1)).toOption.isSome &&
        m.threads[0]?.any fun th =>
          (Setup.function ⟨p, .standard, true, 10⟩ th.function).toOption.any fun f =>
            decide (f.body[th.pc]? = some (.join (.imm 5))))
    (by decide +kernel)
  obtain ⟨m₀, hstart, hm₀⟩ := exists_of_any hp
  obtain ⟨m, hreach, hm⟩ := exists_of_any hm₀
  rw [Bool.and_eq_true, Bool.and_eq_true, Bool.and_eq_true, decide_eq_true_eq, decide_eq_true_eq,
    Option.any_eq_true] at hm
  obtain ⟨⟨⟨hsettle, hcs⟩, hgoes⟩, th, hth, hf⟩ := hm
  obtain ⟨f, hf, hi⟩ := exists_of_any hf
  obtain ⟨cs, hcs', -, hall⟩ := step_matches_announcement hread hstart (visits_of_reach hreach) hsettle
  obtain rfl := Except.ok.inj (hcs'.symm.trans hcs)
  have hfails := (hall ⟨.thread 0, .fence⟩ (by simp)).2 0 _ rfl ⟨th, f, hth, hf, of_decide_eq_true hi⟩
  refine ⟨p, m₀, m, hread, hstart, hreach, hcs, hfails, ?_⟩
  rcases (hall ⟨.thread 1, .enqueue 1⟩ (by simp)).1 with
    ⟨e, site, hstep, -⟩ | ⟨m', e, hstep, hevents, hproc, hkind, -⟩
  · rw [hstep] at hgoes
    cases hgoes
  · exact ⟨m', e, hstep, hevents, hproc, hkind⟩

end Machine

end Interleave
