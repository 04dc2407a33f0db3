import Interleave.Proofs.Search.Exploration

/-! # Whatever the reduction is asked

A reduction is asked to decide at a scheduling point, it is told that an execution failed or ended,
and it is asked to go on to the next one: these are the `Reduction.Query`s.  Here they come in any
order, and what is offered at a scheduling point is any list of candidates, also one that differs
from what was offered there before.

Through all of this the reduction stays `Reduction.Consistent`: its position is on the path, there is
one operation for each branch that was passed, and the roles of the processes at every branch fit
together.  It never breaks down, it runs only what is offered, and once it is exhausted it stays so
(`Reduction.consistent_askAll`).  The entries of its clocks count operations, so that they are bounded
by the number of these (`History.bounded_record`). -/

namespace Interleave

/-! ### How large clocks get -/

namespace Clock

theorem length_tick (c : Clock) (i : Nat) : (c.tick i).counts.length = max c.counts.length (i + 1) := by
  rw [tick, List.length_modify, length_padded]

theorem length_join (c d : Clock) :
    (c.join d).counts.length = max c.counts.length d.counts.length := by
  rw [join, List.length_zipWith, length_padded, length_padded, Nat.max_comm d.counts.length,
    Nat.min_self]

/-- The clock has at most `width` entries, none of which exceeds `height`. -/
structure Bounded (width height : Nat) (c : Clock) : Prop where
  length_le : c.counts.length ≤ width
  get_le : ∀ i, c.get i ≤ height

variable {width height : Nat} {c d : Clock}

theorem bounded_empty : empty.Bounded width height := ⟨Nat.zero_le _, fun _ => Nat.zero_le _⟩

theorem Bounded.join (hc : c.Bounded width height) (hd : d.Bounded width height) :
    (c.join d).Bounded width height := by
  refine ⟨?_, fun i => ?_⟩
  · rw [length_join]
    exact Nat.max_le.mpr ⟨hc.length_le, hd.length_le⟩
  · rw [get_join]
    exact Nat.max_le.mpr ⟨hc.get_le i, hd.get_le i⟩

theorem Bounded.tick (h : c.Bounded width height) {i : Nat} (hi : i < width) :
    (c.tick i).Bounded width (height + 1) := by
  refine ⟨?_, fun j => ?_⟩
  · rw [length_tick]
    exact Nat.max_le.mpr ⟨h.length_le, hi⟩
  · rw [get_tick]
    have := h.get_le j
    split <;> omega

theorem Bounded.mono (h : c.Bounded width height) {height' : Nat} (hle : height ≤ height') :
    c.Bounded width height' := ⟨h.length_le, fun i => (h.get_le i).trans hle⟩

end Clock

theorem Proc.index_lt {p : Proc} {n : Nat} (h : p.owner < n) : p.index < 2 * n := by
  cases p with
  | thread t =>
      have : t < n := h
      simp only [index]
      omega
  | flush t =>
      have : t < n := h
      simp only [index]
      omega

namespace History

variable {h : History} {c : Candidate} {n width height : Nat}

theorem bounded_clockAt (hh : ∀ e ∈ h, e.clock.Bounded width height) (hc : c.proc.index < width) :
    (h.clockAt c).Bounded width (height + 1) := by
  have hown : (h.clockOf c.proc).Bounded width height := by
    rcases h.clockOf_cases c.proc with ho | ⟨e, he, -, ho⟩
    · rw [ho]
      exact Clock.bounded_empty
    · rw [ho]
      exact hh e he
  have hjoined : (h.joinedAt c).Bounded width height := by
    unfold joinedAt
    refine List.foldlRecOn h _ hown fun k hk e he => ?_
    split
    · exact hk.join (hh e he)
    · exact hk
  cases hp : c.proc with
  | thread t =>
      rw [clockAt_thread hp]
      exact hjoined.tick hc
  | flush t =>
      rw [clockAt_flush hp]
      refine Clock.Bounded.tick ?_ hc
      cases hw : (h.waiting t).head? with
      | none => exact hjoined
      | some k =>
          obtain ⟨e, he, -, -, rfl⟩ := mem_waiting (List.mem_of_mem_head? hw)
          exact hjoined.join (hh e he)

/-- **Clocks count operations**: behind one more operation of a process whose number is below `n`, no
entry exceeds the number of operations, and there are at most two entries for each thread. -/
theorem bounded_record (hh : ∀ e ∈ h, e.clock.Bounded (2 * n) h.length) (hc : c.proc.owner < n) :
    ∀ e ∈ h.record c, e.clock.Bounded (2 * n) (h.record c).length := by
  intro e he
  rw [record, List.length_append, List.length_singleton]
  rcases List.mem_append.mp he with he | he
  · exact (hh e he).mono (Nat.le_succ _)
  · rw [List.mem_singleton.mp he]
    exact bounded_clockAt hh (Proc.index_lt hc)

end History

theorem AllGrow.wellFormed {bs bs' : List Branch} (h : AllGrow bs bs')
    (hbs : ∀ b ∈ bs, b.WellFormed) : ∀ b ∈ bs', b.WellFormed := by
  intro b' hb'
  obtain ⟨i, hi⟩ := List.mem_iff_getElem?.mp hb'
  obtain ⟨b, hb, hgrows⟩ := h.getElem? hi
  exact hgrows.wellFormed (hbs b (List.mem_of_getElem? hb))

namespace Reduction

/-! ### Queries -/

/-- What a reduction is asked or told. -/
inductive Query where
  /-- Decide at a scheduling point where the given candidates are offered. -/
  | schedule (cs : List Candidate)
  /-- An error stopped the current execution. -/
  | executionFailed
  /-- The current execution has ended. -/
  | endExecution
  /-- Go on to the next execution. -/
  | advance
deriving DecidableEq, Repr

/-- The candidates that come with a query. -/
def Query.offered : Query → List Candidate
  | .schedule cs => cs
  | .executionFailed | .endExecution | .advance => []

/-- The reduction behind a query. -/
def ask (r : Reduction) : Query → Reduction
  | .schedule cs => (r.schedule cs).2
  | .executionFailed => r.executionFailed
  | .endExecution => r.endExecution
  | .advance => r.advance.2

/-- The reduction behind a sequence of queries. -/
def askAll (r : Reduction) (qs : List Query) : Reduction := qs.foldl ask r

@[simp] theorem askAll_nil (r : Reduction) : r.askAll [] = r := rfl

theorem askAll_cons (r : Reduction) (q : Query) (qs : List Query) :
    r.askAll (q :: qs) = (r.ask q).askAll qs := rfl

theorem askAll_append (r : Reduction) (qs qs' : List Query) :
    r.askAll (qs ++ qs') = (r.askAll qs).askAll qs' := List.foldl_append

theorem askAll_concat (r : Reduction) (qs : List Query) (q : Query) :
    r.askAll (qs ++ [q]) = (r.askAll qs).ask q := askAll_append r qs [q]

/-- What holds of a reduction whatever it has been asked. -/
structure Consistent (r : Reduction) : Prop where
  position_le : r.path.position ≤ r.path.branches.length
  length_history : r.phase ≠ .exhausted → r.history.length = r.path.position
  wellFormed : ∀ b ∈ r.path.branches, b.WellFormed
  path_of_exhausted : r.phase = .exhausted → r.path = .empty

/-! ### Decisions -/

/-- The reduction decides to run the process of `c`: the recorded one, or on a new branch one that is
awake; `bs` is the path with that branch. -/
structure Runs (r : Reduction) (cs : List Candidate) (c : Candidate) (bs : List Branch) : Prop where
  active : r.phase ≠ .exhausted
  found : (cs.find? fun d => d.proc == c.proc) = some c
  schedule_eq : r.schedule cs = (.run c.proc, Reduction.perform { r with path.branches := bs } c)
  branches : bs = r.path.branches ∧ r.path.position < r.path.branches.length ∨
    r.path.position = r.path.branches.length ∧
      bs = r.path.branches ++ [.start cs (sleepBehind [] r.path.branches) c.proc] ∧
      c.proc ∈ awake cs (sleepBehind [] r.path.branches)

/-- The reduction ends the execution with the decision `d`, and apart from its marks it stays as it
is. -/
def Refuses (r : Reduction) (cs : List Candidate) (d : Decision) : Prop :=
  d.proc? = none ∧ d ≠ .outOfStep ∧ ∃ blocked bounded, r.schedule cs = (d, { r with blocked, bounded })

theorem Refuses.ask_eq {r : Reduction} {cs : List Candidate} {d : Decision} (h : r.Refuses cs d) :
    ∃ blocked bounded, r.ask (.schedule cs) = { r with blocked, bounded } := by
  obtain ⟨-, -, blocked, bounded, hs⟩ := h
  exact ⟨blocked, bounded, congrArg Prod.snd hs⟩

theorem exists_find?_of_mem {cs : List Candidate} {p : Proc} (h : p ∈ procs cs) :
    ∃ c, c.proc = p ∧ (cs.find? fun d => d.proc == c.proc) = some c := by
  obtain ⟨c, hc⟩ := Option.isSome_iff_exists.mp
    (List.find?_isSome (p := fun d : Candidate => d.proc == p).mpr (by simpa using h))
  obtain rfl : c.proc = p := by simpa using List.find?_some hc
  exact ⟨c, rfl, hc⟩

/-- **A decision** refuses to go on or runs a process that is offered. -/
theorem Consistent.schedule_cases {r : Reduction} (h : r.Consistent) (cs : List Candidate) :
    (∃ d, r.Refuses cs d) ∨ ∃ c bs, r.Runs cs c bs := by
  by_cases hidle : r.phase = .exhausted ∨ cs = []
  · exact .inl ⟨.stop, rfl, by simp, r.blocked, r.bounded, by rw [schedule, if_pos hidle]⟩
  by_cases hbound : r.atBound = true
  · exact .inl ⟨.stop, rfl, by simp, r.blocked, true, by rw [schedule, if_neg hidle, if_pos hbound]⟩
  have hactive : r.phase ≠ .exhausted := fun hp => hidle (.inl hp)
  have hrun : ∀ {c : Candidate} {bs : List Branch},
      (cs.find? fun d => d.proc == c.proc) = some c →
      r.choose cs = (.run c.proc, { r with path.branches := bs }) →
      r.schedule cs = (.run c.proc, Reduction.perform { r with path.branches := bs } c) := by
    intro c bs hfound hchoose
    simp only [schedule, if_neg hidle, hbound, hchoose, hfound, Bool.false_eq_true, if_false]
  cases hb : r.path.branches[r.path.position]? with
  | some b =>
      have hlt := (List.getElem?_eq_some_iff.mp hb).1
      by_cases hmem : b.chosen ∈ procs cs
      · obtain ⟨c, hc, hfound⟩ := exists_find?_of_mem hmem
        have hchoose := choose_replay hb hmem
        rw [← hc] at hchoose
        exact .inr ⟨c, r.path.branches, hactive, hfound, hrun hfound hchoose, .inl ⟨rfl, hlt⟩⟩
      · refine .inl ⟨.diverged r.path.position b.chosen, rfl, by simp, r.blocked, r.bounded, ?_⟩
        have hany : (cs.any fun c => c.proc == b.chosen) = false := by
          rw [← Bool.not_eq_true]
          simpa using hmem
        simp only [schedule, if_neg hidle, hbound, choose, Path.replay?, hb, Option.map_some, hany,
          Bool.false_eq_true, if_false]
  | none =>
      have hend : r.path.position = r.path.branches.length :=
        Nat.le_antisymm h.position_le (List.getElem?_eq_none_iff.mp hb)
      have hchoose := choose_end cs hend
      cases hpick : pick r.history (awake cs (sleepBehind [] r.path.branches)) with
      | none =>
          rw [hpick] at hchoose
          refine .inl ⟨.stop, rfl, by simp, true, r.bounded, ?_⟩
          simp only [schedule, if_neg hidle, hbound, hchoose, Bool.false_eq_true, if_false]
      | some p =>
          rw [hpick] at hchoose
          have hawake := mem_of_pick hpick
          obtain ⟨c, rfl, hfound⟩ := exists_find?_of_mem (mem_awake.mp hawake).1
          exact .inr ⟨c, _, hactive, hfound, hrun hfound hchoose, .inr ⟨hend, rfl, hawake⟩⟩

theorem endExecution_eq (r : Reduction) : ∃ phase, r.endExecution = { r with phase } := by
  unfold endExecution
  split
  · exact ⟨.readyForNext, rfl⟩
  · exact ⟨r.phase, rfl⟩

theorem advance_of_exhausted {r : Reduction} (h : r.phase = .exhausted) : r.advance = (false, r) := by
  rw [advance, if_pos h]

/-- **Going on** does nothing when the reduction is exhausted, gives up a path where nothing is left to
try, or leads to the deepest branch with a process left. -/
theorem advance_cases (r : Reduction) :
    r.phase = .exhausted ∧ r.advance = (false, r) ∨
    (∀ b ∈ r.path.branches, b.next? = none) ∧
      r.advance = (false, { r with path := .empty, phase := .exhausted }) ∨
    ∃ above b b' below, r.path.branches = above ++ b :: below ∧ b.next? = some b' ∧
      (∀ x ∈ below, x.next? = none) ∧
      r.advance = (true, { r with
        path := ⟨above ++ [b'], 0⟩, history := [], blocked := false, bounded := false
        phase := .exploring }) := by
  by_cases hp : r.phase = .exhausted
  · exact .inl ⟨hp, advance_of_exhausted hp⟩
  cases hnext : Path.nextBranches? r.path.branches with
  | none => exact .inr (.inl ⟨Path.nextBranches?_eq_none hnext, advance_of_none hp hnext⟩)
  | some bs =>
      obtain ⟨above, b, b', below, hbs, rfl, hb, hbelow⟩ := Path.nextBranches?_eq_some hnext
      exact .inr (.inr ⟨above, b, b', below, hbs, hb, hbelow, advance_of_some hp hnext⟩)

namespace Runs

variable {r : Reduction} {cs : List Candidate} {c : Candidate} {bs : List Branch}

theorem mem (h : r.Runs cs c bs) : c ∈ cs := List.mem_of_find?_eq_some h.found

theorem ask_eq (h : r.Runs cs c bs) :
    r.ask (.schedule cs) = Reduction.perform { r with path.branches := bs } c :=
  congrArg Prod.snd h.schedule_eq

theorem allGrow (h : r.Runs cs c bs) : AllGrow bs (r.ask (.schedule cs)).path.branches := by
  rw [h.ask_eq]
  exact allGrow_requestRaces { r with path.branches := bs } c

theorem position_lt (h : r.Runs cs c bs) : r.path.position < bs.length := by
  rcases h.branches with ⟨rfl, hlt⟩ | ⟨hend, rfl, -⟩
  · exact hlt
  · rw [List.length_append, List.length_singleton, hend]
    exact Nat.lt_succ_self _

theorem wellFormed (h : r.Runs cs c bs) (hr : r.Consistent) : ∀ b ∈ bs, b.WellFormed := by
  rcases h.branches with ⟨rfl, -⟩ | ⟨-, rfl, hawake⟩
  · exact hr.wellFormed
  · intro b hb
    rcases List.mem_append.mp hb with hb | hb
    · exact hr.wellFormed b hb
    · rw [List.mem_singleton.mp hb]
      exact Branch.wellFormed_start (mem_awake.mp hawake).1 (mem_awake.mp hawake).2

end Runs

/-! ### The invariant -/

theorem consistent_start (maxDepth : Option Nat) : (start maxDepth).Consistent where
  position_le := Nat.le_refl 0
  length_history _ := rfl
  wellFormed b hb := by cases hb
  path_of_exhausted h := by cases h

namespace Consistent

variable {r : Reduction}

theorem schedule (h : r.Consistent) (cs : List Candidate) : (r.ask (.schedule cs)).Consistent := by
  rcases h.schedule_cases cs with ⟨d, hrefuses⟩ | ⟨c, bs, hruns⟩
  · obtain ⟨blocked, bounded, hask⟩ := hrefuses.ask_eq
    rw [hask]
    exact ⟨h.position_le, h.length_history, h.wellFormed, h.path_of_exhausted⟩
  · have hgrow := hruns.allGrow
    have hposition : (r.ask (.schedule cs)).path.position = r.path.position + 1 := by
      rw [hruns.ask_eq]
      exact congrArg (· + 1) (position_requestRaces { r with path.branches := bs } c)
    have hphase : (r.ask (.schedule cs)).phase = r.phase := by
      rw [hruns.ask_eq]
      rfl
    refine ⟨?_, fun _ => ?_, hgrow.wellFormed (hruns.wellFormed h), fun hp => ?_⟩
    · rw [hposition, ← hgrow.length_eq]
      exact hruns.position_lt
    · rw [hposition, ← h.length_history hruns.active, hruns.ask_eq]
      exact List.length_append
    · exact absurd (hphase.symm.trans hp) hruns.active

theorem executionFailed (h : r.Consistent) : r.executionFailed.Consistent := by
  have hgrow := r.allGrow_executionFailed
  have hposition : r.executionFailed.path.position = r.path.position := by
    rw [Reduction.executionFailed, Path.foldl_requestAll]
  refine ⟨?_, ?_, hgrow.wellFormed h.wellFormed, fun hp => ?_⟩
  · rw [hposition, ← hgrow.length_eq]
    exact h.position_le
  · rw [hposition]
    exact h.length_history
  · have hpath := h.path_of_exhausted hp
    rw [Reduction.executionFailed, hpath]
    rfl

theorem endExecution (h : r.Consistent) : r.endExecution.Consistent := by
  unfold Reduction.endExecution
  split
  · next hp =>
    refine ⟨h.position_le, fun _ => h.length_history (by simp [hp]), h.wellFormed, fun hp' => ?_⟩
    cases hp'
  · exact h

theorem advance (h : r.Consistent) : r.advance.2.Consistent := by
  rcases r.advance_cases with ⟨-, heq⟩ | ⟨-, heq⟩ | ⟨above, b, b', below, hbs, hb, -, heq⟩
  · rw [heq]
    exact h
  · rw [heq]
    exact ⟨Nat.le_refl 0, fun hne => absurd rfl hne, by simp [Path.empty], fun _ => rfl⟩
  · rw [heq]
    refine ⟨Nat.zero_le _, fun _ => rfl, fun x hx => ?_, fun hp => by cases hp⟩
    have hwf : ∀ y ∈ above ++ b :: below, y.WellFormed := hbs ▸ h.wellFormed
    rcases List.mem_append.mp hx with hx | hx
    · exact hwf x (List.mem_append_left _ hx)
    · have hbwf := hwf b (List.mem_append_right _ List.mem_cons_self)
      rw [List.mem_singleton.mp hx]
      exact (Branch.switches_of_next? hbwf hb).wellFormed hbwf

/-- **The step**: every query keeps the reduction consistent. -/
theorem ask (h : r.Consistent) (q : Query) : (r.ask q).Consistent := by
  cases q with
  | schedule cs => exact h.schedule cs
  | executionFailed => exact h.executionFailed
  | endExecution => exact h.endExecution
  | advance => exact h.advance

theorem askAll (h : r.Consistent) (qs : List Query) : (r.askAll qs).Consistent :=
  List.foldlRecOn qs _ h fun _ hr q _ => hr.ask q

/-- A query leaves the history as it is, records an operation that is offered, or starts anew. -/
theorem history_ask (h : r.Consistent) (q : Query) :
    (r.ask q).history = r.history ∨ (∃ c ∈ q.offered, (r.ask q).history = r.history.record c) ∨
      (r.ask q).history = [] := by
  cases q with
  | schedule cs =>
      rcases h.schedule_cases cs with ⟨d, hrefuses⟩ | ⟨c, bs, hruns⟩
      · obtain ⟨blocked, bounded, hask⟩ := hrefuses.ask_eq
        exact .inl (by rw [hask])
      · exact .inr (.inl ⟨c, hruns.mem, by rw [hruns.ask_eq]; rfl⟩)
  | executionFailed => exact .inl rfl
  | endExecution =>
      obtain ⟨phase, heq⟩ := r.endExecution_eq
      exact .inl (by rw [Reduction.ask, heq])
  | advance =>
      rcases r.advance_cases with ⟨-, heq⟩ | ⟨-, heq⟩ | ⟨_, _, _, _, -, -, -, heq⟩
      · exact .inl (by rw [Reduction.ask, heq])
      · exact .inl (by rw [Reduction.ask, heq])
      · exact .inr (.inr (by rw [Reduction.ask, heq]))

end Consistent

/-! ### Exhaustion -/

theorem schedule_of_exhausted {r : Reduction} (h : r.phase = .exhausted) (cs : List Candidate) :
    r.schedule cs = (.stop, r) := by
  rw [schedule, if_pos (.inl h)]

theorem phase_askAll_of_exhausted {r : Reduction} (h : r.phase = .exhausted) (qs : List Query) :
    (r.askAll qs).phase = .exhausted := by
  refine List.foldlRecOn (motive := fun r : Reduction => r.phase = .exhausted) qs _ h fun r hr q _ => ?_
  cases q with
  | schedule cs =>
      show (r.schedule cs).2.phase = .exhausted
      rw [schedule_of_exhausted hr]
      exact hr
  | executionFailed => exact hr
  | endExecution =>
      show r.endExecution.phase = .exhausted
      simp [endExecution, hr]
  | advance =>
      show r.advance.2.phase = .exhausted
      rw [advance_of_exhausted hr]
      exact hr

/-! ### Clocks -/

/-- All threads that are offered in the queries have numbers below `n`. -/
abbrev Below (n : Nat) (qs : List Query) : Prop := ∀ q ∈ qs, ∀ c ∈ q.offered, c.proc.owner < n

theorem bounded_askAll {n : Nat} {qs : List Query} (maxDepth : Option Nat) (h : Below n qs) :
    ∀ e ∈ ((start maxDepth).askAll qs).history,
      e.clock.Bounded (2 * n) ((start maxDepth).askAll qs).history.length := by
  induction qs using List.reverseRecOn with
  | nil => simp [start]
  | append_singleton qs q ih =>
      have ih := ih fun q hq => h q (List.mem_append_left _ hq)
      have hr := (consistent_start maxDepth).askAll qs
      rw [askAll_concat]
      generalize (start maxDepth).askAll qs = r at ih hr ⊢
      rcases hr.history_ask q with hkept | ⟨c, hc, hrecord⟩ | hnew
      · rw [hkept]
        exact ih
      · rw [hrecord]
        exact History.bounded_record ih (h q (by simp) c hc)
      · rw [hnew]
        simp

/-! ### The main result -/

/-- The branches where requests are made are on the path. -/
theorem Consistent.lt_of_mem_racing {r : Reduction} (h : r.Consistent) (hp : r.phase ≠ .exhausted)
    {c : Candidate} {i : Nat} (hi : i ∈ r.history.racing c) : i < r.path.branches.length := by
  have hlt := History.lt_of_mem_racing hi
  rw [h.length_history hp] at hlt
  exact hlt.trans_le h.position_le

/-- **The reduction stays consistent whatever it is asked.**  Behind any sequence of queries it is
consistent and asks for reversals only at branches of its path; at the next scheduling point it does
not break down and runs only what is offered; once exhausted it refuses every decision and every
further execution.  The entries of its clocks do not exceed the number of operations, and there are
at most two for each thread. -/
theorem consistent_askAll (maxDepth : Option Nat) (qs : List Query) :
    let r := (start maxDepth).askAll qs
    r.Consistent ∧
    (r.phase ≠ .exhausted → ∀ c, ∀ i ∈ r.history.racing c, i < r.path.branches.length) ∧
    (∀ cs, (r.schedule cs).1 ≠ .outOfStep ∧ ∀ p, (r.schedule cs).1 = .run p → p ∈ procs cs) ∧
    (r.phase = .exhausted → ∀ qs', (∀ cs, ((r.askAll qs').schedule cs).1 = .stop) ∧
      (r.askAll qs').advance.1 = false) ∧
    ∀ n, Below n qs → ∀ e ∈ r.history, e.clock.Bounded (2 * n) r.history.length := by
  have hr := (consistent_start maxDepth).askAll qs
  refine ⟨hr, fun hp c i hi => hr.lt_of_mem_racing hp hi, fun cs => ⟨?_, fun p hp => ?_⟩,
    fun hp qs' => ?_, fun n hn => bounded_askAll maxDepth hn⟩
  · rcases hr.schedule_cases cs with ⟨d, -, hne, blocked, bounded, hs⟩ | ⟨c, bs, hruns⟩
    · rw [hs]
      exact hne
    · rw [hruns.schedule_eq]
      simp
  · exact mem_of_schedule_run (Prod.ext hp rfl)
  · have hexhausted := phase_askAll_of_exhausted hp qs'
    exact ⟨fun cs => by rw [schedule_of_exhausted hexhausted], by rw [advance_of_exhausted hexhausted]⟩

/-- Two stores to one cell are explored in both orders.  What is offered after that is ignored. -/
theorem consistent_askAll_stores :
    let both : List Candidate := [⟨.thread 0, .write 8⟩, ⟨.thread 1, .write 8⟩]
    let qs : List Query := [.schedule both, .schedule (both.drop 1), .endExecution, .advance,
      .schedule both, .schedule (both.take 1), .endExecution, .advance]
    let r := (start none).askAll qs
    Below 2 qs ∧ r.phase = .exhausted ∧ r.history.length = 2 ∧
      (∀ e ∈ r.history, e.clock.Bounded 4 2) ∧ ∀ qs' cs, ((r.askAll qs').schedule cs).1 = .stop := by
  intro both qs r
  have hbelow : Below 2 qs := by decide
  have hphase : r.phase = .exhausted := by decide +kernel
  have hlength : r.history.length = 2 := by decide +kernel
  obtain ⟨-, -, -, hstop, hclocks⟩ := consistent_askAll none qs
  refine ⟨hbelow, hphase, hlength, fun e he => ?_, fun qs' => (hstop hphase qs').1⟩
  rw [← hlength]
  exact hclocks 2 hbelow e he

end Reduction

end Interleave
