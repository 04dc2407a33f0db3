import Interleave.Proofs.Machine.Loop
import Interleave.Proofs.Machine.Unbuffered

/-! # Runs that flush every store at once

The machine with buffers can do whatever the machine without buffers does: it flushes every store right
behind the step that put it into the buffer.  Where all buffers are empty the two machines differ only in
the events (`Machine.split`), they offer the same processes (`Machine.arrive_split`), and a step of one is
a step of the other, or two steps if it is a store.  Only a run that an error stops between a store and
its flush ends with another memory (`Machine.exists_buffered_run`). -/

namespace Interleave

/-- A store that reaches memory at once as it shows if it is buffered and flushed right away. -/
def Event.split (e : Event) : List Event :=
  match e.proc, e.kind with
  | .thread t, .store a v => [⟨.thread t, e.site, .enqueue a v⟩, ⟨.flush t, e.site, .store a v⟩]
  | _, _ => [e]

/-- The operations of the threads, without the flushes and as they are without buffers. -/
def Event.issued (es : List Event) : List Event :=
  es.filterMap fun e =>
    match e.proc with
    | .thread _ => some e.plain
    | .flush _ => none

theorem Event.issued_append (es es' : List Event) :
    Event.issued (es ++ es') = Event.issued es ++ Event.issued es' :=
  List.filterMap_append

theorem Event.issued_split (e : Event) : Event.issued e.split = Event.issued [e] := by
  unfold Event.split
  split
  · rename_i hproc hkind
    simp [Event.issued, Event.plain, EventKind.plain, hproc, hkind]
  · rfl

theorem Event.issued_flatMap_split (es : List Event) :
    Event.issued (es.flatMap Event.split) = Event.issued es := by
  induction es with
  | nil => rfl
  | cons e es ih =>
      rw [List.flatMap_cons, Event.issued_append, Event.issued_split, ih, ← Event.issued_append]
      rfl

theorem settleFrom_unbuffered (s : Setup) (t : Nat) (ths : List Thread) :
    settleFrom s.unbuffered t ths = settleFrom s t ths := by
  induction ths generalizing t with
  | nil => rfl
  | cons th ths ih =>
      simp only [settleFrom, runLocal_unbuffered, ih]

theorem settleFrom_withBuffer (s : Setup) (t i : Nat) (ths : List Thread) (buffer : List Pending) :
    settleFrom s t (ths.modify i (Thread.withBuffer buffer)) =
      ((settleFrom s t ths).1.modify i (Thread.withBuffer buffer), (settleFrom s t ths).2) := by
  induction ths generalizing t i with
  | nil => simp [settleFrom]
  | cons th ths ih =>
      cases i with
      | zero =>
          rw [List.modify_zero_cons, settleFrom, settleFrom, runLocal_withBuffer]
          simp only
          cases (runLocal s t th).stop <;> rfl
      | succ i =>
          rw [List.modify_succ_cons, settleFrom, settleFrom, ih]
          cases (runLocal s t th).stop <;> rfl

namespace Machine

variable {s : Setup} {m m' m₀ m₁ m₂ : Machine} {t entry : Nat} {th : Thread} {op : Operation}
  {site : Site} {ending : Ending} {cs : List Candidate} {p : Proc} {why : Stop}

/-- The machine with the events that tell of buffers. -/
def split (m : Machine) : Machine := { m with events := m.events.flatMap Event.split }

/-! ### The way to the next scheduling point -/

theorem settle_unbuffered (s : Setup) (m : Machine) : m.settle s.unbuffered = m.settle s := by
  rw [settle, settle, settleFrom_unbuffered]

theorem settle_split (s : Setup) (m : Machine) :
    m.split.settle s = ((m.settle s.unbuffered).1.split, (m.settle s.unbuffered).2) := by
  rw [settle_unbuffered]
  rfl

theorem buffers_settle (s : Setup) (hempty : ∀ th ∈ m.threads, th.buffer = []) :
    ∀ th ∈ (m.settle s).1.threads, th.buffer = [] := by
  intro th hth
  have hmem : th.buffer ∈ m.threads.map Thread.buffer := by
    rw [← buffers_settleFrom s 0]
    exact List.mem_map_of_mem hth
  obtain ⟨th', hth', heq⟩ := List.mem_map.mp hmem
  rw [← heq, hempty th' hth']

theorem admits_unbuffered (s : Setup) (hmemory : m'.memory = m.memory) (hthreads : m'.threads = m.threads)
    (t : Nat) (hth : th.buffer = []) (op : Operation) :
    (m'.admits s t th op).map Candidate.proc = (m.admits s.unbuffered t th op).map Candidate.proc := by
  have hannounce : (m'.announce s t op).isSome = (m.announce s.unbuffered t op).isSome := by
    cases op <;> simp only [announce, joinee?, cell?, read, hmemory, hthreads] <;> rfl
  unfold admits
  rw [hth]
  cases h : m'.announce s t op with
  | none =>
      cases h' : m.announce s.unbuffered t op with
      | none => rfl
      | some a => simp [h, h'] at hannounce
  | some a =>
      cases h' : m.announce s.unbuffered t op with
      | none => simp [h, h'] at hannounce
      | some a' => simp

theorem flushes_eq_nil (hempty : ∀ th ∈ m.threads, th.buffer = []) : m.flushes = [] := by
  refine List.filterMap_eq_nil_iff.mpr fun x hx => ?_
  have hth := hempty x.1 (List.mem_of_getElem? (List.mem_zipIdx_iff_getElem?.mp hx))
  obtain ⟨th, t⟩ := x
  simp only at hth
  simp [hth]

theorem procs_offered_unbuffered (s : Setup) (hempty : ∀ th ∈ m.threads, th.buffer = [])
    (hmemory : m'.memory = m.memory) (hthreads : m'.threads = m.threads) :
    procs (m'.offered s) = procs (m.offered s.unbuffered) := by
  have hflushes : m'.flushes = [] := flushes_eq_nil (hthreads ▸ hempty)
  rw [offered, offered, hflushes, flushes_eq_nil hempty, hthreads]
  simp only [List.append_nil, procs, List.map_filterMap]
  refine List.filterMap_congr fun x hx => ?_
  have hth := hempty x.1 (List.mem_of_getElem? (List.mem_zipIdx_iff_getElem?.mp hx))
  simp only [Option.map_bind]
  refine congrArg _ (funext fun op => ?_)
  exact admits_unbuffered s hmemory hthreads x.2 hth op

theorem candidates_split_ok (hempty : ∀ th ∈ m.threads, th.buffer = [])
    (h : m.candidates s.unbuffered = .ok cs) :
    ∃ cs', m.split.candidates s = .ok cs' ∧ procs cs' = procs cs := by
  obtain ⟨hready, rfl⟩ := candidates_eq_ok.mp h
  exact ⟨_, candidates_eq_ok.mpr ⟨hready, rfl⟩, procs_offered_unbuffered s hempty rfl rfl⟩

theorem candidates_split_error (h : m.candidates s.unbuffered = .error why) :
    m.split.candidates s = .error why := by
  rw [candidates_eq_error] at h ⊢
  exact h

theorem arrive_split_ok (hempty : ∀ th ∈ m.threads, th.buffer = [])
    (h : m.arrive s.unbuffered = .ok (m₁, cs)) :
    ∃ cs', m.split.arrive s = .ok (m₁.split, cs') ∧ procs cs' = procs cs := by
  obtain ⟨hsettle, hcs, hne⟩ := arrive_eq_ok h
  have hempty₁ := buffers_settle s.unbuffered hempty
  have hsplit := settle_split s m
  rw [hsettle] at hempty₁ hsplit
  obtain ⟨cs', hcs', hprocs⟩ := candidates_split_ok hempty₁ hcs
  refine ⟨cs', arrive_of_ne_nil hsplit hcs' ?_, hprocs⟩
  rintro rfl
  exact hne (List.map_eq_nil_iff.mp hprocs.symm)

theorem arrive_split_error (hempty : ∀ th ∈ m.threads, th.buffer = [])
    (h : m.arrive s.unbuffered = .error (ending, m₁)) : m.split.arrive s = .error (ending, m₁.split) := by
  have hempty₁ := buffers_settle s.unbuffered hempty
  have hsplit := settle_split s m
  rcases arrive_eq_error h with ⟨why, hsettle, rfl⟩ | ⟨hsettle, ⟨why, hcs, rfl⟩ | ⟨hcs, rfl⟩⟩
  · rw [hsettle] at hsplit
    exact arrive_of_settle_error hsplit
  · rw [hsettle] at hsplit
    exact arrive_of_candidates_error hsplit (candidates_split_error hcs)
  · rw [hsettle] at hempty₁ hsplit
    obtain ⟨cs', hcs', hprocs⟩ := candidates_split_ok hempty₁ hcs
    obtain rfl : cs' = [] := List.map_eq_nil_iff.mp hprocs
    exact arrive_of_nil hsplit hcs'

/-! ### Operations other than stores -/

/-- Operations other than stores do not depend on whether stores are buffered. -/
theorem passed_split (s : Setup) (m : Machine) (hop : ∀ a x, op ≠ .store a x) :
    (m.split.perform s t th site op).map (passed t site) =
      ((m.perform s.unbuffered t th site op).map (passed t site)).map split := by
  cases op with
  | load d a =>
      simp only [perform, show m.split.cellAt = m.cellAt from rfl, show m.split.read = m.read from rfl]
      cases m.cellAt site "load from" a with
      | error why => rfl
      | ok cell =>
          cases th.forwarded a with
          | some b =>
              simp only [ok_bind]
              cases th.setReg d b.value with
              | error why => rfl
              | ok th' => simp [Except.map, passed, split, Event.split, setThread]
          | none =>
              simp only [ok_bind]
              cases th.setReg d (m.read cell) with
              | error why => rfl
              | ok th' => simp [Except.map, passed, split, Event.split, setThread]
  | store a x => exact absurd rfl (hop a x)
  | fence => simp [perform, Except.map, passed, split, Event.split]
  | spawn d f =>
      simp only [perform, show m.split.threads = m.threads from rfl,
        show Thread.start s.unbuffered f = Thread.start s f from rfl]
      cases Thread.start s f with
      | error why => rfl
      | ok new =>
          simp only [ok_bind]
          cases th.setReg d (Int64.ofNat m.threads.length) with
          | error why => rfl
          | ok th' => simp [Except.map, passed, split, Event.split]
  | join v =>
      simp only [perform, show m.split.joinee? = m.joinee? from rfl]
      cases m.joinee? t v with
      | none => rfl
      | some c => simp [Except.map, passed, split, Event.split]
  | lock a =>
      simp only [perform, show m.split.cellAt = m.cellAt from rfl]
      cases m.cellAt site "lock at" a with
      | error why => rfl
      | ok cell => simp [Except.map, passed, split, Event.split, write]
  | unlock a =>
      simp only [perform, show m.split.cellAt = m.cellAt from rfl, show m.split.read = m.read from rfl]
      cases m.cellAt site "unlock at" a with
      | error why => rfl
      | ok cell =>
          simp only [ok_bind]
          split
          · rfl
          · simp [Except.map, passed, split, Event.split, write]

/-! ### Stores -/

/-- The machine `m'` is at `m` up to the last store, which still waits in the buffer of thread
number `t`. -/
structure Delays (t : Nat) (b : Pending) (m m' : Machine) : Prop where
  exists_thread : t < m.threads.length
  threads : m'.threads = m.threads.modify t (Thread.withBuffer [b])
  memory : ∃ cell, m'.cell? b.addr = some cell ∧ m.memory = m'.memory.set cell b.value
  graph : m.graph = m'.graph.commit b.node
  events : m.split.events = m'.events ++ [⟨.flush t, b.site, .store b.addr b.value⟩]
  errors : m'.errors = m.errors
  log : m'.log = m.log

theorem Delays.settle {b : Pending} (h : Delays t b m m') :
    (m'.settle s).2 = (m.settle s.unbuffered).2 ∧
      Delays t b (m.settle s.unbuffered).1 (m'.settle s).1 := by
  rw [settle_unbuffered]
  have hsettle := settleFrom_withBuffer s 0 t m.threads [b]
  have heq : m'.settle s = ({ m' with
      threads := (m.settle s).1.threads.modify t (Thread.withBuffer [b]), log := (m.settle s).1.log },
      (m.settle s).2) := by
    simp only [Machine.settle, h.threads, hsettle, h.log]
  have hlength := congrArg List.length (buffers_settleFrom s 0 m.threads)
  rw [List.length_map, List.length_map] at hlength
  rw [heq]
  exact ⟨rfl, hlength ▸ h.exists_thread, rfl, h.memory, h.graph, h.events, h.errors, rfl⟩

theorem Delays.candidates_error {b : Pending} (h : Delays t b m m') :
    m'.candidates s = .error why ↔ m.candidates s.unbuffered = .error why := by
  rw [candidates_eq_error, candidates_eq_error]
  have hmap : (m'.threads.map fun th => errorOf? (th.upcoming s)) =
      m.threads.map fun th => errorOf? (th.upcoming s) := by
    rw [h.threads]
    refine List.ext_getElem? fun i => ?_
    rw [List.getElem?_map, List.getElem?_map, List.getElem?_modify]
    cases m.threads[i]? with
    | none => rfl
    | some th =>
        simp only [Option.map_some]
        split <;> rfl
  have hfilter := congrArg (List.filterMap id) hmap
  rw [List.filterMap_map, List.filterMap_map] at hfilter
  exact Eq.congr_left (congrArg List.head? hfilter)

/-- The store that waits can be flushed, and with that the machine has caught up. -/
theorem Delays.flush {b : Pending} (h : Delays t b m m') (hempty : ∀ th ∈ m.threads, th.buffer = []) :
    m'.Offered s ⟨.flush t, .write b.addr⟩ ∧ m'.step s (.flush t) = .ok m.split := by
  obtain ⟨th, hth⟩ : ∃ th, m.threads[t]? = some th := ⟨_, List.getElem?_eq_getElem h.exists_thread⟩
  have hbuffer := hempty th (List.mem_of_getElem? hth)
  have hth' : m'.threads[t]? = some (th.withBuffer [b]) := by
    rw [h.threads, List.getElem?_modify, hth]
    simp
  refine ⟨.flush hth' rfl, ?_⟩
  obtain ⟨cell, hcell, hmemory⟩ := h.memory
  have hthreads : m'.threads.set t (th.withBuffer []) = m.threads := by
    have hsame : th.withBuffer [] = th := by rw [← hbuffer]
    obtain ⟨ht, rfl⟩ := List.getElem?_eq_some_iff.mp hth
    rw [h.threads, modify_eq_set hth, List.set_set, hsame, List.set_getElem_self]
  simp only [step, stepFlush, thread_of_getElem? hth', ok_bind, hcell, pure_eq_ok, setThread, write,
    split, Except.ok.injEq, mk.injEq]
  exact ⟨hmemory.symm, hthreads, h.events.symm, h.errors, h.graph.symm, h.log⟩

/-- A step without buffers is a step with buffers as well, or leaves a store to be flushed. -/
theorem step_split (hs : s.buffered = true) (hth : m.threads[t]? = some th) (hbuffer : th.buffer = [])
    (hup : th.upcoming s = .ok (some op)) :
    match m.step s.unbuffered (.thread t) with
    | .error why => m.split.step s (.thread t) = .error why
    | .ok m₂ => m.split.step s (.thread t) = .ok m₂.split ∨
      ∃ b m', m.split.step s (.thread t) = .ok m' ∧ Delays t b m₂ m' := by
  obtain ⟨-, f, i, hf, -, -⟩ := th.of_upcoming s hup
  rw [step_of_upcoming (s := s.unbuffered) hth hup hf, step_of_upcoming (m := m.split) hth hup hf]
  by_cases hop : ∀ a x, op ≠ .store a x
  · rw [passed_split s m hop]
    cases m.perform s.unbuffered t th (th.site t f) op with
    | error why => rfl
    | ok x => exact .inl rfl
  · obtain ⟨a, x, rfl⟩ : ∃ a x, op = .store a x := by
      by_contra hno
      exact hop fun a x heq => hno ⟨a, x, heq⟩
    simp only [perform, hs, show m.split.cellAt = m.cellAt from rfl]
    cases hcell : m.cellAt (th.site t f) "store to" a with
    | error why => rfl
    | ok cell =>
        cases th.value x with
        | error why => rfl
        | ok v =>
            refine .inr ⟨⟨a, v, m.graph.nodes.length, th.site t f⟩, _, rfl, ?_, ?_, ⟨cell, ?_, rfl⟩, rfl,
              ?_, rfl, rfl⟩
            · simpa [passed, write] using (List.getElem?_eq_some_iff.mp hth).1
            · simp only [passed, setThread, split, write, hbuffer, List.nil_append]
              rw [modify_set hth (Thread.withBuffer _) Thread.next, List.modify_modify_eq]
              rfl
            · exact cellAt_eq_ok hcell
            · simp [passed, split, write, Event.split, setThread]

/-! ### Whole runs -/

/-- Where no store waits, it is a thread that is offered. -/
theorem Offered.exists_upcoming {c : Candidate} (hc : m.Offered s c)
    (hempty : ∀ th ∈ m.threads, th.buffer = []) : ∃ t th op, c.proc = .thread t ∧
      m.threads[t]? = some th ∧ th.buffer = [] ∧ th.upcoming s = .ok (some op) := by
  cases hc with
  | thread hth hup hadm =>
      exact ⟨_, _, _, (admits_eq_some.mp hadm).2.1, hth, hempty _ (List.mem_of_getElem? hth), hup⟩
  | flush hth hb =>
      rw [hempty _ (List.mem_of_getElem? hth)] at hb
      cases hb

theorem plain_perform {x : Machine × EventKind} (hbuffer : th.buffer = [])
    (hx : m.perform s.unbuffered t th site op = .ok x) : x.2.plain = x.2 ∧ x.1.events = m.events := by
  obtain ⟨k, hk⟩ := succeeds_of_perform hx
  cases hk with
  | @load d a cell v hcell hd hv =>
      have hnone : th.forwarded a = none := by simp [Thread.forwarded, hbuffer]
      rw [hnone]
      exact ⟨rfl, rfl⟩
  | enqueue hs hcell hv => cases hs
  | _ => exact ⟨rfl, rfl⟩

theorem Run.issued_eq (h : Run s.unbuffered m ending m') (hempty : ∀ th ∈ m.threads, th.buffer = [])
    (hissued : Event.issued m.events = m.events) : Event.issued m'.events = m'.events := by
  refine (h.invariant
    (P := fun m => (∀ th ∈ m.threads, th.buffer = []) ∧ Event.issued m.events = m.events)
    (fun m hm => ⟨buffers_settle _ hm.1, hm.2⟩) ?_ (fun _ _ hm => hm) ⟨hempty, hissued⟩).2
  rintro m m' c ⟨hempty, hissued⟩ - hc hstep
  refine ⟨buffers_step rfl hempty hc hstep, ?_⟩
  obtain ⟨t, th, op, hproc, hth, hbuffer, hup⟩ := hc.exists_upcoming hempty
  obtain ⟨-, f, i, hf, -, -⟩ := th.of_upcoming s.unbuffered hup
  rw [hproc, step_of_upcoming hth hup hf] at hstep
  cases hx : m.perform s.unbuffered t th (th.site t f) op with
  | error why => simp [hx, Except.map] at hstep
  | ok x =>
      rw [hx] at hstep
      cases hstep
      obtain ⟨hplain, hevents⟩ := plain_perform hbuffer hx
      simp only [passed, hevents, Event.issued_append, hissued]
      simp [Event.issued, Event.plain, hplain]

/-- The machine `m'` with buffers has ended like `m` without: its threads have performed the same
operations, each store has been flushed before the next operation, and memory is the same unless an error
stopped the run. -/
structure Matches (ending : Ending) (m m' : Machine) : Prop where
  issued : Event.issued m'.events = Event.issued m.events
  split : m'.events <+: m.events.flatMap Event.split
  memory : ending = .completed ∨ ending = .refused → m'.memory = m.memory

theorem matches_split (ending : Ending) (m : Machine) : Matches ending m m.split :=
  ⟨Event.issued_flatMap_split m.events, List.prefix_rfl, fun _ => rfl⟩

theorem Delays.matches_of_stopped {b : Pending} (h : Delays t b m m')
    (hending : ¬ (ending = .completed ∨ ending = .refused)) : Matches ending m m' := by
  have hsplit : m.events.flatMap Event.split =
      m'.events ++ [⟨.flush t, b.site, .store b.addr b.value⟩] := h.events
  refine ⟨?_, ⟨_, hsplit.symm⟩, fun hno => absurd hno hending⟩
  rw [← Event.issued_flatMap_split m.events, hsplit, Event.issued_append]
  exact (List.append_nil _).symm

/-- If the store that waits is flushed next, or an error comes first, then a run with buffers goes on
like the run without. -/
theorem Delays.run {b : Pending} {m₃ m₃' : Machine} (h : Delays t b m₂ m')
    (hempty : ∀ th ∈ m₂.threads, th.buffer = [])
    (hrun : Run s.unbuffered m₂ ending m₃) (hrun' : Run s m₂.split ending m₃')
    (hmatches : Matches ending m₃ m₃') : ∃ m₃', Run s m' ending m₃' ∧ Matches ending m₃ m₃' := by
  obtain ⟨hstop, hdelays⟩ := h.settle (s := s)
  have hempty₁ := buffers_settle s.unbuffered hempty
  have hsplit := settle_split s m₂
  generalize hsettle : m₂.settle s.unbuffered = settled at hstop hdelays hempty₁ hsplit
  generalize hsettle' : m'.settle s = settled' at hstop hdelays
  obtain ⟨m₂₁, stop⟩ := settled
  obtain ⟨m₁', stop'⟩ := settled'
  obtain rfl : stop' = stop := hstop
  -- an error on the way to the next scheduling point comes before the flush
  have herror : ∀ why, m₂.arrive s.unbuffered = .error (.stopped why, m₂₁) →
      m'.arrive s = .error (.stopped why, m₁') → ∃ m₃', Run s m' ending m₃' ∧ Matches ending m₃ m₃' := by
    intro why harrive harrive'
    rcases hrun.of_arrive_error harrive with ⟨rfl, rfl⟩ | ⟨rfl, rfl⟩
    · exact ⟨m', .outOfFuel m', h.matches_of_stopped (by simp)⟩
    · exact ⟨m₁', .ended harrive', hdelays.matches_of_stopped (by simp)⟩
  cases stop' with
  | some why => exact herror why (arrive_of_settle_error hsettle) (arrive_of_settle_error hsettle')
  | none =>
      cases hcs' : m₁'.candidates s with
      | error why =>
          exact herror why (arrive_of_candidates_error hsettle (hdelays.candidates_error.mp hcs'))
            (arrive_of_candidates_error hsettle' hcs')
      | ok cs' =>
          obtain ⟨hflush, hstep⟩ := hdelays.flush (s := s) hempty₁
          have hmem := (mem_candidates hcs').mpr hflush
          have harrive' := arrive_of_ne_nil hsettle' hcs' (List.ne_nil_of_mem hmem)
          have hproc : Proc.flush t ∈ procs cs' := List.mem_map_of_mem hmem
          rcases hrun'.of_settle hsplit with ⟨rfl, rfl⟩ | hrun'
          · have hevents : m₂₁.split.events = m₂.split.events :=
              congrArg (fun x => x.1.split.events) hsettle.symm
            exact ⟨m₂₁.split, .step harrive' hproc hstep (.outOfFuel _), hevents ▸ hmatches.issued,
              hevents ▸ hmatches.split, by simp⟩
          · exact ⟨m₃', .step harrive' hproc hstep hrun', hmatches⟩

/-- A run without buffers is matched by a run with buffers. -/
theorem Run.exists_matches (hs : s.buffered = true) (h : Run s.unbuffered m ending m')
    (hempty : ∀ th ∈ m.threads, th.buffer = []) :
    ∃ m₁, Run s m.split ending m₁ ∧ Matches ending m' m₁ := by
  induction h with
  | outOfFuel m => exact ⟨m.split, .outOfFuel _, matches_split _ m⟩
  | @ended m m' ending harrive =>
      exact ⟨m'.split, .ended (arrive_split_error hempty harrive), matches_split _ m'⟩
  | @refused m m₁ cs harrive log =>
      obtain ⟨cs', harrive', -⟩ := arrive_split_ok hempty harrive
      exact ⟨{ m₁.split with log }, .refused harrive' log, matches_split _ { m₁ with log }⟩
  | @failed m m₁ cs p why harrive hp hstep =>
      obtain ⟨cs', harrive', hprocs⟩ := arrive_split_ok hempty harrive
      have hempty₁ := buffers_settle s.unbuffered hempty
      rw [(arrive_eq_ok harrive).1] at hempty₁
      obtain ⟨c, hc, rfl⟩ := offered_of_arrive harrive hp
      obtain ⟨t, th, op, hproc, hth, hbuffer, hup⟩ := hc.exists_upcoming hempty₁
      have hsplit := step_split hs hth hbuffer hup
      rw [hproc] at hstep hp
      rw [hstep] at hsplit
      exact ⟨m₁.split, .failed harrive' (hprocs ▸ hp) hsplit, matches_split _ m₁⟩
  | @step m m₁ m₂ m' cs p ending harrive hp hstep hrun ih =>
      obtain ⟨cs', harrive', hprocs⟩ := arrive_split_ok hempty harrive
      have hempty₁ := buffers_settle s.unbuffered hempty
      rw [(arrive_eq_ok harrive).1] at hempty₁
      obtain ⟨c, hc, rfl⟩ := offered_of_arrive harrive hp
      have hempty₂ := buffers_step rfl hempty₁ hc hstep
      obtain ⟨m₁', hrun', hmatches⟩ := ih hempty₂
      obtain ⟨t, th, op, hproc, hth, hbuffer, hup⟩ := hc.exists_upcoming hempty₁
      have hsplit := step_split hs hth hbuffer hup
      rw [hproc] at hstep hp
      rw [hstep] at hsplit
      rcases hsplit with hsplit | ⟨b, m₂', hsplit, hdelays⟩
      · exact ⟨m₁', .step harrive' (hprocs ▸ hp) hsplit hrun', hmatches⟩
      · obtain ⟨m₃', hrun₃, hmatches₃⟩ := hdelays.run hempty₂ hrun hrun' hmatches
        exact ⟨m₃', .step harrive' (hprocs ▸ hp) hsplit hrun₃, hmatches₃⟩

/-- **Whatever happens without buffers can happen with buffers.**  To every run without buffers, whatever
is chosen among the candidates, there is a run with buffers, led by a script that picks among the
candidates, which ends in the same way, with the same error if there is one.  In it each store is flushed
right behind its operation, so the threads perform the same operations at the same sites with the same
values in the same order; and the memory is the same if there is no error. -/
theorem exists_buffered_run {σ : Type} [Scheduler σ] {q q' : σ} {fuel : Nat} (hs : s.buffered = true)
    (hstart : start s.unbuffered entry = .ok m₀) (hq : Scheduler.Obedient q)
    (hrun : m₀.runLoop s.unbuffered fuel q = (ending, m, q')) :
    start s entry = .ok m₀ ∧
    ∃ fuel' choices m' q'', m₀.runLoop s fuel' (Script.picks choices) = (ending, m', q'') ∧
      Event.issued m'.events = m.events ∧ m'.events <+: m.events.flatMap Event.split ∧
      (ending = .completed ∨ ending = .refused → m'.memory = m.memory) := by
  have hempty := buffers_start hstart
  have h := run_runLoop hq s.unbuffered fuel m₀
  rw [hrun] at h
  obtain ⟨m', hrun', hmatches⟩ := h.exists_matches hs hempty
  have hevents : m₀.events = [] := by
    obtain ⟨th, -, rfl⟩ := start_eq_ok hstart
    rfl
  have hissued : Event.issued m'.events = m.events := by
    rw [hmatches.issued, h.issued_eq hempty (by rw [hevents]; rfl)]
  have hsplit : m₀.split = m₀ := by
    rw [split, hevents, List.flatMap_nil, ← hevents]
  rw [hsplit] at hrun'
  obtain ⟨fuel', choices, hpicks⟩ := hrun'.exists_picks
  obtain ⟨log, q'', hloop⟩ := hpicks _ (Script.due_picks choices)
  exact ⟨hstart, fuel', choices, _, q'', hloop, hissued, hmatches.split, hmatches.memory⟩

/-- A thread stores, and an assertion fails behind the store. -/
def failsBehindStore : Setup :=
  ⟨⟨"e", [⟨"x", 0⟩],
    [⟨"other", ["a"], [.load 0 (.global 0), .ret]⟩,
      ⟨"main", ["t"], [.spawn 0 0, .store (.global 0) (.imm 1), .assert (.imm 0), .ret]⟩]⟩,
    .standard, true, 10⟩

/-- The machine before that. -/
def beforeFailure : Machine := ⟨[0], [⟨1, 0, [0], false, []⟩], [], [], .empty, []⟩

theorem exists_buffered_run_failsBehindStore :
    ∃ e m q', beforeFailure.runLoop failsBehindStore.unbuffered 10 (Script.picks [0, 1, 0]) =
        (.stopped (.error e), m, q') ∧ e.kind = .assertionFailure ∧ m.events.length = 3 ∧ m.memory = [1] ∧
      ∃ fuel choices m' q'', beforeFailure.runLoop failsBehindStore fuel (Script.picks choices) =
        (.stopped (.error e), m', q'') ∧ Event.issued m'.events = m.events := by
  have hstart : start failsBehindStore.unbuffered 1 = .ok beforeFailure := by decide
  have hends : (beforeFailure.runLoop failsBehindStore.unbuffered 10 (Script.picks [0, 1, 0])).1 =
        .stopped (.error ⟨.assertionFailure, some ⟨0, "main", 2⟩, "assert 0 failed"⟩) ∧
      (beforeFailure.runLoop failsBehindStore.unbuffered 10
        (Script.picks [0, 1, 0])).2.1.events.length = 3 ∧
      (beforeFailure.runLoop failsBehindStore.unbuffered 10
        (Script.picks [0, 1, 0])).2.1.memory = [1] := by decide +kernel
  generalize hrun : beforeFailure.runLoop failsBehindStore.unbuffered 10 (Script.picks [0, 1, 0]) = r
    at hends
  obtain ⟨ending, m, q'⟩ := r
  obtain ⟨rfl, hlength, hmemory⟩ := hends
  obtain ⟨-, fuel, choices, m', q'', hloop, hissued, -, -⟩ :=
    exists_buffered_run rfl hstart (Script.obedient_picks _) hrun
  exact ⟨_, m, q', rfl, rfl, hlength, hmemory, fuel, choices, m', q'', hloop, hissued⟩

end Machine

end Interleave
