import Interleave.Proofs.Machine.Immediate
import Interleave.Proofs.Memory.Sequential

/-! # Programs with a single thread

A program that creates no thread does not notice that its stores are buffered.  What its only thread
finds in the buffer and in memory is what it would find in memory if all waiting stores had arrived
(`Pending.overlay`), and wherever it can proceed it could do so without a buffer (`Machine.Shadows`).
Without buffers such a program has only one run, whatever the scheduler (`Machine.Forced`), and with
buffers every run follows this one (`Machine.buffer_invisible`). -/

namespace Interleave

/-! ### Memory with the waiting stores -/

namespace Pending

/-- The cells when a waiting store has reached them. -/
def putInto (cells : List Int64) (b : Pending) : List Int64 :=
  if b.addr = 0 then cells else cells.set (b.addr.toNat - 1) b.value

/-- The cells when all stores of a buffer have reached them. -/
def overlay (cells : List Int64) (buffer : List Pending) : List Int64 := buffer.foldl putInto cells

theorem length_putInto (cells : List Int64) (b : Pending) : (putInto cells b).length = cells.length := by
  unfold putInto
  split
  · rfl
  · exact List.length_set

theorem overlay_concat (cells : List Int64) (buffer : List Pending) (b : Pending) :
    overlay cells (buffer ++ [b]) = putInto (overlay cells buffer) b := by
  rw [overlay, List.foldl_append]
  rfl

theorem length_overlay (cells : List Int64) (buffer : List Pending) :
    (overlay cells buffer).length = cells.length := by
  induction buffer using List.reverseRecOn with
  | nil => rfl
  | append_singleton buffer b ih => rw [overlay_concat, length_putInto, ih]

theorem getD_putInto {cells : List Int64} {a : Addr} (ha : a ≠ 0) (hlt : a.toNat - 1 < cells.length)
    (b : Pending) : (putInto cells b).getD (a.toNat - 1) 0 =
      if b.addr = a then b.value else cells.getD (a.toNat - 1) 0 := by
  unfold putInto
  by_cases hb : b.addr = a
  · rw [if_neg (hb ▸ ha), if_pos hb, hb, List.getD_eq_getElem?_getD, List.getElem?_set_self hlt]
    rfl
  · rw [if_neg hb]
    split
    · rfl
    · rename_i hzero
      have hpos : ∀ x : Addr, x ≠ 0 → x.toNat ≠ 0 := fun x hx h => hx (UInt64.toNat_inj.mp h)
      have hne : b.addr.toNat - 1 ≠ a.toNat - 1 := by
        intro heq
        apply hb
        apply UInt64.toNat_inj.mp
        have := hpos a ha
        have := hpos b.addr hzero
        omega
      rw [List.getD_eq_getElem?_getD, List.getElem?_set_ne hne, List.getD_eq_getElem?_getD]

theorem getD_overlay {cells : List Int64} {a : Addr} (ha : a ≠ 0) (hlt : a.toNat - 1 < cells.length)
    (buffer : List Pending) : (overlay cells buffer).getD (a.toNat - 1) 0 =
      ((buffer.reverse.find? fun b => b.addr == a).map Pending.value).getD
        (cells.getD (a.toNat - 1) 0) := by
  induction buffer using List.reverseRecOn with
  | nil => rfl
  | append_singleton buffer b ih =>
      rw [overlay_concat, getD_putInto ha (by rwa [length_overlay]), ih, List.reverse_append,
        List.reverse_singleton, List.singleton_append, List.find?_cons]
      by_cases hb : b.addr = a
      · simp [hb]
      · rw [if_neg hb, beq_false_of_ne hb]

end Pending

namespace Machine

variable {s : Setup} {m m' m₀ m₁ m₂ : Machine} {t entry : Nat} {th : Thread} {op : Operation}
  {site : Site} {ending : Ending} {cs : List Candidate} {c : Candidate} {p : Proc} {why : Stop}

theorem putInto_of_cell? {b : Pending} {cell : Nat} (h : m.cell? b.addr = some cell) :
    Pending.putInto m.memory b = m.memory.set cell b.value := by
  obtain ⟨ha, rfl, -⟩ := cell?_eq_some h
  exact if_neg ha

theorem putInto_of_cell?_eq_none {b : Pending} (h : m.cell? b.addr = none) :
    Pending.putInto m.memory b = m.memory := by
  unfold Pending.putInto
  split
  · rfl
  · rename_i hzero
    have hpos : b.addr.toNat ≠ 0 := fun hzero' => hzero (UInt64.toNat_inj.mp hzero')
    apply List.set_eq_of_length_le
    unfold cell? at h
    by_contra hlt
    rw [if_pos (by omega)] at h
    cases h

/-- The machine `m` has one thread, which runs the function `entry`, and `m'` is where it would be
without a buffer. -/
structure Shadows (entry : Nat) (th : Thread) (m m' : Machine) : Prop where
  threads : m.threads = [th]
  threads_unbuffered : m'.threads = [th.withBuffer []]
  function : th.function = entry
  memory : m'.memory = Pending.overlay m.memory th.buffer
  events : m'.events = Event.issued m.events

namespace Shadows

theorem length_memory (h : Shadows entry th m m') : m'.memory.length = m.memory.length := by
  rw [h.memory, Pending.length_overlay]

theorem buffers (h : Shadows entry th m m') : ∀ th ∈ m'.threads, th.buffer = [] := by
  rw [h.threads_unbuffered]
  simp

theorem eq_of_getElem? {th' : Thread} (h : Shadows entry th m m') (hth : m.threads[t]? = some th') :
    t = 0 ∧ th' = th := by
  rw [h.threads] at hth
  cases t with
  | zero => exact ⟨rfl, (Option.some.inj hth).symm⟩
  | succ t => cases hth

theorem of_buffer_eq_nil (h : Shadows entry th m m') (hbuffer : th.buffer = []) :
    m'.memory = m.memory ∧ m'.threads = m.threads := by
  refine ⟨by rw [h.memory, hbuffer]; rfl, ?_⟩
  have hsame : th.withBuffer [] = th := by rw [← hbuffer]
  rw [h.threads_unbuffered, h.threads, hsame]

theorem read_eq (h : Shadows entry th m m') {a : Addr} {cell : Nat} (hcell : m.cell? a = some cell) :
    m'.read cell = ((th.forwarded a).map Pending.value).getD (m.read cell) := by
  obtain ⟨ha, rfl, hlt⟩ := cell?_eq_some hcell
  rw [read, h.memory, Pending.getD_overlay ha hlt]
  rfl

/-! ### The way to the next scheduling point -/

theorem settle (h : Shadows entry th m m') : (m'.settle s.unbuffered).2 = (m.settle s).2 ∧
    ∃ th₁, Shadows entry th₁ (m.settle s).1 (m'.settle s.unbuffered).1 := by
  have hfunction := (regs_runLocal s 0 th).1.trans h.function
  have hmemory : m'.memory = Pending.overlay m.memory (runLocal s 0 th).thread.buffer := by
    rw [buffer_runLocal]
    exact h.memory
  rw [settle_unbuffered]
  simp only [Machine.settle, h.threads, h.threads_unbuffered, settleFrom, runLocal_withBuffer]
  cases (runLocal s 0 th).stop with
  | some why => exact ⟨rfl, _, rfl, rfl, hfunction, hmemory, h.events⟩
  | none => exact ⟨rfl, _, rfl, rfl, hfunction, hmemory, h.events⟩

theorem candidates_error (h : Shadows entry th m m') :
    m'.candidates s.unbuffered = .error why ↔ m.candidates s = .error why := by
  rw [candidates_eq_error, candidates_eq_error, h.threads, h.threads_unbuffered]
  rfl

/-- Where a run with a buffer ends on its way, the run without ends in the same way. -/
theorem arrive_error (h : Shadows entry th m m') (harrive : m.arrive s = .error (ending, m₁)) :
    ∃ m₁', m'.arrive s.unbuffered = .error (ending, m₁') ∧ m₁'.events = Event.issued m₁.events ∧
      (ending = .completed → m₁'.memory = m₁.memory) := by
  obtain ⟨hstop, th₁, h₁⟩ := h.settle (s := s)
  generalize hsettle : m'.settle s.unbuffered = settled at hstop h₁
  obtain ⟨m₁', stop⟩ := settled
  refine ⟨m₁', ?_⟩
  rcases arrive_eq_error harrive with ⟨why, hs, rfl⟩ | ⟨hs, ⟨why, hcs, rfl⟩ | ⟨hcs, rfl⟩⟩
  · rw [hs] at hstop h₁
    obtain rfl : stop = some why := hstop
    exact ⟨arrive_of_settle_error hsettle, h₁.events, by simp⟩
  · rw [hs] at hstop h₁
    obtain rfl : stop = none := hstop
    exact ⟨arrive_of_candidates_error hsettle (h₁.candidates_error.mpr hcs), h₁.events, by simp⟩
  · rw [hs] at hstop h₁
    obtain rfl : stop = none := hstop
    obtain ⟨hready, hoffered⟩ := candidates_eq_ok.mp hcs
    -- a store that waits could be flushed
    have hbuffer : th₁.buffer = [] := by
      by_contra hne
      obtain ⟨b, rest, hb⟩ := List.exists_cons_of_ne_nil hne
      have hth : m₁.threads[0]? = some th₁ := by rw [h₁.threads]; rfl
      have hflush : m₁.Offered s ⟨.flush 0, .write b.addr⟩ := .flush hth (by rw [hb]; rfl)
      rw [← mem_offered, ← hoffered] at hflush
      cases hflush
    obtain ⟨hmemory, hthreads⟩ := h₁.of_buffer_eq_nil hbuffer
    have hprocs := procs_offered_unbuffered s h₁.buffers hmemory.symm hthreads.symm
    rw [← hoffered] at hprocs
    have hcs' : m₁'.candidates s.unbuffered = .ok [] := by
      refine candidates_eq_ok.mpr ⟨?_, (List.map_eq_nil_iff.mp hprocs.symm).symm⟩
      rw [hthreads]
      exact hready
    have hdone : m₁'.isDone = m₁.isDone := by rw [isDone, isDone, hthreads]
    have hblockage : m₁'.blockage s.unbuffered = m₁.blockage s := by
      rw [blockage, blockage, deadlock, deadlock, hthreads]
      rfl
    refine ⟨?_, h₁.events, fun _ => hmemory⟩
    rw [arrive_of_nil hsettle hcs', hdone, hblockage]

/-- Where the run goes on, the machine without a buffer is at a scheduling point as well. -/
theorem arrive_ok (h : Shadows entry th m m') (harrive : m.arrive s = .ok (m₁, cs)) :
    ∃ th₁ m₁', Shadows entry th₁ m₁ m₁' ∧ m'.settle s.unbuffered = (m₁', none) := by
  obtain ⟨hstop, th₁, h₁⟩ := h.settle (s := s)
  rw [(arrive_eq_ok harrive).1] at hstop h₁
  exact ⟨th₁, _, h₁, Prod.ext rfl hstop⟩

theorem offered_cases (h : Shadows entry th m m') (hc : m.Offered s c) :
    (∃ op, c.proc = .thread 0 ∧ th.upcoming s = .ok (some op) ∧ m.admits s 0 th op = some c) ∨
      ∃ b rest, c.proc = .flush 0 ∧ th.buffer = b :: rest := by
  cases hc with
  | thread hth hup hadm =>
      obtain ⟨rfl, rfl⟩ := h.eq_of_getElem? hth
      exact .inl ⟨_, (admits_eq_some.mp hadm).2.1, hup, hadm⟩
  | flush hth hb =>
      obtain ⟨rfl, rfl⟩ := h.eq_of_getElem? hth
      obtain ⟨rest, hbuffer⟩ := List.head?_eq_some_iff.mp hb
      exact .inr ⟨_, rest, rfl, hbuffer⟩

theorem joinee?_eq_none (h : m.threads.length = 1) (v : Int64) : m.joinee? 0 v = none := by
  unfold joinee?
  apply if_neg
  rintro ⟨-, hlt, hne⟩
  omega

/-- What the thread is admitted to with a buffer, it need not wait for without. -/
theorem exists_announce_unbuffered (hs : s.buffered = true) (h : Shadows entry th m m')
    (hspawn : ∀ d g, op ≠ .spawn d g) (hadm : m.admits s 0 th op = some c) :
    ∃ a, m'.announce s.unbuffered 0 op = some a := by
  cases op with
  | spawn d g => exact absurd rfl (hspawn d g)
  | join v =>
      have hnone := joinee?_eq_none (m := m') (by rw [h.threads_unbuffered]; rfl) v
      simp only [announce, hnone]
      exact ⟨_, rfl⟩
  | lock a =>
      obtain ⟨hannounce, -, -⟩ := admits_eq_some.mp hadm
      have haccess : c.access = .lock a := announce_eq_some hannounce
      obtain ⟨hmemory, -⟩ := h.of_buffer_eq_nil (buffer_of_drains hs hadm (by rw [haccess]; rfl))
      refine ⟨c.access, ?_⟩
      rw [← hannounce]
      simp only [announce, cell?, read, hmemory]
      rfl
  | _ => exact ⟨_, rfl⟩

/-- Where the thread is offered with a buffer, it is offered without as well, and nothing else is. -/
theorem arrive_thread (hs : s.buffered = true) (h : Shadows entry th m₁ m')
    (hsettle : m₂.settle s.unbuffered = (m', none)) (hup : th.upcoming s = .ok (some op))
    (hspawn : ∀ d g, op ≠ .spawn d g) (hadm : m₁.admits s 0 th op = some c) :
    ∃ a, m₂.arrive s.unbuffered = .ok (m', [⟨.thread 0, a⟩]) := by
  obtain ⟨a, ha⟩ := h.exists_announce_unbuffered hs hspawn hadm
  have hup' : (th.withBuffer []).upcoming s.unbuffered = .ok (some op) := hup
  have hoffered : m'.offered s.unbuffered = [⟨.thread 0, a⟩] := by
    rw [offered, flushes_eq_nil h.buffers, h.threads_unbuffered]
    simp [hup', admits, ha, Except.toOption]
  have hready : ∀ th ∈ m'.threads, th.Ready s.unbuffered := by
    rw [h.threads_unbuffered]
    intro th₁ hth₁
    rw [List.mem_singleton.mp hth₁]
    exact ⟨some op, hup'⟩
  exact ⟨a, arrive_of_ne_nil hsettle (candidates_eq_ok.mpr ⟨hready, hoffered.symm⟩) (by simp)⟩

/-! ### Steps -/

theorem passed {th₁ : Thread} {x x' : Machine × EventKind} (h : Shadows entry th m m')
    (hthreads : x.1.threads = [th₁]) (hthreads' : x'.1.threads = [th₁.withBuffer []])
    (hfunction : th₁.function = th.function)
    (hmemory : x'.1.memory = Pending.overlay x.1.memory th₁.buffer)
    (hevents : x.1.events = m.events) (hevents' : x'.1.events = m'.events)
    (hkind : x'.2 = x.2.plain) :
    Shadows entry th₁.next (passed 0 site x) (Machine.passed 0 site x') where
  threads := by simp [Machine.passed, hthreads]
  threads_unbuffered := by simp [Machine.passed, hthreads', Thread.next]
  function := hfunction.trans h.function
  memory := hmemory
  events := by
    simp only [Machine.passed, hevents, hevents', h.events, Event.issued_append, hkind]
    rfl

theorem load (h : Shadows entry th m m') (site : Site) (d : Reg) (a : Addr) (v : Int64)
    (fromBuffer : Bool) (graph graph' : Memory.Graph) : Shadows entry (th.withReg d v).next
      (Machine.passed 0 site ({ m.setThread 0 (th.withReg d v) with graph }, .load a v fromBuffer))
      (Machine.passed 0 site ({ m'.setThread 0 ((th.withBuffer []).withReg d v) with graph := graph' },
        .load a v false)) := by
  apply h.passed
  · simp [setThread, h.threads]
  · simp [setThread, h.threads_unbuffered, Thread.withReg]
  · rfl
  · exact h.memory
  · rfl
  · rfl
  · rfl

theorem write (h : Shadows entry th m m') (hbuffer : th.buffer = []) {kind : EventKind}
    (hkind : kind.plain = kind) (site : Site) (cell : Nat) (v : Int64) (graph graph' : Memory.Graph) :
    Shadows entry th.next (Machine.passed 0 site ({ m.write cell v with graph }, kind))
      (Machine.passed 0 site ({ m'.write cell v with graph := graph' }, kind)) := by
  apply h.passed
  · exact h.threads
  · exact h.threads_unbuffered
  · rfl
  · simp only [Machine.write, hbuffer, (h.of_buffer_eq_nil hbuffer).1]
    rfl
  · rfl
  · rfl
  · exact hkind.symm

theorem enqueue (h : Shadows entry th m m') (site : Site) {a : Addr} {cell : Nat}
    (hcell : m.cell? a = some cell) (v : Int64) (node : Nat) (graph graph' : Memory.Graph) :
    Shadows entry (th.enqueued ⟨a, v, node, site⟩).next
      (Machine.passed 0 site
        ({ m.setThread 0 (th.enqueued ⟨a, v, node, site⟩) with graph }, .enqueue a v))
      (Machine.passed 0 site ({ m'.write cell v with graph := graph' }, .store a v)) := by
  obtain ⟨ha, rfl, -⟩ := cell?_eq_some hcell
  apply h.passed
  · simp [setThread, h.threads]
  · exact h.threads_unbuffered
  · rfl
  · simp only [Machine.write, setThread, Thread.enqueued, Pending.overlay_concat, ← h.memory,
      Pending.putInto, if_neg ha]
  · rfl
  · rfl
  · rfl

/-- **The thread performs the same operation without a buffer**, and ends with the same error if it
does. -/
theorem perform (hs : s.buffered = true) (h : Shadows entry th m m')
    (hspawn : ∀ d g, op ≠ .spawn d g) (hadm : m.admits s 0 th op = some c) (site : Site) :
    match m.perform s 0 th site op with
    | .error why => m'.perform s.unbuffered 0 (th.withBuffer []) site op = .error why
    | .ok x => ∃ x' th₁, m'.perform s.unbuffered 0 (th.withBuffer []) site op = .ok x' ∧
      Shadows entry th₁ (Machine.passed 0 site x) (Machine.passed 0 site x') := by
  have hcellAt := cellAt_eq h.length_memory site
  have hdrained := buffer_of_drains hs hadm
  have haccess := announce_eq_some (admits_eq_some.mp hadm).1
  cases op with
  | load d a =>
      simp only [Machine.perform, hcellAt]
      cases hcell : m.cellAt site "load from" a with
      | error why => rfl
      | ok cell =>
          have hread := h.read_eq (cellAt_eq_ok hcell)
          have hnone : (th.withBuffer []).forwarded a = none := rfl
          simp only [ok_bind, hnone, hread, Thread.setReg_eq]
          by_cases hd : d < th.regs.length
          · cases th.forwarded a with
            | some b =>
                simp only [if_pos hd]
                exact ⟨_, _, rfl, h.load site d a _ _ _ _⟩
            | none =>
                simp only [if_pos hd]
                exact ⟨_, _, rfl, h.load site d a _ _ _ _⟩
          · cases th.forwarded a with
            | some b => simp only [if_neg hd]; rfl
            | none => simp only [if_neg hd]; rfl
  | store a x =>
      simp only [Machine.perform, hcellAt, hs, show (th.withBuffer []).value x = th.value x from rfl]
      cases hcell : m.cellAt site "store to" a with
      | error why => rfl
      | ok cell =>
          cases th.value x with
          | error why => rfl
          | ok v => exact ⟨_, _, rfl, h.enqueue site (cellAt_eq_ok hcell) v _ _ _⟩
  | fence => exact ⟨_, _, rfl, h.passed h.threads h.threads_unbuffered rfl h.memory rfl rfl rfl⟩
  | spawn d g => exact absurd rfl (hspawn d g)
  | join v =>
      simp only [Machine.perform, joinee?_eq_none (m := m) (by rw [h.threads]; rfl) v,
        joinee?_eq_none (m := m') (by rw [h.threads_unbuffered]; rfl) v]
      rfl
  | lock a =>
      have hbuffer := hdrained (by rw [haccess]; rfl)
      simp only [Machine.perform, hcellAt]
      cases hcell : m.cellAt site "lock at" a with
      | error why => rfl
      | ok cell => exact ⟨_, _, rfl, h.write hbuffer rfl site cell 1 _ _⟩
  | unlock a =>
      have hbuffer := hdrained (by rw [haccess]; rfl)
      have hread : m'.read = m.read := by
        funext cell
        rw [read, read, (h.of_buffer_eq_nil hbuffer).1]
      simp only [Machine.perform, hcellAt, hread]
      cases hcell : m.cellAt site "unlock at" a with
      | error why => rfl
      | ok cell =>
          simp only [ok_bind]
          by_cases hzero : m.read cell = 0
          · simp only [if_pos hzero]
            rfl
          · simp only [if_neg hzero]
            exact ⟨_, _, rfl, h.write hbuffer rfl site cell 0 _ _⟩

theorem step (hs : s.buffered = true) (h : Shadows entry th m m') (hup : th.upcoming s = .ok (some op))
    (hspawn : ∀ d g, op ≠ .spawn d g) (hadm : m.admits s 0 th op = some c) :
    match m.step s (.thread 0) with
    | .error why => m'.step s.unbuffered (.thread 0) = .error why
    | .ok m₁ => ∃ m₁' th₁, m'.step s.unbuffered (.thread 0) = .ok m₁' ∧ Shadows entry th₁ m₁ m₁' := by
  obtain ⟨-, f, i, hf, -, -⟩ := th.of_upcoming s hup
  have hth : m.threads[0]? = some th := by rw [h.threads]; rfl
  have hth' : m'.threads[0]? = some (th.withBuffer []) := by rw [h.threads_unbuffered]; rfl
  have hperform := h.perform hs hspawn hadm (th.site 0 f)
  rw [step_of_upcoming hth hup hf, step_of_upcoming (s := s.unbuffered) hth' hup hf]
  rw [show (th.withBuffer []).site 0 f = th.site 0 f from rfl]
  cases hx : m.perform s 0 th (th.site 0 f) op with
  | error why =>
      rw [hx] at hperform
      rw [hperform]
      rfl
  | ok x =>
      rw [hx] at hperform
      obtain ⟨x', th₁, hx', h₁⟩ := hperform
      rw [hx']
      exact ⟨_, th₁, rfl, h₁⟩

theorem flush {b : Pending} {rest : List Pending} (h : Shadows entry th m m')
    (hb : th.buffer = b :: rest) :
    ∃ m₁, m.step s (.flush 0) = .ok m₁ ∧ Shadows entry (th.withBuffer rest) m₁ m' := by
  have hth : m.threads[0]? = some th := by rw [h.threads]; rfl
  have hoverlay : m'.memory = Pending.overlay (Pending.putInto m.memory b) rest := by
    rw [h.memory, hb]
    rfl
  have hevents : ∀ e : Event, e.proc = .flush 0 → m'.events = Event.issued (m.events ++ [e]) := by
    intro e he
    rw [Event.issued_append, ← h.events]
    simp [Event.issued, he]
  simp only [Machine.step, stepFlush, thread_of_getElem? hth, ok_bind, hb, pure_eq_ok]
  cases hcell : m.cell? b.addr with
  | some cell =>
      rw [putInto_of_cell? hcell] at hoverlay
      refine ⟨_, rfl, ?_, h.threads_unbuffered, h.function, hoverlay, hevents _ rfl⟩
      simp [setThread, Machine.write, h.threads]
  | none =>
      rw [putInto_of_cell?_eq_none hcell] at hoverlay
      refine ⟨_, rfl, ?_, h.threads_unbuffered, h.function, hoverlay, hevents _ rfl⟩
      simp [setThread, h.threads]

end Shadows

/-- A function without a spawn does not stand at one. -/
theorem ne_spawn (hbody : ∀ f, s.function th.function = .ok f → ∀ d g, .spawn d g ∉ f.body)
    (hup : th.upcoming s = .ok (some op)) (d : Reg) (g : Nat) : op ≠ .spawn d g := by
  rintro rfl
  obtain ⟨-, f, i, hf, hi, hop⟩ := th.of_upcoming s hup
  have hspawn : i = .spawn d g := th.of_operation hop
  exact hbody f hf d g (hspawn ▸ List.mem_of_getElem? hi)

/-! ### The only run without buffers -/

/-- However the choices are made, `n` rounds from `m` end like this. -/
def Forced (s : Setup) (n : Nat) (m : Machine) (ending : Ending) (m' : Machine) : Prop :=
  ∀ (σ : Type) [Scheduler σ] (q : σ), Scheduler.Chooses n q → ∃ q', m.runLoop s n q = (ending, m', q')

theorem forced_zero (s : Setup) (m : Machine) : Forced s 0 m .outOfFuel m :=
  fun _ _ q _ => ⟨q, rfl⟩

theorem forced_of_arrive_error (h : m.arrive s = .error (ending, m')) : Forced s 1 m ending m' := by
  intro σ _ q _
  refine ⟨q, ?_⟩
  rw [runLoop_succ, round, h]

theorem round_of_singleton {σ : Type} [Scheduler σ] {q : σ} {n : Nat} (hq : Scheduler.Chooses (n + 1) q)
    (h : m.arrive s = .ok (m₁, [c])) : ∃ q', Scheduler.Chooses n q' ∧
      (∀ why, m₁.step s c.proc = .error why → m.round s q = .error (.stopped why, m₁, q')) ∧
      ∀ m₂, m₁.step s c.proc = .ok m₂ → m.round s q = .ok (m₂, q') := by
  obtain ⟨p, q', hschedule, hp, hq'⟩ := hq c []
  obtain rfl : p = c.proc := List.mem_singleton.mp hp
  refine ⟨q', hq', fun why hstep => ?_, fun m₂ hstep => ?_⟩
  · simp [round, h, hschedule, hstep]
  · simp [round, h, hschedule, hstep]

theorem forced_of_step_error (h : m.arrive s = .ok (m₁, [c])) (hstep : m₁.step s c.proc = .error why) :
    Forced s 1 m (.stopped why) m₁ := by
  intro σ _ q hq
  obtain ⟨q', -, hround, -⟩ := round_of_singleton hq h
  refine ⟨q', ?_⟩
  rw [runLoop_succ, hround why hstep]

theorem Forced.step {n : Nat} (h : Forced s n m₂ ending m') (harrive : m.arrive s = .ok (m₁, [c]))
    (hstep : m₁.step s c.proc = .ok m₂) : Forced s (n + 1) m ending m' := by
  intro σ _ q hq
  obtain ⟨q', hq', -, hround⟩ := round_of_singleton hq harrive
  obtain ⟨q'', hrun⟩ := h σ q' hq'
  refine ⟨q'', ?_⟩
  rw [runLoop_succ, hround m₂ hstep]
  exact hrun

/-- The rounds begin with the way to a scheduling point, so they may begin on that way. -/
theorem Forced.of_settle {n : Nat} (h : Forced s n m₁ ending m') (hsettle : m.settle s = (m₁, none)) :
    ∃ m'', Forced s n m ending m'' ∧ m''.events = m'.events ∧ m''.memory = m'.memory := by
  cases n with
  | zero =>
      obtain ⟨q', heq⟩ := h Script (.picks []) trivial
      cases heq
      exact ⟨m, forced_zero s m, congrArg (fun x => x.1.events) hsettle,
        congrArg (fun x => x.1.memory) hsettle⟩
  | succ n =>
      refine ⟨m', fun σ _ q hq => ?_, rfl, rfl⟩
      obtain ⟨q', hrun⟩ := h σ q hq
      refine ⟨q', ?_⟩
      rw [← hrun, runLoop_succ, runLoop_succ, round, round, arrive_of_settle hsettle]

end Machine

/-- Whether a run has ended by itself. -/
def Ending.byItself : Ending → Bool
  | .completed | .stopped _ => true
  | .refused | .outOfFuel => false

namespace Machine

variable {s : Setup} {m m' m₀ m₁ : Machine} {entry : Nat} {th : Thread} {ending : Ending}

/-- **Every run with a buffer follows the only run without.** -/
theorem Run.exists_forced (hs : s.buffered = true)
    (hbody : ∀ f, s.function entry = .ok f → ∀ d g, .spawn d g ∉ f.body) (hrun : Run s m ending m₁)
    (h : Shadows entry th m m') :
    ∃ n ending' m₁', Forced s.unbuffered n m' ending' m₁' ∧ m₁'.events = Event.issued m₁.events ∧
      (ending.byItself = true → ending' = ending) ∧ (ending = .completed → m₁'.memory = m₁.memory) := by
  induction hrun generalizing th m' with
  | outOfFuel m => exact ⟨0, _, m', forced_zero _ m', h.events, by simp [Ending.byItself], by simp⟩
  | ended harrive =>
      obtain ⟨m₁', harrive', hevents, hmemory⟩ := h.arrive_error harrive
      exact ⟨1, _, m₁', forced_of_arrive_error harrive', hevents, fun _ => rfl, hmemory⟩
  | @refused m m₁ cs harrive log =>
      have hevents : m₁.events = m.events := congrArg (fun x => x.1.events) (arrive_eq_ok harrive).1.symm
      exact ⟨0, _, m', forced_zero _ m', hevents ▸ h.events, by simp [Ending.byItself], by simp⟩
  | @failed m m₁ cs p why harrive hp hstep =>
      obtain ⟨th₁, m₁', h₁, hsettle⟩ := h.arrive_ok harrive
      obtain ⟨c, hc, rfl⟩ := offered_of_arrive harrive hp
      rcases h₁.offered_cases hc with ⟨op, hproc, hup, hadm⟩ | ⟨b, rest, hproc, hb⟩
      · have hspawn := ne_spawn (h₁.function ▸ hbody) hup
        obtain ⟨a, harrive'⟩ := h₁.arrive_thread hs hsettle hup hspawn hadm
        have hstep' := h₁.step hs hup hspawn hadm
        rw [← hproc, hstep] at hstep'
        rw [hproc] at hstep'
        exact ⟨1, _, m₁', forced_of_step_error harrive' hstep', h₁.events, fun _ => rfl, by simp⟩
      · obtain ⟨m₂, hflush, -⟩ := h₁.flush (s := s) hb
        rw [hproc, hflush] at hstep
        cases hstep
  | @step m m₁ m₂ m₃ cs p ending harrive hp hstep _ ih =>
      obtain ⟨th₁, m₁', h₁, hsettle⟩ := h.arrive_ok harrive
      obtain ⟨c, hc, rfl⟩ := offered_of_arrive harrive hp
      rcases h₁.offered_cases hc with ⟨op, hproc, hup, hadm⟩ | ⟨b, rest, hproc, hb⟩
      · have hspawn := ne_spawn (h₁.function ▸ hbody) hup
        obtain ⟨a, harrive'⟩ := h₁.arrive_thread hs hsettle hup hspawn hadm
        have hstep' := h₁.step hs hup hspawn hadm
        rw [← hproc, hstep] at hstep'
        obtain ⟨m₂', th₂, hstep', h₂⟩ := hstep'
        obtain ⟨n, ending', m₃', hforced, hends⟩ := ih h₂
        rw [hproc] at hstep'
        exact ⟨n + 1, ending', m₃', hforced.step harrive' hstep', hends⟩
      · obtain ⟨m₂', hflush, h₂⟩ := h₁.flush (s := s) hb
        rw [hproc, hflush] at hstep
        cases hstep
        obtain ⟨n, ending', m₃', hforced, hevents, hending, hmemory⟩ := ih h₂
        obtain ⟨m₄', hforced, hevents', hmemory'⟩ := hforced.of_settle hsettle
        exact ⟨n, ending', m₄', hforced, hevents'.trans hevents, hending,
          fun hends => hmemory'.trans (hmemory hends)⟩

/-! ### The memory graph -/

/-- The machine has a single thread, and its accesses are sequential. -/
structure Sequenced (entry : Nat) (m : Machine) : Prop where
  shadowed : ∃ th m', Shadows entry th m m'
  told : m.Told
  owner : ∀ e ∈ m.events, e.proc.owner = 0
  sequential : (Memory.Ledger.ofEvents m.events).Sequential 0

theorem Sequenced.step (hs : s.buffered = true)
    (hbody : ∀ f, s.function entry = .ok f → ∀ d g, .spawn d g ∉ f.body) {c : Candidate}
    (h : m.Sequenced entry) (hc : m.Offered s c) (hstep : m.step s c.proc = .ok m') :
    m'.Sequenced entry := by
  obtain ⟨e, he, hevents, -⟩ := (moves_step s).events trivial hc hstep
  obtain ⟨th, m₁, hshadows⟩ := h.shadowed
  have hproc : e.proc = c.proc := congrArg Candidate.proc he
  have hcases := hshadows.offered_cases hc
  have howner : e.proc.owner = 0 := by
    rw [hproc]
    rcases hcases with ⟨_, hp, -⟩ | ⟨_, _, hp, -⟩ <;> rw [hp] <;> rfl
  refine ⟨?_, h.told.step hstep, ?_, ?_⟩
  · rcases hcases with ⟨op, hp, hup, hadm⟩ | ⟨b, rest, hp, hb⟩
    · have hstep' := hshadows.step hs hup (ne_spawn (hshadows.function ▸ hbody) hup) hadm
      rw [← hp, hstep] at hstep'
      obtain ⟨m₁', th₁, -, h₁⟩ := hstep'
      exact ⟨th₁, m₁', h₁⟩
    · obtain ⟨m₂, hflush, h₂⟩ := hshadows.flush (s := s) hb
      rw [hp, hflush] at hstep
      cases hstep
      exact ⟨_, _, h₂⟩
  · rw [hevents]
    intro f hf
    rcases List.mem_append.mp hf with hf | hf
    · exact h.owner f hf
    · rw [List.mem_singleton.mp hf, howner]
  · rw [hevents, Memory.Ledger.ofEvents_concat]
    refine h.sequential.record howner fun n hn henq hstores => ?_
    have hbuffer := hc.bufferAt_of_stores hs he hn henq hstores
    rw [← hproc, howner] at hbuffer
    rw [h.told.waiting, hbuffer]
    rfl

theorem Sequenced.settle (h : m.Sequenced entry) : (m.settle s).1.Sequenced entry := by
  obtain ⟨th, m', hshadows⟩ := h.shadowed
  obtain ⟨-, th₁, h₁⟩ := hshadows.settle (s := s)
  exact ⟨⟨th₁, _, h₁⟩, h.told.settle, h.owner, h.sequential⟩

theorem Run.sequenced (hs : s.buffered = true)
    (hbody : ∀ f, s.function entry = .ok f → ∀ d g, .spawn d g ∉ f.body) (hrun : Run s m ending m')
    (h : m.Sequenced entry) : m'.Sequenced entry := by
  refine hrun.invariant (P := Sequenced entry) (fun _ h => h.settle)
    (fun _ _ _ h _ hc hstep => h.step hs hbody hc hstep) (fun m log h => ?_) h
  obtain ⟨th, m₁, h₁⟩ := h.shadowed
  exact ⟨⟨th, m₁, h₁.threads, h₁.threads_unbuffered, h₁.function, h₁.memory, h₁.events⟩,
    ⟨h.told.graph, h.told.waiting, h.told.addr⟩, h.owner, h.sequential⟩

theorem Sequenced.findCycle_eq_none (h : m.Sequenced entry) : m.graph.findCycle = none := by
  rw [h.told.findCycle_eq_none_iff]
  intro i hi
  exact Nat.lt_irrefl _ (h.sequential.increases.lt_of_transGen hi)

/-! ### The program -/

theorem shadows_start (h : start s entry = .ok m) : ∃ th, Shadows entry th m m := by
  have hbuffers := buffers_start h
  obtain ⟨th, hth, rfl⟩ := start_eq_ok h
  have hbuffer : th.buffer = [] := hbuffers th (List.mem_singleton_self th)
  have hsame : th.withBuffer [] = th := by rw [← hbuffer]
  refine ⟨th, rfl, by rw [hsame], ?_, by rw [hbuffer]; rfl, rfl⟩
  cases hf : s.function entry with
  | error why => simp [Thread.start, hf] at hth
  | ok f =>
      simp only [Thread.start, hf, ok_bind, pure_eq_ok, Except.ok.injEq] at hth
      rw [← hth]

/-- **Buffered stores are invisible to a program with a single thread.**  If the function where it starts
creates no thread, then whatever is chosen among the candidates, the operations of the thread are a first
part of those that it performs without a buffer, where there is no choice: from some number of rounds on
they are, under every scheduler that goes on so far.  If the run ends by itself, these are all its
operations, it ends in the same way without a buffer, with the same error if there is one, and without an
error the memory is the same.  The memory graph has no cycle. -/
theorem buffer_invisible {σ : Type} [Scheduler σ] {q q' : σ} {fuel : Nat} (hs : s.buffered = true)
    (hbody : ∀ f, s.function entry = .ok f → ∀ d g, .spawn d g ∉ f.body)
    (hstart : start s entry = .ok m₀) (hq : Scheduler.Obedient q)
    (hrun : m₀.runLoop s fuel q = (ending, m, q')) :
    start s.unbuffered entry = .ok m₀ ∧ (∀ e ∈ m.events, e.proc.owner = 0) ∧
    (∃ n, ∀ (ρ : Type) [Scheduler ρ] (r : ρ), Scheduler.Chooses n r → ∀ k ≥ n,
      Event.issued m.events <+: (m₀.runLoop s.unbuffered k r).2.1.events ∧
      (ending.byItself = true → ∃ m' r', m₀.runLoop s.unbuffered k r = (ending, m', r') ∧
        m'.events = Event.issued m.events ∧ (ending = .completed → m'.memory = m.memory))) ∧
    m.graph.findCycle = none := by
  have h := run_runLoop hq s fuel m₀
  rw [hrun] at h
  obtain ⟨th, hshadows⟩ := shadows_start hstart
  have hsequenced : m₀.Sequenced entry := by
    refine ⟨⟨th, m₀, hshadows⟩, told_start hstart, ?_, ?_⟩
    all_goals obtain ⟨th, -, rfl⟩ := start_eq_ok hstart
    · intro e he
      cases he
    · exact Memory.Ledger.sequential_empty 0
  have hsequenced := h.sequenced hs hbody hsequenced
  refine ⟨hstart, hsequenced.owner, ?_, hsequenced.findCycle_eq_none⟩
  obtain ⟨n, ending', m', hforced, hevents, hending, hmemory⟩ := h.exists_forced hs hbody hshadows
  refine ⟨n, fun ρ _ r hr k hk => ?_⟩
  obtain ⟨r', hloop⟩ := hforced ρ r hr
  refine ⟨?_, fun hends => ?_⟩
  · have hprefix := events_runLoop (s := s.unbuffered) hk m₀ r
    rw [hloop] at hprefix
    rw [← hevents]
    exact hprefix
  · obtain rfl := hending hends
    have hmore := runLoop_of_le (s := s.unbuffered) hk m₀ r (by rw [hloop]; rintro rfl; cases hends)
    exact ⟨m', r', hmore.trans hloop, hevents, hmemory⟩

/-- A thread stores and finds its own store again before it passes a mutex. -/
def storesAlone : Setup :=
  ⟨⟨"e", [⟨"x", 0⟩, ⟨"y", 0⟩, ⟨"m", 0⟩],
    [⟨"main", ["a"], [.store (.global 0) (.imm 1), .load 0 (.global 0), .store (.global 1) (.reg 0),
      .lock (.global 2), .store (.global 0) (.imm 2), .unlock (.global 2), .ret]⟩]⟩,
    .standard, true, 10⟩

/-- The machine before that. -/
def beforeStores : Machine := ⟨[0, 0, 0], [⟨0, 0, [0], false, []⟩], [], [], .empty, []⟩

theorem buffer_invisible_storesAlone :
    ∃ m q', beforeStores.runLoop storesAlone 20 (Script.picks (.replicate 9 0)) = (.completed, m, q') ∧
      m.events.length = 9 ∧ m.memory = [2, 1, 0] ∧ m.graph.findCycle = none ∧
      ∃ n m' r', beforeStores.runLoop storesAlone.unbuffered n (Script.picks (.replicate n 0)) =
        (.completed, m', r') ∧ m'.events = Event.issued m.events ∧ m'.memory = [2, 1, 0] := by
  have hstart : start storesAlone 0 = .ok beforeStores := by decide
  have hbody : ∀ f, storesAlone.function 0 = .ok f → ∀ d g, .spawn d g ∉ f.body := by
    intro f hf d g
    cases hf
    simp
  have hends : (beforeStores.runLoop storesAlone 20 (Script.picks (.replicate 9 0))).1 = .completed ∧
      (beforeStores.runLoop storesAlone 20 (Script.picks (.replicate 9 0))).2.1.events.length = 9 ∧
      (beforeStores.runLoop storesAlone 20 (Script.picks (.replicate 9 0))).2.1.memory = [2, 1, 0] := by
    decide +kernel
  generalize hrun : beforeStores.runLoop storesAlone 20 (Script.picks (.replicate 9 0)) = r at hends
  obtain ⟨ending, m, q'⟩ := r
  obtain ⟨rfl, hlength, hmemory⟩ := hends
  obtain ⟨-, -, ⟨n, hn⟩, hcycle⟩ :=
    buffer_invisible rfl hbody hstart (Script.obedient_picks _) hrun
  have hchooses := (Script.due_picks (.replicate n 0)).chooses
  rw [List.length_replicate] at hchooses
  obtain ⟨m', r', hloop, hevents, hmemory'⟩ := (hn Script _ hchooses n le_rfl).2 rfl
  exact ⟨m, q', rfl, hlength, hmemory, hcycle, n, m', r', hloop, hevents, (hmemory' rfl).trans hmemory⟩

end Machine

end Interleave
