import Interleave.Proofs.Machine.Loop

/-! # Replaying the events of a run

The events of a run tell a history of memory on their own: they can be replayed, without the program, on
cells that hold the starting values and one empty queue of stores for each thread.  `QueuedMemory.replay`
is defined only where the event fits what it finds; that every trace can be replayed to its end, and
that this ends with the memory and the buffers of the machine, is `Machine.replay_events`. -/

namespace Interleave

/-- A store that waits in a queue. -/
structure Queued where
  addr : Addr
  value : Int64
  site : Site
deriving DecidableEq, Repr, Inhabited

/-- Cells of memory, and for each thread a queue of stores, the oldest first. -/
structure QueuedMemory where
  cells : List Int64
  queues : Nat → List Queued

namespace QueuedMemory

/-- The memory before a program is run. -/
def initial (p : Program) : QueuedMemory := ⟨p.globals.map Global.init, fun _ => []⟩

/-- The value at an address; the first cell has address one. -/
def value? (c : QueuedMemory) (a : Addr) : Option Int64 :=
  if a = 0 then none else c.cells[a.toNat - 1]?

/-- Put a value at an address that has a cell. -/
def put? (c : QueuedMemory) (a : Addr) (v : Int64) : Option QueuedMemory :=
  (c.value? a).map fun _ => { c with cells := c.cells.set (a.toNat - 1) v }

/-- Replace the queue of thread number `t`. -/
def setQueue (c : QueuedMemory) (t : Nat) (queue : List Queued) : QueuedMemory :=
  { c with queues := fun u => if u = t then queue else c.queues u }

/-- The newest store to an address in the queue of thread number `t`. -/
def newest? (c : QueuedMemory) (t : Nat) (a : Addr) : Option Queued :=
  ((c.queues t).filter fun b => b.addr = a).getLast?

/-- What a load of thread number `t` finds at an address, and whether it finds it in the queue. -/
def found? (c : QueuedMemory) (t : Nat) (a : Addr) : Option (Int64 × Bool) :=
  (c.value? a).map fun v =>
    match c.newest? t a with
    | some b => (b.value, true)
    | none => (v, false)

/-- What becomes of the memory with an event.  Where the event cannot have happened there is no
result: stores enter queues only if they are `buffered`, and otherwise reach memory at once; what a
flush writes is the head of the queue; a load gives what is found; a mutex is free when it is locked and
is not when it is unlocked; and fences, spawns, locks and unlocks wait for an empty queue. -/
def replay (buffered : Bool) (c : QueuedMemory) (e : Event) : Option QueuedMemory :=
  match e.proc, e.kind with
  | .thread t, .load a v fromBuffer => if c.found? t a = some (v, fromBuffer) then some c else none
  | .thread t, .enqueue a v =>
    if buffered ∧ (c.value? a).isSome then some (c.setQueue t (c.queues t ++ [⟨a, v, e.site⟩]))
    else none
  | .thread _, .store a v => if buffered then none else c.put? a v
  | .thread t, .lock a => if c.queues t = [] ∧ c.value? a = some 0 then c.put? a 1 else none
  | .thread t, .unlock a => if c.queues t = [] ∧ c.value? a ≠ some 0 then c.put? a 0 else none
  | .thread t, .fence | .thread t, .spawn _ => if c.queues t = [] then some c else none
  | .thread _, .join _ => some c
  | .flush t, .store a v =>
    match c.queues t with
    | b :: rest => if b = ⟨a, v, e.site⟩ then (c.setQueue t rest).put? a v else none
    | [] => none
  | .flush _, _ => none

theorem ext {c c' : QueuedMemory} (hcells : c.cells = c'.cells)
    (hqueues : ∀ t, c.queues t = c'.queues t) : c = c' := by
  obtain ⟨cells, queues⟩ := c
  obtain ⟨cells', queues'⟩ := c'
  obtain rfl : cells = cells' := hcells
  obtain rfl : queues = queues' := funext hqueues
  rfl

/-! ### What a replay preserves -/

section

variable {buffered : Bool} {c c' : QueuedMemory} {a : Addr} {v : Int64} {t : Nat} {e : Event}

/-- Nothing waits if stores are not `buffered`, and whatever waits has a cell. -/
structure Sound (buffered : Bool) (c : QueuedMemory) : Prop where
  empty : buffered = false → ∀ t, c.queues t = []
  cell : ∀ t, ∀ b ∈ c.queues t, (c.value? b.addr).isSome = true

theorem sound_initial (buffered : Bool) (p : Program) : (initial p).Sound buffered :=
  ⟨fun _ _ => rfl, fun _ _ hb => absurd hb List.not_mem_nil⟩

theorem queues_of_put? (h : c.put? a v = some c') : c'.queues = c.queues := by
  obtain ⟨_, -, rfl⟩ := Option.map_eq_some_iff.mp h
  rfl

theorem isSome_value?_of_put? (h : c.put? a v = some c') (b : Addr) :
    (c'.value? b).isSome = (c.value? b).isSome := by
  obtain ⟨_, -, rfl⟩ := Option.map_eq_some_iff.mp h
  unfold value?
  split
  · rfl
  · rw [Bool.eq_iff_iff, isSome_getElem?, isSome_getElem?, List.length_set]

theorem Sound.put? (h : c.Sound buffered) (hput : c.put? a v = some c') : c'.Sound buffered := by
  refine ⟨fun hb t => ?_, fun t b hb => ?_⟩
  · rw [queues_of_put? hput]
    exact h.empty hb t
  · rw [queues_of_put? hput] at hb
    rw [isSome_value?_of_put? hput]
    exact h.cell t b hb

/-- The queue of a thread may be replaced by one whose stores are old or may enter it. -/
theorem Sound.setQueue (h : c.Sound buffered) {queue : List Queued}
    (hqueue : ∀ b ∈ queue, b ∈ c.queues t ∨ buffered = true ∧ (c.value? b.addr).isSome = true) :
    (c.setQueue t queue).Sound buffered := by
  refine ⟨fun hb u => ?_, fun u b hb => ?_⟩
  · simp only [QueuedMemory.setQueue]
    split
    · refine List.eq_nil_iff_forall_not_mem.mpr fun b hmem => ?_
      rcases hqueue b hmem with hold | ⟨hbuffered, -⟩
      · rw [h.empty hb t] at hold
        cases hold
      · rw [hb] at hbuffered
        cases hbuffered
    · exact h.empty hb u
  · simp only [QueuedMemory.setQueue] at hb
    split at hb
    · rcases hqueue b hb with hold | ⟨-, hcell⟩
      · exact h.cell t b hold
      · exact hcell
    · exact h.cell u b hb

theorem Sound.replay (h : c.Sound buffered) (hreplay : c.replay buffered e = some c') :
    c'.Sound buffered := by
  unfold QueuedMemory.replay at hreplay
  split at hreplay
  · split at hreplay
    · cases hreplay
      exact h
    · cases hreplay
  · rename_i t a v hproc hkind
    split at hreplay
    · rename_i hguard
      cases hreplay
      refine h.setQueue fun b hb => ?_
      rcases List.mem_append.mp hb with hb | hb
      · exact .inl hb
      · rw [List.mem_singleton.mp hb]
        exact .inr hguard
    · cases hreplay
  · split at hreplay
    · cases hreplay
    · exact h.put? hreplay
  · split at hreplay
    · exact h.put? hreplay
    · cases hreplay
  · split at hreplay
    · exact h.put? hreplay
    · cases hreplay
  · split at hreplay
    · cases hreplay
      exact h
    · cases hreplay
  · split at hreplay
    · cases hreplay
      exact h
    · cases hreplay
  · cases hreplay
    exact h
  · split at hreplay
    · rename_i b rest hqueue
      split at hreplay
      · refine Sound.put? (h.setQueue fun b' hb' => .inl ?_) hreplay
        rw [hqueue]
        exact List.mem_cons_of_mem b hb'
      · cases hreplay
    · cases hreplay
  · cases hreplay

theorem Sound.foldlM {es : List Event} (h : c.Sound buffered)
    (hreplay : es.foldlM (QueuedMemory.replay buffered) c = some c') : c'.Sound buffered := by
  induction es generalizing c with
  | nil =>
      cases hreplay
      exact h
  | cons e es ih =>
      rw [List.foldlM_cons] at hreplay
      obtain ⟨c₁, he, hes⟩ := Option.bind_eq_some_iff.mp hreplay
      exact ih (h.replay he) hes

end

end QueuedMemory

/-- A waiting store without its node. -/
def Pending.queued (b : Pending) : Queued := ⟨b.addr, b.value, b.site⟩

namespace Machine

variable {s : Setup} {m m' m₀ : Machine} {t entry : Nat} {th : Thread} {k : Change} {c : Candidate}
  {op : Operation} {site : Site}

/-- The memory and the buffers of a machine. -/
def queued (m : Machine) : QueuedMemory :=
  ⟨m.memory, fun t => (Thread.bufferAt m.threads t).map Pending.queued⟩

theorem queues_of_getElem? (hth : m.threads[t]? = some th) :
    m.queued.queues t = th.buffer.map Pending.queued := by
  simp only [queued, Thread.bufferAt_of_getElem? hth]

theorem queues_eq_nil (h : ∀ th ∈ m.threads, th.buffer = []) (t : Nat) : m.queued.queues t = [] := by
  cases hth : m.threads[t]? with
  | none => simp [queued, Thread.bufferAt, hth]
  | some th => rw [queues_of_getElem? hth, h th (List.mem_of_getElem? hth), List.map_nil]

theorem queued_core (m : Machine) : m.core.queued = m.queued := by
  refine QueuedMemory.ext rfl fun u => ?_
  simp only [queued, Thread.bufferAt, threads_core, List.getElem?_map]
  cases m.threads[u]? <;> simp [Thread.bare, Function.comp_def, Pending.queued, Pending.bare]

theorem queued_settle (s : Setup) (m : Machine) : (m.settle s).1.queued = m.queued := by
  refine QueuedMemory.ext rfl fun u => ?_
  simp only [queued, bufferAt_settle]

/-! ### What the replay finds -/

theorem exists_cell {a : Addr} (h : (m.queued.value? a).isSome = true) : ∃ cell, m.cell? a = some cell := by
  unfold QueuedMemory.value? at h
  split at h
  · cases h
  · rename_i hne
    have hpos : a.toNat ≠ 0 := fun hzero => hne (UInt64.toNat_inj.mp hzero)
    obtain ⟨v, hv⟩ := Option.isSome_iff_exists.mp h
    have hlt := (List.getElem?_eq_some_iff.mp hv).1
    simp only [queued] at hlt
    exact ⟨a.toNat - 1, if_pos (by omega)⟩

theorem value?_queued {a : Addr} {cell : Nat} (h : m.cell? a = some cell) :
    m.queued.value? a = some (m.read cell) := by
  obtain ⟨hne, rfl, hlt⟩ := cell?_eq_some h
  rw [QueuedMemory.value?, if_neg hne, read, queued, List.getElem?_eq_getElem hlt,
    List.getD_eq_getElem?_getD, List.getElem?_eq_getElem hlt]
  rfl

theorem put?_of_cells {a : Addr} {cell : Nat} {c : QueuedMemory} (hc : c.cells = m.memory)
    (h : m.cell? a = some cell) (v : Int64) :
    c.put? a v = some { c with cells := m.memory.set cell v } := by
  have hvalue : c.value? a = some (m.read cell) := by
    rw [← value?_queued h, QueuedMemory.value?, QueuedMemory.value?, hc]
    rfl
  rw [QueuedMemory.put?, hvalue, (cell?_eq_some h).2.1, ← hc]
  rfl

theorem newest?_queued (hth : m.threads[t]? = some th) (a : Addr) :
    m.queued.newest? t a = (th.forwarded a).map Pending.queued := by
  rw [QueuedMemory.newest?, queues_of_getElem? hth, Thread.forwarded, List.filter_map,
    List.getLast?_map, ← List.head?_reverse, ← List.filter_reverse, List.head?_filter]
  rfl

theorem found?_queued (hth : m.threads[t]? = some th) {a : Addr} {cell : Nat}
    (h : m.cell? a = some cell) : m.queued.found? t a =
      some (((th.forwarded a).map Pending.value).getD (m.read cell), (th.forwarded a).isSome) := by
  rw [QueuedMemory.found?, value?_queued h, newest?_queued hth]
  cases th.forwarded a <;> rfl

/-! ### One step -/

/-- The buffers behind a change, if a new thread starts with an empty one. -/
theorem bufferAt_on (hth : m.threads[t]? = some th) (hchild : ∀ new, k.child = some new → new.buffer = [])
    (u : Nat) : Thread.bufferAt (k.on t m).threads u =
      if t = u then (k.update th).buffer else Thread.bufferAt m.threads u := by
  have hmodify : Thread.bufferAt (m.threads.modify t k.update) u =
      if t = u then (k.update th).buffer else Thread.bufferAt m.threads u := by
    rw [modify_eq_set hth, Thread.bufferAt_set hth]
  rw [← hmodify]
  cases hk : k.child with
  | none => simp [Change.on, hk]
  | some new =>
      simp only [Change.on, hk, Option.toList_some]
      exact Thread.bufferAt_concat (hchild new hk) u

/-- The memory behind a change, if a new thread starts with an empty buffer. -/
theorem queued_on (hth : m.threads[t]? = some th) (hchild : ∀ new, k.child = some new → new.buffer = []) :
    (k.on t m).queued = { m.queued.setQueue t ((k.update th).buffer.map Pending.queued) with
      cells := k.memory m.memory } := by
  refine QueuedMemory.ext rfl fun u => ?_
  simp only [queued, bufferAt_on hth hchild, QueuedMemory.setQueue, eq_comm (a := u)]
  split <;> rfl

theorem setQueue_queued (hth : m.threads[t]? = some th) :
    m.queued.setQueue t (th.buffer.map Pending.queued) = m.queued := by
  refine QueuedMemory.ext rfl fun u => ?_
  simp only [QueuedMemory.setQueue]
  split
  · subst_vars
    exact (queues_of_getElem? hth).symm
  · rfl

/-- The events so far replay to the memory and the buffers of the machine. -/
def Faithful (s : Setup) (m : Machine) : Prop :=
  m.events.foldlM (QueuedMemory.replay s.buffered) (.initial s.program) = some m.queued

theorem Faithful.sound (h : m.Faithful s) : m.queued.Sound s.buffered :=
  (QueuedMemory.sound_initial s.buffered s.program).foldlM h

theorem queued_on_of_buffer (hth : m.threads[t]? = some th)
    (hchild : ∀ new, k.child = some new → new.buffer = []) (hbuffer : (k.update th).buffer = th.buffer) :
    (k.on t m).queued = { m.queued with cells := k.memory m.memory } := by
  rw [queued_on hth hchild, hbuffer, setQueue_queued hth]

theorem queues_of_drains (hsound : m.queued.Sound s.buffered) (hth : m.threads[t]? = some th)
    (hadm : m.admits s t th op = some c) (hdrains : c.access.drains = true) :
    m.queued.queues t = [] := by
  cases hs : s.buffered with
  | false => exact hsound.empty hs t
  | true => rw [queues_of_getElem? hth, buffer_of_drains hs hadm hdrains, List.map_nil]

theorem replay_changeOf (hsound : m.queued.Sound s.buffered) (hth : m.threads[t]? = some th)
    (hadm : m.admits s t th op = some c) (hk : m.changeOf s t th site op = .ok k) :
    ∃ e, k.event = some e ∧ m.queued.replay s.buffered e = some (k.on t m).queued := by
  have hdrained := queues_of_drains hsound hth hadm
  obtain ⟨hannounce, -, -⟩ := admits_eq_some.mp hadm
  have haccess := announce_eq_some hannounce
  obtain ⟨x, hx⟩ := succeeds_of_changeOf hk
  cases hx with
  | load hcell hd hv =>
      subst hv
      refine ⟨_, rfl, ?_⟩
      rw [queued_on_of_buffer hth (by simp [Change.ofThread]) rfl]
      simp only [QueuedMemory.replay, found?_queued hth hcell, if_true]
      rfl
  | enqueue hs hcell hv =>
      refine ⟨_, rfl, ?_⟩
      rw [queued_on hth (by simp [Change.ofThread])]
      simp [QueuedMemory.replay, hs, value?_queued hcell, queues_of_getElem? hth, Change.ofThread,
        Change.memory, Thread.enqueued, Thread.next, Pending.queued]
      rfl
  | store hs hcell hv =>
      refine ⟨_, rfl, ?_⟩
      rw [queued_on_of_buffer hth (by simp [Change.ofThread]) rfl]
      simp [QueuedMemory.replay, hs, put?_of_cells (c := m.queued) rfl hcell]
      rfl
  | fence =>
      refine ⟨_, rfl, ?_⟩
      rw [queued_on_of_buffer hth (by simp [Change.ofThread]) rfl]
      simp only [QueuedMemory.replay, hdrained (by rw [haccess]; rfl), if_true]
      rfl
  | spawn hd hnew =>
      refine ⟨_, rfl, ?_⟩
      rw [queued_on_of_buffer hth (by simp [Change.ofThread, Thread.buffer_start hnew]) rfl]
      simp only [QueuedMemory.replay, hdrained (by rw [haccess]; rfl), if_true]
      rfl
  | join hc =>
      refine ⟨_, rfl, ?_⟩
      rw [queued_on_of_buffer hth (by simp [Change.ofThread]) rfl]
      rfl
  | @lock a cell hcell =>
      have hfree : m.read cell = 0 := by
        by_contra hne
        simp [announce, hcell, hne] at hannounce
      refine ⟨_, rfl, ?_⟩
      rw [queued_on_of_buffer hth (by simp [Change.ofThread]) rfl]
      simp only [QueuedMemory.replay, hdrained (by rw [haccess]; rfl), value?_queued hcell, hfree,
        put?_of_cells (c := m.queued) rfl hcell, and_self, if_true]
      rfl
  | unlock hcell hlocked =>
      refine ⟨_, rfl, ?_⟩
      rw [queued_on_of_buffer hth (by simp [Change.ofThread]) rfl]
      simp [QueuedMemory.replay, hdrained (by rw [haccess]; rfl), value?_queued hcell, hlocked,
        put?_of_cells (c := m.queued) rfl hcell]
      rfl

theorem replay_changeOfFlush (hsound : m.queued.Sound s.buffered) {b : Pending} {rest : List Pending}
    (hth : m.threads[t]? = some th) (hb : th.buffer = b :: rest) :
    m.queued.replay s.buffered ⟨.flush t, b.site, .store b.addr b.value⟩ =
      some ((m.changeOfFlush t b).on t m).queued := by
  have hqueue : m.queued.queues t = b.queued :: rest.map Pending.queued := by
    rw [queues_of_getElem? hth, hb, List.map_cons]
  obtain ⟨cell, hcell⟩ := exists_cell (hsound.cell t b.queued (by simp [hqueue]))
  replace hcell : m.cell? b.addr = some cell := hcell
  rw [queued_on hth (by simp [changeOfFlush])]
  simp only [QueuedMemory.replay, hqueue, Pending.queued, if_true]
  rw [put?_of_cells (c := m.queued.setQueue t _) rfl hcell]
  simp only [changeOfFlush, hcell, Option.map_some, Change.memory, Thread.flushed, hb, List.tail_cons]

theorem Faithful.step (h : m.Faithful s) (hc : m.Offered s c) (hstep : m.step s c.proc = .ok m') :
    m'.Faithful s := by
  obtain ⟨k, hk, hbehind⟩ := (moves_step s).behind_of_ok trivial hstep
  have hreplay : ∃ e, k.event = some e ∧
      m.queued.replay s.buffered e = some (k.on c.proc.owner m).queued := by
    cases hc with
    | @thread t th op _ hth hup hadm =>
        rw [(admits_eq_some.mp hadm).2.1] at hk ⊢
        obtain ⟨f, -, hchange⟩ := change_of_upcoming hth hup
        rw [hchange] at hk
        exact replay_changeOf h.sound hth hadm hk
    | @flush t th b hth hb =>
        obtain ⟨rest, hbuffer⟩ := List.head?_eq_some_iff.mp hb
        cases (change_of_head hth hb).symm.trans hk
        exact ⟨_, rfl, replay_changeOfFlush h.sound hth hbuffer⟩
  obtain ⟨e, hevent, he⟩ := hreplay
  have hqueued : m'.queued = (k.on c.proc.owner m).queued := by
    rw [← queued_core m', hbehind.core, queued_core]
  unfold Faithful at h ⊢
  rw [hbehind.events, hevent, hqueued, List.foldlM_append, h]
  simpa using he

/-! ### Whole runs -/

theorem faithful_start (h : start s entry = .ok m₀) : m₀.Faithful s := by
  have hqueues := queues_eq_nil (buffers_start h)
  obtain ⟨th, -, rfl⟩ := start_eq_ok h
  refine congrArg some (QueuedMemory.ext rfl fun t => ?_)
  rw [hqueues]
  rfl

theorem Faithful.settle (h : m.Faithful s) : (m.settle s).1.Faithful s := by
  unfold Faithful
  rw [queued_settle]
  exact h

theorem Run.faithful {ending : Ending} (h : Run s m ending m') (hm : m.Faithful s) : m'.Faithful s :=
  h.invariant (P := Faithful s) (fun _ hm => hm.settle) (fun _ _ _ hm _ hc hstep => hm.step hc hstep)
    (fun _ _ hm => hm) hm

theorem Visits.faithful {allowed : Machine → Candidate → Prop} (hstart : Machine.start s entry = .ok m₀)
    (h : Visits s m₀ allowed m) : m.Faithful s :=
  h.preserves (faithful_start hstart) (fun _ hm => hm.settle) (fun _ _ hm => hm)
    (fun _ _ _ hm hc hstep => hm.step hc hstep)

/-- **The trace is a faithful history of memory.**  Whatever is chosen among the candidates, and however
the run ends, its events can be replayed on the starting values and empty queues, and the replay ends
with the memory and the buffers of the machine.  Nothing waits in them when the run is completed. -/
theorem replay_events {σ : Type} [Scheduler σ] {q q' : σ} {fuel : Nat} {ending : Ending}
    (hstart : start s entry = .ok m₀) (hq : Scheduler.Obedient q)
    (hrun : m₀.runLoop s fuel q = (ending, m, q')) :
    m.events.foldlM (QueuedMemory.replay s.buffered) (.initial s.program) = some m.queued ∧
    (ending = .completed → ∀ t, m.queued.queues t = []) := by
  have h := run_runLoop hq s fuel m₀
  rw [hrun] at h
  refine ⟨h.faithful (faithful_start hstart), ?_⟩
  rintro rfl
  exact queues_eq_nil h.buffers_of_completed

/-- Two threads store to a cell; one of them reads it and takes the mutex of the other. -/
def guardedUpdate : Setup :=
  ⟨⟨"e", [⟨"x", 0⟩, ⟨"m", 0⟩],
    [⟨"other", [], [.lock (.global 1), .store (.global 0) (.imm 2), .unlock (.global 1), .ret]⟩,
      ⟨"main", ["a", "t"],
        [.store (.global 0) (.imm 1), .load 0 (.global 0), .spawn 1 0, .store (.global 0) (.imm 3),
          .load 0 (.global 0), .lock (.global 1), .load 0 (.global 0), .unlock (.global 1),
          .join (.reg 1), .ret]⟩]⟩,
    .standard, true, 10⟩

/-- The machine before the update. -/
def beforeUpdate : Machine := ⟨[0, 0], [⟨1, 0, [0, 0], false, []⟩], [], [], .empty, []⟩

/-- Numbers of candidates that lead through the update. -/
def updateChoices : List Nat := [0, 0, 0, 0, 1, 0, 2, 0, 1, 0, 1, 0, 0, 0, 0]

theorem replay_events_guardedUpdate :
    ∃ m q', beforeUpdate.runLoop guardedUpdate 40 (Script.picks updateChoices) = (.completed, m, q') ∧
      (∃ site, ⟨.thread 0, site, .load 1 1 true⟩ ∈ m.events) ∧ m.memory = [2, 0] ∧
      m.events.foldlM (QueuedMemory.replay true) (.initial guardedUpdate.program) = some m.queued ∧
      ∀ t, m.queued.queues t = [] := by
  have hstart : start guardedUpdate 1 = .ok beforeUpdate := by decide
  have hends : (beforeUpdate.runLoop guardedUpdate 40 (Script.picks updateChoices)).1 = .completed ∧
      ⟨.thread 0, ⟨0, "main", 1⟩, .load 1 1 true⟩ ∈
        (beforeUpdate.runLoop guardedUpdate 40 (Script.picks updateChoices)).2.1.events ∧
      (beforeUpdate.runLoop guardedUpdate 40 (Script.picks updateChoices)).2.1.memory = [2, 0] := by
    decide +kernel
  generalize hrun : beforeUpdate.runLoop guardedUpdate 40 (Script.picks updateChoices) = r at hends
  obtain ⟨ending, m, q'⟩ := r
  obtain ⟨rfl, hload, hmemory⟩ := hends
  obtain ⟨hreplay, hdrained⟩ := replay_events hstart (Script.obedient_picks _) hrun
  exact ⟨m, q', rfl, ⟨_, hload⟩, hmemory, hreplay, hdrained rfl⟩

end Machine

end Interleave
