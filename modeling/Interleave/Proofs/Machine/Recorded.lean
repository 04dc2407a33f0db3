import Interleave.Proofs.Machine.Replay
import Interleave.Proofs.Machine.Values

/-! # The memory graph and memory tell the same story

The memory graph of a machine records which store every cell and every load has its value from.  It does so
truly (`Machine.graph_matches_memory`): a cell holds what the last store to its address wrote, a store
has reached memory or waits in one buffer, and a load returned what its source wrote.  What a node
wrote is told by the event that issued it (`Machine.Wrote`). -/

namespace Interleave

open Memory

/-- The operation writes a value at an address: a store the given one, a lock one and an unlock zero. -/
inductive EventKind.Writes : EventKind → Addr → Int64 → Prop
  | store (a : Addr) (v : Int64) : Writes (.store a v) a v
  | enqueue (a : Addr) (v : Int64) : Writes (.enqueue a v) a v
  | lock (a : Addr) : Writes (.lock a) a 1
  | unlock (a : Addr) : Writes (.unlock a) a 0

namespace Machine

variable {s : Setup} {m₀ m m' : Machine} {c : Candidate} {e : Event} {entry i r t w : Nat} {a : Addr}
  {n : Node} {v : Int64} {source : Option Nat}

/-- The event that issued node `w` wrote the value at the address. -/
def Wrote (m : Machine) (w : Nat) (a : Addr) (v : Int64) : Prop :=
  ∃ k e, m.events[k]? = some e ∧ Event.nodeAt m.events k = some w ∧ e.kind.Writes a v

/-- The event that issued node `r` was a load of thread number `t`, which found the value at the address. -/
def Found (m : Machine) (r t : Nat) (a : Addr) (v : Int64) : Prop :=
  ∃ k site fromBuffer, m.events[k]? = some ⟨.thread t, site, .load a v fromBuffer⟩ ∧
    Event.nodeAt m.events k = some r

/-! ### Nodes and their events -/

theorem exists_event (h : m.Told) (hn : m.graph.nodes[i]? = some n)
    (hv : (Event.values m.events)[i]? = some v) :
    ∃ k e l, m.events[k]? = some e ∧ Event.nodeAt m.events k = some i ∧ e.value? = some v ∧
      Ledger.node? l e = some n := by
  obtain ⟨k, hk⟩ := Event.exists_nodeAt (List.getElem?_eq_some_iff.mp hv).1
  obtain ⟨e, v', he, hv', -⟩ := Event.nodeAt_eq_some.mp hk
  have hnode := Event.getElem?_nodes he hk
  rw [← h.graph, hn] at hnode
  obtain rfl : v' = v := Option.some.inj ((Event.getElem?_values he hv' hk).symm.trans hv)
  exact ⟨k, e, _, he, hk, hv', hnode.symm⟩

theorem writes_of_node? {l : Ledger} (hn : l.node? e = some n) (hv : e.value? = some v)
    (hstores : n.action.stores = true) : e.kind.Writes n.addr v := by
  obtain ⟨proc, site, kind⟩ := e
  cases proc with
  | flush t => cases hv
  | thread t =>
      cases kind with
      | load a x b =>
          cases hn
          cases hstores
      | store a x =>
          cases hn
          cases hv
          constructor
      | enqueue a x =>
          cases hn
          cases hv
          constructor
      | lock a =>
          cases hn
          cases hv
          constructor
      | unlock a =>
          cases hn
          cases hv
          constructor
      | _ => cases hv

theorem wrote_of_storesAt (h : m.Told) (hw : m.graph.storesAt a w = true)
    (hv : (Event.values m.events)[w]? = some v) : m.Wrote w a v := by
  have hlt := (List.getElem?_eq_some_iff.mp hv).1
  rw [← length_nodes h] at hlt
  have hn := List.getElem?_eq_getElem hlt
  rw [Graph.storesAt_of_getElem? hn, Bool.and_eq_true, beq_iff_eq] at hw
  obtain ⟨rfl, hstores⟩ := hw
  obtain ⟨k, e, l, he, hk, hv, hnode⟩ := exists_event h hn hv
  exact ⟨k, e, he, hk, writes_of_node? hnode hv hstores⟩

theorem load_of_node? {l : Ledger} (hn : l.node? e = some n) (hread : n.action = .read source) :
    ∃ site v fromBuffer, e = ⟨.thread n.thread, site, .load n.addr v fromBuffer⟩ ∧
      source = (l.newest n.thread n.addr).or (l.graph.lastStore n.addr) := by
  obtain ⟨proc, site, kind⟩ := e
  cases proc with
  | flush t => cases kind <;> cases hn
  | thread t =>
      cases kind with
      | load a v b =>
          cases hn
          cases hread
          exact ⟨site, v, b, rfl, rfl⟩
      | fence => cases hn
      | spawn c => cases hn
      | join c => cases hn
      | _ =>
          cases hn
          cases hread

theorem found_of_read (h : m.Told) (hn : m.graph.nodes[r]? = some n) (hread : n.action = .read source)
    (hv : (Event.values m.events)[r]? = some v) : m.Found r n.thread n.addr v := by
  obtain ⟨k, e, l, he, hk, hv, hnode⟩ := exists_event h hn hv
  obtain ⟨site, v', fromBuffer, rfl, -⟩ := load_of_node? hnode hread
  cases hv
  exact ⟨k, site, fromBuffer, he, hk⟩

/-! ### What loads find -/

/-- Every load found the value of its source. -/
def LoadsFromSources (m₀ m : Machine) : Prop :=
  ∀ (r : Nat) (n : Node) (source : Option Nat), m.graph.nodes[r]? = some n → n.action = .read source →
    ∃ cell, m.cell? n.addr = some cell ∧ (Event.values m.events)[r]? =
      some (supplied (Event.values m.events) (m₀.read cell) source)

/-- A cell holds the value of the last store to its address. -/
theorem Valued.read_eq (h : Valued m₀ m) {cell : Nat} (hcell : m.cell? a = some cell) :
    m.read cell = supplied (Event.values m.events) (m₀.read cell) (m.graph.lastStore a) := by
  obtain ⟨hne, rfl, hlt⟩ := cell?_eq_some hcell
  have hpos : a.toNat ≠ 0 := fun hzero => hne (UInt64.toNat_inj.mp hzero)
  rw [h.memory _ hlt, m.graph.arrivals_eq_coherence (a := a) (by omega), Graph.lastStore]

/-- What a thread finds at an address is the value of the source that a load would have. -/
theorem Valued.found (h : Valued m₀ m) (htold : m.Told) {th : Thread} {cell : Nat}
    (hth : m.threads[t]? = some th) (hcell : m.cell? a = some cell) :
    ((th.forwarded a).map Pending.value).getD (m.read cell) =
      supplied (Event.values m.events) (m₀.read cell)
        (((Ledger.ofEvents m.events).newest t a).or (m.graph.lastStore a)) := by
  rw [htold.newest hth]
  cases hb : th.forwarded a with
  | some b =>
      have hmem : b ∈ Thread.bufferAt m.threads t := by
        rw [Thread.bufferAt_of_getElem? hth]
        exact List.mem_reverse.mp (List.mem_of_find?_eq_some hb)
      have hvalue := h.buffer t b hmem
      simp [supplied, hvalue]
  | none => exact h.read_eq hcell

theorem Faithful.replay_concat (h : m.Faithful s) (h' : m'.Faithful s)
    (hevents : m'.events = m.events ++ [e]) : m.queued.replay s.buffered e = some m'.queued := by
  unfold Faithful at h h'
  rw [hevents, List.foldlM_append, h] at h'
  simpa using h'

/-- A load that is performed found the value of its source. -/
theorem Faithful.load (h : m.Faithful s) (h' : m'.Faithful s) (htold : m.Told) (hvalued : Valued m₀ m)
    (ht : t < m.threads.length) {site : Site} {fromBuffer : Bool}
    (hevents : m'.events = m.events ++ [⟨.thread t, site, .load a v fromBuffer⟩]) :
    ∃ cell, m.cell? a = some cell ∧ v = supplied (Event.values m.events) (m₀.read cell)
      (((Ledger.ofEvents m.events).newest t a).or (m.graph.lastStore a)) := by
  have hreplay := h.replay_concat h' hevents
  have hfound : m.queued.found? t a = some (v, fromBuffer) := by
    simp only [QueuedMemory.replay] at hreplay
    split at hreplay
    · assumption
    · cases hreplay
  obtain ⟨x, hx, -⟩ := Option.map_eq_some_iff.mp hfound
  obtain ⟨cell, hcell⟩ := exists_cell (Option.isSome_iff_exists.mpr ⟨x, hx⟩)
  have hth := List.getElem?_eq_getElem ht
  rw [found?_queued hth hcell, Option.some.injEq, Prod.mk.injEq] at hfound
  exact ⟨cell, hcell, hfound.1.symm.trans (hvalued.found htold hth hcell)⟩

theorem LoadsFromSources.step (h : LoadsFromSources m₀ m) (htold : m.Told) (hvalued : Valued m₀ m)
    (hfaithful : m.Faithful s) (hc : m.Offered s c) (hstep : m.step s c.proc = .ok m') :
    LoadsFromSources m₀ m' := by
  obtain ⟨e, hec, hevents, -⟩ := (moves_step s).events trivial hc hstep
  have hcell : ∀ a, m'.cell? a = m.cell? a := by
    intro a
    rw [cell?, cell?, (hvalued.step htold hstep).length, hvalued.length]
  have hnodes : m'.graph.nodes =
      m.graph.nodes ++ ((Ledger.ofEvents m.events).node? e).toList := by
    rw [(htold.step hstep).graph, hevents, Ledger.ofEvents_concat, Ledger.nodes_record, ← htold.graph]
  intro r n source hn hread
  rw [hevents, Event.values_concat, hcell]
  rw [hnodes] at hn
  -- a source that is there keeps its value
  have hkeeps : ∀ source, (∀ w, source = some w → w < m.graph.nodes.length) → ∀ initial,
      supplied (Event.values m.events ++ e.value?.toList) initial source =
        supplied (Event.values m.events) initial source := by
    intro source hsource initial
    rw [length_nodes htold] at hsource
    exact supplied_of_lt hsource initial _
  rcases Nat.lt_or_ge r m.graph.nodes.length with hlt | hge
  · rw [List.getElem?_append_left hlt] at hn
    obtain ⟨cell, hcell, hvalue⟩ := h r n source hn hread
    refine ⟨cell, hcell, ?_⟩
    rw [List.getElem?_append_left (length_nodes htold ▸ hlt), hvalue, hkeeps]
    intro w hw
    rw [htold.graph] at hn ⊢
    exact (Ledger.sound_ofEvents m.events).sources n (List.mem_of_getElem? hn) w (by rw [hread, hw]; rfl)
  · rw [List.getElem?_append_right hge] at hn
    have hnode : (Ledger.ofEvents m.events).node? e = some n :=
      Option.mem_toList.mp (List.mem_of_getElem? hn)
    have hr : r = (Event.values m.events).length := by
      rw [hnode] at hn
      have := (List.getElem?_eq_some_iff.mp hn).1
      rw [← length_nodes htold]
      simp at this
      omega
    obtain ⟨site, v, fromBuffer, rfl, hsource⟩ := load_of_node? hnode hread
    have ht : n.thread < m.threads.length := by
      have := hc.owner_lt
      rwa [← hec] at this
    obtain ⟨cell, hcell, hv⟩ := hfaithful.load (hfaithful.step hc hstep) htold hvalued ht hevents
    refine ⟨cell, hcell, ?_⟩
    rw [hkeeps source, hsource, ← htold.graph, ← hv, hr]
    · exact List.getElem?_concat_length
    · intro w hw
      have hsound := Ledger.sound_ofEvents m.events
      rw [hw] at hread
      rw [htold.graph]
      exact hsound.node?_lt hnode (by rw [hread]; rfl)

/-! ### Visited states -/

theorem read_start {cell : Nat} {g : Global} (hstart : start s entry = .ok m₀)
    (hg : s.program.globals[cell]? = some g) : m₀.read cell = g.init := by
  obtain ⟨th, -, rfl⟩ := start_eq_ok hstart
  simp [read, hg]

theorem Visits.loadsFromSources {allowed : Machine → Candidate → Prop}
    (hstart : Machine.start s entry = .ok m₀) (h : Visits s m₀ allowed m) :
    m.Told ∧ Valued m₀ m ∧ m.Faithful s ∧ LoadsFromSources m₀ m := by
  refine h.preserves (P := fun m => m.Told ∧ Valued m₀ m ∧ m.Faithful s ∧ LoadsFromSources m₀ m)
    ⟨told_start hstart, ?_, faithful_start hstart, ?_⟩
    (fun m hm => ⟨hm.1.settle, hm.2.1.settle, hm.2.2.1.settle, hm.2.2.2⟩)
    (fun m log hm => ⟨⟨hm.1.graph, hm.1.waiting, hm.1.addr⟩,
      ⟨hm.2.1.length, hm.2.1.buffer, hm.2.1.memory⟩, hm.2.2.1, hm.2.2.2⟩) ?_
  · have hempty := buffers_start hstart
    obtain ⟨th, -, rfl⟩ := start_eq_ok hstart
    exact valued_self rfl hempty
  · obtain ⟨th, -, rfl⟩ := start_eq_ok hstart
    intro r n source hn
    cases hn
  · rintro m c m' ⟨htold, hvalued, hfaithful, hloads⟩ hc hstep
    exact ⟨htold.step hstep, hvalued.step htold hstep, hfaithful.step hc hstep,
      hloads.step htold hvalued hfaithful hc hstep⟩

/-- The value of a source at an address: what the store wrote, or what the global starts with. -/
def Supplies (m : Machine) (a : Addr) (g : Global) (v : Int64) : Option Nat → Prop
  | some w => m.Wrote w a v
  | none => v = g.init

theorem supplies_of_supplied (htold : m.Told) {g : Global} {initial : Int64} (hinitial : initial = g.init)
    (hsource : ∀ w, source = some w → m.graph.storesAt a w = true) :
    m.Supplies a g (supplied (Event.values m.events) initial source) source := by
  cases source with
  | none => exact hinitial
  | some w =>
      have hw := hsource w rfl
      have hlt : w < (Event.values m.events).length := by
        rw [htold.graph] at hw
        rw [← length_nodes htold, htold.graph]
        exact Ledger.lt_of_storesAt hw
      refine wrote_of_storesAt htold hw ?_
      simp [supplied, List.getElem?_eq_getElem hlt]

/-- **The memory graph and memory tell the same story** in every state that an execution can pass, with and
without buffers.

* An address that has a cell has a global.  The cell holds what the last store of the address wrote, or what
  the global starts with if there was none; and the last store is the last one in the coherence order.
* A store has reached memory or waits.  In the first case it is once in the coherence order of its address, in
  no other, and in no buffer.  In the second case it is in no coherence order and once in the buffer of its
  thread, with its address and what it wrote, and in no other.
* A load found what its source wrote at its address, or what the global starts with if it has no source. -/
theorem graph_matches_memory (hstart : start s entry = .ok m₀) (hvisits : Visits s m₀ Unrestricted m) :
    (∀ a cell, m.cell? a = some cell → ∃ g, s.program.globals[cell]? = some g ∧
      m.Supplies a g (m.read cell) (m.graph.lastStore a) ∧
      (∀ w, m.graph.lastStore a = some w → ∃ before, m.graph.coherence a = before ++ [w]) ∧
      (m.graph.lastStore a = none → m.graph.coherence a = [])) ∧
    (∀ i n, m.graph.nodes[i]? = some n → n.action.stores = true →
      ((∀ a, (m.graph.coherence a).count i = if a = n.addr then 1 else 0) ∧
        ∀ t, ((Thread.bufferAt m.threads t).map Pending.node).count i = 0) ∨
      ((∀ a, (m.graph.coherence a).count i = 0) ∧
        (∀ t, ((Thread.bufferAt m.threads t).map Pending.node).count i =
          if t = n.thread then 1 else 0) ∧
        ∃ b ∈ Thread.bufferAt m.threads n.thread, b.node = i ∧ b.addr = n.addr ∧
          m.Wrote i n.addr b.value)) ∧
    ∀ r n source, m.graph.nodes[r]? = some n → n.action = .read source →
      ∃ cell g v, m.cell? n.addr = some cell ∧ s.program.globals[cell]? = some g ∧
        m.Found r n.thread n.addr v ∧ m.Supplies n.addr g v source := by
  obtain ⟨htold, hvalued, -, hloads⟩ := hvisits.loadsFromSources hstart
  have hlength := hvisits.length_memory hstart
  obtain ⟨visible, hvisible⟩ := Ledger.visible_ofEvents m.events
  have hglobal : ∀ {a cell}, m.cell? a = some cell → ∃ g, s.program.globals[cell]? = some g := by
    intro a cell hcell
    have hlt := (cell?_eq_some hcell).2.2
    rw [hlength] at hlt
    exact ⟨_, List.getElem?_eq_getElem hlt⟩
  refine ⟨fun a cell hcell => ?_, fun i n hn hstores => ?_, fun r n source hn hread => ?_⟩
  · obtain ⟨g, hg⟩ := hglobal hcell
    refine ⟨g, hg, ?_, fun w hw => ?_, fun hnone => ?_⟩
    · rw [hvalued.read_eq hcell]
      refine supplies_of_supplied htold (read_start hstart hg) fun w hw => ?_
      rw [htold.graph] at hw ⊢
      exact Ledger.storesAt_of_lastStore hvisible hw
    · exact List.getLast?_eq_some_iff.mp hw
    · exact List.getLast?_eq_none_iff.mp hnone
  · have hnodes : ∀ t, (Thread.bufferAt m.threads t).map Pending.node =
        ((Ledger.ofEvents m.events).waiting t).map Prod.snd := by
      intro t
      rw [htold.waiting, List.map_map]
      rfl
    simp only [hnodes]
    rw [htold.graph] at hn ⊢
    by_cases hi : i ∈ visible
    · exact .inl ⟨hvisible.count_coherence hn hstores hi, hvisible.count_waiting_of_mem hi⟩
    · refine .inr ⟨hvisible.count_coherence_of_not_mem hi, hvisible.count_waiting hn hi, ?_⟩
      have hwaits := hvisible.waits i n hn hi
      rw [htold.waiting] at hwaits
      obtain ⟨b, hb, hentry⟩ := List.mem_map.mp hwaits
      have hi' : b.node = i := congrArg Prod.snd hentry
      refine ⟨b, hb, hi', congrArg Prod.fst hentry, wrote_of_storesAt htold ?_ ?_⟩
      · rw [htold.graph, Graph.storesAt_of_getElem? hn, hstores, beq_self_eq_true]
        rfl
      · rw [← hi']
        exact hvalued.buffer n.thread b hb
  · obtain ⟨cell, hcell, hvalue⟩ := hloads r n source hn hread
    obtain ⟨g, hg⟩ := hglobal hcell
    refine ⟨cell, g, _, hcell, hg, found_of_read htold hn hread hvalue, ?_⟩
    refine supplies_of_supplied htold (read_start hstart hg) fun w hw => ?_
    rw [htold.graph] at hn ⊢
    exact Ledger.sourced_ofEvents m.events r n w hn (by rw [hread, hw]; rfl)

/-- The turns of the update up to where the first thread has found its second store in its own buffer. -/
def forwardedTurns : List Proc :=
  [.thread 0, .thread 0, .flush 0, .thread 0, .thread 1, .thread 0, .thread 0]

theorem graph_matches_memory_guardedUpdate :
    ∃ m, beforeUpdate.reach guardedUpdate forwardedTurns = .ok m ∧
      m.graph.lastStore 1 = some 0 ∧ m.Wrote 0 1 (m.read 0) ∧
      (∃ b ∈ Thread.bufferAt m.threads 0, b.node = 3 ∧ b.addr = 1 ∧ m.Wrote 3 1 b.value) ∧
      ∃ v, m.Found 4 0 1 v ∧ m.Wrote 3 1 v := by
  have hstart : start guardedUpdate 1 = .ok beforeUpdate := by decide
  obtain ⟨m, hreach, hm⟩ := exists_of_any (x := beforeUpdate.reach guardedUpdate forwardedTurns)
    (p := fun m => decide (m.cell? 1 = some 0) && decide (m.graph.lastStore 1 = some 0) &&
      decide (m.graph.nodes[3]? = some (⟨0, 1, .write⟩ : Node)) &&
      decide ((m.graph.coherence 1).count 3 = 0) &&
      decide (m.graph.nodes[4]? = some (⟨0, 1, .read (some 3)⟩ : Node)))
    (by decide +kernel)
  simp only [Bool.and_eq_true, decide_eq_true_eq] at hm
  obtain ⟨⟨⟨⟨hcell, hlast⟩, hwrite⟩, hcount⟩, hread⟩ := hm
  obtain ⟨hmemory, hstores, hloads⟩ := graph_matches_memory hstart (visits_of_reach hreach)
  obtain ⟨g, -, hsupplies, -⟩ := hmemory 1 0 hcell
  rw [hlast] at hsupplies
  obtain ⟨cell, g', v, -, -, hfound, hsupplies'⟩ := hloads 4 _ _ hread rfl
  refine ⟨m, hreach, hlast, hsupplies, ?_, v, hfound, hsupplies'⟩
  rcases hstores 3 _ hwrite rfl with ⟨hreached, -⟩ | ⟨-, -, hwaits⟩
  · have := hreached 1
    rw [hcount] at this
    cases this
  · exact hwaits

end Machine

end Interleave
