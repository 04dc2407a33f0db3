import Interleave.Proofs.Machine.Course
import Mathlib.Data.Fintype.Card
import Mathlib.Data.Fintype.EquivFin
import Mathlib.Order.WellFounded

/-! # Runs without buffers that do the same

A run with buffers is given, from the start to a point where no store waits.  `Machine.Precedes` lists
which of its events have to come before which others in a run without buffers in which every thread does
the same: threads are created, go on and are joined, they are numbered in the order of their creation,
and accesses follow the edges of the memory graph.  If no event has to come before itself, the operations
of the threads can be executed without buffers in an order that respects this, one after the other
(`Machine.Replays.step`).  The run that results ends with the same threads and the same memory
(`Machine.exists_unbuffered`). -/

namespace Interleave

open Memory

/-- The event comes behind what thread number `t` has done so far: the thread performs it, or it waits for
the end of the thread. -/
def Event.awaits (t : Nat) (e : Event) : Bool := e.proc == .thread t || e.kind == .join t

namespace Machine

/-- Event number `i` has to come before event number `j` in a run without buffers in which every
thread does the same. -/
inductive Precedes (es : List Event) (g : Graph) : Nat → Nat → Prop
  /-- A thread is created, performs its operations in order, and has been waited for. -/
  | thread {i j t : Nat} {e f : Event} (first : es[i]? = some e) (second : es[j]? = some f)
      (lt : i < j) (governs : e.governs t = true) (awaits : f.awaits t = true) : Precedes es g i j
  /-- Threads are numbered in the order of their creation. -/
  | creation {i j : Nat} {e f : Event} (first : es[i]? = some e) (second : es[j]? = some f)
      (lt : i < j) (spawns : e.spawns = true) (spawns' : f.spawns = true) : Precedes es g i j
  /-- The accesses are joined by an edge of the memory graph. -/
  | access {i j v w : Nat} (first : Event.nodeAt es i = some v) (second : Event.nodeAt es j = some w)
      (edge : g.Edge v w) : Precedes es g i j

variable {s : Setup} {m₀ m' m₁' : Machine} {es : List Event} {st : Nat → Machine} {e f : Event}
  {i j q t u v w : Nat} {executed : List Nat} {P : Event → Bool}

/-- The graph that the events tell of. -/
abbrev graphOf (es : List Event) : Graph := (Ledger.ofEvents es).graph

/-- A run from the start to a point where no store waits, in which no event precedes itself. -/
structure Untangled (s : Setup) (m₀ : Machine) (es : List Event) (st : Nat → Machine) : Prop
    extends Course s m₀ es st where
  start : ∃ entry, Machine.start s entry = .ok m₀
  drained : ∀ t, (Ledger.ofEvents es).waiting t = []
  acyclic : ∀ i, ¬ Relation.TransGen (Precedes es (graphOf es)) i i

/-- With each event of the list, those that precede it are in the list. -/
def Closed (es : List Event) (executed : List Nat) : Prop :=
  ∀ i j, Precedes es (graphOf es) i j → j ∈ executed → i ∈ executed

/-- Event number `i` can be executed next. -/
structure Next (es : List Event) (executed : List Nat) (i : Nat) : Prop where
  closed : Closed es executed
  notMem : i ∉ executed
  before : ∀ j, Precedes es (graphOf es) j i → j ∈ executed

theorem Next.closed_concat (h : Next es executed i) : Closed es (executed ++ [i]) := by
  intro j k hjk hk
  rcases List.mem_append.mp hk with hk | hk
  · exact List.mem_append_left _ (h.closed j k hjk hk)
  · rw [List.mem_singleton.mp hk] at hjk
    exact List.mem_append_left _ (h.before j hjk)

theorem Next.not_mem_of_precedes (h : Next es executed i) (hij : Precedes es (graphOf es) i j) :
    j ∉ executed := fun hj => h.notMem (h.closed i j hij hj)

/-! ### Executed events and frontiers -/

/-- The events that the predicate selects precede each other in their order. -/
def Ordered (es : List Event) (P : Event → Bool) : Prop :=
  ∀ i j e f, es[i]? = some e → es[j]? = some f → P e = true → P f = true → i < j →
    Precedes es (graphOf es) i j

theorem Course.ordered_governs (h : Course s m₀ es st) (u : Nat) : Ordered es (Event.governs u) := by
  intro i j e f he hf hgov hgov' hij
  refine .thread he hf hij hgov ?_
  rw [Event.governs, Bool.or_eq_true, beq_iff_eq, beq_iff_eq] at hgov'
  rcases hgov' with hp | hn
  · simp [Event.awaits, hp]
  · exact absurd hn (h.not_spawn_of_governs he hf hij hgov)

theorem ordered_spawns (es : List Event) : Ordered es Event.spawns :=
  fun _ _ _ _ he hf hP hP' hij => .creation he hf hij hP hP'

theorem ordered_thread (es : List Event) (t : Nat) : Ordered es fun e => e.proc == .thread t := by
  intro i j e f he hf hP hP' hij
  have hP : (e.proc == .thread t) = true := hP
  have hP' : (f.proc == .thread t) = true := hP'
  exact .thread (t := t) he hf hij (by simp [Event.governs, hP]) (by simp [Event.awaits, hP'])

theorem Next.frontier (h : Next es executed i) (hP : Ordered es P) (he : es[i]? = some e)
    (hPe : P e = true) : Frontier es P executed i := by
  intro j f hf hPf
  rcases Nat.lt_trichotomy j i with hji | rfl | hij
  · exact iff_of_true (h.before j (hP j i f e hf he hPf hPe hji)) hji
  · exact iff_of_false h.notMem (Nat.lt_irrefl j)
  · exact iff_of_false (h.not_mem_of_precedes (hP i j e f he hf hPe hPf hij)) (by omega)

theorem Frontier.concat (h : Frontier es P executed i) : Frontier es P (executed ++ [i]) (i + 1) := by
  intro j f hf hPf
  rw [List.mem_append, List.mem_singleton, h j f hf hPf]
  omega

/-- The machine agrees on `f` with the points of the run that have the same selected events behind
them. -/
def Tracks {α : Type} (es : List Event) (st : Nat → Machine) (executed : List Nat) (m' : Machine)
    (P : Event → Bool) (f : Machine → α) : Prop :=
  ∀ q ≤ es.length, Frontier es P executed q → f m' = f (st q)

theorem Tracks.concat {α : Type} {f : Machine → α} (h : Course s m₀ es st) (hf : OnlyBy s P f)
    (htracks : Tracks es st executed m' P f) (hi : Next es executed i) (hP : Ordered es P)
    (he : es[i]? = some e) (hother : P e = false → f m₁' = f m')
    (hown : P e = true → f m' = f (st i) → f m₁' = f (st (i + 1))) :
    Tracks es st (executed ++ [i]) m₁' P f := by
  intro q hq hfrontier
  have hlt := (List.getElem?_eq_some_iff.mp he).1
  by_cases hPe : P e = true
  · have hi := hi.frontier hP he hPe
    rw [hown hPe (htracks i (Nat.le_of_lt hlt) hi)]
    exact hi.concat.unique h hf hfrontier hlt hq
  · have hPe : P e = false := by simpa using hPe
    rw [hother hPe]
    refine htracks q hq fun j e' he' hPe' => ?_
    have hne : j ≠ i := by
      rintro rfl
      rw [Option.some.inj (he'.symm.trans he), hPe] at hPe'
      cases hPe'
    rw [← hfrontier j e' he' hPe', List.mem_append, List.mem_singleton]
    simp [hne]

/-! ### Executed stores -/

/-- The node is that of an executed event. -/
def executedNode (es : List Event) (executed : List Nat) (w : Nat) : Bool :=
  executed.any fun i => Event.nodeAt es i == some w

theorem executedNode_iff : executedNode es executed w = true ↔
    ∃ i ∈ executed, Event.nodeAt es i = some w := by
  simp [executedNode]

theorem executedNode_of_nodeAt (hw : Event.nodeAt es i = some w) :
    executedNode es executed w = true ↔ i ∈ executed := by
  rw [executedNode_iff]
  constructor
  · rintro ⟨j, hj, hwj⟩
    rwa [Event.nodeAt_inj hw hwj]
  · exact fun hi => ⟨i, hi, hw⟩

theorem exists_nodeAt_of_edge (hvw : (graphOf es).Edge v w) :
    (∃ i, Event.nodeAt es i = some v) ∧ ∃ j, Event.nodeAt es j = some w := by
  obtain ⟨hv, hw⟩ := (Ledger.sound_ofEvents es).edge_lt hvw
  rw [← Ledger.length_values] at hv hw
  exact ⟨Event.exists_nodeAt hv, Event.exists_nodeAt hw⟩

theorem edge_of_neighbours {a : Addr} (h : (v, w) ∈ Graph.neighbours ((graphOf es).coherence a)) :
    (graphOf es).Edge v w := by
  exact Graph.edge_iff.mpr (.inr (.inl ⟨a, h⟩))

theorem edge_of_communication {n : Node} (hn : (graphOf es).nodes[j]? = some n)
    (h : (v, w) ∈ (graphOf es).communication n j) : (graphOf es).Edge v w := by
  exact Graph.edge_iff.mpr (.inr (.inr ⟨j, n, hn, h⟩))

theorem Closed.downward (h : Closed es executed) (a : Addr) :
    Graph.Downward (executedNode es executed) ((graphOf es).coherence a) := by
  intro v w hvw hw
  obtain ⟨⟨i, hi⟩, j, hj⟩ := exists_nodeAt_of_edge (edge_of_neighbours hvw)
  rw [executedNode_of_nodeAt hj] at hw
  rw [executedNode_of_nodeAt hi]
  exact h i j (.access hi hj (edge_of_neighbours hvw)) hw

theorem Next.executedNode_eq_false (h : Next es executed i) (hi : Event.nodeAt es i = some v)
    (hvw : v ≠ w → (graphOf es).Edge v w) : executedNode es executed w = false := by
  rw [← Bool.not_eq_true]
  intro hw
  by_cases hne : v = w
  · exact h.notMem ((executedNode_of_nodeAt (hne ▸ hi)).mp hw)
  · obtain ⟨-, j, hj⟩ := exists_nodeAt_of_edge (hvw hne)
    exact h.not_mem_of_precedes (.access hi hj (hvw hne)) ((executedNode_of_nodeAt hj).mp hw)

/-- **What an access reads is the last executed store.** -/
theorem Next.getLast?_of_source (h : Next es executed i)
    (hdrained : ∀ t, (Ledger.ofEvents es).waiting t = []) (he : es[i]? = some e)
    (hi : Event.nodeAt es i = some w) {n : Node} {source : Option Nat}
    (hn : (Ledger.ofEvents (es.take i)).node? e = some n) (hs : n.action.source? = some source) :
    (((graphOf es).coherence n.addr).filter (executedNode es executed)).getLast? = source := by
  have hnode := (Event.getElem?_nodes he hi).trans hn
  cases source with
  | none =>
      rw [(h.closed.downward n.addr).filter_eq_nil fun u hu => ?_]
      · rfl
      · refine h.executedNode_eq_false hi fun hne => edge_of_communication hnode ?_
        simp [Graph.communication, hs, hu, Graph.edgeTo, hne.symm]
  | some v =>
      have hvw : v ≠ w := by
        obtain ⟨-, -, -, -, hlen⟩ := Event.nodeAt_eq_some.mp hi
        have hlt := (Ledger.sound_ofEvents (es.take i)).node?_lt hn hs
        rw [← Ledger.length_values, hlen] at hlt
        exact Nat.ne_of_lt hlt
      have hedge : (graphOf es).Edge v w := by
        refine edge_of_communication hnode ?_
        simp [Graph.communication, hs, Graph.edgeTo, hvw.symm]
      refine (h.closed.downward n.addr).getLast?_filter
        (Ledger.mem_coherence hdrained (Ledger.sourced_ofEvents es w n v hnode hs)) ?_ fun u hu => ?_
      · obtain ⟨⟨j, hj⟩, -⟩ := exists_nodeAt_of_edge hedge
        exact (executedNode_of_nodeAt hj).mpr (h.before j (.access hj hi hedge))
      · refine h.executedNode_eq_false hi fun hne => edge_of_communication hnode ?_
        simp [Graph.communication, hs, hu, Graph.edgeTo, hne.symm]

/-- **An access that stores is the last executed store.** -/
theorem Next.getLast?_of_stores (h : Next es executed i) {a : Addr}
    (hacyclic : ¬ Precedes es (graphOf es) i i) (hi : Event.nodeAt es i = some w)
    (hw : w ∈ (graphOf es).coherence a) :
    (((graphOf es).coherence a).filter (executedNode es (executed ++ [i]))).getLast? = some w := by
  refine (h.closed_concat.downward a).getLast?_filter hw
    ((executedNode_of_nodeAt hi).mpr (by simp)) fun u hu => ?_
  have hedge := edge_of_neighbours (Graph.mem_neighbours_of_next? hu)
  obtain ⟨-, j, hj⟩ := exists_nodeAt_of_edge hedge
  have hij : Precedes es (graphOf es) i j := .access hi hj hedge
  rw [← Bool.not_eq_true, executedNode_of_nodeAt hj, List.mem_append, List.mem_singleton]
  rintro (hmem | rfl)
  · exact h.not_mem_of_precedes hij hmem
  · exact hacyclic hij

/-! ### One more event -/

theorem mem_arrivals_iff {x : Int64} {cell : Nat} (hdrained : ∀ t, (Ledger.ofEvents es).waiting t = [])
    (he : es[i]? = some e) (hi : Event.nodeAt es i = some w) (hx : e.value? = some x) :
    w ∈ (graphOf es).arrivals cell ↔ ∃ a, a.toNat = cell + 1 ∧ e.kind.put? = some (a, x) := by
  obtain ⟨n, hn⟩ := Option.isSome_iff_exists.mp
    (((Ledger.ofEvents (es.take i)).isSome_node? e).trans (by simp [hx]))
  have hnode := (Event.getElem?_nodes he hi).trans hn
  have hput : e.kind.put? = if n.action.stores then some (n.addr, x) else none := by
    obtain ⟨proc, site, kind⟩ := e
    cases proc <;> cases kind <;> cases hn <;> cases hx <;> rfl
  have hstores : ∀ a, (graphOf es).storesAt a w = true ↔ e.kind.put? = some (a, x) := by
    intro a
    rw [Graph.storesAt_of_getElem? hnode, hput]
    by_cases hst : n.action.stores = true <;> simp [hst]
  constructor
  · intro hw
    obtain ⟨⟨k, a⟩, hk, hkw⟩ := List.mem_filterMap.mp hw
    simp only [Option.ite_none_right_eq_some, Option.some.injEq] at hkw
    have hmem : w ∈ (graphOf es).coherence a := by
      rw [← Graph.arrivals_eq_coherence _ hkw.1]
      exact hw
    obtain ⟨visible, hvisible⟩ := Ledger.visible_ofEvents es
    rw [hvisible.coherence] at hmem
    exact ⟨a, hkw.1, (hstores a).mp (List.mem_filter.mp hmem).2⟩
  · rintro ⟨a, ha, hput⟩
    rw [Graph.arrivals_eq_coherence _ ha]
    exact Ledger.mem_coherence hdrained ((hstores a).mpr hput)

/-- Without buffers, the executed events lead from `m₀` to `m'`. -/
structure Replays (s : Setup) (m₀ : Machine) (es : List Event) (st : Nat → Machine)
    (executed : List Nat) (m' : Machine) : Prop where
  reach : ∃ qs, m₀.reach s.unbuffered qs = .ok m'
  nodup : executed.Nodup
  lt : ∀ i ∈ executed, i < es.length
  closed : Closed es executed
  alone : ∀ u, Tracks es st executed m' (Event.governs u) fun m => m.alone u
  length : Tracks es st executed m' Event.spawns fun m => m.threads.length
  performed : ∀ t, Tracks es st executed m' (fun e => e.proc == .thread t)
    fun m => Event.performed t m.events
  cells : m'.memory.length = m₀.memory.length
  memory : ∀ cell < m₀.memory.length, m'.read cell = supplied (Event.values es) (m₀.read cell)
    (((graphOf es).arrivals cell).filter (executedNode es executed)).getLast?

theorem Untangled.valued (h : Untangled s m₀ es st) (hi : i ≤ es.length) :
    (st i).Told ∧ Valued m₀ (st i) := by
  obtain ⟨entry, hstart⟩ := h.start
  obtain ⟨th, -, heq⟩ := start_eq_ok hstart
  exact valued_reach (by rw [heq]) (by rw [heq]) (buffers_start hstart) (h.reach i hi)

theorem Replays.buffers (h : Untangled s m₀ es st) (hr : Replays s m₀ es st executed m') :
    ∀ th ∈ m'.threads, th.buffer = [] := by
  obtain ⟨entry, hstart⟩ := h.start
  obtain ⟨qs, hqs⟩ := hr.reach
  exact buffers_reach rfl (buffers_start hstart) hqs

theorem Replays.getElem?_of_alone {th : Thread} (h : Untangled s m₀ es st)
    (hr : Replays s m₀ es st executed m') (hth : m'.alone u = some th) : m'.threads[u]? = some th := by
  obtain ⟨th', hth', rfl⟩ := Option.map_eq_some_iff.mp hth
  rw [hth']
  have hnil := hr.buffers h th' (List.mem_of_getElem? hth')
  obtain ⟨function, pc, regs, finished, buffer⟩ := th'
  cases hnil
  rfl

theorem Replays.done_of_join (h : Untangled s m₀ es st) (hr : Replays s m₀ es st executed m')
    (hi : Next es executed i) (he : es[i]? = some e) (hkind : e.kind = .join u) :
    u < m'.threads.length ∧ (m'.threads[u]?.map Thread.isDone).getD false = true := by
  have hlt := (List.getElem?_eq_some_iff.mp he).1
  obtain ⟨hc, -, -⟩ := h.turn he
  have hdone := hc.isDone_of_join (j := u) (by rw [Event.candidate, hkind]; rfl)
  obtain ⟨th, hth, hfin⟩ : ∃ th, (st i).alone u = some th ∧ th.finished = true := by
    cases hth : (st i).threads[u]? with
    | none => simp [hth] at hdone
    | some th =>
        simp only [hth, Option.map_some, Option.getD_some, Thread.isDone, Bool.and_eq_true] at hdone
        exact ⟨th.withBuffer [], by rw [Machine.alone, hth]; rfl, hdone.1⟩
  -- all that governs the thread precedes the join
  have hfrontier : Frontier es (Event.governs u) executed i := by
    intro j f hf hgov
    by_cases hji : j < i
    · exact iff_of_true (hi.before j (.thread hf he hji hgov (by simp [Event.awaits, hkind]))) hji
    · have hjlt := (List.getElem?_eq_some_iff.mp hf).1
      have hth := h.alone_of_finished (Nat.le_of_not_lt hji) (Nat.le_of_lt hjlt) hth hfin
      rw [governs_of_finished (h.turn hf).1 hth hfin] at hgov
      cases hgov
  have hth' := hr.getElem?_of_alone h ((hr.alone u i (Nat.le_of_lt hlt) hfrontier).trans hth)
  have hnil := hr.buffers h th (List.mem_of_getElem? hth')
  refine ⟨(List.getElem?_eq_some_iff.mp hth').1, ?_⟩
  simp [hth', Thread.isDone, hfin, hnil]

theorem Replays.permits (h : Untangled s m₀ es st) (hr : Replays s m₀ es st executed m')
    (hi : Next es executed i) (he : es[i]? = some e) (hp : e.proc = .thread t) :
    m'.Permits e.kind := by
  have hlt := (List.getElem?_eq_some_iff.mp he).1
  obtain ⟨hc, hturn, hevents⟩ := h.turn he
  obtain ⟨htold, hvalued⟩ := h.valued (Nat.le_of_lt hlt)
  have hst := h.events i (Nat.le_of_lt hlt)
  by_cases hnode : ∃ n source, (Ledger.ofEvents (st i).events).node? e = some n ∧
      n.action.source? = some source
  · -- an access that reads finds the value of its source
    obtain ⟨n, source, hn, hs⟩ := hnode
    refine hvalued.permits htold (h.calm (Nat.le_of_lt hlt)) hc hp hturn hevents hn hs
      (hr.cells.trans hvalued.length.symm) fun cell hcell ha => ?_
    rw [hst] at hn ⊢
    have hsome := (Ledger.ofEvents (es.take i)).isSome_node? e
    rw [hn, Option.isSome_some, eq_comm, Option.isSome_iff_exists] at hsome
    obtain ⟨x, hx⟩ := hsome
    have hw : Event.nodeAt es i = some _ := Event.nodeAt_eq_some.mpr ⟨e, x, he, hx, rfl⟩
    rw [hr.memory cell (hvalued.length ▸ hcell), Graph.arrivals_eq_coherence _ ha,
      hi.getLast?_of_source h.drained he hw hn hs]
    cases source with
    | none => rfl
    | some v =>
        have hv := (Ledger.sound_ofEvents (es.take i)).node?_lt hn hs
        rw [← Ledger.length_values] at hv
        obtain ⟨l, hl⟩ := Event.values_take he hx
        simp only [supplied, ← hl, List.append_assoc, List.getD_eq_getElem?_getD,
          List.getElem?_append_left hv]
  · cases hk : e.kind with
    | spawn n =>
        have hlength := hr.length i (Nat.le_of_lt hlt)
          (hi.frontier (ordered_spawns es) he (Event.spawns_iff.mpr ⟨n, hk⟩))
        exact hlength.trans (h.length_spawn he hk).1.symm
    | join u => exact hr.done_of_join h hi he hk
    | load a v b => exact absurd ⟨_, _, by rw [Ledger.node?, hp, hk], rfl⟩ hnode
    | lock a => exact absurd ⟨_, _, by rw [Ledger.node?, hp, hk], rfl⟩ hnode
    | unlock a => exact absurd ⟨_, _, by rw [Ledger.node?, hp, hk], rfl⟩ hnode
    | _ => trivial

theorem governs_plain (u : Nat) (e : Event) : e.plain.governs u = e.governs u := by
  obtain ⟨proc, site, kind⟩ := e
  cases kind <;> rfl

theorem spawns_plain (e : Event) : e.plain.spawns = e.spawns := by
  obtain ⟨proc, site, kind⟩ := e
  cases kind <;> rfl

/-- The cells behind one more event hold the values of the last executed stores. -/
theorem Replays.memory_concat (h : Untangled s m₀ es st) (hr : Replays s m₀ es st executed m')
    (hi : Next es executed i) (he : es[i]? = some e) (hp : e.proc = .thread t)
    (hmemory : m₁'.memory = ((e.kind.put?.bind fun x => (m'.cell? x.1).map fun cell =>
      m'.memory.set cell x.2)).getD m'.memory) :
    m₁'.memory.length = m₀.memory.length ∧ ∀ cell < m₀.memory.length, m₁'.read cell =
      supplied (Event.values es) (m₀.read cell)
        (((graphOf es).arrivals cell).filter (executedNode es (executed ++ [i]))).getLast? := by
  have hlength : m₁'.memory.length = m'.memory.length := by
    rw [hmemory]
    cases e.kind.put? with
    | none => rfl
    | some x => cases hcell : m'.cell? x.1 <;> simp [hcell]
  refine ⟨hlength.trans hr.cells, fun cell hcell => ?_⟩
  by_cases hput : ∃ a x, a.toNat = cell + 1 ∧ e.kind.put? = some (a, x)
  · -- the event stores into the cell
    obtain ⟨a, x, ha, hput⟩ := hput
    have hx : e.value? = some x := by
      obtain ⟨proc, site, kind⟩ := e
      cases hp
      cases kind <;> cases hput <;> rfl
    have hw : Event.nodeAt es i = some _ := Event.nodeAt_eq_some.mpr ⟨e, x, he, hx, rfl⟩
    have hmem := (mem_arrivals_iff h.drained he hw hx).mpr ⟨a, ha, hput⟩
    have hcell' : m'.cell? a = some cell := by
      rw [cell?, if_pos (by rw [hr.cells]; omega)]
      congr 1
      omega
    rw [Graph.arrivals_eq_coherence _ ha] at hmem ⊢
    rw [hi.getLast?_of_stores (fun hii => h.acyclic i (.single hii)) hw hmem, read, hmemory, hput]
    have hget := Event.getElem?_values he hx hw
    simp [hcell', supplied, hget, hr.cells, hcell]
  · -- the cell and its executed stores stay as they are
    have hread : m₁'.read cell = m'.read cell := by
      rw [read, hmemory, read]
      cases hput' : e.kind.put? with
      | none => rfl
      | some y =>
          cases hcell' : m'.cell? y.1 with
          | none => simp [hcell']
          | some cell' =>
              have hne : cell' ≠ cell := by
                rintro rfl
                simp only [cell?, Option.ite_none_right_eq_some, Option.some.injEq] at hcell'
                exact hput ⟨y.1, y.2, by omega, hput'⟩
              simp [hcell', List.getElem?_set_ne hne]
    rw [hread, hr.memory cell hcell]
    congr 2
    refine List.filter_congr fun w hw => ?_
    rw [Bool.eq_iff_iff, executedNode_iff, executedNode_iff]
    constructor
    · rintro ⟨j, hj, hwj⟩
      exact ⟨j, List.mem_append_left _ hj, hwj⟩
    · rintro ⟨j, hj, hwj⟩
      rcases List.mem_append.mp hj with hj | hj
      · exact ⟨j, hj, hwj⟩
      · rw [List.mem_singleton.mp hj] at hwj
        obtain ⟨f, x, hf, hx, -⟩ := Event.nodeAt_eq_some.mp hwj
        obtain rfl : e = f := Option.some.inj (he.symm.trans hf)
        obtain ⟨a, ha, ha'⟩ := (mem_arrivals_iff h.drained he hwj hx).mp hw
        exact absurd ⟨a, x, ha, ha'⟩ hput

/-- **One more event is executed without buffers.** -/
theorem Replays.step (h : Untangled s m₀ es st) (hr : Replays s m₀ es st executed m')
    (hi : Next es executed i) (he : es[i]? = some e) (hp : e.proc = .thread t) :
    ∃ m₁', Replays s m₀ es st (executed ++ [i]) m₁' := by
  have hlt := (List.getElem?_eq_some_iff.mp he).1
  obtain ⟨hc, hturn, hevents⟩ := h.turn he
  obtain ⟨qs, hqs⟩ := hr.reach
  have hm' := calm_reach hqs
  -- the thread stands at the same place
  obtain ⟨th, hth⟩ : ∃ th, (st i).threads[t]? = some th := by
    have hlt := hc.owner_lt
    rw [show e.candidate.proc = .thread t from hp] at hlt
    exact ⟨_, List.getElem?_eq_getElem hlt⟩
  have halone : (st i).alone t = some (th.withBuffer []) := by rw [Machine.alone, hth]; rfl
  have hgov : e.governs t = true := by simp [Event.governs, hp]
  have hth' := hr.getElem?_of_alone h
    ((hr.alone t i (Nat.le_of_lt hlt) (hi.frontier (h.ordered_governs t) he hgov)).trans halone)
  obtain ⟨m₁', hc', hturn', hrepeats⟩ := exists_turn_unbuffered (h.calm (Nat.le_of_lt hlt)) hc hp hturn
    hevents hth hm' hth' (hr.cells.trans (h.valued (Nat.le_of_lt hlt)).2.length.symm)
    (hr.permits h hi he hp)
  have hother : ∀ {α : Type} {P : Event → Bool} {f : Machine → α}, OnlyBy s.unbuffered P f →
      P e.plain = false → f m₁' = f m' := fun hf =>
    hf m' m₁' e.plain hm' hc' hturn' hrepeats.events
  obtain ⟨hcells, hmemory⟩ := hr.memory_concat h hi he hp hrepeats.memory
  refine ⟨m₁', ⟨qs ++ [e.proc], ?_⟩, ?_, ?_, hi.closed_concat, fun u => ?_, ?_, fun u => ?_, hcells,
    hmemory⟩
  · exact (reach_concat (c := e.plain.candidate) hqs hc').trans hturn'
  · rw [List.nodup_append]
    refine ⟨hr.nodup, List.nodup_singleton _, fun j hj k hk => ?_⟩
    rw [List.mem_singleton.mp hk]
    rintro rfl
    exact hi.notMem hj
  · intro j hj
    rcases List.mem_append.mp hj with hj | hj
    · exact hr.lt j hj
    · rwa [List.mem_singleton.mp hj]
  · refine (hr.alone u).concat h.toCourse (onlyBy_alone s u) hi (h.ordered_governs u) he
      (fun hP => hother (onlyBy_alone s.unbuffered u) ?_) fun hP _ => hrepeats.governed u hP
    rw [governs_plain, hP]
  · refine hr.length.concat h.toCourse (onlyBy_length s) hi (ordered_spawns es) he
      (fun hP => hother (onlyBy_length s.unbuffered) ?_) fun hP _ => ?_
    · rw [spawns_plain, hP]
    · obtain ⟨n, hn⟩ := Event.spawns_iff.mp hP
      have hplain : e.plain.kind = .spawn n := by rw [Event.plain, hn]; rfl
      exact (length_of_spawn hm' hc' hturn' hplain).2.trans (h.length_spawn he hn).2.symm
  · refine (hr.performed u).concat h.toCourse (onlyBy_performed s u) hi (ordered_thread es u) he
      (hother (onlyBy_performed s.unbuffered u)) fun hP hst => ?_
    have hplain : e.plain.kind.plain = e.kind.plain := by
      obtain ⟨proc, site, kind⟩ := e
      cases kind <;> rfl
    show Event.performed u m₁'.events = Event.performed u (st (i + 1)).events
    rw [hrepeats.events, hevents, Event.performed_concat, Event.performed_concat, hst, hplain]
    rfl

/-! ### All events -/

theorem rest_unbuffered {m m₁ : Machine} (h : m.rest s = .ok m₁) :
    ∃ log, m.rest s.unbuffered = .ok { m₁ with log } := by
  have hran : m.ran s.unbuffered = m.ran s := by simp only [ran, runLocal_unbuffered]
  have hfaults : m.faults s.unbuffered = m.faults s := by
    simp only [faults, hran, runLocal_unbuffered]
    rfl
  obtain ⟨hnil, log, rfl⟩ := rest_eq_ok h
  rcases rest_eq s.unbuffered m with ⟨why, hwhy, -⟩ | ⟨-, log', hrest⟩
  · rw [hfaults, hnil] at hwhy
    cases hwhy
  · rw [hran] at hrest
    exact ⟨log', hrest⟩

theorem Untangled.replays_nil (h : Untangled s m₀ es st) : ∃ m', Replays s m₀ es st [] m' := by
  have hreach := h.reach 0 (Nat.zero_le _)
  rw [List.take_zero, List.map_nil, reach_nil] at hreach
  obtain ⟨log, hlog⟩ := rest_unbuffered hreach
  have htracks : ∀ {α : Type} {P : Event → Bool} {f : Machine → α}, OnlyBy s P f →
      f { st 0 with log } = f (st 0) → Tracks es st [] { st 0 with log } P f := by
    intro α P f hf hst q hq hfrontier
    rw [hst]
    exact Frontier.unique h.toCourse hf (fun _ _ _ _ => by simp) hfrontier (Nat.zero_le _) hq
  obtain ⟨htold, hvalued⟩ := h.valued (Nat.zero_le _)
  refine ⟨{ st 0 with log }, ⟨[], ?_⟩, List.nodup_nil, by simp, ?_, fun u => htracks (onlyBy_alone s u) rfl,
    htracks (onlyBy_length s) rfl, fun t => htracks (onlyBy_performed s t) rfl, hvalued.length, ?_⟩
  · exact (reach_nil _ _).trans hlog
  · intro i j _ hj
    cases hj
  · intro cell hcell
    show (st 0).read cell = _
    rw [hvalued.memory cell (hvalued.length ▸ hcell), htold.graph, h.events 0 (Nat.zero_le _)]
    have hnil : ∀ l : List Nat, l.filter (executedNode es []) = [] :=
      fun l => List.filter_eq_nil_iff.mpr fun w _ => by simp [executedNode]
    rw [hnil]
    rfl

theorem Course.thread_of_governs (h : Course s m₀ es st) (he : es[i]? = some e)
    (hgov : e.governs u = true) : ∃ t, e.proc = .thread t := by
  rw [Event.governs, Bool.or_eq_true, beq_iff_eq, beq_iff_eq] at hgov
  rcases hgov with hp | hn
  · exact ⟨u, hp⟩
  · obtain ⟨-, t, ht, -⟩ := (h.turn he).1.of_spawn (access_eq_spawn.mpr hn)
    exact ⟨t, ht⟩

theorem Course.thread_of_spawns (h : Course s m₀ es st) (he : es[i]? = some e)
    (hspawns : e.spawns = true) : ∃ t, e.proc = .thread t := by
  obtain ⟨n, hn⟩ := Event.spawns_iff.mp hspawns
  exact h.thread_of_governs (u := n) he (by simp [Event.governs, hn])

theorem thread_of_nodeAt (hi : Event.nodeAt es i = some w) :
    ∃ e t, es[i]? = some e ∧ e.proc = .thread t := by
  obtain ⟨⟨proc, site, kind⟩, x, he, hx, -⟩ := Event.nodeAt_eq_some.mp hi
  cases proc with
  | thread t => exact ⟨_, t, he, rfl⟩
  | flush t => cases kind <;> cases hx

theorem Course.thread_of_precedes {g : Graph} (h : Course s m₀ es st) (hij : Precedes es g i j) :
    ∃ e t, es[i]? = some e ∧ e.proc = .thread t := by
  cases hij with
  | thread he _ _ hgov _ =>
      obtain ⟨t, ht⟩ := h.thread_of_governs he hgov
      exact ⟨_, t, he, ht⟩
  | creation he _ _ hspawns _ =>
      obtain ⟨t, ht⟩ := h.thread_of_spawns he hspawns
      exact ⟨_, t, he, ht⟩
  | access hv _ _ => exact thread_of_nodeAt hv

/-- All operations of threads have been executed. -/
def Exhausts (es : List Event) (executed : List Nat) : Prop :=
  ∀ i e t, es[i]? = some e → e.proc = .thread t → i ∈ executed

/-- As long as an operation is missing, one can be executed next. -/
theorem Untangled.exists_next (h : Untangled s m₀ es st) (hr : Replays s m₀ es st executed m')
    (hmissing : ¬ Exhausts es executed) :
    ∃ i e t, Next es executed i ∧ es[i]? = some e ∧ e.proc = .thread t := by
  let before (i j : Fin es.length) : Prop := Relation.TransGen (Precedes es (graphOf es)) i j
  have : IsTrans (Fin es.length) before := ⟨fun _ _ _ => Relation.TransGen.trans⟩
  have : Std.Irrefl before := ⟨fun i => h.acyclic i⟩
  -- an operation that is missing and that no other missing one precedes
  obtain ⟨i, ⟨⟨e, t, he, hp⟩, hi⟩, hmin⟩ := (Finite.wellFounded_of_trans_of_irrefl before).has_min
    { i | (∃ e t, es[i.1]? = some e ∧ e.proc = .thread t) ∧ i.1 ∉ executed } <| by
      by_contra hempty
      rw [Set.not_nonempty_iff_eq_empty, Set.eq_empty_iff_forall_notMem] at hempty
      refine hmissing fun i e t he hp => ?_
      by_contra hi
      exact hempty ⟨i, (List.getElem?_eq_some_iff.mp he).1⟩ ⟨⟨e, t, he, hp⟩, hi⟩
  refine ⟨i, e, t, ⟨hr.closed, hi, fun j hj => ?_⟩, he, hp⟩
  by_contra hmem
  obtain ⟨f, u, hf, hfp⟩ := h.thread_of_precedes hj
  exact hmin ⟨j, (List.getElem?_eq_some_iff.mp hf).1⟩ ⟨⟨f, u, hf, hfp⟩, hmem⟩ (.single hj)

/-- **All operations can be executed without buffers.** -/
theorem Untangled.exists_exhausts (h : Untangled s m₀ es st) :
    ∃ executed m', Replays s m₀ es st executed m' ∧ Exhausts es executed := by
  have hrun : ∀ k, ∃ executed m', Replays s m₀ es st executed m' ∧
      (executed.length = k ∨ Exhausts es executed) := by
    intro k
    induction k with
    | zero =>
        obtain ⟨m', hr⟩ := h.replays_nil
        exact ⟨[], m', hr, .inl rfl⟩
    | succ k ih =>
        obtain ⟨executed, m', hr, hk⟩ := ih
        by_cases hall : Exhausts es executed
        · exact ⟨executed, m', hr, .inr hall⟩
        · obtain ⟨i, e, t, hi, he, hp⟩ := h.exists_next hr hall
          obtain ⟨m₁', hr'⟩ := hr.step h hi he hp
          exact ⟨_, m₁', hr', .inl (by simp [hk.resolve_right hall])⟩
  obtain ⟨executed, m', hr, hlength | hall⟩ := hrun (es.length + 1)
  · -- there are not that many events
    have hsub : executed ⊆ List.range es.length := fun i hi => List.mem_range.mpr (hr.lt i hi)
    have hle := (hr.nodup.subperm hsub).length_le
    rw [List.length_range] at hle
    omega
  · exact ⟨executed, m', hr, hall⟩

theorem Exhausts.frontier (h : Exhausts es executed)
    (hP : ∀ (i : Nat) e, es[i]? = some e → P e = true → ∃ t, e.proc = .thread t) :
    Frontier es P executed es.length := by
  intro j e he hPe
  obtain ⟨t, ht⟩ := hP j e he hPe
  exact iff_of_true (h j e t he ht) (List.getElem?_eq_some_iff.mp he).1

/-- **The end of the run without buffers is that of the run with them.** -/
theorem Replays.eq_of_exhausts (h : Untangled s m₀ es st) (hr : Replays s m₀ es st executed m')
    (hall : Exhausts es executed) : (∀ u, m'.alone u = (st es.length).alone u) ∧
      (∀ t, Event.performed t m'.events = Event.performed t (st es.length).events) ∧
      m'.memory = (st es.length).memory := by
  obtain ⟨htold, hvalued⟩ := h.valued le_rfl
  have hevents : (st es.length).events = es := by rw [h.events _ le_rfl, List.take_length]
  have hgraph : (st es.length).graph = graphOf es := by rw [htold.graph, hevents]
  refine ⟨fun u => ?_, fun t => ?_, ?_⟩
  · exact hr.alone u _ le_rfl (hall.frontier fun i e he => h.thread_of_governs he)
  · exact hr.performed t _ le_rfl (hall.frontier fun i e _ hp => ⟨t, by simpa using hp⟩)
  · -- every store that has reached a cell has been executed
    have hfilter : ∀ cell, ((graphOf es).arrivals cell).filter (executedNode es executed) =
        (graphOf es).arrivals cell := by
      intro cell
      refine List.filter_eq_self.mpr fun w hw => ?_
      rw [← hgraph] at hw
      have hlt := arrivals_lt htold hw
      rw [hevents] at hlt
      obtain ⟨i, hi⟩ := Event.exists_nodeAt hlt
      obtain ⟨e, t, he, hp⟩ := thread_of_nodeAt hi
      exact (executedNode_of_nodeAt hi).mpr (hall i e t he hp)
    refine List.ext_getElem (hr.cells.trans hvalued.length.symm) fun cell hcell hcell' => ?_
    have hread := hr.memory cell (hr.cells ▸ hcell)
    have hread' := hvalued.memory cell hcell'
    rw [hfilter] at hread
    rw [hgraph, hevents] at hread'
    simpa [read, hcell, hcell'] using hread.trans hread'.symm

theorem waiting_of_buffer {m : Machine} {u : Nat} (h : m.Told)
    (hempty : ∀ th, m.threads[u]? = some th → th.buffer = []) :
    (Ledger.ofEvents m.events).waiting u = [] := by
  rw [h.waiting, List.map_eq_nil_iff, Thread.bufferAt]
  cases hth : m.threads[u]? with
  | none => rfl
  | some th => simp [hempty th hth]

theorem waiting_of_isDone {m : Machine} (h : m.Told) (hdone : m.isDone = true) (t : Nat) :
    (Ledger.ofEvents m.events).waiting t = [] := by
  refine waiting_of_buffer h fun th hth => ?_
  have := List.all_eq_true.mp hdone th (List.mem_of_getElem? hth)
  simpa [Thread.isDone] using (Bool.and_eq_true_iff.mp this).2

theorem Replays.isDone (h : Untangled s m₀ es st) (hr : Replays s m₀ es st executed m')
    (halone : ∀ u, m'.alone u = (st es.length).alone u) (hdone : (st es.length).isDone = true) :
    m'.isDone = true := by
  refine List.all_eq_true.mpr fun th hth => ?_
  obtain ⟨u, hu⟩ := List.mem_iff_getElem?.mp hth
  have hth' := halone u
  rw [Machine.alone, hu, Option.map_some, eq_comm, Machine.alone, Option.map_eq_some_iff] at hth'
  obtain ⟨th', hu', heq⟩ := hth'
  have hfin := List.all_eq_true.mp hdone th' (List.mem_of_getElem? hu')
  have hsame : (th'.withBuffer []).finished = (th.withBuffer []).finished := by rw [heq]
  have hsame : th'.finished = th.finished := hsame
  rw [Thread.isDone, Bool.and_eq_true, hsame] at hfin
  simp [Thread.isDone, hfin.1, hr.buffers h th hth]

/-- **A run in which no event has to come before itself has a counterpart without buffers**: it comes to
its end without error, every thread performs the same operations at the same sites and loads the same
values, and memory is the same in the end. -/
theorem exists_unbuffered {m : Machine} {entry : Nat} {ps : List Proc} (hstart : start s entry = .ok m₀)
    (hreach : m₀.reach s ps = .ok m) (hdone : m.isDone = true)
    (hacyclic : ∀ i, ¬ Relation.TransGen (Precedes m.events m.graph) i i) :
    ∃ qs m', m₀.reach s.unbuffered qs = .ok m' ∧ m'.isDone = true ∧ m'.errors = [] ∧
      m'.memory = m.memory ∧ ∀ t, Event.performed t m'.events = Event.performed t m.events := by
  obtain ⟨th, -, hm₀⟩ := start_eq_ok hstart
  have htold := told_reach (told_start hstart) hreach
  obtain ⟨st, hst, hlast⟩ := exists_course (by rw [hm₀]) hreach
  have h : Untangled s m₀ m.events st :=
    ⟨hst, ⟨entry, hstart⟩, waiting_of_isDone htold hdone, by rwa [htold.graph] at hacyclic⟩
  obtain ⟨executed, m', hr, hall⟩ := h.exists_exhausts
  obtain ⟨halone, hperformed, hmemory⟩ := hr.eq_of_exhausts h hall
  have hdone' := hr.isDone h halone (by rwa [hlast])
  rw [hlast] at hperformed hmemory
  obtain ⟨qs, hqs⟩ := hr.reach
  exact ⟨qs, m', hqs, hdone', by rw [(procs_events_reach hqs).2, hm₀], hmemory, hperformed⟩

end Machine

end Interleave
