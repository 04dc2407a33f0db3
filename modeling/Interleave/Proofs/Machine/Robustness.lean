import Interleave.Proofs.Machine.Behaviour
import Interleave.Proofs.Memory.Ledger

/-! # The memory graph of a run

At every scheduling point the memory graph of the machine is the one that its events tell of
(`Machine.Told`).  So runs whose events differ by swaps of independent neighbours agree on whether
their memory graph has a cycle (`Machine.findCycle_of_swaps`). -/

namespace Interleave

open Memory

namespace Thread

/-- The stores that wait in the buffer of thread number `t`. -/
def bufferAt (ths : List Thread) (t : Nat) : List Pending := (ths[t]?.map buffer).getD []

variable {ths : List Thread} {th : Thread} {t : Nat}

theorem bufferAt_of_getElem? (h : ths[t]? = some th) : bufferAt ths t = th.buffer := by
  rw [bufferAt, h]
  rfl

theorem bufferAt_modify (f : Thread → Thread) (hf : ∀ th, (f th).buffer = th.buffer) (u : Nat) :
    bufferAt (ths.modify t f) u = bufferAt ths u := by
  unfold bufferAt
  rw [List.getElem?_modify]
  cases ths[u]? with
  | none => rfl
  | some th =>
      simp only [Option.map_some, Option.getD_some]
      split
      · exact hf th
      · rfl

theorem bufferAt_set (h : ths[t]? = some th) (th' : Thread) (u : Nat) :
    bufferAt (ths.set t th') u = if t = u then th'.buffer else bufferAt ths u := by
  unfold bufferAt
  rw [List.getElem?_set]
  split
  · subst_vars
    have hlt := (List.getElem?_eq_some_iff.mp h).1
    simp [hlt]
  · rfl

theorem bufferAt_concat {new : Thread} (h : new.buffer = []) (u : Nat) :
    bufferAt (ths ++ [new]) u = bufferAt ths u := by
  unfold bufferAt
  rcases Nat.lt_trichotomy u ths.length with hlt | rfl | hgt
  · rw [List.getElem?_append_left hlt]
  · simp [h]
  · rw [List.getElem?_eq_none (by simp; omega), List.getElem?_eq_none (by omega)]

end Thread

namespace Machine

/-- Address and node of a waiting store. -/
def entry (b : Pending) : Addr × Nat := (b.addr, b.node)

/-- The memory graph and the waiting stores are those that the events tell of. -/
structure Told (m : Machine) : Prop where
  graph : m.graph = (Ledger.ofEvents m.events).graph
  waiting : ∀ t, (Ledger.ofEvents m.events).waiting t = (Thread.bufferAt m.threads t).map entry
  addr : ∀ t, ∀ b ∈ Thread.bufferAt m.threads t,
    (m.graph.nodes[b.node]?).map Node.addr = some b.addr

variable {s : Setup} {m m' : Machine} {t : Nat} {th : Thread}

theorem Told.newest (h : m.Told) (hth : m.threads[t]? = some th) (a : Addr) :
    (Ledger.ofEvents m.events).newest t a = (th.forwarded a).map Pending.node := by
  rw [Ledger.newest, h.waiting, Thread.bufferAt_of_getElem? hth, ← List.map_reverse, List.find?_map,
    Option.map_map]
  rfl

theorem Told.concat {e : Event} (h : m.Told) (hevents : m'.events = m.events ++ [e])
    (hgraph : m'.graph = ((Ledger.ofEvents m.events).record e).graph)
    (hwaiting : ∀ u, (Ledger.ofEvents m.events).waitingBehind e u =
      (Thread.bufferAt m'.threads u).map entry)
    (haddr : ∀ u, ∀ b ∈ Thread.bufferAt m'.threads u, b ∈ Thread.bufferAt m.threads u ∨
      (m'.graph.nodes[b.node]?).map Node.addr = some b.addr) : m'.Told := by
  have hofEvents : Ledger.ofEvents m'.events = (Ledger.ofEvents m.events).record e := by
    rw [hevents, Ledger.ofEvents_append]
    rfl
  refine ⟨?_, ?_, ?_⟩
  · rw [hofEvents, hgraph]
  · rw [hofEvents]
    exact hwaiting
  · intro u b hb
    rcases haddr u b hb with hb | hb
    · obtain ⟨n, hn, hna⟩ := Option.map_eq_some_iff.mp (h.addr u b hb)
      rw [hgraph, Ledger.nodes_record, ← h.graph,
        List.getElem?_append_left (List.getElem?_eq_some_iff.mp hn).1, hn, Option.map_some, hna]
    · exact hb

theorem Told.concat_quiet {e : Event} (h : m.Told) (hevents : m'.events = m.events ++ [e])
    (hgraph : m'.graph = m.graph)
    (hbuffer : ∀ u, Thread.bufferAt m'.threads u = Thread.bufferAt m.threads u)
    (hnode : (Ledger.ofEvents m.events).node? e = none)
    (hcommit : (Ledger.ofEvents m.events).commit? e = none)
    (hwaiting : ∀ u, (Ledger.ofEvents m.events).waitingBehind e u =
      (Ledger.ofEvents m.events).waiting u) : m'.Told := by
  refine h.concat hevents ?_ ?_ ?_
  · rw [hgraph, h.graph, Ledger.record, hnode, hcommit]
    simp
  · intro u
    rw [hwaiting, h.waiting, hbuffer]
  · intro u b hb
    rw [hbuffer] at hb
    exact .inl hb

theorem bufferAt_withReg (hth : m.threads[t]? = some th) (d : Reg) (v : Int64) (u : Nat) :
    Thread.bufferAt (m.threads.set t (th.withReg d v)) u = Thread.bufferAt m.threads u := by
  rw [Thread.bufferAt_set hth]
  split
  · subst_vars
    rw [Thread.bufferAt_of_getElem? hth]
    rfl
  · rfl

theorem Told.read (h : m.Told) (hth : m.threads[t]? = some th) {a : Addr} {v : Int64} {b : Bool}
    {site : Site} (hevents : m'.events = m.events ++ [⟨.thread t, site, .load a v b⟩])
    (hgraph : m'.graph = m.graph.read t a ((th.forwarded a).map Pending.node))
    (hbuffer : ∀ u, Thread.bufferAt m'.threads u = Thread.bufferAt m.threads u) : m'.Told := by
  refine h.concat hevents ?_ ?_ ?_
  · rw [hgraph, Ledger.record, ← h.graph]
    simp [Graph.read, Graph.push, Ledger.node?, Ledger.commit?, h.newest hth, ← h.graph]
  · intro u
    rw [hbuffer, ← h.waiting]
    simp [Ledger.waitingBehind]
  · intro u b hb
    rw [hbuffer] at hb
    exact .inl hb

theorem Told.commit (h : m.Told) {a : Addr} {site : Site} {kind : EventKind} {n : Node}
    (hevents : m'.events = m.events ++ [⟨.thread t, site, kind⟩])
    (hgraph : m'.graph = (m.graph.push n).commit m.graph.nodes.length)
    (hbuffer : ∀ u, Thread.bufferAt m'.threads u = Thread.bufferAt m.threads u)
    (haddr : n.addr = a)
    (hnode : (Ledger.ofEvents m.events).node? ⟨.thread t, site, kind⟩ = some n)
    (hcommit : (Ledger.ofEvents m.events).commit? ⟨.thread t, site, kind⟩ =
      some (m.graph.nodes.length, a))
    (hwaiting : ∀ u, (Ledger.ofEvents m.events).waitingBehind ⟨.thread t, site, kind⟩ u =
      (Ledger.ofEvents m.events).waiting u) : m'.Told := by
  refine h.concat hevents ?_ ?_ ?_
  · rw [hgraph, Ledger.record, hnode, hcommit, ← h.graph]
    simp [Graph.push, Graph.commit, haddr]
  · intro u
    rw [hwaiting, h.waiting, hbuffer]
  · intro u b hb
    rw [hbuffer] at hb
    exact .inl hb

theorem Told.enqueue (h : m.Told) (hth : m.threads[t]? = some th) {a : Addr} {v : Int64}
    {site : Site} (hevents : m'.events = m.events ++ [⟨.thread t, site, .enqueue a v⟩])
    (hgraph : m'.graph = m.graph.write t a)
    (hbuffer : ∀ u, Thread.bufferAt m'.threads u =
      if t = u then th.buffer ++ [⟨a, v, m.graph.nodes.length, site⟩]
      else Thread.bufferAt m.threads u) : m'.Told := by
  refine h.concat hevents ?_ ?_ ?_
  · rw [hgraph, Ledger.record, ← h.graph]
    simp [Graph.write, Graph.push, Ledger.node?, Ledger.commit?]
  · intro u
    rw [hbuffer]
    by_cases hu : t = u
    · subst hu
      simp [Ledger.waitingBehind, Proc.owner, h.waiting, Thread.bufferAt_of_getElem? hth, entry,
        ← h.graph]
    · simp [Ledger.waitingBehind, Proc.owner, hu, h.waiting]
  · intro u b hb
    rw [hbuffer] at hb
    split at hb
    · subst_vars
      rcases List.mem_append.mp hb with hb | hb
      · rw [← Thread.bufferAt_of_getElem? hth] at hb
        exact .inl hb
      · rw [List.mem_singleton.mp hb, hgraph]
        exact .inr (by simp [Graph.write])
    · exact .inl hb

theorem bufferAt_passed (site : Site) (x : Machine × EventKind) (u : Nat) :
    Thread.bufferAt (passed t site x).threads u = Thread.bufferAt x.1.threads u :=
  Thread.bufferAt_modify Thread.next (fun _ => rfl) u

/-- The graph stays the one that the events tell of when a thread performs an operation. -/
theorem Told.passed (h : m.Told) (hth : m.threads[t]? = some th) {site : Site} {op : Operation}
    {x : Machine × EventKind} (hx : m.perform s t th site op = .ok x) : (passed t site x).Told := by
  have hlength : (Ledger.ofEvents m.events).graph.nodes.length = m.graph.nodes.length := by
    rw [h.graph]
  have hbuffer := bufferAt_passed (t := t) site
  obtain ⟨k, hk⟩ := succeeds_of_perform hx
  cases hk with
  | load hcell hd hv =>
      exact h.read hth rfl rfl fun u => (hbuffer _ u).trans (bufferAt_withReg hth _ _ u)
  | enqueue hs hcell hv =>
      exact h.enqueue hth rfl rfl fun u => (hbuffer _ u).trans (Thread.bufferAt_set hth _ u)
  | store hs hcell hv =>
      exact h.commit rfl rfl (hbuffer _) rfl rfl (by simp [Ledger.commit?, hlength])
        fun u => by simp [Ledger.waitingBehind]
  | fence => exact h.concat_quiet rfl rfl (hbuffer _) rfl rfl fun u => by simp [Ledger.waitingBehind]
  | spawn hd hnew =>
      refine h.concat_quiet rfl rfl (fun u => ?_) rfl rfl fun u => by simp [Ledger.waitingBehind]
      rw [hbuffer, Thread.bufferAt_concat (Thread.buffer_start hnew), bufferAt_withReg hth]
  | join hc => exact h.concat_quiet rfl rfl (hbuffer _) rfl rfl fun u => by simp [Ledger.waitingBehind]
  | lock hcell =>
      exact h.commit rfl rfl (hbuffer _) rfl (by simp [Ledger.node?, ← h.graph])
        (by simp [Ledger.commit?, hlength]) fun u => by simp [Ledger.waitingBehind]
  | unlock hcell hlocked =>
      exact h.commit rfl rfl (hbuffer _) rfl (by simp [Ledger.node?, ← h.graph])
        (by simp [Ledger.commit?, hlength]) fun u => by simp [Ledger.waitingBehind]

theorem Told.step {p : Proc} (h : m.Told) (hstep : m.step s p = .ok m') : m'.Told := by
  rcases step_cases hstep with rfl | ⟨t, th, site, op, x, hth, hx, rfl⟩ |
    ⟨t, th, b, rest, hth, hb, hthreads, hgraph, hevents, -, -⟩
  · exact h
  · exact h.passed hth hx
  · have hbuffer : Thread.bufferAt m.threads t = b :: rest := by
      rw [Thread.bufferAt_of_getElem? hth, hb]
    have hwaiting : (Ledger.ofEvents m.events).waiting t = entry b :: rest.map entry := by
      rw [h.waiting, hbuffer, List.map_cons]
    have hcommit : (Ledger.ofEvents m.events).commit?
        ⟨.flush t, b.site, .store b.addr b.value⟩ = some (b.node, b.addr) := by
      simp [Ledger.commit?, hwaiting, entry, Option.filter]
    have hbehind : ∀ u, Thread.bufferAt m'.threads u =
        if t = u then rest else Thread.bufferAt m.threads u := by
      intro u
      rw [hthreads]
      exact Thread.bufferAt_set hth _ u
    obtain ⟨n, hn, hna⟩ := Option.map_eq_some_iff.mp (h.addr t b (by simp [hbuffer]))
    refine h.concat hevents ?_ ?_ ?_
    · rw [hgraph, Ledger.record, hcommit, ← h.graph]
      simp [Graph.commit, hn, hna, Ledger.node?]
    · intro u
      rw [hbehind]
      by_cases hu : t = u
      · subst hu
        simp [Ledger.waitingBehind, Proc.owner, hcommit, hwaiting]
      · simp [Ledger.waitingBehind, Proc.owner, hu, h.waiting]
    · intro u b' hb'
      rw [hbehind] at hb'
      split at hb'
      · subst_vars
        rw [hbuffer]
        exact .inl (List.mem_cons_of_mem _ hb')
      · exact .inl hb'

theorem bufferAt_ran (s : Setup) (m : Machine) (u : Nat) :
    Thread.bufferAt (m.ran s) u = Thread.bufferAt m.threads u := by
  unfold Thread.bufferAt ran
  rw [List.getElem?_map, List.getElem?_zipIdx]
  cases m.threads[u]? with
  | none => rfl
  | some th => exact buffer_runLocal s _ th

theorem Told.rest (h : m.Told) (hrest : m.rest s = .ok m') : m'.Told := by
  obtain ⟨-, log, rfl⟩ := rest_eq_ok hrest
  refine ⟨h.graph, fun t => ?_, fun t b hb => ?_⟩
  · rw [bufferAt_ran]
    exact h.waiting t
  · rw [bufferAt_ran] at hb
    exact h.addr t b hb

theorem told_reach {ps : List Proc} (h : m.Told) (hreach : m.reach s ps = .ok m') : m'.Told := by
  refine (reach_invariant (P := Told) (fun m₁ hrest => h.rest hrest) ?_ hreach).2
  intro m₁ m₂ c _ htold _ hturn
  unfold turn at hturn
  cases hstep : m₁.step s c.proc with
  | error why => simp [hstep] at hturn
  | ok m₁' =>
      rw [hstep] at hturn
      exact (htold.step hstep).rest hturn

theorem told_of_start (hevents : m.events = []) (hgraph : m.graph = .empty)
    (hempty : ∀ th ∈ m.threads, th.buffer = []) : m.Told := by
  have hbuffer : ∀ t, Thread.bufferAt m.threads t = [] := by
    intro t
    unfold Thread.bufferAt
    cases hth : m.threads[t]? with
    | none => rfl
    | some th => exact hempty th (List.mem_of_getElem? hth)
  refine ⟨?_, fun t => ?_, fun t b hb => ?_⟩
  · rw [hevents, hgraph]
    rfl
  · rw [hevents, hbuffer]
    rfl
  · rw [hbuffer] at hb
    cases hb

/-! ### Swapped events -/

theorem Told.findCycle_eq_none_iff (h : m.Told) :
    m.graph.findCycle = none ↔
      ∀ i, ¬ Relation.TransGen (Ledger.ofEvents m.events).graph.Edge i i := by
  rw [h.graph]
  exact Graph.findCycle_eq_none_iff fun i j hij => (Ledger.sound_ofEvents _).edge_lt hij

/-- **Events that differ by swaps agree on whether there is a cycle.** -/
theorem Told.findCycle_of_swaps (h : m.Told) (h' : m'.Told)
    (hswaps : Relation.ReflTransGen Event.Swaps m.events m'.events) :
    m.graph.findCycle = none ↔ m'.graph.findCycle = none := by
  rw [h.findCycle_eq_none_iff, h'.findCycle_eq_none_iff]
  generalize m.events = es, m'.events = es' at hswaps
  induction hswaps with
  | refl => exact Iff.rfl
  | tail _ hswap ih =>
      rw [ih]
      obtain ⟨u, v, hi⟩ := hswap
      constructor
      · intro hnone i hi'
        obtain ⟨j, hj⟩ :=
          Ledger.transGen_of_swap u v (Candidate.dependent_comm_false hi) hi'
        exact hnone j hj
      · intro hnone i hi'
        obtain ⟨j, hj⟩ := Ledger.transGen_of_swap u v hi hi'
        exact hnone j hj

end Machine

end Interleave
