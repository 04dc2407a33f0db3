import Interleave.Proofs.Machine.Visits
import Interleave.Proofs.Memory.Position

/-! # The values that a run leaves in memory

Every node of the memory graph has a value (`Event.values`).  At every scheduling point a cell of memory
holds the value of the last store that reached it, and a waiting store has the value of its node
(`Machine.Valued`). -/

namespace Interleave

open Memory

namespace Memory

/-- The stores that reached a cell, in this order. -/
def Graph.arrivals (g : Graph) (cell : Nat) : List Nat :=
  g.commits.filterMap fun (i, a) => if a.toNat = cell + 1 then some i else none

theorem Graph.arrivals_eq_coherence (g : Graph) {a : Addr} {cell : Nat} (h : a.toNat = cell + 1) :
    g.arrivals cell = g.coherence a := by
  unfold arrivals coherence
  refine List.filterMap_congr fun x _ => ?_
  have hiff : x.2.toNat = cell + 1 ↔ x.2 = a := by rw [← h, UInt64.toNat_inj]
  simp only [hiff]

theorem Graph.commits_commit_push (g : Graph) (n : Node) :
    ((g.push n).commit g.nodes.length).commits = g.commits ++ [(g.nodes.length, n.addr)] := by
  simp [commit, push]

end Memory

namespace Machine

variable {s : Setup} {m₀ m m' : Machine} {t : Nat} {th : Thread} {e : Event}

/-- The value of a source: that of the store, or the initial one. -/
def supplied (values : List Int64) (initial : Int64) : Option Nat → Int64
  | some w => values.getD w 0
  | none => initial

/-- Cells and waiting stores have the values of their stores; cells that no store has reached have
those of `m₀`. -/
structure Valued (m₀ m : Machine) : Prop where
  length : m.memory.length = m₀.memory.length
  buffer : ∀ t, ∀ b ∈ Thread.bufferAt m.threads t, (Event.values m.events)[b.node]? = some b.value
  memory : ∀ cell < m.memory.length, m.read cell =
    supplied (Event.values m.events) (m₀.read cell) (m.graph.arrivals cell).getLast?

/-! ### One more event -/

theorem length_nodes (h : m.Told) : m.graph.nodes.length = (Event.values m.events).length := by
  rw [Ledger.length_values, ← h.graph]

theorem arrivals_lt (h : m.Told) {cell i : Nat} (hi : i ∈ m.graph.arrivals cell) :
    i < (Event.values m.events).length := by
  obtain ⟨⟨k, a⟩, hk, hki⟩ := List.mem_filterMap.mp hi
  simp only [Option.ite_none_right_eq_some, Option.some.injEq] at hki
  rw [← hki.2, ← length_nodes h, h.graph]
  exact (Ledger.sound_ofEvents m.events).commits _ (h.graph ▸ hk)

theorem supplied_of_lt {values : List Int64} {source : Option Nat}
    (h : ∀ w, source = some w → w < values.length) (initial : Int64) (more : List Int64) :
    supplied (values ++ more) initial source = supplied values initial source := by
  cases source with
  | none => rfl
  | some w =>
      simp only [supplied, List.getD_eq_getElem?_getD, List.getElem?_append_left (h w rfl)]

theorem supplied_append (h : m.Told) (cell : Nat) (initial : Int64) (values : List Int64) :
    supplied (Event.values m.events ++ values) initial (m.graph.arrivals cell).getLast? =
      supplied (Event.values m.events) initial (m.graph.arrivals cell).getLast? :=
  supplied_of_lt (fun _ hw => arrivals_lt h (List.mem_of_getLast? hw)) initial values

theorem Valued.concat (h : Valued m₀ m) (hevents : m'.events = m.events ++ [e])
    (hlength : m'.memory.length = m.memory.length)
    (hbuffer : ∀ u, ∀ b ∈ Thread.bufferAt m'.threads u, b ∈ Thread.bufferAt m.threads u ∨
      b.node = (Event.values m.events).length ∧ e.value? = some b.value)
    (hmemory : ∀ cell < m'.memory.length, m'.read cell =
      supplied (Event.values m'.events) (m₀.read cell) (m'.graph.arrivals cell).getLast?) :
    Valued m₀ m' where
  length := hlength.trans h.length
  buffer u b hb := by
    rw [hevents, Event.values_concat]
    rcases hbuffer u b hb with hb | ⟨hnode, hvalue⟩
    · have hget := h.buffer u b hb
      rw [List.getElem?_append_left (List.getElem?_eq_some_iff.mp hget).1, hget]
    · rw [hnode, hvalue]
      simp
  memory := hmemory

theorem Valued.keep (h : Valued m₀ m) (htold : m.Told) (hevents : m'.events = m.events ++ [e])
    (hmemory : m'.memory = m.memory) (hcommits : m'.graph.commits = m.graph.commits)
    (hbuffer : ∀ u, ∀ b ∈ Thread.bufferAt m'.threads u, b ∈ Thread.bufferAt m.threads u ∨
      b.node = (Event.values m.events).length ∧ e.value? = some b.value) : Valued m₀ m' := by
  refine h.concat hevents (by rw [hmemory]) hbuffer fun cell hcell => ?_
  have harrivals : m'.graph.arrivals cell = m.graph.arrivals cell := by
    rw [Graph.arrivals, Graph.arrivals, hcommits]
  rw [harrivals, hevents, Event.values_concat, supplied_append htold, read, hmemory]
  exact h.memory cell (by rwa [← hmemory])

theorem arrivals_of_commits {a : Addr} {w : Nat} (cell : Nat)
    (hcommits : m'.graph.commits = m.graph.commits ++ [(w, a)]) :
    m'.graph.arrivals cell = m.graph.arrivals cell ++ if a.toNat = cell + 1 then [w] else [] := by
  rw [Graph.arrivals, Graph.arrivals, hcommits, List.filterMap_append]
  by_cases ha : a.toNat = cell + 1 <;> simp [ha]

theorem Valued.write (h : Valued m₀ m) (htold : m.Told) (hevents : m'.events = m.events ++ [e])
    {a : Addr} {w : Nat} {v : Int64}
    (hmemory : ∀ cell, m.cell? a = some cell → m'.memory = m.memory.set cell v)
    (hlost : m.cell? a = none → m'.memory = m.memory)
    (hcommits : m'.graph.commits = m.graph.commits ++ [(w, a)])
    (hvalue : (Event.values m'.events)[w]? = some v)
    (hbuffer : ∀ u, ∀ b ∈ Thread.bufferAt m'.threads u, b ∈ Thread.bufferAt m.threads u ∨
      b.node = (Event.values m.events).length ∧ e.value? = some b.value) : Valued m₀ m' := by
  have hlength : m'.memory.length = m.memory.length := by
    cases hcell : m.cell? a with
    | none => rw [hlost hcell]
    | some cell => rw [hmemory cell hcell, List.length_set]
  refine h.concat hevents hlength hbuffer fun x hx => ?_
  rw [hlength] at hx
  rw [arrivals_of_commits x hcommits]
  by_cases ha : a.toNat = x + 1
  · have hcell : m.cell? a = some x := by
      rw [cell?, if_pos (by omega)]
      congr 1
      omega
    rw [if_pos ha, List.getLast?_concat, read, hmemory x hcell]
    simp [supplied, hvalue, hx]
  · have hread : m'.read x = m.read x := by
      cases hcell : m.cell? a with
      | none => rw [read, hlost hcell, read]
      | some cell =>
          have hne : cell ≠ x := by
            simp only [cell?, Option.ite_none_right_eq_some, Option.some.injEq] at hcell
            omega
          rw [read, hmemory cell hcell, List.getD_eq_getElem?_getD, List.getElem?_set_ne hne,
            ← List.getD_eq_getElem?_getD, read]
    rw [if_neg ha, List.append_nil, hevents, Event.values_concat, supplied_append htold, hread]
    exact h.memory x hx

theorem Valued.writeAt (h : Valued m₀ m) (htold : m.Told) (hevents : m'.events = m.events ++ [e])
    {a : Addr} {cell w : Nat} {v : Int64} (hcell : m.cell? a = some cell)
    (hmemory : m'.memory = m.memory.set cell v)
    (hcommits : m'.graph.commits = m.graph.commits ++ [(w, a)])
    (hvalue : (Event.values m'.events)[w]? = some v)
    (hbuffer : ∀ u, ∀ b ∈ Thread.bufferAt m'.threads u, b ∈ Thread.bufferAt m.threads u ∨
      b.node = (Event.values m.events).length ∧ e.value? = some b.value) : Valued m₀ m' := by
  refine h.write htold hevents (fun cell' hcell' => ?_) (fun hnone => ?_) hcommits hvalue hbuffer
  · rw [hmemory, Option.some.inj (hcell.symm.trans hcell')]
  · rw [hcell] at hnone
    cases hnone

/-- The values stay those of the stores when a thread performs an operation. -/
theorem Valued.passed (h : Valued m₀ m) (htold : m.Told) (hth : m.threads[t]? = some th) {site : Site}
    {op : Operation} {x : Machine × EventKind} (hx : m.perform s t th site op = .ok x) :
    Valued m₀ (passed t site x) := by
  have hbuffer := bufferAt_passed (t := t) site
  have hsame : ∀ x : Machine × EventKind,
      (∀ u, Thread.bufferAt x.1.threads u = Thread.bufferAt m.threads u) →
      ∀ u, ∀ b ∈ Thread.bufferAt (Machine.passed t site x).threads u,
        b ∈ Thread.bufferAt m.threads u ∨ b.node = (Event.values m.events).length ∧
          Event.value? ⟨.thread t, site, x.2⟩ = some b.value := by
    intro x hx u b hb
    rw [hbuffer, hx] at hb
    exact .inl hb
  have hnext : ∀ v, (Event.values m.events ++ [v])[m.graph.nodes.length]? = some v := by
    intro v
    rw [length_nodes htold, List.getElem?_concat_length]
  obtain ⟨k, hk⟩ := succeeds_of_perform hx
  cases hk with
  | load hcell hd hv => exact h.keep htold rfl rfl rfl (hsame _ (bufferAt_withReg hth _ _))
  | enqueue hs hcell hv =>
      refine h.keep htold rfl rfl rfl fun u b hb => ?_
      rw [hbuffer, setThread, Thread.bufferAt_set hth] at hb
      split at hb
      · subst_vars
        rcases List.mem_append.mp hb with hb | hb
        · rw [← Thread.bufferAt_of_getElem? hth] at hb
          exact .inl hb
        · rw [List.mem_singleton.mp hb]
          exact .inr ⟨length_nodes htold, rfl⟩
      · exact .inl hb
  | store hs hcell hv =>
      exact h.writeAt htold rfl hcell rfl (m.graph.commits_commit_push _)
        ((congrArg (·[m.graph.nodes.length]?) (Event.values_concat _ _)).trans (hnext _))
        (hsame _ fun _ => rfl)
  | fence => exact h.keep htold rfl rfl rfl (hsame _ fun _ => rfl)
  | spawn hd hnew =>
      refine h.keep htold rfl rfl rfl (hsame _ fun u => ?_)
      rw [Thread.bufferAt_concat (Thread.buffer_start hnew), bufferAt_withReg hth]
  | join hc => exact h.keep htold rfl rfl rfl (hsame _ fun _ => rfl)
  | lock hcell =>
      exact h.writeAt htold rfl hcell rfl (m.graph.commits_commit_push _)
        ((congrArg (·[m.graph.nodes.length]?) (Event.values_concat _ _)).trans (hnext 1))
        (hsame _ fun _ => rfl)
  | unlock hcell hlocked =>
      exact h.writeAt htold rfl hcell rfl (m.graph.commits_commit_push _)
        ((congrArg (·[m.graph.nodes.length]?) (Event.values_concat _ _)).trans (hnext 0))
        (hsame _ fun _ => rfl)

theorem Valued.step {p : Proc} (h : Valued m₀ m) (htold : m.Told) (hstep : m.step s p = .ok m') :
    Valued m₀ m' := by
  rcases step_cases hstep with rfl | ⟨t, th, site, op, x, hth, hx, rfl⟩ |
    ⟨t, th, b, rest, hth, hb, hthreads, hgraph, hevents, hmemory, hlost⟩
  · exact h
  · exact h.passed htold hth hx
  · have hbuffer : Thread.bufferAt m.threads t = b :: rest := by
      rw [Thread.bufferAt_of_getElem? hth, hb]
    obtain ⟨n, hn, hna⟩ := Option.map_eq_some_iff.mp (htold.addr t b (by simp [hbuffer]))
    have hvalue := h.buffer t b (by simp [hbuffer])
    refine h.write htold hevents hmemory hlost (w := b.node) ?_ ?_ fun u b' hb' => ?_
    · simp [hgraph, Graph.commit, hn, hna]
    · rw [hevents, Event.values_concat,
        List.getElem?_append_left (List.getElem?_eq_some_iff.mp hvalue).1, hvalue]
    · rw [hthreads, Thread.bufferAt_set hth] at hb'
      split at hb'
      · subst_vars
        rw [hbuffer]
        exact .inl (List.mem_cons_of_mem _ hb')
      · exact .inl hb'

theorem Valued.settle (h : Valued m₀ m) : Valued m₀ (m.settle s).1 := by
  refine ⟨h.length, fun t b hb => ?_, h.memory⟩
  rw [bufferAt_settle] at hb
  exact h.buffer t b hb

theorem Valued.rest (h : Valued m₀ m) (hrest : m.rest s = .ok m') : Valued m₀ m' :=
  settle_of_rest hrest ▸ h.settle

theorem valued_self (hgraph : m.graph = .empty) (hempty : ∀ th ∈ m.threads, th.buffer = []) : Valued m m := by
  refine ⟨rfl, fun t b hb => ?_, fun cell _ => ?_⟩
  · unfold Thread.bufferAt at hb
    cases hth : m.threads[t]? with
    | none => simp [hth] at hb
    | some th => simp [hth, hempty th (List.mem_of_getElem? hth)] at hb
  · rw [hgraph]
    rfl

/-- **The values are those of the stores at every scheduling point.** -/
theorem valued_reach {ps : List Proc} (hevents : m₀.events = []) (hgraph : m₀.graph = .empty)
    (hempty : ∀ th ∈ m₀.threads, th.buffer = []) (h : m₀.reach s ps = .ok m) :
    m.Told ∧ Valued m₀ m := by
  have htold := told_of_start hevents hgraph hempty
  refine (reach_invariant (P := fun m => m.Told ∧ Valued m₀ m) ?_ ?_ h).2
  · intro m₁ hrest
    exact ⟨htold.rest hrest, (valued_self hgraph hempty).rest hrest⟩
  · intro m₁ m₂ c _ hm₁ _ hturn
    unfold turn at hturn
    cases hstep : m₁.step s c.proc with
    | error why => simp [hstep] at hturn
    | ok m₁' =>
        rw [hstep] at hturn
        exact ⟨(hm₁.1.step hstep).rest hturn, (hm₁.2.step hm₁.1 hstep).rest hturn⟩

end Machine

end Interleave
