import Interleave.Proofs.Memory.Ledger

/-! # Which accesses are visible

A load, an update and a store that is not buffered become visible at once, a buffered store when it is
flushed.  Recording an event does one of three things to a ledger, or nothing (`Ledger.record_cases`):
a store is issued and waits (`Ledger.Enqueues`), an access is issued and visible (`Ledger.Accesses`), or
the oldest store of a buffer becomes visible (`Ledger.Flushes`).  So the accesses that are visible form a
list, in the order in which they became so (`Ledger.Visible`): the stores to an address reached memory in
this order, and what is not in the list waits in a buffer.  What an access reads comes from a store to
its address (`Ledger.Sourced`). -/

namespace Interleave.Memory

/-- Whether the access puts a value into memory. -/
def Action.stores : Action → Bool
  | read _ => false
  | write | update _ => true

namespace Graph

variable {g : Graph} {i j : Nat}

/-- The node stores at the address. -/
def storesAt (g : Graph) (a : Addr) (i : Nat) : Bool :=
  (g.nodes[i]?.map fun n => n.addr == a && n.action.stores).getD false

theorem storesAt_of_getElem? {a : Addr} {n : Node} (h : g.nodes[i]? = some n) :
    g.storesAt a i = (n.addr == a && n.action.stores) := by
  rw [storesAt, h]
  rfl

section Append

variable {g' : Graph} {ns : List Node} (hnodes : g'.nodes = g.nodes ++ ns)

include hnodes

theorem getElem?_of_lt (hi : i < g.nodes.length) : g'.nodes[i]? = g.nodes[i]? := by
  rw [hnodes, List.getElem?_append_left hi]

theorem storesAt_of_lt {a : Addr} (hi : i < g.nodes.length) : g'.storesAt a i = g.storesAt a i := by
  rw [storesAt, storesAt, getElem?_of_lt hnodes hi]

theorem filter_storesAt {l : List Nat} {a : Addr} (hl : ∀ i ∈ l, i < g.nodes.length) :
    l.filter (g'.storesAt a) = l.filter (g.storesAt a) :=
  List.filter_congr fun i hi => storesAt_of_lt hnodes (hl i hi)

end Append

end Graph

namespace Ledger

variable {l l' : Ledger} {visible : List Nat} {e : Event} {i j t : Nat}

/-! ### What an event does -/

/-- A store is issued and waits. -/
structure Enqueues (l l' : Ledger) (t : Nat) (a : Addr) : Prop where
  nodes : l'.graph.nodes = l.graph.nodes ++ [⟨t, a, .write⟩]
  coherence : ∀ b, l'.graph.coherence b = l.graph.coherence b
  waiting : ∀ u, l'.waiting u =
    if t = u then l.waiting u ++ [(a, l.graph.nodes.length)] else l.waiting u

/-- An access is issued and becomes visible. -/
structure Accesses (l l' : Ledger) (n : Node) : Prop where
  nodes : l'.graph.nodes = l.graph.nodes ++ [n]
  coherence : ∀ a, l'.graph.coherence a =
    l.graph.coherence a ++ bif n.addr == a && n.action.stores then [l.graph.nodes.length] else []
  waiting : ∀ u, l'.waiting u = l.waiting u
  /-- It reads the newest store of its thread that waits, or what is in memory. -/
  source : ∀ source, n.action.source? = some source →
    source = (l.newest n.thread n.addr).or (l.graph.lastStore n.addr) ∨
      source = l.graph.lastStore n.addr

/-- The oldest store of a buffer becomes visible. -/
structure Flushes (l l' : Ledger) (t : Nat) (x : Addr × Nat) (rest : List (Addr × Nat)) : Prop where
  head : l.waiting t = x :: rest
  nodes : l'.graph.nodes = l.graph.nodes
  coherence : ∀ a, l'.graph.coherence a = l.graph.coherence a ++ bif x.1 == a then [x.2] else []
  waiting : ∀ u, l'.waiting u = if t = u then rest else l.waiting u

theorem record_eq_self (hnode : l.node? e = none) (hcommit : l.commit? e = none)
    (hwaiting : ∀ t, l.waitingBehind e t = l.waiting t) : l.record e = l := by
  unfold record
  rw [hnode, hcommit, funext hwaiting]
  simp

theorem commitAt_of_commit? {x : Nat × Addr} (h : l.commit? e = some x) (a : Addr) :
    l.commitAt e a = bif x.2 == a then [x.1] else [] := by
  by_cases hx : x.2 = a
  · simp [commitAt, h, hx]
  · simp [commitAt, h, hx, beq_false_of_ne hx]

/-- **What recording an event does to a ledger.** -/
theorem record_cases (l : Ledger) (e : Event) :
    l.record e = l ∨ (∃ t a, l.Enqueues (l.record e) t a) ∨
      (∃ n, l.node? e = some n ∧ e.kind.access.isEnqueue = false ∧ l.Accesses (l.record e) n) ∨
      ∃ t x rest, l.Flushes (l.record e) t x rest := by
  obtain ⟨proc, site, kind⟩ := e
  cases proc with
  | thread t =>
      cases kind with
      | load a v b =>
          refine .inr (.inr (.inl ⟨_, rfl, rfl, rfl, fun b => ?_, fun u => ?_, fun source hs => ?_⟩))
          · simp [commitAt, commit?, Action.stores]
          · simp [waitingBehind]
          · exact .inl (Option.some.inj hs).symm
      | store a v =>
          refine .inr (.inr (.inl ⟨_, rfl, rfl, rfl, fun b => ?_, fun u => ?_, fun source hs => ?_⟩))
          · rw [coherence_record, commitAt_of_commit? rfl, Action.stores, Bool.and_true]
          · simp [waitingBehind]
          · cases hs
      | enqueue a v =>
          refine .inr (.inl ⟨t, a, rfl, fun b => ?_, fun u => ?_⟩)
          · simp [commitAt, commit?]
          · by_cases hu : t = u <;> simp [waitingBehind, Proc.owner, hu]
      | lock a =>
          refine .inr (.inr (.inl ⟨_, rfl, rfl, rfl, fun b => ?_, fun u => ?_, fun source hs => ?_⟩))
          · rw [coherence_record, commitAt_of_commit? rfl, Action.stores, Bool.and_true]
          · simp [waitingBehind]
          · exact .inr (Option.some.inj hs).symm
      | unlock a =>
          refine .inr (.inr (.inl ⟨_, rfl, rfl, rfl, fun b => ?_, fun u => ?_, fun source hs => ?_⟩))
          · rw [coherence_record, commitAt_of_commit? rfl, Action.stores, Bool.and_true]
          · simp [waitingBehind]
          · exact .inr (Option.some.inj hs).symm
      | _ => exact .inl (record_eq_self rfl rfl fun u => by simp [waitingBehind])
  | flush t =>
      cases kind with
      | store a v =>
          cases hw : l.waiting t with
          | nil =>
              refine .inl (record_eq_self rfl ?_ fun u => ?_)
              · simp [commit?, hw]
              · simp [waitingBehind, commit?, hw]
          | cons x rest =>
              by_cases hx : x.1 = a
              · subst hx
                have hcommit : l.commit? ⟨.flush t, site, .store x.1 v⟩ = some (x.2, x.1) := by
                  simp [commit?, hw, Option.filter]
                refine .inr (.inr (.inr ⟨t, x, rest, hw, ?_, fun b => ?_, fun u => ?_⟩))
                · simp [node?]
                · rw [coherence_record, commitAt_of_commit? hcommit]
                · by_cases hu : t = u
                  · subst hu
                    simp [waitingBehind, Proc.owner, hcommit, hw]
                  · simp [waitingBehind, Proc.owner, hu]
              · have hcommit : l.commit? ⟨.flush t, site, .store a v⟩ = none := by
                  simp [commit?, hw, Option.filter, hx]
                exact .inl (record_eq_self rfl hcommit fun u => by simp [waitingBehind, hcommit])
      | _ => exact .inl (record_eq_self rfl rfl fun u => by simp [waitingBehind])

theorem of_getElem?_concat {ns : List Node} {n m : Node} (h : (ns ++ [n])[i]? = some m) :
    ns[i]? = some m ∨ i = ns.length ∧ n = m := by
  rcases Nat.lt_trichotomy i ns.length with hlt | rfl | hgt
  · rw [List.getElem?_append_left hlt] at h
    exact .inl h
  · rw [List.getElem?_concat_length, Option.some.injEq] at h
    exact .inr ⟨rfl, h⟩
  · rw [List.getElem?_eq_none (by simp; omega)] at h
    cases h

/-! ### The order of visibility -/

/-- The accesses of the list have become visible in this order, and the others wait. -/
structure Visible (l : Ledger) (visible : List Nat) : Prop where
  nodup : visible.Nodup
  lt : ∀ i ∈ visible, i < l.graph.nodes.length
  /-- What is not visible waits in the buffer of its thread. -/
  waits : ∀ i n, l.graph.nodes[i]? = some n → i ∉ visible → (n.addr, i) ∈ l.waiting n.thread
  /-- What waits is a store and is not visible. -/
  waiting : ∀ t, ∀ x ∈ l.waiting t, x.2 ∉ visible ∧ l.graph.nodes[x.2]? = some ⟨t, x.1, .write⟩
  queue : ∀ t, (l.waiting t).Pairwise fun x y => x.2 < y.2
  coherence : ∀ a, l.graph.coherence a = visible.filter (l.graph.storesAt a)

theorem visible_empty : empty.Visible [] := by
  constructor <;> simp [empty, Graph.empty, Graph.coherence]

namespace Visible

theorem enqueue {a : Addr} (h : l.Visible visible) (he : l.Enqueues l' t a) : l'.Visible visible where
  nodup := h.nodup
  lt i hi := by
    rw [he.nodes, List.length_append]
    exact Nat.lt_add_right 1 (h.lt i hi)
  waits i n hn hi := by
    rw [he.waiting]
    rw [he.nodes] at hn
    rcases of_getElem?_concat hn with hn | ⟨rfl, rfl⟩
    · have := h.waits i n hn hi
      split
      · exact List.mem_append_left _ this
      · exact this
    · simp
  waiting u x hx := by
    have hold : x ∈ l.waiting u → x.2 ∉ visible ∧ l'.graph.nodes[x.2]? = some ⟨u, x.1, .write⟩ := by
      intro hx
      obtain ⟨hvisible, hnode⟩ := h.waiting u x hx
      refine ⟨hvisible, ?_⟩
      rw [Graph.getElem?_of_lt he.nodes (List.getElem?_eq_some_iff.mp hnode).1, hnode]
    rw [he.waiting] at hx
    split at hx
    · subst_vars
      rcases List.mem_append.mp hx with hx | hx
      · exact hold hx
      · rw [List.mem_singleton.mp hx, he.nodes]
        exact ⟨fun hmem => Nat.lt_irrefl _ (h.lt _ hmem), by simp⟩
    · exact hold hx
  queue u := by
    rw [he.waiting]
    split
    · rw [List.pairwise_append]
      refine ⟨h.queue u, List.pairwise_singleton _ _, fun x hx y hy => ?_⟩
      rw [List.mem_singleton.mp hy]
      exact (List.getElem?_eq_some_iff.mp (h.waiting u x hx).2).1
    · exact h.queue u
  coherence b := by rw [he.coherence, h.coherence, Graph.filter_storesAt he.nodes h.lt]

theorem access {n : Node} (h : l.Visible visible) (ha : l.Accesses l' n) :
    l'.Visible (visible ++ [l.graph.nodes.length]) where
  nodup := by
    rw [List.nodup_append]
    refine ⟨h.nodup, List.nodup_singleton _, fun i hi j hj => ?_⟩
    rw [List.mem_singleton.mp hj]
    exact Nat.ne_of_lt (h.lt i hi)
  lt i hi := by
    rw [ha.nodes, List.length_append]
    rcases List.mem_append.mp hi with hi | hi
    · exact Nat.lt_add_right 1 (h.lt i hi)
    · simp [List.mem_singleton.mp hi]
  waits i m hm hi := by
    rw [ha.nodes] at hm
    rw [ha.waiting]
    rcases of_getElem?_concat hm with hm | ⟨rfl, rfl⟩
    · exact h.waits i m hm fun hmem => hi (List.mem_append_left _ hmem)
    · exact (hi (by simp)).elim
  waiting u x hx := by
    rw [ha.waiting] at hx
    obtain ⟨hvisible, hnode⟩ := h.waiting u x hx
    have hlt := (List.getElem?_eq_some_iff.mp hnode).1
    refine ⟨?_, (Graph.getElem?_of_lt ha.nodes hlt).trans hnode⟩
    rw [List.mem_append, List.mem_singleton]
    rintro (hmem | hmem)
    · exact hvisible hmem
    · omega
  queue u := by
    rw [ha.waiting]
    exact h.queue u
  coherence a := by
    have hnew : l'.graph.nodes[l.graph.nodes.length]? = some n := by simp [ha.nodes]
    rw [ha.coherence, h.coherence, List.filter_append, Graph.filter_storesAt ha.nodes h.lt,
      List.filter_singleton, Graph.storesAt_of_getElem? hnew]

theorem flush {x : Addr × Nat} {rest : List (Addr × Nat)} (h : l.Visible visible)
    (hf : l.Flushes l' t x rest) : l'.Visible (visible ++ [x.2]) where
  nodup := by
    rw [List.nodup_append]
    refine ⟨h.nodup, List.nodup_singleton _, fun i hi j hj => ?_⟩
    rw [List.mem_singleton.mp hj]
    rintro rfl
    exact (h.waiting t x (by simp [hf.head])).1 hi
  lt i hi := by
    rw [hf.nodes]
    rcases List.mem_append.mp hi with hi | hi
    · exact h.lt i hi
    · rw [List.mem_singleton.mp hi]
      exact (List.getElem?_eq_some_iff.mp (h.waiting t x (by simp [hf.head])).2).1
  waits i n hn hi := by
    rw [hf.nodes] at hn
    rw [List.mem_append, not_or, List.mem_singleton] at hi
    have hmem := h.waits i n hn hi.1
    rw [hf.waiting]
    split
    · subst_vars
      rw [hf.head] at hmem
      refine (List.mem_cons.mp hmem).resolve_left fun heq => hi.2 ?_
      rw [← heq]
    · exact hmem
  waiting u y hy := by
    have hxnode := (h.waiting t x (by simp [hf.head])).2
    rw [hf.waiting] at hy
    rw [hf.nodes, List.mem_append, List.mem_singleton]
    split at hy
    · rename_i htu
      subst htu
      have hq := h.queue t
      rw [hf.head, List.pairwise_cons] at hq
      obtain ⟨hvisible, hnode⟩ := h.waiting t y (by simp [hf.head, hy])
      refine ⟨?_, hnode⟩
      rintro (hmem | hmem)
      · exact hvisible hmem
      · exact Nat.ne_of_gt (hq.1 y hy) hmem
    · rename_i hu
      obtain ⟨hvisible, hnode⟩ := h.waiting u y hy
      refine ⟨?_, hnode⟩
      rintro (hmem | hmem)
      · exact hvisible hmem
      · rw [hmem, hxnode, Option.some.injEq, Node.mk.injEq] at hnode
        exact hu hnode.1
  queue u := by
    rw [hf.waiting]
    split
    · rename_i htu
      subst htu
      have hq := h.queue t
      rw [hf.head] at hq
      exact hq.of_cons
    · exact h.queue u
  coherence a := by
    have hnode := (h.waiting t x (by simp [hf.head])).2
    have hstores : l'.graph.storesAt a x.2 = (x.1 == a) := by
      rw [Graph.storesAt_of_getElem? (hf.nodes ▸ hnode)]
      exact Bool.and_true _
    rw [hf.coherence, h.coherence, List.filter_append, List.filter_singleton, hstores,
      Graph.filter_storesAt (hf.nodes.trans (List.append_nil _).symm) h.lt]

/-- One more event: at most one access becomes visible, behind all that were. -/
theorem record (h : l.Visible visible) (e : Event) : ∃ visible', (l.record e).Visible visible' := by
  rcases l.record_cases e with heq | ⟨t, a, he⟩ | ⟨n, -, -, ha⟩ | ⟨t, x, rest, hf⟩
  · rw [heq]
    exact ⟨visible, h⟩
  · exact ⟨_, h.enqueue he⟩
  · exact ⟨_, h.access ha⟩
  · exact ⟨_, h.flush hf⟩

theorem mem_of_source (h : l.Visible visible) {n : Node} {source : Option Nat}
    (hn : l.graph.nodes[i]? = some n) (hs : n.action.source? = some source) : i ∈ visible := by
  by_contra hi
  obtain ⟨-, hw⟩ := h.waiting _ _ (h.waits i n hn hi)
  rw [hn, Option.some.injEq] at hw
  rw [hw] at hs
  cases hs

/-- A store that is visible is once in the coherence order of its address, and in no other. -/
theorem count_coherence {n : Node} (h : l.Visible visible) (hn : l.graph.nodes[i]? = some n)
    (hstores : n.action.stores = true) (hi : i ∈ visible) (a : Addr) :
    (l.graph.coherence a).count i = if a = n.addr then 1 else 0 := by
  have hstoresAt : l.graph.storesAt a i = true ↔ a = n.addr := by
    rw [Graph.storesAt_of_getElem? hn, hstores, Bool.and_true, beq_iff_eq, eq_comm]
  rw [h.coherence]
  split
  · exact List.count_eq_one_of_mem (h.nodup.filter _) (List.mem_filter.mpr ⟨hi, hstoresAt.mpr ‹_›⟩)
  · exact List.count_eq_zero.mpr fun hmem => ‹¬ _› (hstoresAt.mp (List.mem_filter.mp hmem).2)

theorem count_waiting_of_mem (h : l.Visible visible) (hi : i ∈ visible) (t : Nat) :
    ((l.waiting t).map Prod.snd).count i = 0 := by
  refine List.count_eq_zero.mpr fun hmem => ?_
  obtain ⟨x, hx, rfl⟩ := List.mem_map.mp hmem
  exact (h.waiting t x hx).1 hi

theorem count_coherence_of_not_mem (h : l.Visible visible) (hi : i ∉ visible) (a : Addr) :
    (l.graph.coherence a).count i = 0 := by
  rw [h.coherence]
  exact List.count_eq_zero.mpr fun hmem => hi (List.mem_filter.mp hmem).1

/-- What is not visible waits once, in the buffer of its thread. -/
theorem count_waiting {n : Node} (h : l.Visible visible) (hn : l.graph.nodes[i]? = some n) (hi : i ∉ visible)
    (t : Nat) : ((l.waiting t).map Prod.snd).count i = if t = n.thread then 1 else 0 := by
  split
  · subst_vars
    have hnodup : ((l.waiting n.thread).map Prod.snd).Nodup :=
      List.pairwise_map.mpr ((h.queue n.thread).imp Nat.ne_of_lt)
    exact List.count_eq_one_of_mem hnodup (List.mem_map.mpr ⟨_, h.waits i n hn hi, rfl⟩)
  · rename_i ht
    refine List.count_eq_zero.mpr fun hmem => ?_
    obtain ⟨x, hx, rfl⟩ := List.mem_map.mp hmem
    have hnode := (h.waiting t x hx).2
    rw [hn, Option.some.injEq] at hnode
    exact ht (by rw [hnode])

end Visible

theorem visible_ofEvents (es : List Event) : ∃ visible, (ofEvents es).Visible visible := by
  induction es using List.reverseRecOn with
  | nil => exact ⟨[], visible_empty⟩
  | append_singleton es e ih =>
      obtain ⟨visible, h⟩ := ih
      rw [ofEvents_concat]
      exact h.record e

/-! ### Where values come from -/

/-- What an access reads comes from a store to its address. -/
def Sourced (l : Ledger) : Prop :=
  ∀ (r : Nat) (n : Node) (w : Nat), l.graph.nodes[r]? = some n →
    n.action.source? = some (some w) → l.graph.storesAt n.addr w = true

theorem storesAt_of_newest (h : l.Visible visible) {a : Addr} (hw : l.newest t a = some i) :
    l.graph.storesAt a i = true := by
  obtain ⟨x, hx, rfl⟩ := Option.map_eq_some_iff.mp hw
  have haddr := List.find?_some hx
  have hnode := (h.waiting t x (List.mem_reverse.mp (List.mem_of_find?_eq_some hx))).2
  rw [Graph.storesAt_of_getElem? hnode]
  simpa [Action.stores] using haddr

theorem storesAt_of_lastStore (h : l.Visible visible) {a : Addr} (hw : l.graph.lastStore a = some i) :
    l.graph.storesAt a i = true := by
  have hmem := List.mem_of_getLast? hw
  rw [h.coherence] at hmem
  exact (List.mem_filter.mp hmem).2

theorem lt_of_storesAt {a : Addr} (h : l.graph.storesAt a i = true) : i < l.graph.nodes.length := by
  by_contra hlt
  rw [Graph.storesAt, List.getElem?_eq_none (Nat.le_of_not_lt hlt)] at h
  cases h

theorem Sourced.append {ns : List Node} (h : l.Sourced) (hnodes : l'.graph.nodes = l.graph.nodes ++ ns)
    (hnew : ∀ n ∈ ns, ∀ w, n.action.source? = some (some w) → l.graph.storesAt n.addr w = true) :
    l'.Sourced := by
  have hold : ∀ a w, l.graph.storesAt a w = true → l'.graph.storesAt a w = true := by
    intro a w hw
    rw [Graph.storesAt_of_lt hnodes (lt_of_storesAt hw), hw]
  intro r n w hn hs
  rw [hnodes] at hn
  rcases Nat.lt_or_ge r l.graph.nodes.length with hlt | hge
  · rw [List.getElem?_append_left hlt] at hn
    exact hold _ _ (h r n w hn hs)
  · rw [List.getElem?_append_right hge] at hn
    exact hold _ _ (hnew n (List.mem_of_getElem? hn) w hs)

theorem sourced_ofEvents (es : List Event) : (ofEvents es).Sourced := by
  induction es using List.reverseRecOn with
  | nil =>
      intro r n w hn
      cases hn
  | append_singleton es e ih =>
      obtain ⟨visible, h⟩ := visible_ofEvents es
      rw [ofEvents_concat]
      rcases (ofEvents es).record_cases e with heq | ⟨t, a, he⟩ | ⟨n, -, -, ha⟩ | ⟨t, x, rest, hf⟩
      · rwa [heq]
      · refine ih.append he.nodes fun n hn w hs => ?_
        rw [List.mem_singleton.mp hn] at hs
        cases hs
      · refine ih.append ha.nodes fun n' hn' w hs => ?_
        obtain rfl := List.mem_singleton.mp hn'
        rcases ha.source _ hs with hw | hw
        · rcases Option.or_eq_some_iff.mp hw.symm with hw | ⟨-, hw⟩
          · exact storesAt_of_newest h hw
          · exact storesAt_of_lastStore h hw
        · exact storesAt_of_lastStore h hw.symm
      · exact ih.append (hf.nodes.trans (List.append_nil _).symm) fun n hn => by cases hn

end Ledger

end Interleave.Memory
