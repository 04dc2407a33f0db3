import Interleave.Proofs.Memory.Serial

/-! # The memory graph of a single thread

If only one thread accesses memory, and its buffer is empty when it accesses memory past it, then all its
stores reach memory in the order of their issue, and each read finds the last store that was issued
before it, in the buffer or in memory (`Ledger.Sequential`).  So every edge of the memory graph leads
from a node to a later one (`Ledger.Sequential.increases`), although the stores may stay in the buffer
for any time. -/

namespace Interleave.Memory

namespace Graph

variable {g : Graph}

theorem following_subset_append (source : Option Nat) (l l' : List Nat) :
    following source l ⊆ following source (l ++ l') := by
  cases source with
  | none => exact List.subset_append_left l l'
  | some w =>
      simp only [following, List.dropWhile_append]
      split
      · rename_i h
        rw [List.isEmpty_iff.mp h]
        exact List.nil_subset _
      · rename_i h
        rw [List.tail_append_of_ne_nil (by simpa using h)]
        exact List.subset_append_left _ _

/-- The stores at an address that were issued before node `r`. -/
def storesBefore (g : Graph) (a : Addr) (r : Nat) : List Nat := (List.range r).filter (g.storesAt a)

theorem storesBefore_add (g : Graph) (a : Addr) (r d : Nat) : g.storesBefore a (r + d) =
    g.storesBefore a r ++ ((List.range d).map (r + ·)).filter (g.storesAt a) := by
  rw [storesBefore, List.range_add, List.filter_append]
  rfl

theorem storesBefore_append {g' : Graph} {ns : List Node} (hnodes : g'.nodes = g.nodes ++ ns) {r : Nat}
    (hr : r ≤ g.nodes.length) (a : Addr) : g'.storesBefore a r = g.storesBefore a r :=
  filter_storesAt hnodes fun _ hi => Nat.lt_of_lt_of_le (List.mem_range.mp hi) hr

theorem storesBefore_concat {g' : Graph} {n : Node} (hnodes : g'.nodes = g.nodes ++ [n]) (a : Addr) :
    g'.storesBefore a g'.nodes.length = g.storesBefore a g.nodes.length ++
      bif n.addr == a && n.action.stores then [g.nodes.length] else [] := by
  have hlast : g'.nodes[g.nodes.length]? = some n := by simp [hnodes]
  rw [hnodes, List.length_append, List.length_singleton, storesBefore_add,
    storesBefore_append hnodes le_rfl]
  simp only [List.range_one, List.map_singleton, Nat.add_zero, List.filter_singleton,
    storesAt_of_getElem? hlast]

end Graph

namespace Ledger

variable {l l' : Ledger} {e : Event} {t : Nat}

/-- The nodes of the stores of thread number `t` that wait to reach an address. -/
def waitingAt (l : Ledger) (t : Nat) (a : Addr) : List Nat :=
  ((l.waiting t).filter fun x => x.1 == a).map Prod.snd

/-- Only stores of thread number `t` wait.  All stores that were issued have reached memory in the order
of issue or wait to do so, and what is read is the last store issued before. -/
structure Sequential (l : Ledger) (t : Nat) : Prop where
  idle : ∀ u, u ≠ t → l.waiting u = []
  stores : ∀ a, l.graph.coherence a ++ l.waitingAt t a = l.graph.storesBefore a l.graph.nodes.length
  source : ∀ r n source, l.graph.nodes[r]? = some n → n.action.source? = some source →
    source = (l.graph.storesBefore n.addr r).getLast?

theorem sequential_empty (t : Nat) : empty.Sequential t := by
  constructor <;> simp [empty, Graph.empty, Graph.coherence, Graph.storesBefore, waitingAt]

namespace Sequential

/-- What a read of the thread finds is the last store that was issued. -/
theorem newest_or (h : l.Sequential t) (a : Addr) :
    (l.newest t a).or (l.graph.lastStore a) = (l.graph.storesBefore a l.graph.nodes.length).getLast? := by
  have hnewest : l.newest t a = (l.waitingAt t a).getLast? := by
    rw [newest, waitingAt, List.getLast?_map, ← List.head?_reverse, ← List.filter_reverse,
      List.head?_filter]
  rw [← h.stores, List.getLast?_append, hnewest]
  rfl

/-- The sources of earlier nodes stay as they are, and the new node has to be looked at. -/
theorem source_concat (h : l.Sequential t) {n : Node} (hnodes : l'.graph.nodes = l.graph.nodes ++ [n])
    (hsource : ∀ source, n.action.source? = some source →
      source = (l.graph.storesBefore n.addr l.graph.nodes.length).getLast?) :
    ∀ r m source, l'.graph.nodes[r]? = some m → m.action.source? = some source →
      source = (l'.graph.storesBefore m.addr r).getLast? := by
  intro r m source hm hs
  rw [hnodes] at hm
  rcases of_getElem?_concat hm with hold | ⟨rfl, rfl⟩
  · have hr := (List.getElem?_eq_some_iff.mp hold).1
    rw [Graph.storesBefore_append hnodes (Nat.le_of_lt hr)]
    exact h.source r m source hold hs
  · rw [Graph.storesBefore_append hnodes le_rfl]
    exact hsource source hs

theorem enqueue {a : Addr} (h : l.Sequential t) (he : l.Enqueues l' t a) : l'.Sequential t where
  idle u hu := by
    rw [he.waiting, if_neg hu.symm]
    exact h.idle u hu
  stores b := by
    have hwaiting : l'.waitingAt t b = l.waitingAt t b ++ bif a == b then [l.graph.nodes.length] else [] := by
      rw [waitingAt, he.waiting, if_pos rfl, List.filter_append, List.map_append, List.filter_singleton]
      cases a == b <;> rfl
    rw [Graph.storesBefore_concat he.nodes, he.coherence, hwaiting, ← List.append_assoc, h.stores]
    simp [Action.stores]
  source := h.source_concat he.nodes fun _ hs => by cases hs

theorem access {n : Node} (h : l.Sequential t) (ha : l.Accesses l' n)
    (hempty : n.action.stores = true → l.waiting t = [])
    (hsource : ∀ source, n.action.source? = some source →
      source = (l.newest t n.addr).or (l.graph.lastStore n.addr)) : l'.Sequential t where
  idle u hu := by
    rw [ha.waiting]
    exact h.idle u hu
  stores b := by
    have hwaiting : l'.waitingAt t b = l.waitingAt t b := by rw [waitingAt, waitingAt, ha.waiting]
    rw [Graph.storesBefore_concat ha.nodes, ha.coherence, hwaiting, ← h.stores]
    cases hstores : n.action.stores with
    | false => simp
    | true =>
        have hnil : l.waitingAt t b = [] := by rw [waitingAt, hempty hstores]; rfl
        simp [hnil]
  source := h.source_concat ha.nodes fun source hs => by rw [hsource source hs, h.newest_or]

theorem flush {u : Nat} {x : Addr × Nat} {rest : List (Addr × Nat)} (h : l.Sequential t)
    (hf : l.Flushes l' u x rest) : l'.Sequential t := by
  obtain rfl : u = t := by
    by_contra hu
    have hhead := hf.head
    rw [h.idle u hu] at hhead
    cases hhead
  have hbefore : ∀ a r, l'.graph.storesBefore a r = l.graph.storesBefore a r := by
    intro a r
    have hstores : l'.graph.storesAt a = l.graph.storesAt a := by
      funext i
      rw [Graph.storesAt, Graph.storesAt, hf.nodes]
    rw [Graph.storesBefore, Graph.storesBefore, hstores]
  refine ⟨fun v hv => ?_, fun a => ?_, fun r n source hn hs => ?_⟩
  · rw [hf.waiting, if_neg hv.symm]
    exact h.idle v hv
  · have hwaiting : l.waitingAt u a = (bif x.1 == a then [x.2] else []) ++ l'.waitingAt u a := by
      rw [waitingAt, waitingAt, hf.head, hf.waiting, if_pos rfl, List.filter_cons]
      cases x.1 == a <;> rfl
    rw [hf.coherence, List.append_assoc, ← hwaiting, h.stores, hf.nodes, hbefore]
  · rw [hbefore]
    exact h.source r n source (hf.nodes ▸ hn) hs

/-- What an access of the thread reads, if nothing waits when it stores as well. -/
theorem source_of_node? {n : Node} (hn : l.node? e = some n)
    (hempty : n.action.stores = true → l.waiting n.thread = []) {source : Option Nat}
    (hs : n.action.source? = some source) :
    source = (l.newest n.thread n.addr).or (l.graph.lastStore n.addr) := by
  have hupdate : n.action.stores = true → l.newest n.thread n.addr = none := by
    intro hstores
    rw [newest, hempty hstores]
    rfl
  unfold node? at hn
  split at hn
  · cases hn
    exact (Option.some.inj hs).symm
  · cases hn
    cases hs
  · cases hn
    cases hs
  · cases hn
    rw [hupdate rfl]
    exact (Option.some.inj hs).symm
  · cases hn
    rw [hupdate rfl]
    exact (Option.some.inj hs).symm
  · cases hn

/-- **One more event** of the thread or of its buffer.  If it stores at once, nothing waits. -/
theorem record (h : l.Sequential t) (howner : e.proc.owner = t)
    (hempty : ∀ n, l.node? e = some n → e.kind.access.isEnqueue = false → n.action.stores = true →
      l.waiting t = []) : (l.record e).Sequential t := by
  have hthread : ∀ n, l.node? e = some n → n.thread = t := by
    intro n hn
    rw [← howner, proc_of_node? hn]
    rfl
  rcases l.record_cases e with heq | ⟨u, a, he⟩ | ⟨n, hn, henq, ha⟩ | ⟨u, x, rest, hf⟩
  · rw [heq]
    exact h
  · have hn : l.node? e = some ⟨u, a, .write⟩ := by
      have hnodes := he.nodes
      rw [nodes_record, List.append_cancel_left_eq] at hnodes
      exact Option.mem_toList.mp (hnodes ▸ List.mem_singleton_self _)
    obtain rfl : u = t := hthread _ hn
    exact h.enqueue he
  · obtain rfl := hthread n hn
    exact h.access ha (hempty n hn henq) fun source hs => source_of_node? hn (hempty n hn henq) hs
  · exact h.flush hf

theorem sorted_storesBefore (g : Graph) (a : Addr) (r : Nat) : (g.storesBefore a r).Pairwise (· < ·) :=
  List.pairwise_lt_range.filter _

/-- **Every edge leads to a later node.** -/
theorem increases (h : l.Sequential t) : l.graph.Increases id where
  program _ _ _ _ _ _ _ hij := hij
  coherence a := by
    have hsorted := sorted_storesBefore l.graph a l.graph.nodes.length
    rw [← h.stores] at hsorted
    exact (List.pairwise_append.mp hsorted).1
  source r n w hn hs := by
    have hw := List.mem_of_getLast? (h.source r n _ hn hs).symm
    exact List.mem_range.mp (List.mem_of_mem_filter hw)
  overwritten r n source w hn hs hw hne := by
    have hr := (List.getElem?_eq_some_iff.mp hn).1
    obtain ⟨d, hd⟩ := Nat.exists_eq_add_of_lt hr
    have hnodup := (sorted_storesBefore l.graph n.addr l.graph.nodes.length).imp Nat.ne_of_lt
    have hw := Graph.following_subset_append source _ (l.waitingAt t n.addr) hw
    -- the stores up to `r` end with the source, so those behind it come behind `r`
    rw [h.stores, hd, Nat.add_assoc, Graph.storesBefore_add, h.source r n source hn hs,
      Graph.following_getLast? (by rwa [hd, Nat.add_assoc, Graph.storesBefore_add] at hnodup)] at hw
    obtain ⟨i, -, rfl⟩ := List.mem_map.mp (List.mem_of_mem_filter hw)
    simp only [id_eq]
    omega

end Sequential

end Ledger

end Interleave.Memory
