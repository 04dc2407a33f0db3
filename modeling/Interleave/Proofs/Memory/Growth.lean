import Interleave.Proofs.Memory.Ledger
import Interleave.Proofs.Memory.Traversal

/-! # Memory graphs that grow

Each access puts a node, a commit or both behind what the graph holds, so a graph that has grown out of
another one extends it (`Graph.Extends`).  What has been read and the stores that reached an address
before stay in their order, and with them the edges (`Graph.Extends.edge`).  Therefore a cycle is never
lost again (`Graph.Extends.isSome_findCycle`), and the graph that some events tell of is extended by the
one that more events tell of (`Ledger.extends_ofEvents`). -/

namespace Interleave.Memory

namespace Graph

variable {g g' g'' : Graph} {l l' : List Nat} {a : Addr} {i j x : Nat}

/-- The second graph is the first one after a read, a write, an update or a commit. -/
inductive Grows : Graph → Graph → Prop where
  | read (g : Graph) (t : Nat) (a : Addr) (forwarded : Option Nat)
      (h : ∀ i ∈ forwarded, i < g.nodes.length) : Grows g (g.read t a forwarded)
  | write (g : Graph) (t : Nat) (a : Addr) : Grows g (g.write t a)
  | update (g : Graph) (t : Nat) (a : Addr) : Grows g (g.update t a)
  | commit (g : Graph) (i : Nat) (h : i < g.nodes.length) : Grows g (g.commit i)

/-- The second graph has the nodes and the commits of the first one, and possibly more behind them. -/
structure Extends (g g' : Graph) : Prop where
  nodes : g.nodes <+: g'.nodes
  commits : g.commits <+: g'.commits

/-! ### Growing graphs are extended -/

theorem Extends.refl (g : Graph) : Extends g g := ⟨List.prefix_rfl, List.prefix_rfl⟩

theorem Extends.trans (h : Extends g g') (h' : Extends g' g'') : Extends g g'' :=
  ⟨h.nodes.trans h'.nodes, h.commits.trans h'.commits⟩

theorem extends_push (g : Graph) (n : Node) : Extends g (g.push n) :=
  ⟨List.prefix_append _ _, List.prefix_rfl⟩

theorem extends_commit (g : Graph) (i : Nat) : Extends g (g.commit i) := by
  unfold Graph.commit
  split
  · exact ⟨List.prefix_rfl, List.prefix_append _ _⟩
  · exact .refl g

theorem Grows.extends (h : Grows g g') : Extends g g' := by
  cases h with
  | read => exact extends_push _ _
  | write => exact extends_push _ _
  | update => exact (extends_push _ _).trans (extends_commit _ _)
  | commit => exact extends_commit _ _

/-- **Accesses extend the graph**, however many there are. -/
theorem extends_of_grows (h : Relation.ReflTransGen Grows g g') : Extends g g' := by
  induction h with
  | refl => exact .refl g
  | tail _ hgrows ih => exact ih.trans hgrows.extends

theorem Built.grows (hg : g.Built) (h : Grows g g') : g'.Built := by
  cases h with
  | read t a forwarded h => exact hg.read t a forwarded h
  | write t a => exact hg.write t a
  | update t a => exact hg.update t a
  | commit i h => exact hg.commit i h

theorem Built.of_grows (hg : g.Built) (h : Relation.ReflTransGen Grows g g') : g'.Built := by
  induction h with
  | refl => exact hg
  | tail _ hgrows ih => exact ih.grows hgrows

/-! ### Longer lists of stores -/

theorem neighbours_subset (h : l <+: l') : neighbours l ⊆ neighbours l' := by
  obtain ⟨rest, rfl⟩ := h
  induction l with
  | nil => exact List.nil_subset _
  | cons x l ih =>
      cases l with
      | nil => exact List.nil_subset _
      | cons y l => exact List.cons_subset_cons (x, y) ih

theorem head?_of_prefix (h : l <+: l') (hj : l.head? = some j) : l'.head? = some j := by
  obtain ⟨rest, rfl⟩ := h
  rw [List.head?_append, hj]
  rfl

theorem next?_of_prefix (h : l <+: l') (hx : next? x l = some j) : next? x l' = some j := by
  obtain ⟨rest, rfl⟩ := h
  have hne : l.dropWhile (· != x) ≠ [] := by
    intro hnil
    rw [next?, hnil] at hx
    cases hx
  have hdrop : (l ++ rest).dropWhile (· != x) = l.dropWhile (· != x) ++ rest := by
    rw [List.dropWhile_append]
    simp [hne]
  rw [next?, hdrop, List.getElem?_append_left (List.getElem?_eq_some_iff.mp hx).1]
  exact hx

theorem edgeTo_subset {o o' : Option Nat} (h : ∀ j, o = some j → o' = some j) :
    edgeTo i o ⊆ edgeTo i o' := by
  cases o with
  | none => exact List.nil_subset _
  | some j =>
      rw [h j rfl]
      exact List.Subset.refl _

/-! ### Edges stay -/

namespace Extends

variable (h : Extends g g')

include h

theorem coherence (a : Addr) : g.coherence a <+: g'.coherence a := h.commits.filterMap _

theorem getElem?_nodes_of_lt (hi : i < g.nodes.length) : g'.nodes[i]? = g.nodes[i]? := by
  obtain ⟨rest, hrest⟩ := h.nodes
  rw [← hrest, List.getElem?_append_left hi]

theorem getElem?_nodes {n : Node} (hn : g.nodes[i]? = some n) : g'.nodes[i]? = some n :=
  (h.getElem?_nodes_of_lt (List.getElem?_eq_some_iff.mp hn).1).trans hn

theorem mem_programOrder (hij : (i, j) ∈ g.programOrder) : (i, j) ∈ g'.programOrder := by
  obtain ⟨n, m, hn, hm, hlt, hthread, hnone⟩ := Graph.mem_programOrder.mp hij
  refine Graph.mem_programOrder.mpr
    ⟨n, m, h.getElem?_nodes hn, h.getElem?_nodes hm, hlt, hthread, fun k x hx hik hkj => ?_⟩
  -- new nodes are behind `j`, so none of them comes between the two
  have hk : k < g.nodes.length := hkj.trans (List.getElem?_eq_some_iff.mp hm).1
  rw [h.getElem?_nodes_of_lt hk] at hx
  exact hnone k x hx hik hkj

theorem communication_subset (n : Node) (r : Nat) : g.communication n r ⊆ g'.communication n r := by
  unfold Graph.communication
  cases n.action.source? with
  | none => exact List.nil_subset _
  | some source =>
      cases source with
      | none => exact edgeTo_subset fun j hj => head?_of_prefix (h.coherence n.addr) hj
      | some w =>
          have hbehind : edgeTo r (next? w (g.coherence n.addr)) ⊆
              edgeTo r (next? w (g'.coherence n.addr)) :=
            edgeTo_subset fun j hj => next?_of_prefix (h.coherence n.addr) hj
          exact List.append_subset.mpr ⟨List.subset_append_left _ _,
            List.Subset.trans hbehind (List.subset_append_right _ _)⟩

/-- **Every edge stays.** -/
theorem edge (hij : g.Edge i j) : g'.Edge i j := by
  rw [edge_iff] at hij ⊢
  rcases hij with hij | ⟨a, hij⟩ | ⟨r, n, hn, hij⟩
  · exact .inl (h.mem_programOrder hij)
  · exact .inr (.inl ⟨a, neighbours_subset (h.coherence a) hij⟩)
  · exact .inr (.inr ⟨r, n, h.getElem?_nodes hn, h.communication_subset n r hij⟩)

/-- **A cycle that is found in a graph is found in every graph that extends it**, though it need not be
the same one. -/
theorem isSome_findCycle (hg : g.Sound) (hg' : g'.Sound) (hcycle : g.findCycle.isSome = true) :
    g'.findCycle.isSome = true := by
  rw [Option.isSome_iff_ne_none, ne_eq, findCycle_eq_none_iff fun _ _ => hg.edge_lt] at hcycle
  rw [Option.isSome_iff_ne_none, ne_eq, findCycle_eq_none_iff fun _ _ => hg'.edge_lt]
  intro hacyclic
  refine hcycle fun i hi => hacyclic i ?_
  exact Relation.TransGen.mono (fun _ _ hij => h.edge hij) _ _ hi

end Extends

end Graph

/-! ### More events -/

theorem Ledger.extends_record (l : Ledger) (e : Event) : l.graph.Extends (l.record e).graph :=
  ⟨List.prefix_append _ _, List.prefix_append _ _⟩

theorem Ledger.extends_ofEvents (u v : List Event) :
    (ofEvents u).graph.Extends (ofEvents (u ++ v)).graph := by
  induction v using List.reverseRecOn with
  | nil => simpa using Graph.Extends.refl _
  | append_singleton v e ih =>
      rw [← List.append_assoc, ofEvents_concat]
      exact ih.trans (extends_record _ e)

end Interleave.Memory
