import Interleave.Proofs.Commuting
import Interleave.Proofs.Memory.Cycle
import Mathlib.Logic.Equiv.Defs

/-! # Renumbered memory graphs

The numbers of the nodes of a memory graph tell the order in which the accesses were issued, which is
more than the graph means.  A renumbering that keeps the order within each thread and the order of the
stores at each address takes edges to edges (`Graph.Renamed.edge`), and so cycles to cycles. -/

namespace Interleave.Memory

/-- The action with another number for its source. -/
def Action.rename (π : Nat → Nat) : Action → Action
  | read source => read (source.map π)
  | write => write
  | update source => update (source.map π)

/-- The node with another number for the source of its value. -/
def Node.rename (π : Nat → Nat) (n : Node) : Node := { n with action := n.action.rename π }

@[simp] theorem Node.thread_rename (π : Nat → Nat) (n : Node) : (n.rename π).thread = n.thread := rfl

@[simp] theorem Node.addr_rename (π : Nat → Nat) (n : Node) : (n.rename π).addr = n.addr := rfl

theorem Action.source?_rename (π : Nat → Nat) (x : Action) :
    (x.rename π).source? = x.source?.map (Option.map π) := by
  cases x <;> rfl

namespace Graph

variable {g g' : Graph} {π : Equiv.Perm Nat} {i j : Nat}

/-! ### Program order -/

/-- In a list that is numbered in order, the first node of a thread is the one of least number. -/
theorem find?_thread {l : List (Node × Nat)} (hl : l.Pairwise fun x y => x.2 < y.2) {t : Nat} :
    (∃ m, l.find? (fun x => x.1.thread == t) = some (m, j)) ↔
      ∃ m, (m, j) ∈ l ∧ m.thread = t ∧ ∀ x ∈ l, x.2 < j → x.1.thread ≠ t := by
  constructor
  · rintro ⟨m, hm⟩
    obtain ⟨hthread, before, behind, rfl, hnone⟩ := List.find?_eq_some_iff_append.mp hm
    have hthread : m.thread = t := by simpa using hthread
    refine ⟨m, by simp, hthread, fun x hx hxj => ?_⟩
    rcases List.mem_append.mp hx with hx | hx
    · simpa using hnone x hx
    · have hge := List.pairwise_cons.mp (List.pairwise_append.mp hl).2.1
      rcases List.mem_cons.mp hx with rfl | hx
      · omega
      · have := hge.1 x hx
        omega
  · rintro ⟨m, hm, hthread, hnone⟩
    refine ⟨m, List.find?_eq_some_iff_append.mpr ⟨by simpa using hthread, ?_⟩⟩
    obtain ⟨before, behind, rfl⟩ := List.append_of_mem hm
    refine ⟨before, behind, rfl, fun x hx => ?_⟩
    have hlt := (List.pairwise_append.mp hl).2.2 x hx (m, j) List.mem_cons_self
    simpa using hnone x (List.mem_append_left _ hx) hlt

/-- In a list that is numbered in order, the edges lead to the next node of the same thread. -/
theorem mem_threadOrder {l : List (Node × Nat)} (hl : l.Pairwise fun x y => x.2 < y.2) :
    (i, j) ∈ threadOrder l ↔ ∃ n m, (n, i) ∈ l ∧ (m, j) ∈ l ∧ i < j ∧ m.thread = n.thread ∧
      ∀ x ∈ l, i < x.2 → x.2 < j → x.1.thread ≠ n.thread := by
  induction l with
  | nil => simp [threadOrder]
  | cons y rest ih =>
      obtain ⟨n₀, i₀⟩ := y
      obtain ⟨hhead, hrest⟩ := List.pairwise_cons.mp hl
      have hfirst := find?_thread (j := j) hrest (t := n₀.thread)
      have hmem : (i, j) ∈ threadOrder ((n₀, i₀) :: rest) ↔
          (i = i₀ ∧ ∃ m, rest.find? (fun x => x.1.thread == n₀.thread) = some (m, j)) ∨
            (i, j) ∈ threadOrder rest := by
        rw [threadOrder]
        split
        · rename_i m k hfind
          simp [hfind, eq_comm]
        · rename_i hfind
          simp [hfind]
      rw [hmem, hfirst, ih hrest]
      constructor
      · rintro (⟨rfl, m, hm, hthread, hnone⟩ | ⟨n, m, hn, hm, hij, hthread, hnone⟩)
        · refine ⟨n₀, m, List.mem_cons_self, List.mem_cons_of_mem _ hm, hhead _ hm, hthread, ?_⟩
          intro x hx hix hxj
          rcases List.mem_cons.mp hx with rfl | hx
          · omega
          · exact hnone x hx hxj
        · refine ⟨n, m, List.mem_cons_of_mem _ hn, List.mem_cons_of_mem _ hm, hij, hthread, ?_⟩
          intro x hx hix hxj
          rcases List.mem_cons.mp hx with rfl | hx
          · have := hhead _ hn
            omega
          · exact hnone x hx hix hxj
      · rintro ⟨n, m, hn, hm, hij, hthread, hnone⟩
        have hm' : (m, j) ∈ rest := by
          rcases List.mem_cons.mp hm with hm | hm
          · cases hm
            rcases List.mem_cons.mp hn with hn | hn
            · cases hn
              omega
            · have := hhead _ hn
              omega
          · exact hm
        rcases List.mem_cons.mp hn with hn | hn
        · cases hn
          refine .inl ⟨rfl, m, hm', hthread, fun x hx hxj => ?_⟩
          exact hnone x (List.mem_cons_of_mem _ hx) (hhead x hx) hxj
        · exact .inr ⟨n, m, hn, hm', hij, hthread, fun x hx =>
            hnone x (List.mem_cons_of_mem _ hx)⟩

theorem mem_programOrder : (i, j) ∈ g.programOrder ↔
    ∃ n m, g.nodes[i]? = some n ∧ g.nodes[j]? = some m ∧ i < j ∧ m.thread = n.thread ∧
      ∀ k x, g.nodes[k]? = some x → i < k → k < j → x.thread ≠ n.thread := by
  rw [programOrder, mem_threadOrder (pairwise_zipIdx g.nodes)]
  simp only [List.mem_zipIdx_iff_getElem?, Prod.forall]
  exact ⟨fun ⟨n, m, hn, hm, hij, ht, h⟩ => ⟨n, m, hn, hm, hij, ht, fun k x => h x k⟩,
    fun ⟨n, m, hn, hm, hij, ht, h⟩ => ⟨n, m, hn, hm, hij, ht, fun x k => h k x⟩⟩

/-! ### Coherence and communication -/

theorem coherence_eq_nil {a : Addr} (h : a ∉ g.addresses) : g.coherence a = [] := by
  rw [coherence, List.filterMap_eq_nil_iff]
  rintro ⟨i, b⟩ hi
  have hne : b ≠ a := by
    rintro rfl
    exact h (List.mem_eraseDups.mpr (List.mem_map_of_mem hi))
  simp [hne]

theorem mem_coherenceOrder :
    (i, j) ∈ g.coherenceOrder g.addresses ↔ ∃ a, (i, j) ∈ neighbours (g.coherence a) := by
  rw [coherenceOrder, List.mem_flatMap]
  constructor
  · rintro ⟨a, -, h⟩
    exact ⟨a, h⟩
  · rintro ⟨a, h⟩
    refine ⟨a, ?_, h⟩
    by_contra ha
    rw [coherence_eq_nil ha] at h
    cases h

/-- The stores of a list that come behind a source; all of them come behind the initial value. -/
def following (source : Option Nat) (stores : List Nat) : List Nat :=
  match source with
  | none => stores
  | some w => (stores.dropWhile (· != w)).tail

theorem following_subset (source : Option Nat) (stores : List Nat) :
    following source stores ⊆ stores := by
  cases source with
  | none => exact List.Subset.refl _
  | some w => exact ((List.tail_sublist _).trans (List.dropWhile_sublist _)).subset

theorem of_mem_edgeTo {i' : Nat} {j' : Option Nat} (h : (i, j) ∈ edgeTo i' j') :
    i = i' ∧ j' = some j ∧ i ≠ j := by
  unfold edgeTo at h
  split at h
  · split at h
    · cases h
    · simp only [List.mem_singleton, Prod.mk.injEq] at h
      obtain ⟨rfl, rfl⟩ := h
      exact ⟨rfl, rfl, fun he => by simp_all⟩
  · cases h

/-- What an access reads leads from its source to it, and from it to a store behind the source. -/
theorem of_mem_communication {n : Node} {r : Nat} (h : (i, j) ∈ g.communication n r) :
    (j = r ∧ n.action.source? = some (some i)) ∨
      (i = r ∧ j ≠ r ∧ ∃ source, n.action.source? = some source ∧
        j ∈ following source (g.coherence n.addr)) := by
  unfold communication at h
  split at h
  · cases h
  · rename_i w hw
    rcases List.mem_append.mp h with h | h
    · obtain ⟨rfl, hj, -⟩ := of_mem_edgeTo h
      exact .inl ⟨(Option.some.inj hj).symm, hw⟩
    · obtain ⟨rfl, hj, hne⟩ := of_mem_edgeTo h
      refine .inr ⟨rfl, hne.symm, some w, hw, ?_⟩
      rw [next?, ← List.getElem?_tail] at hj
      exact List.mem_of_getElem? hj
  · rename_i hw
    obtain ⟨rfl, hj, hne⟩ := of_mem_edgeTo h
    exact .inr ⟨rfl, hne.symm, none, hw, List.mem_of_mem_head? hj⟩

theorem edge_iff : g.Edge i j ↔ (i, j) ∈ g.programOrder ∨
    (∃ a, (i, j) ∈ neighbours (g.coherence a)) ∨
      ∃ r n, g.nodes[r]? = some n ∧ (i, j) ∈ g.communication n r := by
  simp only [Edge, edges, edgesVisiting, List.mem_append, mem_coherenceOrder, List.mem_flatMap,
    Prod.exists, List.mem_zipIdx_iff_getElem?, or_assoc]
  rw [exists_comm]

/-- All numbers in a graph are numbers of its nodes. -/
structure Sound (g : Graph) : Prop where
  commits : ∀ x ∈ g.commits, x.1 < g.nodes.length
  sources : ∀ n ∈ g.nodes, ∀ i, n.action.source? = some (some i) → i < g.nodes.length

theorem Sound.coherence_lt (h : g.Sound) {a : Addr} (hi : i ∈ g.coherence a) : i < g.nodes.length := by
  obtain ⟨⟨k, b⟩, hk, hki⟩ := List.mem_filterMap.mp hi
  simp only [Option.ite_none_right_eq_some, Option.some.injEq] at hki
  rw [← hki.2]
  exact h.commits (k, b) hk

theorem Sound.lastStore_lt (h : g.Sound) {a : Addr} (hi : g.lastStore a = some i) :
    i < g.nodes.length :=
  h.coherence_lt (List.mem_of_getLast? hi)

theorem Sound.edge_lt (h : g.Sound) (hij : g.Edge i j) : i < g.nodes.length ∧ j < g.nodes.length := by
  rcases edge_iff.mp hij with hij | ⟨a, hij⟩ | ⟨r, n, hn, hij⟩
  · obtain ⟨n, m, hn, hm, -⟩ := mem_programOrder.mp hij
    exact ⟨(List.getElem?_eq_some_iff.mp hn).1, (List.getElem?_eq_some_iff.mp hm).1⟩
  · obtain ⟨hi, hj⟩ := List.of_mem_zip hij
    exact ⟨h.coherence_lt hi, h.coherence_lt (List.mem_of_mem_tail hj)⟩
  · have hr := (List.getElem?_eq_some_iff.mp hn).1
    rcases of_mem_communication hij with ⟨rfl, hs⟩ | ⟨rfl, -, source, -, hj⟩
    · exact ⟨h.sources n (List.mem_of_getElem? hn) i hs, hr⟩
    · exact ⟨hr, h.coherence_lt (following_subset source _ hj)⟩

theorem neighbours_map (f : Nat → Nat) (l : List Nat) :
    neighbours (l.map f) = (neighbours l).map (Prod.map f f) := by
  rw [neighbours, neighbours, ← List.map_tail, List.zip_map]

theorem edgeTo_map {f : Nat → Nat} (hf : f.Injective) (i : Nat) (j : Option Nat) :
    edgeTo (f i) (j.map f) = (edgeTo i j).map (Prod.map f f) := by
  cases j with
  | none => rfl
  | some j =>
      simp only [edgeTo, Option.map_some, hf.eq_iff]
      split <;> rfl

theorem next?_map {f : Nat → Nat} (hf : f.Injective) (x : Nat) (l : List Nat) :
    next? (f x) (l.map f) = (next? x l).map f := by
  have hdrop : (l.map f).dropWhile (· != f x) = (l.dropWhile (· != x)).map f := by
    rw [List.dropWhile_map]
    congr 2
    funext y
    simp [Function.comp_apply, bne, hf.beq_eq]
  rw [next?, hdrop, List.getElem?_map]
  rfl

/-! ### Renumbered graphs -/

/-- The second graph is the first one with node `i` numbered `π i`. -/
structure Renamed (π : Equiv.Perm Nat) (g g' : Graph) : Prop where
  /-- Numbers that are not used yet stay. -/
  fixes : ∀ i, g.nodes.length ≤ i → π i = i
  nodes : ∀ i, g'.nodes[π i]? = g.nodes[i]?.map (Node.rename π)
  /-- The order of the nodes of a thread stays. -/
  order : ∀ i j n m, g.nodes[i]? = some n → g.nodes[j]? = some m → n.thread = m.thread → i < j →
    π i < π j
  coherence : ∀ a, g'.coherence a = (g.coherence a).map π

namespace Renamed

variable (h : Renamed π g g')

include h

theorem apply_lt (hi : i < g.nodes.length) : π i < g.nodes.length := by
  by_contra hle
  have := π.injective (h.fixes (π i) (Nat.le_of_not_lt hle))
  omega

theorem length_eq : g'.nodes.length = g.nodes.length := by
  have hlt : ∀ i, i < g'.nodes.length ↔ i < g.nodes.length := by
    intro i
    obtain ⟨k, rfl⟩ := π.surjective i
    have hnodes : π k < g'.nodes.length ↔ k < g.nodes.length := by
      have hsome := congrArg Option.isSome (h.nodes k)
      rw [Option.isSome_map, Bool.eq_iff_iff] at hsome
      simpa using hsome
    rw [hnodes]
    refine ⟨h.apply_lt, fun hk => ?_⟩
    by_contra hle
    rw [h.fixes k (Nat.le_of_not_lt hle)] at hk
    exact hle hk
  exact Nat.le_antisymm (Nat.le_of_not_lt fun hgt => Nat.lt_irrefl _ ((hlt _).mp hgt))
    (Nat.le_of_not_lt fun hgt => Nat.lt_irrefl _ ((hlt _).mpr hgt))

theorem communication (n : Node) (r : Nat) :
    g'.communication (n.rename π) (π r) = (g.communication n r).map (Prod.map π π) := by
  rw [Graph.communication, Graph.communication]
  simp only [Node.rename, Action.source?_rename, h.coherence]
  cases n.action.source? with
  | none => rfl
  | some source =>
      cases source with
      | none => simp only [Option.map_some, Option.map_none, List.head?_map, edgeTo_map π.injective]
      | some w =>
          simp only [Option.map_some, next?_map π.injective, List.map_append,
            ← edgeTo_map π.injective]

theorem mem_programOrder (hij : (i, j) ∈ g.programOrder) : (π i, π j) ∈ g'.programOrder := by
  obtain ⟨n, m, hn, hm, hlt, hthread, hnone⟩ := Graph.mem_programOrder.mp hij
  refine Graph.mem_programOrder.mpr ⟨n.rename π, m.rename π, ?_, ?_, ?_, hthread, ?_⟩
  · rw [h.nodes, hn, Option.map_some]
  · rw [h.nodes, hm, Option.map_some]
  · exact h.order i j n m hn hm hthread.symm hlt
  · intro k x hx hik hkj hxn
    obtain ⟨k, rfl⟩ := π.surjective k
    rw [h.nodes, Option.map_eq_some_iff] at hx
    obtain ⟨x, hx, rfl⟩ := hx
    rw [Node.thread_rename, Node.thread_rename] at hxn
    -- The node lies between the two already before the renumbering.
    have hik' : i < k := by
      by_contra hle
      rcases Nat.lt_or_eq_of_le (Nat.le_of_not_lt hle) with hlt | rfl
      · have := h.order k i x n hx hn hxn hlt
        omega
      · omega
    have hkj' : k < j := by
      by_contra hle
      rcases Nat.lt_or_eq_of_le (Nat.le_of_not_lt hle) with hlt | rfl
      · have := h.order j k m x hm hx (hthread.trans hxn.symm) hlt
        omega
      · omega
    exact hnone k x hx hik' hkj' hxn

/-- **A renumbering takes edges to edges.** -/
theorem edge (hij : g.Edge i j) : g'.Edge (π i) (π j) := by
  rw [edge_iff] at hij ⊢
  rcases hij with hij | ⟨a, hij⟩ | ⟨r, n, hn, hij⟩
  · exact .inl (h.mem_programOrder hij)
  · refine .inr (.inl ⟨a, ?_⟩)
    rw [h.coherence, neighbours_map]
    exact List.mem_map_of_mem (f := Prod.map π π) hij
  · refine .inr (.inr ⟨π r, n.rename π, ?_, ?_⟩)
    · rw [h.nodes, hn, Option.map_some]
    · rw [h.communication]
      exact List.mem_map_of_mem (f := Prod.map π π) hij

theorem transGen (hij : Relation.TransGen g.Edge i j) :
    Relation.TransGen g'.Edge (π i) (π j) :=
  hij.lift π fun _ _ hij => h.edge hij

end Renamed

end Graph

end Interleave.Memory
