import Interleave.Proofs.Memory.Visible

/-! # Memory graphs that follow an order

A memory graph has no cycle if its nodes can be ranked so that the rank grows along all edges
(`Graph.Increases`).  The number of a node is no such rank, since a store can be issued long before
it reaches memory.  What serves is the order in which accesses become visible.  As long as no access is
made while an older store of its own thread waits (`Ledger.Prompt`), each of them finds the newest of
the visible stores (`Ledger.Serial`), and the graph follows the order (`Ledger.Serial.increases`). -/

namespace Interleave.Memory

namespace Graph

/-- The rank of the nodes grows along program order, along the order of the stores at each address,
from a store to what reads it, and from what reads a store to those that overwrite it. -/
structure Increases (g : Graph) (rank : Nat → Nat) : Prop where
  program : ∀ i j n m, g.nodes[i]? = some n → g.nodes[j]? = some m → n.thread = m.thread → i < j →
    rank i < rank j
  coherence : ∀ a, (g.coherence a).Pairwise fun i j => rank i < rank j
  source : ∀ r n w, g.nodes[r]? = some n → n.action.source? = some (some w) → rank w < rank r
  overwritten : ∀ r n source w, g.nodes[r]? = some n → n.action.source? = some source →
    w ∈ following source (g.coherence n.addr) → w ≠ r → rank r < rank w

variable {g : Graph} {rank : Nat → Nat} {i j : Nat}

theorem rel_of_mem_neighbours {R : Nat → Nat → Prop} {l : List Nat} (hl : l.Pairwise R)
    (h : (i, j) ∈ neighbours l) : R i j := by
  induction l with
  | nil => cases h
  | cons k l ih =>
      cases l with
      | nil => cases h
      | cons k' l =>
          obtain ⟨hk, hl⟩ := List.pairwise_cons.mp hl
          rw [neighbours, List.tail_cons, List.zip_cons_cons, List.mem_cons] at h
          rcases h with h | h
          · cases h
            exact hk _ List.mem_cons_self
          · exact ih hl h

/-- **The rank grows along every edge.** -/
theorem Increases.lt_of_edge (h : g.Increases rank) (hij : g.Edge i j) : rank i < rank j := by
  rcases edge_iff.mp hij with hij | ⟨a, hij⟩ | ⟨r, n, hn, hij⟩
  · obtain ⟨n, m, hn, hm, hlt, hthread, -⟩ := mem_programOrder.mp hij
    exact h.program i j n m hn hm hthread.symm hlt
  · exact rel_of_mem_neighbours (R := fun i j => rank i < rank j) (h.coherence a) hij
  · rcases of_mem_communication hij with ⟨rfl, hs⟩ | ⟨rfl, hne, source, hs, hj⟩
    · exact h.source j n i hn hs
    · exact h.overwritten i n source j hn hs hj hne

theorem Increases.lt_of_transGen (h : g.Increases rank) (hij : Relation.TransGen g.Edge i j) :
    rank i < rank j := by
  induction hij with
  | single hij => exact h.lt_of_edge hij
  | tail _ hij ih => exact ih.trans (h.lt_of_edge hij)

/-- The node can stand right behind the list: the list has all earlier nodes of its thread, and if the
node reads, it reads the newest store of the list. -/
def Placed (g : Graph) (before : List Nat) (j : Nat) : Prop :=
  ∀ n, g.nodes[j]? = some n →
    (∀ i < j, ∀ m, g.nodes[i]? = some m → m.thread = n.thread → i ∈ before) ∧
    ∀ source, n.action.source? = some source →
      source = (before.filter (g.storesAt n.addr)).getLast?

theorem Placed.append {g' : Graph} {ns : List Node} {before : List Nat} (h : g.Placed before j)
    (hnodes : g'.nodes = g.nodes ++ ns)
    (hbefore : ∀ i ∈ before, i < g.nodes.length) (hj : j < g.nodes.length) : g'.Placed before j := by
  intro n hn
  rw [getElem?_of_lt hnodes hj] at hn
  obtain ⟨hprogram, hsource⟩ := h n hn
  refine ⟨fun i hi m hm => ?_, fun source hs => ?_⟩
  · rw [getElem?_of_lt hnodes (hi.trans hj)] at hm
    exact hprogram i hi m hm
  · rw [filter_storesAt hnodes hbefore]
    exact hsource source hs

theorem following_getLast? {l l' : List Nat} (h : (l ++ l').Nodup) :
    following l.getLast? (l ++ l') = l' := by
  cases l using List.reverseRecOn with
  | nil => rfl
  | append_singleton l w =>
      have hw : ∀ i ∈ l, (i != w) = true := by
        intro i hi
        rw [List.append_assoc, List.nodup_append] at h
        exact bne_iff_ne.mpr (h.2.2 i hi w List.mem_cons_self)
      rw [List.getLast?_concat, List.append_assoc]
      simp only [following]
      rw [List.dropWhile_append_of_pos hw]
      simp

end Graph

namespace Ledger

variable {l l' : Ledger} {visible : List Nat} {e : Event} {i j t : Nat}

/-- The place of a node in the order: first what is visible, then what waits. -/
def place (visible : List Nat) (i : Nat) : Nat :=
  if i ∈ visible then visible.idxOf i else visible.length + i

theorem place_lt_length (h : i ∈ visible) : place visible i < visible.length := by
  rw [place, if_pos h]
  exact List.idxOf_lt_length_of_mem h

theorem place_lt_place {before : List Nat} (hnd : visible.Nodup) (h : before ++ [j] <+: visible)
    (hi : i ∈ before) : place visible i < place visible j := by
  obtain ⟨behind, rfl⟩ := h
  have hj : j ∉ before := by
    rw [List.append_assoc, List.nodup_append] at hnd
    exact fun hmem => hnd.2.2 j hmem j (by simp) rfl
  rw [place, place, if_pos (by simp [hi]), if_pos (by simp), List.append_assoc,
    List.idxOf_append_of_mem hi, List.idxOf_append_of_notMem hj]
  have := List.idxOf_lt_length_of_mem hi
  omega

/-- The accesses of the list have become visible in this order.  Each of them comes behind all earlier
ones of its thread, and if it reads, it has found the newest store that was visible before it. -/
structure Serial (l : Ledger) (visible : List Nat) : Prop extends l.Visible visible where
  placed : ∀ before j, before ++ [j] <+: visible → l.graph.Placed before j

theorem serial_empty : empty.Serial [] := ⟨visible_empty, by simp⟩

namespace Serial

theorem exists_prefix (hi : i ∈ visible) : ∃ before, before ++ [i] <+: visible := by
  obtain ⟨before, behind, rfl⟩ := List.append_of_mem hi
  exact ⟨before, behind, by simp⟩

/-- **A graph whose accesses became visible one by one follows the order of visibility.** -/
theorem increases (h : l.Serial visible) : l.graph.Increases (place visible) where
  program i j n m hn hm hthread hij := by
    by_cases hj : j ∈ visible
    · obtain ⟨before, hbefore⟩ := exists_prefix hj
      exact place_lt_place h.nodup hbefore ((h.placed before j hbefore m hm).1 i hij n hn hthread)
    · by_cases hi : i ∈ visible
      · have := place_lt_length hi
        rw [place.eq_1 visible j, if_neg hj]
        omega
      · rw [place, place, if_neg hi, if_neg hj]
        omega
  coherence a := by
    rw [h.coherence]
    refine List.Pairwise.filter _ (List.pairwise_iff_getElem.mpr fun i j hi hj hij => ?_)
    rw [place, place, if_pos (List.getElem_mem hi), if_pos (List.getElem_mem hj),
      List.Nodup.idxOf_getElem h.nodup, List.Nodup.idxOf_getElem h.nodup]
    exact hij
  source r n w hn hs := by
    obtain ⟨before, hbefore⟩ := exists_prefix (h.mem_of_source hn hs)
    have hw := (h.placed before r hbefore n hn).2 _ hs
    exact place_lt_place h.nodup hbefore (List.mem_of_mem_filter (List.mem_of_getLast? hw.symm))
  overwritten r n source w hn hs hw hne := by
    obtain ⟨before, behind, hsplit⟩ := List.append_of_mem (h.mem_of_source hn hs)
    have hsource := (h.placed before r ⟨behind, by simp [hsplit]⟩ n hn).2 _ hs
    have hnd : (visible.filter (l.graph.storesAt n.addr)).Nodup := h.nodup.filter _
    rw [h.coherence] at hw
    rw [hsplit, List.filter_append] at hw hnd
    rw [hsource, Graph.following_getLast? hnd] at hw
    have hmem := (List.mem_cons.mp (List.mem_of_mem_filter hw)).resolve_left hne
    obtain ⟨c, d, hcd⟩ := List.append_of_mem hmem
    have hprefix : (before ++ r :: c) ++ [w] <+: visible := ⟨d, by simp [hsplit, hcd]⟩
    exact place_lt_place h.nodup hprefix (by simp)

theorem placed_append (h : l.Serial visible) {ns : List Node}
    (hnodes : l'.graph.nodes = l.graph.nodes ++ ns) {before : List Nat} (hj : before ++ [j] <+: visible) :
    l'.graph.Placed before j :=
  (h.placed before j hj).append hnodes (fun i hi => h.lt i (hj.subset (by simp [hi])))
    (h.lt j (hj.subset (by simp)))

theorem access {n : Node} (h : l.Serial visible) (hnone : l.waiting n.thread = [])
    (ha : l.Accesses l' n) : l'.Serial (visible ++ [l.graph.nodes.length]) := by
  refine ⟨h.toVisible.access ha, fun before j hj => ?_⟩
  rcases List.prefix_concat_iff.mp hj with hj | hj
  · obtain ⟨rfl, hj⟩ := List.append_inj' hj rfl
    obtain rfl : j = l.graph.nodes.length := by simpa using hj
    intro m hm
    obtain rfl : n = m := by simpa [ha.nodes] using hm
    refine ⟨fun i hi m hm hthread => ?_, fun source hs => ?_⟩
    · by_contra hmem
      rw [Graph.getElem?_of_lt ha.nodes hi] at hm
      have := h.waits i m hm hmem
      rw [hthread, hnone] at this
      cases this
    · have hsource : source = l.graph.lastStore n.addr := by
        simpa [newest, hnone] using ha.source source hs
      rw [hsource, Graph.filter_storesAt ha.nodes h.lt, ← h.coherence]
      rfl
  · exact h.placed_append ha.nodes hj

theorem flush {x : Addr × Nat} {rest : List (Addr × Nat)} (h : l.Serial visible)
    (hf : l.Flushes l' t x rest) : l'.Serial (visible ++ [x.2]) := by
  refine ⟨h.toVisible.flush hf, fun before j hj => ?_⟩
  rcases List.prefix_concat_iff.mp hj with hj | hj
  · obtain ⟨rfl, hj⟩ := List.append_inj' hj rfl
    obtain rfl : j = x.2 := by simpa using hj
    intro n hn
    rw [hf.nodes, (h.waiting t x (by simp [hf.head])).2, Option.some.injEq] at hn
    subst hn
    refine ⟨fun i hi m hm hthread => ?_, fun source hs => by cases hs⟩
    by_contra hmem
    have hq := h.queue t
    rw [hf.head, List.pairwise_cons] at hq
    have hmem := h.waits i m (hf.nodes ▸ hm) hmem
    rw [hthread, hf.head] at hmem
    rcases List.mem_cons.mp hmem with heq | hmem
    · rw [← heq] at hi
      exact Nat.lt_irrefl _ hi
    · exact Nat.lt_asymm hi (hq.1 _ hmem)
  · exact h.placed_append (hf.nodes.trans (List.append_nil _).symm) hj

end Serial

/-- The event is no access that overtakes an older store of its own thread. -/
def Prompt (l : Ledger) (e : Event) : Prop :=
  ∀ n, l.node? e = some n → e.kind.access.isEnqueue = false → l.waiting n.thread = []

/-- **One more event** that overtakes nothing. -/
theorem Serial.record (h : l.Serial visible) (hprompt : l.Prompt e) :
    ∃ visible', (l.record e).Serial visible' := by
  rcases l.record_cases e with heq | ⟨t, a, he⟩ | ⟨n, hn, henq, ha⟩ | ⟨t, x, rest, hf⟩
  · rw [heq]
    exact ⟨visible, h⟩
  · exact ⟨visible, h.toVisible.enqueue he, fun _ _ hj => h.placed_append he.nodes hj⟩
  · exact ⟨_, h.access (hprompt n hn henq) ha⟩
  · exact ⟨_, h.flush hf⟩

end Ledger

end Interleave.Memory
