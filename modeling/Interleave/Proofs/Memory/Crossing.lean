import Interleave.Proofs.Memory.Serial

/-! # Edges that lead back

At a point of an execution all accesses so far are visible apart from the stores that wait.  What comes
later reads from the last visible store or from something later (`Ledger.Beyond`).  So an edge of the
memory graph that leads from a later access back to an earlier one leads to a store that waits
(`Ledger.waits_of_edge_back`). -/

namespace Interleave.Memory

namespace Graph

variable {g : Graph} {i j : Nat}

theorem following_eq_nil {w : Nat} {stores : List Nat} (h : w ∉ stores) :
    following (some w) stores = [] := by
  have hne : ∀ i ∈ stores, (i != w) = true := by
    intro i hi
    rw [bne_iff_ne]
    rintro rfl
    exact h hi
  simp only [following]
  rw [List.dropWhile_eq_nil_iff.mpr hne]
  rfl

theorem following_append_subset (source : Option Nat) (l l' : List Nat) :
    following source (l ++ l') ⊆ following source l ++ l' := by
  cases source with
  | none => exact List.Subset.refl _
  | some w =>
      simp only [following]
      rw [List.dropWhile_append]
      split
      · intro i hi
        refine List.mem_append_right _ ?_
        exact (List.dropWhile_sublist _).subset (List.mem_of_mem_tail hi)
      · rename_i hne
        rw [List.tail_append_of_ne_nil (by simpa using hne)]
        exact List.Subset.refl _

theorem transGen_of_thread {n m : Node} (hn : g.nodes[i]? = some n) (hm : g.nodes[j]? = some m)
    (hthread : n.thread = m.thread) (hij : i < j) : Relation.TransGen g.Edge i j := by
  induction hd : j - i using Nat.strong_induction_on generalizing i j n m with
  | _ d ih =>
      by_cases hnone : ∀ k x, g.nodes[k]? = some x → i < k → k < j → x.thread ≠ n.thread
      · have hnext : (i, j) ∈ g.programOrder :=
          mem_programOrder.mpr ⟨n, m, hn, hm, hij, hthread.symm, hnone⟩
        exact .single (edge_iff.mpr (.inl hnext))
      · push Not at hnone
        obtain ⟨k, x, hx, hik, hkj, hxn⟩ := hnone
        exact (ih (k - i) (by omega) hn hx hxn.symm hik rfl).trans
          (ih (j - k) (by omega) hx hm (hxn.trans hthread) hkj rfl)

end Graph

namespace Ledger

variable {l l' : Ledger} {visible : List Nat} {u : List Event} {e : Event} {i j : Nat}

/-- The node waits in a buffer. -/
def Waits (l : Ledger) (i : Nat) : Prop := ∃ t, ∃ x ∈ l.waiting t, x.2 = i

/-- The ledger does not have the node yet, or the node waits. -/
def Later (l : Ledger) (i : Nat) : Prop := l.graph.nodes.length ≤ i ∨ l.Waits i

/-- The ledger `l'` continues `l`: what has reached memory since then is later or was waiting, and no
access that has been added reads what a store that was visible in `l` had overwritten. -/
structure Beyond (l l' : Ledger) : Prop where
  nodes : l.graph.nodes <+: l'.graph.nodes
  coherence : ∀ a, ∃ later, l'.graph.coherence a = l.graph.coherence a ++ later ∧
    ∀ i ∈ later, l.Later i
  waiting : ∀ t, ∀ x ∈ l'.waiting t, l.Later x.2
  sources : ∀ i n source, l.graph.nodes.length ≤ i → l'.graph.nodes[i]? = some n →
    n.action.source? = some source → Graph.following source (l.graph.coherence n.addr) = []

theorem beyond_self (l : Ledger) : l.Beyond l where
  nodes := List.prefix_refl _
  coherence a := ⟨[], by simp, by simp⟩
  waiting t x hx := .inr ⟨t, x, hx, rfl⟩
  sources i n source hi hn := by
    rw [List.getElem?_eq_none hi] at hn
    cases hn

theorem Visible.nodup_coherence (h : l.Visible visible) (a : Addr) : (l.graph.coherence a).Nodup := by
  rw [h.coherence]
  exact h.nodup.filter _

/-- The last store is followed by none of the earlier ones. -/
theorem Beyond.following_lastStore (h : l.Beyond l') (hv : l'.Visible visible) (a : Addr) :
    Graph.following (l'.graph.lastStore a) (l.graph.coherence a) = [] := by
  obtain ⟨later, hco, -⟩ := h.coherence a
  have hnodup := hv.nodup_coherence a
  rw [Graph.lastStore, hco]
  rw [hco] at hnodup
  cases later using List.reverseRecOn with
  | nil =>
      have := Graph.following_getLast? hnodup
      simpa using this
  | append_singleton later w =>
      rw [← List.append_assoc, List.getLast?_concat]
      refine Graph.following_eq_nil fun hw => ?_
      exact (List.nodup_append.mp hnodup).2.2 w hw w (by simp) rfl

/-- A store that waits is followed by none of those that have reached memory. -/
theorem Beyond.following_newest (h : l.Beyond l') (hv : l'.Visible visible) {r w : Nat} {a : Addr}
    (hw : l'.newest r a = some w) : Graph.following (some w) (l.graph.coherence a) = [] := by
  refine Graph.following_eq_nil fun hmem => ?_
  obtain ⟨x, hx, rfl⟩ := Option.map_eq_some_iff.mp hw
  have hx := List.mem_reverse.mp (List.mem_of_find?_eq_some hx)
  obtain ⟨later, hco, -⟩ := h.coherence a
  have hmem' : x.2 ∈ l'.graph.coherence a := by
    rw [hco]
    exact List.mem_append_left _ hmem
  rw [hv.coherence] at hmem'
  exact (hv.waiting r x hx).1 (List.mem_of_mem_filter hmem')

theorem Beyond.nodes_append (h : l.Beyond l') {l'' : Ledger} {ns : List Node}
    (hnodes : l''.graph.nodes = l'.graph.nodes ++ ns) : l.graph.nodes <+: l''.graph.nodes := by
  rw [hnodes]
  exact h.nodes.trans (List.prefix_append _ _)

theorem Beyond.coherence_append (h : l.Beyond l') {l'' : Ledger} {a : Addr} {b : Bool}
    (hi : l.Later i) (hco : l''.graph.coherence a = l'.graph.coherence a ++ bif b then [i] else []) :
    ∃ later, l''.graph.coherence a = l.graph.coherence a ++ later ∧ ∀ i ∈ later, l.Later i := by
  obtain ⟨later, hco', hlater⟩ := h.coherence a
  rw [hco, hco', List.append_assoc]
  refine ⟨_, rfl, fun j hj => ?_⟩
  rcases List.mem_append.mp hj with hj | hj
  · exact hlater j hj
  · rw [Bool.cond_eq_ite] at hj
    split at hj
    · rwa [List.mem_singleton.mp hj]
    · cases hj

/-- **One more event.** -/
theorem Beyond.record (h : l.Beyond l') (hv : l'.Visible visible) (e : Event) :
    l.Beyond (l'.record e) := by
  have hnext : l.Later l'.graph.nodes.length := .inl h.nodes.length_le
  rcases l'.record_cases e with heq | ⟨r, a, he⟩ | ⟨n, -, -, ha⟩ | ⟨r, x, rest, hf⟩
  · rwa [heq]
  · refine ⟨h.nodes_append he.nodes, fun b => ?_, fun u x hx => ?_, fun i n source hi hn hs => ?_⟩
    · rw [he.coherence]
      exact h.coherence b
    · rw [he.waiting] at hx
      split at hx
      · rcases List.mem_append.mp hx with hx | hx
        · exact h.waiting u x hx
        · rw [List.mem_singleton.mp hx]
          exact hnext
      · exact h.waiting u x hx
    · rw [he.nodes] at hn
      rcases of_getElem?_concat hn with hn | ⟨-, rfl⟩
      · exact h.sources i n source hi hn hs
      · cases hs
  · refine ⟨h.nodes_append ha.nodes, fun b => h.coherence_append hnext (ha.coherence b),
      fun u x hx => ?_, fun i m source hi hm hs => ?_⟩
    · rw [ha.waiting] at hx
      exact h.waiting u x hx
    · rw [ha.nodes] at hm
      rcases of_getElem?_concat hm with hm | ⟨-, rfl⟩
      · exact h.sources i m source hi hm hs
      · have hlast := h.following_lastStore hv n.addr
        rcases ha.source source hs with rfl | rfl
        · cases hnewest : l'.newest n.thread n.addr with
          | none => exact hlast
          | some w => exact h.following_newest hv hnewest
        · exact hlast
  · refine ⟨hf.nodes ▸ h.nodes, fun b => ?_, fun u y hy => ?_, fun i n source hi hn hs => ?_⟩
    · exact h.coherence_append (h.waiting r x (by simp [hf.head])) (hf.coherence b)
    · rw [hf.waiting] at hy
      split at hy
      · exact h.waiting r y (by simp [hf.head, hy])
      · exact h.waiting u y hy
    · exact h.sources i n source hi (hf.nodes ▸ hn) hs

theorem beyond_ofEvents (u v : List Event) : (ofEvents u).Beyond (ofEvents (u ++ v)) := by
  induction v using List.reverseRecOn with
  | nil =>
      rw [List.append_nil]
      exact beyond_self _
  | append_singleton v e ih =>
      obtain ⟨visible, hvisible⟩ := visible_ofEvents (u ++ v)
      rw [← List.append_assoc, ofEvents_concat]
      exact ih.record hvisible e

/-- **An edge that leads back leads to a store that waits.** -/
theorem waits_of_edge_back {v : List Event} (hi : (ofEvents u).graph.nodes.length ≤ i)
    (hj : j < (ofEvents u).graph.nodes.length) (hij : (ofEvents (u ++ v)).graph.Edge i j) :
    (ofEvents u).Waits j := by
  have h := beyond_ofEvents u v
  have hsound := sound_ofEvents u
  have hlater : (ofEvents u).Later j → (ofEvents u).Waits j := fun hlater =>
    hlater.resolve_left (Nat.not_le_of_lt hj)
  rcases Graph.edge_iff.mp hij with hij | ⟨a, hij⟩ | ⟨r, n, hn, hij⟩
  · obtain ⟨-, -, -, -, hlt, -⟩ := Graph.mem_programOrder.mp hij
    omega
  · obtain ⟨later, hco, hall⟩ := h.coherence a
    -- behind a later store come only later ones
    have hpairwise : ((ofEvents (u ++ v)).graph.coherence a).Pairwise fun i j =>
        (ofEvents u).graph.nodes.length ≤ i → (ofEvents u).Later j := by
      have htrue : ∀ l : List Nat, l.Pairwise fun _ _ => True := fun l =>
        List.pairwise_of_forall fun _ _ => trivial
      rw [hco, List.pairwise_append]
      refine ⟨(htrue _).imp_of_mem fun hi _ _ hle => ?_, (htrue _).imp_of_mem fun _ hj _ _ => hall _ hj,
        fun i _ j hj _ => hall j hj⟩
      have := hsound.coherence_lt hi
      omega
    exact hlater (Graph.rel_of_mem_neighbours hpairwise hij hi)
  · rcases Graph.of_mem_communication hij with ⟨rfl, hs⟩ | ⟨rfl, -, source, hs, hmem⟩
    · -- an earlier access has an earlier source
      obtain ⟨ns, hns⟩ := h.nodes
      rw [← hns, List.getElem?_append_left hj] at hn
      have := hsound.sources n (List.mem_of_getElem? hn) i hs
      omega
    · -- a later access does not read what a visible store has overwritten
      obtain ⟨later, hco, hall⟩ := h.coherence n.addr
      rw [hco] at hmem
      have hmem := Graph.following_append_subset _ _ _ hmem
      rw [h.sources i n source hi hn hs, List.nil_append] at hmem
      exact hlater (hall j hmem)

end Ledger

end Interleave.Memory
