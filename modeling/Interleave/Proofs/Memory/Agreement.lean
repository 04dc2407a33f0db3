import Interleave.Proofs.Memory.Serial

/-! # Memory graphs that agree

The accesses of two executions correspond if they have the same number in the same thread
(`Graph.Correspond`).  Two memory graphs agree if corresponding accesses read from corresponding
stores and the stores that reached memory in the first one did so in the same order in the second
(`Graph.Agrees`).  An order that the second graph follows is then one that the first graph follows as
well (`Graph.Agrees.increases`). -/

namespace Interleave.Memory

namespace Graph

/-- The accesses of thread number `t`, each with its node. -/
def ofThread (g : Graph) (t : Nat) : List (Node × Nat) :=
  g.nodes.zipIdx.filter fun x => x.1.thread == t

/-- Node `i` of one graph and node `j` of the other have the same number in the same thread. -/
def Correspond (g g' : Graph) (i j : Nat) : Prop :=
  ∃ (t k : Nat) (n m : Node), (g.ofThread t)[k]? = some (n, i) ∧ (g'.ofThread t)[k]? = some (m, j)

/-- Each thread accesses the same addresses in both graphs, its accesses read from corresponding
stores, and the stores that reached an address in the first graph correspond to stores that reached
it in the same order in the second. -/
structure Agrees (g g' : Graph) : Prop where
  addr : ∀ t, (g.ofThread t).map (fun x => x.1.addr) = (g'.ofThread t).map fun x => x.1.addr
  source : ∀ i j n m, g.Correspond g' i j → g.nodes[i]? = some n → g'.nodes[j]? = some m →
    Option.Rel (Option.Rel (g.Correspond g')) n.action.source? m.action.source?
  coherence : ∀ a, ∃ stores, stores.Sublist (g'.coherence a) ∧
    List.Forall₂ (g.Correspond g') (g.coherence a) stores

variable {g g' : Graph} {rank : Nat → Nat} {i j t : Nat} {n m : Node}

theorem mem_ofThread : (n, i) ∈ g.ofThread t ↔ g.nodes[i]? = some n ∧ n.thread = t := by
  rw [ofThread, List.mem_filter, List.mem_zipIdx_iff_getElem?, beq_iff_eq]

theorem map_fst_ofThread (g : Graph) (t : Nat) :
    (g.ofThread t).map Prod.fst = g.nodes.filter fun n => n.thread == t := by
  have hmap := List.filter_map (f := Prod.fst) (p := fun n : Node => n.thread == t)
    (l := g.nodes.zipIdx)
  rw [List.zipIdx_map_fst] at hmap
  exact hmap.symm

theorem getElem?_ofThread {k : Nat} (h : (g.ofThread t)[k]? = some (n, i)) :
    g.nodes[i]? = some n ∧ n.thread = t := mem_ofThread.mp (List.mem_of_getElem? h)

theorem pairwise_ofThread (g : Graph) (t : Nat) : (g.ofThread t).Pairwise fun x y => x.2 < y.2 := by
  refine List.Pairwise.filter _ ?_
  rw [List.pairwise_iff_getElem]
  intro i j hi hj hij
  simpa using hij

theorem lt_iff_of_ofThread {k k' : Nat} (h : (g.ofThread t)[k]? = some (n, i))
    (h' : (g.ofThread t)[k']? = some (m, j)) : i < j ↔ k < k' := by
  obtain ⟨hk, hget⟩ := List.getElem?_eq_some_iff.mp h
  obtain ⟨hk', hget'⟩ := List.getElem?_eq_some_iff.mp h'
  have hpair := List.pairwise_iff_getElem.mp (g.pairwise_ofThread t)
  constructor
  · intro hij
    by_contra hle
    rcases Nat.lt_or_eq_of_le (Nat.le_of_not_lt hle) with hlt | rfl
    · have := hpair k' k hk' hk hlt
      rw [hget, hget'] at this
      exact Nat.lt_asymm hij this
    · rw [hget, Prod.mk.injEq] at hget'
      omega
  · intro hlt
    have := hpair k k' hk hk' hlt
    rwa [hget, hget'] at this

namespace Correspond

theorem symm (h : g.Correspond g' i j) : g'.Correspond g j i := by
  obtain ⟨t, k, n, m, hi, hj⟩ := h
  exact ⟨t, k, m, n, hj, hi⟩

theorem refl (hn : g.nodes[i]? = some n) : g.Correspond g i i := by
  obtain ⟨k, hk⟩ := List.mem_iff_getElem?.mp (mem_ofThread.mpr ⟨hn, rfl⟩)
  exact ⟨n.thread, k, n, n, hk, hk⟩

theorem exists_node (h : g.Correspond g' i j) : ∃ n, g.nodes[i]? = some n := by
  obtain ⟨t, k, n, m, hi, -⟩ := h
  exact ⟨n, (getElem?_ofThread hi).1⟩

theorem thread_eq (h : g.Correspond g' i j) (hn : g.nodes[i]? = some n) (hm : g'.nodes[j]? = some m) :
    n.thread = m.thread := by
  obtain ⟨t, k, n', m', hi, hj⟩ := h
  obtain ⟨hn', ht⟩ := getElem?_ofThread hi
  obtain ⟨hm', ht'⟩ := getElem?_ofThread hj
  rw [hn, Option.some.injEq] at hn'
  rw [hm, Option.some.injEq] at hm'
  rw [hn', hm', ht, ht']

theorem lt_iff {i₂ j₂ : Nat} {n₂ : Node} (h : g.Correspond g' i j) (h₂ : g.Correspond g' i₂ j₂)
    (hn : g.nodes[i]? = some n) (hn₂ : g.nodes[i₂]? = some n₂) (hthread : n.thread = n₂.thread) :
    i < i₂ ↔ j < j₂ := by
  obtain ⟨t, k, n', m, hi, hj⟩ := h
  obtain ⟨t₂, k₂, n₂', m₂, hi₂, hj₂⟩ := h₂
  obtain rfl : t = t₂ := by
    obtain ⟨hni, ht⟩ := getElem?_ofThread hi
    obtain ⟨hni₂, ht₂⟩ := getElem?_ofThread hi₂
    rw [hn, Option.some.injEq] at hni
    rw [hn₂, Option.some.injEq] at hni₂
    rw [← ht, ← ht₂, ← hni, ← hni₂, hthread]
  rw [lt_iff_of_ofThread hi hi₂, lt_iff_of_ofThread hj hj₂]

theorem unique {j' : Nat} (h : g.Correspond g' i j) (h' : g.Correspond g' i j') : j = j' := by
  obtain ⟨n, hn⟩ := h.exists_node
  have hlt := (h.lt_iff h' hn hn rfl).not.mp (Nat.lt_irrefl i)
  have hgt := (h'.lt_iff h hn hn rfl).not.mp (Nat.lt_irrefl i)
  omega

end Correspond

namespace Agrees

theorem exists_correspond (h : g.Agrees g') (hn : g.nodes[i]? = some n) :
    ∃ j m, g.Correspond g' i j ∧ g'.nodes[j]? = some m ∧ m.addr = n.addr := by
  obtain ⟨k, hk⟩ := List.mem_iff_getElem?.mp (mem_ofThread.mpr ⟨hn, rfl⟩)
  have haddr := congrArg (fun l => l[k]?) (h.addr n.thread)
  simp only [List.getElem?_map, hk, Option.map_some] at haddr
  obtain ⟨⟨m, j⟩, hj, hm⟩ := Option.map_eq_some_iff.mp haddr.symm
  exact ⟨j, m, ⟨n.thread, k, n, m, hk, hj⟩, (getElem?_ofThread hj).1, hm⟩

end Agrees

theorem sublist_of_mem_following {l : List Nat} (hj : j ∈ following (some i) l) :
    [i, j].Sublist l := by
  have hne : l.dropWhile (· != i) ≠ [] := by
    intro hnil
    simp [following, hnil] at hj
  have hhead := List.head_dropWhile_not (· != i) hne
  rw [bne_eq_false_iff_eq] at hhead
  refine List.Sublist.trans ?_ (List.dropWhile_sublist (p := (· != i)) (l := l))
  rw [← List.cons_head_tail hne, hhead]
  exact (List.singleton_sublist.mpr hj).cons_cons i

theorem mem_following_of_sublist {l : List Nat} (h : l.Nodup) (hsub : [i, j].Sublist l) :
    j ∈ following (some i) l := by
  obtain ⟨r₁, r₂, rfl, hi, hj⟩ := List.cons_sublist_iff.mp hsub
  obtain ⟨c, d, rfl⟩ := List.append_of_mem hi
  have hsplit : c ++ i :: d ++ r₂ = (c ++ [i]) ++ (d ++ r₂) := by simp
  rw [hsplit] at h ⊢
  have hfollowing := following_getLast? h
  rw [List.getLast?_concat] at hfollowing
  rw [hfollowing]
  exact List.mem_append_right _ (List.singleton_sublist.mp hj)

/-- The map of nodes of the first graph to those that they correspond to; it keeps the order of the
stores. -/
structure Counterparts (g g' : Graph) (φ : Nat → Nat) : Prop where
  correspond : ∀ i n, g.nodes[i]? = some n → g.Correspond g' i (φ i)
  addr : ∀ i n, g.nodes[i]? = some n → ∃ m, g'.nodes[φ i]? = some m ∧ m.addr = n.addr
  coherence : ∀ a, ((g.coherence a).map φ).Sublist (g'.coherence a)

theorem Counterparts.eq {φ : Nat → Nat} (h : Counterparts g g' φ) (hij : g.Correspond g' i j) :
    φ i = j := by
  obtain ⟨n, hn⟩ := hij.exists_node
  exact (h.correspond i n hn).unique hij

theorem Agrees.exists_counterparts (h : g.Agrees g') : ∃ φ, Counterparts g g' φ := by
  have hall : ∀ i, ∃ j, ∀ n, g.nodes[i]? = some n → g.Correspond g' i j ∧
      ∃ m, g'.nodes[j]? = some m ∧ m.addr = n.addr := by
    intro i
    cases hn : g.nodes[i]? with
    | none => exact ⟨0, by simp⟩
    | some n =>
        obtain ⟨j, m, hj, hm, haddr⟩ := h.exists_correspond hn
        exact ⟨j, fun n' hn' => ⟨hj, m, hm, Option.some.inj hn' ▸ haddr⟩⟩
  choose φ hφ using hall
  have heq : ∀ i j, g.Correspond g' i j → φ i = j := by
    intro i j hij
    obtain ⟨n, hn⟩ := hij.exists_node
    exact (hφ i n hn).1.unique hij
  refine ⟨φ, fun i n hn => (hφ i n hn).1, fun i n hn => (hφ i n hn).2, fun a => ?_⟩
  obtain ⟨stores, hsub, hstores⟩ := h.coherence a
  have hmap : List.Forall₂ (fun i j => φ i = j) (g.coherence a) stores := hstores.imp heq
  rw [List.forall₂_map_left_iff.symm, List.forall₂_eq_eq_eq] at hmap
  rwa [hmap]

theorem Agrees.exists_node (h : g.Agrees g') {a : Addr} (hi : i ∈ g.coherence a) :
    ∃ n, g.nodes[i]? = some n := by
  obtain ⟨stores, -, hstores⟩ := h.coherence a
  exact ((List.forall₂_and_left _ _).mp (hstores.imp fun _ _ hij => ⟨hij.exists_node, hij⟩)).1 i hi

/-- **An order that the second graph follows gives one that the first graph follows.** -/
theorem Agrees.increases (h : g.Agrees g') (hnd : ∀ a, (g'.coherence a).Nodup)
    (hrank : g'.Increases rank) : ∃ rank', g.Increases rank' := by
  obtain ⟨φ, hφ⟩ := h.exists_counterparts
  refine ⟨fun i => rank (φ i), ?_, ?_, ?_, ?_⟩
  · intro i j n n' hn hn' hthread hij
    have hi := hφ.correspond i n hn
    have hj := hφ.correspond j n' hn'
    obtain ⟨m, hm, -⟩ := hφ.addr i n hn
    obtain ⟨m', hm', -⟩ := hφ.addr j n' hn'
    refine hrank.program _ _ m m' hm hm' ?_ ((hi.lt_iff hj hn hn' hthread).mp hij)
    rw [← hi.thread_eq hn hm, ← hj.thread_eq hn' hm', hthread]
  · intro a
    rw [← List.pairwise_map (f := φ) (R := fun i j => rank i < rank j)]
    exact (hrank.coherence a).sublist (hφ.coherence a)
  · intro r n w hn hs
    obtain ⟨m, hm, -⟩ := hφ.addr r n hn
    have hrel := h.source r _ n m (hφ.correspond r n hn) hn hm
    rw [hs] at hrel
    generalize hs' : m.action.source? = source' at hrel
    obtain ⟨⟨hw⟩⟩ := hrel
    rw [hφ.eq hw]
    exact hrank.source _ m _ hm hs'
  · intro r n source w hn hs hw hne
    have hr := hφ.correspond r n hn
    obtain ⟨m, hm, haddr⟩ := hφ.addr r n hn
    have hmem : w ∈ g.coherence n.addr := following_subset source _ hw
    have hnew : φ w ≠ φ r := by
      intro heq
      obtain ⟨n', hn'⟩ := h.exists_node hmem
      have hw := hφ.correspond w n' hn'
      rw [heq] at hw
      exact hne (hw.symm.unique hr.symm)
    have hrel := h.source r _ n m hr hn hm
    rw [hs] at hrel
    generalize hs' : m.action.source? = source' at hrel
    obtain ⟨hrel⟩ := hrel
    refine hrank.overwritten _ m _ _ hm hs' ?_ hnew
    rw [haddr]
    cases hrel with
    | none => exact (hφ.coherence n.addr).subset (List.mem_map_of_mem hmem)
    | @some u u' hu =>
        have hsub := (sublist_of_mem_following hw).map φ
        rw [List.map_cons, List.map_singleton, hφ.eq hu] at hsub
        exact mem_following_of_sublist (hnd n.addr) (hsub.trans (hφ.coherence n.addr))

end Graph

end Interleave.Memory
