import Interleave.Memory.Cycle
import Mathlib.Data.List.Chain
import Mathlib.Data.List.Nodup
import Mathlib.Data.List.Perm.Subperm
import Mathlib.Data.List.TakeWhile
import Mathlib.Logic.Relation

/-! # The search for a cycle

The search keeps the nodes from which it has returned in a list in which every node leads only to
nodes behind it (`Settled`), so that no cycle meets them.  The path on which it is follows the edges,
and an edge back to the path closes a cycle (`IsCycle`).  A path has no node twice, so the depth that
the search is given is never used up.  Hence a cycle is found if and only if there is one
(`findCycleIn_eq_none_iff`). -/

namespace Interleave.Memory

variable {succ : Nat → List Nat} {n i j : Nat} {path done js : List Nat}

/-- There is an edge from `i` to `j`. -/
def Leads (succ : Nat → List Nat) (i j : Nat) : Prop := j ∈ succ i

/-- Every node of the list leads only to nodes behind it. -/
def Settled (succ : Nat → List Nat) : List Nat → Prop
  | [] => True
  | i :: done => i ∉ done ∧ succ i ⊆ done ∧ Settled succ done

/-- The nodes are distinct, and each has an edge to the next one, the last one to the first. -/
structure IsCycle (succ : Nat → List Nat) (cycle : List Nat) : Prop where
  nodup : cycle.Nodup
  chain : cycle.IsChain (Leads succ)
  closed : ∃ first last, cycle.head? = some first ∧ cycle.getLast? = some last ∧
    Leads succ last first

/-! ### Settled nodes and cycles -/

theorem Settled.mem_of_leads (h : Settled succ done) (hi : i ∈ done) (hj : Leads succ i j) :
    j ∈ done := by
  induction done with
  | nil => cases hi
  | cons k done ih =>
      obtain ⟨-, hsucc, hdone⟩ := h
      rcases List.mem_cons.mp hi with rfl | hi
      · exact List.mem_cons_of_mem _ (hsucc hj)
      · exact List.mem_cons_of_mem _ (ih hdone hi)

theorem Settled.mem_of_transGen (h : Settled succ done) (hi : i ∈ done)
    (hj : Relation.TransGen (Leads succ) i j) : j ∈ done := by
  induction hj with
  | single hj => exact h.mem_of_leads hi hj
  | tail _ hj ih => exact h.mem_of_leads ih hj

theorem Settled.acyclic (h : Settled succ done) (hi : i ∈ done) :
    ¬ Relation.TransGen (Leads succ) i i := by
  induction done with
  | nil => cases hi
  | cons k done ih =>
      obtain ⟨hk, hsucc, hdone⟩ := h
      rcases List.mem_cons.mp hi with rfl | hi
      · intro hcycle
        obtain ⟨j, hj, hrest⟩ := Relation.TransGen.head'_iff.mp hcycle
        have hj : j ∈ done := hsucc hj
        rcases Relation.reflTransGen_iff_eq_or_transGen.mp hrest with rfl | hrest
        · exact hk hj
        · exact hk (hdone.mem_of_transGen hj hrest)
      · exact ih hdone hi

theorem IsCycle.exists_transGen {cycle : List Nat} (h : IsCycle succ cycle) :
    ∃ i, Relation.TransGen (Leads succ) i i := by
  obtain ⟨first, last, hfirst, hlast, hclosed⟩ := h.closed
  obtain ⟨rest, rfl⟩ := List.head?_eq_some_iff.mp hfirst
  rw [List.getLast?_eq_some_getLast (List.cons_ne_nil _ _), Option.some.injEq] at hlast
  have hreach := List.relationReflTransGen_of_exists_isChain_cons rest h.chain hlast
  exact ⟨first, Relation.TransGen.tail' hreach hclosed⟩

theorem IsCycle.exists_leads {cycle : List Nat} (h : IsCycle succ cycle) (hi : i ∈ cycle) :
    ∃ j, Leads succ i j := by
  obtain ⟨before, rest, rfl⟩ := List.append_of_mem hi
  cases rest with
  | nil =>
      obtain ⟨first, last, -, hlast, hclosed⟩ := h.closed
      rw [List.getLast?_concat, Option.some.injEq] at hlast
      exact ⟨first, hlast ▸ hclosed⟩
  | cons j rest => exact ⟨j, (List.isChain_append_cons_cons.mp h.chain).2.1⟩

/-! ### The search -/

/-- How a search through the nodes `js` ends that starts when the nodes `done` are done: with a cycle,
or with more nodes done, all of `js` among them. -/
def Yields (succ : Nat → List Nat) (P : List Nat → Prop) (done js : List Nat) :
    Except (List Nat) (List Nat) → Prop
  | .ok done' => P done' ∧ done ⊆ done' ∧ js ⊆ done'
  | .error cycle => IsCycle succ cycle

theorem yields_foldlM {P : List Nat → Prop} {f : List Nat → Nat → Except (List Nat) (List Nat)}
    (hf : ∀ done, P done → ∀ j ∈ js, Yields succ P done [j] (f done j)) (hdone : P done) :
    Yields succ P done js (js.foldlM f done) := by
  induction js generalizing done with
  | nil => exact ⟨hdone, List.Subset.refl _, List.nil_subset _⟩
  | cons j js ih =>
      have hj := hf done hdone j List.mem_cons_self
      rw [List.foldlM_cons]
      cases hr : f done j with
      | error cycle =>
          rw [hr] at hj
          exact hj
      | ok done₁ =>
          rw [hr] at hj
          obtain ⟨hP, hsub, hmem⟩ := hj
          have hrest := ih (fun done hdone k hk => hf done hdone k (List.mem_cons_of_mem _ hk)) hP
          show Yields succ P done (j :: js) (js.foldlM f done₁)
          cases hr' : js.foldlM f done₁ with
          | error cycle =>
              rw [hr'] at hrest
              exact hrest
          | ok done₂ =>
              rw [hr'] at hrest
              obtain ⟨hP', hsub', hmem'⟩ := hrest
              refine ⟨hP', List.Subset.trans hsub hsub', List.cons_subset.mpr ⟨?_, hmem'⟩⟩
              exact hsub' (hmem List.mem_cons_self)

/-- The way back to a node of the path closes a cycle. -/
theorem isCycle_dropWhile (hnodup : path.Nodup) (hchain : path.IsChain (Leads succ))
    (hlast : path.getLast? = some i) (hj : j ∈ path) (hij : Leads succ i j) :
    IsCycle succ (path.dropWhile (· != j)) := by
  obtain ⟨before, hbefore⟩ := List.dropWhile_suffix (l := path) (· != j)
  cases hd : path.dropWhile (· != j) with
  | nil =>
      have := List.dropWhile_eq_nil_iff.mp hd j hj
      simp at this
  | cons first rest =>
      have hfirst := List.head?_dropWhile_not (· != j) path
      rw [hd, List.head?_cons] at hfirst
      obtain rfl : first = j := by simpa using hfirst
      rw [hd] at hbefore
      have hsuffix : first :: rest <:+ path := ⟨before, hbefore⟩
      refine ⟨hnodup.sublist hsuffix.sublist, hchain.suffix hsuffix, first, i, rfl, ?_, hij⟩
      rw [← hlast, ← hbefore, List.getLast?_append_of_ne_nil _ (List.cons_ne_nil _ _)]

/-- The search is at node `i`, below the nodes of `path`, and has depth left for all nodes that are
not on the path. -/
structure Searching (succ : Nat → List Nat) (n depth : Nat) (path : List Nat) (i : Nat) : Prop where
  nodup : (path ++ [i]).Nodup
  chain : (path ++ [i]).IsChain (Leads succ)
  lt : ∀ k ∈ path ++ [i], k < n
  depth_le : n ≤ depth + path.length

/-- The nodes that are done are settled, and none of them is on the path. -/
def Done (succ : Nat → List Nat) (path done : List Nat) : Prop :=
  Settled succ done ∧ ∀ k ∈ path, k ∉ done

theorem Done.concat (h : Done succ path done) (hi : i ∉ done) : Done succ (path ++ [i]) done := by
  refine ⟨h.1, fun k hk => ?_⟩
  rcases List.mem_append.mp hk with hk | hk
  · exact h.2 k hk
  · rwa [List.mem_singleton.mp hk]

theorem Searching.not_zero (h : Searching succ n 0 path i) : False := by
  have hsub : path ++ [i] ⊆ List.range n := fun k hk => List.mem_range.mpr (h.lt k hk)
  have hle := (List.subperm_of_subset h.nodup hsub).length_le
  have := h.depth_le
  rw [List.length_append, List.length_singleton, List.length_range] at hle
  omega

theorem Searching.child {depth : Nat} (h : Searching succ n (depth + 1) path i)
    (hlt : ∀ i, ∀ j ∈ succ i, j < n) (hj : Leads succ i j) (hnew : j ∉ path ++ [i]) :
    Searching succ n depth (path ++ [i]) j where
  nodup := by
    refine List.nodup_append.mpr ⟨h.nodup, List.nodup_singleton j, ?_⟩
    rintro a ha b hb rfl
    exact hnew (by simpa [List.mem_singleton.mp hb] using ha)
  chain := by
    refine List.isChain_append.mpr ⟨h.chain, List.isChain_singleton j, ?_⟩
    intro a ha b hb
    obtain rfl : i = a := by simpa using ha
    obtain rfl : j = b := by simpa using hb
    exact hj
  lt k hk := by
    rcases List.mem_append.mp hk with hk | hk
    · exact h.lt k hk
    · rw [List.mem_singleton.mp hk]
      exact hlt i j hj
  depth_le := by
    have := h.depth_le
    rw [List.length_append, List.length_singleton]
    omega

/-- What the search does with the end of an edge, below the nodes of `path`. -/
def visit (succ : Nat → List Nat) (depth : Nat) (path done : List Nat) (j : Nat) :
    Except (List Nat) (List Nat) :=
  if done.contains j then .ok done
  else if path.contains j then .error (path.dropWhile (· != j))
  else search succ depth path done j

theorem search_succ (depth : Nat) : search succ (depth + 1) path done i =
    (succ i).foldlM (visit succ depth (path ++ [i])) done >>= fun done => .ok (i :: done) := rfl

/-- **The search from a node** finds a cycle or comes to the end of everything behind the node. -/
theorem yields_search {depth : Nat} (hlt : ∀ i, ∀ j ∈ succ i, j < n)
    (h : Searching succ n depth path i) (hdone : Done succ path done) (hi : i ∉ done) :
    Yields succ (Done succ path) done [i] (search succ depth path done i) := by
  induction depth generalizing path done i with
  | zero => exact h.not_zero.elim
  | succ depth ih =>
      have hpath := hdone.concat hi
      have hvisit : ∀ done, Done succ (path ++ [i]) done → ∀ j ∈ succ i,
          Yields succ (Done succ (path ++ [i])) done [j] (visit succ depth (path ++ [i]) done j) := by
        intro done hdone j hj
        simp only [visit, List.contains_iff_mem]
        split
        · rename_i hmem
          exact ⟨hdone, List.Subset.refl _, by simpa using hmem⟩
        · rename_i hmem
          split
          · rename_i hback
            exact isCycle_dropWhile h.nodup h.chain (by simp) hback hj
          · rename_i hnew
            exact ih (h.child hlt hj hnew) hdone hmem
      have hfold := yields_foldlM hvisit hpath
      rw [search_succ]
      cases hr : (succ i).foldlM (visit succ depth (path ++ [i])) done with
      | error cycle =>
          rw [hr] at hfold
          exact hfold
      | ok done' =>
          rw [hr] at hfold
          obtain ⟨⟨hsettled, hoff⟩, hsub, hsucc⟩ := hfold
          refine ⟨⟨⟨hoff i (by simp), hsucc, hsettled⟩, fun k hk => ?_⟩,
            List.subset_cons_of_subset i hsub, by simp⟩
          have hne : k ≠ i := by
            rintro rfl
            exact (List.nodup_append.mp h.nodup).2.2 k hk k (by simp) rfl
          simp [hne, hoff k (List.mem_append_left _ hk)]

/-- What is known of the result of the whole search. -/
theorem findCycleIn_cases (hlt : ∀ i, ∀ j ∈ succ i, j < n) :
    (findCycleIn n succ = none ∧ ∀ i < n, ¬ Relation.TransGen (Leads succ) i i) ∨
      ∃ cycle, findCycleIn n succ = some cycle ∧ IsCycle succ cycle := by
  have hvisit : ∀ done, Done succ [] done → ∀ i ∈ List.range n, Yields succ (Done succ []) done [i]
      (if done.contains i then .ok done else search succ n [] done i) := by
    intro done hdone i hi
    simp only [List.contains_iff_mem]
    split
    · rename_i hmem
      exact ⟨hdone, List.Subset.refl _, by simpa using hmem⟩
    · rename_i hmem
      exact yields_search hlt ⟨by simp, by simp, by simpa using hi, by simp⟩ hdone hmem
  have hstart : Done succ [] [] := ⟨trivial, by simp⟩
  have hfold := yields_foldlM hvisit hstart
  simp only [findCycleIn]
  cases hr : (List.range n).foldlM (fun done i =>
      if done.contains i then .ok done else search succ n [] done i) [] with
  | error cycle =>
      rw [hr] at hfold
      exact .inr ⟨cycle, rfl, hfold⟩
  | ok done =>
      rw [hr] at hfold
      obtain ⟨⟨hsettled, -⟩, -, hall⟩ := hfold
      exact .inl ⟨rfl, fun i hi => hsettled.acyclic (hall (List.mem_range.mpr hi))⟩

/-- **A cycle is found if and only if there is one.** -/
theorem findCycleIn_eq_none_iff (hlt : ∀ i, ∀ j ∈ succ i, i < n ∧ j < n) :
    findCycleIn n succ = none ↔ ∀ i, ¬ Relation.TransGen (Leads succ) i i := by
  rcases findCycleIn_cases fun i j hj => (hlt i j hj).2 with ⟨hnone, hacyclic⟩ | ⟨cycle, hsome, hcycle⟩
  · refine iff_of_true hnone fun i hi => ?_
    obtain ⟨j, hj, -⟩ := Relation.TransGen.head'_iff.mp hi
    exact hacyclic i (hlt i j hj).1 hi
  · obtain ⟨i, hi⟩ := hcycle.exists_transGen
    rw [hsome]
    exact iff_of_false (by simp) fun h => h i hi

namespace Graph

/-- There is an edge of the graph. -/
def Edge (g : Graph) (i j : Nat) : Prop := (i, j) ∈ g.edges

theorem findCycle_eq_none_iff {g : Graph}
    (hlt : ∀ i j, g.Edge i j → i < g.nodes.length ∧ j < g.nodes.length) :
    g.findCycle = none ↔ ∀ i, ¬ Relation.TransGen g.Edge i i := by
  have hleads : Leads (successors g.edges) = g.Edge := by
    funext i j
    exact propext mem_successors
  rw [← hleads]
  refine findCycleIn_eq_none_iff fun i j hj => hlt i j ?_
  exact mem_successors.mp hj

theorem lt_of_findCycle {g : Graph} {cycle : List Nat}
    (hlt : ∀ i j, g.Edge i j → i < g.nodes.length ∧ j < g.nodes.length)
    (h : g.findCycle = some cycle) {i : Nat} (hi : i ∈ cycle) : i < g.nodes.length := by
  have hcases := findCycleIn_cases (n := g.nodes.length)
    fun i j hj => (hlt i j (mem_successors.mp hj)).2
  rcases hcases with ⟨hnone, -⟩ | ⟨cycle', hsome, hcycle⟩
  · rw [findCycle, hnone] at h
    cases h
  · obtain rfl : cycle' = cycle := Option.some.inj (hsome.symm.trans h)
    obtain ⟨j, hj⟩ := hcycle.exists_leads hi
    exact (hlt i j (mem_successors.mp hj)).1

end Graph

end Interleave.Memory
