import Interleave.Proofs.Memory.Renaming

/-! # The search for a cycle, step by step

`findCycle` describes a depth-first search by recursion on a bound for the depth.  The search itself
needs neither: a `Traversal` keeps the path on which it is as a stack, with the number of edges that it
has followed from each node, and colours the nodes that it has not met yet white, those of the path
grey, and those from which it has returned black.  It goes on step by step until it meets a grey node
or has no node left to start from.

On every graph that can be built the traversal comes to an end, and `findCycle` is its result.  There is
a cycle if and only if one is found (`Graph.findCycle_correct`). -/

namespace Interleave.Memory

/-- What a traversal knows of a node. -/
inductive Colour where
  | white
  | grey
  | black
deriving DecidableEq, Repr

/-- A search in progress. -/
structure Traversal where
  colour : Nat → Colour
  /-- The nodes from which the search has still to start. -/
  roots : List Nat
  /-- The path, its last node first; with each node, how many of its edges have been followed. -/
  stack : List (Nat × Nat)

namespace Traversal

/-- The traversal of a graph with nodes below `n` before its first step. -/
def start (n : Nat) : Traversal := ⟨fun _ => .white, List.range n, []⟩

/-- One step of a traversal.  When it is over, its result is thrown. -/
def step (succ : Nat → List Nat) (s : Traversal) : Except (Option (List Nat)) Traversal :=
  match s.stack with
  | (i, k) :: rest =>
    match (succ i)[k]? with
    | some j =>
      let stack := (i, k + 1) :: rest
      match s.colour j with
      | .white => .ok { s with colour := Function.update s.colour j .grey, stack := (j, 0) :: stack }
      | .grey => .error (some ((stack.map Prod.fst).reverse.dropWhile (· != j)))
      | .black => .ok { s with stack }
    | none => .ok { s with colour := Function.update s.colour i .black, stack := rest }
  | [] =>
    match s.roots with
    | i :: roots =>
      if s.colour i = .white then .ok ⟨Function.update s.colour i .grey, roots, [(i, 0)]⟩
      else .ok { s with roots }
    | [] => .error none

/-- The second traversal is the first one some steps later. -/
abbrev Goes (succ : Nat → List Nat) : Traversal → Traversal → Prop :=
  Relation.ReflTransGen fun s s' => s.step succ = .ok s'

/-- After finitely many steps the traversal ends with the given result. -/
def Ends (succ : Nat → List Nat) (s : Traversal) (result : Option (List Nat)) : Prop :=
  ∃ s', Goes succ s s' ∧ s'.step succ = .error result

variable {succ : Nat → List Nat} {s s' : Traversal} {result : Option (List Nat)}
  {colour : Nat → Colour} {n i j k : Nat} {path done js roots : List Nat} {rest : List (Nat × Nat)}

theorem Ends.of_step (hs : s.step succ = .ok s') (h : Ends succ s' result) : Ends succ s result := by
  obtain ⟨s'', hgoes, hend⟩ := h
  exact ⟨s'', .head hs hgoes, hend⟩

theorem Ends.of_goes (hs : Goes succ s s') (h : Ends succ s' result) : Ends succ s result := by
  obtain ⟨s'', hgoes, hend⟩ := h
  exact ⟨s'', hs.trans hgoes, hend⟩

/-! ### Colours -/

/-- The grey nodes are those of the path, and the black ones those that are done. -/
structure Shows (path done : List Nat) (colour : Nat → Colour) : Prop where
  grey : ∀ j, colour j = .grey ↔ j ∈ path
  black : ∀ j, colour j = .black ↔ j ∈ done

theorem Shows.white (h : Shows path done colour) (hpath : j ∉ path) (hdone : j ∉ done) :
    colour j = .white := by
  cases hj : colour j with
  | white => rfl
  | grey => exact absurd ((h.grey j).mp hj) hpath
  | black => exact absurd ((h.black j).mp hj) hdone

theorem Shows.enter (h : Shows path done colour) (hj : j ∉ done) :
    Shows (path ++ [j]) done (Function.update colour j .grey) := by
  constructor
  · intro k
    by_cases hk : k = j
    · simp [hk]
    · simp [h.grey, hk]
  · intro k
    by_cases hk : k = j
    · simp [hk, hj]
    · rw [Function.update_of_ne hk, h.black]

theorem Shows.leave (h : Shows (path ++ [i]) done colour) (hi : i ∉ path) :
    Shows path (i :: done) (Function.update colour i .black) := by
  constructor
  · intro k
    by_cases hk : k = i
    · simp [hk, hi]
    · simp [h.grey, hk]
  · intro k
    by_cases hk : k = i
    · simp [hk]
    · simp [h.black, hk]

/-! ### The traversal does what the search describes -/

/-- What becomes of a traversal while a search yields a result: it ends with the same cycle, or it comes
back to `rest` with the same nodes done. -/
def Mirrors (succ : Nat → List Nat) (path roots : List Nat) (rest : List (Nat × Nat)) (s : Traversal) :
    Except (List Nat) (List Nat) → Prop
  | .error cycle => Ends succ s (some cycle)
  | .ok done => ∃ colour, Shows path done colour ∧ Goes succ s ⟨colour, roots, rest⟩

theorem Mirrors.of_goes {x : Except (List Nat) (List Nat)} (hs : Goes succ s s')
    (h : Mirrors succ path roots rest s' x) : Mirrors succ path roots rest s x := by
  cases x with
  | error cycle => exact Ends.of_goes hs h
  | ok done =>
      obtain ⟨colour, hshows, hgoes⟩ := h
      exact ⟨colour, hshows, hs.trans hgoes⟩

/-- At a node from which all edges have been followed, the traversal goes back. -/
theorem mirrors_leave (hshows : Shows (path ++ [i]) done colour) (hi : i ∉ path)
    (hk : (succ i)[k]? = none) :
    Mirrors succ path roots rest ⟨colour, roots, (i, k) :: rest⟩ (.ok (i :: done)) := by
  refine ⟨_, hshows.leave hi, .single ?_⟩
  simp only [step, hk]

/-- **The edges of a node**: if the traversal mirrors the search from every node one step deeper, it
mirrors it along the edges that are left. -/
theorem mirrors_foldlM {depth : Nat} (hlt : ∀ i, ∀ j ∈ succ i, j < n)
    (h : Searching succ n (depth + 1) path i) (hrest : (rest.map Prod.fst).reverse = path)
    (hdeeper : ∀ {j k : Nat} {done : List Nat} {colour : Nat → Colour},
      Searching succ n depth (path ++ [i]) j → Done succ (path ++ [i]) done → j ∉ done →
      Shows (path ++ [i] ++ [j]) done colour →
      Mirrors succ (path ++ [i]) roots ((i, k) :: rest) ⟨colour, roots, (j, 0) :: (i, k) :: rest⟩
        (search succ depth (path ++ [i]) done j))
    (hjs : (succ i).drop k = js) (hdone : Done succ (path ++ [i]) done)
    (hshows : Shows (path ++ [i]) done colour) :
    Mirrors succ path roots rest ⟨colour, roots, (i, k) :: rest⟩
      (js.foldlM (visit succ depth (path ++ [i])) done >>= fun done => .ok (i :: done)) := by
  have hi : i ∉ path := fun hi => (List.nodup_append.mp h.nodup).2.2 i hi i (by simp) rfl
  induction js generalizing k done colour with
  | nil =>
      have hk : (succ i)[k]? = none := by
        rw [← List.head?_drop, hjs]
        rfl
      exact mirrors_leave hshows hi hk
  | cons j js ih =>
      have hk : (succ i)[k]? = some j := by
        rw [← List.head?_drop, hjs]
        rfl
      have hj : Leads succ i j := List.mem_of_getElem? hk
      have hjs' : (succ i).drop (k + 1) = js := by rw [← List.tail_drop, hjs, List.tail_cons]
      rw [List.foldlM_cons]
      by_cases hblack : j ∈ done
      · have hvisit : visit succ depth (path ++ [i]) done j = .ok done := by simp [visit, hblack]
        rw [hvisit]
        refine Mirrors.of_goes (.single ?_) (ih hjs' hdone hshows)
        simp only [step, hk, (hshows.black j).mpr hblack]
      by_cases hgrey : j ∈ path ++ [i]
      · have hvisit : visit succ depth (path ++ [i]) done j =
            .error ((path ++ [i]).dropWhile (· != j)) := by
          simp only [visit, List.contains_iff_mem, hblack, hgrey, if_true, if_false]
        rw [hvisit]
        refine ⟨_, .refl, ?_⟩
        simp only [step, hk, (hshows.grey j).mpr hgrey, List.map_cons, List.reverse_cons, hrest]
      have hvisit : visit succ depth (path ++ [i]) done j =
          search succ depth (path ++ [i]) done j := by
        simp only [visit, List.contains_iff_mem, hblack, hgrey, if_false]
      have hchild := h.child hlt hj hgrey
      have henter : Goes succ ⟨colour, roots, (i, k) :: rest⟩
          ⟨Function.update colour j .grey, roots, (j, 0) :: (i, k + 1) :: rest⟩ := by
        refine .single ?_
        simp only [step, hk, hshows.white hgrey hblack]
      have hmirrors := hdeeper (k := k + 1) hchild hdone hblack (hshows.enter hblack)
      have hyields := yields_search hlt hchild hdone hblack
      rw [hvisit]
      cases hr : search succ depth (path ++ [i]) done j with
      | error cycle =>
          rw [hr] at hmirrors
          exact Mirrors.of_goes henter hmirrors
      | ok done' =>
          rw [hr] at hmirrors hyields
          obtain ⟨colour', hshows', hgoes⟩ := hmirrors
          exact Mirrors.of_goes (henter.trans hgoes) (ih hjs' hyields.1 hshows')

/-- **The search from a node** is what the traversal does until it has returned from that node. -/
theorem mirrors_search {depth : Nat} (hlt : ∀ i, ∀ j ∈ succ i, j < n)
    (h : Searching succ n depth path i) (hdone : Done succ path done) (hi : i ∉ done)
    (hshows : Shows (path ++ [i]) done colour) (hrest : (rest.map Prod.fst).reverse = path) :
    Mirrors succ path roots rest ⟨colour, roots, (i, 0) :: rest⟩ (search succ depth path done i) := by
  induction depth generalizing path done colour i rest with
  | zero => exact h.not_zero.elim
  | succ depth ih =>
      rw [search_succ]
      refine mirrors_foldlM hlt h hrest ?_ List.drop_zero (hdone.concat hi) hshows
      intro j k done colour hj hdone hjdone hshows
      exact ih hj hdone hjdone hshows (by simp [hrest])

/-- **The traversal ends** when it has started from every root, or with the cycle that the search
finds. -/
theorem ends_of_roots (hlt : ∀ i, ∀ j ∈ succ i, j < n) (hroots : ∀ i ∈ roots, i < n)
    (hdone : Done succ [] done) (hshows : Shows [] done colour) :
    Ends succ ⟨colour, roots, []⟩
      (match roots.foldlM (fun done i =>
          if done.contains i then .ok done else search succ n [] done i) done with
        | .ok _ => none
        | .error cycle => some cycle) := by
  induction roots generalizing done colour with
  | nil => exact ⟨_, .refl, rfl⟩
  | cons i roots ih =>
      have hroots' : ∀ i ∈ roots, i < n := fun i hi => hroots i (List.mem_cons_of_mem _ hi)
      rw [List.foldlM_cons]
      by_cases hi : i ∈ done
      · rw [if_pos (by simpa using hi)]
        refine Ends.of_step ?_ (ih hroots' hdone hshows)
        simp [step, (hshows.black i).mpr hi]
      · rw [if_neg (by simpa using hi)]
        have hsearching : Searching succ n n [] i :=
          ⟨by simp, by simp, by simpa using hroots i List.mem_cons_self, by simp⟩
        have hstep : step succ ⟨colour, i :: roots, []⟩ =
            .ok ⟨Function.update colour i .grey, roots, [(i, 0)]⟩ := by
          simp [step, hshows.white (by simp) hi]
        have hmirrors : Mirrors succ [] roots [] ⟨Function.update colour i .grey, roots, [(i, 0)]⟩
            (search succ n [] done i) :=
          mirrors_search hlt hsearching hdone hi (hshows.enter hi) rfl
        have hyields := yields_search hlt hsearching hdone hi
        apply Ends.of_step hstep
        cases hr : search succ n [] done i with
        | error cycle =>
            rw [hr] at hmirrors
            exact hmirrors
        | ok done' =>
            rw [hr] at hmirrors hyields
            obtain ⟨colour', hshows', hgoes⟩ := hmirrors
            exact Ends.of_goes hgoes (ih hroots' hyields.1 hshows')

theorem ends_start (hlt : ∀ i, ∀ j ∈ succ i, j < n) :
    Ends succ (start n) (findCycleIn n succ) :=
  ends_of_roots hlt (fun _ hi => List.mem_range.mp hi) ⟨trivial, by simp⟩ ⟨by simp, by simp⟩

end Traversal

namespace Graph

variable {g : Graph} {i : Nat}

/-! ### Graphs that are built from accesses -/

/-- The graphs that come about by reads, writes, updates and commits on nodes that exist. -/
inductive Built : Graph → Prop where
  | empty : Built .empty
  | read {g : Graph} (t : Nat) (a : Addr) (forwarded : Option Nat) (hg : Built g)
      (h : ∀ i ∈ forwarded, i < g.nodes.length) : Built (g.read t a forwarded)
  | write {g : Graph} (t : Nat) (a : Addr) (hg : Built g) : Built (g.write t a)
  | update {g : Graph} (t : Nat) (a : Addr) (hg : Built g) : Built (g.update t a)
  | commit {g : Graph} (i : Nat) (hg : Built g) (h : i < g.nodes.length) : Built (g.commit i)

theorem Sound.push (h : g.Sound) {m : Node}
    (hm : ∀ i, m.action.source? = some (some i) → i < g.nodes.length) : (g.push m).Sound := by
  have hlength : (g.push m).nodes.length = g.nodes.length + 1 := by simp
  constructor
  · intro x hx
    have := h.commits x hx
    omega
  · intro m' hm' i hi
    rw [hlength]
    rcases List.mem_append.mp hm' with hm' | hm'
    · exact Nat.lt_succ_of_lt (h.sources m' hm' i hi)
    · rw [List.mem_singleton.mp hm'] at hi
      exact Nat.lt_succ_of_lt (hm i hi)

theorem Sound.commit (h : g.Sound) (hi : i < g.nodes.length) : (g.commit i).Sound := by
  have hcommit : g.commit i = { g with commits := g.commits ++ [(i, g.nodes[i].addr)] } := by
    simp only [Graph.commit, List.getElem?_eq_getElem hi]
  rw [hcommit]
  refine ⟨fun x hx => ?_, h.sources⟩
  rcases List.mem_append.mp hx with hx | hx
  · exact h.commits x hx
  · rwa [List.mem_singleton.mp hx]

theorem Built.sound (h : g.Built) : g.Sound := by
  induction h with
  | empty => constructor <;> simp [Graph.empty]
  | read t a forwarded _ hforwarded ih =>
      refine ih.push fun i hi => ?_
      rcases Option.or_eq_some_iff.mp (Option.some.inj hi) with hi | ⟨-, hi⟩
      · exact hforwarded i hi
      · exact ih.lastStore_lt hi
  | write t a _ ih => exact ih.push fun i hi => by cases hi
  | update t a _ ih =>
      refine (ih.push fun i hi => ?_).commit (by simp)
      exact ih.lastStore_lt (Option.some.inj hi)
  | commit i _ hi ih => exact ih.commit hi

/-- **The search for a cycle is correct.**  On every graph that is built from accesses it comes to an
end; it finds nothing if and only if the edges have no cycle; and what it finds are distinct nodes of
which each has an edge to the next one, and the last one to the first. -/
theorem findCycle_correct (hg : g.Built) :
    Traversal.Ends (successors g.edges) (.start g.nodes.length) g.findCycle ∧
    (g.findCycle = none ↔ ∀ i, ¬ Relation.TransGen g.Edge i i) ∧
    ∀ cycle, g.findCycle = some cycle → cycle ≠ [] ∧ cycle.Nodup ∧ cycle.IsChain g.Edge ∧
      ∃ first last, cycle.head? = some first ∧ cycle.getLast? = some last ∧ g.Edge last first := by
  have hlt : ∀ i j, g.Edge i j → i < g.nodes.length ∧ j < g.nodes.length :=
    fun i j => hg.sound.edge_lt
  have hsucc : ∀ i, ∀ j ∈ successors g.edges i, j < g.nodes.length :=
    fun i j hj => (hlt i j (mem_successors.mp hj)).2
  refine ⟨Traversal.ends_start hsucc, findCycle_eq_none_iff hlt, fun cycle hcycle => ?_⟩
  rcases findCycleIn_cases hsucc with ⟨hnone, -⟩ | ⟨cycle', hsome, hfound⟩
  · rw [findCycle, hnone] at hcycle
    cases hcycle
  · obtain rfl : cycle' = cycle := Option.some.inj (hsome.symm.trans hcycle)
    obtain ⟨first, last, hfirst, hlast, hclosed⟩ := hfound.closed
    refine ⟨?_, hfound.nodup, hfound.chain.imp fun i j hij => mem_successors.mp hij, first, last, hfirst,
      hlast, mem_successors.mp hclosed⟩
    rintro rfl
    cases hfirst

/-- Two threads store to one cell each and then read the other one, before either store has reached
memory. -/
theorem findCycle_correct_exchange :
    let g := (((((Graph.empty.write 1 8).read 1 16 none).write 2 16).read 2 8 none).commit 0).commit 2
    g.Built ∧ g.findCycle = some [0, 1, 2, 3] ∧ [0, 1, 2, 3].IsChain g.Edge ∧ g.Edge 3 0 ∧
      Traversal.Ends (successors g.edges) (.start 4) (some [0, 1, 2, 3]) := by
  intro g
  have hissued : Built ((((Graph.empty.write 1 8).read 1 16 none).write 2 16).read 2 8 none) :=
    .read 2 8 none (.write 2 16 (.read 1 16 none (.write 1 8 .empty) (by simp))) (by simp)
  have hbuilt : g.Built := .commit 2 (.commit 0 hissued (by decide)) (by decide)
  have hfound : g.findCycle = some [0, 1, 2, 3] := by decide +kernel
  obtain ⟨hends, -, hcycle⟩ := findCycle_correct hbuilt
  obtain ⟨-, -, hchain, first, last, hfirst, hlast, hedge⟩ := hcycle _ hfound
  cases hfirst
  cases hlast
  rw [hfound] at hends
  exact ⟨hbuilt, hfound, hchain, hedge, hends⟩

end Graph

end Interleave.Memory
