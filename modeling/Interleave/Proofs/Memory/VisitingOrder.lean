import Interleave.Machine.Run
import Interleave.Proofs.Memory.Traversal

/-! # The order in which addresses are visited

The coherence edges of a memory graph are listed address by address, and nothing fixes the order of the
addresses.  It does not show: a store reaches memory at the address of its node (`Graph.Addressed`), so the
coherence edges from a node come from one address only, whichever place that address has in the order.
Therefore every order gives each node the same successors in the same order, and with them the same cycle
and the same report (`Graph.visitingOrder_invisible`). -/

namespace Interleave.Memory.Graph

variable {g : Graph} {visit visit' : List Addr} {a : Addr} {i : Nat}

/-- What the search finds if the addresses are visited in the given order. -/
def findCycleVisiting (g : Graph) (visit : List Addr) : Option (List Nat) :=
  findCycleIn g.nodes.length (successors (g.edgesVisiting visit))

/-! ### Where stores reach memory -/

/-- Every store that reached memory did so at the address of its node. -/
def Addressed (g : Graph) : Prop := ∀ x ∈ g.commits, ∃ n, g.nodes[x.1]? = some n ∧ n.addr = x.2

theorem Addressed.push (h : g.Addressed) (m : Node) : (g.push m).Addressed := by
  intro x hx
  obtain ⟨n, hn, haddr⟩ := h x hx
  refine ⟨n, ?_, haddr⟩
  rw [nodes_push, List.getElem?_append_left (List.getElem?_eq_some_iff.mp hn).1, hn]

theorem Addressed.commit (h : g.Addressed) (i : Nat) : (g.commit i).Addressed := by
  unfold Graph.commit
  split
  · next n hn =>
    intro x hx
    rcases List.mem_append.mp hx with hx | hx
    · exact h x hx
    · rw [List.mem_singleton.mp hx]
      exact ⟨n, hn, rfl⟩
  · exact h

theorem Built.addressed (h : g.Built) : g.Addressed := by
  induction h with
  | empty => simp [Addressed, Graph.empty]
  | read t a forwarded _ _ ih => exact ih.push _
  | write t a _ ih => exact ih.push _
  | update t a _ ih => exact (ih.push _).commit _
  | commit i _ _ ih => exact ih.commit i

/-- **A node is a store to one address only.** -/
theorem Addressed.exists_addr (h : g.Addressed) (i : Nat) : ∃ b, ∀ a, i ∈ g.coherence a → a = b := by
  have hnode : ∀ a, i ∈ g.coherence a → ∃ n, g.nodes[i]? = some n ∧ n.addr = a := by
    intro a hi
    obtain ⟨⟨k, b⟩, hk, hki⟩ := List.mem_filterMap.mp hi
    simp only [Option.ite_none_right_eq_some, Option.some.injEq] at hki
    obtain ⟨rfl, rfl⟩ := hki
    exact h (k, b) hk
  cases hn : g.nodes[i]? with
  | none =>
      refine ⟨0, fun a hi => ?_⟩
      obtain ⟨n, hn', -⟩ := hnode a hi
      rw [hn] at hn'
      cases hn'
  | some n =>
      refine ⟨n.addr, fun a hi => ?_⟩
      obtain ⟨n', hn', rfl⟩ := hnode a hi
      rw [hn] at hn'
      cases hn'
      rfl

/-! ### Successors -/

theorem successors_append (es es' : List (Nat × Nat)) (i : Nat) :
    successors (es ++ es') i = successors es i ++ successors es' i := List.filterMap_append

theorem successors_coherenceOrder (g : Graph) (visit : List Addr) (i : Nat) :
    successors (g.coherenceOrder visit) i =
      visit.flatMap fun a => successors (neighbours (g.coherence a)) i := List.filterMap_flatMap

theorem successors_neighbours_eq_nil {l : List Nat} (h : i ∉ l) : successors (neighbours l) i = [] := by
  rw [List.eq_nil_iff_forall_not_mem]
  intro j hj
  exact h (List.of_mem_zip (mem_successors.mp hj)).1

/-- If one element of a list without repetitions is the only one that yields something, its place does not
matter. -/
theorem flatMap_eq_of_unique {α β : Type} {f : α → List β} {l : List α} [DecidableEq α] (hl : l.Nodup)
    {b : α} (hf : ∀ a ∈ l, a ≠ b → f a = []) : l.flatMap f = if b ∈ l then f b else [] := by
  induction l with
  | nil => rfl
  | cons a l ih =>
      obtain ⟨ha, hl⟩ := List.nodup_cons.mp hl
      obtain ⟨hfa, hf⟩ := List.forall_mem_cons.mp hf
      rw [List.flatMap_cons, ih hl hf]
      by_cases hab : a = b
      · rw [if_neg (hab ▸ ha), List.append_nil, hab, if_pos List.mem_cons_self]
      · simp [hfa hab, Ne.symm hab]

/-- **The coherence edges from a node do not depend on the order.** -/
theorem Addressed.successors_coherenceOrder_eq (h : g.Addressed) (hvisit : visit.Perm visit')
    (hnodup : visit.Nodup) (i : Nat) :
    successors (g.coherenceOrder visit) i = successors (g.coherenceOrder visit') i := by
  obtain ⟨b, hb⟩ := h.exists_addr i
  have hother : ∀ a, a ≠ b → successors (neighbours (g.coherence a)) i = [] := fun a hne =>
    successors_neighbours_eq_nil fun hi => hne (hb a hi)
  rw [successors_coherenceOrder, successors_coherenceOrder,
    flatMap_eq_of_unique hnodup fun a _ => hother a,
    flatMap_eq_of_unique (hvisit.nodup_iff.mp hnodup) fun a _ => hother a]
  simp only [hvisit.mem_iff]

theorem Addressed.successors_edgesVisiting (h : g.Addressed) (hvisit : visit.Perm visit')
    (hnodup : visit.Nodup) (i : Nat) :
    successors (g.edgesVisiting visit) i = successors (g.edgesVisiting visit') i := by
  simp only [edgesVisiting, successors_append, h.successors_coherenceOrder_eq hvisit hnodup i]

theorem nodup_addresses (g : Graph) : g.addresses.Nodup := by
  unfold addresses
  induction g.commits.map Prod.snd using List.reverseRecOn with
  | nil => exact List.nodup_nil
  | append_singleton as a ih =>
      rw [List.eraseDups_append]
      by_cases ha : a ∈ as
      · simpa [List.removeAll, ha] using ih
      · have hne : ∀ b ∈ as, b ≠ a := fun b hb hba => ha (hba ▸ hb)
        simpa [List.removeAll, ha, List.nodup_append, List.eraseDups_cons] using ⟨ih, hne⟩

/-! ### The main result -/

/-- **The order of the addresses does not show.**  On every graph that is built from accesses, however
often a store is committed, two orders in which each address of a store is visited once give every node
the same successors in the same order.  So the search finds the same cycle, the cycle is described in the
same words, and the violation that is reported for an execution is the one of either order. -/
theorem visitingOrder_invisible (hg : g.Built) (h : visit.Perm g.addresses)
    (h' : visit'.Perm g.addresses) :
    (∀ i, successors (g.edgesVisiting visit) i = successors (g.edgesVisiting visit') i) ∧
    g.findCycleVisiting visit = g.findCycleVisiting visit' ∧
    (g.findCycleVisiting visit).map g.describe = (g.findCycleVisiting visit').map g.describe ∧
    ∀ m : Machine, m.graph = g → m.errors = [] →
      m.checkRobustness =
        match g.findCycleVisiting visit with
        | none => (false, m)
        | some cycle => (true, { m with errors := [⟨.robustnessViolation, none,
            "execution is not sequentially consistent: " ++ g.describe cycle⟩] }) := by
  have hsuccessors : ∀ {v v' : List Addr}, v.Perm g.addresses → v'.Perm g.addresses →
      successors (g.edgesVisiting v) = successors (g.edgesVisiting v') := fun hv hv' =>
    funext (hg.addressed.successors_edgesVisiting (hv.trans hv'.symm)
      (hv.nodup_iff.mpr g.nodup_addresses))
  have hfound : g.findCycleVisiting visit = g.findCycleVisiting visit' := by
    rw [findCycleVisiting, hsuccessors h h', findCycleVisiting]
  refine ⟨fun i => congrFun (hsuccessors h h') i, hfound, by rw [hfound], ?_⟩
  rintro m rfl herrors
  have hsame : m.graph.findCycle = m.graph.findCycleVisiting visit := by
    rw [findCycleVisiting, hsuccessors h (.refl _)]
    rfl
  unfold Machine.checkRobustness
  rw [hsame]
  cases m.graph.findCycleVisiting visit with
  | none => simp [herrors]
  | some cycle => simp [herrors]

/-- Each of two threads stores to its own cell twice and then reads the other one, before any of the stores
has reached memory. -/
def twofoldIssued : Graph :=
  (((((Graph.empty.write 1 8).write 1 8).read 1 16 none).write 2 16).write 2 16).read 2 8 none

/-- Then all of the stores reach memory. -/
def twofoldExchange : Graph := (((twofoldIssued.commit 0).commit 1).commit 3).commit 4

theorem visitingOrder_invisible_twofoldExchange :
    twofoldExchange.Built ∧ twofoldExchange.addresses = [8, 16] ∧
      twofoldExchange.edgesVisiting [16, 8] ≠ twofoldExchange.edges ∧
      (∀ i, successors (twofoldExchange.edgesVisiting [16, 8]) i = successors twofoldExchange.edges i) ∧
      twofoldExchange.findCycleVisiting [16, 8] = twofoldExchange.findCycleVisiting [8, 16] ∧
      twofoldExchange.findCycle = some [0, 1, 2, 3, 4, 5] := by
  have hissued : twofoldIssued.Built := by
    refine .read 2 8 none (.write 2 16 (.write 2 16 ?_)) (by simp)
    exact .read 1 16 none (.write 1 8 (.write 1 8 .empty)) (by simp)
  have hbuilt : twofoldExchange.Built :=
    .commit 4 (.commit 3 (.commit 1 (.commit 0 hissued (by decide)) (by decide)) (by decide)) (by decide)
  have haddresses : twofoldExchange.addresses = [8, 16] := by decide +kernel
  have hswapped : [16, 8].Perm twofoldExchange.addresses := haddresses ▸ .swap 8 16 []
  have hlisted : [8, 16].Perm twofoldExchange.addresses := haddresses ▸ .refl _
  obtain ⟨hsuccessors, hfound, -, -⟩ := visitingOrder_invisible hbuilt hswapped hlisted
  refine ⟨hbuilt, haddresses, by decide +kernel, fun i => ?_, hfound, by decide +kernel⟩
  rw [edges, haddresses]
  exact hsuccessors i

end Interleave.Memory.Graph
