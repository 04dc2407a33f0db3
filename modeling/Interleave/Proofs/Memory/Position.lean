import Interleave.Proofs.Memory.Growth
import Interleave.Proofs.Memory.Visible

/-! # Nodes and the events they come from

A memory access of a thread adds a node to the memory graph, and the node has a value: the one that was
loaded, stored, or put into the cell of a mutex (`Event.values`).  `Event.nodeAt` is the number of the
node that an event adds; different events add different nodes, and every node is added by one.  The
stores to an address reach memory one behind the other, so a set of stores that has with each of them the
one before it is a first part of them (`Graph.Downward`). -/

namespace Interleave

open Memory

/-- The value that a memory access of a thread has loaded or stored. -/
def Event.value? (e : Event) : Option Int64 :=
  match e.proc, e.kind with
  | .thread _, .load _ v _ => some v
  | .thread _, .store _ v => some v
  | .thread _, .enqueue _ v => some v
  | .thread _, .lock _ => some 1
  | .thread _, .unlock _ => some 0
  | _, _ => none

/-- The values of the nodes that the events tell of. -/
def Event.values (es : List Event) : List Int64 := es.filterMap Event.value?

@[simp] theorem Event.values_concat (es : List Event) (e : Event) :
    values (es ++ [e]) = values es ++ e.value?.toList := by
  rw [values, List.filterMap_append]
  congr 1

namespace Memory

theorem Ledger.isSome_node? (l : Ledger) (e : Event) : (l.node? e).isSome = e.value?.isSome := by
  obtain ⟨proc, site, kind⟩ := e
  cases proc <;> cases kind <;> rfl

theorem Ledger.length_values (es : List Event) :
    (Event.values es).length = (Ledger.ofEvents es).graph.nodes.length := by
  induction es using List.reverseRecOn with
  | nil => rfl
  | append_singleton es e ih =>
      have hsome := (Ledger.ofEvents es).isSome_node? e
      rw [Event.values_concat, ofEvents_concat, nodes_record, List.length_append, List.length_append,
        ih, Option.length_toList, Option.length_toList, hsome]

end Memory

namespace Event

variable {es : List Event} {e : Event} {i j w : Nat} {v : Int64}

/-- The node of the memory graph that event number `i` adds. -/
def nodeAt (es : List Event) (i : Nat) : Option Nat :=
  (es[i]?.bind Event.value?).map fun _ => (Event.values (es.take i)).length

theorem nodeAt_eq_some : nodeAt es i = some w ↔
    ∃ e v, es[i]? = some e ∧ e.value? = some v ∧ (values (es.take i)).length = w := by
  simp [nodeAt, Option.bind_eq_some_iff]

theorem values_take (he : es[i]? = some e) (hv : e.value? = some v) :
    values (es.take i) ++ [v] <+: values es := by
  have htake : es.take (i + 1) = es.take i ++ [e] := by rw [List.take_add_one, he]; rfl
  have hconcat : values (es.take (i + 1)) = values (es.take i) ++ [v] := by
    rw [htake, values_concat, hv]
    rfl
  rw [← hconcat]
  refine ⟨values (es.drop (i + 1)), ?_⟩
  rw [values, values, ← List.filterMap_append, List.take_append_drop, values]

theorem getElem?_values (he : es[i]? = some e) (hv : e.value? = some v) (hw : nodeAt es i = some w) :
    (values es)[w]? = some v := by
  obtain ⟨-, -, -, -, rfl⟩ := nodeAt_eq_some.mp hw
  obtain ⟨l, hl⟩ := values_take he hv
  rw [← hl, List.append_assoc, List.getElem?_append_right le_rfl]
  simp

theorem nodeAt_lt (hi : nodeAt es i = some w) (hij : i < j) : w < (values (es.take j)).length := by
  obtain ⟨e, v, he, hv, rfl⟩ := nodeAt_eq_some.mp hi
  have he' : (es.take j)[i]? = some e := by rw [List.getElem?_take_of_lt hij, he]
  have hle := (values_take he' hv).length_le
  rw [List.take_take, Nat.min_eq_left (Nat.le_of_lt hij), List.length_append,
    List.length_singleton] at hle
  exact hle

theorem nodeAt_take (hij : i < j) : nodeAt (es.take j) i = nodeAt es i := by
  rw [nodeAt, nodeAt, List.getElem?_take_of_lt hij, List.take_take, Nat.min_eq_left (Nat.le_of_lt hij)]

theorem nodeAt_inj (hi : nodeAt es i = some w) (hj : nodeAt es j = some w) : i = j := by
  obtain ⟨-, -, -, -, hwi⟩ := nodeAt_eq_some.mp hi
  obtain ⟨-, -, -, -, hwj⟩ := nodeAt_eq_some.mp hj
  rcases Nat.lt_trichotomy i j with hij | hij | hij
  · have := nodeAt_lt hi hij
    omega
  · exact hij
  · have := nodeAt_lt hj hij
    omega

theorem exists_nodeAt (hw : w < (values es).length) : ∃ i, nodeAt es i = some w := by
  induction es using List.reverseRecOn with
  | nil => simp [values] at hw
  | append_singleton es e ih =>
      by_cases hlt : w < (values es).length
      · obtain ⟨i, hi⟩ := ih hlt
        obtain ⟨f, v, hf, hv, hwi⟩ := nodeAt_eq_some.mp hi
        have hil := (List.getElem?_eq_some_iff.mp hf).1
        refine ⟨i, nodeAt_eq_some.mpr ⟨f, v, ?_, hv, ?_⟩⟩
        · rw [List.getElem?_append_left hil, hf]
        · rw [List.take_append_of_le_length (Nat.le_of_lt hil), hwi]
      · rw [values_concat, List.length_append] at hw
        cases hv : e.value? with
        | none => simp [hv] at hw; omega
        | some v =>
            refine ⟨es.length, nodeAt_eq_some.mpr ⟨e, v, by simp, hv, ?_⟩⟩
            rw [hv] at hw
            simp only [Option.toList_some, List.length_singleton] at hw
            rw [List.take_left']
            · omega
            · rfl

theorem getElem?_nodes (he : es[i]? = some e) (hw : nodeAt es i = some w) :
    (Ledger.ofEvents es).graph.nodes[w]? = (Ledger.ofEvents (es.take i)).node? e := by
  obtain ⟨f, v, hf, hv, hlen⟩ := nodeAt_eq_some.mp hw
  obtain rfl : e = f := Option.some.inj (he.symm.trans hf)
  obtain ⟨n, hn⟩ := Option.isSome_iff_exists.mp
    (((Ledger.ofEvents (es.take i)).isSome_node? e).trans (by simp [hv]))
  have htake : es = (es.take i ++ [e]) ++ es.drop (i + 1) := by
    have : es.take (i + 1) = es.take i ++ [e] := by rw [List.take_add_one, he]; rfl
    rw [← this, List.take_append_drop]
  have hprefix := (Ledger.extends_ofEvents (es.take i ++ [e]) (es.drop (i + 1))).nodes
  rw [← htake, Ledger.ofEvents_concat, Ledger.nodes_record, hn] at hprefix
  obtain ⟨ns, hns⟩ := hprefix
  rw [← hns, List.append_assoc, ← hlen, Ledger.length_values, List.getElem?_append_right le_rfl, hn]
  simp

end Event

namespace Memory

theorem Ledger.mem_coherence {es : List Event} {a : Addr} {w : Nat}
    (hdrained : ∀ t, (ofEvents es).waiting t = []) (hw : (ofEvents es).graph.storesAt a w = true) :
    w ∈ (ofEvents es).graph.coherence a := by
  obtain ⟨visible, h⟩ := visible_ofEvents es
  rw [h.coherence, List.mem_filter]
  refine ⟨?_, hw⟩
  by_contra hmem
  have hget := List.getElem?_eq_getElem (lt_of_storesAt hw)
  have := h.waits w _ hget hmem
  rw [hdrained] at this
  cases this

/-! ### Stores one behind the other -/

namespace Graph

variable {g : Graph} {l : List Nat} {S : Nat → Bool} {i j w : Nat}

/-- Where the predicate holds of an element of the list, it holds of the one before it. -/
def Downward (S : Nat → Bool) (l : List Nat) : Prop :=
  ∀ i j, (i, j) ∈ neighbours l → S j = true → S i = true

theorem Downward.of_cons (h : Downward S (i :: l)) : Downward S l := by
  cases l with
  | nil =>
      intro i j hij
      cases hij
  | cons k l => exact fun i j hij => h i j (List.mem_cons_of_mem _ hij)

/-- If it does not hold of the first element, it holds of none. -/
theorem Downward.filter_eq_nil (h : Downward S l) (hhead : ∀ i, l.head? = some i → S i = false) :
    l.filter S = [] := by
  induction l with
  | nil => rfl
  | cons i l ih =>
      have hi := hhead i rfl
      rw [List.filter_cons_of_neg (by simp [hi])]
      refine ih h.of_cons fun j hj => ?_
      obtain ⟨l, rfl⟩ := List.head?_eq_some_iff.mp hj
      by_contra hS
      have := h i j (by simp [neighbours]) (by simpa using hS)
      rw [hi] at this
      cases this

/-- If it does not hold of the element behind `w`, then `w` is the last one it holds of. -/
theorem Downward.getLast?_filter (h : Downward S l) (hw : w ∈ l) (hS : S w = true)
    (hnext : ∀ i, next? w l = some i → S i = false) : (l.filter S).getLast? = some w := by
  induction l with
  | nil => cases hw
  | cons i l ih =>
      by_cases hi : i = w
      · subst hi
        have hnil : l.filter S = [] := by
          refine h.of_cons.filter_eq_nil fun j hj => hnext j ?_
          simpa [next?, List.head?_eq_getElem?] using hj
        rw [List.filter_cons_of_pos hS, hnil]
        rfl
      · have hlast := ih h.of_cons ((List.mem_cons.mp hw).resolve_left (Ne.symm hi)) fun j hj =>
          hnext j (by simpa [next?, hi] using hj)
        rw [List.filter_cons]
        split
        · rw [List.getLast?_cons, hlast]
          rfl
        · exact hlast

theorem mem_neighbours_of_next? (h : next? i l = some j) : (i, j) ∈ neighbours l := by
  induction l with
  | nil => cases h
  | cons k l ih =>
      by_cases hk : k = i
      · subst hk
        have hj : l.head? = some j := by simpa [next?, List.head?_eq_getElem?] using h
        obtain ⟨l, rfl⟩ := List.head?_eq_some_iff.mp hj
        simp [neighbours]
      · have := ih (by simpa [next?, hk] using h)
        cases l with
        | nil => cases this
        | cons k' l => exact List.mem_cons_of_mem _ this

end Graph

end Memory

end Interleave
