import Interleave.Proofs.Machine.Visits
import Interleave.Proofs.Memory.Agreement

/-! # Violations of robustness are no false alarms

Two executions agree (`Machine.Agree`) if every thread makes the same accesses to memory in both, each
access that reads gets its value from the corresponding store, and the stores that reached memory in
the first execution did so in the same order in the second.  An execution whose memory graph has a
cycle agrees with no execution without buffers (`Machine.not_agree_of_violation`). -/

namespace Interleave

open Memory

/-- The access to memory that an operation makes; it is the same for a store that reaches memory at
once and for one that enters the buffer. -/
def EventKind.memoryAccess? : EventKind → Option Access
  | load a _ _ => some (.read a)
  | store a _ => some (.write a)
  | enqueue a _ => some (.write a)
  | lock a => some (.lock a)
  | unlock a => some (.unlock a)
  | fence | spawn _ | join _ => none

/-- The access to memory that thread number `t` makes. -/
def Event.accessBy (t : Nat) (e : Event) : Option Access :=
  if e.proc = .thread t then e.kind.memoryAccess? else none

namespace Memory.Ledger

theorem addr_node? (l : Ledger) (e : Event) (t : Nat) :
    ((l.node? e).toList.filter fun n => n.thread == t).map Node.addr =
      (e.accessBy t).toList.filterMap Access.object := by
  obtain ⟨proc, site, kind⟩ := e
  cases proc with
  | flush u => cases kind <;> simp [node?, Event.accessBy]
  | thread u =>
      by_cases hu : u = t
      · cases kind <;> simp [node?, Event.accessBy, EventKind.memoryAccess?, Access.object, hu]
      · cases kind <;> simp [node?, Event.accessBy, hu]

theorem addr_ofThread (es : List Event) (t : Nat) :
    ((ofEvents es).graph.ofThread t).map (fun x => x.1.addr) =
      (es.filterMap (Event.accessBy t)).filterMap Access.object := by
  have hnodes : ((ofEvents es).graph.ofThread t).map (fun x => x.1.addr) =
      ((ofEvents es).graph.nodes.filter fun n => n.thread == t).map Node.addr := by
    rw [← Graph.map_fst_ofThread, List.map_map]
    rfl
  rw [hnodes]
  clear hnodes
  induction es using List.reverseRecOn with
  | nil => rfl
  | append_singleton es e ih =>
      rw [ofEvents_concat, nodes_record, List.filter_append, List.map_append, ih, addr_node?,
        List.filterMap_append, List.filterMap_append]
      congr 1

end Memory.Ledger

namespace Machine

/-- The executions agree on their accesses to memory: every thread makes the same ones in the same
order, what reads does so from corresponding stores, or from the initial value in both, and the stores
that reached an address in the first execution reached it in the same order in the second. -/
structure Agree (m m' : Machine) : Prop where
  accesses : ∀ t, m.events.filterMap (Event.accessBy t) = m'.events.filterMap (Event.accessBy t)
  source : ∀ i j n n', m.graph.Correspond m'.graph i j → m.graph.nodes[i]? = some n →
    m'.graph.nodes[j]? = some n' →
    Option.Rel (Option.Rel (m.graph.Correspond m'.graph)) n.action.source? n'.action.source?
  coherence : ∀ a, ∃ stores, stores.Sublist (m'.graph.coherence a) ∧
    List.Forall₂ (m.graph.Correspond m'.graph) (m.graph.coherence a) stores

variable {s : Setup} {m₀ m m' : Machine} {entry : Nat}

theorem Agree.graph (h : m.Agree m') (htold : m.Told) (htold' : m'.Told) :
    m.graph.Agrees m'.graph where
  addr t := by
    rw [htold.graph, htold'.graph, Ledger.addr_ofThread, Ledger.addr_ofThread, h.accesses]
  source := h.source
  coherence := h.coherence

theorem Told.agree_self (h : m.Told) : m.Agree m where
  accesses _ := rfl
  source i j n n' hij hn hn' := by
    obtain rfl : i = j := (Graph.Correspond.refl hn).unique hij
    obtain rfl : n = n' := Option.some.inj (hn.symm.trans hn')
    rcases hs : n.action.source? with - | - | w
    · exact .none
    · exact .some .none
    · have hw := (Ledger.sound_ofEvents m.events).sources n
        (List.mem_of_getElem? (h.graph ▸ hn)) w hs
      rw [← h.graph] at hw
      exact .some (.some (.refl (List.getElem?_eq_getElem hw)))
  coherence a := by
    refine ⟨_, List.Sublist.refl _, List.forall₂_same.mpr fun i hi => ?_⟩
    have hlt := (Ledger.sound_ofEvents m.events).coherence_lt (h.graph ▸ hi)
    rw [← h.graph] at hlt
    exact .refl (List.getElem?_eq_getElem hlt)

/-- **A violation of robustness is no false alarm.**  Let the memory graph in a state that an execution
passes have a cycle.  Then it agrees with no execution of the same program in which stores reach
memory at once, complete or not. -/
theorem not_agree_of_violation (hstart : start s entry = .ok m₀) (h : Visits s m₀ Unrestricted m)
    (hviolation : m.checkRobustness.1 = true)
    (h' : Visits { s with buffered := false } m₀ Unrestricted m') : ¬ m.Agree m' := by
  intro hagree
  have hstart' : start { s with buffered := false } entry = .ok m₀ := hstart
  obtain ⟨htold, -⟩ := h.pends hstart
  obtain ⟨htold', visible, hserial⟩ := (h'.readsPromptly_of_unbuffered hstart' rfl).serial hstart'
  have hnd : ∀ a, (m'.graph.coherence a).Nodup := by
    intro a
    rw [htold'.graph, hserial.coherence]
    exact hserial.nodup.filter _
  obtain ⟨rank, hrank⟩ := (hagree.graph htold htold').increases hnd (htold'.graph ▸ hserial.increases)
  have hnone : m.graph.findCycle = none := by
    rw [htold.findCycle_eq_none_iff, ← htold.graph]
    intro i hi
    exact Nat.lt_irrefl _ (hrank.lt_of_transGen hi)
  unfold checkRobustness at hviolation
  rw [hnone] at hviolation
  split at hviolation <;> cases hviolation

/-- Two threads store and then load what the other one stores. -/
def exchange (buffered : Bool) : Setup :=
  ⟨⟨"e", [⟨"x", 0⟩, ⟨"y", 0⟩],
    [⟨"other", ["b"], [.store (.global 1) (.imm 1), .load 0 (.global 0), .ret]⟩,
      ⟨"main", ["a", "t"], [.spawn 1 0, .store (.global 0) (.imm 1), .load 0 (.global 1), .ret]⟩]⟩,
    .standard, buffered, 10⟩

theorem not_agree_of_violation_exchange :
    ∃ m m', beforeExchange.reach (exchange true) [.thread 0, .thread 0, .thread 1, .thread 0,
        .thread 1, .flush 0, .flush 1] = .ok m ∧ m.checkRobustness.1 = true ∧
      beforeExchange.reach (exchange false) [.thread 0, .thread 0, .thread 1, .thread 0,
        .thread 1] = .ok m' ∧ m'.isDone = true ∧ ¬ m.Agree m' ∧ m'.Agree m' := by
  have hstart : start (exchange true) 1 = .ok beforeExchange := by decide
  have hstart' : start (exchange false) 1 = .ok beforeExchange := by decide
  obtain ⟨m, hreach, hm⟩ := exists_of_any (x := beforeExchange.reach (exchange true)
    [.thread 0, .thread 0, .thread 1, .thread 0, .thread 1, .flush 0, .flush 1])
    (p := fun m => m.checkRobustness.1) (by decide +kernel)
  obtain ⟨m', hreach', hm'⟩ := exists_of_any (x := beforeExchange.reach (exchange false)
    [.thread 0, .thread 0, .thread 1, .thread 0, .thread 1]) (p := Machine.isDone) (by decide +kernel)
  have hvisits' := visits_of_reach hreach'
  exact ⟨m, m', hreach, hm, hreach', hm', not_agree_of_violation hstart (visits_of_reach hreach) hm
    hvisits', (hvisits'.pends hstart').1.agree_self⟩

end Machine

end Interleave
