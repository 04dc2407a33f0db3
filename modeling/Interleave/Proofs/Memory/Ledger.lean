import Interleave.Proofs.Machine.Independence
import Interleave.Proofs.Memory.Renaming
import Mathlib.Logic.Equiv.Basic

/-! # The memory graph that events tell of

The events of an execution determine its memory graph: a `Ledger` is built from them one by one
(`Ledger.record`) and keeps, beside the graph, the stores that wait in each buffer.  When two
neighbouring events that tell of independent candidates change places, the graph stays the same up to
the numbers of the two nodes (`Ledger.renamed_record`), so it has a cycle as before
(`Ledger.transGen_of_swap`). -/

namespace Interleave.Memory

/-- A memory graph, and for each thread the stores that wait in its buffer: the oldest first, each
with its address and its node. -/
structure Ledger where
  graph : Graph
  waiting : Nat → List (Addr × Nat)

namespace Ledger

/-- Nothing has happened. -/
def empty : Ledger := ⟨.empty, fun _ => []⟩

/-- The newest store of a thread that waits to reach an address. -/
def newest (l : Ledger) (t : Nat) (a : Addr) : Option Nat :=
  ((l.waiting t).reverse.find? fun x => x.1 == a).map Prod.snd

/-- The node of the access that an event tells of. -/
def node? (l : Ledger) (e : Event) : Option Node :=
  match e.proc, e.kind with
  | .thread t, .load a _ _ => some ⟨t, a, .read ((l.newest t a).or (l.graph.lastStore a))⟩
  | .thread t, .store a _ => some ⟨t, a, .write⟩
  | .thread t, .enqueue a _ => some ⟨t, a, .write⟩
  | .thread t, .lock a => some ⟨t, a, .update (l.graph.lastStore a)⟩
  | .thread t, .unlock a => some ⟨t, a, .update (l.graph.lastStore a)⟩
  | _, _ => none

/-- The store that reaches memory, with its address. -/
def commit? (l : Ledger) (e : Event) : Option (Nat × Addr) :=
  match e.proc, e.kind with
  | .thread _, .store a _ => some (l.graph.nodes.length, a)
  | .thread _, .lock a => some (l.graph.nodes.length, a)
  | .thread _, .unlock a => some (l.graph.nodes.length, a)
  | .flush t, .store a _ =>
    ((l.waiting t).head?.filter fun x => x.1 == a).map fun x => (x.2, a)
  | _, _ => none

/-- The stores of thread number `t` that wait behind an event. -/
def waitingBehind (l : Ledger) (e : Event) (t : Nat) : List (Addr × Nat) :=
  if e.proc.owner = t then
    match e.proc, e.kind with
    | .thread _, .enqueue a _ => l.waiting t ++ [(a, l.graph.nodes.length)]
    | .flush _, .store _ _ => if (l.commit? e).isSome then (l.waiting t).tail else l.waiting t
    | _, _ => l.waiting t
  else l.waiting t

/-- The ledger behind an event. -/
def record (l : Ledger) (e : Event) : Ledger :=
  ⟨⟨l.graph.nodes ++ (l.node? e).toList, l.graph.commits ++ (l.commit? e).toList⟩,
    l.waitingBehind e⟩

/-- The ledger of an execution. -/
def ofEvents (es : List Event) : Ledger := es.foldl record empty

@[simp] theorem nodes_record (l : Ledger) (e : Event) :
    (l.record e).graph.nodes = l.graph.nodes ++ (l.node? e).toList := rfl

@[simp] theorem waiting_record (l : Ledger) (e : Event) : (l.record e).waiting = l.waitingBehind e :=
  rfl

/-- The store that reaches memory at an address. -/
def commitAt (l : Ledger) (e : Event) (a : Addr) : List Nat :=
  (l.commit? e).toList.filterMap fun x => if x.2 = a then some x.1 else none

@[simp] theorem coherence_record (l : Ledger) (e : Event) (a : Addr) :
    (l.record e).graph.coherence a = l.graph.coherence a ++ l.commitAt e a := by
  simp [record, Graph.coherence, commitAt, List.filterMap_append]

/-! ### Sound ledgers -/

/-- All numbers that occur are numbers of nodes. -/
structure Sound (l : Ledger) : Prop where
  commits : ∀ x ∈ l.graph.commits, x.1 < l.graph.nodes.length
  sources : ∀ n ∈ l.graph.nodes, ∀ i, n.action.source? = some (some i) → i < l.graph.nodes.length
  waiting : ∀ t, ∀ x ∈ l.waiting t, x.2 < l.graph.nodes.length

variable {l : Ledger} {e f : Event} {a : Addr} {i j t : Nat}

theorem length_node?_le (l : Ledger) (e : Event) : (l.node? e).toList.length ≤ 1 := by
  cases l.node? e <;> simp

theorem sound_empty : empty.Sound := by
  constructor <;> simp [empty, Graph.empty]

namespace Sound

variable (h : l.Sound)

include h

theorem graph : l.graph.Sound := ⟨h.commits, h.sources⟩

theorem coherence_lt (hi : i ∈ l.graph.coherence a) : i < l.graph.nodes.length :=
  h.graph.coherence_lt hi

theorem lastStore_lt (hi : l.graph.lastStore a = some i) : i < l.graph.nodes.length :=
  h.graph.lastStore_lt hi

theorem newest_lt (hi : l.newest t a = some i) : i < l.graph.nodes.length := by
  obtain ⟨x, hx, rfl⟩ := Option.map_eq_some_iff.mp hi
  exact h.waiting t x (List.mem_reverse.mp (List.mem_of_find?_eq_some hx))

theorem node?_lt {n : Node} (hn : l.node? e = some n) (hi : n.action.source? = some (some i)) :
    i < l.graph.nodes.length := by
  unfold node? at hn
  split at hn <;> cases hn <;> simp only [Action.source?, Option.some.injEq, reduceCtorEq] at hi
  · rcases Option.or_eq_some_iff.mp hi with hi | ⟨-, hi⟩
    · exact h.newest_lt hi
    · exact h.lastStore_lt hi
  · exact h.lastStore_lt hi
  · exact h.lastStore_lt hi

/-- What reaches memory is a node of a store that waited, or the new node. -/
theorem commit?_lt {x : Nat × Addr} (hx : l.commit? e = some x) :
    x.1 < l.graph.nodes.length + (l.node? e).toList.length := by
  unfold commit? at hx
  split at hx
  · rename_i hp hk
    cases hx
    simp [node?, hp, hk]
  · rename_i hp hk
    cases hx
    simp [node?, hp, hk]
  · rename_i hp hk
    cases hx
    simp [node?, hp, hk]
  · obtain ⟨y, hy, rfl⟩ := Option.map_eq_some_iff.mp hx
    have hy := (Option.filter_eq_some_iff.mp hy).1
    have := h.waiting _ y (List.mem_of_mem_head? hy)
    exact Nat.lt_add_right _ this
  · cases hx

theorem commitAt_lt (hi : i ∈ l.commitAt e a) :
    i < l.graph.nodes.length + (l.node? e).toList.length := by
  obtain ⟨x, hx, hxi⟩ := List.mem_filterMap.mp hi
  simp only [Option.ite_none_right_eq_some, Option.some.injEq] at hxi
  rw [← hxi.2]
  exact h.commit?_lt (Option.mem_toList.mp hx)

theorem waitingBehind_lt {x : Addr × Nat} (hx : x ∈ l.waitingBehind e t) :
    x.2 < l.graph.nodes.length + (l.node? e).toList.length := by
  have hold : ∀ y ∈ l.waiting t, y.2 < l.graph.nodes.length + (l.node? e).toList.length :=
    fun y hy => Nat.lt_add_right _ (h.waiting t y hy)
  unfold waitingBehind at hx
  split at hx
  · split at hx
    · rename_i hp hk
      rcases List.mem_append.mp hx with hx | hx
      · exact hold x hx
      · rw [List.mem_singleton.mp hx]
        simp [node?, hp, hk]
    · split at hx
      · exact hold x (List.mem_of_mem_tail hx)
      · exact hold x hx
    · exact hold x hx
  · exact hold x hx

theorem record (e : Event) : (l.record e).Sound where
  commits x hx := by
    rw [nodes_record, List.length_append]
    rcases List.mem_append.mp hx with hx | hx
    · exact Nat.lt_add_right _ (h.commits x hx)
    · exact h.commit?_lt (Option.mem_toList.mp hx)
  sources n hn i hi := by
    rw [nodes_record, List.length_append]
    refine Nat.lt_add_right _ ?_
    rcases List.mem_append.mp hn with hn | hn
    · exact h.sources n hn i hi
    · exact h.node?_lt (Option.mem_toList.mp hn) hi
  waiting t x hx := by
    rw [nodes_record, List.length_append]
    exact h.waitingBehind_lt hx

theorem edge_lt (hij : l.graph.Edge i j) : i < l.graph.nodes.length ∧ j < l.graph.nodes.length :=
  h.graph.edge_lt hij

end Sound

theorem sound_ofEvents (es : List Event) : (ofEvents es).Sound := by
  have hfoldl : ∀ (es : List Event) (l : Ledger), l.Sound → (es.foldl record l).Sound := by
    intro es
    induction es with
    | nil => exact fun _ h => h
    | cons e es ih => exact fun l h => ih (l.record e) (h.record e)
  exact hfoldl es empty sound_empty

/-! ### Renumbered ledgers -/

/-- The second ledger is the first one with node `i` numbered `π i`. -/
structure Renamed (π : Equiv.Perm Nat) (l l' : Ledger) : Prop where
  graph : l.graph.Renamed π l'.graph
  waiting : ∀ t, l'.waiting t = (l.waiting t).map (Prod.map id π)

namespace Renamed

variable {l' : Ledger} {π : Equiv.Perm Nat} (h : Renamed π l l')

include h

theorem newest (t : Nat) (a : Addr) : l'.newest t a = (l.newest t a).map π := by
  simp only [Ledger.newest, h.waiting, ← List.map_reverse, List.find?_map, Option.map_map]
  rfl

theorem lastStore (a : Addr) : l'.graph.lastStore a = (l.graph.lastStore a).map π := by
  rw [Graph.lastStore, h.graph.coherence, List.getLast?_map]
  rfl

theorem node? (e : Event) : l'.node? e = (l.node? e).map (Node.rename π) := by
  unfold Ledger.node?
  split <;> simp only [h.newest, h.lastStore, Option.map_some, Option.map_none, ← Option.map_or] <;> rfl

theorem commit? (e : Event) : l'.commit? e = (l.commit? e).map (Prod.map π id) := by
  have hlength : l'.graph.nodes.length = π l.graph.nodes.length := by
    rw [h.graph.length_eq, h.graph.fixes _ le_rfl]
  unfold Ledger.commit?
  split
  · rw [hlength]
    rfl
  · rw [hlength]
    rfl
  · rw [hlength]
    rfl
  · rename_i t a v _ _
    rw [h.waiting, List.head?_map]
    cases (l.waiting t).head? with
    | none => rfl
    | some x =>
        by_cases hx : x.1 = a
        · simp [hx, Option.filter]
        · simp [hx, Option.filter]
  · rfl

theorem waitingBehind (e : Event) (t : Nat) :
    l'.waitingBehind e t = (l.waitingBehind e t).map (Prod.map id π) := by
  have hlength : l'.graph.nodes.length = π l.graph.nodes.length := by
    rw [h.graph.length_eq, h.graph.fixes _ le_rfl]
  unfold Ledger.waitingBehind
  simp only [h.commit?, Option.isSome_map, h.waiting, hlength]
  split
  · split
    · simp
    · split
      · rw [List.map_tail]
      · rfl
    · rfl
  · rfl

/-- Renumbered ledgers stay so when the same event is recorded in both. -/
theorem record (e : Event) : Renamed π (l.record e) (l'.record e) where
  waiting := h.waitingBehind e
  graph :=
    { fixes := by
        intro i hi
        rw [nodes_record, List.length_append] at hi
        exact h.graph.fixes i (by omega)
      nodes := by
        intro i
        rw [nodes_record, nodes_record, h.node?]
        by_cases hi : i < l.graph.nodes.length
        · have hlt : π i < l'.graph.nodes.length := by
            rw [h.graph.length_eq]
            exact h.graph.apply_lt hi
          rw [List.getElem?_append_left hlt, List.getElem?_append_left hi, h.graph.nodes]
        · rw [h.graph.fixes i (Nat.le_of_not_lt hi),
            List.getElem?_append_right (by rw [h.graph.length_eq]; omega),
            List.getElem?_append_right (by omega), h.graph.length_eq, Option.toList_map,
            List.getElem?_map]
      order := by
        intro i j n m hn hm hthread hij
        rw [nodes_record] at hn hm
        by_cases hj : j < l.graph.nodes.length
        · rw [List.getElem?_append_left (by omega)] at hn
          rw [List.getElem?_append_left hj] at hm
          exact h.graph.order i j n m hn hm hthread hij
        · have hone := (List.getElem?_eq_some_iff.mp hm).1
          rw [List.length_append] at hone
          have htoList := l.length_node?_le e
          have hi : i < l.graph.nodes.length := by omega
          have := h.graph.apply_lt hi
          rw [h.graph.fixes j (Nat.le_of_not_lt hj)]
          omega
      coherence := by
        intro a
        rw [coherence_record, coherence_record, h.graph.coherence, List.map_append]
        congr 1
        unfold commitAt
        rw [h.commit?]
        cases l.commit? e with
        | none => rfl
        | some x =>
            by_cases hx : x.2 = a
            · simp [hx]
            · simp [hx] }

theorem foldl_record (es : List Event) : Renamed π (es.foldl Ledger.record l) (es.foldl Ledger.record l') := by
  induction es generalizing l l' with
  | nil => exact h
  | cons e es ih => exact ih (h.record e)

end Renamed

/-! ### Independent events -/

theorem proc_of_node? {n : Node} (h : l.node? e = some n) : e.proc = .thread n.thread := by
  unfold node? at h
  split at h <;> cases h <;> assumption

theorem access_of_commit? {x : Nat × Addr} (h : l.commit? e = some x) :
    e.candidate.access.object = some x.2 ∧ e.candidate.access.isRead = false := by
  unfold commit? at h
  split at h
  · rename_i hk
    cases h
    simp [Event.candidate, hk, EventKind.access, Access.object, Access.isRead]
  · rename_i hk
    cases h
    simp [Event.candidate, hk, EventKind.access, Access.object, Access.isRead]
  · rename_i hk
    cases h
    simp [Event.candidate, hk, EventKind.access, Access.object, Access.isRead]
  · rename_i hk
    obtain ⟨y, -, rfl⟩ := Option.map_eq_some_iff.mp h
    simp [Event.candidate, hk, EventKind.access, Access.object, Access.isRead]
  · cases h

/-- The event adds a store to the buffer of thread number `t` or takes one out of it. -/
def Touches (e : Event) (t : Nat) : Prop :=
  (e.proc = .thread t ∧ e.candidate.access.isEnqueue = true) ∨ e.proc = .flush t

theorem waitingBehind_of_not_touches (h : ¬ Touches e t) : l.waitingBehind e t = l.waiting t := by
  unfold waitingBehind
  split
  · rename_i howner
    split
    · rename_i u a v hp hk
      refine (h (.inl ⟨?_, ?_⟩)).elim
      · rw [hp] at howner ⊢
        exact congrArg _ howner
      · rw [Event.candidate, hk]
        rfl
    · rename_i u a v hp hk
      refine (h (.inr ?_)).elim
      rw [hp] at howner ⊢
      exact congrArg _ howner
    · rfl
  · rfl

theorem waitingBehind_eq_nil (h : l.waiting t = [])
    (he : e.proc = .thread t → e.kind.access.isEnqueue = false) : l.waitingBehind e t = [] := by
  unfold waitingBehind
  split
  · rename_i howner
    split
    · rename_i u a v hp hk
      rw [hp] at howner
      have := he (hp.trans (congrArg Proc.thread howner))
      rw [hk] at this
      cases this
    · rw [h]
      split <;> rfl
    · exact h
  · exact h

/-- The number of the next node, as it is behind an event; earlier ones stay. -/
def shift (l : Ledger) (f : Event) (k : Nat) : Nat :=
  if k = l.graph.nodes.length then l.graph.nodes.length + (l.node? f).toList.length else k

theorem shift_of_lt (h : i < l.graph.nodes.length) : l.shift f i = i := if_neg (Nat.ne_of_lt h)

theorem shift_length (l : Ledger) (f : Event) :
    l.shift f l.graph.nodes.length = (l.record f).graph.nodes.length := by
  rw [shift, if_pos rfl, nodes_record, List.length_append]

section Independent

variable (hi : e.candidate.dependent f.candidate = false)

include hi

theorem proc_ne : e.proc ≠ f.proc := Candidate.proc_ne_of_indep hi

theorem not_touches (h : Touches e t) : ¬ Touches f t := by
  have hne := proc_ne hi
  obtain ⟨-, hef, hfe⟩ := Candidate.of_indep hi
  rintro (⟨hf, henq'⟩ | hf)
  · rcases h with ⟨he, -⟩ | he
    · exact hne (he.trans hf.symm)
    · have : f.candidate.bearsOn e.candidate.proc = true := by
        simp [Candidate.bearsOn, show e.candidate.proc = .flush t from he,
          show f.candidate.proc = .thread t from hf, henq']
      rw [this] at hfe
      cases hfe
  · rcases h with ⟨he, henq⟩ | he
    · have : e.candidate.bearsOn f.candidate.proc = true := by
        simp [Candidate.bearsOn, show e.candidate.proc = .thread t from he,
          show f.candidate.proc = .flush t from hf, henq]
      rw [this] at hef
      cases hef
    · exact hne (he.trans hf.symm)

/-- An event brings no store to memory where an independent one has its access. -/
theorem commitAt_eq_nil (ha : e.candidate.access.object = some a) : l.commitAt f a = [] := by
  have hconflicts := (Candidate.of_indep hi).1
  unfold commitAt
  cases hc : l.commit? f with
  | none => rfl
  | some x =>
      obtain ⟨hobject, hread⟩ := access_of_commit? hc
      have hne : x.2 ≠ a := by
        rintro rfl
        simp [Access.conflicts, ha, hobject, hread] at hconflicts
      simp [hne]

theorem commitAt_eq_nil_or (l : Ledger) (a : Addr) : l.commitAt e a = [] ∨ l.commitAt f a = [] := by
  cases hc : l.commit? e with
  | none => exact .inl (by simp [commitAt, hc])
  | some x =>
      by_cases hx : x.2 = a
      · exact .inr (commitAt_eq_nil hi (hx ▸ (access_of_commit? hc).1))
      · exact .inl (by simp [commitAt, hc, hx])

theorem lastStore_record (ha : e.candidate.access.object = some a) :
    (l.record f).graph.lastStore a = l.graph.lastStore a := by
  rw [Graph.lastStore, coherence_record, commitAt_eq_nil hi ha, List.append_nil]
  rfl

theorem newest_record {v : Int64} {b : Bool} (hp : e.proc = .thread t) (hk : e.kind = .load a v b) :
    (l.record f).newest t a = l.newest t a := by
  have ha : e.candidate.access = .read a := by rw [Event.candidate, hk]; rfl
  unfold newest
  rw [waiting_record]
  unfold waitingBehind
  split
  · rename_i howner
    split
    · rename_i u _ _ hp' _
      rw [hp'] at howner
      exact (proc_ne hi (hp.trans ((congrArg Proc.thread howner).symm.trans hp'.symm))).elim
    · rename_i u a' v' hp' hk'
      split
      · rename_i hcommit
        obtain ⟨x, hx⟩ := Option.isSome_iff_exists.mp hcommit
        have hne : x.2 ≠ a := by
          rintro rfl
          have := commitAt_eq_nil hi (l := l) (a := x.2) (by rw [ha]; rfl)
          simp [commitAt, hx] at this
        rw [hp'] at howner
        obtain rfl : u = t := howner
        simp only [commit?, hp', hk', Option.map_eq_some_iff, Option.filter_eq_some_iff] at hx
        obtain ⟨y, ⟨hy, hya⟩, rfl⟩ := hx
        obtain ⟨rest, hrest⟩ := List.head?_eq_some_iff.mp hy
        have hya : y.1 = a' := by simpa using hya
        rw [hrest, List.tail_cons, List.reverse_cons, List.find?_append]
        have hnone : List.find? (fun x => x.1 == a) [y] = none := by
          simpa [hya] using hne
        rw [hnone, Option.or_none]
      · rfl
    · rfl
  · rfl

/-- The node of an event is the same behind an independent event. -/
theorem node?_record (l : Ledger) : (l.record f).node? e = l.node? e := by
  have hobject : ∀ a, e.kind.access.object = some a →
      (l.record f).graph.lastStore a = l.graph.lastStore a := fun a ha => lastStore_record hi ha
  cases hp : e.proc with
  | flush t => simp only [node?, hp]
  | thread t =>
      cases hk : e.kind with
      | load a v b =>
          simp only [node?, hp, hk, newest_record hi hp hk, hobject a (by rw [hk]; rfl)]
      | lock a => simp only [node?, hp, hk, hobject a (by rw [hk]; rfl)]
      | unlock a => simp only [node?, hp, hk, hobject a (by rw [hk]; rfl)]
      | _ => simp only [node?, hp, hk]

/-- A store reaches memory behind an independent event just as before it. -/
theorem commit?_record (h : l.Sound) :
    (l.record f).commit? e = (l.commit? e).map (Prod.map (l.shift f) id) := by
  cases hp : e.proc with
  | flush t =>
      have hwaiting : l.waitingBehind f t = l.waiting t :=
        waitingBehind_of_not_touches (not_touches hi (.inr hp))
      cases hk : e.kind with
      | store a v =>
          simp only [commit?, hp, hk, waiting_record, hwaiting, Option.map_map]
          refine Option.map_congr fun x hx => ?_
          have hx := (Option.filter_eq_some_iff.mp hx).1
          simp [shift_of_lt (h.waiting t x (List.mem_of_mem_head? hx))]
      | _ => simp [commit?, hp, hk]
  | thread t =>
      cases hk : e.kind with
      | store a v => simp [commit?, hp, hk, shift_length]
      | lock a => simp [commit?, hp, hk, shift_length]
      | unlock a => simp [commit?, hp, hk, shift_length]
      | _ => simp [commit?, hp, hk]

theorem commitAt_record (h : l.Sound) (a : Addr) :
    (l.record f).commitAt e a = (l.commitAt e a).map (l.shift f) := by
  rw [commitAt, commitAt, commit?_record hi h]
  cases l.commit? e with
  | none => rfl
  | some x => by_cases hx : x.2 = a <;> simp [hx]

/-- An event does the same to a buffer behind an independent one. -/
theorem waitingBehind_record (h : l.Sound) (ht : Touches e t) :
    (l.record f).waitingBehind e t = (l.waitingBehind e t).map (Prod.map id (l.shift f)) := by
  have hwaiting : l.waitingBehind f t = l.waiting t :=
    waitingBehind_of_not_touches (not_touches hi ht)
  have hold : (l.waiting t).map (Prod.map id (l.shift f)) = l.waiting t := by
    refine (List.map_congr_left fun x hx => ?_).trans (List.map_id _)
    simp [Prod.map, shift_of_lt (h.waiting t x hx)]
  unfold waitingBehind
  simp only [waiting_record, hwaiting, commit?_record hi h, Option.isSome_map]
  split
  · split
    · rw [List.map_append, hold, List.map_singleton, Prod.map, shift_length]
      rfl
    · split
      · rw [List.map_tail, hold]
      · rw [hold]
    · rw [hold]
  · rw [hold]

end Independent

/-! ### Swapping independent events -/

/-- Behind the first `n` nodes, the next `p` nodes change places with the `q` nodes behind them. -/
structure Exchanges (π : Equiv.Perm Nat) (n p q : Nat) : Prop where
  old : ∀ i < n, π i = i
  new : ∀ i, n + p + q ≤ i → π i = i
  first : p = 1 → π n = n + q
  second : q = 1 → π (n + p) = n

theorem exists_exchanges (n : Nat) {p q : Nat} (hp : p ≤ 1) (hq : q ≤ 1) :
    ∃ π, Exchanges π n p q := by
  by_cases h : p = 1 ∧ q = 1
  · obtain ⟨rfl, rfl⟩ := h
    refine ⟨Equiv.swap n (n + 1), ?_, ?_, ?_, ?_⟩
    · intro i hi
      exact Equiv.swap_apply_of_ne_of_ne (by omega) (by omega)
    · intro i hi
      exact Equiv.swap_apply_of_ne_of_ne (by omega) (by omega)
    · intro _
      exact Equiv.swap_apply_left n (n + 1)
    · intro _
      exact Equiv.swap_apply_right n (n + 1)
  · refine ⟨Equiv.refl Nat, fun _ _ => rfl, fun _ _ => rfl, ?_, ?_⟩
    · intro hp
      show n = n + q
      omega
    · intro hq
      show n + p = n
      omega

theorem Exchanges.getElem? {α : Type} {π : Equiv.Perm Nat} {xs : List α} {p q : Option α}
    (h : Exchanges π xs.length p.toList.length q.toList.length) (i : Nat) :
    (xs ++ (q.toList ++ p.toList))[π i]? = (xs ++ (p.toList ++ q.toList))[i]? := by
  by_cases hlt : i < xs.length
  · rw [h.old i hlt, List.getElem?_append_left hlt, List.getElem?_append_left hlt]
  by_cases hge : xs.length + p.toList.length + q.toList.length ≤ i
  · rw [h.new i hge, List.getElem?_eq_none (by simp; omega), List.getElem?_eq_none (by simp; omega)]
  cases p with
  | none =>
      cases q with
      | none => simp at hlt hge; omega
      | some y =>
          obtain rfl : i = xs.length := by simp at hlt hge; omega
          have hπ : π xs.length = xs.length := h.second rfl
          rw [hπ]
          simp
  | some x =>
      cases q with
      | none =>
          obtain rfl : i = xs.length := by simp at hlt hge; omega
          have hπ : π xs.length = xs.length := h.first rfl
          rw [hπ]
          simp
      | some y =>
          have hfirst : π xs.length = xs.length + 1 := h.first rfl
          have hsecond : π (xs.length + 1) = xs.length := h.second rfl
          obtain rfl | rfl : i = xs.length ∨ i = xs.length + 1 := by simp at hlt hge; omega
          · rw [hfirst]
            simp
          · rw [hsecond]
            simp

theorem Exchanges.apply_first {π : Equiv.Perm Nat}
    (h : Exchanges π l.graph.nodes.length (l.node? e).toList.length (l.node? f).toList.length)
    (hi : i < l.graph.nodes.length + (l.node? e).toList.length) : π i = l.shift f i := by
  by_cases hlt : i < l.graph.nodes.length
  · rw [h.old i hlt, shift_of_lt hlt]
  · have hone := l.length_node?_le e
    obtain rfl : i = l.graph.nodes.length := by omega
    rw [h.first (by omega), shift, if_pos rfl]

theorem Exchanges.apply_second {π : Equiv.Perm Nat}
    (h : Exchanges π l.graph.nodes.length (l.node? e).toList.length (l.node? f).toList.length)
    (hi : i < l.graph.nodes.length + (l.node? f).toList.length) : π (l.shift e i) = i := by
  by_cases hlt : i < l.graph.nodes.length
  · rw [shift_of_lt hlt, h.old i hlt]
  · have hone := l.length_node?_le f
    obtain rfl : i = l.graph.nodes.length := by omega
    rw [shift, if_pos rfl, h.second (by omega)]

theorem rename_of_source_lt {π : Nat → Nat} {k : Nat} (hπ : ∀ i < k, π i = i) {n : Node}
    (hn : ∀ i, n.action.source? = some (some i) → i < k) : n.rename π = n := by
  obtain ⟨t, a, action⟩ := n
  have hsource : ∀ source : Option Nat, action.source? = some source → source.map π = source := by
    intro source hs
    cases source with
    | none => rfl
    | some i => exact congrArg some (hπ i (hn i hs))
  cases action with
  | read source => simp [Node.rename, Action.rename, hsource source rfl]
  | write => rfl
  | update source => simp [Node.rename, Action.rename, hsource source rfl]

section Exchange

variable {π : Equiv.Perm Nat} (hi : e.candidate.dependent f.candidate = false) (h : l.Sound)
  (hπ : Exchanges π l.graph.nodes.length (l.node? e).toList.length (l.node? f).toList.length)

include hi

theorem nodes_record_record : ((l.record e).record f).graph.nodes =
    l.graph.nodes ++ ((l.node? e).toList ++ (l.node? f).toList) := by
  rw [nodes_record, nodes_record, node?_record (Candidate.dependent_comm_false hi), List.append_assoc]

/-- At most one of two nodes of a thread is new. -/
theorem lt_of_thread_eq {n m : Node} (hn : ((l.record e).record f).graph.nodes[i]? = some n)
    (hm : ((l.record e).record f).graph.nodes[j]? = some m) (hthread : n.thread = m.thread)
    (hij : i < j) : i < l.graph.nodes.length := by
  rw [nodes_record_record hi] at hn hm
  by_contra hle
  have hlt := (List.getElem?_eq_some_iff.mp hm).1
  rw [List.length_append, List.length_append] at hlt
  have := l.length_node?_le e
  have := l.length_node?_le f
  obtain rfl : i = l.graph.nodes.length := by omega
  obtain rfl : j = l.graph.nodes.length + 1 := by omega
  cases he : l.node? e with
  | none => simp [he] at hlt; omega
  | some x =>
      cases hf : l.node? f with
      | none => simp [he, hf] at hlt
      | some y =>
          simp only [he, hf] at hn hm
          obtain rfl : x = n := by simpa using hn
          obtain rfl : y = m := by simpa using hm
          apply proc_ne hi
          rw [proc_of_node? he, proc_of_node? hf, hthread]

include h hπ

theorem coherence_exchange (a : Addr) : ((l.record f).record e).graph.coherence a =
    (((l.record e).record f).graph.coherence a).map π := by
  have hold : (l.graph.coherence a).map π = l.graph.coherence a :=
    (List.map_congr_left fun k hk => hπ.old k (h.coherence_lt hk)).trans (List.map_id _)
  have hfirst : (l.commitAt e a).map π = (l.commitAt e a).map (l.shift f) :=
    List.map_congr_left fun k hk => hπ.apply_first (h.commitAt_lt hk)
  have hsecond : ((l.commitAt f a).map (l.shift e)).map π = l.commitAt f a := by
    rw [List.map_map]
    refine (List.map_congr_left fun k hk => ?_).trans (List.map_id _)
    exact hπ.apply_second (h.commitAt_lt hk)
  simp only [coherence_record, commitAt_record hi h, commitAt_record (Candidate.dependent_comm_false hi) h,
    List.map_append, hold, hfirst, hsecond]
  rcases commitAt_eq_nil_or hi l a with hnil | hnil <;> simp [hnil]

theorem waiting_exchange (t : Nat) : ((l.record f).record e).waiting t =
    (((l.record e).record f).waiting t).map (Prod.map id π) := by
  rw [waiting_record, waiting_record]
  by_cases he : Touches e t
  · rw [waitingBehind_record hi h he, waitingBehind_of_not_touches (not_touches hi he),
      waiting_record]
    refine List.map_congr_left fun x hx => ?_
    rw [Prod.map, Prod.map, hπ.apply_first (h.waitingBehind_lt hx)]
  · rw [waitingBehind_of_not_touches he, waiting_record]
    by_cases hf : Touches f t
    · rw [waitingBehind_record (Candidate.dependent_comm_false hi) h hf, List.map_map]
      refine ((List.map_congr_left fun x hx => ?_).trans (List.map_id _)).symm
      simp [Prod.map, hπ.apply_second (h.waitingBehind_lt hx)]
    · rw [waitingBehind_of_not_touches hf, waitingBehind_of_not_touches hf, waiting_record,
        waitingBehind_of_not_touches he]
      refine ((List.map_congr_left fun x hx => ?_).trans (List.map_id _)).symm
      simp [Prod.map, hπ.old _ (h.waiting t x hx)]

end Exchange

/-- **Independent events in either order** lead to the same ledger up to the numbers of nodes. -/
theorem renamed_record (hi : e.candidate.dependent f.candidate = false) (h : l.Sound) :
    ∃ π, Renamed π ((l.record e).record f) ((l.record f).record e) := by
  obtain ⟨π, hπ⟩ := exists_exchanges l.graph.nodes.length (l.length_node?_le e) (l.length_node?_le f)
  have hnodes := nodes_record_record (l := l) hi
  have hnodes' := nodes_record_record (l := l) (Candidate.dependent_comm_false hi)
  refine ⟨π, ⟨?_, ?_, ?_, coherence_exchange hi h hπ⟩, waiting_exchange hi h hπ⟩
  · intro i hle
    rw [hnodes, List.length_append, List.length_append, ← Nat.add_assoc] at hle
    exact hπ.new i hle
  · intro i
    rw [hnodes, hnodes', hπ.getElem?]
    cases hn : (l.graph.nodes ++ ((l.node? e).toList ++ (l.node? f).toList))[i]? with
    | none => rfl
    | some n =>
        refine congrArg some (rename_of_source_lt hπ.old fun k hk => ?_).symm
        rcases List.mem_append.mp (List.mem_of_getElem? hn) with hn | hn
        · exact h.sources n hn k hk
        · rcases List.mem_append.mp hn with hn | hn
          · exact h.node?_lt (Option.mem_toList.mp hn) hk
          · exact h.node?_lt (Option.mem_toList.mp hn) hk
  · intro i j n m hn hm hthread hij
    have hlt := lt_of_thread_eq hi hn hm hthread hij
    rw [hπ.old i hlt]
    by_contra hle
    have := π.injective (hπ.old (π j) (by omega))
    omega

theorem ofEvents_append (es es' : List Event) :
    ofEvents (es ++ es') = es'.foldl record (ofEvents es) := by
  rw [ofEvents, List.foldl_append]
  rfl

theorem ofEvents_concat (es : List Event) (e : Event) :
    ofEvents (es ++ [e]) = (ofEvents es).record e := ofEvents_append es [e]

/-- A cycle stays one, up to the numbers of nodes, when two independent events in a row change
places. -/
theorem transGen_of_swap (u v : List Event) (hi : e.candidate.dependent f.candidate = false)
    (hcycle : Relation.TransGen (ofEvents (u ++ e :: f :: v)).graph.Edge i i) :
    ∃ j, Relation.TransGen (ofEvents (u ++ f :: e :: v)).graph.Edge j j := by
  obtain ⟨π, hπ⟩ := renamed_record hi (sound_ofEvents u)
  have hfold := hπ.foldl_record v
  rw [ofEvents_append] at hcycle ⊢
  exact ⟨π i, hfold.graph.transGen hcycle⟩

end Ledger

end Interleave.Memory
