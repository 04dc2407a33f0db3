import Interleave.Proofs.Machine.Offer

/-! # What a step does

A step changes the thread that takes it and at most one cell of memory, and it may create a thread.
`Machine.change` computes this change without performing it.  A step fails exactly if its change
cannot be computed, and otherwise it makes that change (`Machine.step_eq`); so whatever leaves the
change of a process as it is leaves its step as it is.

The ways in which an operation goes well are listed once, with what is checked before and what is
behind it (`Machine.Succeeds`).  An invariant of the steps is proved by going through this list. -/

namespace Interleave

/-- What the step of a process changes. -/
structure Change where
  /-- What becomes of its thread. -/
  update : Thread → Thread
  /-- The cell that it writes, and the value. -/
  cell : Option (Nat × Int64)
  /-- The thread that it creates. -/
  child : Option Thread
  event : Option Event

namespace Change

/-- No change. -/
def nothing : Change := ⟨id, none, none, none⟩

/-- The change by an operation that thread number `t` performs at a site: behind it the thread goes on
to the next instruction. -/
def ofThread (t : Nat) (site : Site) (update : Thread → Thread) (cell : Option (Nat × Int64))
    (child : Option Thread) (kind : EventKind) : Change :=
  ⟨fun th => (update th).next, cell, child, some ⟨.thread t, site, kind⟩⟩

/-- The memory behind the change. -/
def memory (k : Change) (cells : List Int64) : List Int64 :=
  match k.cell with
  | some (i, v) => cells.set i v
  | none => cells

/-- Let the change by a step of thread number `t` happen; no account of it is kept. -/
def on (k : Change) (t : Nat) (m : Machine) : Machine :=
  { m with memory := k.memory m.memory, threads := m.threads.modify t k.update ++ k.child.toList }

end Change

namespace Thread

/-- The thread with another value in a register, if it has that register. -/
def withReg (d : Reg) (v : Int64) (th : Thread) : Thread := { th with regs := th.regs.set d v }

/-- The thread with another waiting store. -/
def enqueued (b : Pending) (th : Thread) : Thread := { th with buffer := th.buffer ++ [b] }

/-- The thread without its oldest waiting store. -/
def flushed (th : Thread) : Thread := { th with buffer := th.buffer.tail }

theorem setReg_eq (th : Thread) (d : Reg) (v : Int64) :
    th.setReg d v = (if d < th.regs.length then .ok (th.withReg d v)
      else .error (.fault (.outOfBounds d th.regs.length))) := rfl

end Thread

namespace Machine

/-- The change by an operation of thread number `t`, which is `th` and stands at `site`. -/
def changeOf (s : Setup) (m : Machine) (t : Nat) (th : Thread) (site : Site) :
    Operation → Except Stop Change
  | .load d a => do
    let cell ← m.cellAt site "load from" a
    let v := ((th.forwarded a).map Pending.value).getD (m.read cell)
    let _ ← th.setReg d v
    return .ofThread t site (.withReg d v) none none (.load a v (th.forwarded a).isSome)
  | .store a x => do
    let cell ← m.cellAt site "store to" a
    let v ← th.value x
    if s.buffered then return .ofThread t site (.enqueued ⟨a, v, 0, site⟩) none none (.enqueue a v)
    else return .ofThread t site id (some (cell, v)) none (.store a v)
  | .fence => return .ofThread t site id none none .fence
  | .spawn d f => do
    let v := Int64.ofNat m.threads.length
    let child ← Thread.start s f
    let _ ← th.setReg d v
    return .ofThread t site (.withReg d v) none (some child) (.spawn m.threads.length)
  | .join v =>
    match m.joinee? t v with
    | some c => return .ofThread t site id none none (.join c)
    | none => site.fails .invalidOperation ("join of invalid thread " ++ Decimal.write v)
  | .lock a => do
    let cell ← m.cellAt site "lock at" a
    return .ofThread t site id (some (cell, 1)) none (.lock a)
  | .unlock a => do
    let cell ← m.cellAt site "unlock at" a
    if m.read cell = 0 then
      site.fails .invalidOperation s!"unlock of mutex #{a} that is not locked"
    else return .ofThread t site id (some (cell, 0)) none (.unlock a)

/-- The change by the flush of a store of thread number `t`. -/
def changeOfFlush (m : Machine) (t : Nat) (b : Pending) : Change :=
  ⟨Thread.flushed, (m.cell? b.addr).map fun cell => (cell, b.value), none,
    some ⟨.flush t, b.site, .store b.addr b.value⟩⟩

/-- The change by the step of a process. -/
def change (s : Setup) (m : Machine) : Proc → Except Stop Change
  | .thread t => do
    let th ← m.thread t
    let f ← s.function th.function
    match f.body[th.pc]? with
    | none => return .nothing
    | some i =>
      match ← th.operation i with
      | none => (th.site t f).fails .invalidOperation "not a scheduling point"
      | some op => m.changeOf s t th (th.site t f) op
  | .flush t => do
    let th ← m.thread t
    match th.buffer with
    | [] => return .nothing
    | b :: _ => return m.changeOfFlush t b

/-- The machine `m'` is `m` behind the change by a step of thread number `t`, and has taken account
of it. -/
structure Behind (k : Change) (t : Nat) (m m' : Machine) : Prop where
  core : m'.core = (k.on t m).core
  events : m'.events = m.events ++ k.event.toList
  errors : m'.errors = m.errors

/-- The step ends with the error of its change, or in a machine behind the change. -/
def Makes (t : Nat) (m : Machine) (change : Except Stop Change) (result : Except Stop Machine) :
    Prop :=
  match change with
  | .error why => result = .error why
  | .ok k => ∃ m', result = .ok m' ∧ Behind k t m m'

variable {s : Setup} {m : Machine} {t : Nat} {th : Thread}

/-- What `stepThread` adds to an operation that has been performed. -/
def passed (t : Nat) (site : Site) (x : Machine × EventKind) : Machine :=
  { x.1 with
    threads := x.1.threads.modify t Thread.next
    events := x.1.events ++ [⟨.thread t, site, x.2⟩] }

theorem core_eq_iff {m' : Machine} : m.core = m'.core ↔
    m.memory = m'.memory ∧ m.threads.map Thread.bare = m'.threads.map Thread.bare := by
  simp [core]

theorem modify_eq_set {l : List Thread} (h : l[t]? = some th) (f : Thread → Thread) :
    l.modify t f = l.set t (f th) := by
  rw [List.modify_eq_set_getElem?, h]
  rfl

theorem modify_set {l : List Thread} (h : l[t]? = some th) (f g : Thread → Thread) :
    (l.set t (f th)).modify t g = l.modify t fun th => g (f th) := by
  rw [← modify_eq_set h, List.modify_modify_eq]
  rfl

theorem modify_append {l : List Thread} (h : t < l.length) (f : Thread → Thread)
    (l' : List Thread) : (l ++ l').modify t f = l.modify t f ++ l' := by
  have hget : l[t]? = some l[t] := List.getElem?_eq_getElem h
  rw [modify_eq_set hget, modify_eq_set (by rwa [List.getElem?_append_left h]),
    List.set_append_left _ _ h]

theorem cellAt_eq_ok {site : Site} {what : String} {a : Addr} {i : Nat}
    (h : m.cellAt site what a = .ok i) : m.cell? a = some i := by
  unfold cellAt at h
  split at h
  · cases h
    assumption
  · cases h

/-- The ways in which an operation of thread number `t`, which is `th`, goes well: what is checked
before, the change that is made, the machine behind it and what happened. -/
inductive Succeeds (s : Setup) (m : Machine) (t : Nat) (th : Thread) (site : Site) :
    Operation → Change → Machine × EventKind → Prop
  | load {d : Reg} {a : Addr} {cell : Nat} {v : Int64} (hcell : m.cell? a = some cell)
      (hd : d < th.regs.length)
      (hv : ((th.forwarded a).map Pending.value).getD (m.read cell) = v) :
      Succeeds s m t th site (.load d a)
        (.ofThread t site (.withReg d v) none none (.load a v (th.forwarded a).isSome))
        ({ m.setThread t (th.withReg d v) with
          graph := m.graph.read t a ((th.forwarded a).map Pending.node) },
          .load a v (th.forwarded a).isSome)
  | enqueue {a : Addr} {x : Operand} {v : Int64} {cell : Nat} (hs : s.buffered = true)
      (hcell : m.cell? a = some cell) (hv : th.value x = .ok v) :
      Succeeds s m t th site (.store a x)
        (.ofThread t site (.enqueued ⟨a, v, 0, site⟩) none none (.enqueue a v))
        ({ m.setThread t (th.enqueued ⟨a, v, m.graph.nodes.length, site⟩) with
          graph := m.graph.write t a }, .enqueue a v)
  | store {a : Addr} {x : Operand} {v : Int64} {cell : Nat} (hs : s.buffered = false)
      (hcell : m.cell? a = some cell) (hv : th.value x = .ok v) :
      Succeeds s m t th site (.store a x)
        (.ofThread t site id (some (cell, v)) none (.store a v))
        ({ m.write cell v with graph := (m.graph.write t a).commit m.graph.nodes.length },
          .store a v)
  | fence : Succeeds s m t th site .fence (.ofThread t site id none none .fence) (m, .fence)
  | spawn {d : Reg} {f : Nat} {new : Thread} (hd : d < th.regs.length)
      (hnew : Thread.start s f = .ok new) :
      Succeeds s m t th site (.spawn d f)
        (.ofThread t site (.withReg d (.ofNat m.threads.length)) none (some new)
          (.spawn m.threads.length))
        ({ m with threads := m.threads.set t (th.withReg d (.ofNat m.threads.length)) ++ [new] },
          .spawn m.threads.length)
  | join {v : Int64} {c : Nat} (hc : m.joinee? t v = some c) :
      Succeeds s m t th site (.join v) (.ofThread t site id none none (.join c)) (m, .join c)
  | lock {a : Addr} {cell : Nat} (hcell : m.cell? a = some cell) :
      Succeeds s m t th site (.lock a)
        (.ofThread t site id (some (cell, 1)) none (.lock a))
        ({ m.write cell 1 with graph := m.graph.update t a }, .lock a)
  | unlock {a : Addr} {cell : Nat} (hcell : m.cell? a = some cell) (hlocked : m.read cell ≠ 0) :
      Succeeds s m t th site (.unlock a)
        (.ofThread t site id (some (cell, 0)) none (.unlock a))
        ({ m.write cell 0 with graph := m.graph.update t a }, .unlock a)

/-- An operation and its change fail with the same error, or the operation goes well in one of these
ways. -/
theorem fails_or_succeeds (s : Setup) (m : Machine) (t : Nat) (th : Thread) (site : Site)
    (op : Operation) :
    (∃ why, m.changeOf s t th site op = .error why ∧ m.perform s t th site op = .error why) ∨
    ∃ k x, m.changeOf s t th site op = .ok k ∧ m.perform s t th site op = .ok x ∧
      Succeeds s m t th site op k x := by
  cases op with
  | load d a =>
      simp only [changeOf, perform]
      cases hcell : m.cellAt site "load from" a with
      | error why => exact .inl ⟨why, rfl, rfl⟩
      | ok cell =>
          simp only [ok_bind, Thread.setReg_eq]
          by_cases hd : d < th.regs.length
          · simp only [if_pos hd]
            refine .inr ⟨_, _, rfl, ?_, .load (cellAt_eq_ok hcell) hd rfl⟩
            cases th.forwarded a with
            | none => rfl
            | some b => rfl
          · simp only [if_neg hd]
            refine .inl ⟨_, rfl, ?_⟩
            cases th.forwarded a with
            | none => rfl
            | some b => rfl
  | store a x =>
      simp only [changeOf, perform]
      cases hcell : m.cellAt site "store to" a with
      | error why => exact .inl ⟨why, rfl, rfl⟩
      | ok cell =>
          cases hv : th.value x with
          | error why => exact .inl ⟨why, rfl, rfl⟩
          | ok v =>
              simp only [ok_bind]
              cases hs : s.buffered with
              | true => exact .inr ⟨_, _, rfl, rfl, .enqueue hs (cellAt_eq_ok hcell) hv⟩
              | false => exact .inr ⟨_, _, rfl, rfl, .store hs (cellAt_eq_ok hcell) hv⟩
  | fence => exact .inr ⟨_, _, rfl, rfl, .fence⟩
  | spawn d f =>
      simp only [changeOf, perform, Thread.setReg_eq]
      cases hnew : Thread.start s f with
      | error why => exact .inl ⟨why, rfl, rfl⟩
      | ok new =>
          simp only [ok_bind]
          split
          · rename_i hd
            exact .inr ⟨_, _, rfl, rfl, .spawn hd hnew⟩
          · exact .inl ⟨_, rfl, rfl⟩
  | join v =>
      simp only [changeOf, perform]
      cases hc : m.joinee? t v with
      | none => exact .inl ⟨_, rfl, rfl⟩
      | some c => exact .inr ⟨_, _, rfl, rfl, .join hc⟩
  | lock a =>
      simp only [changeOf, perform]
      cases hcell : m.cellAt site "lock at" a with
      | error why => exact .inl ⟨why, rfl, rfl⟩
      | ok cell => exact .inr ⟨_, _, rfl, rfl, .lock (cellAt_eq_ok hcell)⟩
  | unlock a =>
      simp only [changeOf, perform]
      cases hcell : m.cellAt site "unlock at" a with
      | error why => exact .inl ⟨why, rfl, rfl⟩
      | ok cell =>
          simp only [ok_bind]
          split
          · exact .inl ⟨_, rfl, rfl⟩
          · rename_i hlocked
            exact .inr ⟨_, _, rfl, rfl, .unlock (cellAt_eq_ok hcell) hlocked⟩

theorem succeeds_of_changeOf {site : Site} {op : Operation} {k : Change}
    (h : m.changeOf s t th site op = .ok k) : ∃ x, Succeeds s m t th site op k x := by
  rcases fails_or_succeeds s m t th site op with ⟨why, hwhy, -⟩ | ⟨k', x, hk, -, hx⟩
  · rw [hwhy] at h
    cases h
  · obtain rfl : k' = k := Except.ok.inj (hk.symm.trans h)
    exact ⟨x, hx⟩

theorem succeeds_of_perform {site : Site} {op : Operation} {x : Machine × EventKind}
    (h : m.perform s t th site op = .ok x) : ∃ k, Succeeds s m t th site op k x := by
  rcases fails_or_succeeds s m t th site op with ⟨why, -, hwhy⟩ | ⟨k, x', -, hx, hk⟩
  · rw [hwhy] at h
    cases h
  · obtain rfl : x' = x := Except.ok.inj (hx.symm.trans h)
    exact ⟨k, hk⟩

theorem Succeeds.changeOf_eq {site : Site} {op : Operation} {k : Change} {x : Machine × EventKind}
    (h : Succeeds s m t th site op k x) : m.changeOf s t th site op = .ok k := by
  cases h with
  | load hcell hd hv => simp [changeOf, cellAt, hcell, Thread.setReg_eq, hd, hv]
  | enqueue hs hcell hv => simp [changeOf, cellAt, hcell, hv, hs]
  | store hs hcell hv => simp [changeOf, cellAt, hcell, hv, hs]
  | fence => rfl
  | spawn hd hnew => simp [changeOf, Thread.setReg_eq, hd, hnew]
  | join hc => simp [changeOf, hc]
  | lock hcell => simp [changeOf, cellAt, hcell]
  | unlock hcell hlocked => simp [changeOf, cellAt, hcell, hlocked]

theorem Succeeds.behind {site : Site} {op : Operation} {k : Change} {x : Machine × EventKind}
    (h : Succeeds s m t th site op k x) (hth : m.threads[t]? = some th) :
    Behind k t m (passed t site x) := by
  cases h with
  | load hcell hd hv =>
      refine ⟨core_eq_iff.mpr ⟨rfl, ?_⟩, rfl, rfl⟩
      simp [passed, setThread, Change.on, Change.ofThread, modify_set hth]
  | @enqueue a x v cell hs hcell hv =>
      refine ⟨core_eq_iff.mpr ⟨rfl, ?_⟩, rfl, rfl⟩
      have hset := modify_set hth (Thread.enqueued ⟨a, v, m.graph.nodes.length, site⟩) Thread.next
      simp only [passed, setThread, hset, Change.on, Change.ofThread, modify_eq_set hth]
      -- the node of the waiting store is no part of the core
      simp [List.map_set, Thread.enqueued, Thread.next, Thread.bare, Pending.bare]
  | @spawn d f new hd hnew =>
      refine ⟨core_eq_iff.mpr ⟨rfl, ?_⟩, rfl, rfl⟩
      have ht : t < (m.threads.set t (th.withReg d (.ofNat m.threads.length))).length := by
        rw [List.length_set]
        exact (List.getElem?_eq_some_iff.mp hth).1
      simp only [passed, Change.on, Change.ofThread, modify_append ht, modify_set hth,
        Option.toList_some]
  | store | lock | unlock =>
      refine ⟨core_eq_iff.mpr ⟨rfl, ?_⟩, rfl, rfl⟩
      simp [passed, write, Change.on, Change.ofThread]
  | fence | join =>
      refine ⟨core_eq_iff.mpr ⟨rfl, ?_⟩, rfl, rfl⟩
      simp [passed, Change.on, Change.ofThread]

theorem makes_perform (hth : m.threads[t]? = some th) (site : Site) (op : Operation) :
    Makes t m (m.changeOf s t th site op) ((m.perform s t th site op).map (passed t site)) := by
  rcases fails_or_succeeds s m t th site op with ⟨why, hk, hx⟩ | ⟨k, x, hk, hx, h⟩
  · rw [hk, hx]
    rfl
  · rw [hk, hx]
    exact ⟨_, rfl, h.behind hth⟩

theorem thread_of_getElem? (h : m.threads[t]? = some th) : m.thread t = .ok th := by
  rw [thread, fetch, h]

theorem getElem?_of_thread (h : m.thread t = .ok th) : m.threads[t]? = some th := by
  rw [thread, fetch] at h
  cases hth : m.threads[t]? with
  | none => simp [hth] at h
  | some th' => simpa [hth] using h

theorem change_of_upcoming {op : Operation} (hth : m.threads[t]? = some th)
    (hup : th.upcoming s = .ok (some op)) : ∃ f, s.function th.function = .ok f ∧
      m.change s (.thread t) = m.changeOf s t th (th.site t f) op := by
  obtain ⟨-, f, i, hf, hi, hop⟩ := th.of_upcoming s hup
  refine ⟨f, hf, ?_⟩
  simp only [change, thread_of_getElem? hth, ok_bind, hf, hi, hop]

theorem step_of_upcoming {op : Operation} {f : Function} (hth : m.threads[t]? = some th)
    (hup : th.upcoming s = .ok (some op)) (hf : s.function th.function = .ok f) :
    m.step s (.thread t) = (m.perform s t th (th.site t f) op).map (passed t (th.site t f)) := by
  obtain ⟨-, f', i, hf', hi, hop⟩ := th.of_upcoming s hup
  obtain rfl : f' = f := Except.ok.inj (hf'.symm.trans hf)
  simp only [step, stepThread, thread_of_getElem? hth, ok_bind, hf', hi, execVisible_eq, hop,
    Option.elim_some]
  cases m.perform s t th (th.site t f') op with
  | error why => rfl
  | ok x => rfl

theorem change_of_head {b : Pending} (hth : m.threads[t]? = some th)
    (hb : th.buffer.head? = some b) : m.change s (.flush t) = .ok (m.changeOfFlush t b) := by
  obtain ⟨rest, hb⟩ := List.head?_eq_some_iff.mp hb
  simp only [change, thread_of_getElem? hth, ok_bind, hb, pure_eq_ok]

theorem Makes.bind {α : Type} {x : Except Stop α} {f : α → Except Stop Change}
    {g : α → Except Stop Machine} (h : ∀ a, x = .ok a → Makes t m (f a) (g a)) :
    Makes t m (x >>= f) (x >>= g) := by
  cases hx : x with
  | error why => rfl
  | ok a => exact h a hx

theorem makes_nothing (t : Nat) (m : Machine) : Makes t m (.ok .nothing) (.ok m) :=
  ⟨m, rfl, by simp [Change.on, Change.nothing, Change.memory], by simp [Change.nothing], rfl⟩

/-- **A step makes the change that was computed for it**, or ends with the error of that. -/
theorem step_eq (s : Setup) (m : Machine) (p : Proc) :
    Makes p.owner m (m.change s p) (m.step s p) := by
  cases p with
  | thread t =>
      refine Makes.bind fun th hth => Makes.bind fun f _ => ?_
      cases f.body[th.pc]? with
      | none => exact makes_nothing t m
      | some i =>
          simp only [execVisible_eq, bind_assoc]
          refine Makes.bind fun op? _ => ?_
          cases op? with
          | none => rfl
          | some op =>
              have h := makes_perform (s := s) (getElem?_of_thread hth) (th.site t f) op
              simp only [Option.elim_some]
              generalize m.perform s t th (th.site t f) op = x at h ⊢
              cases x with
              | error why => exact h
              | ok x => exact h
  | flush t =>
      refine Makes.bind fun th hth => ?_
      cases hb : th.buffer with
      | nil => exact makes_nothing t m
      | cons b rest =>
          have hset := modify_eq_set (getElem?_of_thread hth) Thread.flushed
          simp only [Thread.flushed, hb, List.tail_cons] at hset
          cases hcell : m.cell? b.addr with
          | none =>
              simp only [changeOfFlush, hcell]
              refine ⟨_, rfl, core_eq_iff.mpr ⟨rfl, ?_⟩, rfl, rfl⟩
              simp [Change.on, setThread, Proc.owner, hset]
          | some cell =>
              simp only [changeOfFlush, hcell]
              refine ⟨_, rfl, core_eq_iff.mpr ⟨rfl, ?_⟩, rfl, rfl⟩
              simp [Change.on, setThread, write, Proc.owner, hset]

/-- What a step that goes well does: nothing, an operation of a thread, or a flush. -/
theorem step_cases {m' : Machine} {p : Proc} (h : m.step s p = .ok m') :
    m' = m ∨
    (∃ t th site op x, m.threads[t]? = some th ∧ m.perform s t th site op = .ok x ∧
      m' = passed t site x) ∨
    ∃ t th b rest, m.threads[t]? = some th ∧ th.buffer = b :: rest ∧
      m'.threads = m.threads.set t (th.withBuffer rest) ∧ m'.graph = m.graph.commit b.node ∧
      m'.events = m.events ++ [⟨.flush t, b.site, .store b.addr b.value⟩] ∧
      (∀ cell, m.cell? b.addr = some cell → m'.memory = m.memory.set cell b.value) ∧
      (m.cell? b.addr = none → m'.memory = m.memory) := by
  cases p with
  | thread t =>
      obtain ⟨th, hth, h⟩ := exists_of_bind h
      obtain ⟨f, hf, h⟩ := exists_of_bind h
      cases hi : f.body[th.pc]? with
      | none =>
          simp only [hi] at h
          cases h
          exact .inl rfl
      | some i =>
          simp only [hi] at h
          obtain ⟨x, hx, h⟩ := exists_of_bind h
          cases h
          rw [execVisible_eq] at hx
          obtain ⟨op?, hop, hx⟩ := exists_of_bind hx
          cases op? with
          | none => cases hx
          | some op =>
              exact .inr (.inl ⟨t, th, _, op, x, getElem?_of_thread hth, hx, rfl⟩)
  | flush t =>
      obtain ⟨th, hth, h⟩ := exists_of_bind h
      cases hb : th.buffer with
      | nil =>
          simp only [hb] at h
          cases h
          exact .inl rfl
      | cons b rest =>
          simp only [hb] at h
          refine .inr (.inr ⟨t, th, b, rest, getElem?_of_thread hth, hb, ?_⟩)
          cases h
          cases hcell : m.cell? b.addr with
          | none => exact ⟨rfl, rfl, rfl, fun _ hsome => (by cases hsome), fun _ => rfl⟩
          | some cell =>
              refine ⟨rfl, rfl, rfl, fun cell' hcell' => ?_, fun hnone => by cases hnone⟩
              cases hcell'
              rfl

/-! ### The change depends on the core only -/

theorem changeOf_core (s : Setup) (m : Machine) (t : Nat) (th : Thread) (site : Site)
    (op : Operation) : m.core.changeOf s t th.bare site op = m.changeOf s t th site op := by
  have hcell : ∀ what a, m.core.cellAt site what a = m.cellAt site what a := fun _ _ => rfl
  have hset : ∀ d v (k : Except Stop Change),
      (th.bare.setReg d v >>= fun _ => k) = (th.setReg d v >>= fun _ => k) := by
    intro d v k
    simp only [Thread.setReg_eq, Thread.bare]
    split <;> rfl
  cases op with
  | load d a =>
      have hfrom : (th.bare.forwarded a).isSome = (th.forwarded a).isSome := by
        rw [Thread.forwarded_bare, Option.isSome_map]
      have hvalue : (th.bare.forwarded a).map Pending.value = (th.forwarded a).map Pending.value := by
        rw [Thread.forwarded_bare, Option.map_map]
        rfl
      simp only [changeOf, hcell, hset, hfrom, hvalue, read_core]
  | spawn d f => simp only [changeOf, hset, threads_core, List.length_map]
  | join v => simp only [changeOf, joinee?_core]
  | _ => rfl

theorem change_core (s : Setup) (m : Machine) (p : Proc) : m.core.change s p = m.change s p := by
  have hthread : ∀ t, m.core.thread t = (m.thread t).map Thread.bare := by
    intro t
    simp only [thread, fetch, threads_core, List.getElem?_map, List.length_map]
    cases m.threads[t]? <;> rfl
  cases p with
  | thread t =>
      simp only [change, hthread]
      cases m.thread t with
      | error why => rfl
      | ok th =>
          simp only [Except.map, ok_bind, Thread.operation_bare, changeOf_core]
          have hsite : ∀ f, th.bare.site t f = th.site t f := fun _ => rfl
          simp only [hsite]
          rfl
  | flush t =>
      simp only [change, hthread]
      cases m.thread t with
      | error why => rfl
      | ok th =>
          simp only [Except.map, ok_bind]
          cases hb : th.buffer with
          | nil => simp [Thread.bare, hb]
          | cons b rest => simp [Thread.bare, Pending.bare, changeOfFlush, hb]

end Machine

end Interleave
