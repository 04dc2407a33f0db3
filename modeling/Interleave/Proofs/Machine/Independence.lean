import Interleave.Proofs.Equivalence
import Interleave.Proofs.Machine.Change

/-! # Independent steps

The step of a candidate changes no more than its access tells (`Change.Within`).  So a candidate that
is not dependent with it is offered behind the step if and only if it was offered before, and its own
change stays the same; and two such changes can be made in either order.

One thing is not told by the access: how many threads there are.  It matters to a thread that creates
a thread and to one that joins a thread which does not exist (`Machine.CountsThreads`), and for these
a step that creates a thread is excepted. -/

namespace Interleave

theorem Candidate.of_indep {c d : Candidate} (h : c.dependent d = false) :
    c.access.conflicts d.access = false ∧ c.bearsOn d.proc = false ∧ d.bearsOn c.proc = false := by
  simp only [dependent, Bool.or_eq_false_iff] at h
  exact ⟨h.1.1.2, h.1.2, h.2⟩

/-- The access that an operation made, as it was announced. -/
def EventKind.access : EventKind → Access
  | load a _ _ => .read a
  | store a _ => .write a
  | enqueue a _ => .enqueue a
  | fence => .fence
  | spawn t => .spawn t
  | join t => .join t
  | lock a => .lock a
  | unlock a => .unlock a

/-- The candidate whose step an event tells of. -/
def Event.candidate (e : Event) : Candidate := ⟨e.proc, e.kind.access⟩

namespace Thread

theorem buffer_start {s : Setup} {f : Nat} {th : Thread} (h : start s f = .ok th) :
    th.buffer = [] := by
  unfold start at h
  cases hf : s.function f with
  | error why => simp [hf] at h
  | ok fn =>
      simp only [hf, ok_bind, pure_eq_ok, Except.ok.injEq] at h
      rw [← h]

/-- The update of a thread adds the given stores to the end of the buffer and does not look at it
otherwise. -/
def Adds (waiting : List Pending) (update : Thread → Thread) : Prop :=
  ∀ th buffer, update (th.withBuffer buffer) = (update th).withBuffer (buffer ++ waiting)

theorem adds_id : Adds [] id := by
  intro th buffer
  simp

theorem adds_withReg (d : Reg) (v : Int64) : Adds [] (withReg d v) := by
  intro th buffer
  simp [withReg]

theorem adds_enqueued (b : Pending) : Adds [b] (enqueued b) := by
  intro th buffer
  rfl

theorem Adds.buffer_eq {waiting : List Pending} {update : Thread → Thread} (h : Adds waiting update)
    (th : Thread) : (update th).buffer = th.buffer ++ waiting :=
  congrArg Thread.buffer (h th th.buffer)

end Thread

namespace Change

variable {k : Change} {m : Machine} {t u : Nat} {th : Thread}

/-- The change is no more than the access of the candidate tells. -/
structure Within (m : Machine) (c : Candidate) (k : Change) : Prop where
  /-- A cell is written at the address of the access, which is not a read. -/
  cell : ∀ i v, k.cell = some (i, v) →
    ∃ a, c.access.object = some a ∧ c.access.isRead = false ∧ m.cell? a = some i
  /-- The thread to create is the next one. -/
  child : k.child.isSome ↔ c.access = .spawn m.threads.length
  /-- Its buffer is empty. -/
  fresh : ∀ new, k.child = some new → new.buffer = []
  /-- A thread does no more to its buffer than to add a store to it. -/
  buffer : ∀ t, c.proc = .thread t →
    ∃ waiting, (c.access.isEnqueue = false → waiting = []) ∧ Thread.Adds waiting k.update
  /-- A flush takes a store out of the buffer. -/
  flush : ∀ t, c.proc = .flush t → k.update = Thread.flushed
  /-- There is an event, which tells of the candidate. -/
  event : k.event.map Event.candidate = some c

theorem Within.child_eq_none {c : Candidate} (hk : k.Within m c) (h : ∀ n, c.access ≠ .spawn n) :
    k.child = none := by
  by_contra hchild
  exact h _ (hk.child.mp (Option.isSome_iff_ne_none.mpr hchild))

/-! ### A machine behind a change -/

@[simp] theorem length_memory (k : Change) (cells : List Int64) :
    (k.memory cells).length = cells.length := by
  unfold memory
  split <;> simp

@[simp] theorem cell?_on (k : Change) (t : Nat) (m : Machine) (a : Addr) :
    (k.on t m).cell? a = m.cell? a := by
  simp [Machine.cell?, on]

theorem read_on (k : Change) (t : Nat) (m : Machine) {i : Nat}
    (h : ∀ j v, k.cell = some (j, v) → j ≠ i) : (k.on t m).read i = m.read i := by
  simp only [Machine.read, on, memory]
  split
  · rename_i j v hcell
    rw [List.getD_eq_getElem?_getD, List.getElem?_set_ne (h j v hcell), List.getD_eq_getElem?_getD]
  · rfl

theorem length_threads_on (k : Change) (t : Nat) (m : Machine) :
    (k.on t m).threads.length = m.threads.length + k.child.toList.length := by
  simp [on]

theorem getElem?_on (k : Change) (t : Nat) (hth : m.threads[u]? = some th) :
    (k.on t m).threads[u]? = some (if t = u then k.update th else th) := by
  have hu := (List.getElem?_eq_some_iff.mp hth).1
  simp only [on]
  rw [List.getElem?_append_left (by simpa using hu), List.getElem?_modify, hth]
  rfl

end Change

namespace Machine

variable {s : Setup} {m : Machine} {c d : Candidate} {k : Change} {u : Nat} {th : Thread}

theorem cell?_eq_some {a : Addr} {cell : Nat} (h : m.cell? a = some cell) :
    a ≠ 0 ∧ cell = a.toNat - 1 ∧ cell < m.memory.length := by
  simp only [cell?, Option.ite_none_right_eq_some, Option.some.injEq] at h
  obtain ⟨⟨hpos, hle⟩, rfl⟩ := h
  refine ⟨?_, rfl, by omega⟩
  rintro rfl
  exact absurd hpos (by decide)

theorem cell?_injective {a b : Addr} {i : Nat} (ha : m.cell? a = some i) (hb : m.cell? b = some i) :
    a = b := by
  simp only [cell?, Option.ite_none_right_eq_some, Option.some.injEq] at ha hb
  exact UInt64.toNat_inj.mp (by omega)

theorem read_on_of_indep (hk : k.Within m c) (hi : c.dependent d = false) {a : Addr}
    (ha : d.access.object = some a) {i : Nat} (hcell : m.cell? a = some i) (t : Nat) :
    (k.on t m).read i = m.read i := by
  refine k.read_on t m ?_
  rintro j v hkc rfl
  obtain ⟨b, hb, hread, hcell'⟩ := hk.cell j v hkc
  obtain rfl := cell?_injective hcell hcell'
  have := (Candidate.of_indep hi).1
  simp [Access.conflicts, ha, hb, hread] at this

/-! ### Changes are within the access -/

theorem within_ofThread {t : Nat} {site : Site} {update : Thread → Thread}
    {cell : Option (Nat × Int64)} {child : Option Thread} {kind : EventKind} {a : Access}
    {waiting : List Pending}
    (hcell : ∀ i v, cell = some (i, v) →
      ∃ b, a.object = some b ∧ a.isRead = false ∧ m.cell? b = some i)
    (hchild : child.isSome ↔ a = .spawn m.threads.length)
    (hfresh : ∀ new, child = some new → new.buffer = [])
    (hwaiting : a.isEnqueue = false → waiting = [])
    (hupdate : Thread.Adds waiting update)
    (hkind : kind.access = a) :
    (Change.ofThread t site update cell child kind).Within m ⟨.thread t, a⟩ where
  cell := hcell
  child := hchild
  fresh := hfresh
  buffer _ _ := ⟨waiting, hwaiting, fun th buffer => congrArg Thread.next (hupdate th buffer)⟩
  flush _ h := by cases h
  event := by rw [← hkind]; rfl

theorem within_changeOf {t : Nat} {site : Site} {op : Operation} {a : Access}
    (ha : m.announce s t op = some a) (hk : m.changeOf s t th site op = .ok k) :
    k.Within m ⟨.thread t, a⟩ := by
  obtain ⟨x, hx⟩ := succeeds_of_changeOf hk
  cases hx with
  | load hcell hd hv =>
      cases ha
      exact within_ofThread (by simp) (by simp) (by simp) (by simp) (Thread.adds_withReg _ _) rfl
  | enqueue hs hcell hv =>
      simp only [announce, hs, if_true] at ha
      cases ha
      exact within_ofThread (by simp) (by simp) (by simp) (by simp [Access.isEnqueue])
        (Thread.adds_enqueued _) rfl
  | store hs hcell hv =>
      simp only [announce, hs, Bool.false_eq_true, if_false] at ha
      cases ha
      refine within_ofThread ?_ (by simp) (by simp) (by simp) Thread.adds_id rfl
      rintro _ _ ⟨⟩
      exact ⟨_, rfl, rfl, hcell⟩
  | fence =>
      cases ha
      exact within_ofThread (by simp) (by simp) (by simp) (by simp) Thread.adds_id rfl
  | spawn hd hnew =>
      cases ha
      refine within_ofThread (by simp) (by simp) ?_ (by simp) (Thread.adds_withReg _ _) rfl
      rintro _ ⟨⟩
      exact Thread.buffer_start hnew
  | join hc =>
      simp only [announce, hc] at ha
      split at ha
      · cases ha
        exact within_ofThread (by simp) (by simp) (by simp) (by simp) Thread.adds_id rfl
      · cases ha
  | lock hcell =>
      simp only [announce, hcell] at ha
      split at ha
      · cases ha
        refine within_ofThread ?_ (by simp) (by simp) (by simp) Thread.adds_id rfl
        rintro _ _ ⟨⟩
        exact ⟨_, rfl, rfl, hcell⟩
      · cases ha
  | unlock hcell hlocked =>
      cases ha
      refine within_ofThread ?_ (by simp) (by simp) (by simp) Thread.adds_id rfl
      rintro _ _ ⟨⟩
      exact ⟨_, rfl, rfl, hcell⟩

theorem within_changeOfFlush (m : Machine) (t : Nat) (b : Pending) :
    (m.changeOfFlush t b).Within m ⟨.flush t, .write b.addr⟩ where
  cell i v h := by
    simp only [changeOfFlush, Option.map_eq_some_iff, Prod.mk.injEq] at h
    obtain ⟨_, hcell, rfl, -⟩ := h
    exact ⟨b.addr, rfl, rfl, hcell⟩
  child := by simp [changeOfFlush]
  fresh _ h := by cases h
  buffer _ h := by cases h
  flush _ _ := rfl
  event := rfl

theorem Offered.within (hc : m.Offered s c) (hk : m.change s c.proc = .ok k) : k.Within m c := by
  cases hc with
  | thread hth hup hadm =>
      obtain ⟨p, a⟩ := c
      obtain ⟨ha, hp, -⟩ := admits_eq_some.mp hadm
      simp only at ha hp hk
      subst hp
      obtain ⟨f, -, hchange⟩ := change_of_upcoming hth hup
      exact within_changeOf ha (hchange.symm.trans hk)
  | flush hth hb =>
      obtain rfl : _ = k := Except.ok.inj ((change_of_head hth hb).symm.trans hk)
      exact within_changeOfFlush m _ _

/-! ### What is offered behind an independent step -/

/-- What thread number `u` does next depends on how many threads there are: it creates one, or it
joins one that does not exist. -/
def CountsThreads (s : Setup) (m : Machine) (u : Nat) : Prop :=
  ∃ th op, m.threads[u]? = some th ∧ th.upcoming s = .ok (some op) ∧
    ((∃ d f, op = .spawn d f) ∨ ∃ v, op = .join v ∧ m.joinee? u v = none)

/-- The step of `c` creates a thread, and what `d` does depends on how many there are. -/
def Renumbers (s : Setup) (m : Machine) (c d : Candidate) : Prop :=
  (∃ n, c.access = .spawn n) ∧ ∃ u, d.proc = .thread u ∧ m.CountsThreads s u

/-- The thread that `th` has become behind the step of `c`, which is not its own. -/
def threadBehind (c : Candidate) (u : Nat) (th : Thread) : Thread :=
  if c.proc = .flush u then th.flushed else th

theorem getElem?_behind (hk : k.Within m c) (hth : m.threads[u]? = some th)
    (hne : c.proc ≠ .thread u) :
    (k.on c.proc.owner m).threads[u]? = some (threadBehind c u th) := by
  rw [k.getElem?_on _ hth, threadBehind]
  cases hp : c.proc with
  | thread t =>
      have htu : t ≠ u := by
        rintro rfl
        exact hne hp
      simp [Proc.owner, htu]
  | flush t =>
      simp [Proc.owner, hk.flush t hp]

theorem upcoming_behind (c : Candidate) (u : Nat) (th : Thread) :
    (threadBehind c u th).upcoming s = th.upcoming s := by
  unfold threadBehind
  split
  · exact Thread.upcoming_withBuffer s th _
  · rfl

theorem length_behind (hk : k.Within m c) (hn : ∀ n, c.access ≠ .spawn n) (t : Nat) :
    (k.on t m).threads.length = m.threads.length := by
  rw [k.length_threads_on, hk.child_eq_none hn]
  rfl

theorem joinee?_behind (hk : k.Within m c) {t : Nat} {v : Int64}
    (h : (∀ n, c.access ≠ .spawn n) ∨ m.joinee? u v ≠ none) :
    (k.on t m).joinee? u v = m.joinee? u v := by
  rcases h with hn | hj
  · simp only [joinee?, length_behind hk hn]
  · obtain ⟨j, hj⟩ := Option.ne_none_iff_exists'.mp hj
    rw [hj]
    simp only [joinee?, Option.ite_none_right_eq_some] at hj ⊢
    have := k.length_threads_on t m
    refine ⟨⟨hj.1.1, ?_, hj.1.2.2⟩, hj.2⟩
    omega

/-- The flush of another address is not noticed by what a thread loads. -/
theorem forwarded_behind (hc : m.Offered s c) (hth : m.threads[u]? = some th)
    (hi : c.dependent d = false) {a : Addr} (ha : d.access = .read a) :
    (threadBehind c u th).forwarded a = th.forwarded a := by
  unfold threadBehind
  split
  · rename_i hp
    cases hc with
    | thread _ _ hadm =>
        rw [(admits_eq_some.mp hadm).2.1] at hp
        cases hp
    | @flush t th' b hth' hb =>
        cases hp
        obtain rfl : th = th' := Option.some.inj (hth.symm.trans hth')
        obtain ⟨rest, hb⟩ := List.head?_eq_some_iff.mp hb
        have hne : (b.addr == a) = false := by
          have := (Candidate.of_indep hi).1
          simpa [Access.conflicts, ha, Access.object, Access.isRead] using this
        simp [Thread.forwarded, Thread.flushed, hb, hne]
  · rfl

section

variable {op : Operation} (hk : k.Within m c) (hth : m.threads[u]? = some th)
  (hup : th.upcoming s = .ok (some op)) (hp : d.proc = .thread u) (hi : c.dependent d = false)
  (hn : ¬ m.Renumbers s c d)

include hk hth hup hp hn

theorem length_behind_of_spawn {r : Reg} {f : Nat} (hop : op = .spawn r f) (t : Nat) :
    (k.on t m).threads.length = m.threads.length :=
  length_behind hk
    (fun n hs => hn ⟨⟨n, hs⟩, u, hp, th, op, hth, hup, .inl ⟨r, f, hop⟩⟩) t

theorem joinee?_behind_of_join {v : Int64} (hop : op = .join v) (t : Nat) :
    (k.on t m).joinee? u v = m.joinee? u v := by
  refine joinee?_behind hk ?_
  by_cases hj : m.joinee? u v = none
  · exact .inl fun n hs => hn ⟨⟨n, hs⟩, u, hp, th, op, hth, hup, .inr ⟨v, hop, hj⟩⟩
  · exact .inr hj

include hi

theorem announce_behind (hd : m.announce s u op = some d.access ∨
      (k.on c.proc.owner m).announce s u op = some d.access) :
    (k.on c.proc.owner m).announce s u op = m.announce s u op := by
  cases op with
  | spawn r f => simp only [announce, length_behind_of_spawn hk hth hup hp hn rfl]
  | join v =>
      have hjoinee := joinee?_behind_of_join hk hth hup hp hn rfl c.proc.owner
      simp only [announce, hjoinee] at hd ⊢
      cases hj : m.joinee? u v with
      | none => rfl
      | some j =>
          simp only [hj] at hd ⊢
          have hacc : d.access = .join j := by
            simp only [Option.ite_none_right_eq_some, Option.some.injEq] at hd
            rcases hd with ⟨-, hd⟩ | ⟨-, hd⟩ <;> exact hd.symm
          have hne : c.proc.owner ≠ j := by
            rintro rfl
            have := (Candidate.of_indep hi).2.2
            simp [Candidate.bearsOn, Access.concerns, hacc] at this
          have hlt : j < m.threads.length := by
            simp only [joinee?, Option.ite_none_right_eq_some, Option.some.injEq] at hj
            omega
          have hthj : m.threads[j]? = some m.threads[j] := List.getElem?_eq_getElem hlt
          rw [k.getElem?_on _ hthj, if_neg hne, hthj]
  | lock a =>
      simp only [announce, Change.cell?_on] at hd ⊢
      cases hcell : m.cell? a with
      | none => rfl
      | some i =>
          simp only [hcell] at hd ⊢
          have hacc : d.access = .lock a := by
            simp only [Option.ite_none_right_eq_some, Option.some.injEq] at hd
            rcases hd with ⟨-, hd⟩ | ⟨-, hd⟩ <;> exact hd.symm
          rw [read_on_of_indep hk hi (by rw [hacc]; rfl) hcell]
  | _ => rfl

theorem changeOf_behind (hc : m.Offered s c) (hd : m.announce s u op = some d.access)
    (site : Site) : (k.on c.proc.owner m).changeOf s u (threadBehind c u th) site op =
      m.changeOf s u th site op := by
  have hcell : ∀ what a, (k.on c.proc.owner m).cellAt site what a = m.cellAt site what a := by
    intro what a
    simp only [cellAt, Change.cell?_on]
  have hregs : (threadBehind c u th).regs = th.regs := by
    unfold threadBehind
    split <;> rfl
  have hset : ∀ r v (x : Except Stop Change),
      ((threadBehind c u th).setReg r v >>= fun _ => x) = (th.setReg r v >>= fun _ => x) := by
    intro r v x
    simp only [Thread.setReg_eq, hregs]
    split <;> rfl
  have hvalue : ∀ x, (threadBehind c u th).value x = th.value x := by
    intro x
    cases x with
    | reg r => rw [Thread.value, Thread.value, Thread.reg, Thread.reg, hregs]
    | imm v => rfl
  cases op with
  | load r a =>
      have hacc : d.access = .read a := (Option.some.inj hd).symm
      simp only [changeOf, hcell, hset, forwarded_behind hc hth hi hacc]
      cases hat : m.cellAt site "load from" a with
      | error why => rfl
      | ok i =>
          simp only [ok_bind, read_on_of_indep hk hi (by rw [hacc]; rfl) (cellAt_eq_ok hat)]
  | store a x => simp only [changeOf, hcell, hvalue]
  | fence => rfl
  | spawn r f => simp only [changeOf, hset, length_behind_of_spawn hk hth hup hp hn rfl]
  | join v => simp only [changeOf, joinee?_behind_of_join hk hth hup hp hn rfl]
  | lock a => simp only [changeOf, hcell]
  | unlock a =>
      have hacc : d.access = .unlock a := (Option.some.inj hd).symm
      simp only [changeOf, hcell]
      cases hat : m.cellAt site "unlock at" a with
      | error why => rfl
      | ok i =>
          simp only [ok_bind, read_on_of_indep hk hi (by rw [hacc]; rfl) (cellAt_eq_ok hat)]

end

theorem drains_behind (hi : c.dependent d = false) (hp : d.proc = .thread u) :
    (s.buffered && d.access.drains && !(threadBehind c u th).buffer.isEmpty) =
      (s.buffered && d.access.drains && !th.buffer.isEmpty) := by
  unfold threadBehind
  split
  · rename_i hflush
    have hdrains : d.access.drains = false := by
      have := (Candidate.of_indep hi).2.2
      simp only [Candidate.bearsOn, hp, hflush, beq_self_eq_true, Bool.true_and,
        Bool.or_eq_false_iff] at this
      exact this.2.1
    simp [hdrains]
  · rfl

/-- Whatever goes before a flush adds at most a store to the end of the buffer. -/
theorem buffer_behind (hk : k.Within m c) (hth : m.threads[u]? = some th)
    (hne : c.proc ≠ .flush u) :
    ∃ th' waiting, (k.on c.proc.owner m).threads[u]? = some th' ∧
      th'.buffer = th.buffer ++ waiting ∧
      (waiting = [] ∨ c.proc = .thread u ∧ c.access.isEnqueue = true) := by
  cases hp : c.proc with
  | flush t =>
      have htu : t ≠ u := by
        rintro rfl
        exact hne hp
      refine ⟨th, [], ?_, by simp, .inl rfl⟩
      simp [k.getElem?_on _ hth, Proc.owner, htu]
  | thread t =>
      by_cases htu : t = u
      · subst htu
        obtain ⟨waiting, hwaiting, hadds⟩ := hk.buffer t hp
        refine ⟨k.update th, waiting, ?_, hadds.buffer_eq th, ?_⟩
        · simp [k.getElem?_on _ hth, Proc.owner]
        · cases henq : c.access.isEnqueue with
          | true => exact .inr ⟨rfl, rfl⟩
          | false => exact .inl (hwaiting henq)
      · refine ⟨th, [], ?_, by simp, .inl rfl⟩
        simp [k.getElem?_on _ hth, Proc.owner, htu]

theorem flush_behind {b : Pending} (hk : k.Within m c) (hth : m.threads[u]? = some th)
    (hb : th.buffer.head? = some b) (hne : c.proc ≠ .flush u) :
    (k.on c.proc.owner m).Offered s ⟨.flush u, .write b.addr⟩ ∧
      (k.on c.proc.owner m).change s (.flush u) = m.change s (.flush u) := by
  obtain ⟨th', waiting, hth', hbuf, -⟩ := buffer_behind hk hth hne
  have hb' : th'.buffer.head? = some b := by
    rw [hbuf, List.head?_append, hb]
    rfl
  refine ⟨.flush hth' hb', ?_⟩
  rw [change_of_head hth' hb', change_of_head hth hb]
  simp [changeOfFlush]

/-- A flush that is independent of an enqueue belongs to another thread. -/
theorem not_enqueue_of_indep (hi : c.dependent d = false) (hp : d.proc = .flush u) :
    ¬ (c.proc = .thread u ∧ c.access.isEnqueue = true) := by
  rintro ⟨hc, henq⟩
  have := (Candidate.of_indep hi).2.1
  simp [Candidate.bearsOn, hc, hp, henq] at this

/-- **What is offered stays so behind an independent step, and its step changes the same.** -/
theorem Offered.behind (hc : m.Offered s c) (hk : k.Within m c) (hd : m.Offered s d)
    (hi : c.dependent d = false) (hn : ¬ m.Renumbers s c d) :
    (k.on c.proc.owner m).Offered s d ∧
      (k.on c.proc.owner m).change s d.proc = m.change s d.proc := by
  have hne := Candidate.proc_ne_of_indep hi
  cases hd with
  | @thread u th op _ hth hup hadm =>
      obtain ⟨ha, hp, hdrain⟩ := admits_eq_some.mp hadm
      rw [hp] at hne ⊢
      have hth' := getElem?_behind hk hth hne
      have hup' := (upcoming_behind c u th).trans hup
      have hann := announce_behind hk hth hup hp hi hn (.inl ha)
      refine ⟨.thread hth' hup' (admits_eq_some.mpr ⟨hann.trans ha, hp, ?_⟩), ?_⟩
      · rw [drains_behind hi hp, hdrain]
      · obtain ⟨f, hf, hchange⟩ := change_of_upcoming hth hup
        obtain ⟨f', hf', hchange'⟩ := change_of_upcoming hth' hup'
        have hfunction : (threadBehind c u th).function = th.function := by
          unfold threadBehind
          split <;> rfl
        have hsite : (threadBehind c u th).site u f = th.site u f := by
          unfold threadBehind
          split <;> rfl
        rw [hfunction, hf] at hf'
        obtain rfl : f = f' := Except.ok.inj hf'
        rw [hchange', hchange, hsite, changeOf_behind hk hth hup hp hi hn hc ha]
  | flush hth hb => exact flush_behind hk hth hb hne

theorem Offered.before (hk : k.Within m c) (hd : (k.on c.proc.owner m).Offered s d)
    (hi : c.dependent d = false) (hn : ¬ m.Renumbers s c d) : m.Offered s d := by
  have hne := Candidate.proc_ne_of_indep hi
  have hold : ∀ u th', (k.on c.proc.owner m).threads[u]? = some th' → d.proc.owner = u →
      ∃ th, m.threads[u]? = some th := by
    intro u th' hth' hu
    by_cases hlt : u < m.threads.length
    · exact ⟨_, List.getElem?_eq_getElem hlt⟩
    · -- The thread would be the one that was just created, which its creator is dependent with.
      exfalso
      have hlt' := (List.getElem?_eq_some_iff.mp hth').1
      rw [k.length_threads_on] at hlt'
      cases hchild : k.child with
      | none =>
          rw [hchild, Option.toList_none, List.length_nil] at hlt'
          omega
      | some child =>
          rw [hchild, Option.toList_some, List.length_singleton] at hlt'
          have hspawn := hk.child.mp (by simp [hchild])
          have hind := (Candidate.of_indep hi).2.1
          have hu' : m.threads.length = u := by omega
          simp [Candidate.bearsOn, Access.concerns, hspawn, hu, hu'] at hind
  cases hd with
  | @thread u th' op _ hth' hup' hadm =>
      obtain ⟨ha, hp, hdrain⟩ := admits_eq_some.mp hadm
      obtain ⟨th, hth⟩ := hold u th' hth' (by rw [hp]; rfl)
      rw [hp] at hne
      obtain rfl : threadBehind c u th = th' :=
        Option.some.inj ((getElem?_behind hk hth hne).symm.trans hth')
      have hup := (upcoming_behind c u th).symm.trans hup'
      have hann := announce_behind hk hth hup hp hi hn (.inr ha)
      refine .thread hth hup (admits_eq_some.mpr ⟨hann.symm.trans ha, hp, ?_⟩)
      rw [← drains_behind hi hp, hdrain]
  | @flush u th' b hth' hb' =>
      obtain ⟨th, hth⟩ := hold u th' hth' rfl
      obtain ⟨th₁, waiting, hth₁, hbuf, hor⟩ := buffer_behind hk hth hne
      obtain rfl : th₁ = th' := Option.some.inj (hth₁.symm.trans hth')
      obtain rfl : waiting = [] := hor.resolve_right (not_enqueue_of_indep hi rfl)
      rw [List.append_nil] at hbuf
      exact .flush hth (hbuf ▸ hb')

/-! ### Independent changes commute -/

theorem memory_comm {l : Change} (hk : k.Within m c) (hl : l.Within m d)
    (hi : c.dependent d = false) (cells : List Int64) :
    l.memory (k.memory cells) = k.memory (l.memory cells) := by
  unfold Change.memory
  cases hkc : k.cell with
  | none => rfl
  | some x =>
      cases hlc : l.cell with
      | none => rfl
      | some y =>
          obtain ⟨a, ha, hread, hcell⟩ := hk.cell x.1 x.2 hkc
          obtain ⟨b, hb, hread', hcell'⟩ := hl.cell y.1 y.2 hlc
          have hne : x.1 ≠ y.1 := by
            intro he
            obtain rfl := cell?_injective hcell (he ▸ hcell')
            have := (Candidate.of_indep hi).1
            simp [Access.conflicts, ha, hb, hread] at this
          exact List.set_comm _ _ hne

theorem update_flushed {t : Nat} (hk : k.Within m c) (hp : c.proc = .thread t)
    (henq : c.access.isEnqueue = false) (th : Thread) :
    k.update th.flushed = (k.update th).flushed := by
  obtain ⟨waiting, hwaiting, hadds⟩ := hk.buffer t hp
  obtain rfl := hwaiting henq
  have h := hadds th th.buffer.tail
  rw [List.append_nil] at h
  rw [Thread.flushed, Thread.flushed, h, hadds.buffer_eq, List.append_nil]

theorem update_comm {l : Change} (hk : k.Within m c) (hl : l.Within m d)
    (hi : c.dependent d = false) (howner : c.proc.owner = d.proc.owner) (th : Thread) :
    l.update (k.update th) = k.update (l.update th) := by
  have hne := Candidate.proc_ne_of_indep hi
  -- Two processes of one thread are the thread itself and its flush.
  cases hc : c.proc with
  | thread t =>
      cases hd : d.proc with
      | thread u =>
          rw [hc, hd] at howner hne
          exact absurd (congrArg Proc.thread howner) hne
      | flush u =>
          rw [hc, hd] at howner
          obtain rfl : t = u := howner
          have henq : c.access.isEnqueue = false := by
            cases h : c.access.isEnqueue with
            | true => exact absurd ⟨hc, h⟩ (not_enqueue_of_indep hi hd)
            | false => rfl
          rw [hl.flush t hd, update_flushed hk hc henq]
  | flush t =>
      cases hd : d.proc with
      | flush u =>
          rw [hc, hd] at howner hne
          exact absurd (congrArg Proc.flush howner) hne
      | thread u =>
          rw [hc, hd] at howner
          obtain rfl : t = u := howner
          have henq : d.access.isEnqueue = false := by
            cases h : d.access.isEnqueue with
            | true =>
                exact absurd ⟨hd, h⟩ (not_enqueue_of_indep (Candidate.dependent_comm_false hi) hc)
            | false => rfl
          rw [hk.flush t hc, update_flushed hl hd henq]

/-- **Independent changes can be made in either order.** -/
theorem on_comm {l : Change} (hk : k.Within m c) (hl : l.Within m d) (hi : c.dependent d = false)
    (hc : c.proc.owner < m.threads.length) (hd : d.proc.owner < m.threads.length)
    (hchild : k.child = none ∨ l.child = none) :
    l.on d.proc.owner (k.on c.proc.owner m) = k.on c.proc.owner (l.on d.proc.owner m) := by
  have hmodify : (m.threads.modify c.proc.owner k.update).modify d.proc.owner l.update =
      (m.threads.modify d.proc.owner l.update).modify c.proc.owner k.update := by
    by_cases howner : c.proc.owner = d.proc.owner
    · rw [howner, List.modify_modify_eq, List.modify_modify_eq]
      congr 1
      funext th
      exact update_comm hk hl hi howner th
    · exact List.modify_modify_ne _ _ _ howner
  have hthreads : (l.on d.proc.owner (k.on c.proc.owner m)).threads =
      (k.on c.proc.owner (l.on d.proc.owner m)).threads := by
    have hc' : c.proc.owner < (m.threads.modify d.proc.owner l.update).length := by
      rwa [List.length_modify]
    have hd' : d.proc.owner < (m.threads.modify c.proc.owner k.update).length := by
      rwa [List.length_modify]
    simp only [Change.on, modify_append hc', modify_append hd', hmodify, List.append_assoc]
    congr 1
    rcases hchild with h | h <;> simp [h]
  have hmemory : (l.on d.proc.owner (k.on c.proc.owner m)).memory =
      (k.on c.proc.owner (l.on d.proc.owner m)).memory := memory_comm hk hl hi m.memory
  simp only [Change.on] at hthreads hmemory ⊢
  rw [hthreads, hmemory]

/-- The nodes of waiting stores make no difference to what becomes of a thread. -/
theorem bare_update (hk : k.Within m c) (th : Thread) :
    (k.update th.bare).bare = (k.update th).bare := by
  cases hp : c.proc with
  | thread t =>
      obtain ⟨waiting, -, hadds⟩ := hk.buffer t hp
      have h := hadds th (th.buffer.map Pending.bare)
      rw [Thread.bare, Thread.bare, h, Thread.bare, hadds.buffer_eq]
      simp [Function.comp_def]
  | flush t =>
      rw [hk.flush t hp]
      simp [Thread.flushed, Thread.bare, Function.comp_def]

/-- The core of a machine behind a change depends on the core only. -/
theorem core_on (hk : k.Within m c) (t : Nat) (m' : Machine) :
    (k.on t m'.core).core = (k.on t m').core := by
  have hmodify : ((m'.threads.map Thread.bare).modify t k.update).map Thread.bare =
      (m'.threads.modify t k.update).map Thread.bare := by
    refine List.ext_getElem? fun i => ?_
    simp only [List.getElem?_map, List.getElem?_modify]
    cases m'.threads[i]? with
    | none => rfl
    | some th =>
        by_cases hi : t = i
        · simp [hi, bare_update hk]
        · simp [hi]
  refine core_eq_iff.mpr ⟨rfl, ?_⟩
  simp only [Change.on, threads_core, List.map_append, hmodify]

end Machine

end Interleave
