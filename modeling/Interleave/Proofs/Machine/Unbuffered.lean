import Interleave.Proofs.Machine.Values

/-! # The same turn without buffers

A thread that stands at the same place in two machines, one with and one without buffers, takes the same
turn in both, provided that the second machine permits it (`Machine.Permits`): it has the value that the
first one loaded, the mutex is free or held, the thread to join has ended, the thread to create gets
the same number (`Machine.exists_turn_unbuffered`). -/

namespace Interleave

/-- The setup in which stores reach memory at once. -/
abbrev Setup.unbuffered (s : Setup) : Setup := { s with buffered := false }

/-- The operation as it is without buffers: every store reaches memory, and every load reads it. -/
def EventKind.plain : EventKind → EventKind
  | load a v _ => load a v false
  | enqueue a v => store a v
  | k => k

/-- The event as it is without buffers. -/
def Event.plain (e : Event) : Event := { e with kind := e.kind.plain }

/-- The event decides what becomes of thread number `t`: the thread performs it or is created by it. -/
def Event.governs (t : Nat) (e : Event) : Bool := e.proc == .thread t || e.kind == .spawn t

/-- What the operation puts into memory without buffers: the address and the value. -/
def EventKind.put? : EventKind → Option (Addr × Int64)
  | store a v => some (a, v)
  | enqueue a v => some (a, v)
  | lock a => some (a, 1)
  | unlock a => some (a, 0)
  | _ => none

theorem runLocalFrom_unbuffered (s : Setup) (t steps : Nat) (th : Thread) (logged : List LogRecord) :
    runLocalFrom s.unbuffered t steps th logged = runLocalFrom s t steps th logged := by
  fun_induction runLocalFrom s t steps th logged with
  | case1 _ _ _ hfin =>
      unfold runLocalFrom
      simp [hfin]
  | case2 _ _ _ hfin why hf =>
      unfold runLocalFrom
      simp [hfin, show s.unbuffered.function _ = _ from hf]
  | case3 _ _ _ hfin f hf hi =>
      unfold runLocalFrom
      simp [hfin, show s.unbuffered.function _ = _ from hf, hi]
  | case4 _ _ _ hfin f hf i hi hvis =>
      unfold runLocalFrom
      simp [hfin, show s.unbuffered.function _ = _ from hf, hi, hvis]
  | case5 _ _ hfin f hf i hi hvis =>
      unfold runLocalFrom
      simp [hfin, show s.unbuffered.function _ = _ from hf, hi, hvis]
      rfl
  | case6 _ _ hfin f hf i hi hvis _ why hexec =>
      unfold runLocalFrom
      simp [hfin, show s.unbuffered.function _ = _ from hf, hi, hvis,
        show Thread.execLocal s.unbuffered _ _ _ _ = _ from hexec]
  | case7 _ _ hfin f hf i hi hvis _ th' out hexec ih =>
      rw [runLocalFrom]
      simp [hfin, show s.unbuffered.function _ = _ from hf, hi, hvis,
        show Thread.execLocal s.unbuffered _ _ _ _ = _ from hexec, ih]

theorem runLocal_unbuffered (s : Setup) (t : Nat) (th : Thread) :
    runLocal s.unbuffered t th = runLocal s t th := runLocalFrom_unbuffered s t _ th []

namespace Machine

open Memory

variable {s : Setup} {m m' m₁ : Machine} {t : Nat} {th : Thread} {k : Change} {e : Event}

/-- The machine permits that a thread performs the operation with this result. -/
def Permits (m : Machine) : EventKind → Prop
  | .load a v _ => ∀ cell, m.cell? a = some cell → m.read cell = v
  | .spawn n => m.threads.length = n
  | .join c => c < m.threads.length ∧ (m.threads[c]?.map Thread.isDone).getD false = true
  | .lock a => ∀ cell, m.cell? a = some cell → m.read cell = 0
  | .unlock a => ∀ cell, m.cell? a = some cell → m.read cell ≠ 0
  | _ => True

/-- The change `k'` does to a thread without buffer what `k` does to the thread. -/
structure Mirrors (m : Machine) (th : Thread) (k k' : Change) : Prop where
  update : k'.update (th.withBuffer []) = (k.update th).withBuffer []
  child : k'.child = k.child
  event : ∃ e, k.event = some e ∧ k'.event = some e.plain ∧
    k'.cell = e.kind.put?.bind fun x => (m.cell? x.1).map fun cell => (cell, x.2)

theorem cell?_eq (h : m'.memory.length = m.memory.length) (a : Addr) : m'.cell? a = m.cell? a := by
  rw [cell?, cell?, h]

theorem cellAt_eq (h : m'.memory.length = m.memory.length) (site : Site) (what : String) (a : Addr) :
    m'.cellAt site what a = m.cellAt site what a := by
  rw [cellAt, cellAt, cell?_eq h]

theorem joinee?_of_lt {v : Int64} {c : Nat} (h : m.joinee? t v = some c)
    (hc : c < m'.threads.length) : m'.joinee? t v = some c := by
  unfold joinee? at h ⊢
  simp only [Option.ite_none_right_eq_some, Option.some.injEq] at h ⊢
  obtain ⟨⟨hv, -, hne⟩, rfl⟩ := h
  exact ⟨⟨hv, hc, hne⟩, rfl⟩

/-- A permitted operation changes the machine without buffers in the same way. -/
theorem exists_mirrors (hlength : m'.memory.length = m.memory.length) {site : Site} {op : Operation}
    (hk : m.changeOf s t th site op = .ok k) (he : k.event = some e) (hpermits : m'.Permits e.kind) :
    ∃ k', m'.changeOf s.unbuffered t (th.withBuffer []) site op = .ok k' ∧ Mirrors m' th k k' := by
  obtain ⟨x, hx⟩ := succeeds_of_changeOf hk
  cases hx with
  | load hcell hd hv =>
      cases he
      rw [← cell?_eq hlength] at hcell
      exact ⟨_, Succeeds.changeOf_eq (.load hcell hd (hpermits _ hcell)), rfl, rfl, _, rfl, rfl, rfl⟩
  | enqueue hs hcell hv =>
      rw [← cell?_eq hlength] at hcell
      exact ⟨_, Succeeds.changeOf_eq (.store rfl hcell hv), rfl, rfl, _, rfl, rfl,
        by simp [Change.ofThread, EventKind.put?, hcell]⟩
  | store hs hcell hv =>
      rw [← cell?_eq hlength] at hcell
      exact ⟨_, Succeeds.changeOf_eq (.store rfl hcell hv), rfl, rfl, _, rfl, rfl,
        by simp [Change.ofThread, EventKind.put?, hcell]⟩
  | fence => exact ⟨_, rfl, rfl, rfl, _, rfl, rfl, rfl⟩
  | spawn hd hnew =>
      cases he
      have hlen : m'.threads.length = m.threads.length := hpermits
      refine ⟨_, Succeeds.changeOf_eq (.spawn hd hnew), ?_⟩
      rw [hlen]
      exact ⟨rfl, rfl, _, rfl, rfl, rfl⟩
  | join hc =>
      cases he
      exact ⟨_, Succeeds.changeOf_eq (.join (joinee?_of_lt hc hpermits.1)), rfl, rfl, _, rfl, rfl, rfl⟩
  | lock hcell =>
      rw [← cell?_eq hlength] at hcell
      exact ⟨_, Succeeds.changeOf_eq (.lock hcell), rfl, rfl, _, rfl, rfl,
        by simp [Change.ofThread, EventKind.put?, hcell]⟩
  | unlock hcell hlocked =>
      cases he
      rw [← cell?_eq hlength] at hcell
      exact ⟨_, Succeeds.changeOf_eq (.unlock hcell (hpermits _ hcell)), rfl, rfl, _, rfl, rfl,
        by simp [Change.ofThread, EventKind.put?, hcell]⟩

/-- The machine without buffers has nothing to wait for before a permitted operation. -/
theorem exists_announce (hlength : m'.memory.length = m.memory.length) {site : Site} {op : Operation}
    (hk : m.changeOf s t th site op = .ok k) (he : k.event = some e) (hpermits : m'.Permits e.kind) :
    ∃ a, m'.announce s.unbuffered t op = some a := by
  obtain ⟨x, hx⟩ := succeeds_of_changeOf hk
  cases hx with
  | join hc =>
      cases he
      simp only [announce, joinee?_of_lt hc hpermits.1]
      rw [if_pos hpermits.2]
      exact ⟨_, rfl⟩
  | lock hcell =>
      cases he
      rw [← cell?_eq hlength] at hcell
      simp [announce, hcell, hpermits _ hcell]
  | _ => exact ⟨_, rfl⟩

/-! ### Threads without their buffers -/

/-- Thread number `t` without its waiting stores. -/
def alone (m : Machine) (t : Nat) : Option Thread := m.threads[t]?.map (Thread.withBuffer [])

theorem alone_of_core (h : m.core = m'.core) (t : Nat) : m.alone t = m'.alone t := by
  have hthreads := congrArg (fun ths => ths[t]?) (core_eq_iff.mp h).2
  simp only [List.getElem?_map] at hthreads
  have halone := congrArg (Option.map (Thread.withBuffer [])) hthreads
  rw [Option.map_map, Option.map_map] at halone
  exact halone

theorem alone_on (k : Change) {u : Nat} (hth : m.threads[u]? = some th) :
    (k.on t m).alone u = some ((if t = u then k.update th else th).withBuffer []) := by
  rw [alone, k.getElem?_on t hth]
  rfl

theorem alone_on_length (k : Change) :
    (k.on t m).alone m.threads.length = k.child.map (Thread.withBuffer []) := by
  unfold alone Change.on
  rw [List.getElem?_append_right (by simp)]
  cases k.child <;> simp

/-- The runs behind mirroring changes meet the same faults and lead to the same threads. -/
theorem Mirrors.faults {k' : Change} (h : Mirrors m' th k k') (t n : Nat) :
    k'.faults s.unbuffered t n (th.withBuffer []) = k.faults s t n th := by
  unfold Change.faults
  simp only [h.update, h.child, runLocal_unbuffered, runLocal_withBuffer, Thread.upcoming_withBuffer]
  rfl

theorem Mirrors.settled {k' : Change} (h : Mirrors m' th k k') (t n : Nat) :
    Mirrors m' th (k.settled s t n) (k'.settled s.unbuffered t n) where
  update := by
    simp only [Change.settled, h.update, runLocal_unbuffered, runLocal_withBuffer]
  child := by simp only [Change.settled, h.child, runLocal_unbuffered]
  event := h.event

/-- The turn from `m'` to `m₁'` is that from `m` to `m₁`, of which the event `e` tells, without
buffers. -/
structure Repeats (e : Event) (m₁ m' m₁' : Machine) : Prop where
  events : m₁'.events = m'.events ++ [e.plain]
  errors : m₁'.errors = m'.errors
  memory : m₁'.memory = ((e.kind.put?.bind fun x => (m'.cell? x.1).map fun cell =>
    m'.memory.set cell x.2)).getD m'.memory
  governed : ∀ u, e.governs u = true → m₁'.alone u = m₁.alone u

theorem Behind.repeats {k' : Change} {m₁' : Machine} (h : Behind k t m m₁) (h' : Behind k' t m' m₁')
    (hmirrors : Mirrors m' th k k') (he : k.event = some e) (hth : m.threads[t]? = some th)
    (hth' : m'.threads[t]? = some (th.withBuffer [])) (hproc : e.proc = .thread t)
    (hspawn : ∀ n, e.kind = .spawn n → n = m.threads.length ∧ n = m'.threads.length) :
    Repeats e m₁ m' m₁' := by
  obtain ⟨f, hf, hevent, hcell⟩ := hmirrors.event
  obtain rfl : e = f := Option.some.inj (he.symm.trans hf)
  refine ⟨?_, h'.errors, ?_, fun u hu => ?_⟩
  · rw [h'.events, hevent]
    rfl
  · rw [(core_eq_iff.mp h'.core).1]
    show k'.memory m'.memory = _
    rw [Change.memory, hcell]
    cases e.kind.put? with
    | none => rfl
    | some x =>
        cases hx : m'.cell? x.1 with
        | none => simp [hx]
        | some cell => simp [hx]
  · rw [alone_of_core h.core, alone_of_core h'.core]
    rw [Event.governs, Bool.or_eq_true, beq_iff_eq, beq_iff_eq, hproc, Proc.thread.injEq] at hu
    rcases hu with rfl | hu
    · rw [alone_on k hth, alone_on k' hth', if_pos rfl, if_pos rfl, hmirrors.update]
    · obtain ⟨hn, hn'⟩ := hspawn u hu
      rw [hn', alone_on_length, ← hn', hn, alone_on_length, hmirrors.child]

/-- Where it is permitted to create a thread, the thread gets the same number. -/
theorem length_eq_of_spawn {n : Nat} (hc : m.Offered s e.candidate) (hpermits : m'.Permits e.kind)
    (hn : e.kind = .spawn n) : n = m.threads.length ∧ n = m'.threads.length := by
  rw [hn] at hpermits
  refine ⟨(hc.of_spawn ?_).1, hpermits.symm⟩
  rw [Event.candidate, hn]
  rfl

/-- What a turn of a thread that ends well consists of: the thread stands at an operation, and behind
the change that this makes, runs without fault to the next one. -/
theorem exists_changeOf (hm : m.Calm s) (hc : m.Offered s e.candidate) (hp : e.proc = .thread t)
    (hturn : m.turn s e.proc = .ok m₁) (hevents : m₁.events = m.events ++ [e]) :
    ∃ th op f k, m.threads[t]? = some th ∧ th.upcoming s = .ok (some op) ∧
      s.function th.function = .ok f ∧ m.admits s t th op = some e.candidate ∧
      m.changeOf s t th (th.site t f) op = .ok k ∧ k.event = some e ∧
      k.faults s t m.threads.length th = [] ∧ Behind (k.settled s t m.threads.length) t m m₁ := by
  obtain ⟨k, hk, hbehind⟩ := (moves_turn s).behind_of_ok hm hturn
  rw [hp] at hk hbehind
  obtain ⟨k, th, hchange, hth, hfaults, rfl⟩ := turnChange_eq_ok hk
  have he : k.event = some e := by
    have h := hbehind.events
    rw [hevents] at h
    cases hev : k.event with
    | none => simp [Change.settled, hev] at h
    | some f => simpa [Change.settled, hev, eq_comm] using h
  obtain ⟨op, hup, hadm⟩ : ∃ op, th.upcoming s = .ok (some op) ∧
      m.admits s t th op = some e.candidate := by
    generalize hcand : e.candidate = c at hc
    have hp : c.proc = .thread t := hcand ▸ hp
    cases hc with
    | flush => cases hp
    | thread hth₁ hup hadm =>
        have := (admits_eq_some.mp hadm).2.1
        rw [hp, Proc.thread.injEq] at this
        subst this
        rw [hth, Option.some.injEq] at hth₁
        subst hth₁
        exact ⟨_, hup, hadm⟩
  obtain ⟨f, hf, hof⟩ := change_of_upcoming hth hup
  exact ⟨th, op, f, k, hth, hup, hf, hadm, hof.symm.trans hchange, he, hfaults, hbehind⟩

/-- **A permitted turn without buffers.** -/
theorem exists_turn_unbuffered (hm : m.Calm s) (hc : m.Offered s e.candidate)
    (hp : e.proc = .thread t) (hturn : m.turn s e.proc = .ok m₁)
    (hevents : m₁.events = m.events ++ [e]) (hth : m.threads[t]? = some th)
    (hm' : m'.Calm s.unbuffered) (hth' : m'.threads[t]? = some (th.withBuffer []))
    (hlength : m'.memory.length = m.memory.length) (hpermits : m'.Permits e.kind) :
    ∃ m₁', m'.Offered s.unbuffered e.plain.candidate ∧ m'.turn s.unbuffered e.proc = .ok m₁' ∧
      Repeats e m₁ m' m₁' := by
  obtain ⟨th₀, op, f, k, hth₀, hup, hf, -, hk, he, hfaults, hbehind⟩ :=
    exists_changeOf hm hc hp hturn hevents
  obtain rfl : th = th₀ := Option.some.inj (hth.symm.trans hth₀)
  obtain ⟨k', hk', hmirrors⟩ := exists_mirrors hlength hk he hpermits
  obtain ⟨a, ha⟩ := exists_announce hlength hk he hpermits
  have hspawn := fun n hn => length_eq_of_spawn (n := n) hc hpermits hn
  -- the runs behind the operation
  obtain ⟨hfaults', hsettled⟩ : k.faults s t m'.threads.length th = [] ∧
      k.settled s t m.threads.length = k.settled s t m'.threads.length := by
    by_cases hn : ∃ n, e.kind = .spawn n
    · obtain ⟨n, hn⟩ := hn
      obtain ⟨hn, hn'⟩ := hspawn n hn
      rw [← hn', hn]
      exact ⟨hfaults, rfl⟩
    · have hwithin : k.Within m e.candidate := by
        refine hc.within ?_
        obtain ⟨f', hf', hchange⟩ := change_of_upcoming hth hup
        obtain rfl : f = f' := Except.ok.inj (hf.symm.trans hf')
        rw [show e.candidate.proc = .thread t from hp, hchange, hk]
      have hnone := hwithin.child_eq_none fun n hn' => hn ⟨n, by
        cases hkind : e.kind <;> simp_all [Event.candidate, EventKind.access]⟩
      have h := faults_of_child_eq_none hnone s t m.threads.length m'.threads.length th
      exact ⟨h.1 ▸ hfaults, h.2⟩
  have hturnChange : m'.turnChange s.unbuffered (.thread t) =
      .ok (k'.settled s.unbuffered t m'.threads.length) := by
    obtain ⟨f', hf', hchange⟩ := change_of_upcoming (s := s.unbuffered) hth' hup
    obtain rfl : f = f' := Except.ok.inj (hf.symm.trans hf')
    have hnil : k'.faults s.unbuffered t m'.threads.length (th.withBuffer []) = [] := by
      rw [hmirrors.faults, hfaults']
    simp only [turnChange, hchange.trans hk', ok_bind, thread_of_getElem? hth', hnil, List.head?_nil,
      pure_eq_ok]
  have hturn' := turn_eq hm' (.thread t)
  rw [hturnChange] at hturn'
  obtain ⟨m₁', hm₁', hbehind', -⟩ := hturn'
  rw [hsettled] at hbehind
  have hrepeats := hbehind.repeats hbehind' (hmirrors.settled (s := s) t m'.threads.length) he hth hth'
    hp hspawn
  have hc' : m'.Offered s.unbuffered ⟨.thread t, a⟩ :=
    .thread hth' hup (admits_eq_some.mpr ⟨ha, rfl, by simp⟩)
  -- what is offered is what the event tells of
  obtain ⟨f', hf', hevents', -⟩ := events_turn hm' hc' hm₁'
  have hplain : e.plain = f' := by
    have := hrepeats.events.symm.trans hevents'
    simpa using this
  refine ⟨m₁', ?_, hp ▸ hm₁', hrepeats⟩
  rw [hplain, hf']
  exact hc'

/-- An access is permitted where its cell holds the value of its source. -/
theorem Valued.permits {m₀ : Machine} (h : Valued m₀ m) (htold : m.Told) (hm : m.Calm s)
    (hc : m.Offered s e.candidate) (hp : e.proc = .thread t) (hturn : m.turn s e.proc = .ok m₁)
    (hevents : m₁.events = m.events ++ [e]) {n : Node} {source : Option Nat}
    (hn : (Ledger.ofEvents m.events).node? e = some n) (hs : n.action.source? = some source)
    (hlength : m'.memory.length = m.memory.length)
    (hread : ∀ cell < m.memory.length, n.addr.toNat = cell + 1 →
      m'.read cell = supplied (Event.values m.events) (m₀.read cell) source) : m'.Permits e.kind := by
  obtain ⟨th, op, f, k, hth, -, -, hadm, hk, he, -, -⟩ := exists_changeOf hm hc hp hturn hevents
  -- what memory holds is the value of the last store that reached it
  have hlast : ∀ a cell, m.cell? a = some cell → m.read cell =
      supplied (Event.values m.events) (m₀.read cell) ((Ledger.ofEvents m.events).graph.lastStore a) := by
    intro a cell hcell
    simp only [cell?, Option.ite_none_right_eq_some, Option.some.injEq] at hcell
    have ha : a.toNat = cell + 1 := by omega
    rw [h.memory cell (by omega), Graph.arrivals_eq_coherence _ ha, htold.graph]
    rfl
  have hsupplied : ∀ cell, m.cell? n.addr = some cell →
      m'.read cell = supplied (Event.values m.events) (m₀.read cell) source := by
    intro cell hcell
    simp only [cell?, Option.ite_none_right_eq_some, Option.some.injEq] at hcell
    exact hread cell (by omega) (by omega)
  have hcells : ∀ a, m'.cell? a = m.cell? a := cell?_eq hlength
  obtain ⟨x, hx⟩ := succeeds_of_changeOf hk
  cases hx with
  | @load d a cell v hcell hd hv =>
      cases he
      cases hn
      cases hs
      intro cell' hcell'
      obtain rfl : cell = cell' := Option.some.inj (hcell.symm.trans (hcells a ▸ hcell'))
      rw [hsupplied cell hcell, htold.newest hth, ← hv]
      cases hb : th.forwarded a with
      | none => exact (hlast a cell hcell).symm
      | some b =>
          have hbuffer := h.buffer t b (by
            rw [Thread.bufferAt_of_getElem? hth]
            exact List.mem_reverse.mp (List.mem_of_find?_eq_some hb))
          simp [supplied, hbuffer]
  | @lock a cell hcell =>
      cases he
      cases hn
      cases hs
      intro cell' hcell'
      obtain rfl : cell = cell' := Option.some.inj (hcell.symm.trans (hcells a ▸ hcell'))
      rw [hsupplied cell hcell, ← hlast a cell hcell]
      have hann := (admits_eq_some.mp hadm).1
      simp only [announce, hcell] at hann
      split at hann
      · assumption
      · cases hann
  | @unlock a cell hcell hlocked =>
      cases he
      cases hn
      cases hs
      intro cell' hcell'
      obtain rfl : cell = cell' := Option.some.inj (hcell.symm.trans (hcells a ▸ hcell'))
      rw [hsupplied cell hcell, ← hlast a cell hcell]
      exact hlocked
  | enqueue | store =>
      cases he
      exact trivial
  | fence | spawn | join =>
      cases he
      cases hn

end Machine

end Interleave
