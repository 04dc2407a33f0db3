import Interleave.Proofs.Machine.Rest

/-! # Independent candidates commute

Two candidates that are offered together and are not dependent can take their steps in either order:
neither keeps the other from being offered or changes what the other does, and both orders lead to
the same state (`Machine.commutes_of_indep`).  This holds of the bare steps, and it holds of the turns
that lead from one scheduling point to the next.  What the two have in common is said by `Machine.Moves`:
a move makes a change that can be computed beforehand, and independent moves leave that change as it
is. -/

namespace Interleave.Machine

variable {s : Setup} {m m' : Machine} {c d : Candidate}

theorem offered_congr (h : m.core = m'.core) : m.Offered s c ↔ m'.Offered s c := by
  rw [← mem_offered, ← mem_offered, ← offered_core, h, offered_core]

theorem Offered.owner_lt (h : m.Offered s c) : c.proc.owner < m.threads.length := by
  cases h with
  | thread hth _ hadm =>
      rw [(admits_eq_some.mp hadm).2.1]
      exact (List.getElem?_eq_some_iff.mp hth).1
  | flush hth _ => exact (List.getElem?_eq_some_iff.mp hth).1

/-- A thread that is offered the creation of a thread stands at it, and the thread is the next
one. -/
theorem Offered.of_spawn {n : Nat} (h : m.Offered s c) (hn : c.access = .spawn n) :
    n = m.threads.length ∧ ∃ u, c.proc = .thread u ∧ m.CountsThreads s u := by
  cases h with
  | @thread u th op _ hth hup hadm =>
      obtain ⟨ha, hp, -⟩ := admits_eq_some.mp hadm
      rw [hn] at ha
      have hspec := announce_eq_some ha
      cases op with
      | spawn d f =>
          simp only [Access.spawn.injEq] at hspec
          exact ⟨hspec, u, hp, th, _, hth, hup, .inl ⟨d, f, rfl⟩⟩
      | join v => simp at hspec
      | store a v =>
          simp only at hspec
          split at hspec <;> cases hspec
      | _ => simp at hspec
  | flush => cases hn

/-! ### Moves -/

/-- The moves `mv` of machines of a kind make the changes `chg`, and independent moves leave these
changes as they are. -/
structure Moves (s : Setup) (kind : Machine → Prop) (chg : Machine → Proc → Except Stop Change)
    (mv : Machine → Proc → Except Stop Machine) : Prop where
  makes : ∀ m p, kind m → Makes p.owner m (chg m p) (mv m p)
  keeps : ∀ m m' p, kind m → mv m p = .ok m' → kind m'
  within : ∀ m c k, m.Offered s c → chg m c.proc = .ok k → k.Within m c
  core : ∀ m c, m.Offered s c → chg m.core c.proc = chg m c.proc
  behind : ∀ m c d k, kind m → m.Offered s c → m.Offered s d → c.dependent d = false →
    ¬ m.Renumbers s c d → chg m c.proc = .ok k →
    chg (k.on c.proc.owner m) d.proc = chg m d.proc

namespace Moves

variable {kind : Machine → Prop} {chg : Machine → Proc → Except Stop Change}
  {mv : Machine → Proc → Except Stop Machine}

theorem behind_of_ok (h : Moves s kind chg mv) (hm : kind m) {p : Proc} (hmv : mv m p = .ok m') :
    ∃ k, chg m p = .ok k ∧ Behind k p.owner m m' := by
  have hmakes := h.makes m p hm
  cases hk : chg m p with
  | error why =>
      rw [hk, show mv m p = .ok m' from hmv] at hmakes
      cases hmakes
  | ok k =>
      rw [hk] at hmakes
      obtain ⟨m₁, hm₁, hbehind⟩ := hmakes
      obtain rfl : m₁ = m' := Except.ok.inj (hm₁.symm.trans hmv)
      exact ⟨k, rfl, hbehind⟩

theorem events (h : Moves s kind chg mv) (hm : kind m) (hc : m.Offered s c)
    (hmv : mv m c.proc = .ok m') :
    ∃ e, e.candidate = c ∧ m'.events = m.events ++ [e] ∧ m'.errors = m.errors := by
  obtain ⟨k, hk, hbehind⟩ := h.behind_of_ok hm hmv
  obtain ⟨e, he, hec⟩ := Option.map_eq_some_iff.mp (h.within m c k hc hk).event
  refine ⟨e, hec, ?_, hbehind.errors⟩
  rw [hbehind.events, he]
  rfl

theorem error_iff (h : Moves s kind chg mv) (hm : kind m) {p : Proc} {why : Stop} :
    mv m p = .error why ↔ chg m p = .error why := by
  have hmakes := h.makes m p hm
  cases hk : chg m p with
  | error why' =>
      rw [hk] at hmakes
      rw [show mv m p = .error why' from hmakes]
      simp
  | ok k =>
      rw [hk] at hmakes
      obtain ⟨m₁, hm₁, -⟩ := hmakes
      simp [hm₁]

variable {m₁ m₂ : Machine} (h : Moves s kind chg mv) (hm : kind m) (hc : m.Offered s c)
  (hi : c.dependent d = false)

include h hm hc hi

/-- Behind an independent move a candidate is still offered, and its move makes the same change. -/
theorem offered_behind (hd : m.Offered s d) (hn : ¬ m.Renumbers s c d)
    (h₁ : mv m c.proc = .ok m₁) : m₁.Offered s d ∧ chg m₁ d.proc = chg m d.proc := by
  obtain ⟨k, hk, hbehind⟩ := h.behind_of_ok hm h₁
  have hoff := (hc.behind (h.within m c k hc hk) hd hi hn).1
  have hoff₁ : m₁.Offered s d := (offered_congr hbehind.core).mpr hoff
  refine ⟨hoff₁, ?_⟩
  rw [← h.core m₁ d hoff₁, hbehind.core, h.core _ d hoff, h.behind m c d k hm hc hd hi hn hk]

theorem offered_before (hn : ¬ m.Renumbers s c d) (h₁ : mv m c.proc = .ok m₁)
    (hd : m₁.Offered s d) : m.Offered s d := by
  obtain ⟨k, hk, hbehind⟩ := h.behind_of_ok hm h₁
  exact Offered.before (h.within m c k hc hk) ((offered_congr hbehind.core).mp hd) hi hn

/-- Independent moves lead to the same state in either order, and to the same events up to order. -/
theorem diamond (hd : m.Offered s d) (hcd : ¬ m.Renumbers s c d) (hdc : ¬ m.Renumbers s d c)
    (h₁ : mv m c.proc = .ok m₁) (h₂ : mv m d.proc = .ok m₂) :
    ∃ (m₁₂ m₂₁ : Machine) (e f : Event),
      mv m₁ d.proc = .ok m₁₂ ∧ mv m₂ c.proc = .ok m₂₁ ∧ m₁₂.core = m₂₁.core ∧
      e.candidate = c ∧ f.candidate = d ∧
      m₁₂.events = m.events ++ [e, f] ∧ m₂₁.events = m.events ++ [f, e] := by
  obtain ⟨k, hk, hbehind₁⟩ := h.behind_of_ok hm h₁
  obtain ⟨l, hl, hbehind₂⟩ := h.behind_of_ok hm h₂
  have hi' := Candidate.dependent_comm_false hi
  obtain ⟨-, hl₁⟩ := h.offered_behind hm hc hi hd hcd h₁
  obtain ⟨-, hk₂⟩ := h.offered_behind hm hd hi' hc hdc h₂
  have hmakes₁ := h.makes m₁ d.proc (h.keeps m m₁ _ hm h₁)
  have hmakes₂ := h.makes m₂ c.proc (h.keeps m m₂ _ hm h₂)
  rw [hl₁, hl] at hmakes₁
  rw [hk₂, hk] at hmakes₂
  obtain ⟨m₁₂, hm₁₂, hbehind₁₂⟩ := hmakes₁
  obtain ⟨m₂₁, hm₂₁, hbehind₂₁⟩ := hmakes₂
  have hkw := h.within m c k hc hk
  have hlw := h.within m d l hd hl
  have hchild : k.child = none ∨ l.child = none := by
    by_contra hboth
    rw [not_or] at hboth
    have hspawn := hkw.child.mp (Option.isSome_iff_ne_none.mpr hboth.1)
    have hspawn' := hlw.child.mp (Option.isSome_iff_ne_none.mpr hboth.2)
    exact hcd ⟨⟨_, hspawn⟩, (hd.of_spawn hspawn').2⟩
  obtain ⟨e, he, hec⟩ := Option.map_eq_some_iff.mp hkw.event
  obtain ⟨f, hf, hfd⟩ := Option.map_eq_some_iff.mp hlw.event
  refine ⟨m₁₂, m₂₁, e, f, hm₁₂, hm₂₁, ?_, hec, hfd, ?_, ?_⟩
  · calc m₁₂.core = (l.on d.proc.owner m₁).core := hbehind₁₂.core
      _ = (l.on d.proc.owner (k.on c.proc.owner m)).core := by
          rw [← core_on hlw, hbehind₁.core, core_on hlw]
      _ = (k.on c.proc.owner (l.on d.proc.owner m)).core := by
          rw [on_comm hkw hlw hi hc.owner_lt hd.owner_lt hchild]
      _ = (k.on c.proc.owner m₂).core := by rw [← core_on hkw, ← hbehind₂.core, core_on hkw]
      _ = m₂₁.core := hbehind₂₁.core.symm
  · simp [hbehind₁₂.events, hbehind₁.events, he, hf]
  · simp [hbehind₂₁.events, hbehind₂.events, he, hf]

end Moves

/-! ### Steps and turns -/

theorem moves_step (s : Setup) : Moves s (fun _ => True) (change s) (step s) where
  makes m p _ := step_eq s m p
  keeps _ _ _ _ _ := trivial
  within _ _ _ hc hk := hc.within hk
  core m c _ := change_core s m c.proc
  behind _ _ _ _ _ hc hd hi hn hk := (hc.behind (hc.within hk) hd hi hn).2

theorem adds_settled {k : Change} {waiting : List Pending} (h : Thread.Adds waiting k.update)
    (s : Setup) (t n : Nat) : Thread.Adds waiting (k.settled s t n).update := by
  intro th buffer
  simp only [Change.settled]
  rw [h th buffer, runLocal_withBuffer]

/-- The runs behind the step of a thread do not look at its buffer. -/
theorem faults_withBuffer {k : Change} {waiting : List Pending}
    (h : Thread.Adds waiting k.update) (s : Setup) (t n : Nat) (th : Thread)
    (buffer : List Pending) : k.faults s t n (th.withBuffer buffer) = k.faults s t n th := by
  simp only [Change.faults, h th buffer, runLocal_withBuffer, Thread.upcoming_withBuffer]

/-- A thread that creates none does not look at the number of threads. -/
theorem faults_of_child_eq_none {k : Change} (h : k.child = none) (s : Setup) (t n n' : Nat)
    (th : Thread) : k.faults s t n th = k.faults s t n' th ∧ k.settled s t n = k.settled s t n' := by
  simp [Change.faults, Change.settled, h]

theorem within_settled {k : Change} {t n : Nat} (hk : k.Within m c) (hp : c.proc = .thread t) :
    (k.settled s t n).Within m c where
  cell := hk.cell
  child := by rw [← hk.child, Change.settled, Option.isSome_map]
  fresh new hnew := by
    obtain ⟨th, hth, rfl⟩ := Option.map_eq_some_iff.mp hnew
    rw [buffer_runLocal, hk.fresh th hth]
  buffer u hu := by
    obtain ⟨waiting, hwaiting, hadds⟩ := hk.buffer u hu
    exact ⟨waiting, hwaiting, adds_settled hadds s t n⟩
  flush u hu := by
    rw [hp] at hu
    cases hu
  event := hk.event

theorem turnChange_eq_ok {t : Nat} {k : Change} (h : m.turnChange s (.thread t) = .ok k) :
    ∃ k₀ th, m.change s (.thread t) = .ok k₀ ∧ m.threads[t]? = some th ∧
      k₀.faults s t m.threads.length th = [] ∧ k = k₀.settled s t m.threads.length := by
  cases hk : m.change s (.thread t) with
  | error why => simp [turnChange, hk] at h
  | ok k₀ =>
      obtain ⟨th, hth⟩ := thread_of_change hk
      replace hth : m.threads[t]? = some th := hth
      simp only [turnChange, hk, ok_bind, thread_of_getElem? hth] at h
      refine ⟨k₀, th, rfl, hth, ?_⟩
      cases hf : (k₀.faults s t m.threads.length th).head? with
      | some why => simp [hf] at h
      | none =>
          rw [hf] at h
          exact ⟨List.head?_eq_none_iff.mp hf, (Except.ok.inj h).symm⟩

theorem Offered.turn_within {k : Change} (hc : m.Offered s c)
    (hk : m.turnChange s c.proc = .ok k) : k.Within m c := by
  cases hp : c.proc with
  | thread t =>
      rw [hp] at hk
      obtain ⟨k₀, th, hk₀, -, -, rfl⟩ := turnChange_eq_ok hk
      exact within_settled (hc.within (by rw [hp]; exact hk₀)) hp
  | flush t =>
      rw [hp] at hk
      exact hc.within (by rw [hp]; exact hk)

/-- Two machines in which the step of a thread makes the same change agree on the change by its turn,
if the thread differs in its buffer only. -/
theorem turnChange_congr {u : Nat} {th : Thread} {buffer : List Pending}
    (hchange : m'.change s (.thread u) = m.change s (.thread u))
    (hth : m.threads[u]? = some th) (hth' : m'.threads[u]? = some (th.withBuffer buffer))
    (hadds : ∀ l, m.change s (.thread u) = .ok l → (∃ waiting, Thread.Adds waiting l.update) ∧
      (l.child = none ∨ m'.threads.length = m.threads.length)) :
    m'.turnChange s (.thread u) = m.turnChange s (.thread u) := by
  simp only [turnChange, hchange, thread_of_getElem? hth, thread_of_getElem? hth']
  cases hl : m.change s (.thread u) with
  | error why => rfl
  | ok l =>
      obtain ⟨⟨waiting, hadds⟩, hcount⟩ := hadds l hl
      simp only [ok_bind, faults_withBuffer hadds]
      rcases hcount with hchild | hlength
      · obtain ⟨hfaults, hsettled⟩ :=
          faults_of_child_eq_none hchild s u m'.threads.length m.threads.length th
        rw [hfaults, hsettled]
      · rw [hlength]

theorem Offered.adds {u : Nat} {l : Change} (hd : m.Offered s d) (hp : d.proc = .thread u)
    (hl : m.change s (.thread u) = .ok l) : ∃ waiting, Thread.Adds waiting l.update := by
  obtain ⟨waiting, -, hadds⟩ := (hd.within (by rw [hp]; exact hl)).buffer u hp
  exact ⟨waiting, hadds⟩

theorem turnChange_core (hd : m.Offered s d) : m.core.turnChange s d.proc = m.turnChange s d.proc := by
  cases hp : d.proc with
  | flush u => exact change_core s m (.flush u)
  | thread u =>
      have hlt := hd.owner_lt
      rw [hp] at hlt
      have hth : m.threads[u]? = some m.threads[u] := List.getElem?_eq_getElem hlt
      have hth' : m.core.threads[u]? =
          some (m.threads[u].withBuffer (m.threads[u].buffer.map Pending.bare)) := by
        rw [threads_core, List.getElem?_map, hth]
        rfl
      exact turnChange_congr (change_core s m _) hth hth' fun l hl =>
        ⟨hd.adds hp hl, .inr (by simp)⟩

theorem turnChange_behind {k : Change} (hc : m.Offered s c) (hd : m.Offered s d)
    (hi : c.dependent d = false) (hn : ¬ m.Renumbers s c d) (hk : k.Within m c) :
    (k.on c.proc.owner m).turnChange s d.proc = m.turnChange s d.proc := by
  obtain ⟨-, hchange⟩ := hc.behind hk hd hi hn
  have hne := Candidate.proc_ne_of_indep hi
  cases hp : d.proc with
  | flush u =>
      rw [hp] at hchange
      exact hchange
  | thread u =>
      rw [hp] at hchange hne
      have hlt := hd.owner_lt
      rw [hp] at hlt
      have hth : m.threads[u]? = some m.threads[u] := List.getElem?_eq_getElem hlt
      have hth' := getElem?_behind hk hth hne
      obtain ⟨buffer, hbuffer⟩ : ∃ buffer, threadBehind c u m.threads[u] =
          m.threads[u].withBuffer buffer := by
        unfold threadBehind
        split
        · exact ⟨_, rfl⟩
        · exact ⟨_, rfl⟩
      rw [hbuffer] at hth'
      refine turnChange_congr hchange hth hth' fun l hl => ⟨hd.adds hp hl, ?_⟩
      by_cases hspawn : ∃ n, c.access = .spawn n
      · left
        by_contra hchild
        have hlw := hd.within (by rw [hp]; exact hl)
        have hspawn' := hlw.child.mp (Option.isSome_iff_ne_none.mpr hchild)
        exact hn ⟨hspawn, (hd.of_spawn hspawn').2⟩
      · right
        exact length_behind hk (fun n hs => hspawn ⟨n, hs⟩) _

theorem moves_turn (s : Setup) : Moves s (Calm s) (turnChange s) (turn s) where
  makes m p hm := by
    have h := turn_eq hm p
    unfold Makes
    cases hl : m.turnChange s p with
    | error why =>
        rw [hl] at h
        exact h
    | ok l =>
        rw [hl] at h
        obtain ⟨m', hm', hbehind, -⟩ := h
        exact ⟨m', hm', hbehind⟩
  keeps m m' p hm hm' := by
    have h := turn_eq hm p
    cases hl : m.turnChange s p with
    | error why =>
        rw [hl] at h
        rw [show m.turn s p = .error why from h] at hm'
        cases hm'
    | ok l =>
        rw [hl] at h
        obtain ⟨m₁, hm₁, -, hcalm⟩ := h
        obtain rfl : m₁ = m' := Except.ok.inj (hm₁.symm.trans hm')
        exact hcalm
  within _ _ _ hc hk := hc.turn_within hk
  core m c hc := turnChange_core hc
  behind _ _ _ _ _ hc hd hi hn hk := turnChange_behind hc hd hi hn (hc.turn_within hk)

/-! ### The diamond -/

/-- If `c` makes its move then `d` is still offered, fails just as it would have failed before, and
otherwise leads to the state to which the two lead in the other order. -/
def Commutes (s : Setup) (mv : Machine → Proc → Except Stop Machine) (m : Machine)
    (c d : Candidate) : Prop :=
  ∀ m₁, mv m c.proc = .ok m₁ →
    m₁.Offered s d ∧
    (∀ why, mv m₁ d.proc = .error why ↔ mv m d.proc = .error why) ∧
    ∀ m₂, mv m d.proc = .ok m₂ →
      ∃ m₁₂ m₂₁, mv m₁ d.proc = .ok m₁₂ ∧ mv m₂ c.proc = .ok m₂₁ ∧ m₁₂.core = m₂₁.core

theorem Moves.commutes {kind : Machine → Prop} {chg : Machine → Proc → Except Stop Change}
    {mv : Machine → Proc → Except Stop Machine} (h : Moves s kind chg mv) (hm : kind m)
    (hc : m.Offered s c) (hd : m.Offered s d) (hi : c.dependent d = false)
    (hcd : ¬ m.Renumbers s c d) (hdc : ¬ m.Renumbers s d c) : m.Commutes s mv c d := by
  intro m₁ h₁
  obtain ⟨hoff, hchange⟩ := h.offered_behind hm hc hi hd hcd h₁
  refine ⟨hoff, fun why => ?_, fun m₂ h₂ => ?_⟩
  · rw [h.error_iff (h.keeps m m₁ _ hm h₁), h.error_iff hm, hchange]
  · obtain ⟨m₁₂, m₂₁, _, _, h₁₂, h₂₁, hcore, -⟩ := h.diamond hm hc hi hd hcd hdc h₁ h₂
    exact ⟨m₁₂, m₂₁, h₁₂, h₂₁, hcore⟩

theorem calm_of_settle {cs : List Candidate} (hsettle : m'.settle s = (m, none))
    (hcs : m.candidates s = .ok cs) : m.Calm s := by
  refine calm_of_rest (m := m') ?_
  simp only [rest, hsettle, hcs, ok_bind, pure_eq_ok]

/-- **Independent candidates commute.**  At a scheduling point, two candidates that are offered and
not dependent can make their steps, or their turns, in either order.  Excepted are pairs in which one
creates a thread while the other creates one too or joins one that does not exist. -/
theorem commutes_of_indep {cs : List Candidate} (hsettle : m'.settle s = (m, none))
    (hcs : m.candidates s = .ok cs) (hc : c ∈ cs) (hd : d ∈ cs) (hi : c.dependent d = false)
    (hcd : ¬ m.Renumbers s c d) (hdc : ¬ m.Renumbers s d c) :
    m.Commutes s (step s) c d ∧ m.Commutes s (turn s) c d := by
  rw [mem_candidates hcs] at hc hd
  exact ⟨(moves_step s).commutes trivial hc hd hi hcd hdc,
    (moves_turn s).commutes (calm_of_settle hsettle hcs) hc hd hi hcd hdc⟩

/-- A thread that stores to one cell and loads from another. -/
def storeThenLoad : Setup :=
  ⟨⟨"e", [⟨"x", 0⟩, ⟨"y", 0⟩],
    [⟨"main", ["r"], [.store (.global 0) (.imm 1), .load 0 (.global 1), .ret]⟩]⟩, .standard, true, 10⟩

/-- The machine in which the store waits. -/
def storeWaiting : Machine :=
  ⟨[0, 0], [⟨0, 1, [0], false, [⟨1, 1, 0, ⟨0, "main", 0⟩⟩]⟩],
    [⟨.thread 0, ⟨0, "main", 0⟩, .enqueue 1 1⟩], [], Memory.Graph.empty.write 0 1, []⟩

theorem commutes_of_indep_storeWaiting :
    (start storeThenLoad 0 >>= fun m => m.turn storeThenLoad (.thread 0)) = .ok storeWaiting ∧
      storeWaiting.settle storeThenLoad = (storeWaiting, none) ∧
      storeWaiting.candidates storeThenLoad =
        .ok [⟨.thread 0, .read 2⟩, ⟨.flush 0, .write 1⟩] ∧
      storeWaiting.Commutes storeThenLoad (step storeThenLoad) ⟨.thread 0, .read 2⟩
        ⟨.flush 0, .write 1⟩ ∧
      storeWaiting.Commutes storeThenLoad (turn storeThenLoad) ⟨.thread 0, .read 2⟩
        ⟨.flush 0, .write 1⟩ := by
  have hsettle : storeWaiting.settle storeThenLoad = (storeWaiting, none) := by decide
  have hcs : storeWaiting.candidates storeThenLoad =
      .ok [⟨.thread 0, .read 2⟩, ⟨.flush 0, .write 1⟩] := by decide
  refine ⟨by decide, hsettle, hcs, commutes_of_indep hsettle hcs (by simp) (by simp) (by decide) ?_ ?_⟩
  · rintro ⟨⟨n, hn⟩, -⟩
    cases hn
  · rintro ⟨⟨n, hn⟩, -⟩
    cases hn

end Interleave.Machine
