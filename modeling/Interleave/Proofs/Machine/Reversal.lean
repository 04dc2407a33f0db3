import Interleave.Proofs.Machine.System

/-! # Dependent candidates that do not race

The reduction tries two dependent candidates in both orders only if they race.  Candidates that are
offered together can be dependent without racing in two ways (`Machine.Offered.of_not_races`):

* a thread puts a store into its buffer while the flush of an older one is offered, or
* one of them unlocks a mutex that the other one locks or unlocks.

In the first case the order makes no difference: the store goes to the end of the buffer that the
flush takes the head of.  In the second case it always does, because the cell of the mutex can only
be right for one of the two.  So leaving out the other order is harmless exactly if the accesses do
not exclude each other (`Machine.outcome_comm_iff`). -/

namespace Interleave

theorem Access.drains_of_isEnqueue {a : Access} (h : a.isEnqueue = true) : a.drains = false := by
  cases a <;> simp_all [isEnqueue, drains]

theorem Access.ne_spawn_of_isEnqueue {a : Access} (h : a.isEnqueue = true) (n : Nat) :
    a ≠ .spawn n := by
  rintro rfl
  cases h

theorem Access.excludes_of_isEnqueue {a b : Access} (h : a.isEnqueue = true) :
    a.excludes b = false ∧ b.excludes a = false := by
  cases a <;> cases b <;> simp_all [isEnqueue, excludes]

namespace Machine

variable {s : Setup} {m m' : Machine} {c d : Candidate} {t : Nat} {th : Thread} {k l : Change}

/-- What comes of the moves of two candidates, one after the other: the error that ends them, or the
core of the machine that they lead to. -/
def outcome (mv : Machine → Proc → Except Stop Machine) (m : Machine) (c d : Candidate) :
    Except Stop Machine :=
  (mv m c.proc >>= fun m => mv m d.proc).map core

/-! ### Kinds of pairs -/

/-- Candidates of different processes that are dependent without racing exclude each other, or one
of them puts a store into the buffer that the other one flushes. -/
theorem Offered.of_not_races (hempty : s.buffered = false → ∀ th ∈ m.threads, th.buffer = [])
    (hc : m.Offered s c) (hd : m.Offered s d) (hne : c.proc ≠ d.proc)
    (hdep : c.dependent d = true) (hraces : c.races d = false) :
    c.access.excludes d.access = true ∧ c.access.conflicts d.access = true ∨
      c.access.excludes d.access = false ∧
        ((∃ t, c.proc = .thread t ∧ c.access.isEnqueue = true ∧ d.proc = .flush t) ∨
          ∃ t, d.proc = .thread t ∧ d.access.isEnqueue = true ∧ c.proc = .flush t) := by
  have hexcludes : c.access.conflicts d.access = true → c.access.excludes d.access = true := by
    intro hconflicts
    simpa [Candidate.races, hne, hconflicts] using hraces
  cases hconflicts : c.access.conflicts d.access with
  | true => exact .inl ⟨hexcludes hconflicts, rfl⟩
  | false =>
      right
      have hbears : c.bearsOn d.proc = true ∨ d.bearsOn c.proc = true := by
        simpa [Candidate.dependent, hne, hconflicts] using hdep
      rcases hbears with hbears | hbears
      · obtain ⟨t, hp, henq, hdp⟩ := hc.of_bearsOn hempty hd hbears
        exact ⟨(Access.excludes_of_isEnqueue henq).1, .inl ⟨t, hp, henq, hdp⟩⟩
      · obtain ⟨t, hp, henq, hcp⟩ := hd.of_bearsOn hempty hc hbears
        exact ⟨(Access.excludes_of_isEnqueue henq).2, .inr ⟨t, hp, henq, hcp⟩⟩

/-! ### A store and the flush of an older one -/

/-- A thread that adds to its buffer and the flush of it change the thread in either order, as long
as there is something to flush. -/
theorem update_flushed_of_waiting (hk : k.Within m c) (hp : c.proc = .thread t)
    (hne : th.buffer ≠ []) : k.update th.flushed = (k.update th).flushed := by
  obtain ⟨waiting, -, hadds⟩ := hk.buffer t hp
  rw [Thread.flushed, Thread.flushed, hadds th th.buffer.tail, hadds.buffer_eq,
    List.tail_append_of_ne_nil hne]

theorem enqueue_behind (hl : l.Within m d) (hc : m.Offered s c) (hp : c.proc = .thread t)
    (henq : c.access.isEnqueue = true) (hdp : d.proc = .flush t) :
    (l.on t m).Offered s c ∧ (l.on t m).change s (.thread t) = m.change s (.thread t) := by
  cases hc with
  | flush => cases hp
  | @thread u th op _ hth hup hadm =>
      obtain ⟨ha, hcp, hdrain⟩ := admits_eq_some.mp hadm
      obtain rfl : u = t := Proc.thread.inj (hcp.symm.trans hp)
      have hth' : (l.on u m).threads[u]? = some th.flushed := by
        rw [l.getElem?_on u hth, if_pos rfl, hl.flush u hdp]
      obtain ⟨f, hf, hchange⟩ := change_of_upcoming hth hup
      obtain ⟨f', hf', hchange'⟩ := change_of_upcoming (s := s) hth' hup
      obtain rfl : f = f' := Except.ok.inj (hf.symm.trans hf')
      have hspec := announce_eq_some ha
      cases op with
      | store a v =>
          refine ⟨.thread hth' hup (admits_eq_some.mpr ⟨ha, hcp, ?_⟩), ?_⟩
          · rw [Access.drains_of_isEnqueue henq, Bool.and_false, Bool.false_and]
          · rw [hchange', hchange]
            simp only [changeOf, cellAt, Change.cell?_on]
            rfl
      | join v => rcases hspec with hspec | ⟨j, hspec⟩ <;> simp [hspec, Access.isEnqueue] at henq
      | _ => simp [hspec, Access.isEnqueue] at henq

theorem flush_behind_thread (hk : k.Within m c) (hp : c.proc = .thread t) (hd : m.Offered s d)
    (hdp : d.proc = .flush t) :
    (k.on t m).Offered s d ∧ (k.on t m).change s (.flush t) = m.change s (.flush t) := by
  cases hd with
  | thread hth hup hadm =>
      rw [(admits_eq_some.mp hadm).2.1] at hdp
      cases hdp
  | flush hth hb =>
      cases hdp
      have h := flush_behind (s := s) hk hth hb (by rw [hp]; simp)
      rwa [hp] at h

theorem enqueue_turn_behind (hl : l.Within m d) (hc : m.Offered s c) (hp : c.proc = .thread t)
    (henq : c.access.isEnqueue = true) (hdp : d.proc = .flush t) :
    (l.on t m).turnChange s (.thread t) = m.turnChange s (.thread t) := by
  have hlt := hc.owner_lt
  rw [hp] at hlt
  have hth : m.threads[t]? = some m.threads[t] := List.getElem?_eq_getElem hlt
  have hth' : (l.on t m).threads[t]? = some m.threads[t].flushed := by
    rw [l.getElem?_on t hth, if_pos rfl, hl.flush t hdp]
  refine turnChange_congr (enqueue_behind hl hc hp henq hdp).2 hth hth' fun k hk => ?_
  refine ⟨hc.adds hp hk, .inl ?_⟩
  exact (hc.within (by rw [hp]; exact hk)).child_eq_none (Access.ne_spawn_of_isEnqueue henq)

/-- A store and the flush of an older one can be made in either order. -/
theorem on_comm_of_waiting (hk : k.Within m c) (hl : l.Within m d) (hd : m.Offered s d)
    (hp : c.proc = .thread t) (henq : c.access.isEnqueue = true) (hdp : d.proc = .flush t) :
    l.on t (k.on t m) = k.on t (l.on t m) := by
  have hchild := hk.child_eq_none (Access.ne_spawn_of_isEnqueue henq)
  have hcell : k.cell = none := by
    by_contra hcell
    obtain ⟨x, hx⟩ := Option.ne_none_iff_exists'.mp hcell
    obtain ⟨a, ha, -⟩ := hk.cell x.1 x.2 hx
    cases hca : c.access <;> simp_all [Access.object, Access.isEnqueue]
  cases hd with
  | thread hth hup hadm =>
      rw [(admits_eq_some.mp hadm).2.1] at hdp
      cases hdp
  | @flush u th b hth hb =>
      obtain rfl : u = t := Proc.flush.inj hdp
      have hne : th.buffer ≠ [] := by
        rintro hnil
        simp [hnil] at hb
      have hlchild := hl.child_eq_none (by simp)
      have hmodify : (m.threads.modify u k.update).modify u l.update =
          (m.threads.modify u l.update).modify u k.update := by
        rw [List.modify_modify_eq, List.modify_modify_eq, modify_eq_set hth, modify_eq_set hth]
        simp only [Function.comp_apply, hl.flush u rfl, update_flushed_of_waiting hk hp hne]
      simp only [Change.on, Change.memory, hcell, hchild, hlchild, Option.toList_none,
        List.append_nil, hmodify]

/-- Moves whose changes are the same in either order have the same outcome in either order, if the
second of them cannot fail. -/
theorem Moves.outcome_comm {kind : Machine → Prop} {chg : Machine → Proc → Except Stop Change}
    {mv : Machine → Proc → Except Stop Machine} (h : Moves s kind chg mv) (hm : kind m)
    (hc : m.Offered s c) (hd : m.Offered s d) (hl : chg m d.proc = .ok l)
    (hbehind : ∀ k, chg m c.proc = .ok k → (k.on c.proc.owner m).Offered s d ∧
      chg (k.on c.proc.owner m) d.proc = chg m d.proc)
    (hbehind' : (l.on d.proc.owner m).Offered s c ∧
      chg (l.on d.proc.owner m) c.proc = chg m c.proc)
    (hcomm : ∀ k, chg m c.proc = .ok k →
      l.on d.proc.owner (k.on c.proc.owner m) = k.on c.proc.owner (l.on d.proc.owner m)) :
    m.outcome mv c d = m.outcome mv d c := by
  have hlw := h.within m d l hd hl
  have hmakes := h.makes m d.proc hm
  rw [hl] at hmakes
  obtain ⟨m₂, hm₂, hd₂⟩ := hmakes
  have hoff₂ : m₂.Offered s c := (offered_congr hd₂.core).mpr hbehind'.1
  have hc₂ : chg m₂ c.proc = chg m c.proc := by
    rw [← h.core m₂ c hoff₂, hd₂.core, h.core _ c hbehind'.1, hbehind'.2]
  have hkind₂ := h.keeps m m₂ _ hm hm₂
  cases hk : chg m c.proc with
  | error why =>
      have hfail : mv m c.proc = .error why := (h.error_iff hm).mpr hk
      have hfail₂ : mv m₂ c.proc = .error why := (h.error_iff hkind₂).mpr (hc₂.trans hk)
      simp only [outcome, hfail, hm₂, hfail₂, ok_bind, error_bind]
  | ok k =>
      have hkw := h.within m c k hc hk
      have hmakes := h.makes m c.proc hm
      rw [hk] at hmakes
      obtain ⟨m₁, hm₁, hc₁⟩ := hmakes
      obtain ⟨hoff, hsame⟩ := hbehind k hk
      have hoff₁ : m₁.Offered s d := (offered_congr hc₁.core).mpr hoff
      have hd₁ : chg m₁ d.proc = chg m d.proc := by
        rw [← h.core m₁ d hoff₁, hc₁.core, h.core _ d hoff, hsame]
      have hmakes₁ := h.makes m₁ d.proc (h.keeps m m₁ _ hm hm₁)
      have hmakes₂ := h.makes m₂ c.proc hkind₂
      rw [hd₁, hl] at hmakes₁
      rw [hc₂, hk] at hmakes₂
      obtain ⟨m₁₂, hm₁₂, h₁₂⟩ := hmakes₁
      obtain ⟨m₂₁, hm₂₁, h₂₁⟩ := hmakes₂
      have hcore : m₁₂.core = m₂₁.core := by
        rw [h₁₂.core, h₂₁.core, ← core_on hlw, hc₁.core, core_on hlw, hcomm k hk, ← core_on hkw,
          ← hd₂.core, core_on hkw]
      simp only [outcome, hm₁, hm₂, hm₁₂, hm₂₁, ok_bind, Except.map, hcore]

/-- **A store and the flush of an older one have the same outcome in either order.** -/
theorem outcome_comm_of_waiting (hm : m.Calm s) (hc : m.Offered s c) (hd : m.Offered s d)
    (hp : c.proc = .thread t) (henq : c.access.isEnqueue = true) (hdp : d.proc = .flush t) :
    m.outcome (step s) c d = m.outcome (step s) d c ∧
      m.outcome (turn s) c d = m.outcome (turn s) d c := by
  obtain ⟨l, hl⟩ : ∃ l, m.change s d.proc = .ok l := by
    cases hd with
    | thread hth hup hadm =>
        rw [(admits_eq_some.mp hadm).2.1] at hdp
        cases hdp
    | flush hth hb => exact ⟨_, change_of_head hth hb⟩
  have hlw := hd.within hl
  have hbehind : ∀ k : Change, k.Within m c → (k.on c.proc.owner m).Offered s d ∧
      (k.on c.proc.owner m).change s d.proc = m.change s d.proc := by
    intro k hk
    have h := flush_behind_thread hk hp hd hdp
    rwa [hp, hdp]
  have hbehind' := enqueue_behind hlw hc hp henq hdp
  have hturn := enqueue_turn_behind hlw hc hp henq hdp
  have hcomm : ∀ k : Change, k.Within m c →
      l.on d.proc.owner (k.on c.proc.owner m) = k.on c.proc.owner (l.on d.proc.owner m) := by
    intro k hk
    have h := on_comm_of_waiting hk hlw hd hp henq hdp
    rwa [hp, hdp]
  have hflush : ∀ m : Machine, m.turnChange s d.proc = m.change s d.proc := by
    intro m
    rw [hdp]
    rfl
  constructor
  · refine (moves_step s).outcome_comm trivial hc hd hl (fun k hk => hbehind k (hc.within hk)) ?_
      fun k hk => hcomm k (hc.within hk)
    rwa [hp, hdp]
  · refine (moves_turn s).outcome_comm hm hc hd ((hflush m).trans hl) (fun k hk => ?_) ?_
      fun k hk => hcomm k (hc.turn_within hk)
    · rw [hflush, hflush]
      exact hbehind k (hc.turn_within hk)
    · rw [hp, hdp]
      exact ⟨hbehind'.1, hturn⟩

/-! ### Accesses that exclude each other -/

/-- The error of two steps, one after the other, is that of their changes. -/
theorem errorOf?_outcome_step (s : Setup) (m : Machine) (c d : Candidate) :
    errorOf? (m.outcome (step s) c d) =
      errorOf? (m.change s c.proc >>= fun k => (k.on c.proc.owner m).change s d.proc) := by
  have hstep := step_eq s m c.proc
  cases hk : m.change s c.proc with
  | error why =>
      rw [hk] at hstep
      simp only [outcome, show m.step s c.proc = .error why from hstep, error_bind]
      rfl
  | ok k =>
      rw [hk] at hstep
      obtain ⟨m₁, hm₁, hbehind⟩ := hstep
      have hchange : (k.on c.proc.owner m).change s d.proc = m₁.change s d.proc := by
        rw [← change_core, ← hbehind.core, change_core]
      have hstep₁ := step_eq s m₁ d.proc
      simp only [outcome, hm₁, ok_bind, hchange]
      cases hl : m₁.change s d.proc with
      | error why =>
          rw [hl] at hstep₁
          rw [show m₁.step s d.proc = .error why from hstep₁]
          rfl
      | ok l =>
          rw [hl] at hstep₁
          obtain ⟨m₂, hm₂, -⟩ := hstep₁
          rw [hm₂]
          rfl

theorem Offered.of_mutex {a : Addr} (hc : m.Offered s c)
    (ha : c.access = .lock a ∨ c.access = .unlock a) :
    ∃ t th site op, c.proc = .thread t ∧ m.threads[t]? = some th ∧ site.thread = t ∧
      (op = .lock a ∧ c.access = .lock a ∧ (∀ i, m.cell? a = some i → m.read i = 0) ∨
        op = .unlock a ∧ c.access = .unlock a) ∧
      ∀ m' : Machine, m'.threads[t]? = some th → m'.change s c.proc = m'.changeOf s t th site op := by
  cases hc with
  | flush => rcases ha with ha | ha <;> cases ha
  | @thread t th op _ hth hup hadm =>
      obtain ⟨hann, hp, -⟩ := admits_eq_some.mp hadm
      obtain ⟨f, hf, -⟩ := change_of_upcoming hth hup
      refine ⟨t, th, th.site t f, op, hp, hth, rfl, ?_, fun m' hth' => ?_⟩
      · have hspec := announce_eq_some hann
        cases op with
        | lock b =>
            simp only at hspec
            rw [hspec] at ha hann
            obtain rfl : b = a := by simpa using ha
            refine .inl ⟨rfl, hspec, fun i hi => ?_⟩
            simp only [announce, hi] at hann
            by_contra hread
            rw [if_neg hread] at hann
            cases hann
        | unlock b =>
            simp only at hspec
            rw [hspec] at ha
            obtain rfl : b = a := by simpa using ha
            exact .inr ⟨rfl, hspec⟩
        | store b v =>
            simp only at hspec
            rw [hspec] at ha
            split at ha <;> simp at ha
        | join v =>
            rcases hspec with hspec | ⟨j, hspec⟩ <;> simp [hspec] at ha
        | _ =>
            simp only at hspec
            simp [hspec] at ha
      · obtain ⟨f', hf', hchange⟩ := change_of_upcoming hth' hup
        obtain rfl : f = f' := Except.ok.inj (hf.symm.trans hf')
        rw [hp, hchange]

theorem read_on_cell {a : Addr} {i : Nat} {v : Int64} (hi : m.cell? a = some i)
    (hk : k.cell = some (i, v)) (t : Nat) : (k.on t m).read i = v := by
  have hlt : i < m.memory.length := by
    simp only [cell?, Option.ite_none_right_eq_some, Option.some.injEq] at hi
    omega
  simp [read, Change.on, Change.memory, hk, hlt]

/-- The computation ends with an error of the program at the site. -/
def FailsAt {α : Type} (site : Site) (x : Except Stop α) : Prop :=
  ∃ kind message, x = .error (.error ⟨kind, some site, message⟩)

theorem FailsAt.site_eq {α β : Type} {site site' : Site} {x : Except Stop α} {y : Except Stop β}
    (hx : FailsAt site x) (hy : FailsAt site' y) (h : errorOf? x = errorOf? y) : site = site' := by
  obtain ⟨kind, message, rfl⟩ := hx
  obtain ⟨kind', message', rfl⟩ := hy
  simp only [errorOf?_error, Option.some.injEq, Stop.error.injEq, TraceError.mk.injEq] at h
  exact h.2.1

theorem FailsAt.bind {α β : Type} {site : Site} {x : Except Stop α} {f : α → Except Stop β}
    (h : FailsAt site x) : FailsAt site (x >>= f) := by
  obtain ⟨kind, message, rfl⟩ := h
  exact ⟨kind, message, rfl⟩

section

variable {site : Site} {a : Addr} {i : Nat}

theorem failsAt_of_cell?_eq_none (hi : m.cell? a = none) {op : Operation}
    (hop : op = .lock a ∨ op = .unlock a) : FailsAt site (m.changeOf s t th site op) := by
  rcases hop with rfl | rfl
  · exact ⟨_, _, by simp only [changeOf, cellAt, hi]; rfl⟩
  · exact ⟨_, _, by simp only [changeOf, cellAt, hi]; rfl⟩

theorem failsAt_unlock (hi : m.cell? a = some i) (hread : m.read i = 0) :
    FailsAt site (m.changeOf s t th site (.unlock a)) :=
  ⟨_, _, by simp only [changeOf, cellAt, hi, ok_bind, hread, if_true]; rfl⟩

/-- Whoever unlocks a mutex second fails. -/
theorem failsAt_unlock_behind (hi : m.cell? a = some i) (hk : k.cell = some (i, 0)) (u : Nat) :
    FailsAt site ((k.on u m).changeOf s t th site (.unlock a)) :=
  failsAt_unlock (by rwa [Change.cell?_on]) (read_on_cell hi hk u)

theorem changeOf_lock (hi : m.cell? a = some i) :
    m.changeOf s t th site (.lock a) =
      .ok (.ofThread t site id (some (i, 1)) none (.lock a)) := by
  simp only [changeOf, cellAt, hi, ok_bind, pure_eq_ok]

theorem changeOf_unlock (hi : m.cell? a = some i) (hread : m.read i ≠ 0) :
    m.changeOf s t th site (.unlock a) =
      .ok (.ofThread t site id (some (i, 0)) none (.unlock a)) := by
  simp only [changeOf, cellAt, hi, ok_bind, hread, if_false, pure_eq_ok]

end

/-- **Unlocking a mutex that another thread locks or unlocks has another outcome in the other
order.** -/
theorem outcome_ne_of_unlock {a : Addr} (hc : m.Offered s c) (hd : m.Offered s d)
    (hne : c.proc ≠ d.proc) (hca : c.access = .unlock a)
    (hda : d.access = .lock a ∨ d.access = .unlock a) :
    m.outcome (step s) c d ≠ m.outcome (step s) d c := by
  obtain ⟨t, th, site, op, hp, hth, hsite, hop, hchange⟩ := hc.of_mutex (.inr hca)
  obtain ⟨u, th', site', op', hp', hth', hsite', hop', hchange'⟩ := hd.of_mutex hda
  obtain rfl : op = .unlock a := by
    rcases hop with ⟨-, h, -⟩ | ⟨h, -⟩
    · rw [hca] at h
      cases h
    · exact h
  have htu : t ≠ u := by
    rintro rfl
    exact hne (hp.trans hp'.symm)
  have hsites : site ≠ site' := by
    rintro rfl
    exact htu (hsite.symm.trans hsite')
  have hbehind : ∀ k : Change, (k.on c.proc.owner m).change s d.proc =
      (k.on c.proc.owner m).changeOf s u th' site' op' := by
    intro k
    apply hchange'
    rw [k.getElem?_on _ hth', hp]
    simp [Proc.owner, htu]
  have hbehind' : ∀ k : Change, (k.on d.proc.owner m).change s c.proc =
      (k.on d.proc.owner m).changeOf s t th site (.unlock a) := by
    intro k
    apply hchange
    rw [k.getElem?_on _ hth, hp']
    simp [Proc.owner, htu.symm]
  intro heq
  have herror := congrArg errorOf? heq
  simp only [errorOf?_outcome_step, hchange m hth, hchange' m hth', hbehind, hbehind'] at herror
  cases hi : m.cell? a with
  | none =>
      have hfail : FailsAt site (m.changeOf s t th site (.unlock a)) :=
        failsAt_of_cell?_eq_none hi (.inr rfl)
      have hfail' : FailsAt site' (m.changeOf s u th' site' op') :=
        failsAt_of_cell?_eq_none hi (hop'.imp And.left And.left)
      exact hsites (hfail.bind.site_eq hfail'.bind herror)
  | some i =>
      rcases hop' with ⟨rfl, -, hfree⟩ | ⟨rfl, -⟩
      · -- the mutex is free: it can be locked and then unlocked, but not unlocked at once
        obtain ⟨kind, message, hfail⟩ : FailsAt site (m.changeOf s t th site (.unlock a)) :=
          failsAt_unlock hi (hfree i hi)
        rw [hfail, changeOf_lock hi, error_bind, ok_bind, changeOf_unlock (by rwa [Change.cell?_on])
          (by rw [read_on_cell hi rfl]; decide)] at herror
        cases herror
      · by_cases hread : m.read i = 0
        · have hfail : FailsAt site (m.changeOf s t th site (.unlock a)) := failsAt_unlock hi hread
          have hfail' : FailsAt site' (m.changeOf s u th' site' (.unlock a)) :=
            failsAt_unlock hi hread
          exact hsites (hfail.bind.site_eq hfail'.bind herror)
        · -- the first to unlock the mutex leaves the error to the other
          rw [changeOf_unlock hi hread, changeOf_unlock hi hread, ok_bind, ok_bind] at herror
          exact hsites (FailsAt.site_eq (failsAt_unlock_behind hi rfl _)
            (failsAt_unlock_behind hi rfl _) herror.symm)

/-! ### When the other order can be left out -/

/-- **Leaving out the other order of a dependent pair that does not race.**  At every scheduling
point of every execution, let two candidates of different processes be dependent without racing.
Then their steps have the same outcome in either order exactly if their accesses do not exclude each
other; and so do, in this case, their turns. -/
theorem outcome_comm_iff {entry : Nat} {m₀ : Machine} {ps : List Proc} {cs : List Candidate}
    (hstart : start s entry = .ok m₀) (hreach : m₀.reach s ps = .ok m)
    (hcs : m.candidates s = .ok cs) (hc : c ∈ cs) (hd : d ∈ cs) (hne : c.proc ≠ d.proc)
    (hdep : c.dependent d = true) (hraces : c.races d = false) :
    (m.outcome (step s) c d = m.outcome (step s) d c ↔ c.access.excludes d.access = false) ∧
      (c.access.excludes d.access = false →
        m.outcome (turn s) c d = m.outcome (turn s) d c) := by
  rw [mem_candidates hcs] at hc hd
  have hcalm := calm_reach hreach
  have hempty : s.buffered = false → ∀ th ∈ m.threads, th.buffer = [] :=
    fun hs => buffers_reach hs (buffers_start hstart) hreach
  rcases hc.of_not_races hempty hd hne hdep hraces with ⟨hex, hconflicts⟩ | ⟨hex, hwaiting⟩
  · have hdiffer : m.outcome (step s) c d ≠ m.outcome (step s) d c := by
      rcases Access.of_excludes hex hconflicts with ⟨a, ha, hda⟩ | ⟨a, ha, hca⟩
      · exact outcome_ne_of_unlock hc hd hne ha hda
      · exact (outcome_ne_of_unlock hd hc hne.symm ha (.inl hca)).symm
    simp [hex, hdiffer]
  · have hsame : m.outcome (step s) c d = m.outcome (step s) d c ∧
        m.outcome (turn s) c d = m.outcome (turn s) d c := by
      rcases hwaiting with ⟨t, hp, henq, hdp⟩ | ⟨t, hp, henq, hcp⟩
      · exact outcome_comm_of_waiting hcalm hc hd hp henq hdp
      · have h := outcome_comm_of_waiting hcalm hd hc hp henq hcp
        exact ⟨h.1.symm, h.2.symm⟩
    simp [hex, hsame]

/-- A thread stores twice, without a fence in between. -/
def storeTwice : Setup :=
  ⟨⟨"e", [⟨"x", 0⟩], [⟨"main", [], [.store (.global 0) (.imm 1), .store (.global 0) (.imm 2), .ret]⟩]⟩,
    .standard, true, 10⟩

/-- The machine between the two stores, the first of which waits. -/
def storedOnce : Machine :=
  ⟨[0], [⟨0, 1, [], false, [⟨1, 1, 0, ⟨0, "main", 0⟩⟩]⟩],
    [⟨.thread 0, ⟨0, "main", 0⟩, .enqueue 1 1⟩], [], Memory.Graph.empty.write 0 1, []⟩

theorem outcome_comm_iff_storedOnce :
    storedOnce.candidates storeTwice = .ok [⟨.thread 0, .enqueue 1⟩, ⟨.flush 0, .write 1⟩] ∧
      storedOnce.outcome (step storeTwice) ⟨.thread 0, .enqueue 1⟩ ⟨.flush 0, .write 1⟩ =
        storedOnce.outcome (step storeTwice) ⟨.flush 0, .write 1⟩ ⟨.thread 0, .enqueue 1⟩ := by
  have hcs : storedOnce.candidates storeTwice =
      .ok [⟨.thread 0, .enqueue 1⟩, ⟨.flush 0, .write 1⟩] := by decide
  have hstart : start storeTwice 0 = .ok ⟨[0], [⟨0, 0, [], false, []⟩], [], [], .empty, []⟩ := by
    decide
  have hreach : reach storeTwice ⟨[0], [⟨0, 0, [], false, []⟩], [], [], .empty, []⟩ [.thread 0] =
      .ok storedOnce := by decide
  have h := outcome_comm_iff (c := ⟨.thread 0, .enqueue 1⟩) (d := ⟨.flush 0, .write 1⟩) hstart hreach
    hcs (by simp) (by simp) (by decide) (by decide) (by decide)
  exact ⟨hcs, h.1.mpr (by decide)⟩

/-- One thread locks a mutex that another unlocks, without ever having locked it. -/
def strayUnlock : Setup :=
  ⟨⟨"e", [⟨"m", 0⟩],
    [⟨"other", [], [.unlock (.global 0), .ret]⟩,
      ⟨"main", ["t"], [.spawn 0 0, .lock (.global 0), .join (.reg 0), .ret]⟩]⟩, .standard, false, 10⟩

/-- The machine in which the mutex is free. -/
def mutexFree : Machine :=
  ⟨[0], [⟨1, 1, [1], false, []⟩, ⟨0, 0, [], false, []⟩],
    [⟨.thread 0, ⟨0, "main", 0⟩, .spawn 1⟩], [], .empty, []⟩

/-- The lock and the unlock are offered together and are dependent without racing, but only one of
the two orders goes well. -/
theorem outcome_ne_mutexFree :
    (start strayUnlock 1 >>= fun m => m.reach strayUnlock [.thread 0]) = .ok mutexFree ∧
      mutexFree.candidates strayUnlock = .ok [⟨.thread 0, .lock 1⟩, ⟨.thread 1, .unlock 1⟩] ∧
      Candidate.dependent ⟨.thread 0, .lock 1⟩ ⟨.thread 1, .unlock 1⟩ = true ∧
      Candidate.races ⟨.thread 0, .lock 1⟩ ⟨.thread 1, .unlock 1⟩ = false ∧
      mutexFree.outcome (step strayUnlock) ⟨.thread 0, .lock 1⟩ ⟨.thread 1, .unlock 1⟩ =
        .ok ⟨[0], [⟨1, 2, [1], false, []⟩, ⟨0, 1, [], false, []⟩], [], [], .empty, []⟩ ∧
      mutexFree.outcome (step strayUnlock) ⟨.thread 1, .unlock 1⟩ ⟨.thread 0, .lock 1⟩ =
        .error (.error ⟨.invalidOperation, some ⟨1, "other", 0⟩,
          "unlock of mutex #1 that is not locked"⟩) := by
  decide

end Machine

end Interleave
