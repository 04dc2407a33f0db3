import Interleave.Proofs.Machine.Replay

/-! # Locks give mutual exclusion

A mutex is a cell of memory that is not zero while the mutex is held.  As long as no store reaches the cell,
the locks and unlocks of its address are all that changes it.  They alternate (`Alternates`), and the
value in the cell tells which of them was the last (`Machine.locks_alternate`), because the events of
a run can be replayed and the replay checks the cell at every lock and unlock
(`QueuedMemory.Held.replay`). -/

namespace Interleave

/-- What the operation does to the mutex at an address: `true` if it takes it, `false` if it gives it
back. -/
def EventKind.mutex? (a : Addr) : EventKind → Option Bool
  | lock b => if b = a then some true else none
  | unlock b => if b = a then some false else none
  | _ => none

theorem EventKind.of_mutex? {a : Addr} {taken : Bool} {k : EventKind} (h : k.mutex? a = some taken) :
    k = if taken then .lock a else .unlock a := by
  unfold mutex? at h
  split at h
  · split at h <;> cases h
    simp_all
  · split at h <;> cases h
    simp_all
  · cases h

/-- The locks and unlocks of the mutex at an address, in order. -/
def Event.mutexHistory (a : Addr) (es : List Event) : List Bool :=
  es.filterMap fun e => e.kind.mutex? a

/-- Locks and unlocks alternate: a mutex that is held is given back next, and one that is not is taken
next. -/
def Alternates (held : Bool) : List Bool → Prop
  | [] => True
  | taken :: ops => taken = !held ∧ Alternates taken ops

/-- Whether a mutex is held behind some locks and unlocks, if it was `held` before. -/
def heldBehind (held : Bool) (ops : List Bool) : Bool := ops.getLast?.getD held

theorem heldBehind_cons (held taken : Bool) (ops : List Bool) :
    heldBehind held (taken :: ops) = heldBehind taken ops := by
  simp [heldBehind, List.getLast?_cons]

theorem Alternates.of_append {held : Bool} {ops ops' : List Bool} (h : Alternates held (ops ++ ops')) :
    ∃ held', Alternates held' ops' := by
  induction ops generalizing held with
  | nil => exact ⟨held, h⟩
  | cons taken ops ih => exact ih h.2

theorem Alternates.mem_of_taken {held : Bool} {before between behind : List Bool}
    (h : Alternates held (before ++ true :: (between ++ true :: behind))) : false ∈ between := by
  obtain ⟨held', -, h⟩ := h.of_append
  cases between with
  | nil => exact absurd h.1 (by decide)
  | cons taken between =>
      obtain ⟨rfl, -⟩ := h
      exact List.mem_cons_self

/-- Between two locks of a mutex whose history alternates it is unlocked. -/
theorem Event.exists_unlock {a : Addr} {held : Bool} {before between behind : List Event} {e f : Event}
    (h : Alternates held (mutexHistory a (before ++ e :: (between ++ f :: behind))))
    (he : e.kind = .lock a) (hf : f.kind = .lock a) : ∃ u ∈ between, u.kind = .unlock a := by
  have hlock : (EventKind.lock a).mutex? a = some true := by simp [EventKind.mutex?]
  simp only [mutexHistory, List.filterMap_append, List.filterMap_cons, he, hf, hlock] at h
  obtain ⟨u, hu, hmutex⟩ := List.mem_filterMap.mp h.mem_of_taken
  exact ⟨u, hu, EventKind.of_mutex? hmutex⟩

/-! ### Replayed memory -/

namespace QueuedMemory

variable {buffered held : Bool} {c c' : QueuedMemory} {a b : Addr} {v : Int64} {e : Event}

theorem value?_of_put? (h : c.put? b v = some c') :
    c'.value? a = if a = b then some v else c.value? a := by
  obtain ⟨w, hw, rfl⟩ := Option.map_eq_some_iff.mp h
  unfold value? at hw ⊢
  split at hw
  · cases hw
  · rename_i hb
    split
    · rename_i ha
      rw [if_neg (ha ▸ Ne.symm hb)]
    · rename_i ha
      split
      · rename_i hab
        have hlt := (List.getElem?_eq_some_iff.mp hw).1
        rw [hab, List.getElem?_set_self hlt]
      · rename_i hab
        have ha' : a.toNat ≠ 0 := fun hzero => ha (UInt64.toNat_inj.mp hzero)
        have hb' : b.toNat ≠ 0 := fun hzero => hb (UInt64.toNat_inj.mp hzero)
        have hab' : a.toNat ≠ b.toNat := fun heq => hab (UInt64.toNat_inj.mp heq)
        rw [List.getElem?_set_ne (by omega)]

theorem value?_of_replay (h : c.replay buffered e = some c') (hstore : ∀ v, e.kind ≠ .store a v)
    (hmutex : e.kind.mutex? a = none) : c'.value? a = c.value? a := by
  have hput : ∀ {c₁ : QueuedMemory} {b v}, b ≠ a → c₁.put? b v = some c' → c₁.value? a = c.value? a →
      c'.value? a = c.value? a := by
    intro c₁ b v hb hc' hc₁
    rw [value?_of_put? hc', if_neg hb.symm, hc₁]
  unfold replay at h
  split at h
  · split at h <;> cases h
    rfl
  · split at h <;> cases h
    rfl
  · rename_i b v hproc hkind
    split at h
    · cases h
    · exact hput (fun hb => hstore v (hb ▸ hkind)) h rfl
  · rename_i t b hproc hkind
    split at h
    · exact hput (fun hb => by simp [hkind, EventKind.mutex?, hb] at hmutex) h rfl
    · cases h
  · rename_i t b hproc hkind
    split at h
    · exact hput (fun hb => by simp [hkind, EventKind.mutex?, hb] at hmutex) h rfl
    · cases h
  · split at h <;> cases h
    rfl
  · split at h <;> cases h
    rfl
  · cases h
    rfl
  · rename_i t b v hproc hkind
    split at h
    · split at h
      · exact hput (fun hb => hstore v (hb ▸ hkind)) h rfl
      · cases h
    · cases h
  · cases h

theorem value?_of_lock (h : c.replay buffered e = some c') (hkind : e.kind = .lock a) :
    c.value? a = some 0 ∧ c'.value? a = some 1 := by
  obtain ⟨proc, site, kind⟩ := e
  obtain rfl : kind = .lock a := hkind
  cases proc with
  | flush t => cases h
  | thread t =>
      simp only [replay] at h
      split at h
      · rename_i hguard
        exact ⟨hguard.2, by rw [value?_of_put? h, if_pos rfl]⟩
      · cases h

theorem value?_of_unlock (h : c.replay buffered e = some c') (hkind : e.kind = .unlock a) :
    (∃ v, c.value? a = some v ∧ v ≠ 0) ∧ c'.value? a = some 0 := by
  obtain ⟨proc, site, kind⟩ := e
  obtain rfl : kind = .unlock a := hkind
  cases proc with
  | flush t => cases h
  | thread t =>
      simp only [replay] at h
      split at h
      · rename_i hguard
        obtain ⟨v, hv, -⟩ := Option.map_eq_some_iff.mp h
        refine ⟨⟨v, hv, ?_⟩, by rw [value?_of_put? h, if_pos rfl]⟩
        rintro rfl
        exact hguard.2 hv
      · cases h

/-- The mutex at the address is held, or it is not. -/
def Held (c : QueuedMemory) (a : Addr) (held : Bool) : Prop :=
  ∃ v, c.value? a = some v ∧ (v ≠ 0 ↔ held = true)

theorem Held.replay (hc : c.Held a held) (h : c.replay buffered e = some c')
    (hstore : ∀ v, e.kind ≠ .store a v) :
    (e.kind.mutex? a = none → c'.Held a held) ∧
      ∀ taken, e.kind.mutex? a = some taken → taken = !held ∧ c'.Held a taken := by
  obtain ⟨v, hv, hheld⟩ := hc
  refine ⟨fun hmutex => ⟨v, by rw [value?_of_replay h hstore hmutex, hv], hheld⟩, fun taken htaken => ?_⟩
  have hkind := EventKind.of_mutex? htaken
  cases taken with
  | true =>
      obtain ⟨hfree, htook⟩ := value?_of_lock h hkind
      cases hv.symm.trans hfree
      exact ⟨by simpa using hheld, 1, htook, by decide⟩
  | false =>
      obtain ⟨⟨w, hw, hne⟩, hgave⟩ := value?_of_unlock h hkind
      cases hv.symm.trans hw
      exact ⟨by simp [hheld.mp hne], 0, hgave, by decide⟩

/-- **Locks and unlocks of a mutex alternate** along events that do not store to it. -/
theorem Held.alternates {es : List Event} (hc : c.Held a held)
    (h : es.foldlM (QueuedMemory.replay buffered) c = some c')
    (hstore : ∀ e ∈ es, ∀ v, e.kind ≠ .store a v) :
    Alternates held (Event.mutexHistory a es) ∧ c'.Held a (heldBehind held (Event.mutexHistory a es)) := by
  induction es generalizing c held with
  | nil =>
      cases h
      exact ⟨trivial, hc⟩
  | cons e es ih =>
      rw [List.foldlM_cons] at h
      obtain ⟨c₁, he, hes⟩ := Option.bind_eq_some_iff.mp h
      obtain ⟨hstore₁, hstore⟩ := List.forall_mem_cons.mp hstore
      obtain ⟨hnone, hsome⟩ := hc.replay he hstore₁
      rw [Event.mutexHistory, List.filterMap_cons]
      cases hmutex : e.kind.mutex? a with
      | none => exact ih (hnone hmutex) hes hstore
      | some taken =>
          obtain ⟨htaken, hc₁⟩ := hsome taken hmutex
          obtain ⟨halternates, hheld⟩ := ih hc₁ hes hstore
          exact ⟨⟨htaken, halternates⟩, by rwa [heldBehind_cons]⟩

theorem mutexHistory_of_value?_eq_none {es : List Event} (hc : c.value? a = none)
    (h : es.foldlM (QueuedMemory.replay buffered) c = some c')
    (hstore : ∀ e ∈ es, ∀ v, e.kind ≠ .store a v) : Event.mutexHistory a es = [] := by
  induction es generalizing c with
  | nil => rfl
  | cons e es ih =>
      rw [List.foldlM_cons] at h
      obtain ⟨c₁, he, hes⟩ := Option.bind_eq_some_iff.mp h
      obtain ⟨hstore₁, hstore⟩ := List.forall_mem_cons.mp hstore
      have hnone : e.kind.mutex? a = none := by
        cases hmutex : e.kind.mutex? a with
        | none => rfl
        | some taken =>
            have hkind := EventKind.of_mutex? hmutex
            cases taken with
            | true => exact absurd ((value?_of_lock he hkind).1.symm.trans hc) (by simp)
            | false =>
                obtain ⟨⟨v, hv, -⟩, -⟩ := value?_of_unlock he hkind
                exact absurd (hv.symm.trans hc) (by simp)
      rw [Event.mutexHistory, List.filterMap_cons, hnone]
      exact ih ((value?_of_replay he hstore₁ hnone).trans hc) hes hstore

end QueuedMemory

namespace Machine

variable {s : Setup} {m m₀ : Machine} {entry cell : Nat} {a : Addr} {c : Candidate}

/-! ### Mutexes of a machine -/

theorem Offered.free_of_lock (hc : m.Offered s c) (ha : c.access = .lock a) (hcell : m.cell? a = some cell) :
    m.read cell = 0 := by
  cases hc with
  | flush => cases ha
  | @thread t th op _ hth hup hadm =>
      have hannounce := (admits_eq_some.mp hadm).1
      rw [ha] at hannounce
      have hspec := announce_eq_some hannounce
      cases op with
      | lock b =>
          cases hspec
          by_contra hne
          simp [announce, hcell, hne] at hannounce
      | store b v =>
          simp only at hspec
          split at hspec <;> cases hspec
      | join v => simp at hspec
      | _ => simp at hspec

theorem held_initial {p : Program} {g : Global} (ha : a ≠ 0) (hg : p.globals[a.toNat - 1]? = some g) :
    (QueuedMemory.initial p).Held a (decide (g.init ≠ 0)) := by
  refine ⟨g.init, ?_, by simp⟩
  rw [QueuedMemory.value?, if_neg ha, QueuedMemory.initial, List.getElem?_map, hg]
  rfl

theorem value?_initial_of_cell? (hlength : m.memory.length = s.program.globals.length)
    (h : m.cell? a = none) : (QueuedMemory.initial s.program).value? a = none := by
  unfold QueuedMemory.value? QueuedMemory.initial
  split
  · rfl
  · rename_i hne
    have hpos : a.toNat ≠ 0 := fun hzero => hne (UInt64.toNat_inj.mp hzero)
    unfold cell? at h
    split at h
    · cases h
    · rename_i hout
      refine List.getElem?_eq_none ?_
      rw [List.length_map, ← hlength]
      omega

/-- **Locks give mutual exclusion.**  In every state that an execution can pass, with and without buffers:
consider an address to which no store has come.  If it has no cell, it has never been locked or unlocked.
Otherwise the locks and unlocks there alternate, beginning with a lock if the global starts with zero and
with an unlock if not; the cell is not zero exactly if the last of them was a lock, or there was none and
the global does not start with zero; and then no thread is offered to lock it.  So between two locks the
mutex is unlocked. -/
theorem locks_alternate (hstart : start s entry = .ok m₀) (hvisits : Visits s m₀ Unrestricted m)
    (hstore : ∀ e ∈ m.events, ∀ v, e.kind ≠ .store a v) :
    (m.cell? a = none → Event.mutexHistory a m.events = []) ∧
    (∀ cell, m.cell? a = some cell → ∃ g, s.program.globals[cell]? = some g ∧
      Alternates (decide (g.init ≠ 0)) (Event.mutexHistory a m.events) ∧
      (m.read cell ≠ 0 ↔
        heldBehind (decide (g.init ≠ 0)) (Event.mutexHistory a m.events) = true) ∧
      (m.read cell ≠ 0 → ∀ c, m.Offered s c → c.access ≠ .lock a)) ∧
    ∀ before e between f behind, m.events = before ++ e :: (between ++ f :: behind) →
      e.kind = .lock a → f.kind = .lock a → ∃ u ∈ between, u.kind = .unlock a := by
  have hreplay : m.events.foldlM (QueuedMemory.replay s.buffered) (.initial s.program) = some m.queued :=
    hvisits.faithful hstart
  have hlength := hvisits.length_memory hstart
  have hnone : m.cell? a = none → Event.mutexHistory a m.events = [] := by
    intro hcell
    refine QueuedMemory.mutexHistory_of_value?_eq_none ?_ hreplay hstore
    exact value?_initial_of_cell? hlength hcell
  have hcell : ∀ cell, m.cell? a = some cell → ∃ g, s.program.globals[cell]? = some g ∧
      Alternates (decide (g.init ≠ 0)) (Event.mutexHistory a m.events) ∧
      (m.read cell ≠ 0 ↔
        heldBehind (decide (g.init ≠ 0)) (Event.mutexHistory a m.events) = true) := by
    intro cell hcell
    obtain ⟨hne, rfl, hlt⟩ := cell?_eq_some hcell
    rw [hlength] at hlt
    have hg := List.getElem?_eq_getElem hlt
    obtain ⟨halternates, v, hv, hheld⟩ := (held_initial hne hg).alternates hreplay hstore
    rw [value?_queued hcell] at hv
    cases hv
    exact ⟨_, hg, halternates, hheld⟩
  refine ⟨hnone, fun cell h => ?_, fun before e between f behind hevents he hf => ?_⟩
  · obtain ⟨g, hg, halternates, hheld⟩ := hcell cell h
    exact ⟨g, hg, halternates, hheld, fun hne c hc ha => hne (hc.free_of_lock ha h)⟩
  · have halternates : ∃ held, Alternates held (Event.mutexHistory a m.events) := by
      cases h : m.cell? a with
      | none =>
          rw [hnone h]
          exact ⟨false, trivial⟩
      | some cell =>
          obtain ⟨g, -, halternates, -⟩ := hcell cell h
          exact ⟨_, halternates⟩
    obtain ⟨held, halternates⟩ := halternates
    rw [hevents] at halternates
    exact Event.exists_unlock halternates he hf

/-- The turns of the update up to where the second thread has given the mutex back and the first one has
taken it. -/
def guardedTurns : List Proc :=
  [.thread 0, .thread 0, .flush 0, .thread 0, .thread 1, .thread 1, .flush 1, .thread 1, .thread 0,
    .thread 0, .flush 0, .thread 0]

theorem locks_alternate_guardedUpdate :
    ∃ m, beforeUpdate.reach guardedUpdate guardedTurns = .ok m ∧
      Event.mutexHistory 2 m.events = [true, false, true] ∧ Alternates false [true, false, true] ∧
      m.cell? 2 = some 1 ∧ m.read 1 ≠ 0 ∧ (∀ c, m.Offered guardedUpdate c → c.access ≠ .lock 2) := by
  have hstart : start guardedUpdate 1 = .ok beforeUpdate := by decide
  obtain ⟨m, hreach, hm⟩ := exists_of_any (x := beforeUpdate.reach guardedUpdate guardedTurns)
    (p := fun m => (m.events.all fun e => decide (e.kind.access ≠ .write 2)) &&
      decide (Event.mutexHistory 2 m.events = [true, false, true]) && decide (m.cell? 2 = some 1))
    (by decide +kernel)
  simp only [Bool.and_eq_true, decide_eq_true_eq, List.all_eq_true] at hm
  obtain ⟨⟨hstore, hhistory⟩, hcell⟩ := hm
  obtain ⟨-, hcells, -⟩ := locks_alternate (a := 2) hstart (visits_of_reach hreach) fun e he v hkind =>
    hstore e he (by rw [hkind]; rfl)
  obtain ⟨g, hg, halternates, hheld, hoffered⟩ := hcells 1 hcell
  cases hg
  rw [hhistory] at halternates hheld
  exact ⟨m, hreach, hhistory, halternates, hcell, hheld.mpr rfl, hoffered (hheld.mpr rfl)⟩

end Machine

end Interleave
