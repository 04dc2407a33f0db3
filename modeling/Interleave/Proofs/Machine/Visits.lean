import Interleave.Proofs.Machine.Run
import Interleave.Proofs.Memory.Serial

/-! # The states that a run passes, and runs that are robust

`Machine.Visits` lists the states that an execution can pass, whatever is chosen among the candidates:
those between two steps, those in which the threads come to rest, and those in which an error stops
them.  The run loop under a scheduler that chooses among the candidates ends in such a state
(`Machine.visits_runLoop`).

If no load is executed while a store of its own thread waits, then the memory accesses of the run
become visible one by one, and its memory graph has no cycle (`Machine.findCycle_eq_none_of_prompt`).
This covers all runs without buffers, and all runs that drain the buffer between every store and
the next load of its thread. -/

namespace Interleave

open Memory

theorem buffers_settleFrom (s : Setup) (t : Nat) (ths : List Thread) :
    (settleFrom s t ths).1.map Thread.buffer = ths.map Thread.buffer := by
  induction ths generalizing t with
  | nil => rfl
  | cons th ths ih =>
      rw [settleFrom]
      cases (runLocal s t th).stop with
      | some why => simp [buffer_runLocal]
      | none => simp [buffer_runLocal, ih]

/-- Between every store that enters a buffer and the next load of its thread stands an operation that
drains the buffer. -/
def Event.fenced : List Event → Bool
  | [] => true
  | e :: es =>
    (!e.kind.access.isEnqueue ||
      (es.takeWhile fun f => !(f.proc == e.proc && f.kind.access.drains)).all fun f =>
        !(f.proc == e.proc && f.kind.access.isRead)) && fenced es

namespace Machine

variable {s : Setup} {m₀ m m' m₁ : Machine} {c : Candidate} {entry t : Nat} {e : Event}

/-- The states that an execution from `m₀` passes when at each scheduling point a candidate is chosen
that is allowed there. -/
inductive Visits (s : Setup) (m₀ : Machine) (allowed : Machine → Candidate → Prop) : Machine → Prop
  | start : Visits s m₀ allowed m₀
  /-- The threads come to rest, or one of them stops. -/
  | settle {m : Machine} (visits : Visits s m₀ allowed m) : Visits s m₀ allowed (m.settle s).1
  /-- At the next scheduling point a candidate takes its step. -/
  | step {m m₁ m₂ : Machine} {c : Candidate} (visits : Visits s m₀ allowed m)
      (rest : m.rest s = .ok m₁) (offered : m₁.Offered s c) (permitted : allowed m₁ c)
      (steps : m₁.step s c.proc = .ok m₂) : Visits s m₀ allowed m₂
  /-- The scheduler remarks something. -/
  | remark {m : Machine} (visits : Visits s m₀ allowed m) (log : List LogRecord) :
      Visits s m₀ allowed { m with log }

/-- Anything that is offered may be chosen. -/
abbrev Unrestricted (_ : Machine) (_ : Candidate) : Prop := True

/-- A load is chosen only if the buffer of its thread is empty. -/
def ReadsPromptly (m : Machine) (c : Candidate) : Prop :=
  c.access.isRead = true → Thread.bufferAt m.threads c.proc.owner = []

/-! ### Runs under a scheduler -/

theorem settle_of_rest (h : m.rest s = .ok m₁) : (m.settle s).1 = m₁ := by
  unfold rest at h
  split at h
  · cases h
  · rename_i m₂ hsettle
    rw [hsettle]
    cases hcs : m₂.candidates s with
    | error why => simp [hcs] at h
    | ok cs => simpa [hcs] using h

theorem visits_runLoop {σ : Type} [Scheduler σ]
    (hchooses : ∀ (q q' : σ) cs p, Scheduler.schedule q cs = (.run p, q') → p ∈ procs cs)
    (fuel : Nat) (q : σ) (h : Visits s m₀ Unrestricted m) :
    Visits s m₀ Unrestricted (m.runLoop s fuel q).2.1 := by
  induction fuel generalizing m q with
  | zero => exact h
  | succ fuel ih =>
      rw [runLoop]
      have hsettle := h.settle
      cases hsettled : m.settle s with
      | mk m₁ stop =>
      rw [hsettled] at hsettle
      cases stop with
      | some why => exact hsettle
      | none =>
          simp only at hsettle ⊢
          cases hcs : m₁.candidates s with
          | error why => exact hsettle
          | ok cs =>
              have hrest : m.rest s = .ok m₁ := by simp only [rest, hsettled, hcs, ok_bind, pure_eq_ok]
              cases cs with
              | nil =>
                  simp only
                  split
                  · exact hsettle
                  · split <;> exact hsettle
              | cons c cs =>
                  simp only
                  split
                  · rename_i p q' hp
                    obtain ⟨d, hd, rfl⟩ := List.mem_map.mp (hchooses _ _ _ _ hp)
                    cases hstep : m₁.step s d.proc with
                    | error why => exact hsettle
                    | ok m₂ => exact ih _ (h.step hrest ((mem_candidates hcs).mp hd) trivial hstep)
                  · exact hsettle
                  · exact hsettle.remark _

theorem visits_of_reach {ps : List Proc} (h : m₀.reach s ps = .ok m) :
    Visits s m₀ Unrestricted m := by
  have hpasses : ∃ m₁, Visits s m₀ Unrestricted m₁ ∧ m₁.rest s = .ok m := by
    refine (reach_invariant (P := fun m => ∃ m₁, Visits s m₀ Unrestricted m₁ ∧ m₁.rest s = .ok m)
      (fun _ hrest => ⟨m₀, .start, hrest⟩) ?_ h).2
    rintro m₁ m₂ c - ⟨m, hvisits, hrest⟩ hc hturn
    unfold turn at hturn
    cases hstep : m₁.step s c.proc with
    | error why => simp [hstep] at hturn
    | ok m₁' =>
        rw [hstep] at hturn
        exact ⟨m₁', hvisits.step hrest hc trivial hstep, hturn⟩
  obtain ⟨m₁, hvisits, hrest⟩ := hpasses
  exact settle_of_rest hrest ▸ hvisits.settle

/-! ### What the events tell of a visited state -/

theorem bufferAt_settle (s : Setup) (m : Machine) (t : Nat) :
    Thread.bufferAt (m.settle s).1.threads t = Thread.bufferAt m.threads t := by
  unfold Thread.bufferAt
  rw [← List.getElem?_map, ← List.getElem?_map]
  exact congrArg (fun buffers => (buffers[t]?).getD []) (buffers_settleFrom s 0 m.threads)

theorem Told.settle (h : m.Told) : (m.settle s).1.Told := by
  refine ⟨h.graph, fun t => ?_, fun t b hb => ?_⟩
  · rw [bufferAt_settle]
    exact h.waiting t
  · rw [bufferAt_settle] at hb
    exact h.addr t b hb

theorem told_start (h : start s entry = .ok m₀) : m₀.Told := by
  obtain ⟨th, -, heq⟩ := start_eq_ok h
  exact told_of_start (by rw [heq]) (by rw [heq]) (buffers_start h)

theorem bufferAt_of_waiting (h : m.Told) (hw : (Ledger.ofEvents m.events).waiting t = []) :
    Thread.bufferAt m.threads t = [] := by
  rw [h.waiting] at hw
  exact List.map_eq_nil_iff.mp hw

/-- **What every step preserves holds of the events in every visited state**, the memory graph being
the one that the events tell of. -/
theorem Visits.invariant {allowed : Machine → Candidate → Prop} {P : List Event → Prop}
    (hstart : Machine.start s entry = .ok m₀) (h : Visits s m₀ allowed m) (hnil : P [])
    (hstep : ∀ m c e, m.Told → m.Offered s c → allowed m c → e.candidate = c → P m.events →
      P (m.events ++ [e])) : m.Told ∧ P m.events := by
  induction h with
  | start =>
      refine ⟨told_start hstart, ?_⟩
      obtain ⟨th, -, rfl⟩ := start_eq_ok hstart
      exact hnil
  | settle _ ih => exact ⟨ih.1.settle, ih.2⟩
  | @step m m₁ m₂ c _ hrest hc hallowed hm₂ ih =>
      obtain ⟨e, he, hevents, -⟩ := (moves_step s).events trivial hc hm₂
      have htold := ih.1.rest hrest
      refine ⟨htold.step hm₂, ?_⟩
      rw [hevents]
      refine hstep m₁ c e htold hc hallowed he ?_
      rw [← settle_of_rest hrest]
      exact ih.2
  | remark _ log ih => exact ⟨⟨ih.1.graph, ih.1.waiting, ih.1.addr⟩, ih.2⟩

/-- **What every step preserves holds in every visited state**, if it holds at the start and neither
thread-local instructions nor remarks affect it. -/
theorem Visits.preserves {allowed : Machine → Candidate → Prop} {P : Machine → Prop}
    (h : Visits s m₀ allowed m) (hstart : P m₀) (hsettle : ∀ m, P m → P (m.settle s).1)
    (hremark : ∀ m log, P m → P { m with log })
    (hstep : ∀ m c m', P m → m.Offered s c → m.step s c.proc = .ok m' → P m') : P m := by
  induction h with
  | start => exact hstart
  | settle _ ih => exact hsettle _ ih
  | @step m m₁ m₂ c _ hrest hc _ hm₂ ih =>
      have hm₁ := hsettle m ih
      rw [settle_of_rest hrest] at hm₁
      exact hstep m₁ c m₂ hm₁ hc hm₂
  | remark _ log ih => exact hremark _ log ih

theorem Visits.length_memory {allowed : Machine → Candidate → Prop}
    (hstart : Machine.start s entry = .ok m₀) (h : Visits s m₀ allowed m) :
    m.memory.length = s.program.globals.length := by
  refine h.preserves (P := fun m => m.memory.length = s.program.globals.length) ?_ (fun _ hm => hm)
    (fun _ _ hm => hm) (fun m c m' hm _ hstep => ?_)
  · obtain ⟨th, -, rfl⟩ := start_eq_ok hstart
    exact List.length_map _
  · obtain ⟨k, -, hbehind⟩ := (moves_step s).behind_of_ok trivial hstep
    have hmemory := (core_eq_iff.mp hbehind.core).1
    rw [hmemory, ← hm]
    exact k.length_memory m.memory

/-- Other conditions on the choices will do if the run meets them. -/
theorem Visits.restrict {allowed allowed' : Machine → Candidate → Prop} (h : Visits s m₀ allowed m)
    (hmeets : ∀ m₁ c e, Visits s m₀ allowed m₁ → m₁.Offered s c → e.candidate = c →
      m₁.events ++ [e] <+: m.events → allowed' m₁ c) : Visits s m₀ allowed' m := by
  induction h with
  | start => exact .start
  | settle _ ih => exact (ih hmeets).settle
  | @step m m₁ m₂ c hvisits hrest hc _ hstep ih =>
      obtain ⟨e, he, hevents, -⟩ := (moves_step s).events trivial hc hstep
      have hsettle := settle_of_rest hrest
      have hm : m.events <+: m₂.events := by
        rw [hevents, ← hsettle]
        exact List.prefix_append _ _
      have hallowed := hmeets m₁ c e (hsettle ▸ hvisits.settle) hc he (hevents ▸ List.prefix_rfl)
      exact (ih fun m₃ d f hm₃ hd hf hle => hmeets m₃ d f hm₃ hd hf (hle.trans hm)).step hrest hc
        hallowed hstep
  | remark _ log ih => exact (ih hmeets).remark log

/-! ### Stores that wait -/

theorem Offered.drained (hc : m.Offered s c) (hs : s.buffered = true)
    (hdrains : c.access.drains = true) : Thread.bufferAt m.threads c.proc.owner = [] := by
  cases hc with
  | @thread t th op _ hth hup hadm =>
      rw [(admits_eq_some.mp hadm).2.1, show (Proc.thread t).owner = t from rfl,
        Thread.bufferAt_of_getElem? hth]
      exact buffer_of_drains hs hadm hdrains
  | flush => cases hdrains

/-- The last store of thread number `t` that waited has not been followed by an operation that drains
its buffer. -/
def Unfenced (es : List Event) (t : Nat) : Prop :=
  ∃ before e between, es = before ++ e :: between ∧ e.proc = .thread t ∧
    e.kind.access.isEnqueue = true ∧
    ∀ f ∈ between, f.proc = .thread t → f.kind.access.drains = false

/-- Without buffers nothing waits, and with them only what no fence has been behind. -/
structure Pends (s : Setup) (es : List Event) : Prop where
  buffered : s.buffered = false → ∀ t, (Ledger.ofEvents es).waiting t = []
  unfenced : ∀ t, (Ledger.ofEvents es).waiting t ≠ [] → Unfenced es t

theorem pends_nil (s : Setup) : Pends s [] :=
  ⟨fun _ _ => rfl, fun _ h => (h rfl).elim⟩

theorem Pends.concat (h : Pends s m.events) (htold : m.Told) (hc : m.Offered s c)
    (he : e.candidate = c) : Pends s (m.events ++ [e]) := by
  have hproc : e.proc = c.proc := congrArg Candidate.proc he
  have haccess : e.kind.access = c.access := congrArg Candidate.access he
  refine ⟨fun hs t => ?_, fun t ht => ?_⟩
  · rw [Ledger.ofEvents_concat]
    refine Ledger.waitingBehind_eq_nil (h.buffered hs t) fun _ => ?_
    by_contra henq
    rw [haccess, Bool.not_eq_false] at henq
    rw [buffered_of_enqueue hc henq] at hs
    cases hs
  · by_cases henq : e.proc = .thread t ∧ e.kind.access.isEnqueue = true
    · exact ⟨m.events, e, [], rfl, henq.1, henq.2, fun f hf => by cases hf⟩
    · have hwaiting : (Ledger.ofEvents m.events).waiting t ≠ [] := by
        intro hnil
        rw [Ledger.ofEvents_concat] at ht
        refine ht (Ledger.waitingBehind_eq_nil hnil fun hp => ?_)
        simpa [hp] using henq
      obtain ⟨before, f, between, hevents, hp, hf, hno⟩ := h.unfenced t hwaiting
      refine ⟨before, f, between ++ [e], by simp [hevents], hp, hf, fun g hg hgp => ?_⟩
      rcases List.mem_append.mp hg with hg | hg
      · exact hno g hg hgp
      · rw [List.mem_singleton.mp hg] at hgp ⊢
        by_contra hdrains
        rw [haccess, Bool.not_eq_false] at hdrains
        have hs : s.buffered = true := by
          by_contra hs
          exact hwaiting (h.buffered (by simpa using hs) t)
        have hnil := hc.drained hs hdrains
        rw [← hproc, hgp] at hnil
        apply hwaiting
        rw [htold.waiting, show Thread.bufferAt m.threads t = [] from hnil]
        rfl

theorem Visits.pends {allowed : Machine → Candidate → Prop} (hstart : Machine.start s entry = .ok m₀)
    (h : Visits s m₀ allowed m) : m.Told ∧ Pends s m.events :=
  h.invariant hstart (pends_nil s) fun _ _ _ htold hc _ he hpends => hpends.concat htold hc he

/-! ### Prompt runs -/

theorem Offered.thread_of_isRead (hc : m.Offered s c) (h : c.access.isRead = true) :
    ∃ t, c.proc = .thread t := by
  cases hc with
  | thread _ _ hadm => exact ⟨_, (admits_eq_some.mp hadm).2.1⟩
  | flush => cases h

theorem Offered.unbuffered_of_write (hc : m.Offered s c) {a : Addr} (hp : c.proc = .thread t)
    (ha : c.access = .write a) : s.buffered = false := by
  cases hc with
  | flush => cases hp
  | @thread _ th op _ hth hup hadm =>
      have hannounce := (admits_eq_some.mp hadm).1
      rw [ha] at hannounce
      have hspec := announce_eq_some hannounce
      cases op with
      | store b v =>
          by_contra hs
          rw [Bool.not_eq_false] at hs
          simp [hs] at hspec
      | join v => rcases hspec with hspec | ⟨j, hspec⟩ <;> cases hspec
      | _ => cases hspec

theorem Offered.bufferAt_of_stores (hc : m.Offered s c) (hs : s.buffered = true) (he : e.candidate = c)
    {l : Ledger} {n : Node} (hn : l.node? e = some n) (henq : e.kind.access.isEnqueue = false)
    (hstores : n.action.stores = true) : Thread.bufferAt m.threads c.proc.owner = [] := by
  have haccess : c.access = e.kind.access := congrArg Candidate.access he.symm
  have hp : c.proc = .thread n.thread := by
    rw [← he]
    exact Ledger.proc_of_node? hn
  unfold Ledger.node? at hn
  split at hn
  · cases hn
    cases hstores
  · rename_i hk
    have hwrite := hc.unbuffered_of_write hp (haccess.trans (congrArg EventKind.access hk))
    rw [hs] at hwrite
    cases hwrite
  · rename_i hk
    rw [hk] at henq
    cases henq
  · rename_i hk
    exact hc.drained hs (by rw [haccess, hk]; rfl)
  · rename_i hk
    exact hc.drained hs (by rw [haccess, hk]; rfl)
  · cases hn

theorem isRead_of_node? {l : Ledger} {n : Node} (hn : l.node? e = some n)
    (hstores : n.action.stores = false) : e.kind.access.isRead = true := by
  unfold Ledger.node? at hn
  split at hn <;> cases hn
  · rename_i hk
    rw [hk]
    rfl
  all_goals cases hstores

/-- An access that reads promptly overtakes no store of its own thread. -/
theorem Offered.prompt (hc : m.Offered s c) (htold : m.Told) (hpends : Pends s m.events)
    (hread : m.ReadsPromptly c) (he : e.candidate = c) : (Ledger.ofEvents m.events).Prompt e := by
  have haccess : c.access = e.kind.access := congrArg Candidate.access he.symm
  intro n hn henq
  have howner : c.proc.owner = n.thread := by
    rw [← he]
    exact congrArg Proc.owner (Ledger.proc_of_node? hn)
  by_cases hs : s.buffered = false
  · exact hpends.buffered hs _
  rw [Bool.not_eq_false] at hs
  rw [htold.waiting, List.map_eq_nil_iff, ← howner]
  cases hstores : n.action.stores with
  | true => exact hc.bufferAt_of_stores hs he hn henq hstores
  | false => exact hread (haccess ▸ isRead_of_node? hn hstores)

/-- The accesses of a run that reads promptly become visible one by one. -/
theorem Visits.serial (hstart : Machine.start s entry = .ok m₀) (h : Visits s m₀ ReadsPromptly m) :
    m.Told ∧ ∃ visible, (Ledger.ofEvents m.events).Serial visible := by
  have hinv := h.invariant hstart
    (P := fun es => Pends s es ∧ ∃ visible, (Ledger.ofEvents es).Serial visible)
    ⟨pends_nil s, [], Ledger.serial_empty⟩ ?_
  · exact ⟨hinv.1, hinv.2.2⟩
  · rintro m c e htold hc hread he ⟨hpends, visible, hserial⟩
    refine ⟨hpends.concat htold hc he, ?_⟩
    rw [Ledger.ofEvents_concat]
    exact hserial.record (hc.prompt htold hpends hread he)

theorem Visits.findCycle_eq_none (hstart : Machine.start s entry = .ok m₀)
    (h : Visits s m₀ ReadsPromptly m) : m.graph.findCycle = none := by
  obtain ⟨htold, visible, hserial⟩ := h.serial hstart
  rw [htold.findCycle_eq_none_iff]
  intro i hi
  exact Nat.lt_irrefl _ (hserial.increases.lt_of_transGen hi)

/-- Where stores reach memory at once, every load is prompt. -/
theorem Visits.readsPromptly_of_unbuffered (hstart : Machine.start s entry = .ok m₀)
    (hs : s.buffered = false) (h : Visits s m₀ Unrestricted m) : Visits s m₀ ReadsPromptly m := by
  refine h.restrict fun m₁ c e hvisits _ _ _ _ => ?_
  obtain ⟨htold, hpends⟩ := hvisits.pends hstart
  exact bufferAt_of_waiting htold (hpends.buffered hs _)

theorem fenced_of_append {es es' : List Event} (h : Event.fenced (es ++ es') = true) :
    Event.fenced es' = true := by
  induction es with
  | nil => exact h
  | cons e es ih =>
      rw [List.cons_append, Event.fenced, Bool.and_eq_true] at h
      exact ih h.2

/-- In a fenced run no load comes while a store of its thread waits for a fence. -/
theorem not_unfenced {es behind : List Event} {f : Event}
    (h : Event.fenced (es ++ f :: behind) = true) (hp : f.proc = .thread t)
    (hf : f.kind.access.isRead = true) : ¬ Unfenced es t := by
  rintro ⟨before, e, between, rfl, he, henq, hno⟩
  rw [List.append_assoc] at h
  have h := fenced_of_append h
  rw [List.cons_append, Event.fenced, Bool.and_eq_true, henq, Bool.not_true, Bool.false_or] at h
  have hbetween : ∀ g ∈ between, (!(g.proc == e.proc && g.kind.access.drains)) = true := by
    intro g hg
    by_cases hgp : g.proc = .thread t
    · simp [hno g hg hgp]
    · simp [he, hgp]
  have hdrains : f.kind.access.drains = false := by
    cases hk : f.kind.access with
    | read a => rfl
    | _ => simp [hk, Access.isRead] at hf
  have hmem : f ∈ (between ++ f :: behind).takeWhile
      fun g => !(g.proc == e.proc && g.kind.access.drains) := by
    rw [List.takeWhile_append_of_pos hbetween, List.takeWhile_cons_of_pos (by simp [hdrains])]
    simp
  have := List.all_eq_true.mp h.1 f hmem
  simp [hp, he, hf] at this

theorem Visits.readsPromptly_of_fenced (hstart : Machine.start s entry = .ok m₀)
    (h : Visits s m₀ Unrestricted m) (hfenced : Event.fenced m.events = true) : Visits s m₀ ReadsPromptly m := by
  refine h.restrict fun m₁ c e hvisits hc he hle hread => ?_
  obtain ⟨htold, hpends⟩ := hvisits.pends hstart
  obtain ⟨behind, hbehind⟩ := hle
  refine bufferAt_of_waiting htold ?_
  by_contra hwaiting
  rw [← hbehind, List.append_assoc] at hfenced
  obtain ⟨t, hp⟩ := hc.thread_of_isRead hread
  rw [hp] at hwaiting
  subst he
  exact not_unfenced hfenced hp hread (hpends.unfenced t hwaiting)

/-- **Runs that never read past their own waiting stores are robust.**  From the start of an execution,
in every state that it can pass: if each load is chosen while the buffer of its thread is empty, the
memory graph has no cycle.  So there is none, and no violation is reported, in any run without
buffers; and there is none in any run with a fence, a lock, an unlock or a spawn between every store and
the next load of its thread. -/
theorem findCycle_eq_none_of_prompt (hstart : start s entry = .ok m₀) :
    (Visits s m₀ ReadsPromptly m → m.graph.findCycle = none) ∧
    (s.buffered = false → Visits s m₀ Unrestricted m →
      m.graph.findCycle = none ∧ m.checkRobustness.1 = false) ∧
    (Visits s m₀ Unrestricted m → Event.fenced m.events = true → m.graph.findCycle = none) := by
  refine ⟨fun h => h.findCycle_eq_none hstart, fun hs h => ?_, fun h hfenced => ?_⟩
  · have hnone := (h.readsPromptly_of_unbuffered hstart hs).findCycle_eq_none hstart
    refine ⟨hnone, ?_⟩
    unfold checkRobustness
    rw [hnone]
    split <;> rfl
  · exact (h.readsPromptly_of_fenced hstart hfenced).findCycle_eq_none hstart

/-- Two threads store and then load what the other one stores, with a fence in between. -/
def fencedExchange (buffered : Bool) : Setup :=
  ⟨⟨"e", [⟨"x", 0⟩, ⟨"y", 0⟩],
    [⟨"other", ["b"], [.store (.global 1) (.imm 1), .fence, .load 0 (.global 0), .ret]⟩,
      ⟨"main", ["a", "t"],
        [.spawn 1 0, .store (.global 0) (.imm 1), .fence, .load 0 (.global 1), .ret]⟩]⟩,
    .standard, buffered, 10⟩

/-- The machine before the exchange. -/
def beforeExchange : Machine := ⟨[0, 0], [⟨1, 0, [0, 0], false, []⟩], [], [], .empty, []⟩

theorem findCycle_eq_none_of_prompt_exchange :
    (∃ m, beforeExchange.reach (fencedExchange true) [.thread 0, .thread 0, .thread 1, .flush 0,
        .thread 0, .thread 0, .flush 1, .thread 1, .thread 1] = .ok m ∧
      m.isDone = true ∧ Event.fenced m.events = true ∧
      Visits (fencedExchange true) beforeExchange ReadsPromptly m ∧ m.graph.findCycle = none) ∧
    ∃ m, beforeExchange.reach (fencedExchange false) [.thread 0, .thread 0, .thread 1, .thread 0,
        .thread 0, .thread 1, .thread 1] = .ok m ∧
      m.isDone = true ∧ m.graph.findCycle = none ∧ m.checkRobustness.1 = false := by
  have hstart : start (fencedExchange true) 1 = .ok beforeExchange := by decide
  have hstart' : start (fencedExchange false) 1 = .ok beforeExchange := by decide
  refine ⟨?_, ?_⟩
  · obtain ⟨m, hreach, hm⟩ := exists_of_any (x := beforeExchange.reach (fencedExchange true)
      [.thread 0, .thread 0, .thread 1, .flush 0, .thread 0, .thread 0, .flush 1, .thread 1, .thread 1])
      (p := fun m => m.isDone && Event.fenced m.events) (by decide +kernel)
    rw [Bool.and_eq_true] at hm
    have hvisits := visits_of_reach hreach
    have hprompt := hvisits.readsPromptly_of_fenced hstart hm.2
    exact ⟨m, hreach, hm.1, hm.2, hprompt, (findCycle_eq_none_of_prompt hstart).1 hprompt⟩
  · obtain ⟨m, hreach, hm⟩ := exists_of_any (x := beforeExchange.reach (fencedExchange false)
      [.thread 0, .thread 0, .thread 1, .thread 0, .thread 0, .thread 1, .thread 1])
      (p := Machine.isDone) (by decide +kernel)
    exact ⟨m, hreach, hm, (findCycle_eq_none_of_prompt hstart').2.1 rfl (visits_of_reach hreach)⟩

end Machine

end Interleave
