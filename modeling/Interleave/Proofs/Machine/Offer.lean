import Interleave.Proofs.Commuting
import Interleave.Proofs.Machine.Operation

/-! # What a machine offers

The candidates of a machine, one process at a time.  A thread that is not finished stands at an
operation (`Thread.upcoming`), which is offered unless it has to wait (`Machine.admits`); the head of
a buffer can always be flushed.  `Machine.mem_candidates` says that nothing else is offered.

The further course of a machine does not depend on everything it holds.  Its `core` forgets the
events, the errors, the log and the memory graph, and with the graph the nodes of waiting stores. -/

namespace Interleave

/-! ### The core of a machine -/

/-- A waiting store without its node. -/
def Pending.bare (b : Pending) : Pending := { b with node := 0 }

@[simp] theorem Pending.bare_bare (b : Pending) : b.bare.bare = b.bare := rfl

/-- A thread whose waiting stores have no nodes. -/
def Thread.bare (th : Thread) : Thread := { th with buffer := th.buffer.map Pending.bare }

/-- What the further course of a machine depends on: its memory, and of every thread the function,
the position, the registers, whether it is finished, and the addresses, values and sites of its
waiting stores. -/
def Machine.core (m : Machine) : Machine := ⟨m.memory, m.threads.map Thread.bare, [], [], .empty, []⟩

namespace Thread

variable (s : Setup) (th : Thread)

@[simp] theorem bare_bare : th.bare.bare = th.bare := by
  simp [bare, Function.comp_def]

@[simp] theorem isDone_bare : th.bare.isDone = th.isDone := by simp [bare, isDone]

@[simp] theorem reg_bare : th.bare.reg = th.reg := rfl

@[simp] theorem value_bare : th.bare.value = th.value := by
  funext v
  cases v <;> rfl

@[simp] theorem operation_bare (i : Instr Nat) : th.bare.operation i = th.operation i := by
  have haddress : th.bare.address = th.address := by
    funext l
    cases l <;> rfl
  cases i <;> simp [operation, haddress]

theorem forwarded_bare (a : Addr) : th.bare.forwarded a = (th.forwarded a).map Pending.bare := by
  simp only [forwarded, bare, ← List.map_reverse, List.find?_map]
  rfl

/-- The operation that the thread stands at, if it is not finished. -/
def upcoming : Except Stop (Option Operation) := do
  if th.finished then return none
  let f ← s.function th.function
  match f.body[th.pc]? with
  | none => return none
  | some i => th.operation i

/-- It can be told which operation the thread stands at. -/
def Ready : Prop := ∃ op?, th.upcoming s = .ok op?

@[simp] theorem upcoming_bare : th.bare.upcoming s = th.upcoming s := by
  simp only [upcoming, operation_bare]
  rfl

/-- The thread with another buffer. -/
abbrev withBuffer (buffer : List Pending) (th : Thread) : Thread := { th with buffer := buffer }

@[simp] theorem upcoming_withBuffer (buffer : List Pending) :
    (th.withBuffer buffer).upcoming s = th.upcoming s := rfl

theorem of_upcoming {op : Operation} (h : th.upcoming s = .ok (some op)) :
    th.finished = false ∧ ∃ f i, s.function th.function = .ok f ∧ f.body[th.pc]? = some i ∧
      th.operation i = .ok (some op) := by
  unfold upcoming at h
  cases hfin : th.finished with
  | true => simp [hfin] at h
  | false =>
      refine ⟨rfl, ?_⟩
      cases hf : s.function th.function with
      | error why => simp [hfin, hf] at h
      | ok f =>
          cases hi : f.body[th.pc]? with
          | none => simp [hfin, hf, hi] at h
          | some i =>
              refine ⟨f, i, rfl, hi, ?_⟩
              simpa [hfin, hf, hi] using h

end Thread

namespace Machine

variable {s : Setup} {m : Machine} {t : Nat} {th : Thread} {c d : Candidate}
  {cs : List Candidate}

@[simp] theorem memory_core (m : Machine) : m.core.memory = m.memory := rfl

@[simp] theorem threads_core (m : Machine) : m.core.threads = m.threads.map Thread.bare := rfl

@[simp] theorem core_core (m : Machine) : m.core.core = m.core := by
  simp [core, Function.comp_def]

@[simp] theorem cell?_core (m : Machine) (a : Addr) : m.core.cell? a = m.cell? a := rfl

@[simp] theorem read_core (m : Machine) (i : Nat) : m.core.read i = m.read i := rfl

@[simp] theorem joinee?_core (m : Machine) (t : Nat) (v : Int64) :
    m.core.joinee? t v = m.joinee? t v := by
  simp [joinee?]

@[simp] theorem isDone_core (m : Machine) : m.core.isDone = m.isDone := by
  simp [isDone, List.all_map, Function.comp_def]

/-! ### The candidates -/

/-- The candidate by which thread number `t`, which is `th`, is offered for an operation, unless it
has to wait. -/
def admits (s : Setup) (m : Machine) (t : Nat) (th : Thread) (op : Operation) : Option Candidate :=
  (m.announce s t op).bind fun a =>
    if s.buffered && a.drains && !th.buffer.isEmpty then none else some ⟨.thread t, a⟩

theorem admits_eq_some {op : Operation} : m.admits s t th op = some c ↔
    m.announce s t op = some c.access ∧ c.proc = .thread t ∧
      (s.buffered && c.access.drains && !th.buffer.isEmpty) = false := by
  obtain ⟨p, a⟩ := c
  unfold admits
  cases m.announce s t op with
  | none => simp
  | some b =>
      rw [Option.bind_some]
      constructor
      · intro h
        split at h
        · cases h
        · cases h
          exact ⟨rfl, rfl, Bool.eq_false_iff.mpr ‹¬_›⟩
      · rintro ⟨hb, rfl, hdrain⟩
        cases hb
        simp only [hdrain, Bool.false_eq_true, if_false]

/-- A thread with a buffer is admitted to an operation that drains it only if nothing waits there. -/
theorem buffer_of_drains {op : Operation} (hs : s.buffered = true) (hadm : m.admits s t th op = some c)
    (hdrains : c.access.drains = true) : th.buffer = [] := by
  obtain ⟨-, -, hdrained⟩ := admits_eq_some.mp hadm
  simpa [hs, hdrains] using hdrained

theorem announce_eq_some {op : Operation} {a : Access} (h : m.announce s t op = some a) :
    match op with
    | .load _ x => a = .read x
    | .store x _ => a = if s.buffered then .enqueue x else .write x
    | .fence => a = .fence
    | .spawn _ _ => a = .spawn m.threads.length
    | .join _ => a = .fence ∨ ∃ j, a = .join j
    | .lock x => a = .lock x
    | .unlock x => a = .unlock x := by
  cases op with
  | join v =>
      simp only [announce] at h
      split at h
      · split at h
        · exact .inr ⟨_, (Option.some.inj h).symm⟩
        · cases h
      · exact .inl (Option.some.inj h).symm
  | lock x =>
      simp only [announce] at h
      split at h
      · split at h
        · exact (Option.some.inj h).symm
        · cases h
      · exact (Option.some.inj h).symm
  | _ => exact (Option.some.inj h).symm

/-- A process is offered with its next operation. -/
inductive Offered (s : Setup) (m : Machine) : Candidate → Prop
  | thread {t : Nat} {th : Thread} {op : Operation} {c : Candidate}
      (thread : m.threads[t]? = some th) (upcoming : th.upcoming s = .ok (some op))
      (admitted : m.admits s t th op = some c) : Offered s m c
  | flush {t : Nat} {th : Thread} {b : Pending}
      (thread : m.threads[t]? = some th) (head : th.buffer.head? = some b) :
      Offered s m ⟨.flush t, .write b.addr⟩

theorem offer_eq (s : Setup) (m : Machine) (t : Nat) (th : Thread) :
    m.offer s t th = (th.upcoming s).map fun op? => op?.bind (m.admits s t th) := by
  unfold offer Thread.upcoming
  cases th.finished with
  | true => rfl
  | false =>
      cases s.function th.function with
      | error why => rfl
      | ok f =>
          simp only [Bool.false_eq_true, if_false, ok_bind]
          cases f.body[th.pc]? with
          | none => rfl
          | some i =>
              simp only [accessOf_eq]
              cases th.operation i with
              | error why => rfl
              | ok op? =>
                  cases op? with
                  | none => rfl
                  | some op =>
                      simp only [Except.map, ok_bind, Option.bind_some, admits]
                      cases m.announce s t op with
                      | none => rfl
                      | some a =>
                          simp only [Option.bind_some, pure_eq_ok]
                          split <;> rfl

/-- The candidates of a machine whose threads can all be asked: one for each thread that does not
have to wait, then one for each buffer that is not empty. -/
def offered (s : Setup) (m : Machine) : List Candidate :=
  (m.threads.zipIdx.filterMap fun (th, t) =>
    ((th.upcoming s).toOption.join).bind (m.admits s t th)) ++ m.flushes

theorem mem_offered : c ∈ m.offered s ↔ m.Offered s c := by
  simp only [offered, flushes, List.mem_append, List.mem_filterMap, Prod.exists,
    List.mem_zipIdx_iff_getElem?, Option.map_eq_some_iff]
  constructor
  · rintro (⟨th, t, hth, hc⟩ | ⟨th, t, hth, b, hb, rfl⟩)
    · obtain ⟨op, hop, hc⟩ := Option.bind_eq_some_iff.mp hc
      cases hup : th.upcoming s with
      | error why => simp [hup, Except.toOption] at hop
      | ok op? =>
          obtain rfl : op? = some op := by simpa [hup, Except.toOption] using hop
          exact .thread hth hup hc
    · exact .flush hth hb
  · intro h
    cases h with
    | @thread t th op _ hth hup hc =>
        exact .inl ⟨th, t, hth, by simpa [hup, Except.toOption] using hc⟩
    | @flush t th b hth hb => exact .inr ⟨th, t, hth, b, hb, rfl⟩

theorem toOption_offer : (m.offer s t th).toOption.join =
    ((th.upcoming s).toOption.join).bind (m.admits s t th) := by
  rw [offer_eq]
  cases th.upcoming s with
  | error why => rfl
  | ok op? => cases op? <;> rfl

theorem ready_iff_offer : th.Ready s ↔ ∃ o, m.offer s t th = .ok o := by
  rw [offer_eq, Thread.Ready]
  cases th.upcoming s with
  | error why => simp [Except.map]
  | ok op? => simp [Except.map]

theorem candidates_eq_ok :
    m.candidates s = .ok cs ↔ (∀ th ∈ m.threads, th.Ready s) ∧ cs = m.offered s := by
  have hready : (∀ x ∈ m.threads.zipIdx, ∃ o, m.offer s x.2 x.1 = .ok o) ↔
      ∀ th ∈ m.threads, th.Ready s := by
    simp only [← ready_iff_offer]
    constructor
    · intro h th hth
      obtain ⟨t, ht⟩ := List.mem_iff_getElem?.mp hth
      exact h (th, t) (List.mem_zipIdx_iff_getElem?.mpr ht)
    · intro h x hx
      exact h x.1 (List.mem_of_getElem? (List.mem_zipIdx_iff_getElem?.mp hx))
  have hoffered : (m.threads.zipIdx.filterMap fun x => (m.offer s x.2 x.1).toOption).filterMap id
      ++ m.flushes = m.offered s := by
    simp only [List.filterMap_filterMap, offered, ← toOption_offer]
    rfl
  rw [← hready, ← hoffered, candidates]
  cases hmap : m.threads.zipIdx.mapM fun x => m.offer s x.2 x.1 with
  | error why =>
      have hnone : ¬ ∀ x ∈ m.threads.zipIdx, ∃ o, m.offer s x.2 x.1 = .ok o := by
        intro h
        rw [mapM_eq_ok.mpr ⟨h, rfl⟩] at hmap
        cases hmap
      constructor
      · intro h
        cases h
      · intro h
        exact absurd h.1 hnone
  | ok os =>
      obtain ⟨hall, rfl⟩ := mapM_eq_ok.mp hmap
      constructor
      · intro h
        cases h
        exact ⟨hall, rfl⟩
      · rintro ⟨-, rfl⟩
        rfl

theorem candidates_eq_error {why : Stop} : m.candidates s = .error why ↔
    (m.threads.filterMap fun th => errorOf? (th.upcoming s)).head? = some why := by
  have hoffer : (m.threads.zipIdx.filterMap fun x => errorOf? (m.offer s x.2 x.1)) =
      m.threads.filterMap fun th => errorOf? (th.upcoming s) := by
    have herror : ∀ x : Thread × Nat,
        errorOf? (m.offer s x.2 x.1) = errorOf? (x.1.upcoming s) := by
      intro x
      rw [offer_eq]
      cases x.1.upcoming s <;> rfl
    simp only [herror]
    conv_rhs => rw [← List.zipIdx_map_fst 0 m.threads, List.filterMap_map]
    rfl
  rw [← hoffer, ← mapM_eq_error, candidates]
  cases m.threads.zipIdx.mapM fun x => m.offer s x.2 x.1 with
  | error why' => simp
  | ok os => simp

theorem mem_candidates (h : m.candidates s = .ok cs) : c ∈ cs ↔ m.Offered s c := by
  rw [(candidates_eq_ok.mp h).2, mem_offered]

theorem nodup_offered (s : Setup) (m : Machine) : (procs (m.offered s)).Nodup := by
  refine List.pairwise_map.mpr (List.pairwise_append.mpr ⟨?_, ?_, ?_⟩)
  · refine (pairwise_zipIdx m.threads).filterMap _ ?_
    rintro ⟨th, t⟩ ⟨th', t'⟩ hlt c hc d hd
    obtain ⟨op, -, hc⟩ := Option.bind_eq_some_iff.mp hc
    obtain ⟨op', -, hd⟩ := Option.bind_eq_some_iff.mp hd
    rw [(admits_eq_some.mp hc).2.1, (admits_eq_some.mp hd).2.1]
    simpa using hlt.ne
  · refine (pairwise_zipIdx m.threads).filterMap _ ?_
    rintro ⟨th, t⟩ ⟨th', t'⟩ hlt c hc d hd
    obtain ⟨b, -, rfl⟩ := Option.map_eq_some_iff.mp hc
    obtain ⟨b', -, rfl⟩ := Option.map_eq_some_iff.mp hd
    simpa using hlt.ne
  · intro c hc d hd
    obtain ⟨⟨th, t⟩, -, hc⟩ := List.mem_filterMap.mp hc
    obtain ⟨op, -, hc⟩ := Option.bind_eq_some_iff.mp hc
    obtain ⟨⟨th', t'⟩, -, hd⟩ := List.mem_filterMap.mp hd
    obtain ⟨b, -, rfl⟩ := Option.map_eq_some_iff.mp hd
    rw [(admits_eq_some.mp hc).2.1]
    simp

/-! ### What is offered depends on the core only -/

theorem announce_core (s : Setup) (m : Machine) (t : Nat) (op : Operation) :
    m.core.announce s t op = m.announce s t op := by
  cases op with
  | spawn d f => simp [announce]
  | join v =>
      simp only [announce, joinee?_core, threads_core, List.getElem?_map, Option.map_map]
      simp [Function.comp_def]
  | _ => rfl

theorem admits_core (s : Setup) (m : Machine) (t : Nat) (th : Thread) (op : Operation) :
    m.core.admits s t th.bare op = m.admits s t th op := by
  simp [admits, announce_core, Thread.bare]

theorem offered_core (s : Setup) (m : Machine) : m.core.offered s = m.offered s := by
  simp only [offered, flushes, threads_core, List.zipIdx_map, List.filterMap_map]
  congr 1
  · refine List.filterMap_congr fun x _ => ?_
    simp only [Function.comp_apply, Prod.map, id_eq, Thread.upcoming_bare]
    congr 1
    funext op
    exact admits_core s m x.2 x.1 op
  · refine List.filterMap_congr fun x _ => ?_
    cases hb : x.1.buffer <;> simp [Thread.bare, Pending.bare, hb]

end Machine

end Interleave
