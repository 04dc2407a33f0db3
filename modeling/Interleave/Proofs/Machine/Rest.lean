import Interleave.Proofs.Machine.Independence

/-! # Machines at rest

Between two steps every thread runs through its thread-local instructions until it comes to rest.
Such a run neither looks at the buffer nor changes it (`runLocal_buffer`), and a thread at rest stays
where it is (`Thread.AtRest.runLocal_eq`).  So when one thread of a machine at rest takes a step, only
that thread and the thread it creates have something to run through. -/

namespace Interleave

namespace Thread

/-- The thread is finished, or its next instruction is visible. -/
def AtRest (s : Setup) (th : Thread) : Prop :=
  th.finished = true ∨ ∃ f i, s.function th.function = .ok f ∧ f.body[th.pc]? = some i ∧
    i.isVisible = true

theorem AtRest.runLocalFrom_eq {s : Setup} {th : Thread} (h : th.AtRest s) (t steps : Nat)
    (logged : List LogRecord) : runLocalFrom s t steps th logged = ⟨th, logged.reverse, none⟩ := by
  unfold runLocalFrom
  rcases h with hfin | ⟨f, i, hf, hi, hvis⟩
  · simp [hfin]
  · simp [hf, hi, hvis]

theorem AtRest.runLocal_eq {s : Setup} {th : Thread} (h : th.AtRest s) (t : Nat) :
    runLocal s t th = ⟨th, [], none⟩ := h.runLocalFrom_eq t _ _

theorem atRest_runLocalFrom {s : Setup} {t steps : Nat} {th : Thread} {logged : List LogRecord}
    (h : (runLocalFrom s t steps th logged).stop = none) :
    (runLocalFrom s t steps th logged).thread.AtRest s := by
  fun_induction runLocalFrom s t steps th logged with
  | case1 _ _ _ hfin => exact .inl hfin
  | case2 => cases h
  | case3 => exact .inl rfl
  | case4 _ _ _ _ f hf i hi hvis => exact .inr ⟨f, i, hf, hi, hvis⟩
  | case5 => cases h
  | case6 => cases h
  | case7 _ _ _ _ _ _ _ _ _ _ _ _ ih => exact ih h

theorem atRest_runLocal {s : Setup} {t : Nat} {th : Thread} (h : (runLocal s t th).stop = none) :
    (runLocal s t th).thread.AtRest s := atRest_runLocalFrom h

/-! ### Thread-local instructions and the buffer -/

section

variable (s : Setup) (t : Nat) (f : Function) (th : Thread) (buffer : List Pending)

theorem value_withBuffer (v : Operand) : (th.withBuffer buffer).value v = th.value v := by
  cases v <;> rfl

theorem setReg_withBuffer (d : Reg) (v : Int64) :
    (th.withBuffer buffer).setReg d v = (th.setReg d v).map (withBuffer buffer) := by
  simp only [setReg_eq]
  split <;> rfl

theorem callBuiltin_withBuffer (name : String) (args : List Operand) :
    (th.withBuffer buffer).callBuiltin s t f name args = th.callBuiltin s t f name args := by
  have hvalue : (th.withBuffer buffer).value = th.value := by
    funext v
    exact value_withBuffer th buffer v
  simp only [callBuiltin, hvalue]
  rfl

theorem execLocal_withBuffer (i : Instr Nat) : (th.withBuffer buffer).execLocal s t f i =
    (th.execLocal s t f i).map fun x => (x.1.withBuffer buffer, x.2) := by
  cases i with
  | mov d v =>
      simp only [execLocal, value_withBuffer, setReg_withBuffer]
      cases th.value v with
      | error why => rfl
      | ok x =>
          rw [ok_bind, ok_bind]
          cases th.setReg d x <;> rfl
  | bin op d l r =>
      simp only [execLocal, value_withBuffer, setReg_withBuffer]
      cases th.value l with
      | error why => rfl
      | ok x =>
          cases th.value r with
          | error why => rfl
          | ok y =>
              simp only [ok_bind]
              cases th.setReg d (op.apply x y) <;> rfl
  | addr d g =>
      simp only [execLocal, setReg_withBuffer]
      cases th.setReg d (Machine.globalAddr g).toInt64 <;> rfl
  | assert v =>
      simp only [execLocal, value_withBuffer]
      cases th.value v with
      | error why => rfl
      | ok x =>
          simp only [ok_bind]
          split
          · cases v.describe f <;> rfl
          · rfl
  | branch c z target =>
      simp only [execLocal, value_withBuffer]
      cases th.value c with
      | error why => rfl
      | ok x =>
          simp only [ok_bind]
          split <;> rfl
  | call name args =>
      simp only [execLocal, callBuiltin_withBuffer]
      cases th.callBuiltin s t f name args <;> rfl
  | _ => rfl

end

end Thread

/-! ### Thread-local instructions and the registers -/

theorem Thread.regs_setReg {th th' : Thread} {d : Reg} {v : Int64} (h : th.setReg d v = .ok th') :
    th'.function = th.function ∧ th'.regs.length = th.regs.length := by
  rw [setReg_eq] at h
  split at h
  · cases h
    exact ⟨rfl, List.length_set⟩
  · cases h

theorem Thread.regs_execLocal {s : Setup} {t : Nat} {f : Function} {th : Thread} {i : Instr Nat}
    {x : Thread × List LogRecord} (h : th.execLocal s t f i = .ok x) :
    x.1.function = th.function ∧ x.1.regs.length = th.regs.length := by
  cases i with
  | mov d v =>
      obtain ⟨y, -, h⟩ := exists_of_bind h
      obtain ⟨th', hset, h⟩ := exists_of_bind h
      cases h
      exact (regs_setReg hset :)
  | bin op d l r =>
      obtain ⟨y, -, h⟩ := exists_of_bind h
      obtain ⟨z, -, h⟩ := exists_of_bind h
      obtain ⟨th', hset, h⟩ := exists_of_bind h
      cases h
      exact (regs_setReg hset :)
  | addr d g =>
      obtain ⟨th', hset, h⟩ := exists_of_bind h
      cases h
      exact (regs_setReg hset :)
  | assert v =>
      obtain ⟨y, -, h⟩ := exists_of_bind h
      split at h
      · obtain ⟨text, -, h⟩ := exists_of_bind h
        cases h
      · cases h
        exact ⟨rfl, rfl⟩
  | branch c z target =>
      obtain ⟨y, -, h⟩ := exists_of_bind h
      split at h
      · cases h
        exact ⟨rfl, rfl⟩
      · cases h
        exact ⟨rfl, rfl⟩
  | call name args =>
      obtain ⟨out, -, h⟩ := exists_of_bind h
      cases h
      exact ⟨rfl, rfl⟩
  | _ =>
      cases h
      exact ⟨rfl, rfl⟩

theorem regs_runLocal (s : Setup) (t : Nat) (th : Thread) :
    (runLocal s t th).thread.function = th.function ∧
      (runLocal s t th).thread.regs.length = th.regs.length := by
  unfold runLocal
  generalize s.maxLocalSteps = steps
  generalize ([] : List LogRecord) = logged
  fun_induction runLocalFrom s t steps th logged with
  | case7 _ _ _ _ _ _ _ _ _ _ _ hexec ih =>
      obtain ⟨hfunction, hregs⟩ := Thread.regs_execLocal hexec
      exact ⟨ih.1.trans hfunction, ih.2.trans hregs⟩
  | _ => exact ⟨rfl, rfl⟩

/-- A run through thread-local instructions neither looks at the buffer nor changes it. -/
theorem runLocalFrom_withBuffer (s : Setup) (t steps : Nat) (th : Thread) (buffer : List Pending)
    (logged : List LogRecord) :
    runLocalFrom s t steps (th.withBuffer buffer) logged =
      { runLocalFrom s t steps th logged with
        thread := (runLocalFrom s t steps th logged).thread.withBuffer buffer } := by
  fun_induction runLocalFrom s t steps th logged with
  | case1 _ _ _ hfin =>
      unfold runLocalFrom
      simp [hfin]
  | case2 _ _ _ hfin why hf =>
      unfold runLocalFrom
      simp [hfin, hf]
  | case3 _ _ _ hfin f hf hi =>
      unfold runLocalFrom
      simp [hfin, hf, hi]
  | case4 _ _ _ hfin f hf i hi hvis =>
      unfold runLocalFrom
      simp [hfin, hf, hi, hvis]
  | case5 _ _ hfin f hf i hi hvis =>
      unfold runLocalFrom
      simp [hfin, hf, hi, hvis, Thread.site]
      rfl
  | case6 _ _ hfin f hf i hi hvis _ why hexec =>
      unfold runLocalFrom
      simp [hfin, hf, hi, hvis, Thread.execLocal_withBuffer, hexec, Except.map]
  | case7 _ _ hfin f hf i hi hvis _ th' out hexec ih =>
      rw [runLocalFrom]
      simp [hfin, hf, hi, hvis, Thread.execLocal_withBuffer, hexec, Except.map, ih]

theorem runLocal_withBuffer (s : Setup) (t : Nat) (th : Thread) (buffer : List Pending) :
    runLocal s t (th.withBuffer buffer) =
      { runLocal s t th with thread := (runLocal s t th).thread.withBuffer buffer } :=
  runLocalFrom_withBuffer s t _ th buffer []

theorem buffer_runLocal (s : Setup) (t : Nat) (th : Thread) :
    (runLocal s t th).thread.buffer = th.buffer :=
  congrArg (fun r => r.thread.buffer) (runLocal_withBuffer s t th th.buffer)

theorem runLocal_bare (s : Setup) (t : Nat) (th : Thread) : runLocal s t th.bare =
    { runLocal s t th with thread := (runLocal s t th).thread.bare } := by
  rw [Thread.bare, Thread.bare, buffer_runLocal]
  exact runLocal_withBuffer s t th _

namespace Machine

variable {s : Setup} {m m' : Machine} {t : Nat} {th : Thread} {k : Change} {why : Stop}

/-! ### All threads come to rest -/

/-- The threads behind their runs through thread-local instructions. -/
def ran (s : Setup) (m : Machine) : List Thread :=
  m.threads.zipIdx.map fun x => (runLocal s x.2 x.1).thread

/-- What keeps the machine from its next scheduling point: first the runs that stopped, then the
threads that cannot be asked for their operation. -/
def faults (s : Setup) (m : Machine) : List Stop :=
  (m.threads.zipIdx.filterMap fun x => (runLocal s x.2 x.1).stop) ++
    (m.ran s).filterMap fun th => errorOf? (th.upcoming s)

/-- Go on to the next scheduling point, at which the candidates are known. -/
def rest (s : Setup) (m : Machine) : Except Stop Machine :=
  match m.settle s with
  | (_, some why) => .error why
  | (m, none) => do
    let _ ← m.candidates s
    return m

/-- Every thread is at rest and can be asked for its operation. -/
def Calm (s : Setup) (m : Machine) : Prop := ∀ th ∈ m.threads, th.AtRest s ∧ th.Ready s

theorem settleFrom_eq (s : Setup) (t : Nat) (ths : List Thread) :
    (settleFrom s t ths).2.2 = ((ths.zipIdx t).filterMap fun x => (runLocal s x.2 x.1).stop).head? ∧
    ((settleFrom s t ths).2.2 = none →
      (settleFrom s t ths).1 = (ths.zipIdx t).map fun x => (runLocal s x.2 x.1).thread) := by
  induction ths generalizing t with
  | nil => simp [settleFrom]
  | cons th ths ih =>
      obtain ⟨hstop, hthreads⟩ := ih (t + 1)
      rw [List.zipIdx_cons, List.filterMap_cons, List.map_cons, settleFrom]
      cases hrun : (runLocal s t th).stop with
      | some why => simp
      | none => 
          simp only
          exact ⟨hstop, fun h => by rw [hthreads h]⟩

/-- The machine meets the first of its faults, or comes to rest. -/
theorem rest_eq (s : Setup) (m : Machine) :
    (∃ why, (m.faults s).head? = some why ∧ m.rest s = .error why) ∨
      m.faults s = [] ∧ ∃ log, m.rest s = .ok { m with threads := m.ran s, log } := by
  obtain ⟨hstop, hthreads⟩ := settleFrom_eq s 0 m.threads
  unfold rest settle faults
  generalize hruns : (m.threads.zipIdx.filterMap fun x => (runLocal s x.2 x.1).stop) = runs at hstop ⊢
  generalize settleFrom s 0 m.threads = settled at hstop hthreads ⊢
  obtain ⟨threads, log, stop⟩ := settled
  simp only at hstop hthreads ⊢
  cases stop with
  | some why => exact .inl ⟨why, by rw [List.head?_append, ← hstop]; rfl, rfl⟩
  | none =>
      obtain rfl : runs = [] := List.head?_eq_none_iff.mp hstop.symm
      obtain rfl : threads = m.ran s := hthreads rfl
      rw [List.nil_append]
      cases hcs : candidates s { m with threads := m.ran s, log := m.log ++ log } with
      | error why =>
          exact .inl ⟨why, candidates_eq_error.mp hcs, by simp only [hcs, error_bind]⟩
      | ok cs =>
          refine .inr ⟨?_, m.log ++ log, by simp only [hcs, ok_bind, pure_eq_ok]⟩
          rw [← List.head?_eq_none_iff]
          by_contra hsome
          obtain ⟨why, hwhy⟩ := Option.ne_none_iff_exists'.mp hsome
          have herror := candidates_eq_error (s := s)
            (m := { m with threads := m.ran s, log := m.log ++ log }).mpr hwhy
          rw [hcs] at herror
          cases herror

theorem calm_of_faults (h : m.faults s = []) : ∀ th ∈ m.ran s, th.AtRest s ∧ th.Ready s := by
  obtain ⟨hruns, hready⟩ := List.append_eq_nil_iff.mp h
  intro th hth
  refine ⟨?_, ?_⟩
  · obtain ⟨x, hx, rfl⟩ := List.mem_map.mp hth
    exact Thread.atRest_runLocal (List.filterMap_eq_nil_iff.mp hruns x hx)
  · have := List.filterMap_eq_nil_iff.mp hready th hth
    cases hup : th.upcoming s with
    | error why =>
        rw [hup] at this
        cases this
    | ok op? => exact ⟨op?, hup⟩

theorem rest_eq_ok (h : m.rest s = .ok m') :
    m.faults s = [] ∧ ∃ log, m' = { m with threads := m.ran s, log } := by
  rcases rest_eq s m with ⟨why, -, hrest⟩ | ⟨hnil, log, hrest⟩
  · rw [hrest] at h
    cases h
  · exact ⟨hnil, log, (Except.ok.inj (hrest.symm.trans h)).symm⟩

theorem calm_of_rest (h : m.rest s = .ok m') : m'.Calm s := by
  obtain ⟨hnil, log, rfl⟩ := rest_eq_ok h
  exact calm_of_faults hnil

theorem ran_core (s : Setup) (m : Machine) : m.core.ran s = (m.ran s).map Thread.bare := by
  simp only [ran, threads_core, List.zipIdx_map, List.map_map]
  refine List.map_congr_left fun x _ => ?_
  simp [runLocal_bare]

theorem faults_core (s : Setup) (m : Machine) : m.core.faults s = m.faults s := by
  simp only [faults, ran_core, threads_core, List.zipIdx_map, List.filterMap_map]
  congr 1
  refine List.filterMap_congr fun x _ => ?_
  simp [runLocal_bare]

/-! ### A turn -/

/-- A process takes its step, and the machine goes on to the next scheduling point. -/
def turn (s : Setup) (m : Machine) (p : Proc) : Except Stop Machine := m.step s p >>= rest s

end Machine

namespace Change

/-- The change by a step of thread number `t` together with the runs that follow it; a thread that is
created gets number `n`. -/
def settled (s : Setup) (t n : Nat) (k : Change) : Change :=
  { k with
    update := fun th => (runLocal s t (k.update th)).thread
    child := k.child.map fun th => (runLocal s n th).thread }

/-- What the runs behind the change meet, if it happens to the thread `th`. -/
def faults (s : Setup) (t n : Nat) (th : Thread) (k : Change) : List Stop :=
  (runLocal s t (k.update th)).stop.toList ++
    (k.child.bind fun new => (runLocal s n new).stop).toList ++
    ((errorOf? ((runLocal s t (k.update th)).thread.upcoming s)).toList ++
      (k.child.bind fun new => errorOf? ((runLocal s n new).thread.upcoming s)).toList)

end Change

namespace Machine

variable {s : Setup} {m m' : Machine} {t : Nat} {th : Thread} {k : Change} {why : Stop}

theorem filterMap_modify {β : Type} {l : List Thread} {g : Thread × Nat → Option β} {t n : Nat}
    (h : ∀ x ∈ l.zipIdx n, g x = none) (hth : l[t]? = some th) (f : Thread → Thread) :
    ((l.modify t f).zipIdx n).filterMap g = (g (f th, n + t)).toList := by
  induction l generalizing t n with
  | nil => simp at hth
  | cons a l ih =>
      rw [List.zipIdx_cons, List.forall_mem_cons] at h
      cases t with
      | zero =>
          obtain rfl : a = th := by simpa using hth
          rw [List.modify_zero_cons, List.zipIdx_cons, List.filterMap_cons]
          rw [List.filterMap_eq_nil_iff.mpr h.2, Nat.add_zero]
          cases g (f a, n) <;> rfl
      | succ t =>
          rw [List.modify_succ_cons, List.zipIdx_cons, List.filterMap_cons, h.1,
            ih h.2 (by simpa using hth), Nat.add_right_comm, Nat.add_assoc]

theorem filterMap_modify_fst {β : Type} {l : List Thread} {g : Thread → Option β} {t : Nat}
    (h : ∀ th ∈ l, g th = none) (hth : l[t]? = some th) (f : Thread → Thread) :
    (l.modify t f).filterMap g = (g (f th)).toList := by
  rw [← List.zipIdx_map_fst 0 (l.modify t f), List.filterMap_map]
  refine filterMap_modify (fun x hx => ?_) hth f
  exact h x.1 (List.mem_of_getElem? (List.mem_zipIdx_iff_getElem?.mp hx))

theorem ran_on (hm : m.Calm s) (t : Nat) (k : Change) :
    (k.on t m).ran s = ((k.settled s t m.threads.length).on t m).threads := by
  have hran : ((m.threads.modify t k.update).zipIdx.map fun x => (runLocal s x.2 x.1).thread) =
      m.threads.modify t fun th => (runLocal s t (k.update th)).thread := by
    refine List.ext_getElem? fun i => ?_
    rw [List.getElem?_map, List.getElem?_zipIdx, List.getElem?_modify, List.getElem?_modify]
    cases hi : m.threads[i]? with
    | none => rfl
    | some th =>
        by_cases hti : t = i
        · simp [hti]
        · have hrest := (hm th (List.mem_of_getElem? hi)).1
          simp [hti, hrest.runLocal_eq]
  simp only [ran, Change.on, Change.settled, List.zipIdx_append, List.map_append, hran]
  congr 1
  cases k.child with
  | none => rfl
  | some new => simp

theorem faults_on (hm : m.Calm s) (hth : m.threads[t]? = some th) (k : Change) :
    (k.on t m).faults s = k.faults s t m.threads.length th := by
  have hstops : ∀ x ∈ m.threads.zipIdx, (runLocal s x.2 x.1).stop = none := by
    intro x hx
    have hrest := (hm x.1 (List.mem_of_getElem? (List.mem_zipIdx_iff_getElem?.mp hx))).1
    rw [hrest.runLocal_eq]
  have hready : ∀ th ∈ m.threads, errorOf? (th.upcoming s) = none := by
    intro th hth
    obtain ⟨op?, hop⟩ := (hm th hth).2
    rw [hop, errorOf?_ok]
  rw [faults, ran_on hm, Change.faults]
  simp only [Change.on, Change.settled, List.zipIdx_append, List.filterMap_append,
    filterMap_modify hstops hth, filterMap_modify_fst hready hth, Nat.zero_add]
  cases k.child with
  | none => simp
  | some new =>
      have hone : ∀ {α : Type} (g : α → Option Stop) (x : α), [x].filterMap g = (g x).toList := by
        intro α g x
        rw [List.filterMap_cons, List.filterMap_nil]
        cases g x <;> rfl
      simp [hone]

theorem rest_of_calm (hm : m.Calm s) : m.faults s = [] ∧ m.ran s = m.threads := by
  have hran : m.ran s = m.threads := by
    refine List.ext_getElem? fun i => ?_
    rw [ran, List.getElem?_map, List.getElem?_zipIdx]
    cases hi : m.threads[i]? with
    | none => rfl
    | some th =>
        have hrest := (hm th (List.mem_of_getElem? hi)).1
        simp [hrest.runLocal_eq]
  refine ⟨List.append_eq_nil_iff.mpr ⟨?_, ?_⟩, hran⟩
  · rw [List.filterMap_eq_nil_iff]
    intro x hx
    have hrest := (hm x.1 (List.mem_of_getElem? (List.mem_zipIdx_iff_getElem?.mp hx))).1
    rw [hrest.runLocal_eq]
  · rw [hran, List.filterMap_eq_nil_iff]
    intro th hth
    obtain ⟨op?, hop⟩ := (hm th hth).2
    rw [hop, errorOf?_ok]

/-- The change by a turn of a process: a flush leaves every thread at rest. -/
def turnChange (s : Setup) (m : Machine) : Proc → Except Stop Change
  | .thread t => do
    let k ← m.change s (.thread t)
    let th ← m.thread t
    match (k.faults s t m.threads.length th).head? with
    | some why => .error why
    | none => return k.settled s t m.threads.length
  | .flush t => m.change s (.flush t)

theorem thread_of_change {p : Proc} (h : m.change s p = .ok k) :
    ∃ th, m.threads[p.owner]? = some th := by
  cases hth : m.thread p.owner with
  | ok th => exact ⟨th, getElem?_of_thread hth⟩
  | error why => cases p <;> simp_all [change, Proc.owner]

theorem calm_on_flush (hm : m.Calm s) (hk : m.change s (.flush t) = .ok k) :
    (k.on t m).Calm s := by
  have hflushed : ∀ th : Thread, th.AtRest s ∧ th.Ready s →
      th.flushed.AtRest s ∧ th.flushed.Ready s := fun _ h => h
  have hupdate : k.child = none ∧ (k.update = id ∨ k.update = Thread.flushed) := by
    cases hth : m.thread t with
    | error why => simp [change, hth] at hk
    | ok th =>
        cases hb : th.buffer with
        | nil =>
            simp only [change, hth, ok_bind, hb, pure_eq_ok] at hk
            cases hk
            exact ⟨rfl, .inl rfl⟩
        | cons b rest =>
            simp only [change, hth, ok_bind, hb, pure_eq_ok] at hk
            cases hk
            exact ⟨rfl, .inr rfl⟩
  obtain ⟨hchild, hupdate⟩ := hupdate
  intro th hth
  obtain ⟨i, hi⟩ := List.mem_iff_getElem?.mp hth
  simp only [Change.on, hchild, Option.toList_none, List.append_nil, List.getElem?_modify] at hi
  cases hold : m.threads[i]? with
  | none => simp [hold] at hi
  | some th₀ =>
      have h₀ := hm th₀ (List.mem_of_getElem? hold)
      rw [hold] at hi
      obtain rfl : (if t = i then k.update th₀ else th₀) = th := by simpa using hi
      split
      · rcases hupdate with h | h
        · simpa [h] using h₀
        · rw [h]
          exact hflushed th₀ h₀
      · exact h₀

/-- Behind the step of a thread or of its flush, the machine meets the first fault of its runs or
comes to rest. -/
theorem rest_behind {l : Change} {m₁ : Machine} (h : Behind k t m m₁)
    (hran : (k.on t m).ran s = (l.on t m).threads) (hcell : l.cell = k.cell)
    (hevent : l.event = k.event) :
    (∃ why, ((k.on t m).faults s).head? = some why ∧ m₁.rest s = .error why) ∨
      (k.on t m).faults s = [] ∧ ∃ m', m₁.rest s = .ok m' ∧ Behind l t m m' ∧ m'.Calm s := by
  have hfaults : (k.on t m).faults s = m₁.faults s := by
    rw [← faults_core, ← h.core, faults_core]
  rw [hfaults]
  rcases rest_eq s m₁ with herror | ⟨hnil, log, hrest⟩
  · exact .inl herror
  · refine .inr ⟨hnil, _, hrest, ⟨?_, ?_, h.errors⟩, calm_of_faults hnil⟩
    · refine core_eq_iff.mpr ⟨?_, ?_⟩
      · show m₁.memory = _
        rw [(core_eq_iff.mp h.core).1]
        simp only [Change.on, Change.memory, hcell]
      · show (m₁.ran s).map Thread.bare = _
        rw [← ran_core, h.core, ran_core, hran]
    · rw [hevent, ← h.events]

/-- **A turn makes the change that was computed for it**, or ends with the error of that; behind it
the machine is at rest again. -/
theorem turn_eq (hm : m.Calm s) (p : Proc) :
    match m.turnChange s p with
    | .error why => m.turn s p = .error why
    | .ok l => ∃ m', m.turn s p = .ok m' ∧ Behind l p.owner m m' ∧ m'.Calm s := by
  have hstep := step_eq s m p
  cases hk : m.change s p with
  | error why =>
      rw [hk] at hstep
      have hturn : m.turn s p = .error why := by
        rw [turn, show m.step s p = .error why from hstep, error_bind]
      have hchange : m.turnChange s p = .error why := by
        cases p <;> simp [turnChange, hk]
      rw [hchange]
      exact hturn
  | ok k =>
      rw [hk] at hstep
      obtain ⟨m₁, hm₁, hbehind⟩ := hstep
      have hturn : m.turn s p = m₁.rest s := by rw [turn, hm₁, ok_bind]
      rw [hturn]
      obtain ⟨th, hth⟩ := thread_of_change hk
      cases p with
      | thread t =>
          replace hth : m.threads[t]? = some th := hth
          replace hbehind : Behind k t m m₁ := hbehind
          have hchange : m.turnChange s (.thread t) =
              match (k.faults s t m.threads.length th).head? with
              | some why => .error why
              | none => .ok (k.settled s t m.threads.length) := by
            simp only [turnChange, hk, ok_bind, thread_of_getElem? hth, pure_eq_ok]
          rw [hchange, ← faults_on hm hth k]
          rcases rest_behind hbehind (ran_on hm t k) rfl rfl with ⟨why, hhead, hrest⟩ | ⟨hnil, hok⟩
          · rw [hhead]
            exact hrest
          · rw [hnil]
            exact hok
      | flush t =>
          replace hbehind : Behind k t m m₁ := hbehind
          obtain ⟨hnil, hran⟩ := rest_of_calm (calm_on_flush hm hk)
          rw [turnChange, hk]
          rcases rest_behind hbehind hran rfl rfl with ⟨why, hhead, -⟩ | ⟨-, hok⟩
          · rw [hnil] at hhead
            cases hhead
          · exact hok

end Machine

end Interleave
