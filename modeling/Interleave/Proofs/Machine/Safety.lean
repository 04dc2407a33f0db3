import Interleave.Program.Session
import Interleave.Proofs.Machine.Loop
import Interleave.Proofs.Program.InRange

/-! # Programs that are accepted do no harm

If all indices in a program exist and all its calls are known (`Setup.Sound`), the engine never breaks
down while it executes the program.  Every thread has as many registers as its function
(`Thread.Fits`), which each step preserves; so whatever a computation of the machine yields or stops with,
it does not use an index that does not exist (`Safe`).  The memory graph has the nodes that it refers to,
because it is the one that the events tell of (`Machine.Told.inBounds`).  A text that is read and checked
is a sound program, so no run of it goes wrong (`Session.run_inBounds`). -/

namespace Interleave

/-- The stop of an engine that did nothing wrong: it reports an error of the program, and if this is an
invalid operation, it is the join of a thread that does not exist or the unlock of a mutex that is not
locked. -/
def Stop.Proper : Stop → Prop
  | .fault _ => False
  | .error e => e.kind = .invalidOperation →
    (∃ v, e.message = "join of invalid thread " ++ Decimal.write v) ∨
      ∃ a : Addr, e.message = s!"unlock of mutex #{a} that is not locked"

/-- The computation yields something with the property or stops properly. -/
def Safe {α : Type} (P : α → Prop) : Except Stop α → Prop
  | .ok a => P a
  | .error why => why.Proper

section

variable {α β : Type} {P : α → Prop} {Q : β → Prop} {x : Except Stop α} {f : α → Except Stop β}

theorem safe_ok {a : α} (h : P a) : Safe P (.ok a) := h

theorem safe_fails (site : Site) {kind : ErrorKind} (message : String) (h : kind ≠ .invalidOperation) :
    Safe P (site.fails kind message) := fun hkind => absurd hkind h

theorem Safe.bind (hx : Safe P x) (hf : ∀ a, P a → Safe Q (f a)) : Safe Q (x >>= f) := by
  cases x with
  | error why => exact hx
  | ok a => exact hf a hx

theorem safe_mapM {g : α → Except Stop β} {l : List α} (hg : ∀ a ∈ l, Safe (fun _ => True) (g a)) :
    Safe (fun _ => True) (l.mapM g) := by
  induction l with
  | nil => trivial
  | cons a l ih =>
      rw [List.mapM_cons]
      have hl := ih fun a' ha' => hg a' (List.mem_cons_of_mem a ha')
      exact (hg a List.mem_cons_self).bind fun b _ => hl.bind fun bs _ => trivial

theorem safe_fetch {l : List α} {i : Nat} (h : i < l.length) :
    Safe (fun a => l[i]? = some a) (fetch l i) := by
  unfold fetch
  rw [List.getElem?_eq_getElem h]
  rfl

end

/-! ### Sound programs -/

/-- The indices in the program exist, and it calls only what is known. -/
structure Setup.Sound (s : Setup) : Prop where
  inRange : s.program.InRange
  known : ∀ f ∈ s.program.functions, ∀ name args, .call name args ∈ f.body →
    ∃ b, s.registry.lookup name = .ok (some b)

variable {s : Setup} {t : Nat} {f : Function} {th th' : Thread} {i : Instr Nat}

theorem mem_of_function {n : Nat} (h : s.function n = .ok f) : f ∈ s.program.functions := by
  unfold Setup.function fetch at h
  split at h
  · rename_i g hg
    cases h
    exact List.mem_of_getElem? hg
  · cases h

/-- The function of a thread exists, and the thread has its registers. -/
def Thread.Fits (s : Setup) (th : Thread) : Prop :=
  ∃ f, s.function th.function = .ok f ∧ th.regs.length = f.registers.length

theorem Thread.Fits.of_eq (h : th.Fits s) (hfunction : th'.function = th.function)
    (hregs : th'.regs.length = th.regs.length) : th'.Fits s := by
  unfold Fits
  rw [hfunction, hregs]
  exact h

namespace Thread

variable {v : Operand}

/-! ### Thread-local instructions -/

theorem exists_value (h : ∀ r ∈ v.registers, r < th.regs.length) : ∃ x, th.value v = .ok x := by
  cases v with
  | reg r =>
      have hr : r < th.regs.length := h r List.mem_cons_self
      exact ⟨th.regs[r], by rw [value, reg, fetch, List.getElem?_eq_getElem hr]⟩
  | imm v => exact ⟨v, rfl⟩

theorem safe_value (h : ∀ r ∈ v.registers, r < th.regs.length) :
    Safe (fun _ => True) (th.value v) := by
  obtain ⟨x, hx⟩ := exists_value h
  rw [hx]
  trivial

theorem safe_describe (h : ∀ r ∈ v.registers, r < f.registers.length) :
    Safe (fun _ => True) (v.describe f) := by
  cases v with
  | reg r => exact (safe_fetch (h r List.mem_cons_self)).bind fun _ _ => trivial
  | imm v => trivial

theorem safe_setReg {d : Reg} (h : d < th.regs.length) (x : Int64) :
    Safe (fun th' => th'.function = th.function ∧ th'.regs.length = th.regs.length) (th.setReg d x) := by
  unfold setReg
  rw [if_pos h]
  exact ⟨rfl, List.length_set⟩

theorem safe_callBuiltin {name : String} {args : List Operand}
    (hknown : ∃ b, s.registry.lookup name = .ok (some b)) (hregs : th.regs.length = f.registers.length)
    (h : ∀ v ∈ args, ∀ r ∈ v.registers, r < f.registers.length) :
    Safe (fun _ => True) (th.callBuiltin s t f name args) := by
  obtain ⟨b, hb⟩ := hknown
  simp only [callBuiltin, hb]
  refine (safe_mapM fun v hv => safe_value (hregs ▸ h v hv)).bind fun values _ => ?_
  split
  · split
    · cases hhead : args.head? with
      | none => exact safe_fails _ _ (by decide)
      | some v =>
          refine (safe_describe (h v (List.mem_of_head? hhead))).bind fun _ _ => ?_
          exact safe_fails _ _ (by decide)
    · trivial
  · exact safe_fails _ _ (by decide)
  · trivial
  · trivial

/-- A thread-local instruction stops properly, if it stops and calls nothing that is unknown. -/
theorem safe_execLocal (hs : s.program.InRange) (hf : s.function th.function = .ok f) (hi : i ∈ f.body)
    (hregs : th.regs.length = f.registers.length)
    (hknown : ∀ name args, i = .call name args → ∃ b, s.registry.lookup name = .ok (some b)) :
    Safe (fun _ => True) (th.execLocal s t f i) := by
  have hregisters := (hs f (mem_of_function hf)).registers i hi
  rw [← hregs] at hregisters
  cases i with
  | mov d v =>
      simp only [Instr.registers, List.forall_mem_cons] at hregisters
      obtain ⟨hd, hv⟩ := hregisters
      exact (safe_value hv).bind fun _ _ => (safe_setReg hd _).bind fun _ _ => trivial
  | bin op d l r =>
      simp only [Instr.registers, List.forall_mem_cons, List.forall_mem_append] at hregisters
      obtain ⟨hd, hl, hr⟩ := hregisters
      exact (safe_value hl).bind fun _ _ => (safe_value hr).bind fun _ _ =>
        (safe_setReg hd _).bind fun _ _ => trivial
  | addr d g =>
      exact (safe_setReg (hregisters d List.mem_cons_self) _).bind fun _ _ => trivial
  | assert v =>
      refine (safe_value hregisters).bind fun x _ => ?_
      split
      · exact (safe_describe (hregs ▸ hregisters)).bind fun _ _ => safe_fails _ _ (by decide)
      · trivial
  | branch c z target =>
      refine (safe_value hregisters).bind fun x _ => ?_
      split
      · trivial
      · trivial
  | call name args =>
      have hargs : ∀ v ∈ args, ∀ r ∈ v.registers, r < f.registers.length := fun v hv r hr =>
        hregs ▸ hregisters r (List.mem_flatMap.mpr ⟨v, hv, hr⟩)
      exact (safe_callBuiltin (hknown name args rfl) hregs hargs).bind fun _ _ => trivial
  | _ => trivial

/-- A thread-local instruction never makes the engine break down; a call of something unknown is an error
of the program. -/
theorem execLocal_ne_fault (hs : s.program.InRange) (hf : s.function th.function = .ok f) (hi : i ∈ f.body)
    (hregs : th.regs.length = f.registers.length) (x : Fault) :
    th.execLocal s t f i ≠ .error (.fault x) := by
  intro h
  by_cases hknown : ∀ name args, i = .call name args → ∃ b, s.registry.lookup name = .ok (some b)
  · have hsafe := safe_execLocal (t := t) hs hf hi hregs hknown
    rw [h] at hsafe
    exact hsafe
  · simp only [not_forall] at hknown
    obtain ⟨name, args, rfl, hunknown⟩ := hknown
    rcases error_of_bind h with h | ⟨out, -, h⟩
    · unfold callBuiltin at h
      split at h
      · next b hb => exact hunknown ⟨b, hb⟩
      · cases h
    · cases h

end Thread

/-- **A thread that runs through its instructions stops properly**, if it stops. -/
theorem proper_runLocalFrom (hs : s.Sound) {steps : Nat} {logged : List LogRecord} {why : Stop}
    (hth : th.Fits s) (h : (runLocalFrom s t steps th logged).stop = some why) : why.Proper := by
  fun_induction runLocalFrom s t steps th logged with
  | case1 => cases h
  | case2 _ _ _ _ why hf =>
      obtain ⟨f, hf', -⟩ := hth
      rw [hf'] at hf
      cases hf
  | case3 => cases h
  | case4 => cases h
  | case5 =>
      cases h
      intro hkind
      cases hkind
  | case6 _ _ _ f hf i hi _ _ e hexec =>
      obtain ⟨f', hf', hregs⟩ := hth
      obtain rfl : f' = f := Except.ok.inj (hf'.symm.trans hf)
      have hmem := List.mem_of_getElem? hi
      have hsafe := Thread.safe_execLocal (t := t) hs.inRange hf hmem hregs fun name args heq =>
        hs.known _ (mem_of_function hf) name args (heq ▸ hmem)
      rw [hexec] at hsafe
      cases h
      exact hsafe
  | case7 _ th _ _ _ _ _ _ _ th' _ hexec ih =>
      obtain ⟨hfunction, hregs⟩ := Thread.regs_execLocal hexec
      exact ih (hth.of_eq hfunction hregs) h

theorem fits_settleFrom {ths : List Thread} (hths : ∀ th ∈ ths, th.Fits s) (t : Nat) :
    ∀ th ∈ (settleFrom s t ths).1, th.Fits s := by
  induction ths generalizing t with
  | nil => simp [settleFrom]
  | cons th ths ih =>
      obtain ⟨hth, hths⟩ := List.forall_mem_cons.mp hths
      obtain ⟨hfunction, hregs⟩ := regs_runLocal s t th
      have hran := hth.of_eq hfunction hregs
      rw [settleFrom]
      cases (runLocal s t th).stop with
      | some why => exact List.forall_mem_cons.mpr ⟨hran, hths⟩
      | none => exact List.forall_mem_cons.mpr ⟨hran, ih hths (t + 1)⟩

theorem proper_settleFrom (hs : s.Sound) {ths : List Thread} (hths : ∀ th ∈ ths, th.Fits s) (t : Nat) :
    ∀ why, (settleFrom s t ths).2.2 = some why → why.Proper := by
  induction ths generalizing t with
  | nil => simp [settleFrom]
  | cons th ths ih =>
      obtain ⟨hth, hths⟩ := List.forall_mem_cons.mp hths
      rw [settleFrom]
      cases hstop : (runLocal s t th).stop with
      | some why =>
          intro why' hwhy
          cases hwhy
          exact proper_runLocalFrom hs hth hstop
      | none => exact ih hths (t + 1)

/-! ### Scheduling points -/

namespace Machine

variable {m m' m₁ : Machine} {c : Candidate} {op : Operation} {ending : Ending}

/-- All threads of the machine fit. -/
def Fits (s : Setup) (m : Machine) : Prop := ∀ th ∈ m.threads, th.Fits s

theorem exists_operation (hs : s.program.InRange) (hf : s.function th.function = .ok f) (hi : i ∈ f.body)
    (hregs : th.regs.length = f.registers.length) : ∃ op?, th.operation i = .ok op? := by
  have hregisters := (hs f (mem_of_function hf)).registers i hi
  rw [← hregs] at hregisters
  have haddress : ∀ l : Location, (∀ r ∈ l.registers, r < th.regs.length) →
      ∃ a, th.address l = .ok a := by
    intro l hl
    cases l with
    | global g => exact ⟨_, rfl⟩
    | indirect r =>
        obtain ⟨x, hx⟩ := Thread.exists_value (v := .reg r) hl
        exact ⟨_, by rw [Thread.address, show th.reg r = .ok x from hx]; rfl⟩
  cases i with
  | load d l =>
      simp only [Instr.registers, List.forall_mem_cons] at hregisters
      obtain ⟨a, ha⟩ := haddress l hregisters.2
      exact ⟨_, by rw [Thread.operation, ha]; rfl⟩
  | store l v =>
      simp only [Instr.registers, List.forall_mem_append] at hregisters
      obtain ⟨a, ha⟩ := haddress l hregisters.1
      exact ⟨_, by rw [Thread.operation, ha]; rfl⟩
  | join v =>
      obtain ⟨x, hx⟩ := Thread.exists_value hregisters
      exact ⟨_, by rw [Thread.operation, hx]; rfl⟩
  | lock l =>
      obtain ⟨a, ha⟩ := haddress l hregisters
      exact ⟨_, by rw [Thread.operation, ha]; rfl⟩
  | unlock l =>
      obtain ⟨a, ha⟩ := haddress l hregisters
      exact ⟨_, by rw [Thread.operation, ha]; rfl⟩
  | _ => exact ⟨_, rfl⟩

theorem ready_of_fits (hs : s.program.InRange) (hth : th.Fits s) : th.Ready s := by
  obtain ⟨f, hf, hregs⟩ := hth
  unfold Thread.Ready Thread.upcoming
  split
  · exact ⟨_, rfl⟩
  · rw [hf, ok_bind]
    split
    · exact ⟨_, rfl⟩
    · rename_i hi
      exact exists_operation hs hf (List.mem_of_getElem? hi) hregs

/-- **It can be told what a machine offers** if its threads fit. -/
theorem Fits.candidates (hs : s.program.InRange) (hm : m.Fits s) : m.candidates s = .ok (m.offered s) :=
  candidates_eq_ok.mpr ⟨fun th hth => ready_of_fits hs (hm th hth), rfl⟩

/-! ### Steps -/

theorem safe_cellAt (m : Machine) (site : Site) (what : String) (a : Addr) :
    Safe (fun _ => True) (m.cellAt site what a) := by
  unfold cellAt
  split
  · trivial
  · exact safe_fails _ _ (by decide)

theorem Fits.setThread (hm : m.Fits s) (hth : th.Fits s) : (m.setThread t th).Fits s := by
  intro th' hth'
  rcases List.mem_or_eq_of_mem_set hth' with hth' | rfl
  · exact hm th' hth'
  · exact hth

theorem exists_start {n : Nat} (h : n < s.program.functions.length) :
    ∃ th, Thread.start s n = .ok th ∧ th.Fits s := by
  have hf : s.function n = .ok s.program.functions[n] := by
    unfold Setup.function fetch
    rw [List.getElem?_eq_getElem h]
  unfold Thread.start
  rw [hf]
  exact ⟨_, rfl, _, hf, List.length_replicate⟩

/-- **What a thread performs keeps all threads fitting**, or it stops properly. -/
theorem safe_perform (hs : s.program.InRange) (hm : m.Fits s) (hth : th.Fits s)
    (hup : th.upcoming s = .ok (some op)) (site : Site) :
    Safe (fun x => x.1.Fits s) (m.perform s t th site op) := by
  obtain ⟨-, f, i, hf, hi, hop⟩ := th.of_upcoming s hup
  have hinstr := th.of_operation hop
  have hmem := List.mem_of_getElem? hi
  have hrange := hs f (mem_of_function hf)
  have ⟨f', hf', hregs⟩ := hth
  obtain rfl : f' = f := Except.ok.inj (hf'.symm.trans hf)
  have hregisters := hrange.registers i hmem
  rw [← hregs] at hregisters
  cases op with
  | load d a =>
      obtain ⟨l, rfl⟩ := hinstr
      have hd := hregisters d List.mem_cons_self
      refine (m.safe_cellAt site _ a).bind fun cell _ => ?_
      split
      · exact (th.safe_setReg hd _).bind fun th' h' => hm.setThread (hth.of_eq h'.1 h'.2)
      · exact (th.safe_setReg hd _).bind fun th' h' => hm.setThread (hth.of_eq h'.1 h'.2)
  | store a x =>
      obtain ⟨l, rfl⟩ := hinstr
      have hx := (List.forall_mem_append.mp hregisters).2
      refine (m.safe_cellAt site _ a).bind fun cell _ => (Thread.safe_value hx).bind fun v _ => ?_
      split
      · exact hm.setThread (hth.of_eq rfl rfl)
      · exact hm
  | fence => exact hm
  | spawn d g =>
      obtain rfl : i = .spawn d g := hinstr
      obtain ⟨new, hstart, hnew⟩ := exists_start (hrange.functions _ hmem g List.mem_cons_self)
      rw [perform, hstart]
      refine (th.safe_setReg (hregisters d List.mem_cons_self) _).bind fun th' h' => ?_
      intro th₁ hth₁
      rcases List.mem_append.mp hth₁ with hth₁ | hth₁
      · exact (hm.setThread (hth.of_eq h'.1 h'.2)) th₁ hth₁
      · exact List.mem_singleton.mp hth₁ ▸ hnew
  | join v =>
      simp only [perform]
      split
      · exact hm
      · exact fun _ => .inl ⟨v, rfl⟩
  | lock a => exact (m.safe_cellAt site _ a).bind fun cell _ => hm
  | unlock a =>
      refine (m.safe_cellAt site _ a).bind fun cell _ => ?_
      split
      · exact fun _ => .inr ⟨a, rfl⟩
      · exact hm

/-- **A step of what is offered keeps all threads fitting**, or it stops properly. -/
theorem safe_step (hs : s.program.InRange) (hm : m.Fits s) (hc : m.Offered s c) :
    Safe (Fits s) (m.step s c.proc) := by
  cases hc with
  | @thread t th op _ hth hup hadm =>
      obtain ⟨-, f, i, hf, -, -⟩ := th.of_upcoming s hup
      have hperform := safe_perform (t := t) hs hm (hm th (List.mem_of_getElem? hth)) hup (th.site t f)
      rw [(admits_eq_some.mp hadm).2.1, step_of_upcoming hth hup hf]
      refine hperform.bind fun x hx => ?_
      intro th' hth'
      obtain ⟨u, hu⟩ := List.mem_iff_getElem?.mp hth'
      rw [passed, List.getElem?_modify] at hu
      obtain ⟨th₁, hth₁, rfl⟩ := Option.map_eq_some_iff.mp hu
      have hfits := hx th₁ (List.mem_of_getElem? hth₁)
      split
      · exact hfits
      · exact hfits
  | @flush t th b hth hb =>
      have hfits : ∀ rest, (m.setThread t { th with buffer := rest }).Fits s := fun rest =>
        hm.setThread ((hm th (List.mem_of_getElem? hth)).of_eq rfl rfl)
      obtain ⟨rest, hbuffer⟩ := List.head?_eq_some_iff.mp hb
      simp only [step, stepFlush, thread_of_getElem? hth, ok_bind, hbuffer, pure_eq_ok]
      cases m.cell? b.addr with
      | some cell => exact hfits rest
      | none => exact hfits rest

/-! ### Runs -/

theorem Fits.settle (hm : m.Fits s) : (m.settle s).1.Fits s := fits_settleFrom hm 0

theorem Fits.proper_settle (hs : s.Sound) (hm : m.Fits s) {why : Stop} (h : (m.settle s).2 = some why) :
    why.Proper :=
  proper_settleFrom hs hm 0 why h

theorem safe_deadlock (hm : m.Fits s) : Safe (fun e => e.kind = .deadlock) (m.deadlock s) := by
  refine Safe.bind (safe_mapM ?_) fun _ _ => safe_ok rfl
  rintro ⟨th, t⟩ hmem
  have hth := List.mem_zipIdx_iff_getElem?.mp (List.mem_filter.mp hmem).1
  obtain ⟨f, hf, -⟩ := hm th (List.mem_of_getElem? hth)
  simp only [hf]
  trivial

theorem proper_blockage (hm : m.Fits s) : (m.blockage s).Proper := by
  have hsafe := safe_deadlock hm
  unfold blockage
  cases hd : m.deadlock s with
  | error why =>
      rw [hd] at hsafe
      exact hsafe
  | ok e =>
      rw [hd] at hsafe
      intro hkind
      rw [hsafe] at hkind
      cases hkind

theorem Fits.of_arrive {cs : List Candidate} (hm : m.Fits s) (h : m.arrive s = .ok (m₁, cs)) :
    m₁.Fits s := by
  have hfits := hm.settle
  rwa [(arrive_eq_ok h).1] at hfits

/-- **A run of a sound program stops properly**, if it stops. -/
theorem Run.proper (hs : s.Sound) (h : Run s m ending m') (hm : m.Fits s) :
    ∀ why, ending = .stopped why → why.Proper := by
  induction h with
  | outOfFuel => simp
  | ended harrive =>
      have hfits := hm.settle
      intro why hwhy
      rcases arrive_eq_error harrive with ⟨why', hsettle, rfl⟩ | ⟨hsettle, hrest⟩
      · cases hwhy
        exact hm.proper_settle hs (by rw [hsettle])
      · rw [hsettle] at hfits
        rcases hrest with ⟨why', hcs, rfl⟩ | ⟨-, rfl⟩
        · rw [hfits.candidates hs.inRange] at hcs
          cases hcs
        · split at hwhy
          · cases hwhy
          · cases hwhy
            exact proper_blockage hfits
  | refused => simp
  | failed harrive hp hstep =>
      obtain ⟨c, hc, rfl⟩ := offered_of_arrive harrive hp
      have hsafe := safe_step hs.inRange (hm.of_arrive harrive) hc
      rw [hstep] at hsafe
      intro why hwhy
      cases hwhy
      exact hsafe
  | step harrive hp hstep _ ih =>
      obtain ⟨c, hc, rfl⟩ := offered_of_arrive harrive hp
      have hsafe := safe_step hs.inRange (hm.of_arrive harrive) hc
      rw [hstep] at hsafe
      exact ih hsafe

/-! ### Indices of memory and of the memory graph -/

/-- The indices that the machine computes itself exist: of memory cells, of joined threads, of the nodes
of waiting stores, and of the nodes of the memory graph at the ends of its edges and along the cycle that
is found. -/
structure InBounds (m : Machine) : Prop where
  cell : ∀ a cell, m.cell? a = some cell → cell < m.memory.length
  joinee : ∀ t v c, m.joinee? t v = some c → c < m.threads.length
  pending : ∀ th ∈ m.threads, ∀ b ∈ th.buffer, b.node < m.graph.nodes.length
  edges : ∀ e ∈ m.graph.edges, e.1 < m.graph.nodes.length ∧ e.2 < m.graph.nodes.length
  cycle : ∀ cycle, m.graph.findCycle = some cycle → ∀ i ∈ cycle, i < m.graph.nodes.length

theorem Told.inBounds (h : m.Told) : m.InBounds where
  cell a cell hcell := (cell?_eq_some hcell).2.2
  joinee t v c hc := by
    unfold joinee? at hc
    dsimp only at hc
    split at hc
    · rename_i hjoin
      cases hc
      exact hjoin.2.1
    · cases hc
  pending th hth b hb := by
    obtain ⟨t, ht⟩ := List.mem_iff_getElem?.mp hth
    have haddr := h.addr t b (by rwa [Thread.bufferAt_of_getElem? ht])
    obtain ⟨n, hn, -⟩ := Option.map_eq_some_iff.mp haddr
    exact (List.getElem?_eq_some_iff.mp hn).1
  edges e he := by
    rw [h.graph] at he ⊢
    exact (Memory.Ledger.sound_ofEvents _).edge_lt he
  cycle cycle hcycle i hi := by
    rw [h.graph] at hcycle ⊢
    exact Memory.Graph.lt_of_findCycle
      (fun i j hij => (Memory.Ledger.sound_ofEvents _).edge_lt hij) hcycle hi

end Machine

/-! ### Accepted programs -/

/-- An engine that stops properly knows what it is to call, and runs no thread that is not at a scheduling
point. -/
theorem Stop.Proper.ne_error {why : Stop} (h : why.Proper) (site : Option Site) :
    (∀ name, why ≠ .error ⟨.invalidOperation, site, "call to unknown function `" ++ name ++ "`"⟩) ∧
      why ≠ .error ⟨.invalidOperation, site, "not a scheduling point"⟩ := by
  -- the two reports that are left begin with other letters
  have hhead : ∀ message, why = .error ⟨.invalidOperation, site, message⟩ →
      message.toList.head? = some 'j' ∨ message.toList.head? = some 'u' := by
    rintro message rfl
    rcases h rfl with ⟨v, hv⟩ | ⟨a, ha⟩
    · left
      rw [show message = _ from hv, String.toList_append]
      rfl
    · right
      rw [show message = _ from ha, String.toList_append, String.toList_append]
      rfl
  refine ⟨fun name heq => ?_, fun heq => ?_⟩
  · rcases hhead _ heq with h | h <;> simp [String.toList_append] at h
  · rcases hhead _ heq with h | h <;> simp at h

/-- A program that passes the check calls only what is known. -/
theorem Program.exists_builtin_of_check {r : Registry} {p : Program} (h : p.check r = .ok ())
    (hf : f ∈ p.functions) {name : String} {args : List Operand} (hcall : .call name args ∈ f.body) :
    ∃ b, r.lookup name = .ok (some b) := by
  obtain ⟨pc, hpc⟩ := List.mem_iff_getElem?.mp hcall
  have hmem : (Instr.call name args, pc) ∈ f.body.zipIdx := List.mem_zipIdx_iff_getElem?.mpr hpc
  have hcheck : r.checkCall f.name pc (.call name args) = .ok () := ok_of_forM (ok_of_forM h f hf) _ hmem
  obtain ⟨found, hlookup, hcheck⟩ := exists_of_bind hcheck
  cases found with
  | none => cases hcheck
  | some b => exact ⟨b, hlookup⟩

theorem Program.build_eq_ok {r : Registry} {source : String} {p : Program}
    (h : Program.build r source = .ok p) : Program.read source = .ok p ∧ p.check r = .ok () := by
  unfold Program.build at h
  split at h
  · cases h
  · obtain ⟨p', hread, h⟩ := exists_of_bind h
    obtain ⟨u, hcheck, h⟩ := exists_of_bind h
    cases h
    refine ⟨?_, hcheck⟩
    cases hp : Program.read source with
    | error e =>
        rw [hp] at hread
        cases hread
    | ok p' =>
        rw [hp] at hread
        cases hread
        rfl

/-- The program of a session is sound, whatever the other settings are. -/
theorem Session.sound_of_ofText {r : Registry} {source : String} {session : Session}
    (h : Session.ofText r source = .ok session) (hprogram : s.program = session.program)
    (hregistry : s.registry = r) : s.Sound := by
  obtain ⟨p, hbuild, h⟩ := exists_of_bind h
  cases h
  subst hregistry
  obtain ⟨hread, hcheck⟩ := Program.build_eq_ok hbuild
  have hprogram : s.program = p := hprogram
  refine ⟨hprogram ▸ Program.inRange_read hread, fun f hf name args hcall => ?_⟩
  exact Program.exists_builtin_of_check hcheck (hprogram ▸ hf) hcall

/-- **No program that is accepted makes the engine break down.**  In every program that can be read the
indices exist.  If moreover it passes the check and has an entry point, then with and without buffers,
whatever the limit of local steps is and whatever is chosen among the candidates, no run ends with a fault
or reports a call of an unknown function or a thread that is not at a scheduling point, and all indices
that the machine computes exist at all times. -/
theorem Session.run_inBounds (source : String) :
    (∀ p, Program.read source = .ok p → p.InRange) ∧
    ∀ r session entry, Session.ofText r source = .ok session →
      session.program.find? Program.entryPoint = some entry →
      ∀ s : Setup, s.program = session.program → s.registry = r →
        ∃ m₀, Machine.start s entry = .ok m₀ ∧
          ∀ (σ : Type) [Scheduler σ] (q : σ), Scheduler.Obedient q → ∀ fuel ending m q',
            m₀.runLoop s fuel q = (ending, m, q') →
            (∀ f, ending ≠ .stopped (.fault f)) ∧
            (∀ site name, ending ≠ .stopped
              (.error ⟨.invalidOperation, site, "call to unknown function `" ++ name ++ "`"⟩)) ∧
            (∀ site, ending ≠ .stopped (.error ⟨.invalidOperation, site, "not a scheduling point"⟩)) ∧
            m.InBounds := by
  refine ⟨fun p hp => Program.inRange_read hp, ?_⟩
  intro r session entry htext hentry s hprogram hregistry
  have hsound := Session.sound_of_ofText htext hprogram hregistry
  have hlt : entry < s.program.functions.length := by
    rw [hprogram]
    exact (List.findIdx?_eq_some_iff_findIdx_eq.mp hentry).1
  obtain ⟨th, hth, hfits⟩ := Machine.exists_start hlt
  have hstart : Machine.start s entry =
      .ok ⟨s.program.globals.map Global.init, [th], [], [], .empty, []⟩ := by
    rw [Machine.start, hth]
    rfl
  refine ⟨_, hstart, ?_⟩
  intro σ _ q hq fuel ending m q' hrun
  have h := Machine.run_runLoop hq s fuel
    ⟨s.program.globals.map Global.init, [th], [], [], .empty, []⟩
  rw [hrun] at h
  have hproper := h.proper hsound (by simpa [Machine.Fits] using hfits)
  refine ⟨?_, ?_, ?_, (h.told (Machine.told_start hstart)).inBounds⟩
  · rintro f rfl
    exact hproper _ rfl
  · rintro site name rfl
    exact ((hproper _ rfl).ne_error site).1 name rfl
  · rintro site rfl
    exact ((hproper _ rfl).ne_error site).2 rfl

/-- Two threads store and then load what the other one stores, one of them through a pointer. -/
def exchangeText : String :=
  "global x = 0\nglobal y = 0\nfn other \x7b\nstore @y, 1\nload %b, @x\ncall @print(%b)\nret\n\x7d\n" ++
    "fn main \x7b\nspawn %t, other\naddr %p, @x\nstore [%p], 1\nload %a, @y\njoin %t\nret\n\x7d\n"

theorem Session.run_inBounds_exchange :
    ∃ session entry, Session.ofText .standard exchangeText = .ok session ∧
      session.program.find? Program.entryPoint = some entry ∧ session.program.InRange ∧
      ∃ m₀ m q', Machine.start ⟨session.program, .standard, true, 10⟩ entry = .ok m₀ ∧
        m₀.runLoop ⟨session.program, .standard, true, 10⟩ 20 (Script.picks (.replicate 8 0)) =
          (.completed, m, q') ∧ m.graph.findCycle.isSome = true ∧ m.InBounds := by
  obtain ⟨session, htext, hsession⟩ := exists_of_any
    (x := Session.ofText .standard exchangeText)
    (p := fun session => decide (Program.read exchangeText = .ok session.program) &&
      (session.program.find? Program.entryPoint).any fun entry =>
        (Machine.start ⟨session.program, .standard, true, 10⟩ entry).toOption.any fun m =>
          let r := m.runLoop ⟨session.program, .standard, true, 10⟩ 20 (Script.picks (.replicate 8 0))
          r.1 == .completed && r.2.1.graph.findCycle.isSome)
    (by decide +kernel)
  simp only [Bool.and_eq_true, decide_eq_true_eq, Option.any_eq_true, beq_iff_eq] at hsession
  obtain ⟨hread, entry, hentry, m₀, hstart, hends, hcycle⟩ := hsession
  obtain ⟨hinRange, hruns⟩ := Session.run_inBounds exchangeText
  obtain ⟨m₁, hstart₁, hsafe⟩ := hruns .standard session entry htext hentry
    ⟨session.program, .standard, true, 10⟩ rfl rfl
  rw [hstart₁] at hstart
  obtain rfl : m₁ = m₀ := Option.some.inj hstart
  generalize hrun : m₁.runLoop ⟨session.program, .standard, true, 10⟩ 20 (Script.picks (.replicate 8 0)) = r
    at hends hcycle
  obtain ⟨ending, m, q'⟩ := r
  obtain rfl : ending = .completed := hends
  have hbounds := (hsafe Script _ (Script.obedient_picks _) 20 _ m q' hrun).2.2.2
  exact ⟨session, entry, htext, hentry, hinRange _ hread, m₁, m, q', hstart₁, hrun, hcycle, hbounds⟩

end Interleave
