import Interleave.Proofs.Machine.System

/-! # The errors of a run

A run that cannot go on ends with an error of its program or a fault of the engine.  What stops it on its
way is an error that one thread makes by itself (`Machine.ordinary_reach`): not a deadlock, which is reported
only where nothing is offered, nor a violation of robustness, which is looked for only behind the end of a
run.  So a trace with such an error shows that the execution was cut short. -/

namespace Interleave

/-- The kinds of error that one thread makes by itself. -/
def ErrorKind.isOfThread : ErrorKind → Bool
  | assertionFailure | invalidMemoryAccess | abort | invalidOperation | stepLimit => true
  | deadlock | robustnessViolation | hostFault => false

theorem ErrorKind.isRobustness_of_isOfThread {k : ErrorKind} (h : k.isOfThread = true) :
    k.isRobustness = false := by
  revert h
  cases k <;> decide

/-- If the computation ends with an error of the program, it is one that a thread makes by itself. -/
def Ordinary {α : Type} (x : Except Stop α) : Prop :=
  ∀ e, x = .error (.error e) → e.kind.isOfThread = true

section

variable {α β : Type} {x : Except Stop α} {f : α → Except Stop β}

theorem ordinary_ok (a : α) : Ordinary (.ok a) := fun _ h => by cases h

theorem ordinary_fault (f : Fault) : Ordinary (.error (.fault f) : Except Stop α) :=
  fun _ h => by cases h

theorem ordinary_fails (site : Site) {kind : ErrorKind} (message : String)
    (h : kind.isOfThread = true) : Ordinary (site.fails kind message : Except Stop α) := by
  intro e he
  cases he
  exact h

theorem Ordinary.bind (hx : Ordinary x) (hf : ∀ a, Ordinary (f a)) : Ordinary (x >>= f) := by
  cases x with
  | error why =>
      intro e he
      cases he
      exact hx e rfl
  | ok a => exact hf a

theorem Ordinary.map (hx : Ordinary x) (g : α → β) : Ordinary (x.map g) := by
  cases x with
  | error why =>
      intro e he
      cases he
      exact hx e rfl
  | ok a => exact ordinary_ok _

theorem ordinary_mapM {g : α → Except Stop β} (hg : ∀ a, Ordinary (g a)) (l : List α) :
    Ordinary (l.mapM g) := by
  induction l with
  | nil => exact ordinary_ok []
  | cons a l ih =>
      rw [List.mapM_cons]
      exact (hg a).bind fun b => ih.bind fun bs => ordinary_ok _

theorem ordinary_fetch (l : List α) (i : Nat) : Ordinary (fetch l i) := by
  unfold fetch
  split
  · exact ordinary_ok _
  · exact ordinary_fault _

end

/-! ### Thread-local instructions -/

namespace Thread

variable (s : Setup) (t : Nat) (f : Function) (th : Thread)

theorem ordinary_value (v : Operand) : Ordinary (th.value v) := by
  cases v with
  | reg r => exact ordinary_fetch _ r
  | imm v => exact ordinary_ok v

theorem ordinary_setReg (d : Reg) (v : Int64) : Ordinary (th.setReg d v) := by
  rw [setReg_eq]
  split
  · exact ordinary_ok _
  · exact ordinary_fault _

theorem ordinary_describe (v : Operand) : Ordinary (v.describe f) := by
  cases v with
  | reg r => exact (ordinary_fetch _ r).bind fun _ => ordinary_ok _
  | imm v => exact ordinary_ok _

theorem ordinary_callBuiltin (name : String) (args : List Operand) :
    Ordinary (th.callBuiltin s t f name args) := by
  unfold callBuiltin
  split
  · refine (ordinary_mapM th.ordinary_value args).bind fun values => ?_
    split
    · split
      · cases args.head? with
        | none => exact ordinary_fails _ _ rfl
        | some a => exact (ordinary_describe f a).bind fun _ => ordinary_fails _ _ rfl
      · exact ordinary_ok _
    · exact ordinary_fails _ _ rfl
    · exact ordinary_ok _
    · exact ordinary_ok _
  · exact ordinary_fails _ _ rfl

theorem ordinary_execLocal (i : Instr Nat) : Ordinary (th.execLocal s t f i) := by
  cases i with
  | mov d v =>
      exact (th.ordinary_value v).bind fun _ => (th.ordinary_setReg d _).bind fun _ => ordinary_ok _
  | bin op d l r =>
      exact (th.ordinary_value l).bind fun _ => (th.ordinary_value r).bind fun _ =>
        (th.ordinary_setReg d _).bind fun _ => ordinary_ok _
  | addr d g => exact (th.ordinary_setReg d _).bind fun _ => ordinary_ok _
  | assert v =>
      refine (th.ordinary_value v).bind fun x => ?_
      split
      · exact (ordinary_describe f v).bind fun _ => ordinary_fails _ _ rfl
      · exact ordinary_ok _
  | branch c z target =>
      refine (th.ordinary_value c).bind fun x => ?_
      split
      · exact ordinary_ok _
      · exact ordinary_ok _
  | call name args => exact (th.ordinary_callBuiltin s t f name args).bind fun _ => ordinary_ok _
  | _ => exact ordinary_ok _

end Thread

theorem ordinary_runLocalFrom (s : Setup) (t steps : Nat) (th : Thread) (logged : List LogRecord)
    {e : TraceError} (h : (runLocalFrom s t steps th logged).stop = some (.error e)) :
    e.kind.isOfThread = true := by
  fun_induction runLocalFrom s t steps th logged with
  | case1 => cases h
  | case2 _ _ _ _ why hf => exact ordinary_fetch _ _ e (hf.trans (congrArg Except.error (Option.some.inj h)))
  | case3 => cases h
  | case4 => cases h
  | case5 =>
      cases h
      rfl
  | case6 _ _ _ f _ i _ _ _ why hexec =>
      exact Thread.ordinary_execLocal s t f _ i e (hexec.trans (congrArg Except.error (Option.some.inj h)))
  | case7 _ _ _ _ _ _ _ _ _ _ _ _ ih => exact ih h

theorem ordinary_settleFrom (s : Setup) (t : Nat) (ths : List Thread) {e : TraceError}
    (h : (settleFrom s t ths).2.2 = some (.error e)) : e.kind.isOfThread = true := by
  induction ths generalizing t with
  | nil => cases h
  | cons th ths ih =>
      rw [settleFrom] at h
      cases hstop : (runLocal s t th).stop with
      | some why =>
          simp only [hstop] at h
          exact ordinary_runLocalFrom s t _ th [] (hstop.trans h)
      | none =>
          simp only [hstop] at h
          exact ih (t + 1) h

/-! ### Steps -/

namespace Machine

variable (s : Setup) (m : Machine)

theorem ordinary_operation (th : Thread) (i : Instr Nat) : Ordinary (th.operation i) := by
  have haddress : ∀ l, Ordinary (th.address l) := by
    intro l
    cases l with
    | global g => exact ordinary_ok _
    | indirect r => exact (ordinary_fetch _ r).bind fun _ => ordinary_ok _
  cases i with
  | load d l => exact (haddress l).bind fun _ => ordinary_ok _
  | store l x => exact (haddress l).bind fun _ => ordinary_ok _
  | join v => exact (th.ordinary_value v).bind fun _ => ordinary_ok _
  | lock l => exact (haddress l).bind fun _ => ordinary_ok _
  | unlock l => exact (haddress l).bind fun _ => ordinary_ok _
  | _ => exact ordinary_ok _

theorem ordinary_accessOf (t : Nat) (th : Thread) (i : Instr Nat) :
    Ordinary (m.accessOf s t th i) := by
  rw [accessOf_eq]
  exact (ordinary_operation th i).map _

theorem ordinary_offer (t : Nat) (th : Thread) : Ordinary (m.offer s t th) := by
  unfold offer
  split
  · exact ordinary_ok _
  · refine (ordinary_fetch _ _).bind fun f => ?_
    split
    · exact ordinary_ok _
    · refine (m.ordinary_accessOf s t th _).bind fun a? => ?_
      split
      · exact ordinary_ok _
      · split
        · exact ordinary_ok _
        · exact ordinary_ok _

theorem ordinary_candidates : Ordinary (m.candidates s) :=
  (ordinary_mapM (fun _ => ordinary_offer s m _ _) _).bind fun _ => ordinary_ok _

theorem ordinary_cellAt (site : Site) (what : String) (a : Addr) :
    Ordinary (m.cellAt site what a) := by
  unfold cellAt
  split
  · exact ordinary_ok _
  · exact ordinary_fails _ _ rfl

theorem ordinary_perform (t : Nat) (th : Thread) (site : Site) (op : Operation) :
    Ordinary (m.perform s t th site op) := by
  cases op with
  | load d a =>
      refine (m.ordinary_cellAt site _ a).bind fun _ => ?_
      split
      · exact (th.ordinary_setReg d _).bind fun _ => ordinary_ok _
      · exact (th.ordinary_setReg d _).bind fun _ => ordinary_ok _
  | store a x =>
      refine (m.ordinary_cellAt site _ a).bind fun _ => (th.ordinary_value x).bind fun _ => ?_
      split
      · exact ordinary_ok _
      · exact ordinary_ok _
  | fence => exact ordinary_ok _
  | spawn d f =>
      refine Ordinary.bind ?_ fun _ => (th.ordinary_setReg d _).bind fun _ => ordinary_ok _
      exact (ordinary_fetch _ f).bind fun _ => ordinary_ok _
  | join v =>
      simp only [perform]
      split
      · exact ordinary_ok _
      · exact ordinary_fails _ _ rfl
  | lock a => exact (m.ordinary_cellAt site _ a).bind fun _ => ordinary_ok _
  | unlock a =>
      refine (m.ordinary_cellAt site _ a).bind fun _ => ?_
      split
      · exact ordinary_fails _ _ rfl
      · exact ordinary_ok _

theorem ordinary_execVisible (t : Nat) (th : Thread) (site : Site) (i : Instr Nat) :
    Ordinary (m.execVisible s t th site i) := by
  rw [execVisible_eq]
  refine (ordinary_operation th i).bind fun op? => ?_
  cases op? with
  | none => exact ordinary_fails _ _ rfl
  | some op => exact m.ordinary_perform s t th site op

theorem ordinary_step (p : Proc) : Ordinary (m.step s p) := by
  cases p with
  | thread t =>
      refine (ordinary_fetch _ t).bind fun th => (ordinary_fetch _ _).bind fun f => ?_
      split
      · exact ordinary_ok _
      · exact (m.ordinary_execVisible s t th _ _).bind fun _ => ordinary_ok _
  | flush t =>
      refine (ordinary_fetch _ t).bind fun th => ?_
      split
      · exact ordinary_ok _
      · exact ordinary_ok _

theorem ordinary_rest : Ordinary (m.rest s) := by
  intro e he
  unfold rest at he
  cases hsettle : m.settle s with
  | mk m' stop =>
  rw [hsettle] at he
  cases stop with
  | some why =>
      cases he
      exact ordinary_settleFrom s 0 m.threads (congrArg Prod.snd hsettle)
  | none => exact (ordinary_candidates s m').bind (fun _ => ordinary_ok m') e he

theorem ordinary_turn (p : Proc) : Ordinary (m.turn s p) :=
  (ordinary_step s m p).bind fun m' => ordinary_rest s m'

/-- **What stops a run on its way is an error of one thread.** -/
theorem ordinary_reach (ps : List Proc) : Ordinary (m.reach s ps) := by
  refine (ordinary_rest s m).bind fun m' => ?_
  induction ps generalizing m' with
  | nil => exact ordinary_ok m'
  | cons p ps ih =>
      rw [follow_cons]
      refine Ordinary.bind ?_ ih
      split
      · exact ordinary_turn s m' p
      · exact ordinary_fault _

/-- At a scheduling point where nothing can go on, a deadlock is reported, without a site. -/
theorem exists_deadlock {m : Machine} (h : m.Calm s) :
    ∃ message, m.deadlock s = .ok ⟨.deadlock, none, message⟩ := by
  have hsites : ∀ l : List (Thread × Nat), (∀ x ∈ l, x.1 ∈ m.threads ∧ x.1.finished = false) →
      ∃ sites, (l.mapM fun x => do
        return (x.1.site x.2 (← s.function x.1.function)).text : Except Stop (List String)) =
          .ok sites := by
    intro l hl
    induction l with
    | nil => exact ⟨[], rfl⟩
    | cons x l ih =>
        obtain ⟨sites, hsites⟩ := ih fun y hy => hl y (List.mem_cons_of_mem _ hy)
        obtain ⟨hx, hfin⟩ := hl x (by simp)
        obtain ⟨f, _, hf, -⟩ := ((h x.1 hx).1).resolve_left (by simp [hfin])
        exact ⟨_, by rw [List.mapM_cons, hsites, hf]; rfl⟩
  obtain ⟨sites, hsites⟩ := hsites (m.threads.zipIdx.filter fun x => !x.1.finished) fun x hx => by
    obtain ⟨hx, hfin⟩ := List.mem_filter.mp hx
    exact ⟨List.mem_of_getElem? (List.mem_zipIdx_iff_getElem?.mp hx), by simpa using hfin⟩
  refine ⟨"no thread can proceed: " ++ ", ".intercalate sites, ?_⟩
  unfold deadlock
  exact congrArg (fun x : Except Stop (List String) => x.map fun sites => (⟨.deadlock, none,
    "no thread can proceed: " ++ ", ".intercalate sites⟩ : TraceError)) hsites

end Machine

end Interleave
