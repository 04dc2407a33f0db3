import Interleave.Proofs.Machine.Errors
import Interleave.Proofs.Machine.Run
import Interleave.Proofs.Search.Coverage
import Mathlib.Data.Finset.Lattice.Fold

/-! # What complete runs show

A run behind which nothing is offered is complete.  `Machine.behaviour` is what it shows, and the trace
that is taken from it shows the same (`Machine.Ends.exists_trace`).  Equivalent runs show the same
(`Machine.behaviour_of_equivalent`).

If no run goes on for ever, then the runs have a common bound (`Machine.Halts.exists_bound`), because
each scheduling point offers finitely many processes. -/

namespace Interleave

/-- What an execution shows that is ended so. -/
def Stop.behaviour : Stop → Behaviour
  | .error e => .failed e.kind e.site
  | .fault f => .failed f.toError.kind f.toError.site

/-- The trace that is taken from a run that ended; violations of robustness are looked for behind the
end if `checks` says so. -/
def Ending.trace? (checks : Bool) : Ending → Machine → Option Trace
  | .completed, m | .refused, m =>
    some (if checks then m.checkRobustness.2.extractTrace.1 else m.extractTrace.1)
  | .stopped (.error e), m => some ⟨m.events, m.errors ++ [e]⟩
  | .stopped (.fault f), _ => some (.ofError f.toError)
  | .outOfFuel, _ => none

namespace Machine

variable {s : Setup} {m m' m₁ m₂ : Machine} {ps : List Proc} {ops u v w : List Candidate} {checks : Bool}

/-- What a machine shows in which everything is done. -/
def shown (checks : Bool) (m : Machine) : Behaviour :=
  if checks && m.graph.findCycle.isSome then .failed .robustnessViolation none
  else Event.shown m.events

/-- What a complete run shows. -/
def behaviour (checks : Bool) (s : Setup) (m : Machine) (ps : List Proc) : Behaviour :=
  match m.reach s ps with
  | .error why => why.behaviour
  | .ok m' => if m'.isDone then m'.shown checks else .failed .deadlock none

/-- An error ends the run, or nothing can go on though not everything is done. -/
def Breaks (s : Setup) (m : Machine) (ops : List Candidate) : Prop :=
  ∀ m', m.reach s (procs ops) = .ok m' → m'.offered s = [] ∧ m'.isDone = false

/-! ### Traces -/

theorem behaviour_checkRobustness (herrors : m.errors = []) :
    m.checkRobustness.2.extractTrace.1.behaviour = m.shown true := by
  unfold checkRobustness shown
  cases hcycle : m.graph.findCycle with
  | none => simp [herrors, extractTrace, Trace.behaviour]
  | some cycle => simp [herrors, extractTrace, Trace.behaviour]

/-- **The trace of a run that ends by itself** shows what the run shows, and that it was cut short. -/
theorem Ends.exists_trace {ending : Ending} (h : Ends s m (procs ops) ending m')
    (herrors : m.errors = []) (checks : Bool) :
    ∃ trace, ending.trace? checks m' = some trace ∧
      trace.behaviour = m.behaviour checks s (procs ops) ∧
      (Breaks s m ops → trace.wasCutShort = true) := by
  unfold behaviour
  cases h with
  | @stopped why _ hreach herrors' =>
      rw [hreach]
      cases why with
      | error e =>
          refine ⟨_, rfl, ?_, fun _ => ?_⟩
          · rw [herrors', herrors]
            rfl
          · have hordinary := ErrorKind.isRobustness_of_isOfThread (ordinary_reach s m (procs ops) e hreach)
            simp [Trace.wasCutShort, hordinary]
      | fault f => exact ⟨_, rfl, rfl, fun _ => rfl⟩
  | completed hreach hnil hdone =>
      have herrors' : m'.errors = [] := (procs_events_reach hreach).2.trans herrors
      simp only [hreach, hdone, if_true]
      refine ⟨_, rfl, ?_, fun hbreaks => ?_⟩
      · cases checks with
        | false => simp [extractTrace, Trace.behaviour, shown, herrors']
        | true => exact behaviour_checkRobustness herrors'
      · rw [(hbreaks m' hreach).2] at hdone
        cases hdone
  | deadlock hreach hnil hdone =>
      have herrors' : m'.errors = [] := (procs_events_reach hreach).2.trans herrors
      obtain ⟨message, hdeadlock⟩ := exists_deadlock s (calm_reach hreach)
      simp only [hreach, hdone, blockage, hdeadlock]
      refine ⟨_, rfl, ?_, fun _ => ?_⟩
      · rw [herrors']
        rfl
      · simp [Trace.wasCutShort, ErrorKind.isRobustness]

/-! ### Equivalent runs -/

theorem Alike.isDone_eq (h : Alike s m m') : m.isDone = m'.isDone := by
  rw [← isDone_core m, h.core, isDone_core]

theorem Alike.offered_eq (h : Alike s m m') : m.offered s = m'.offered s := by
  rw [← offered_core, h.core, offered_core]

theorem shown_of_swaps (h : m.Told) (h' : m'.Told)
    (hswaps : Relation.ReflTransGen Event.Swaps m.events m'.events) (checks : Bool) :
    m.shown checks = m'.shown checks := by
  have hcycle : m.graph.findCycle.isSome = m'.graph.findCycle.isSome := by
    rw [Bool.eq_iff_iff, Option.isSome_iff_ne_none, Option.isSome_iff_ne_none, ne_eq, ne_eq,
      h.findCycle_of_swaps h' hswaps]
  have hevents : Event.shown m.events = Event.shown m'.events := by
    generalize m.events = es, m'.events = es' at hswaps
    induction hswaps with
    | refl => rfl
    | tail _ hswap ih => exact ih.trans hswap.shown_eq
  rw [shown, shown, hcycle, hevents]

/-- **Equivalent runs show the same.** -/
theorem behaviour_of_equivalent (ho : Orderly s m) (hempty : ∀ th ∈ m.threads, th.buffer = [])
    (htold : m.Told) (h : Equivalent v w) (hv : IsRun (system s m).offers v)
    (hm₁ : m.reach s (procs v) = .ok m₁) (checks : Bool) :
    m.behaviour checks s (procs v) = m.behaviour checks s (procs w) := by
  obtain ⟨m₂, hm₂, halike, hswaps⟩ := reach_of_equivalent ho hempty h hv hm₁
  simp only [behaviour, hm₁, hm₂, halike.isDone_eq,
    shown_of_swaps (told_reach htold hm₁) (told_reach htold hm₂) hswaps checks]

/-! ### Threads that wait -/

theorem announce_lock_turn {c : Candidate} {a : Addr} (hm : m.Calm s) (hc : m.Offered s c)
    (hturn : m.turn s c.proc = .ok m') (h : (Access.read a).conflicts c.access = false) (t : Nat) :
    m'.announce s t (.lock a) = m.announce s t (.lock a) := by
  obtain ⟨k, hk, hbehind⟩ := (moves_turn s).behind_of_ok hm hturn
  have hwithin := hc.turn_within hk
  rw [← announce_core, hbehind.core, announce_core]
  simp only [announce, Change.cell?_on]
  cases hcell : m.cell? a with
  | none => rfl
  | some i =>
      have hread : (k.on c.proc.owner m).read i = m.read i := by
        refine k.read_on _ m ?_
        rintro j v hkc rfl
        obtain ⟨b, hb, hbread, hcell'⟩ := hwithin.cell j v hkc
        obtain rfl := cell?_injective hcell hcell'
        rw [Access.conflicts, hb] at h
        simp [Access.object, hbread] at h
      simp only [hread]

theorem lastWrite?_concat {e : Event} {a : Addr} (h : m'.events = m.events ++ [e]) :
    m'.lastWrite? a =
      if (Access.read a).conflicts e.candidate.access then some e else m.lastWrite? a := by
  rw [lastWrite?, h, List.reverse_append, List.reverse_singleton, List.singleton_append,
    List.find?_cons]
  cases (Access.read a).conflicts e.candidate.access <;> rfl

/-- Behind a run the mutex is as it was, unless the last operation that wrote it belongs to the run. -/
theorem announce_lock_reach {a : Addr} (hu : m.reach s (procs u) = .ok m₁)
    (hrun : IsRun (system s m).offers (u ++ w)) (hm₂ : m.reach s (procs (u ++ w)) = .ok m₂) :
    (∀ t, m₂.announce s t (.lock a) = m₁.announce s t (.lock a)) ∨
      ∃ e, m₂.lastWrite? a = some e ∧ e.candidate ∈ w := by
  induction w using List.reverseRecOn generalizing m₂ with
  | nil =>
      rw [List.append_nil, hu] at hm₂
      cases hm₂
      exact .inl fun t => rfl
  | append_singleton w c ih =>
      rw [← List.append_assoc] at hrun hm₂
      obtain ⟨m₃, hm₃, hc, hcalm, hreach⟩ := reach_of_mem_offers hrun.offered
      rw [hreach] at hm₂
      obtain ⟨e, rfl, hevents, -⟩ := events_turn hcalm hc hm₂
      rw [lastWrite?_concat hevents]
      cases hconflicts : (Access.read a).conflicts e.candidate.access with
      | true => exact .inr ⟨e, by simp, by simp⟩
      | false =>
          simp only [announce_lock_turn hcalm hc hm₂ hconflicts, Bool.false_eq_true, if_false]
          rcases ih hrun.left hm₃ with hsame | ⟨e', he', hmem⟩
          · exact .inl hsame
          · exact .inr ⟨e', he', List.mem_append_left _ hmem⟩

/-- **A run that does not break resumes**: whoever waits for a mutex does so because of an operation
that something offered depends on. -/
theorem Orderly.resumes (ho : Orderly s m) (hempty : ∀ th ∈ m.threads, th.buffer = [])
    (hrun : IsRun (system s m).offers ops) (hbreaks : ¬ Breaks s m ops) :
    (system s m).Resumes ops := by
  rintro c ⟨m₁, hm₁, ⟨hc, -⟩ | ⟨t, a, rfl, hwaits⟩⟩
  · exact .inl (mem_offers_system.mpr ⟨m₁, hm₁, hc⟩)
  refine .inr fun u w hequiv hu _ => ?_
  obtain ⟨m₂, hm₂, halike, -⟩ := reach_of_equivalent ho hempty hequiv hrun hm₁
  have hlive := ((ho.lawful hempty).same_of_equivalent (u := []) hequiv
    ⟨hrun, fault_system_eq_none.mpr ⟨m₁, hm₁⟩⟩).1
  have hwaits₂ : m₂.Waits s t a := by
    rw [← waits_core, ← halike.core, waits_core]
    exact hwaits
  obtain ⟨th, hth, hup, hwait, -⟩ := hwaits₂
  have hoffered : m₂.offered s ≠ [] := by
    intro hnil
    refine hbreaks fun m' hm' => ?_
    obtain rfl := Except.ok.inj (hm₁.symm.trans hm')
    refine ⟨halike.offered_eq.trans hnil, ?_⟩
    -- the thread that waits is not done
    rw [halike.isDone_eq, ← Bool.not_eq_true, isDone, List.all_eq_true]
    intro hall
    have hdone := hall th (List.mem_of_getElem? hth)
    simp [Thread.isDone, (th.of_upcoming s hup).1] at hdone
  obtain ⟨m₃, hm₃, hlock⟩ := mem_offers_system.mp hu
  have hfree : m₃.announce s t (.lock a) ≠ none := by
    cases hlock with
    | @thread t' th' op _ hth' hup' hadm =>
        obtain ⟨ha, hp, -⟩ := admits_eq_some.mp hadm
        cases hp
        cases op with
        | lock b =>
            have hb := announce_eq_some ha
            cases hb
            rw [ha]
            exact Option.some_ne_none _
        | store b x =>
            have hb := announce_eq_some ha
            simp only at hb
            split at hb <;> cases hb
        | join x =>
            rcases announce_eq_some ha with hb | ⟨j, hb⟩ <;> cases hb
        | _ => cases ha
  rcases announce_lock_reach hm₃ hlive.run hm₂ with hsame | ⟨e, he, hmem⟩
  · rw [← hsame t, hwait] at hfree
    exact absurd rfl hfree
  · obtain ⟨d, hd, hdep⟩ := (ho _ m₂ hm₂).held t a e (by rwa [← waits_core, ← halike.core, waits_core])
      he hoffered
    refine ⟨d, mem_offers_system.mpr ⟨m₁, hm₁, (offered_congr halike.core).mpr hd⟩, fun hi => ?_⟩
    rw [hi e.candidate hmem] at hdep
    cases hdep

/-! ### Runs are finite -/

/-- No run goes on for ever. -/
def Halts (s : Setup) (m : Machine) : Prop :=
  ¬ ∃ f : Nat → Proc, ∀ n, ∃ m', m.reach s ((List.range n).map f) = .ok m'

/-- Runs of any length go on behind the turns of `ps`. -/
def Endless (s : Setup) (m : Machine) (ps : List Proc) : Prop :=
  ∀ n, ∃ qs m', n ≤ qs.length ∧ m.reach s (ps ++ qs) = .ok m'

theorem Endless.exists_reach (h : Endless s m ps) : ∃ m', m.reach s ps = .ok m' := by
  obtain ⟨qs, m', -, hm'⟩ := h 0
  rw [reach_append] at hm'
  cases hm : m.reach s ps with
  | error why =>
      rw [hm] at hm'
      cases hm'
  | ok m₁ => exact ⟨m₁, rfl⟩

theorem Endless.exists_concat (h : Endless s m ps) : ∃ p, Endless s m (ps ++ [p]) := by
  obtain ⟨m₁, hm₁⟩ := h.exists_reach
  by_contra hno
  have hbound : ∀ p, ∃ n, ∀ qs m', n ≤ qs.length → m.reach s (ps ++ [p] ++ qs) ≠ .ok m' := by
    intro p
    have := not_exists.mp hno p
    simp only [Endless, not_forall, not_exists, not_and] at this
    exact this
  choose bound hbound using hbound
  obtain ⟨qs, m', hle, hm'⟩ := h ((procs (m₁.offered s)).toFinset.sup bound + 1)
  cases qs with
  | nil => simp at hle
  | cons p qs =>
      have hfollow := hm'
      rw [reach_append, hm₁, ok_bind] at hfollow
      obtain ⟨c, -, hc, hcp, -⟩ := follow_cons_eq_ok hfollow
      have hp : p ∈ procs (m₁.offered s) := mem_procs_offered.mpr ⟨c, hc, hcp⟩
      have hbp : bound p ≤ (procs (m₁.offered s)).toFinset.sup bound :=
        Finset.le_sup (List.mem_toFinset.mpr hp)
      refine hbound p qs m' ?_ (by simpa using hm')
      rw [List.length_cons] at hle
      omega

/-- **Runs that are all finite have a common bound.** -/
theorem Halts.exists_bound (h : Halts s m) : ∃ n, ∀ ps m', m.reach s ps = .ok m' → ps.length < n := by
  by_contra hno
  have hendless : Endless s m [] := by
    intro n
    by_contra hn
    refine hno ⟨n, fun ps m' hm' => ?_⟩
    by_contra hlt
    exact hn ⟨ps, m', Nat.le_of_not_lt hlt, hm'⟩
  choose next hnext using fun (x : { ps // Endless s m ps }) => x.2.exists_concat
  let path : Nat → { ps // Endless s m ps } :=
    Nat.rec ⟨[], hendless⟩ fun _ x => ⟨x.1 ++ [next x], hnext x⟩
  have hpath : ∀ n, (List.range n).map (fun i => next (path i)) = (path n).1 := by
    intro n
    induction n with
    | zero => rfl
    | succ n ih =>
        rw [List.range_succ, List.map_append, ih]
        rfl
  refine h ⟨fun i => next (path i), fun n => ?_⟩
  rw [hpath]
  exact (path n).2.exists_reach

theorem length_threads_reach (h : m.reach s ps = .ok m') :
    m'.threads.length ≤ m.threads.length + ps.length := by
  induction ps using List.reverseRecOn generalizing m' with
  | nil =>
      rw [reach_nil] at h
      obtain ⟨-, log, rfl⟩ := rest_eq_ok h
      simp [ran]
  | append_singleton ps p ih =>
      obtain ⟨c, m₁, hm₁, hc, rfl, hturn⟩ := reach_concat_eq_ok h
      obtain ⟨k, -, hlength⟩ := length_turn (calm_reach hm₁) hc hturn
      have hchild : k.child.toList.length ≤ 1 := by cases k.child <;> simp
      have := ih hm₁
      rw [List.length_append, List.length_singleton]
      omega

theorem nodup_offers (s : Setup) (m : Machine) (ps : List Proc) :
    (procs ((system s m).offers ps)).Nodup := by
  simp only [system]
  split
  · exact nodup_offered s _
  · exact List.nodup_nil

/-- The processes of the first `n` threads. -/
def procsBelow (n : Nat) : List Proc := (List.range n).map .thread ++ (List.range n).map .flush

theorem mem_procsBelow {p : Proc} {n : Nat} (h : p.owner < n) : p ∈ procsBelow n := by
  cases p with
  | thread t => exact List.mem_append_left _ (List.mem_map_of_mem (List.mem_range.mpr h))
  | flush t => exact List.mem_append_right _ (List.mem_map_of_mem (List.mem_range.mpr h))

theorem procs_subset_procsBelow {n : Nat} (hrun : IsRun (system s m).offers ops)
    (hlen : m.threads.length + ops.length ≤ n + 1) : procs ops ⊆ procsBelow n := by
  intro p hp
  obtain ⟨c, hc, rfl⟩ := List.mem_map.mp hp
  obtain ⟨u, v, rfl⟩ := List.append_of_mem hc
  obtain ⟨m₁, hm₁, hoff⟩ := mem_offers_system.mp hrun.offered
  have howner := hoff.owner_lt
  have hthreads := length_threads_reach hm₁
  rw [procs, List.length_map] at hthreads
  rw [List.length_append, List.length_cons] at hlen
  exact mem_procsBelow (by omega)

/-- The runs are bounded in length, and so are the processes that occur in them. -/
theorem Halts.exists_procs (h : Halts s m) :
    ∃ n qs, ∀ ops, IsRun (system s m).offers ops → ops.length ≤ n ∧ procs ops ⊆ qs := by
  obtain ⟨n, hn⟩ := h.exists_bound
  have hlen : ∀ ops, IsRun (system s m).offers ops → ops.length ≤ n := by
    intro ops hrun
    cases ops using List.reverseRecOn with
    | nil => simp
    | append_singleton ops c =>
        obtain ⟨m₁, hm₁, -⟩ := mem_offers_system.mp hrun.offered
        have := hn _ m₁ hm₁
        rw [procs, List.length_map] at this
        rw [List.length_append, List.length_singleton]
        omega
  refine ⟨n, procsBelow (m.threads.length + n), fun ops hrun => ⟨hlen ops hrun, ?_⟩⟩
  have := hlen ops hrun
  exact procs_subset_procsBelow hrun (by omega)

/-! ### Checking all scheduling points -/

/-- Whether what thread number `u` does next depends on how many threads there are. -/
def countsThreads (s : Setup) (m : Machine) (u : Nat) : Bool :=
  match (m.threads[u]?).map (Thread.upcoming s) with
  | some (.ok (some (.spawn _ _))) => true
  | some (.ok (some (.join v))) => (m.joinee? u v).isNone
  | _ => false

theorem CountsThreads.countsThreads {u : Nat} (h : m.CountsThreads s u) :
    m.countsThreads s u = true := by
  obtain ⟨th, op, hth, hup, ⟨d, f, rfl⟩ | ⟨v, rfl, hjoinee⟩⟩ := h
  · simp [Machine.countsThreads, hth, hup]
  · simp [Machine.countsThreads, hth, hup, hjoinee]

/-- Whether the candidate may be offered beside the others. -/
def isInOrderBeside (s : Setup) (m : Machine) (c : Candidate) : Bool :=
  match c.access with
  | .spawn _ => (List.range m.threads.length).all fun u => c.proc == .thread u || !m.countsThreads s u
  | .unlock a => (m.offered s).all fun d =>
      c.proc == d.proc || d.access != .lock a && d.access != .unlock a
  | .enqueue _ => (m.offered s).all fun d => d.proc != .flush c.proc.owner
  | _ => true

/-- Whether thread number `t` does not wait for a mutex in vain. -/
def isHeld (s : Setup) (m : Machine) (t : Nat) : Bool :=
  match (m.threads[t]?).map (Thread.upcoming s) with
  | some (.ok (some (.lock a))) =>
    (m.announce s t (.lock a)).isSome || (m.offered s).isEmpty ||
      (m.lastWrite? a).all fun e => (m.offered s).any fun d => d.dependent e.candidate
  | _ => true

/-- Whether the scheduling point is in order. -/
def isInOrder (s : Setup) (m : Machine) : Bool :=
  (m.offered s).all (m.isInOrderBeside s) && (List.range m.threads.length).all (m.isHeld s)

theorem inOrder_of_isInOrder (h : m.isInOrder s = true) : m.InOrder s := by
  obtain ⟨hbeside, hheld⟩ := Bool.and_eq_true_iff.mp h
  replace hbeside := fun c hc => List.all_eq_true.mp hbeside c (mem_offered.mpr hc)
  constructor
  · rintro c d hc hne ⟨⟨n, hn⟩, u, hu, hcounts⟩
    have hall := hbeside c hc
    simp only [isInOrderBeside, hn, List.all_eq_true, List.mem_range, Bool.or_eq_true, beq_iff_eq,
      Bool.not_eq_true'] at hall
    have hlt : u < m.threads.length := by
      obtain ⟨th, _, hth, -⟩ := hcounts
      exact (List.getElem?_eq_some_iff.mp hth).1
    rcases hall u hlt with hcu | hcu
    · exact hne (hcu.trans hu.symm)
    · rw [hcounts.countsThreads] at hcu
      cases hcu
  · intro c d a hc hd hne ha
    have hall := hbeside c hc
    simp only [isInOrderBeside, ha, List.all_eq_true, Bool.or_eq_true, Bool.and_eq_true, beq_iff_eq,
      bne_iff_ne] at hall
    exact (hall d (mem_offered.mpr hd)).resolve_left hne
  · intro c d t hc hd hp henq
    have hall := hbeside c hc
    cases ha : c.access with
    | enqueue a =>
        simp only [isInOrderBeside, ha, List.all_eq_true, bne_iff_ne] at hall
        have := hall d (mem_offered.mpr hd)
        rwa [hp] at this
    | _ => simp [ha, Access.isEnqueue] at henq
  · rintro t a e ⟨th, hth, hup, hwait, -⟩ he hne
    have hall := List.all_eq_true.mp hheld t (List.mem_range.mpr (List.getElem?_eq_some_iff.mp hth).1)
    simp only [isHeld, hth, Option.map_some, hup, hwait, he, Option.isSome_none, Bool.false_or,
      Bool.or_eq_true, List.isEmpty_iff, Option.all_some, List.any_eq_true] at hall
    obtain ⟨d, hd, hdep⟩ := hall.resolve_left hne
    exact ⟨d, mem_offered.mp hd, hdep⟩

/-- If all runs are checked, the scheduling points are in order and no run goes on for ever. -/
theorem orderly_of_holdsAlways {n : Nat}
    (h : (m.rest s).toOption.all (holdsAlways s (isInOrder s) n) = true) :
    Orderly s m ∧ Halts s m := by
  refine ⟨fun ps m' hm' => inOrder_of_isInOrder (of_holdsAlways_rest h hm').1, fun ⟨f, hf⟩ => ?_⟩
  obtain ⟨m', hm'⟩ := hf (n + 1)
  have := (of_holdsAlways_rest h hm').2
  rw [List.length_map, List.length_range] at this
  omega

end Machine

end Interleave
