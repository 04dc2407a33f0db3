import Interleave.Proofs.Machine.Linearize
import Interleave.Proofs.Memory.Crossing

/-! # When a memory graph without cycle is enough

The memory graph knows nothing of the creation and the joining of threads.  So a run with an acyclic
memory graph need not have a counterpart without buffers (`Machine.not_exists_unbuffered_lateReader`).
It has one if no store of another thread waits whenever a thread creates or joins one (`Machine.Quiet`):
then what has to come before what is without cycle, too (`Machine.not_transGen_precedes`).  For suppose
that a cycle passes a junction, and take the last one.  From behind it the cycle leads back to an access
before it, which is a store that waits there (`Machine.linked_back`).  The store is one of the thread that
joins, so it comes before what that thread does behind the junction, and this is a cycle of the memory
graph.  Runs with at most two threads are quiet (`Machine.Course.quiet_of_length_le_two`). -/

namespace Interleave

open Memory

/-- A thread is created or joined. -/
def Access.isJunction : Access → Bool
  | spawn _ => true
  | join _ => true
  | _ => false

/-- The event creates or joins a thread. -/
def Event.isJunction (e : Event) : Bool := e.kind.access.isJunction

namespace Machine

variable {s : Setup} {m₀ m : Machine} {es : List Event} {st : Nat → Machine} {e f : Event}
  {i j k p t u v w z : Nat}

/-! ### Links -/

/-- Event number `i` is an operation of thread number `t`. -/
def IsBy (es : List Event) (t i : Nat) : Prop := ∃ e, es[i]? = some e ∧ e.proc = .thread t

theorem IsBy.unique (h : IsBy es t i) (h' : IsBy es u i) : t = u := by
  obtain ⟨e, he, hp⟩ := h
  obtain ⟨f, hf, hp'⟩ := h'
  rw [Option.some.inj (he.symm.trans hf), hp'] at hp
  exact (Proc.thread.inj hp).symm

theorem IsBy.transGen (h : IsBy es t i) (h' : IsBy es t j) (hi : Event.nodeAt es i = some v)
    (hj : Event.nodeAt es j = some w) (hij : i < j) : Relation.TransGen (graphOf es).Edge v w := by
  have hnode : ∀ {i v}, IsBy es t i → Event.nodeAt es i = some v →
      ∃ n, (graphOf es).nodes[v]? = some n ∧ n.thread = t := by
    rintro i v ⟨e, he, hp⟩ hi
    obtain ⟨f, x, hf, hx, -⟩ := Event.nodeAt_eq_some.mp hi
    obtain rfl : e = f := Option.some.inj (he.symm.trans hf)
    obtain ⟨n, hn⟩ := Option.isSome_iff_exists.mp
      (((Ledger.ofEvents (es.take i)).isSome_node? e).trans (by simp [hx]))
    refine ⟨n, (Event.getElem?_nodes he hi).trans hn, ?_⟩
    have := Ledger.proc_of_node? hn
    rw [hp] at this
    exact (Proc.thread.inj this).symm
  obtain ⟨n, hn, ht⟩ := hnode h hi
  obtain ⟨n', hn', ht'⟩ := hnode h' hj
  refine Graph.transGen_of_thread hn hn' (ht.trans ht'.symm) ?_
  have hlt := Event.nodeAt_lt hi hij
  obtain ⟨-, -, -, -, rfl⟩ := Event.nodeAt_eq_some.mp hj
  exact hlt

/-- The access `v` is by the thread of event number `i` and not earlier. -/
def Ahead (es : List Event) (i v : Nat) : Prop :=
  ∃ t k, IsBy es t i ∧ IsBy es t k ∧ i ≤ k ∧ Event.nodeAt es k = some v

/-- The access `w` is by the thread of event number `j` and not later. -/
def Made (es : List Event) (j w : Nat) : Prop :=
  ∃ t k, IsBy es t j ∧ IsBy es t k ∧ k ≤ j ∧ Event.nodeAt es k = some w

theorem Made.reflTransGen (hw : Made es i w) (hv : Ahead es i v) :
    Relation.ReflTransGen (graphOf es).Edge w v := by
  obtain ⟨t, j, hi, hj, hji, hw⟩ := hw
  obtain ⟨u, k, hi', hk, hik, hv⟩ := hv
  obtain rfl := hi.unique hi'
  rcases Nat.lt_or_eq_of_le (hji.trans hik) with hjk | rfl
  · exact (hj.transGen hk hw hv hjk).to_reflTransGen
  · rw [Option.some.inj (hw.symm.trans hv)]

/-- Event number `j` comes behind event number `i` in the same thread, or the memory graph leads from one
to the other. -/
def Linked (es : List Event) (i j : Nat) : Prop :=
  (∃ t, IsBy es t i ∧ IsBy es t j ∧ i < j) ∨
    ∃ v w, Ahead es i v ∧ Made es j w ∧ Relation.TransGen (graphOf es).Edge v w

theorem Linked.trans (hij : Linked es i j) (hjk : Linked es j k) : Linked es i k := by
  rcases hij with ⟨t, hi, hj, hij⟩ | ⟨v, w, hv, hw, hvw⟩
  · rcases hjk with ⟨u, hj', hk, hjk⟩ | ⟨v', w', ⟨u, l, hj', hl, hjl, hv'⟩, hw', hvw'⟩
    · obtain rfl := hj.unique hj'
      exact .inl ⟨t, hi, hk, hij.trans hjk⟩
    · obtain rfl := hj.unique hj'
      exact .inr ⟨v', w', ⟨t, l, hi, hl, by omega, hv'⟩, hw', hvw'⟩
  · rcases hjk with ⟨u, hj', hk, hjk⟩ | ⟨v', w', hv', hw', hvw'⟩
    · obtain ⟨t, l, hj, hl, hlj, hw⟩ := hw
      obtain rfl := hj.unique hj'
      exact .inr ⟨v, w, hv, ⟨t, l, hk, hl, by omega, hw⟩, hvw⟩
    · exact .inr ⟨v, w', hv, hw', (hvw.trans_left (hw.reflTransGen hv')).trans hvw'⟩

/-- No thread is created or joined by event number `i`. -/
def Plain (es : List Event) (i : Nat) : Prop := ∀ e, es[i]? = some e → e.isJunction = false

theorem plain_of_nodeAt (hi : Event.nodeAt es i = some v) : Plain es i := by
  intro e he
  obtain ⟨f, x, hf, hx, -⟩ := Event.nodeAt_eq_some.mp hi
  obtain rfl : e = f := Option.some.inj (he.symm.trans hf)
  obtain ⟨proc, site, kind⟩ := e
  cases proc <;> cases kind <;> first | rfl | cases hx

theorem linked_of_edge (hv : Event.nodeAt es i = some v) (hw : Event.nodeAt es j = some w)
    (hvw : (graphOf es).Edge v w) : Linked es i j := by
  obtain ⟨e, t, he, hp⟩ := thread_of_nodeAt hv
  obtain ⟨f, u, hf, hp'⟩ := thread_of_nodeAt hw
  exact .inr ⟨v, w, ⟨t, i, ⟨e, he, hp⟩, ⟨e, he, hp⟩, le_rfl, hv⟩,
    ⟨u, j, ⟨f, hf, hp'⟩, ⟨f, hf, hp'⟩, le_rfl, hw⟩, .single hvw⟩

/-- Apart from junctions, what has to come first is linked to what comes behind it. -/
theorem linked_of_precedes (hij : Precedes es (graphOf es) i j) (hi : Plain es i) (hj : Plain es j) :
    Linked es i j := by
  cases hij with
  | @thread t e f he hf hlt hgov haw =>
      rw [Event.governs, Bool.or_eq_true, beq_iff_eq, beq_iff_eq] at hgov
      rw [Event.awaits, Bool.or_eq_true, beq_iff_eq, beq_iff_eq] at haw
      refine .inl ⟨t, ⟨e, he, hgov.resolve_right fun hn => ?_⟩, ⟨f, hf, haw.resolve_right fun hn => ?_⟩,
        hlt⟩
      · have := hi e he
        simp [Event.isJunction, hn, EventKind.access, Access.isJunction] at this
      · have := hj f hf
        simp [Event.isJunction, hn, EventKind.access, Access.isJunction] at this
  | @creation e f he hf hlt hs _ =>
      obtain ⟨n, hn⟩ := Event.spawns_iff.mp hs
      have := hi e he
      simp [Event.isJunction, hn, EventKind.access, Access.isJunction] at this
  | @access v w hv hw hvw => exact linked_of_edge hv hw hvw

theorem linked_of_transGen (hij : Relation.TransGen (Precedes es (graphOf es)) i j)
    (hplain : ∀ k, Relation.ReflTransGen (Precedes es (graphOf es)) i k →
      Relation.ReflTransGen (Precedes es (graphOf es)) k j → Plain es k) : Linked es i j := by
  induction hij with
  | single hij => exact linked_of_precedes hij (hplain i .refl (.single hij)) (hplain _ (.single hij) .refl)
  | @tail k j hik hkj ih =>
      have hk := hplain k hik.to_reflTransGen (.single hkj)
      refine (ih fun l hil hlk => hplain l hil (hlk.tail hkj)).trans ?_
      exact linked_of_precedes hkj hk (hplain j (hik.tail hkj).to_reflTransGen .refl)

theorem not_linked_self (hacyclic : ∀ v, ¬ Relation.TransGen (graphOf es).Edge v v) (i : Nat) :
    ¬ Linked es i i := by
  rintro (⟨t, -, -, hlt⟩ | ⟨v, w, hv, hw, hvw⟩)
  · exact Nat.lt_irrefl i hlt
  · exact hacyclic v (hvw.trans_left (hw.reflTransGen hv))

/-! ### Junctions -/

/-- What has to come first, though it came later, is linked to a store that waited in between. -/
theorem linked_of_precedes_back (hij : Precedes es (graphOf es) i j) (hp : ¬ Plain es p) (hjp : j ≤ p)
    (hpi : p < i) : j < p ∧ Linked es i j ∧
      ∃ u, IsBy es u j ∧ (Ledger.ofEvents (es.take p)).waiting u ≠ [] := by
  cases hij with
  | thread _ _ hlt _ _ => omega
  | creation _ _ hlt _ _ => omega
  | @access v w hv hw hvw =>
      have hne : j ≠ p := by
        rintro rfl
        exact hp (plain_of_nodeAt hw)
      have hlt : j < p := by omega
      refine ⟨hlt, linked_of_edge hv hw hvw, ?_⟩
      have hwaits : (Ledger.ofEvents (es.take p)).Waits w := by
        rw [show graphOf es = graphOf (es.take p ++ es.drop p) by rw [List.take_append_drop]] at hvw
        refine Ledger.waits_of_edge_back ?_ ?_ hvw
        · rw [← Ledger.length_values]
          obtain ⟨-, -, -, -, rfl⟩ := Event.nodeAt_eq_some.mp hv
          have hsub : (es.take p).Sublist (es.take i) := List.take_sublist_take_left (Nat.le_of_lt hpi)
          exact (hsub.filterMap _).length_le
        · rw [← Ledger.length_values]
          exact Event.nodeAt_lt hw hlt
      -- the store that waits is by the thread in whose buffer it is
      obtain ⟨u, x, hx, rfl⟩ := hwaits
      obtain ⟨visible, hvisible⟩ := Ledger.visible_ofEvents (es.take p)
      obtain ⟨e, -, he, -, -⟩ := Event.nodeAt_eq_some.mp hw
      rw [← Event.nodeAt_take hlt] at hw
      have he' : (es.take p)[j]? = some e := by rw [List.getElem?_take_of_lt hlt, he]
      have hproc := Ledger.proc_of_node?
        ((Event.getElem?_nodes he' hw).symm.trans (hvisible.waiting u x hx).2)
      exact ⟨u, ⟨e, he, hproc⟩, List.ne_nil_of_mem hx⟩

/-- From behind a junction to the junction, the way leads over a store that waits there. -/
theorem linked_back (hp : ¬ Plain es p) (hz : p < z)
    (hzp : Relation.ReflTransGen (Precedes es (graphOf es)) z p)
    (hplain : ∀ k, p < k → Relation.ReflTransGen (Precedes es (graphOf es)) z k →
      Relation.ReflTransGen (Precedes es (graphOf es)) k p → Plain es k) :
    ∃ j u, j < p ∧ Linked es z j ∧ IsBy es u j ∧ (Ledger.ofEvents (es.take p)).waiting u ≠ [] := by
  induction hzp using Relation.ReflTransGen.head_induction_on with
  | refl => exact absurd hz (Nat.lt_irrefl p)
  | @head z k hzk hkp ih =>
      by_cases hk : p < k
      · obtain ⟨j, u, hj, hlinked, hu⟩ := ih hk fun l hl hkl hlp => hplain l hl (.head hzk hkl) hlp
        have hlinked' := linked_of_precedes hzk (hplain z hz .refl (.head hzk hkp))
          (hplain k hk (.single hzk) hkp)
        exact ⟨j, u, hj, hlinked'.trans hlinked, hu⟩
      · obtain ⟨hlt, hlinked, u, hu⟩ := linked_of_precedes_back hzk hp (Nat.le_of_not_lt hk) hz
        exact ⟨k, u, hlt, hlinked, hu⟩

/-- When a thread creates or joins one, no store of another thread waits, and none of its own when it
creates one. -/
structure Quiet (es : List Event) : Prop where
  spawn : ∀ (p : Nat) e, es[p]? = some e → e.spawns = true →
    ∀ u, (Ledger.ofEvents (es.take p)).waiting u = []
  join : ∀ (p : Nat) e t c, es[p]? = some e → e.proc = .thread t → e.kind = .join c →
    ∀ u ≠ t, (Ledger.ofEvents (es.take p)).waiting u = []

/-- No cycle passes a junction. -/
theorem plain_of_cycle (hquiet : Quiet es) (hacyclic : ∀ v, ¬ Relation.TransGen (graphOf es).Edge v v)
    (hpp : Relation.TransGen (Precedes es (graphOf es)) p p) : Plain es p := by
  induction hd : es.length - p using Nat.strong_induction_on generalizing p with
  | _ d ih =>
      by_contra hp
      obtain ⟨z, hpz, hzp⟩ := Relation.TransGen.head'_iff.mp hpp
      obtain ⟨f, hf, hjunction⟩ : ∃ f, es[p]? = some f ∧ f.isJunction = true := by
        simpa [Plain] using hp
      -- the junctions behind this one are not on the cycle
      have hplain : ∀ k, p < k → Relation.ReflTransGen (Precedes es (graphOf es)) z k →
          Relation.ReflTransGen (Precedes es (graphOf es)) k p → Plain es k := by
        intro k hpk hzk hkp e he
        have hlt := (List.getElem?_eq_some_iff.mp he).1
        have hkk := (Relation.TransGen.tail' hkp hpz).trans_left hzk
        exact ih (es.length - k) (by omega) hkk rfl e he
      have hback := fun hz => linked_back hp hz hzp hplain
      have hspawn : f.spawns = true → p < z → False := by
        intro hs hz
        obtain ⟨j, u, -, -, -, hwaiting⟩ := hback hz
        exact hwaiting (hquiet.spawn p f hf hs u)
      cases hpz with
      | access hv _ _ => exact hp (plain_of_nodeAt hv)
      | @creation e _ he _ hlt hs _ =>
          obtain rfl : f = e := Option.some.inj (hf.symm.trans he)
          exact hspawn hs hlt
      | @thread t e g he hg hlt hgov haw =>
          obtain rfl : f = e := Option.some.inj (hf.symm.trans he)
          rw [Event.governs, Bool.or_eq_true, beq_iff_eq, beq_iff_eq] at hgov
          rcases hgov with hproc | hn
          · cases hk : f.kind with
            | spawn n => exact hspawn (Event.spawns_iff.mpr ⟨n, hk⟩) hlt
            | join c =>
                -- the store that waits comes before what the thread does behind the junction
                obtain ⟨j, u, hj, hlinked, hu, hwaiting⟩ := hback hlt
                obtain rfl : u = t := by
                  by_contra hne
                  exact hwaiting (hquiet.join p f t c hf hproc hk u hne)
                have hz : IsBy es u z := by
                  rw [Event.awaits, Bool.or_eq_true, beq_iff_eq, beq_iff_eq] at haw
                  refine ⟨g, hg, haw.resolve_right fun hn => ?_⟩
                  have := hplain z hlt .refl hzp g hg
                  simp [Event.isJunction, hn, EventKind.access, Access.isJunction] at this
                have hlinked' : Linked es j z := .inl ⟨u, hu, hz, hj.trans hlt⟩
                exact not_linked_self hacyclic z (hlinked.trans hlinked')
            | _ => simp [Event.isJunction, hk, EventKind.access, Access.isJunction] at hjunction
          · exact hspawn (Event.spawns_iff.mpr ⟨t, hn⟩) hlt

/-- **In a quiet run no event has to come before itself** unless the memory graph has a cycle. -/
theorem not_transGen_precedes (hquiet : Quiet es)
    (hacyclic : ∀ v, ¬ Relation.TransGen (graphOf es).Edge v v) (i : Nat) :
    ¬ Relation.TransGen (Precedes es (graphOf es)) i i := by
  intro hii
  refine not_linked_self hacyclic i (linked_of_transGen hii fun k hik hki => ?_)
  -- every event of the cycle is on a cycle
  rcases Relation.reflTransGen_iff_eq_or_transGen.mp hik with rfl | hik
  · exact plain_of_cycle hquiet hacyclic hii
  · exact plain_of_cycle hquiet hacyclic (hik.trans_right hki)

/-! ### Quiet runs -/

/-- Whenever one of the processes, taking their turns, creates or joins a thread, no store of another
thread waits. -/
def quietAtJunctions (s : Setup) (m₀ : Machine) (ps : List Proc) : Bool :=
  (List.range ps.length).all fun k => (m₀.reach s (ps.take k)).toOption.all fun m =>
    (m.offered s).all fun c => !(ps[k]? == some c.proc && c.access.isJunction) ||
      m.threads.zipIdx.all fun (th, u) => u == c.proc.owner || th.buffer.isEmpty

theorem Course.quiet (h : Course s m₀ es st) (htold : m₀.Told)
    (hbuffers : ∀ th ∈ m₀.threads, th.buffer = [])
    (hempty : ∀ (p : Nat) e u th, es[p]? = some e → e.isJunction = true → u ≠ e.proc.owner →
      (st p).threads[u]? = some th → th.buffer = []) : Quiet es := by
  refine ⟨fun p e he hs u => ?_, fun p e t c he hproc hkind u hu => ?_⟩
  · have hp := (List.getElem?_eq_some_iff.mp he).1
    obtain ⟨n, hn⟩ := Event.spawns_iff.mp hs
    rw [← h.events p (Nat.le_of_lt hp)]
    refine waiting_of_buffer (told_reach htold (h.reach p (Nat.le_of_lt hp))) fun th hth => ?_
    by_cases hu : u = e.proc.owner
    · -- a thread that creates one has drained its buffer
      by_cases hbuffered : s.buffered = true
      · have hown := (h.turn he).1.drained hbuffered (by rw [access_eq_spawn.mpr hn]; rfl)
        rw [← Thread.bufferAt_of_getElem? hth, hu]
        exact hown
      · exact buffers_reach (by simpa using hbuffered) hbuffers (h.reach p (Nat.le_of_lt hp)) th
          (List.mem_of_getElem? hth)
    · exact hempty p e u th he (by simp [Event.isJunction, hn, EventKind.access, Access.isJunction]) hu hth
  · have hp := (List.getElem?_eq_some_iff.mp he).1
    rw [← h.events p (Nat.le_of_lt hp)]
    refine waiting_of_buffer (told_reach htold (h.reach p (Nat.le_of_lt hp))) fun th hth => ?_
    refine hempty p e u th he (by simp [Event.isJunction, hkind, EventKind.access, Access.isJunction]) ?_ hth
    rwa [hproc]

theorem Course.quiet_of_quietAtJunctions (h : Course s m₀ es st) (htold : m₀.Told)
    (hbuffers : ∀ th ∈ m₀.threads, th.buffer = [])
    (hall : quietAtJunctions s m₀ (es.map Event.proc) = true) : Quiet es := by
  refine h.quiet htold hbuffers fun p e u th he hjunction hu hth => ?_
  have hp := (List.getElem?_eq_some_iff.mp he).1
  have hall := List.all_eq_true.mp hall p (by simpa using hp)
  rw [← List.map_take, h.reach p (Nat.le_of_lt hp)] at hall
  have hc := List.all_eq_true.mp hall e.candidate (mem_offered.mpr (h.turn he).1)
  have hjunction : e.candidate.access.isJunction = true := hjunction
  have hproc : e.proc = e.candidate.proc := rfl
  rw [List.getElem?_map, he, Option.map_some, hproc, hjunction, beq_self_eq_true, Bool.and_true,
    Bool.not_true, Bool.false_or] at hc
  have := List.all_eq_true.mp hc (th, u) (List.mem_zipIdx_iff_getElem?.mpr hth)
  rw [hproc] at hu
  simpa [hu] using this

/-- With one other thread at most, none of its stores waits when it is created or joined. -/
theorem Course.quiet_of_length_le_two (h : Course s m₀ es st) (htold : m₀.Told)
    (hbuffers : ∀ th ∈ m₀.threads, th.buffer = [])
    (htwo : (st es.length).threads.length ≤ 2) : Quiet es := by
  refine h.quiet htold hbuffers fun p e u th he hjunction hne hth => ?_
  have hp := (List.getElem?_eq_some_iff.mp he).1
  obtain ⟨hc, -, -⟩ := h.turn he
  have hlt := (List.getElem?_eq_some_iff.mp hth).1
  have howner : e.proc.owner < (st p).threads.length := hc.owner_lt
  have hle := h.length_le (Nat.le_of_lt hp) le_rfl
  cases hk : e.kind with
  | spawn n =>
      have := h.length_spawn he hk
      have := h.length_le (i := p + 1) hp le_rfl
      omega
  | join c =>
      have ha : e.candidate.access = .join c := by rw [Event.candidate, hk]; rfl
      have hdone := hc.isDone_of_join ha
      have hother : e.proc.owner ≠ c := hc.of_join ha hc
      have hclt : c < (st p).threads.length := by
        by_contra hge
        rw [List.getElem?_eq_none (by omega)] at hdone
        cases hdone
      obtain rfl : u = c := by omega
      rw [hth] at hdone
      simpa [Thread.isDone] using (Bool.and_eq_true_iff.mp hdone).2
  | _ => simp [Event.isJunction, hk, EventKind.access, Access.isJunction] at hjunction

/-- **A clean verdict on a quiet run can be trusted.**  If a run with buffers has come to its end without
error and no violation is reported, and no store of another thread waits whenever a thread creates or joins
one, which is so in every run with at most two threads, then there is a run without buffers that comes to
its end without error, in which every thread performs the same operations at the same sites and loads the
same values, and that ends with the same memory. -/
theorem exists_unbuffered_of_robust {entry : Nat} {ps : List Proc} (hstart : start s entry = .ok m₀)
    (hreach : m₀.reach s ps = .ok m) (hdone : m.isDone = true)
    (hrobust : m.checkRobustness.1 = false)
    (hquiet : m.threads.length ≤ 2 ∨ quietAtJunctions s m₀ ps = true) :
    start s.unbuffered entry = .ok m₀ ∧
      ∃ qs m', m₀.reach s.unbuffered qs = .ok m' ∧ m'.isDone = true ∧ m'.errors = [] ∧
        m'.memory = m.memory ∧ ∀ t, Event.performed t m'.events = Event.performed t m.events := by
  refine ⟨hstart, exists_unbuffered hstart hreach hdone fun i => ?_⟩
  obtain ⟨th, -, hm₀⟩ := start_eq_ok hstart
  have hevents : m₀.events = [] := by rw [hm₀]
  have htold := told_reach (told_start hstart) hreach
  obtain ⟨hprocs, herrors⟩ := procs_events_reach hreach
  have hnone : m.graph.findCycle = none := by
    unfold checkRobustness at hrobust
    rw [herrors, hm₀] at hrobust
    cases hcycle : m.graph.findCycle with
    | none => rfl
    | some cycle => simp [hcycle] at hrobust
  obtain ⟨st, hst, hlast⟩ := exists_course hevents hreach
  have hquiet : Quiet m.events := by
    rcases hquiet with htwo | hall
    · exact hst.quiet_of_length_le_two (told_start hstart) (buffers_start hstart) (by rwa [hlast])
    · refine hst.quiet_of_quietAtJunctions (told_start hstart) (buffers_start hstart) ?_
      rwa [hprocs, hevents, List.map_nil, List.nil_append]
  rw [htold.graph]
  exact not_transGen_precedes hquiet (htold.findCycle_eq_none_iff.mp hnone) i

/-- The first thread stores `y` and then loads `z`.  The main thread stores `z` and then creates a thread
that loads `y`. -/
def lateReader (buffered : Bool) : Setup :=
  ⟨⟨"r", [⟨"y", 0⟩, ⟨"z", 0⟩],
    [⟨"first", ["a"], [.store (.global 0) (.imm 1), .load 0 (.global 1), .ret]⟩,
      ⟨"late", ["b"], [.load 0 (.global 0), .ret]⟩,
      ⟨"main", ["t", "u"], [.spawn 0 0, .store (.global 1) (.imm 1), .spawn 1 1, .ret]⟩]⟩,
    .standard, buffered, 10⟩

/-- The machine before the first thread is created. -/
def beforeLateReader : Machine := ⟨[0, 0], [⟨2, 0, [0, 0], false, []⟩], [], [], .empty, []⟩

/-- Here `y` waits in the buffer of the first thread only after both threads have been created. -/
theorem exists_unbuffered_of_robust_lateReader :
    ∃ m, beforeLateReader.reach (lateReader true) [.thread 0, .thread 0, .flush 0, .thread 0, .thread 1,
        .thread 1, .thread 2, .flush 1] = .ok m ∧
      m.isDone = true ∧ m.checkRobustness.1 = false ∧ m.threads.length = 3 ∧
      ∃ qs m', beforeLateReader.reach (lateReader false) qs = .ok m' ∧ m'.isDone = true ∧
        m'.errors = [] ∧ m'.memory = m.memory ∧
        ∀ t, Event.performed t m'.events = Event.performed t m.events := by
  have hstart : start (lateReader true) 2 = .ok beforeLateReader := by decide
  have hquiet : quietAtJunctions (lateReader true) beforeLateReader [.thread 0, .thread 0, .flush 0,
      .thread 0, .thread 1, .thread 1, .thread 2, .flush 1] = true := by decide +kernel
  obtain ⟨m, hreach, hm⟩ := exists_of_any (x := beforeLateReader.reach (lateReader true)
    [.thread 0, .thread 0, .flush 0, .thread 0, .thread 1, .thread 1, .thread 2, .flush 1])
    (p := fun m => m.isDone && m.threads.length == 3 && !m.checkRobustness.1) (by decide +kernel)
  simp only [Bool.and_eq_true, beq_iff_eq, Bool.not_eq_true'] at hm
  obtain ⟨⟨hdone, hlength⟩, hrobust⟩ := hm
  exact ⟨m, hreach, hdone, hrobust, hlength,
    (exists_unbuffered_of_robust hstart hreach hdone hrobust (.inr hquiet)).2⟩

/-! ### A run that is not quiet -/

/-- **A clean verdict that is wrong.**  The store to `y` waits while the late reader is created, which
then reads the old value.  Without buffers the first thread has stored `y` before it reads the old `z`,
and the late reader is created after `z` has been stored. -/
theorem not_exists_unbuffered_lateReader :
    start (lateReader true) 2 = .ok beforeLateReader ∧
    ∃ m, beforeLateReader.reach (lateReader true) [.thread 0, .thread 1, .thread 1, .thread 0, .flush 0,
        .thread 0, .thread 2, .flush 1] = .ok m ∧
      m.isDone = true ∧ m.errors = [] ∧ m.checkRobustness.1 = false ∧
      ∀ qs m', beforeLateReader.reach (lateReader true).unbuffered qs = .ok m' → m'.isDone = true →
        ∃ t, Event.performed t m'.events ≠ Event.performed t m.events := by
  refine ⟨by decide, ?_⟩
  obtain ⟨m, hreach, hm⟩ := exists_of_any (x := beforeLateReader.reach (lateReader true)
    [.thread 0, .thread 1, .thread 1, .thread 0, .flush 0, .thread 0, .thread 2, .flush 1])
    (p := fun m => m.isDone && m.errors.isEmpty && !m.checkRobustness.1 &&
      (beforeLateReader.rest (lateReader false)).toOption.all
        (holdsAlways (lateReader false) (fun m' => !m'.isDone || (List.range 3).any fun t =>
          Event.performed t m'.events != Event.performed t m.events) 6)) (by decide +kernel)
  simp only [Bool.and_eq_true, Bool.not_eq_true', List.isEmpty_iff] at hm
  obtain ⟨⟨⟨hdone, herrors⟩, hrobust⟩, halways⟩ := hm
  refine ⟨m, hreach, hdone, herrors, hrobust, fun qs m' hqs hdone' => ?_⟩
  obtain ⟨hdiffer, -⟩ := of_holdsAlways_rest halways hqs
  rw [hdone', Bool.not_true, Bool.false_or] at hdiffer
  obtain ⟨t, -, ht⟩ := List.any_eq_true.mp hdiffer
  exact ⟨t, bne_iff_ne.mp ht⟩

end Machine

end Interleave
