import Interleave.Proofs.Machine.Unbuffered

/-! # The course of a run

The states of a run at its scheduling points, one before each event (`Machine.Course`).  Apart from its
buffer, a thread changes only with the events that govern it, and the number of threads only with those
that create one (`Machine.OnlyBy`).  So all points of a run that have the same such events behind them
agree on the thread (`Machine.Frontier.unique`). -/

namespace Interleave

/-- The event creates a thread. -/
def Event.spawns (e : Event) : Bool :=
  match e.kind with
  | .spawn _ => true
  | _ => false

/-- The operations of thread number `t`, as they are without buffers, with their sites. -/
def Event.performed (t : Nat) (es : List Event) : List (Site × EventKind) :=
  es.filterMap fun e => if e.proc = .thread t then some (e.site, e.kind.plain) else none

theorem Event.performed_concat (t : Nat) (es : List Event) (e : Event) :
    performed t (es ++ [e]) =
      performed t es ++ if e.proc = .thread t then [(e.site, e.kind.plain)] else [] := by
  unfold performed
  by_cases hp : e.proc = .thread t <;> simp [hp]

theorem Event.spawns_iff {e : Event} : e.spawns = true ↔ ∃ n, e.kind = .spawn n := by
  unfold spawns
  split <;> simp_all

namespace Machine

variable {s : Setup} {m₀ m m₁ : Machine} {es : List Event} {st : Nat → Machine} {e : Event}
  {i j q t u : Nat}

/-! ### What a turn leaves as it is -/

/-- A turn changes `f` only if the predicate selects its event. -/
def OnlyBy {α : Type} (s : Setup) (P : Event → Bool) (f : Machine → α) : Prop :=
  ∀ m m₁ e, m.Calm s → m.Offered s e.candidate → m.turn s e.proc = .ok m₁ →
    m₁.events = m.events ++ [e] → P e = false → f m₁ = f m

theorem access_eq_spawn {n : Nat} : e.candidate.access = .spawn n ↔ e.kind = .spawn n := by
  cases hk : e.kind <;> simp [Event.candidate, hk, EventKind.access]

theorem onlyBy_length (s : Setup) : OnlyBy s Event.spawns fun m => m.threads.length := by
  intro m m₁ e hm hc hturn _ he
  obtain ⟨k, hk, hlength⟩ := length_turn hm hc hturn
  have hnone := hk.child_eq_none fun n hn => by
    rw [Event.spawns_iff.mpr ⟨n, access_eq_spawn.mp hn⟩] at he
    cases he
  simpa [hnone] using hlength

theorem length_of_spawn {n : Nat} (hm : m.Calm s) (hc : m.Offered s e.candidate)
    (hturn : m.turn s e.proc = .ok m₁) (hn : e.kind = .spawn n) :
    n = m.threads.length ∧ m₁.threads.length = n + 1 := by
  obtain ⟨rfl, -⟩ := hc.of_spawn (access_eq_spawn.mpr hn)
  obtain ⟨k, hk, hlength⟩ := length_turn hm hc hturn
  obtain ⟨new, hnew⟩ := Option.isSome_iff_exists.mp (hk.child.mpr (access_eq_spawn.mpr hn))
  exact ⟨rfl, by simpa [hnew] using hlength⟩

theorem onlyBy_alone (s : Setup) (u : Nat) : OnlyBy s (Event.governs u) fun m => m.alone u := by
  intro m m₁ e hm hc hturn _ he
  rw [Event.governs, Bool.or_eq_false_iff, beq_eq_false_iff_ne, beq_eq_false_iff_ne] at he
  obtain ⟨k, hk, hbehind⟩ := (moves_turn s).behind_of_ok hm hturn
  have hwithin := hc.turn_within hk
  show m₁.alone u = m.alone u
  rw [alone_of_core hbehind.core]
  cases hth : m.threads[u]? with
  | some th =>
      rw [alone_on k hth, alone, hth]
      split
      · rename_i howner
        have hp : e.candidate.proc = .flush u := by
          cases hp : e.proc with
          | thread t => rw [hp] at howner he; exact absurd (congrArg Proc.thread howner) he.1
          | flush t => rw [hp] at howner; exact hp.trans (congrArg Proc.flush howner)
        rw [hwithin.flush u hp]
        rfl
      · rfl
  | none =>
      have hle : m.threads.length ≤ u := List.getElem?_eq_none_iff.mp hth
      have hchild : k.child.toList.length ≤ u - m.threads.length := by
        cases hchild : k.child with
        | none => simp
        | some new =>
            have hn := access_eq_spawn.mp (hwithin.child.mp (by simp [hchild]))
            have hne : m.threads.length ≠ u := fun h => he.2 (h ▸ hn)
            simp only [Option.toList_some, List.length_singleton]
            omega
      have hle' : (k.on e.proc.owner m).threads.length ≤ u := by
        rw [Change.length_threads_on]
        omega
      rw [alone, alone, hth, List.getElem?_eq_none hle']

theorem onlyBy_performed (s : Setup) (t : Nat) :
    OnlyBy s (fun e => e.proc == .thread t) fun m => Event.performed t m.events := by
  intro m m₁ e _ _ _ hevents he
  have hne : e.proc ≠ .thread t := by simpa using he
  show Event.performed t m₁.events = _
  rw [hevents, Event.performed_concat, if_neg hne, List.append_nil]

/-! ### Points of a run -/

/-- The run from `m₀` with the events `es` is in the state `st i` before event number `i`. -/
structure Course (s : Setup) (m₀ : Machine) (es : List Event) (st : Nat → Machine) : Prop where
  reach : ∀ i ≤ es.length, m₀.reach s ((es.take i).map Event.proc) = .ok (st i)
  events : ∀ i ≤ es.length, (st i).events = es.take i

theorem exists_course {ps : List Proc} (hfresh : m₀.events = []) (h : m₀.reach s ps = .ok m) :
    ∃ st, Course s m₀ m.events st ∧ st m.events.length = m := by
  induction ps using List.reverseRecOn generalizing m with
  | nil =>
      have hevents : m.events = [] := by
        have := (procs_events_reach h).1
        simpa [hfresh] using this
      refine ⟨fun _ => m, ⟨fun i _ => ?_, fun i _ => ?_⟩, rfl⟩
      · simpa [hevents] using h
      · simp [hevents]
  | append_singleton ps p ih =>
      obtain ⟨c, m₁, hm₁, hc, rfl, hturn⟩ := reach_concat_eq_ok h
      obtain ⟨st, hst, -⟩ := ih hm₁
      obtain ⟨e, -, hevents, -⟩ := events_turn (calm_reach hm₁) hc hturn
      have hlength : m.events.length = m₁.events.length + 1 := by rw [hevents]; simp
      -- the states of the shorter run, and the last one
      refine ⟨fun i => if i ≤ m₁.events.length then st i else m, ⟨fun i hi => ?_, fun i hi => ?_⟩, ?_⟩
      · split
        · rename_i hle
          rw [hevents, List.take_append_of_le_length hle]
          exact hst.reach i hle
        · have hprocs := (procs_events_reach h).1
          rw [hfresh, List.map_nil, List.nil_append] at hprocs
          rwa [List.take_of_length_le (by omega), hprocs]
      · split
        · rename_i hle
          rw [hevents, List.take_append_of_le_length hle]
          exact hst.events i hle
        · rw [List.take_of_length_le (by omega)]
      · exact if_neg (by omega)

namespace Course

variable (h : Course s m₀ es st)

include h

theorem calm (hi : i ≤ es.length) : (st i).Calm s := calm_reach (h.reach i hi)

theorem turn (he : es[i]? = some e) : (st i).Offered s e.candidate ∧
    (st i).turn s e.proc = .ok (st (i + 1)) ∧ (st (i + 1)).events = (st i).events ++ [e] := by
  have hi := (List.getElem?_eq_some_iff.mp he).1
  have htake : es.take (i + 1) = es.take i ++ [e] := by rw [List.take_add_one, he]; rfl
  have hreach := h.reach (i + 1) hi
  rw [htake, List.map_append] at hreach
  obtain ⟨c, m, hm, hc, hp, hturn⟩ := reach_concat_eq_ok hreach
  obtain rfl : m = st i := Except.ok.inj (hm.symm.trans (h.reach i (Nat.le_of_lt hi)))
  obtain ⟨f, hf, hevents, -⟩ := events_turn (h.calm (Nat.le_of_lt hi)) hc (hp ▸ hturn)
  have hef : e = f := by
    rw [h.events i (Nat.le_of_lt hi), h.events (i + 1) hi, htake] at hevents
    simpa using hevents
  rw [← hef] at hf hevents
  exact ⟨hf ▸ hc, hturn, hevents⟩

theorem eq_of_le {α : Type} {P : Event → Bool} {f : Machine → α} (hf : OnlyBy s P f) (hij : i ≤ j)
    (hj : j ≤ es.length) (hnone : ∀ k e, i ≤ k → k < j → es[k]? = some e → P e = false) :
    f (st j) = f (st i) := by
  induction j, hij using Nat.le_induction with
  | base => rfl
  | succ j hij ih =>
      have he := List.getElem?_eq_getElem hj
      obtain ⟨hc, hturn, hevents⟩ := h.turn he
      rw [hf (st j) _ _ (h.calm (Nat.le_of_succ_le hj)) hc hturn hevents
        (hnone j _ hij (Nat.lt_succ_self j) he)]
      exact ih (Nat.le_of_succ_le hj) fun k e hik hkj => hnone k e hik (Nat.lt_succ_of_lt hkj)

theorem length_le (hij : i ≤ j) (hj : j ≤ es.length) : (st i).threads.length ≤ (st j).threads.length := by
  induction j, hij using Nat.le_induction with
  | base => exact le_rfl
  | succ j hij ih =>
      obtain ⟨hc, hturn, -⟩ := h.turn (List.getElem?_eq_getElem hj)
      obtain ⟨k, -, hlength⟩ := length_turn (h.calm (Nat.le_of_succ_le hj)) hc hturn
      have := ih (Nat.le_of_succ_le hj)
      omega

theorem length_spawn {n : Nat} (he : es[i]? = some e) (hn : e.kind = .spawn n) :
    n = (st i).threads.length ∧ (st (i + 1)).threads.length = n + 1 := by
  have hi := (List.getElem?_eq_some_iff.mp he).1
  obtain ⟨hc, hturn, -⟩ := h.turn he
  exact length_of_spawn (h.calm (Nat.le_of_lt hi)) hc hturn hn

/-- A thread that has been governed is not created any more. -/
theorem not_spawn_of_governs {f : Event} (he : es[i]? = some e) (hf : es[j]? = some f) (hij : i < j)
    (hgoverns : e.governs u = true) : f.kind ≠ .spawn u := by
  intro hspawn
  have hj := (List.getElem?_eq_some_iff.mp hf).1
  have hlt : u < (st (i + 1)).threads.length := by
    rw [Event.governs, Bool.or_eq_true, beq_iff_eq, beq_iff_eq] at hgoverns
    rcases hgoverns with hp | hn
    · have hlt := (h.turn he).1.owner_lt
      rw [show e.candidate.proc = .thread u from hp] at hlt
      exact Nat.lt_of_lt_of_le hlt (h.length_le (Nat.le_succ i) (by omega))
    · rw [(h.length_spawn he hn).2]
      exact Nat.lt_succ_self u
  have := h.length_le (i := i + 1) hij (Nat.le_of_lt hj)
  have := (h.length_spawn hf hspawn).1
  omega

end Course

/-- A thread that has come to its end is not governed any more. -/
theorem governs_of_finished {th : Thread} (hc : m.Offered s e.candidate) (hth : m.alone u = some th)
    (hfin : th.finished = true) : e.governs u = false := by
  obtain ⟨th₁, hth₁, rfl⟩ := Option.map_eq_some_iff.mp hth
  rw [Event.governs, Bool.or_eq_false_iff, beq_eq_false_iff_ne, beq_eq_false_iff_ne]
  refine ⟨fun hp => ?_, fun hn => ?_⟩
  · generalize hcand : e.candidate = c at hc
    have hp : c.proc = .thread u := hcand ▸ hp
    cases hc with
    | flush => cases hp
    | @thread t th₂ op _ hth₂ hup hadm =>
        have hproc := (admits_eq_some.mp hadm).2.1
        rw [hp, Proc.thread.injEq] at hproc
        rw [← hproc, hth₁, Option.some.injEq] at hth₂
        have hfalse := (th₂.of_upcoming s hup).1
        rw [← hth₂] at hfalse
        exact absurd hfin (by simp [hfalse])
  · have hlen := (hc.of_spawn (access_eq_spawn.mpr hn)).1
    have hlt := (List.getElem?_eq_some_iff.mp hth₁).1
    omega

theorem Course.alone_of_finished {th : Thread} (h : Course s m₀ es st) (hij : i ≤ j)
    (hj : j ≤ es.length) (hth : (st i).alone u = some th) (hfin : th.finished = true) :
    (st j).alone u = some th := by
  induction j, hij using Nat.le_induction with
  | base => exact hth
  | succ j hij ih =>
      have hth := ih (Nat.le_of_succ_le hj)
      obtain ⟨hc, hturn, hevents⟩ := h.turn (List.getElem?_eq_getElem hj)
      rw [← hth]
      exact onlyBy_alone s u _ _ _ (h.calm (Nat.le_of_succ_le hj)) hc hturn hevents
        (governs_of_finished hc hth hfin)

/-! ### Frontiers -/

/-- Of the events that the predicate selects, those before position `q` are the ones in the list. -/
def Frontier (es : List Event) (P : Event → Bool) (executed : List Nat) (q : Nat) : Prop :=
  ∀ j e, es[j]? = some e → P e = true → (j ∈ executed ↔ j < q)

variable {executed : List Nat} {P : Event → Bool}

/-- **Points with the same selected events behind them agree** on what only these change. -/
theorem Frontier.unique {α : Type} {f : Machine → α} (h : Course s m₀ es st) (hf : OnlyBy s P f)
    (hi : Frontier es P executed i) (hj : Frontier es P executed j) (hi' : i ≤ es.length)
    (hj' : j ≤ es.length) : f (st i) = f (st j) := by
  have key : ∀ i j, Frontier es P executed i → Frontier es P executed j → i ≤ j → j ≤ es.length →
      f (st j) = f (st i) := by
    intro i j hi hj hij hle
    refine h.eq_of_le hf hij hle fun k e hik hkj he => ?_
    by_contra hP
    have hP : P e = true := by simpa using hP
    have := (hi k e he hP).mp ((hj k e he hP).mpr hkj)
    omega
  rcases Nat.le_total i j with hij | hij
  · exact (key i j hi hj hij hj').symm
  · exact key j i hj hi hij hi'

end Machine

end Interleave
