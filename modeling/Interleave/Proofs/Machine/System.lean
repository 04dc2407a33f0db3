import Interleave.Proofs.Machine.Diamond

/-! # The machine as a system

A run of the machine is a sequence of turns (`Machine.follow`), each by a process that is offered.
The further course of a run depends on the core of the machine only (`Machine.follow_congr`), and
independent turns commute.  So the runs of a machine form a lawful system
(`Machine.Orderly.lawful`) provided that at every scheduling point

* no thread can be created while what another thread does depends on how many threads there are,
* no mutex can be unlocked by one thread while another could lock or unlock it, and
* no thread can store while an earlier store of its own waits.

The last two make sure that candidates which are dependent race (`Machine.InOrder.races`).

A thread that waits for a mutex has a race that is seen only when it gets the mutex.  So it is also
required that as long as anything is offered, something is that depends on the operation which took
the mutex, such as the next step of the thread that holds it. -/

namespace Interleave

/-- Accesses to one mutex that exclude each other: one of them unlocks it. -/
theorem Access.of_excludes {x y : Access} (hex : x.excludes y = true)
    (hconflicts : x.conflicts y = true) :
    (∃ a, x = .unlock a ∧ (y = .lock a ∨ y = .unlock a)) ∨ ∃ a, y = .unlock a ∧ x = .lock a := by
  unfold excludes at hex
  split at hex
  · obtain rfl := (by simpa [conflicts, object, isRead] using hconflicts)
    exact .inr ⟨_, rfl, rfl⟩
  · obtain rfl := (by simpa [conflicts, object, isRead] using hconflicts)
    exact .inl ⟨_, rfl, .inr rfl⟩
  · obtain rfl := (by simpa [conflicts, object, isRead] using hconflicts)
    exact .inl ⟨_, rfl, .inl rfl⟩
  · cases hex

namespace Machine

variable {s : Setup} {m m' m₁ : Machine} {c d : Candidate} {p : Proc} {ps qs : List Proc}

/-! ### Runs -/

/-- The processes of a list take their turns; one that is not offered cannot. -/
def follow (s : Setup) (m : Machine) (ps : List Proc) : Except Stop Machine :=
  ps.foldlM (fun m p =>
    if p ∈ procs (m.offered s) then m.turn s p
    else .error (.fault (.raised "not offered"))) m

/-- From the start of an execution, the processes of a list take their turns. -/
def reach (s : Setup) (m : Machine) (ps : List Proc) : Except Stop Machine :=
  m.rest s >>= fun m => m.follow s ps

@[simp] theorem follow_nil (s : Setup) (m : Machine) : m.follow s [] = .ok m := rfl

theorem follow_cons (s : Setup) (m : Machine) (p : Proc) (ps : List Proc) :
    m.follow s (p :: ps) = (if p ∈ procs (m.offered s) then m.turn s p
      else .error (.fault (.raised "not offered"))) >>= fun m => m.follow s ps := rfl

theorem follow_append (s : Setup) (m : Machine) (ps qs : List Proc) :
    m.follow s (ps ++ qs) = m.follow s ps >>= fun m => m.follow s qs := by
  rw [follow, List.foldlM_append]
  rfl

theorem reach_nil (s : Setup) (m : Machine) : m.reach s [] = m.rest s := by
  rw [reach]
  cases m.rest s <;> rfl

theorem reach_append (s : Setup) (m : Machine) (ps qs : List Proc) :
    m.reach s (ps ++ qs) = m.reach s ps >>= fun m => m.follow s qs := by
  simp only [reach, follow_append]
  cases m.rest s <;> rfl

theorem mem_procs_offered : p ∈ procs (m.offered s) ↔ ∃ c, m.Offered s c ∧ c.proc = p := by
  simp only [procs, List.mem_map, mem_offered]

theorem follow_singleton (hc : m.Offered s c) : m.follow s [c.proc] = m.turn s c.proc := by
  rw [follow_cons, if_pos (mem_procs_offered.mpr ⟨c, hc, rfl⟩)]
  cases m.turn s c.proc <;> rfl

theorem reach_concat (hm : m.reach s ps = .ok m₁) (hc : m₁.Offered s c) :
    m.reach s (ps ++ [c.proc]) = m₁.turn s c.proc := by
  rw [reach_append, hm, ok_bind, follow_singleton hc]

theorem follow_cons_eq_ok (h : m.follow s (p :: ps) = .ok m') :
    ∃ c m₁, m.Offered s c ∧ c.proc = p ∧ m.turn s p = .ok m₁ ∧ m₁.follow s ps = .ok m' := by
  rw [follow_cons] at h
  split at h
  · rename_i hp
    obtain ⟨c, hc, hcp⟩ := mem_procs_offered.mp hp
    cases hturn : m.turn s p with
    | error why =>
        rw [hturn] at h
        cases h
    | ok m₁ =>
        rw [hturn] at h
        exact ⟨c, m₁, hc, hcp, rfl, h⟩
  · cases h

theorem follow_invariant {P : Machine → Prop}
    (hturn : ∀ m₁ m₂ c, m₁.Calm s → P m₁ → m₁.Offered s c → m₁.turn s c.proc = .ok m₂ → P m₂)
    (hm : m.Calm s) (hP : P m) (h : m.follow s ps = .ok m') : m'.Calm s ∧ P m' := by
  induction ps generalizing m with
  | nil =>
      cases h
      exact ⟨hm, hP⟩
  | cons p ps ih =>
      obtain ⟨c, m₁, hc, rfl, hm₁, hfollow⟩ := follow_cons_eq_ok h
      exact ih ((moves_turn s).keeps m m₁ _ hm hm₁) (hturn m m₁ c hm hP hc hm₁) hfollow

theorem reach_invariant {P : Machine → Prop} (hrest : ∀ m₁, m.rest s = .ok m₁ → P m₁)
    (hturn : ∀ m₁ m₂ c, m₁.Calm s → P m₁ → m₁.Offered s c → m₁.turn s c.proc = .ok m₂ → P m₂)
    (h : m.reach s ps = .ok m') : m'.Calm s ∧ P m' := by
  cases hm₁ : m.rest s with
  | error why =>
      rw [reach, hm₁] at h
      cases h
  | ok m₁ =>
      rw [reach, hm₁] at h
      exact follow_invariant hturn (calm_of_rest hm₁) (hrest m₁ hm₁) h

theorem calm_reach (h : m.reach s ps = .ok m') : m'.Calm s :=
  (reach_invariant (P := fun _ => True) (fun _ _ => trivial) (fun _ _ _ _ _ _ _ => trivial) h).1

/-- All runs take at most `n` turns, and the predicate holds at all their scheduling points. -/
def holdsAlways (s : Setup) (p : Machine → Bool) : Nat → Machine → Bool
  | 0, m => p m && (m.offered s).isEmpty
  | n + 1, m => p m && (m.offered s).all fun c => (m.turn s c.proc).toOption.all (holdsAlways s p n)

theorem of_holdsAlways {p : Machine → Bool} {n : Nat} (h : holdsAlways s p n m = true)
    (hfollow : m.follow s ps = .ok m') : p m' = true ∧ ps.length ≤ n := by
  induction ps generalizing n m with
  | nil =>
      cases hfollow
      refine ⟨?_, Nat.zero_le n⟩
      cases n <;> exact (Bool.and_eq_true_iff.mp h).1
  | cons q ps ih =>
      obtain ⟨c, m₁, hc, rfl, hturn, hfollow⟩ := follow_cons_eq_ok hfollow
      cases n with
      | zero =>
          have hnil := List.isEmpty_iff.mp (Bool.and_eq_true_iff.mp h).2
          rw [← mem_offered, hnil] at hc
          cases hc
      | succ n =>
          have hall := List.all_eq_true.mp (Bool.and_eq_true_iff.mp h).2 c (mem_offered.mpr hc)
          rw [hturn] at hall
          obtain ⟨hp, hle⟩ := ih hall hfollow
          exact ⟨hp, Nat.succ_le_succ hle⟩

theorem of_holdsAlways_rest {p : Machine → Bool} {n : Nat}
    (h : (m.rest s).toOption.all (holdsAlways s p n) = true) (hreach : m.reach s ps = .ok m') :
    p m' = true ∧ ps.length ≤ n := by
  rw [reach] at hreach
  cases hrest : m.rest s with
  | error why => simp [hrest] at hreach
  | ok m₁ =>
      rw [hrest, ok_bind] at hreach
      rw [hrest] at h
      exact of_holdsAlways h hreach

/-! ### Runs depend on the core only -/

/-- The two machines are at a scheduling point with the same further course. -/
structure Alike (s : Setup) (m m' : Machine) : Prop where
  core : m.core = m'.core
  left : m.Calm s
  right : m'.Calm s

/-- Two machines that are led on in the same way: both fail alike, or they get alike again and have
seen the same. -/
def LedAlike (s : Setup) (m m' : Machine) (r r' : Except Stop Machine) : Prop :=
  (∃ why, r = .error why ∧ r' = .error why) ∨
    ∃ m₁ m₁' seen, r = .ok m₁ ∧ r' = .ok m₁' ∧ Alike s m₁ m₁' ∧
      m₁.events = m.events ++ seen ∧ m₁'.events = m'.events ++ seen

theorem turn_congr (h : Alike s m m') (hc : m.Offered s c) :
    LedAlike s m m' (m.turn s c.proc) (m'.turn s c.proc) := by
  have hc' := (offered_congr h.core).mp hc
  have hchange : m'.turnChange s c.proc = m.turnChange s c.proc := by
    rw [← turnChange_core hc, h.core, turnChange_core hc']
  cases hk : m.turnChange s c.proc with
  | error why =>
      refine .inl ⟨why, ?_, ?_⟩
      · rwa [(moves_turn s).error_iff h.left]
      · rwa [(moves_turn s).error_iff h.right, hchange]
  | ok k =>
      have hmakes := (moves_turn s).makes m c.proc h.left
      have hmakes' := (moves_turn s).makes m' c.proc h.right
      rw [hk] at hmakes
      rw [hchange, hk] at hmakes'
      obtain ⟨m₁, hm₁, hbehind⟩ := hmakes
      obtain ⟨m₁', hm₁', hbehind'⟩ := hmakes'
      have hkw := hc.turn_within hk
      refine .inr ⟨m₁, m₁', k.event.toList, hm₁, hm₁', ⟨?_, ?_, ?_⟩, hbehind.events,
        hbehind'.events⟩
      · rw [hbehind.core, hbehind'.core, ← core_on hkw, h.core, core_on hkw]
      · exact (moves_turn s).keeps m m₁ _ h.left hm₁
      · exact (moves_turn s).keeps m' m₁' _ h.right hm₁'

theorem follow_congr (h : Alike s m m') (ps : List Proc) :
    LedAlike s m m' (m.follow s ps) (m'.follow s ps) := by
  induction ps generalizing m m' with
  | nil => exact .inr ⟨m, m', [], rfl, rfl, h, by simp, by simp⟩
  | cons p ps ih =>
      have hoffered : m.offered s = m'.offered s := by
        rw [← offered_core, h.core, offered_core]
      rw [follow_cons, follow_cons, ← hoffered]
      split
      · rename_i hp
        obtain ⟨c, hc, rfl⟩ := mem_procs_offered.mp hp
        rcases turn_congr h hc with ⟨why, hw, hw'⟩ | ⟨m₁, m₁', seen, hm₁, hm₁', h₁, hev, hev'⟩
        · rw [hw, hw']
          exact .inl ⟨why, rfl, rfl⟩
        · rw [hm₁, hm₁', ok_bind, ok_bind]
          rcases ih h₁ with herror | ⟨m₂, m₂', seen', hm₂, hm₂', h₂, hev₂, hev₂'⟩
          · exact .inl herror
          · refine .inr ⟨m₂, m₂', seen ++ seen', hm₂, hm₂', h₂, ?_, ?_⟩
            · rw [hev₂, hev, List.append_assoc]
            · rw [hev₂', hev', List.append_assoc]
      · exact .inl ⟨_, rfl, rfl⟩

/-! ### The system -/

/-- Thread number `t` waits for a mutex at address `a` that is taken, and for nothing else. -/
def Waits (s : Setup) (m : Machine) (t : Nat) (a : Addr) : Prop :=
  ∃ th, m.threads[t]? = some th ∧ th.upcoming s = .ok (some (.lock a)) ∧
    m.announce s t (.lock a) = none ∧ (s.buffered && !th.buffer.isEmpty) = false

/-- The process of a memory operation goes on with it: it is offered or waits for a mutex. -/
def Aims (s : Setup) (m : Machine) (c : Candidate) : Prop :=
  m.Offered s c ∧ c.access.object.isSome ∨
    ∃ t a, c = ⟨.thread t, .lock a⟩ ∧ m.Waits s t a

/-- The runs from the start of an execution. -/
def system (s : Setup) (m : Machine) : System Stop where
  offers ps := match m.reach s ps with
    | .ok m => m.offered s
    | .error _ => []
  fault ops := errorOf? (m.reach s (procs ops))
  aims ops c := ∃ m', m.reach s (procs ops) = .ok m' ∧ m'.Aims s c
  threads ops := match m.reach s (procs ops) with
    | .ok m => m.threads.length
    | .error _ => 0

/-- The last event that wrote the cell of an address. -/
def lastWrite? (m : Machine) (a : Addr) : Option Event :=
  m.events.reverse.find? fun e => (Access.read a).conflicts e.candidate.access

/-- What the reduction takes for granted about a scheduling point. -/
structure InOrder (s : Setup) (m : Machine) : Prop where
  /-- No thread is created while what another thread does depends on how many there are. -/
  numbers : ∀ c d, m.Offered s c → c.proc ≠ d.proc → ¬ m.Renumbers s c d
  /-- No mutex is unlocked while another thread could lock or unlock it. -/
  mutexes : ∀ c d a, m.Offered s c → m.Offered s d → c.proc ≠ d.proc → c.access = .unlock a →
    d.access ≠ .lock a ∧ d.access ≠ .unlock a
  /-- No thread stores while an earlier store of its own waits. -/
  buffers : ∀ c d t, m.Offered s c → m.Offered s d → c.proc = .thread t →
    c.access.isEnqueue = true → d.proc ≠ .flush t
  /-- While a thread waits for a mutex, something goes on that depends on what took the mutex. -/
  held : ∀ t a e, m.Waits s t a → m.lastWrite? a = some e → m.offered s ≠ [] →
    ∃ d, m.Offered s d ∧ d.dependent e.candidate = true

/-- All scheduling points of all executions are in order. -/
def Orderly (s : Setup) (m : Machine) : Prop := ∀ ps m', m.reach s ps = .ok m' → m'.InOrder s

variable {ops : List Candidate}

theorem offers_of_ok (h : m.reach s ps = .ok m') : (system s m).offers ps = m'.offered s := by
  simp only [system, h]

theorem offers_of_error {why : Stop} (h : m.reach s ps = .error why) :
    (system s m).offers ps = [] := by
  simp only [system, h]

theorem mem_offers_system : c ∈ (system s m).offers ps ↔
    ∃ m', m.reach s ps = .ok m' ∧ m'.Offered s c := by
  simp only [system]
  cases hm : m.reach s ps with
  | error why => simp
  | ok m' => simp [mem_offered]

theorem fault_system_eq_none : (system s m).fault ops = none ↔
    ∃ m', m.reach s (procs ops) = .ok m' := by
  simp only [system]
  cases m.reach s (procs ops) with
  | error why => simp
  | ok m' => simp

theorem procs_concat (ops : List Candidate) (c : Candidate) :
    procs (ops ++ [c]) = procs ops ++ [c.proc] := by
  simp [procs]

/-- A process that is offered an operation is offered no other, and waits for nothing. -/
theorem Aims.unique (hc : m.Offered s c) (hd : m.Aims s d) (hp : c.proc = d.proc) : c = d := by
  rcases hd with ⟨hd, -⟩ | ⟨t, a, rfl, th, hth, hup, hwait, -⟩
  · exact List.inj_on_of_nodup_map (nodup_offered s m) (mem_offered.mpr hc) (mem_offered.mpr hd) hp
  · cases hc with
    | @thread u th' op _ hth' hup' hadm =>
        obtain ⟨ha, hcp, -⟩ := admits_eq_some.mp hadm
        rw [hp] at hcp
        cases hcp
        obtain rfl : th = th' := Option.some.inj (hth.symm.trans hth')
        obtain rfl : Operation.lock a = op := by
          have := hup.symm.trans hup'
          simpa using this
        rw [hwait] at ha
        cases ha
    | flush => cases hp

theorem waits_core {t : Nat} {a : Addr} : m.core.Waits s t a ↔ m.Waits s t a := by
  simp only [Waits, threads_core, List.getElem?_map, announce_core, Option.map_eq_some_iff]
  constructor
  · rintro ⟨_, ⟨th, hth, rfl⟩, hup, hwait, hempty⟩
    rw [Thread.upcoming_bare] at hup
    exact ⟨th, hth, hup, hwait, by simpa [Thread.bare] using hempty⟩
  · rintro ⟨th, hth, hup, hwait, hempty⟩
    refine ⟨th.bare, ⟨th, hth, rfl⟩, ?_, hwait, by simpa [Thread.bare] using hempty⟩
    rw [Thread.upcoming_bare, hup]

theorem aims_congr (h : m.core = m'.core) : m.Aims s c ↔ m'.Aims s c := by
  have hwaits : ∀ t a, m.Waits s t a ↔ m'.Waits s t a := by
    intro t a
    rw [← waits_core, h, waits_core]
  simp only [Aims, offered_congr h, hwaits]

/-- A thread that stands at a mutex with an empty buffer goes on with it. -/
theorem aims_lock {t : Nat} {th : Thread} {a : Addr} (hth : m.threads[t]? = some th)
    (hup : th.upcoming s = .ok (some (.lock a)))
    (hempty : (s.buffered && !th.buffer.isEmpty) = false) : m.Aims s ⟨.thread t, .lock a⟩ := by
  cases hann : m.announce s t (.lock a) with
  | none => exact .inr ⟨t, a, rfl, th, hth, hup, hann, hempty⟩
  | some b =>
      obtain rfl : b = .lock a := announce_eq_some hann
      refine .inl ⟨.thread hth hup (admits_eq_some.mpr ⟨hann, rfl, ?_⟩), rfl⟩
      simpa [Access.drains] using hempty

/-- A memory operation that a process goes on with stays so while others take their steps. -/
theorem Aims.behind {k : Change} (hk : k.Within m c) (hd : m.Aims s d) (hne : c.proc ≠ d.proc) :
    (k.on c.proc.owner m).Aims s d := by
  have hdrained : ∀ u th b, (b && !th.buffer.isEmpty) = false →
      (b && !(threadBehind c u th).buffer.isEmpty) = false := by
    intro u th b h
    unfold threadBehind
    split
    · cases b with
      | false => rfl
      | true =>
          have hnil : th.buffer = [] := by simpa using h
          simp [Thread.flushed, hnil]
    · exact h
  rcases hd with ⟨hd, hobject⟩ | ⟨t, a, rfl, th, hth, hup, -, hempty⟩
  · cases hd with
    | @thread u th op _ hth hup hadm =>
        obtain ⟨ha, hp, hdrain⟩ := admits_eq_some.mp hadm
        rw [hp] at hne
        have hth' := getElem?_behind hk hth hne
        have hup' := (upcoming_behind c u th).trans hup
        have hdrain' := hdrained u th _ hdrain
        cases op with
        | load r a => exact .inl ⟨.thread hth' hup' (admits_eq_some.mpr ⟨ha, hp, hdrain'⟩), hobject⟩
        | store a v => exact .inl ⟨.thread hth' hup' (admits_eq_some.mpr ⟨ha, hp, hdrain'⟩), hobject⟩
        | unlock a => exact .inl ⟨.thread hth' hup' (admits_eq_some.mpr ⟨ha, hp, hdrain'⟩), hobject⟩
        | lock a =>
            obtain ⟨q, b⟩ := d
            obtain rfl : b = .lock a := announce_eq_some ha
            obtain rfl : q = .thread u := hp
            exact aims_lock hth' hup' (by simpa [Access.drains] using hdrain')
        | fence =>
            rw [← Option.some.inj ha] at hobject
            cases hobject
        | spawn r f =>
            rw [← Option.some.inj ha] at hobject
            cases hobject
        | join v =>
            rcases announce_eq_some ha with h | ⟨j, h⟩
            · rw [h] at hobject
              cases hobject
            · rw [h] at hobject
              cases hobject
    | @flush u th b hth hb =>
        obtain ⟨th', waiting, hth', hbuf, -⟩ := buffer_behind hk hth hne
        refine .inl ⟨.flush hth' ?_, rfl⟩
        rw [hbuf, List.head?_append, hb]
        rfl
  · exact aims_lock (getElem?_behind hk hth hne) ((upcoming_behind c t th).trans hup)
      (hdrained t th _ hempty)

/-- Runs to machines that are alike have the same further course. -/
theorem same_of_alike {ops' : List Candidate} {m₂ : Machine}
    (h₁ : m.reach s (procs ops) = .ok m₁) (h₂ : m.reach s (procs ops') = .ok m₂)
    (h : Alike s m₁ m₂) : (system s m).Same ops ops' := by
  intro u
  have hreach : m.reach s (procs (ops ++ u)) = m₁.follow s (procs u) := by
    rw [procs, List.map_append, reach_append, h₁, ok_bind]
  have hreach' : m.reach s (procs (ops' ++ u)) = m₂.follow s (procs u) := by
    rw [procs, List.map_append, reach_append, h₂, ok_bind]
  simp only [system, hreach, hreach']
  rcases follow_congr h (procs u) with ⟨why, hw, hw'⟩ | ⟨m₃, m₃', _, hm₃, hm₃', h₃, -, -⟩
  · simp [hw, hw']
  · refine ⟨?_, ?_, fun c => ?_⟩
    · rw [hm₃, hm₃']
      show m₃.offered s = m₃'.offered s
      rw [← offered_core, h₃.core, offered_core]
    · rw [hm₃, hm₃', errorOf?_ok, errorOf?_ok]
    · simp only [hm₃, hm₃', Except.ok.injEq, exists_eq_left', aims_congr h₃.core]

theorem reach_of_mem_offers (hc : c ∈ (system s m).offers (procs ops)) :
    ∃ m₁, m.reach s (procs ops) = .ok m₁ ∧ m₁.Offered s c ∧ m₁.Calm s ∧
      m.reach s (procs (ops ++ [c])) = m₁.turn s c.proc := by
  obtain ⟨m₁, hm₁, hc⟩ := mem_offers_system.mp hc
  refine ⟨m₁, hm₁, hc, calm_reach hm₁, ?_⟩
  rw [procs_concat, reach_concat hm₁ hc]

theorem reach_of_fault (hf : (system s m).fault (ops ++ [c]) = none)
    (hreach : m.reach s (procs (ops ++ [c])) = m₁.turn s c.proc) :
    ∃ m₂, m₁.turn s c.proc = .ok m₂ ∧ m.reach s (procs (ops ++ [c])) = .ok m₂ := by
  obtain ⟨m₂, hm₂⟩ := fault_system_eq_none.mp hf
  exact ⟨m₂, hreach.symm.trans hm₂, hm₂⟩

theorem length_turn (hm : m.Calm s) (hc : m.Offered s c) (hturn : m.turn s c.proc = .ok m') :
    ∃ k : Change, k.Within m c ∧ m'.threads.length = m.threads.length + k.child.toList.length := by
  obtain ⟨k, hk, hbehind⟩ := (moves_turn s).behind_of_ok hm hturn
  refine ⟨k, hc.turn_within hk, ?_⟩
  rw [← k.length_threads_on c.proc.owner m]
  have hthreads := congrArg List.length (core_eq_iff.mp hbehind.core).2
  simpa using hthreads

/-! ### Dependent candidates race -/

theorem buffered_of_enqueue (hc : m.Offered s c) (h : c.access.isEnqueue = true) :
    s.buffered = true := by
  cases hc with
  | flush => cases h
  | @thread t th op _ hth hup hadm =>
      have hspec := announce_eq_some (admits_eq_some.mp hadm).1
      cases op with
      | store a v =>
          by_contra hbuf
          simp only [hbuf] at hspec
          rw [hspec] at h
          cases h
      | join v =>
          rcases hspec with hspec | ⟨j, hspec⟩ <;> simp [hspec, Access.isEnqueue] at h
      | _ => simp [hspec, Access.isEnqueue] at h

/-- Where stores reach memory at once, no change leaves one in a buffer. -/
theorem buffers_behind {k : Change} (hs : s.buffered = false)
    (hempty : ∀ th ∈ m.threads, th.buffer = []) (hc : m.Offered s c) (hk : k.Within m c)
    (hbehind : Behind k c.proc.owner m m') : ∀ th ∈ m'.threads, th.buffer = [] := by
  have hupdate : ∀ th, th.buffer = [] → (k.update th).buffer = [] := by
    intro th hth
    cases hp : c.proc with
    | flush t => simp [hk.flush t hp, Thread.flushed, hth]
    | thread t =>
        obtain ⟨waiting, hwaiting, hadds⟩ := hk.buffer t hp
        have hno : c.access.isEnqueue = false := by
          by_contra henq
          rw [buffered_of_enqueue hc (by simpa using henq)] at hs
          cases hs
        rw [hadds.buffer_eq, hwaiting hno, hth]
        rfl
  have hon : ∀ th ∈ (k.on c.proc.owner m).threads, th.buffer = [] := by
    intro th hth
    rcases List.mem_append.mp hth with hth | hth
    · obtain ⟨i, hi⟩ := List.mem_iff_getElem?.mp hth
      rw [List.getElem?_modify] at hi
      obtain ⟨th₀, hth₀, rfl⟩ := Option.map_eq_some_iff.mp hi
      have hnil := hempty th₀ (List.mem_of_getElem? hth₀)
      split
      · exact hupdate th₀ hnil
      · exact hnil
    · exact hk.fresh th (by simpa using hth)
  intro th hth
  have hbare : th.bare ∈ (k.on c.proc.owner m).threads.map Thread.bare := by
    rw [← (core_eq_iff.mp hbehind.core).2]
    exact List.mem_map_of_mem hth
  obtain ⟨th', hth', hbuffer⟩ := List.mem_map.mp hbare
  have := congrArg Thread.buffer hbuffer
  simpa [Thread.bare, hon th' hth', eq_comm] using this

theorem buffers_step (hs : s.buffered = false) (hempty : ∀ th ∈ m.threads, th.buffer = [])
    (hc : m.Offered s c) (hstep : m.step s c.proc = .ok m') : ∀ th ∈ m'.threads, th.buffer = [] := by
  obtain ⟨k, hk, hbehind⟩ := (moves_step s).behind_of_ok trivial hstep
  exact buffers_behind hs hempty hc ((moves_step s).within _ _ _ hc hk) hbehind

theorem buffers_turn (hs : s.buffered = false) (hm : m.Calm s)
    (hempty : ∀ th ∈ m.threads, th.buffer = []) (hc : m.Offered s c)
    (hturn : m.turn s c.proc = .ok m') : ∀ th ∈ m'.threads, th.buffer = [] := by
  obtain ⟨k, hk, hbehind⟩ := (moves_turn s).behind_of_ok hm hturn
  exact buffers_behind hs hempty hc (hc.turn_within hk) hbehind

theorem buffers_reach (hs : s.buffered = false) (hempty : ∀ th ∈ m.threads, th.buffer = [])
    (h : m.reach s ps = .ok m') : ∀ th ∈ m'.threads, th.buffer = [] := by
  refine (reach_invariant (P := fun m => ∀ th ∈ m.threads, th.buffer = []) ?_ ?_ h).2
  · intro m₁ hm₁ th hth
    obtain ⟨-, log, rfl⟩ := rest_eq_ok hm₁
    obtain ⟨x, hx, rfl⟩ := List.mem_map.mp hth
    rw [buffer_runLocal]
    exact hempty x.1 (List.mem_of_getElem? (List.mem_zipIdx_iff_getElem?.mp hx))
  · intro m₁ m₂ c hm hP hc hturn
    exact buffers_turn hs hm hP hc hturn

theorem start_eq_ok {entry : Nat} (h : start s entry = .ok m) :
    ∃ th, Thread.start s entry = .ok th ∧
      m = ⟨s.program.globals.map Global.init, [th], [], [], .empty, []⟩ := by
  cases hth : Thread.start s entry with
  | error why => simp [start, hth] at h
  | ok th =>
      simp only [start, hth, ok_bind, pure_eq_ok, Except.ok.injEq] at h
      exact ⟨th, rfl, h.symm⟩

theorem buffers_start {entry : Nat} (h : start s entry = .ok m) :
    ∀ th ∈ m.threads, th.buffer = [] := by
  obtain ⟨th, hth, rfl⟩ := start_eq_ok h
  simpa using Thread.buffer_start hth

theorem Offered.isDone_of_join {j : Nat} (hc : m.Offered s c) (hj : c.access = .join j) :
    (m.threads[j]?.map Thread.isDone).getD false = true := by
  cases hc with
  | flush => cases hj
  | @thread t th op _ hth hup hadm =>
      have ha := (admits_eq_some.mp hadm).1
      rw [hj] at ha
      cases op with
      | join v =>
          simp only [announce] at ha
          split at ha
          · split at ha
            · cases ha
              assumption
            · cases ha
          · cases ha
      | store a v =>
          simp only [announce] at ha
          split at ha <;> cases ha
      | lock a =>
          have := announce_eq_some ha
          cases this
      | _ => cases ha

theorem Offered.of_join {j : Nat} (hc : m.Offered s c) (hj : c.access = .join j)
    (hd : m.Offered s d) : d.proc.owner ≠ j := by
  rintro rfl
  have hdone := hc.isDone_of_join hj
  cases hd with
  | @thread t th op _ hth hup hadm =>
      rw [(admits_eq_some.mp hadm).2.1] at hdone
      have hfin := (th.of_upcoming s hup).1
      simp [Proc.owner, hth, Thread.isDone, hfin] at hdone
  | @flush t th b hth hb =>
      have hne : th.buffer ≠ [] := by
        rintro hnil
        simp [hnil] at hb
      simp [Proc.owner, hth, Thread.isDone, hne] at hdone

/-- A candidate bears on a process that is offered beside it only by putting a store into the buffer
that the process flushes. -/
theorem Offered.of_bearsOn (hempty : s.buffered = false → ∀ th ∈ m.threads, th.buffer = [])
    (hc : m.Offered s c) (hd : m.Offered s d) (hbears : c.bearsOn d.proc = true) :
    ∃ t, c.proc = .thread t ∧ c.access.isEnqueue = true ∧ d.proc = .flush t := by
  rcases Bool.or_eq_true_iff.mp hbears with hconcerns | hflush
  · exfalso
    cases ha : c.access with
    | spawn n =>
        have hn := (hc.of_spawn ha).1
        have hlt := hd.owner_lt
        simp only [ha, Access.concerns, beq_iff_eq] at hconcerns
        omega
    | join j =>
        simp only [ha, Access.concerns, beq_iff_eq] at hconcerns
        exact hc.of_join ha hd hconcerns.symm
    | _ => simp [ha, Access.concerns] at hconcerns
  · cases hc with
    | flush => simp at hflush
    | @thread t th op _ hth hup hadm =>
        obtain ⟨-, hp, hdrain⟩ := admits_eq_some.mp hadm
        rw [hp] at hflush
        cases hdp : d.proc with
        | thread u => simp [hdp] at hflush
        | flush u =>
            rw [hdp] at hflush
            simp only [Bool.and_eq_true, Bool.or_eq_true, beq_iff_eq] at hflush
            obtain ⟨rfl, hdrains | henq⟩ := hflush
            · exfalso
              cases hd with
              | thread hth' hup' hadm' =>
                  rw [(admits_eq_some.mp hadm').2.1] at hdp
                  cases hdp
              | @flush u th' b hth' hb =>
                  cases hdp
                  obtain rfl : th = th' := Option.some.inj (hth.symm.trans hth')
                  have hne : th.buffer ≠ [] := by
                    rintro hnil
                    simp [hnil] at hb
                  have hunbuffered : s.buffered = false := by simpa [hdrains, hne] using hdrain
                  exact hne (hempty hunbuffered th (List.mem_of_getElem? hth))
            · exact ⟨t, hp, henq, rfl⟩

/-- No candidate bears on a process that is offered beside it. -/
theorem InOrder.not_bearsOn (h : m.InOrder s)
    (hempty : s.buffered = false → ∀ th ∈ m.threads, th.buffer = [])
    (hc : m.Offered s c) (hd : m.Offered s d) : c.bearsOn d.proc = false := by
  rw [← Bool.not_eq_true]
  intro hbears
  obtain ⟨t, hp, henq, hdp⟩ := hc.of_bearsOn hempty hd hbears
  exact h.buffers c d t hc hd hp henq hdp

/-- **Dependent candidates that are offered together race.** -/
theorem InOrder.races (h : m.InOrder s)
    (hempty : s.buffered = false → ∀ th ∈ m.threads, th.buffer = [])
    (hc : m.Offered s c) (hd : m.Offered s d) (hne : c.proc ≠ d.proc)
    (hdep : c.dependent d = true) : c.races d = true := by
  have hcd := h.not_bearsOn hempty hc hd
  have hdc := h.not_bearsOn hempty hd hc
  have hconflicts : c.access.conflicts d.access = true := by
    simpa [Candidate.dependent, hne, hcd, hdc] using hdep
  have hexcludes : c.access.excludes d.access = false := by
    rw [← Bool.not_eq_true]
    intro hex
    obtain ⟨a, ha, hda⟩ | ⟨a, ha, hca⟩ := Access.of_excludes hex hconflicts
    · have := h.mutexes c d a hc hd hne ha
      rcases hda with hda | hda
      · exact this.1 hda
      · exact this.2 hda
    · exact (h.mutexes d c a hd hc hne.symm ha).1 hca
  simp [Candidate.races, hne, hexcludes, hconflicts]

/-- **The runs of a machine whose scheduling points are in order form a lawful system.** -/
theorem Orderly.lawful (h : Orderly s m) (hempty : ∀ th ∈ m.threads, th.buffer = []) :
    (system s m).Lawful where
  distinct ps := by
    simp only [system]
    split
    · exact nodup_offered s _
    · exact List.nodup_nil
  stops ops hf := by
    simp only [system] at hf ⊢
    cases hm : m.reach s (procs ops) with
    | error why => rfl
    | ok m' => simp [hm] at hf
  persists ops c d _ hc hd hi hf := by
    obtain ⟨m₁, hm₁, hc, hcalm, hreach⟩ := reach_of_mem_offers hc
    obtain ⟨_, hm₁', hd, -, hreach'⟩ := reach_of_mem_offers hd
    cases hm₁.symm.trans hm₁'
    obtain ⟨m₂, hturn, hm₂⟩ := reach_of_fault hf hreach
    have hn := (h _ m₁ hm₁).numbers c d hc (Candidate.proc_ne_of_indep hi)
    obtain ⟨hoff, hchange⟩ := (moves_turn s).offered_behind hcalm hc hi hd hn hturn
    refine ⟨mem_offers_system.mpr ⟨m₂, hm₂, hoff⟩, ?_⟩
    have hcalm₂ := (moves_turn s).keeps m₁ m₂ _ hcalm hturn
    simp only [system, procs_concat _ d, reach_concat hm₂ hoff, reach_concat hm₁ hd]
    refine errorOf?_congr fun why => ?_
    rw [(moves_turn s).error_iff hcalm₂, (moves_turn s).error_iff hcalm, hchange]
  reflects ops c d _ hc hi hf hd := by
    obtain ⟨m₁, hm₁, hc, hcalm, hreach⟩ := reach_of_mem_offers hc
    obtain ⟨m₂, hturn, hm₂⟩ := reach_of_fault hf hreach
    obtain ⟨_, hm₂', hd⟩ := mem_offers_system.mp hd
    cases hm₂.symm.trans hm₂'
    have hn := (h _ m₁ hm₁).numbers c d hc (Candidate.proc_ne_of_indep hi)
    exact mem_offers_system.mpr
      ⟨m₁, hm₁, (moves_turn s).offered_before hcalm hc hi hn hturn hd⟩
  commutes ops c d _ hc hd hi hfc hfd := by
    obtain ⟨m₁, hm₁, hc, hcalm, hreach⟩ := reach_of_mem_offers hc
    obtain ⟨_, hm₁', hd, -, hreach'⟩ := reach_of_mem_offers hd
    cases hm₁.symm.trans hm₁'
    obtain ⟨m₂, hturn, hm₂⟩ := reach_of_fault hfc hreach
    obtain ⟨m₃, hturn', hm₃⟩ := reach_of_fault hfd hreach'
    have hne := Candidate.proc_ne_of_indep hi
    have hcd := (h _ m₁ hm₁).numbers c d hc hne
    have hdc := (h _ m₁ hm₁).numbers d c hd hne.symm
    have hi' := Candidate.dependent_comm_false hi
    obtain ⟨hoff, -⟩ := (moves_turn s).offered_behind hcalm hc hi hd hcd hturn
    obtain ⟨hoff', -⟩ := (moves_turn s).offered_behind hcalm hd hi' hc hdc hturn'
    obtain ⟨m₂₃, m₃₂, _, _, h₂₃, h₃₂, hcore, -⟩ :=
      (moves_turn s).diamond hcalm hc hi hd hcd hdc hturn hturn'
    have halike : Alike s m₂₃ m₃₂ :=
      ⟨hcore, (moves_turn s).keeps m₂ _ _ ((moves_turn s).keeps m₁ m₂ _ hcalm hturn) h₂₃,
        (moves_turn s).keeps m₃ _ _ ((moves_turn s).keeps m₁ m₃ _ hcalm hturn') h₃₂⟩
    refine same_of_alike ?_ ?_ halike
    · rw [procs_concat _ d, reach_concat hm₂ hoff, h₂₃]
    · rw [procs_concat _ c, reach_concat hm₃ hoff', h₃₂]
  races ops c d _ hc hd hne hdep := by
    obtain ⟨m₁, hm₁, hc⟩ := mem_offers_system.mp hc
    obtain ⟨_, hm₁', hd⟩ := mem_offers_system.mp hd
    cases hm₁.symm.trans hm₁'
    exact (h _ m₁ hm₁).races (fun hs => buffers_reach hs hempty hm₁) hc hd hne hdep
  aims_of_offered ops c _ hc hobject := by
    obtain ⟨m₁, hm₁, hc⟩ := mem_offers_system.mp hc
    exact ⟨m₁, hm₁, .inl ⟨hc, hobject⟩⟩
  aims_step ops c r _ hc hf hr hne := by
    obtain ⟨m₁, hm₁, hc, hcalm, hreach⟩ := reach_of_mem_offers hc
    obtain ⟨m₂, hturn, hm₂⟩ := reach_of_fault hf hreach
    obtain ⟨_, hm₁', hr⟩ := hr
    cases hm₁.symm.trans hm₁'
    obtain ⟨k, hk, hbehind⟩ := (moves_turn s).behind_of_ok hcalm hturn
    exact ⟨m₂, hm₂, (aims_congr hbehind.core).mpr (hr.behind (hc.turn_within hk) hne)⟩
  aims_unique ops c r _ hc hr hp := by
    obtain ⟨m₁, hm₁, hc⟩ := mem_offers_system.mp hc
    obtain ⟨_, hm₁', hr⟩ := hr
    cases hm₁.symm.trans hm₁'
    exact Aims.unique hc hr hp
  enqueues ops c _ hc henq := by
    obtain ⟨m₁, -, hc⟩ := mem_offers_system.mp hc
    cases hc with
    | thread _ _ hadm => exact ⟨_, (admits_eq_some.mp hadm).2.1⟩
    | flush => cases henq
  spawns ops c t _ hc hf ht := by
    obtain ⟨m₁, hm₁, hc, hcalm, hreach⟩ := reach_of_mem_offers hc
    obtain ⟨m₂, hturn, hm₂⟩ := reach_of_fault hf hreach
    obtain ⟨k, hk, hlength⟩ := length_turn hcalm hc hturn
    obtain ⟨rfl, -⟩ := hc.of_spawn ht
    obtain ⟨new, hnew⟩ := Option.isSome_iff_exists.mp (hk.child.mpr ht)
    rw [hnew, Option.toList_some, List.length_singleton] at hlength
    simp only [system, hm₁, hm₂, hlength, and_self]
  threads_le ops c _ hc hf := by
    obtain ⟨m₁, hm₁, hc, hcalm, hreach⟩ := reach_of_mem_offers hc
    obtain ⟨m₂, hturn, hm₂⟩ := reach_of_fault hf hreach
    obtain ⟨k, -, hlength⟩ := length_turn hcalm hc hturn
    simp only [system, hm₁, hm₂]
    omega
  owner_lt ops c _ hc := by
    obtain ⟨m₁, hm₁, hc⟩ := mem_offers_system.mp hc
    simp only [system, hm₁]
    exact hc.owner_lt

end Machine

end Interleave
