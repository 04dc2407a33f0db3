import Interleave.Proofs.Search.Queries

/-! # What becomes of a request

A race asks for a process at an earlier branch, a failed execution asks for all processes at every
branch that it has passed (`Reduction.Requests`).  A request can come at any time, for a branch at
any depth.

One query either leaves a branch where it is, with everything that it takes, or it removes the
branch because nothing is left to try there (`Reduction.Consistent.branch_cases`).  What has been
tried at a branch was the choice there in an execution that came to its end
(`Reduction.endedWith_of_mem_done`).  Together: no request is lost (`Reduction.request_kept`). -/

namespace Interleave

namespace Branch

/-- A process that is taken at a branch can run there to some purpose. -/
theorem WellFormed.awake_of_takes {b : Branch} (h : b.WellFormed) {p : Proc} (hp : b.Takes p) :
    b.Awake p := by
  rcases hp with rfl | hp | hp
  · exact h.chosen_awake
  · exact h.done_awake p hp
  · exact (h.backtrack p hp).1

/-- The branch `b'` is `b` at a later time: it takes whatever `b` takes. -/
structure Stays (b b' : Branch) : Prop where
  candidates : b'.candidates = b.candidates
  sleep : b'.sleep = b.sleep
  takes : ∀ p, b.Takes p → b'.Takes p

namespace Stays

theorem refl (b : Branch) : Stays b b := ⟨rfl, rfl, fun _ => id⟩

variable {b b' b'' : Branch}

theorem trans (h : Stays b b') (h' : Stays b' b'') : Stays b b'' :=
  ⟨h'.candidates.trans h.candidates, h'.sleep.trans h.sleep, fun p hp => h'.takes p (h.takes p hp)⟩

end Stays

variable {b b' : Branch}

theorem Grows.stays (h : Grows b b') : Stays b b' := ⟨h.candidates, h.sleep, fun _ => h.takes⟩

theorem Switches.stays (h : Switches b b') : Stays b b' := ⟨h.candidates, h.sleep, fun _ => h.takes⟩

end Branch

theorem AllGrow.map_chosen {bs bs' : List Branch} (h : AllGrow bs bs') :
    bs'.map Branch.chosen = bs.map Branch.chosen := by
  induction h with
  | nil => rfl
  | cons hg _ ih => rw [List.map_cons, List.map_cons, hg.chosen, ih]

theorem AllGrow.exists_getElem? {bs bs' : List Branch} (h : AllGrow bs bs') {i : Nat} {b : Branch}
    (hb : bs[i]? = some b) : ∃ b', bs'[i]? = some b' ∧ b.Grows b' := by
  have hlt : i < bs'.length := h.length_eq ▸ (List.getElem?_eq_some_iff.mp hb).1
  have hb' := List.getElem?_eq_getElem hlt
  obtain ⟨x, hx, hg⟩ := h.getElem? hb'
  obtain rfl : b = x := Option.some.inj (hb.symm.trans hx)
  exact ⟨_, hb', hg⟩

namespace Reduction

/-- The choices along the whole path, those that are yet to be made again included. -/
def plan (r : Reduction) : List Proc := r.path.branches.map Branch.chosen

/-- The query asks for process `p` at branch `i` of the path, which is `b`: an operation is performed
that races with the one there, or an error stops the execution.  If the process of a racing operation
cannot run at the branch, it is all processes that are asked for. -/
inductive Requests (r : Reduction) (i : Nat) (b : Branch) (p : Proc) : Query → Prop where
  | race {cs : List Candidate} {c : Candidate} (runs : (r.schedule cs).1 = .run c.proc)
      (found : (cs.find? fun d => d.proc == c.proc) = some c) (racing : i ∈ r.history.racing c)
      (asked : p = c.proc ∨ ¬ b.Awake c.proc) : Requests r i b p (.schedule cs)
  | failure (passed : i < r.path.position) : Requests r i b p .executionFailed

/-- An execution whose choices begin with `ps` came to its end in the course of the queries. -/
def EndedWith (maxDepth : Option Nat) (qs : List Query) (ps : List Proc) : Prop :=
  ∃ now, now ++ [.advance] <+: qs ∧ ps <+: ((start maxDepth).askAll now).plan

/-! ### One query -/

namespace Consistent

variable {r : Reduction}

/-- Short of the next execution, branches grow and new ones join them, where nothing has been
tried. -/
theorem ask_grows (h : r.Consistent) {q : Query} (hq : q ≠ .advance) :
    ∃ bs new, (r.ask q).path.branches = bs ++ new ∧ AllGrow r.path.branches bs ∧
      ∀ b ∈ new, b.done = .empty := by
  cases q with
  | schedule cs =>
      rcases h.schedule_cases cs with ⟨d, hrefuses⟩ | ⟨c, bs, hruns⟩
      · obtain ⟨blocked, bounded, hask⟩ := hrefuses.ask_eq
        exact ⟨_, [], by rw [hask, List.append_nil], .refl _, by simp⟩
      · have hgrow := hruns.allGrow
        rcases hruns.branches with ⟨rfl, -⟩ | ⟨-, rfl, -⟩
        · exact ⟨_, [], (List.append_nil _).symm, hgrow, by simp⟩
        · obtain ⟨bs, new, hbs, hnew, heq⟩ := hgrow.append_left
          exact ⟨bs, new, heq, hbs, hnew.done_eq_empty (by simp [Branch.start])⟩
  | executionFailed => exact ⟨_, [], (List.append_nil _).symm, r.allGrow_executionFailed, by simp⟩
  | endExecution =>
      obtain ⟨phase, heq⟩ := r.endExecution_eq
      exact ⟨_, [], by rw [Reduction.ask, heq, List.append_nil], .refl _, by simp⟩
  | advance => exact absurd rfl hq

/-- The next execution starts at the deepest branch with a process left to try, or there is none and
the path is given up. -/
theorem ask_advance (h : r.Consistent) :
    ((∀ b ∈ r.path.branches, b.next? = none) ∧ r.advance.1 = false ∧
      (r.ask .advance).path.branches = []) ∨
    ∃ above b b' below, r.path.branches = above ++ b :: below ∧ r.advance.1 = true ∧
      (r.ask .advance).path.branches = above ++ [b'] ∧ b.Switches b' ∧
      ∀ x ∈ below, x.next? = none := by
  rcases r.advance_cases with ⟨hp, heq⟩ | ⟨hnone, heq⟩ | ⟨above, b, b', below, hbs, hb, hbelow, heq⟩
  · rw [Reduction.ask, heq, h.path_of_exhausted hp]
    exact .inl ⟨by simp [Path.empty], rfl, rfl⟩
  · rw [Reduction.ask, heq]
    exact .inl ⟨hnone, rfl, rfl⟩
  · rw [Reduction.ask, heq]
    refine .inr ⟨above, b, b', below, hbs, rfl, rfl, Branch.switches_of_next? ?_ hb, hbelow⟩
    exact h.wellFormed b (by simp [hbs])

/-- **One query at one branch**: the branch stays, or nothing is left to try there and it is removed
on the way to the next execution. -/
theorem branch_cases (h : r.Consistent) {i : Nat} {b : Branch}
    (hb : r.path.branches[i]? = some b) (q : Query) :
    (∃ b', (r.ask q).path.branches[i]? = some b' ∧ b.Stays b' ∧
      (r.ask q).plan.take i = r.plan.take i) ∨
    q = .advance ∧ (r.ask q).path.branches.length ≤ i ∧ b.next? = none := by
  have hlt := (List.getElem?_eq_some_iff.mp hb).1
  by_cases hq : q = .advance
  · subst hq
    rcases h.ask_advance with ⟨hnone, -, hnil⟩ | ⟨above, x, x', below, hbs, -, hbs', hsw, hbelow⟩
    · exact .inr ⟨rfl, by simp [hnil], hnone b (List.mem_of_getElem? hb)⟩
    -- the branch stands above the one where the next execution departs, is that one, or stands below
    rw [plan, plan, hbs', hbs]
    rw [hbs] at hb
    rcases Nat.lt_trichotomy i above.length with hi | rfl | hi
    · rw [List.getElem?_append_left hi] at hb
      refine .inl ⟨b, by rw [List.getElem?_append_left hi, hb], .refl b, ?_⟩
      rw [List.map_append, List.map_append, List.take_append_of_le_length (by simpa using hi.le),
        List.take_append_of_le_length (by simpa using hi.le)]
    · obtain rfl : x = b := by simpa using hb
      exact .inl ⟨x', by simp, hsw.stays, by simp⟩
    · refine .inr ⟨rfl, by simpa using Nat.succ_le_of_lt hi, hbelow b ?_⟩
      rw [List.getElem?_append_right hi.le] at hb
      obtain ⟨k, hk⟩ := Nat.exists_eq_add_of_lt hi
      rw [show i - above.length = k + 1 by omega, List.getElem?_cons_succ] at hb
      exact List.mem_of_getElem? hb
  · obtain ⟨bs, new, hbs, hgrow, -⟩ := h.ask_grows hq
    obtain ⟨b', hb', hg⟩ := hgrow.exists_getElem? hb
    refine .inl ⟨b', ?_, hg.stays, ?_⟩
    · rw [hbs, List.getElem?_append_left (List.getElem?_eq_some_iff.mp hb').1, hb']
    · have hle : i ≤ (bs.map Branch.chosen).length := by
        rw [List.length_map, ← hgrow.length_eq]
        exact hlt.le
      rw [plan, hbs, List.map_append, List.take_append_of_le_length hle, hgrow.map_chosen, plan]

/-- **Many queries at one branch**: it stays through all of them, or through those before the one
that removes it. -/
theorem branch_run (h : r.Consistent) {i : Nat} {b : Branch} (hb : r.path.branches[i]? = some b)
    (qs : List Query) :
    (∃ b', (r.askAll qs).path.branches[i]? = some b' ∧ b.Stays b' ∧
      (r.askAll qs).plan.take i = r.plan.take i) ∨
    ∃ now b', now ++ [.advance] <+: qs ∧ (r.askAll now).path.branches[i]? = some b' ∧ b.Stays b' ∧
      (r.askAll now).plan.take i = r.plan.take i ∧ b'.next? = none ∧
      (r.askAll (now ++ [.advance])).path.branches.length ≤ i := by
  induction qs generalizing r b with
  | nil => exact .inl ⟨b, hb, .refl b, rfl⟩
  | cons q qs ih =>
      rcases h.branch_cases hb q with ⟨b₁, hb₁, hstays, hplan⟩ | ⟨rfl, hle, hnone⟩
      · rcases ih (h.ask q) hb₁ with
          ⟨b₂, hb₂, hstays', hplan'⟩ | ⟨now, b₂, hnow, hb₂, hstays', hplan', hrest⟩
        · exact .inl ⟨b₂, hb₂, hstays.trans hstays', hplan'.trans hplan⟩
        · exact .inr ⟨q :: now, b₂, List.cons_prefix_cons.mpr ⟨rfl, hnow⟩, hb₂,
            hstays.trans hstays', hplan'.trans hplan, hrest⟩
      · exact .inr ⟨[], b, ⟨qs, rfl⟩, hb, .refl b, rfl, hnone, hle⟩

/-- While a branch stays on the path it takes whatever it took, and it has tried all of that when it is
removed. -/
theorem takes_while (h : r.Consistent) {i : Nat} {b : Branch} (hb : r.path.branches[i]? = some b)
    {qs : List Query} (hon : ∀ now, now <+: qs → i < (r.askAll now).path.branches.length) :
    ∃ b', (r.askAll qs).path.branches[i]? = some b' ∧ b.Stays b' ∧
      ((r.askAll qs).advance.2.path.branches.length ≤ i →
        ∀ p, b.Takes p → p ∈ b'.done.insert b'.chosen) := by
  obtain ⟨b', hb', hstays, -⟩ := (h.branch_run hb qs).resolve_right
    fun ⟨now, _, hnow, _, _, _, _, hle⟩ => Nat.not_lt.mpr hle (hon _ hnow)
  refine ⟨b', hb', hstays, fun hle p hp => ?_⟩
  have hr := h.askAll qs
  have hnone : b'.next? = none := by
    rcases hr.branch_cases hb' .advance with ⟨b'', hb'', -, -⟩ | ⟨-, -, hnone⟩
    · exact absurd (List.getElem?_eq_some_iff.mp hb'').1 (Nat.not_lt.mpr hle)
    · exact hnone
  have hwf := hr.wellFormed b' (List.mem_of_getElem? hb')
  exact ProcSet.mem_insert.mpr (Branch.takes_of_next?_eq_none hwf hnone (hstays.takes p hp))

/-- What is done at a branch was so before, or it was the choice there and the execution is over. -/
theorem mem_done_cases (h : r.Consistent) {q : Query} {i : Nat} {b' : Branch} {p : Proc}
    (hb' : (r.ask q).path.branches[i]? = some b') (hp : p ∈ b'.done) :
    ∃ b, r.path.branches[i]? = some b ∧ (p ∈ b.done ∨ q = .advance ∧ p = b.chosen) := by
  by_cases hq : q = .advance
  · subst hq
    rcases h.ask_advance with ⟨-, -, hnil⟩ | ⟨above, x, x', below, hbs, -, hbs', hsw, -⟩
    · simp [hnil] at hb'
    rw [hbs'] at hb'
    rw [hbs]
    by_cases hi : i < above.length
    · rw [List.getElem?_append_left hi] at hb'
      exact ⟨b', by rw [List.getElem?_append_left hi, hb'], .inl hp⟩
    · obtain rfl : i = above.length := by
        have := (List.getElem?_eq_some_iff.mp hb').1
        rw [List.length_append, List.length_singleton] at this
        omega
      obtain rfl : x' = b' := by simpa using hb'
      rw [hsw.done, ProcSet.mem_insert] at hp
      exact ⟨x, by simp, hp.symm.imp id fun hp => ⟨rfl, hp⟩⟩
  · obtain ⟨bs, new, hbs, hgrow, hnew⟩ := h.ask_grows hq
    rw [hbs] at hb'
    by_cases hi : i < bs.length
    · rw [List.getElem?_append_left hi] at hb'
      obtain ⟨b, hb, hg⟩ := hgrow.getElem? hb'
      exact ⟨b, hb, .inl (hg.done ▸ hp)⟩
    · rw [List.getElem?_append_right (Nat.not_lt.mp hi)] at hb'
      simp [hnew b' (List.mem_of_getElem? hb')] at hp

theorem takes_of_requests (h : r.Consistent) {i : Nat} {b : Branch} {p : Proc} {q : Query}
    (hb : r.path.branches[i]? = some b) (hawake : b.Awake p) (hreq : r.Requests i b p q) :
    ∃ b', (r.ask q).path.branches[i]? = some b' ∧ b.Stays b' ∧ b'.Takes p ∧
      (r.ask q).plan.take i = r.plan.take i := by
  have hne : q ≠ .advance := by rintro rfl; cases hreq
  obtain ⟨b', hb', hstays, hplan⟩ := (h.branch_cases hb q).resolve_right fun hq => hne hq.1
  refine ⟨b', hb', hstays, ?_, hplan⟩
  have hwf := (h.ask q).wellFormed b' (List.mem_of_getElem? hb')
  have hawake_iff : ∀ p, b'.Awake p ↔ b.Awake p := fun p => by
    simp [Branch.Awake, Branch.isEnabled, Branch.isAsleep, Branch.candidate?, hstays.candidates,
      hstays.sleep]
  cases hreq with
  | @race cs c runs found racing asked =>
      have hanswers : b'.Answers c.proc := by
        rcases h.schedule_cases cs with ⟨d, hd, -, _, _, hs⟩ | ⟨c', bs, hruns⟩
        · rw [hs] at runs
          rw [show d = .run c.proc from runs] at hd
          cases hd
        · have hproc : c'.proc = c.proc := by
            rw [hruns.schedule_eq] at runs
            exact Decision.run.inj runs
          obtain rfl : c' = c := by
            have hfound := hruns.found
            rw [hproc, found] at hfound
            exact (Option.some.inj hfound).symm
          rw [hruns.ask_eq] at hb'
          exact answers_requestRaces (r := { r with path.branches := bs }) racing hb'
      rcases hanswers with htakes | hall
      · rcases asked with rfl | hc
        · exact htakes
        · exact absurd ((hawake_iff _).mp (hwf.awake_of_takes htakes)) hc
      · exact hall p ((hawake_iff p).mpr hawake)
  | failure passed => exact takesAll_executionFailed passed hb' p ((hawake_iff p).mpr hawake)

end Consistent

/-! ### What has been tried -/

section

variable {maxDepth : Option Nat} {qs : List Query}

theorem EndedWith.mono {qs' : List Query} {ps : List Proc} (h : EndedWith maxDepth qs ps)
    (hqs : qs <+: qs') : EndedWith maxDepth qs' ps := by
  obtain ⟨now, hnow, hps⟩ := h
  exact ⟨now, hnow.trans hqs, hps⟩

theorem endedWith_chosen {i : Nat} {b : Branch}
    (hb : ((start maxDepth).askAll qs).path.branches[i]? = some b) :
    EndedWith maxDepth (qs ++ [.advance]) (((start maxDepth).askAll qs).plan.take i ++ [b.chosen]) := by
  refine ⟨qs, List.prefix_refl _, ?_⟩
  generalize (start maxDepth).askAll qs = r at hb ⊢
  have htake : r.plan.take (i + 1) = r.plan.take i ++ [b.chosen] := by
    rw [List.take_add_one, plan, List.getElem?_map, hb]
    rfl
  rw [← htake]
  exact List.take_prefix _ _

/-- **What has been tried was chosen**: for each process that is done at a branch there was an
execution that followed the same choices up to the branch and then chose this process. -/
theorem endedWith_of_mem_done {i : Nat} {b : Branch} {p : Proc}
    (hb : ((start maxDepth).askAll qs).path.branches[i]? = some b) (hp : p ∈ b.done) :
    EndedWith maxDepth qs (((start maxDepth).askAll qs).plan.take i ++ [p]) := by
  induction qs using List.reverseRecOn generalizing i b p with
  | nil => simp [start, Path.empty] at hb
  | append_singleton qs q ih =>
      have hr := (consistent_start maxDepth).askAll qs
      rw [askAll_concat] at hb ⊢
      obtain ⟨b₀, hb₀, hdone⟩ := hr.mem_done_cases hb hp
      have hplan : (((start maxDepth).askAll qs).ask q).plan.take i =
          ((start maxDepth).askAll qs).plan.take i := by
        rcases hr.branch_cases hb₀ q with ⟨_, -, -, hplan⟩ | ⟨-, hle, -⟩
        · exact hplan
        · exact absurd (List.getElem?_eq_some_iff.mp hb).1 (Nat.not_lt.mpr hle)
      rw [hplan]
      rcases hdone with hdone | ⟨rfl, rfl⟩
      · exact (ih hb₀ hdone).mono (List.prefix_append _ _)
      · exact endedWith_chosen hb₀

/-- A branch where nothing is left to try is removed with all that it takes tried. -/
theorem endedWith_of_takes {i : Nat} {b : Branch} {p : Proc}
    (hb : ((start maxDepth).askAll qs).path.branches[i]? = some b) (hnone : b.next? = none)
    (hp : b.Takes p) :
    EndedWith maxDepth (qs ++ [.advance]) (((start maxDepth).askAll qs).plan.take i ++ [p]) := by
  have hwf := ((consistent_start maxDepth).askAll qs).wellFormed b (List.mem_of_getElem? hb)
  rcases Branch.takes_of_next?_eq_none hwf hnone hp with rfl | hdone
  · exact endedWith_chosen hb
  · exact (endedWith_of_mem_done hb hdone).mono (List.prefix_append _ _)

/-- Once no execution is left, all that a branch ever took has been tried. -/
theorem endedWith_of_over {i : Nat} {b : Branch} {p : Proc}
    (hb : ((start maxDepth).askAll qs).path.branches[i]? = some b) (hp : b.Takes p)
    {later : List Query} (hover : ((start maxDepth).askAll (qs ++ later)).advance.1 = false) :
    EndedWith maxDepth (qs ++ later ++ [.advance])
      (((start maxDepth).askAll qs).plan.take i ++ [p]) := by
  have hr := (consistent_start maxDepth).askAll qs
  rcases hr.branch_run hb (later ++ [.advance]) with
    ⟨b', hb', -, -⟩ | ⟨now, b', hnow, hb', hstays, hplan, hnone, -⟩
  · -- the branch cannot be there still, as the path has been given up
    rw [askAll_concat, ← askAll_append] at hb'
    rcases ((consistent_start maxDepth).askAll (qs ++ later)).ask_advance with
      ⟨-, -, hnil⟩ | ⟨_, _, _, _, -, hmore, -⟩
    · rw [hnil] at hb'
      cases hb'
    · rw [hover] at hmore
      cases hmore
  · rw [← hplan, ← askAll_append]
    rw [← askAll_append] at hb'
    refine (endedWith_of_takes hb' hnone (hstays.takes p hp)).mono ?_
    rw [List.append_assoc, List.append_assoc]
    exact (List.prefix_append_right_inj qs).mpr hnow

/-! ### The main result -/

/-- **No request is lost.**  A process that can run at a branch to some purpose and has been asked for
there is taken as long as the branch is on the path, and has been tried when it is removed.  Once no
execution is left, one with the same choices up to the branch has chosen the process there. -/
theorem request_kept (maxDepth : Option Nat) (qs : List Query) {i : Nat} {b : Branch} {p : Proc}
    {q : Query} (hb : ((start maxDepth).askAll qs).path.branches[i]? = some b) (hawake : b.Awake p)
    (hreq : ((start maxDepth).askAll qs).Requests i b p q) (later : List Query) :
    let r := (start maxDepth).askAll qs
    ((∀ now, now <+: later → i < (r.askAll (q :: now)).path.branches.length) →
      ∃ b', (r.askAll (q :: later)).path.branches[i]? = some b' ∧ b'.candidates = b.candidates ∧
        b'.sleep = b.sleep ∧ b'.Takes p ∧
        ((r.askAll (q :: later)).advance.2.path.branches.length ≤ i →
          p ∈ b'.done.insert b'.chosen)) ∧
    ((r.askAll (q :: later)).advance.1 = false →
      EndedWith maxDepth (qs ++ q :: later ++ [.advance]) (r.plan.take i ++ [p])) := by
  intro r
  have hr : r.Consistent := (consistent_start maxDepth).askAll qs
  obtain ⟨b₁, hb₁, hstays₁, htakes₁, hplan₁⟩ := hr.takes_of_requests hb hawake hreq
  refine ⟨fun hon => ?_, fun hover => ?_⟩
  · obtain ⟨b₂, hb₂, hstays₂, hremoved⟩ := (hr.ask q).takes_while hb₁ hon
    exact ⟨b₂, hb₂, hstays₂.candidates.trans hstays₁.candidates, hstays₂.sleep.trans hstays₁.sleep,
      hstays₂.takes p htakes₁, fun hle => hremoved hle p htakes₁⟩
  · have hstate : r.ask q = (start maxDepth).askAll (qs ++ [q]) := (askAll_concat _ qs q).symm
    rw [askAll_cons, hstate, ← askAll_append] at hover
    rw [hstate] at hb₁ hplan₁
    have hended := endedWith_of_over hb₁ htakes₁ hover
    rwa [hplan₁, List.append_assoc qs, List.singleton_append] at hended

/-- Of two stores to one cell the second is asked for at the branch of the first, and chosen there in
the execution that follows. -/
theorem request_kept_stores :
    let both : List Candidate := [⟨.thread 0, .write 8⟩, ⟨.thread 1, .write 8⟩]
    let r := (start none).askAll [.schedule both]
    let b := Branch.start both [] (.thread 0)
    let later : List Query := [.endExecution, .advance, .schedule both, .schedule (both.take 1),
      .endExecution]
    r.path.branches[0]? = some b ∧ b.Awake (.thread 1) ∧
      r.Requests 0 b (.thread 1) (.schedule (both.drop 1)) ∧
      (r.askAll (.schedule (both.drop 1) :: later)).advance.1 = false ∧
      EndedWith none (.schedule both :: .schedule (both.drop 1) :: later ++ [.advance])
        [.thread 1] := by
  intro both r b later
  have hb : r.path.branches[0]? = some b := by decide +kernel
  have hawake : b.Awake (.thread 1) := ⟨by decide, by decide⟩
  have hreq : r.Requests 0 b (.thread 1) (.schedule (both.drop 1)) :=
    .race (c := ⟨.thread 1, .write 8⟩) (by decide +kernel) rfl (by decide +kernel) (.inl rfl)
  have hover : (r.askAll (.schedule (both.drop 1) :: later)).advance.1 = false := by
    decide +kernel
  exact ⟨hb, hawake, hreq, hover,
    (request_kept none [.schedule both] hb hawake hreq later).2 hover⟩

end

end Reduction

end Interleave
