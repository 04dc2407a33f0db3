import Interleave.Proofs.Exploration.Replay

/-! # What is asleep

An entry of a sleep set is the operation that a process was about to perform when it was tried, at an
earlier branch.  It is carried along as long as nothing dependent with it happens.  No independent
operation changes what a process is about to do (`Machine.Moves.offered_behind`), with one exception:
when a thread is created, whatever depends on the number of threads is another operation afterwards,
though no dependence says so.  Hence what is asleep at a branch is offered there unless a thread was
created on the way while the sleeper counted threads (`Checker.sleep_offered`).

The exception is real.  Two threads that are about to create a thread are independent, and one that is
put to sleep before the other goes on sleeps as the creator of a thread with a number that is no longer
its own.  Nothing wakes it, and an assertion that fails only in this order is never reached
(`Checker.sleep_outdated`). -/

namespace Interleave

namespace Machine

variable {s : Setup} {m m₁ m₂ : Machine} {ops w : List Candidate} {c e : Candidate}

/-- In the run of `ops` a thread is created while `e` is offered, and what `e` does depends on how many
threads there are. -/
def Renumbered (s : Setup) (m : Machine) (ops : List Candidate) (e : Candidate) : Prop :=
  ∃ u d v m', ops = u ++ d :: v ∧ m.reach s (procs u) = .ok m' ∧ m'.Offered s d ∧ m'.Offered s e ∧
    m'.Renumbers s d e

theorem Renumbered.append (h : Renumbered s m ops e) (w : List Candidate) :
    Renumbered s m (ops ++ w) e := by
  obtain ⟨u, d, v, m', rfl, hrest⟩ := h
  exact ⟨u, d, v ++ w, m', by simp, hrest⟩

/-- **The step**: behind an independent operation a candidate is still offered or is renumbered. -/
theorem offered_or_renumbered (hm₁ : m.reach s (procs ops) = .ok m₁) (hc : m₁.Offered s c)
    (he : m₁.Offered s e) (hi : e.dependent c = false)
    (hm₂ : m.reach s (procs (ops ++ [c])) = .ok m₂) :
    m₂.Offered s e ∨ Renumbered s m (ops ++ [c]) e := by
  by_cases hn : m₁.Renumbers s c e
  · exact .inr ⟨ops, c, [], m₁, rfl, hm₁, hc, he, hn⟩
  · rw [procs_concat, reach_concat hm₁ hc] at hm₂
    exact .inl ((moves_turn s).offered_behind (calm_reach hm₁) hc
      (Candidate.dependent_comm_false hi) he hn hm₂).1

theorem access_of_countsThreads {u : Nat} (h : m.CountsThreads s u) (he : m.Offered s e)
    (hp : e.proc = .thread u) : e.access = .spawn m.threads.length ∨ e.access = .fence := by
  obtain ⟨th, op, hth, hup, hop⟩ := h
  cases he with
  | flush => cases hp
  | @thread t th' op' _ hth' hup' hadm =>
      obtain ⟨ha, hp', -⟩ := admits_eq_some.mp hadm
      obtain rfl : t = u := by
        rw [hp'] at hp
        exact Proc.thread.inj hp
      obtain rfl : th = th' := Option.some.inj (hth.symm.trans hth')
      obtain rfl : op = op' := Option.some.inj (Except.ok.inj (hup.symm.trans hup'))
      rcases hop with ⟨r, f, rfl⟩ | ⟨v, rfl, hjoinee⟩
      · exact .inl (Option.some.inj ha).symm
      · rw [announce, hjoinee] at ha
        exact .inr (Option.some.inj ha).symm

/-- **Along a path**: what is asleep at a branch is offered there or was renumbered before. -/
theorem sleep_of_follows {sleep : List Candidate} {bs : List Branch}
    (h : Follows (system s m).offers ops sleep bs w)
    (hsleep : ∀ m', m.reach s (procs ops) = .ok m' →
      ∀ e ∈ sleep, m'.Offered s e ∨ Renumbered s m ops e)
    {i : Nat} {b : Branch} (hb : bs[i]? = some b) (he : e ∈ b.sleep) :
    e ∈ b.candidates ∨ Renumbered s m (ops ++ w.take i) e := by
  induction h generalizing i with
  | nil => cases hb
  | @cons ops sleep w b' bs c here op _ ih =>
      obtain ⟨hmem, -⟩ := Branch.mem_of_candidate? op
      rw [here.candidates] at hmem
      obtain ⟨m₁, hm₁, hc⟩ := mem_offers_system.mp hmem
      have hcandidates : ∀ e, m₁.Offered s e ↔ e ∈ b'.candidates := fun e => by
        rw [here.candidates, offers_of_ok hm₁, mem_offered]
      cases i with
      | zero =>
          obtain rfl : b' = b := by simpa using hb
          rw [here.sleep] at he
          simpa [hcandidates] using hsleep m₁ hm₁ e he
      | succ i =>
          have hrest := ih (fun m₂ hm₂ e he => ?_) hb
          · simpa using hrest
          -- asleep behind the branch is what was asleep or tried there and is independent
          simp only [Branch.sleepAfter, op, List.mem_filter, List.mem_append,
            Bool.not_eq_true'] at he
          obtain ⟨he | he, hi⟩ := he
          · rcases hsleep m₁ hm₁ e (here.sleep ▸ he) with he | he
            · exact offered_or_renumbered hm₁ hc he hi hm₂
            · exact .inr (he.append [c])
          · exact offered_or_renumbered hm₁ hc ((hcandidates e).mpr he.1) hi hm₂

end Machine

open Machine

theorem Reduction.Asked.follows {offers : Offers} {maxDepth : Option Nat} {r : Reduction}
    {cs : List Candidate} (h : Asked offers maxDepth r cs) :
    ∃ w, Follows offers [] [] (r.schedule cs).2.path.branches w := by
  obtain ⟨old, ops, hmidway, rfl⟩ := h
  rcases hmidway.schedule with ⟨c, -, r', hs, hmidway'⟩ | ⟨r', hs, hexecuted⟩
  · obtain ⟨w, hw, -⟩ := hmidway'.follows
    rw [hs]
    exact ⟨w, hw⟩
  · rw [hs]
    exact ⟨ops, hexecuted.follows⟩

namespace Checker

variable {c : Checker} {m : Machine}

/-- **What is asleep is offered** unless it was renumbered.  Whenever the reduction has decided, an
entry of the sleep set of any branch of its path is a candidate there, or else a thread was created
further up while the entry was offered and depended on how many threads there are. -/
theorem sleep_offered (hmade : c.Made)
    (hmachine : (c.session.program.find? Program.entryPoint).map (Machine.start c.setup) = some (.ok m))
    (fuel : Nat) {r : Reduction} {cs : List Candidate}
    (hasked : (r, cs) ∈ (c.observe fuel).2.scheduler.asked) {i : Nat} {b : Branch} {e : Candidate}
    (hb : (r.schedule cs).2.path.branches[i]? = some b) (he : e ∈ b.sleep) :
    e ∈ b.candidates ∨
      ∃ j < i, ∃ d m', (r.schedule cs).2.plan[j]? = some d.proc ∧
        m.reach c.setup ((r.schedule cs).2.plan.take j) = .ok m' ∧ m'.Offered c.setup d ∧
        m'.Offered c.setup e ∧ m'.Renumbers c.setup d e := by
  have hoffers : ∀ m', (c.session.program.find? Program.entryPoint).map (Machine.start c.setup) =
      some (.ok m') → (system c.setup m).offers = (system c.setup m').offers := by
    intro m' hm'
    rw [hmachine] at hm'
    cases hm'
    rfl
  obtain ⟨w, hw⟩ := ((tracked_observe hmade.source hoffers fuel).asked _ hasked).follows
  refine (sleep_of_follows hw (by simp) hb he).imp id fun ⟨u, d, v, m', hu, hreach, hrest⟩ => ?_
  rw [List.nil_append] at hu
  have hlt : u.length < i := by
    have := congrArg List.length hu
    rw [List.length_take, List.length_append, List.length_cons] at this
    omega
  have hplan : (r.schedule cs).2.plan = procs w := hw.map_chosen
  have hsplit : w = u ++ d :: (v ++ w.drop i) := by
    calc w = w.take i ++ w.drop i := (List.take_append_drop i w).symm
      _ = u ++ d :: (v ++ w.drop i) := by rw [hu, List.append_assoc, List.cons_append]
  refine ⟨u.length, hlt, d, m', ?_, ?_, hrest⟩
  · rw [hplan, hsplit]
    simp [procs]
  · rw [hplan, hsplit, procs, List.map_append, List.take_left' (by simp)]
    exact hreach

/-- Two threads create a thread each, and the first of them fails if it comes second. -/
def creatorsText : String :=
  "global x = 0\nfn k \x7b\nret\n\x7d\n" ++
    "fn a \x7b\nspawn %c, k\nload %v, @x\nne %e, %c, 4\nassert %e\nret\n\x7d\n" ++
    "fn b \x7b\nspawn %c, k\nload %v, @x\nret\n\x7d\n" ++
    "fn main \x7b\nspawn %t, a\nspawn %u, b\nstore @x, 1\nret\n\x7d\n"

/-- At the branch of a decision, something with the property `p` is asleep. -/
def sleeps (c : Checker) (fuel : Nat) (p : Branch → Candidate → Bool) : Bool :=
  (c.observe fuel).2.scheduler.asked.any fun x =>
    ((x.1.schedule x.2).2.path.branches[x.1.path.position]?).any fun b => b.sleep.any (p b)

theorem exists_of_sleeps {fuel : Nat} {p : Branch → Candidate → Bool}
    (h : c.sleeps fuel p = true) :
    ∃ r cs b e, (r, cs) ∈ (c.observe fuel).2.scheduler.asked ∧
      (r.schedule cs).2.path.branches[r.path.position]? = some b ∧ e ∈ b.sleep ∧ p b e = true := by
  simp only [sleeps, List.any_eq_true, Option.any_eq_true] at h
  obtain ⟨⟨r, cs⟩, hasked, b, hb, e, he, hp⟩ := h
  exact ⟨r, cs, b, e, hasked, hb, he, hp⟩

/-- The store sleeps and is offered.  The first of the two threads is renumbered while it sleeps. -/
theorem sleep_offered_creators :
    ∃ (c : Checker) (m : Machine), c.Made ∧
      (c.session.program.find? Program.entryPoint).map (Machine.start c.setup) = some (.ok m) ∧
      (∃ r cs b e, (r, cs) ∈ (c.observe 20).2.scheduler.asked ∧
        (r.schedule cs).2.path.branches[r.path.position]? = some b ∧ e ∈ b.sleep ∧
        e.access = .write 1 ∧ e ∈ b.candidates) ∧
      ∃ r cs b e, (r, cs) ∈ (c.observe 20).2.scheduler.asked ∧
        (r.schedule cs).2.path.branches[r.path.position]? = some b ∧ e ∈ b.sleep ∧
        ∃ j < r.path.position, ∃ d m', (r.schedule cs).2.plan[j]? = some d.proc ∧
          m.reach c.setup ((r.schedule cs).2.plan.take j) = .ok m' ∧ m'.Offered c.setup d ∧
          m'.Offered c.setup e ∧ m'.Renumbers c.setup d e := by
  obtain ⟨c, htext, hc⟩ := exists_of_any
    (x := Checker.ofText .standard (exhaustive .sc) creatorsText)
    (p := fun c => (c.sleeps 20 fun _ e => e.access == .write 1) &&
      (c.sleeps 20 fun b e => !decide (e ∈ b.candidates)) &&
      ((c.session.program.find? Program.entryPoint).map (Machine.start c.setup)).any
        fun result => result.toOption.any fun _ => true)
    (by decide +kernel)
  simp only [Bool.and_eq_true] at hc
  obtain ⟨⟨hstore, houtdated⟩, hstarts⟩ := hc
  obtain ⟨result, hresult, hm⟩ := (Option.any_eq_true _ _).mp hstarts
  obtain ⟨m, rfl, -⟩ := exists_of_any hm
  refine ⟨c, m, .ofText htext, hresult, ?_, ?_⟩
  · obtain ⟨r, cs, b, e, hasked, hb, he, hwrite⟩ := exists_of_sleeps hstore
    have haccess : e.access = .write 1 := beq_iff_eq.mp hwrite
    refine ⟨r, cs, b, e, hasked, hb, he, haccess,
      (sleep_offered (.ofText htext) hresult 20 hasked hb he).resolve_right ?_⟩
    -- a store does not depend on how many threads there are
    rintro ⟨j, -, d, m', -, -, -, hoffered, -, u, hu, hcounts⟩
    simpa [haccess] using access_of_countsThreads hcounts hoffered hu
  · obtain ⟨r, cs, b, e, hasked, hb, he, hnot⟩ := exists_of_sleeps houtdated
    exact ⟨r, cs, b, e, hasked, hb, he,
      (sleep_offered (.ofText htext) hresult 20 hasked hb he).resolve_left (by simpa using hnot)⟩

/-- **A sleeper that is out of date**: the first thread sleeps as the creator of a thread whose number
the second has used, and so an error is lost. -/
theorem sleep_outdated :
    ∃ c, Checker.ofText .standard (exhaustive .sc) creatorsText = .ok c ∧
      (∃ r cs b e, (r, cs) ∈ (c.observe 20).2.scheduler.asked ∧
        (r.schedule cs).2.path.branches[r.path.position]? = some b ∧ e ∈ b.sleep ∧
        ¬ e ∈ b.candidates) ∧
      (c.run 20).1 = .finished ∧
      (¬ ∃ trace ∈ (c.run 20).2.result.allTraces,
        trace.behaviour = .failed .assertionFailure (some ⟨1, "a", 3⟩)) ∧
      ∃ choices, ∃ trace ∈ (c.runWith 20 (picking choices 20)).2.result.allTraces,
        trace.behaviour = .failed .assertionFailure (some ⟨1, "a", 3⟩) := by
  obtain ⟨c, htext, hc⟩ := exists_of_any
    (x := Checker.ofText .standard (exhaustive .sc) creatorsText)
    (p := fun c => (c.sleeps 20 fun b e => !decide (e ∈ b.candidates)) &&
      c.losesError 20 [0, 0, 2, 1, 1] .assertionFailure ⟨1, "a", 3⟩)
    (by decide +kernel)
  obtain ⟨houtdated, hloses⟩ := Bool.and_eq_true_iff.mp hc
  obtain ⟨r, cs, b, e, hasked, hb, he, hnot⟩ := exists_of_sleeps houtdated
  exact ⟨c, htext, ⟨r, cs, b, e, hasked, hb, he, by simpa using hnot⟩, of_losesError hloses⟩

end Checker

end Interleave
