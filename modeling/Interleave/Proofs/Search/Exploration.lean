import Interleave.Proofs.Search.Tree

/-! # Whole explorations

`Reduction.Explores` runs an engine again and again, an error reported after whichever executions,
and keeps a log of the executions.  Together, the path that the reduction holds between two
executions and the log amount to a tree (`Ready`), to which every execution adds a leaf (`Full`).
When the exploration is over the whole tree is sound and settled (`Reduction.Explores.tree`). -/

namespace Interleave

open Interleave.Tree

section

variable (offers : Offers) (maxDepth : Option Nat) (failing : List Candidate → Prop)

/-- The requests of the execution `w` from `ops` have had their effect at a branch that stands
there. -/
structure Owed (ops : List Candidate) (b : Branch) (w : List Candidate) : Prop where
  races : ∀ u d, u ++ [d] <+: w → ops.length ∈ (History.ofOps (ops ++ u)).racing d →
    b.Answers d.proc
  failed : failing (ops ++ w) → b.TakesAll

/-- The tree `t` holds what has been explored behind the processes that are done at a branch. -/
structure Tried (ops sleep : List Candidate) (b : Branch) (t : Tree) : Prop where
  here : b.At offers ops sleep
  done : ∀ p, p ∈ b.done ↔ p ∈ procs t.firsts
  sound : Sound offers ops sleep [] t
  finished : Finished offers maxDepth failing ops sleep [] t

/-- Below `ops`, the branches of an execution that has ended, and all that has been explored. -/
inductive Full : List Candidate → List Candidate → List Branch → Tree → Prop where
  | nil {ops sleep : List Candidate} (ended : Reduction.Ended offers maxDepth ops sleep) :
      Full ops sleep [] tip
  | cons {ops sleep : List Candidate} {b : Branch} {bs : List Branch} {c : Candidate}
      {t sub : Tree} (tried : Tried offers maxDepth failing ops sleep b t)
      (op : b.candidate? b.chosen = some c)
      (owed : ∀ w ∈ (t.snoc c sub).runs, Owed failing ops b w)
      (rest : Full (ops ++ [c]) b.sleepAfter bs sub) : Full ops sleep (b :: bs) (t.snoc c sub)

/-- Below `ops`, the branches on which the next execution starts, and all that has been explored. -/
inductive Ready : List Candidate → List Candidate → List Branch → Tree → Prop where
  | nil {ops sleep : List Candidate} : Ready ops sleep [] tip
  | last {ops sleep : List Candidate} {b : Branch} {t : Tree}
      (tried : Tried offers maxDepth failing ops sleep b t) (ne : t ≠ tip)
      (owed : ∀ w ∈ t.runs, Owed failing ops b w) : Ready ops sleep [b] t
  | cons {ops sleep : List Candidate} {b : Branch} {bs : List Branch} {c : Candidate}
      {t sub : Tree} (tried : Tried offers maxDepth failing ops sleep b t)
      (op : b.candidate? b.chosen = some c) (ne : sub ≠ tip)
      (owed : ∀ w ∈ (t.snoc c sub).runs, Owed failing ops b w)
      (rest : Ready (ops ++ [c]) b.sleepAfter bs sub) : Ready ops sleep (b :: bs) (t.snoc c sub)

end

section

variable {offers : Offers} {maxDepth : Option Nat} {failing : List Candidate → Prop}
  {ops sleep : List Candidate} {b b' : Branch} {t sub : Tree} {c : Candidate}

theorem Owed.grows {w : List Candidate} (h : Owed failing ops b w) (hg : b.Grows b') :
    Owed failing ops b' w :=
  ⟨fun u d hu hr => hg.answers (h.races u d hu hr), fun hf => hg.takesAll (h.failed hf)⟩

namespace Tried

theorem grows (h : Tried offers maxDepth failing ops sleep b t) (hg : b.Grows b') :
    Tried offers maxDepth failing ops sleep b' t :=
  ⟨⟨hg.candidates.trans h.here.candidates, hg.sleep.trans h.here.sleep,
    hg.wellFormed h.here.wellFormed⟩, fun p => by rw [hg.done, h.done], h.sound, h.finished⟩

theorem sleepAfter_eq (h : Tried offers maxDepth failing ops sleep b t)
    (op : b.candidate? b.chosen = some c) :
    b.sleepAfter = sleepBeyond (offers (procs ops)) sleep (procs t.firsts) c := by
  rw [Tree.sleepAfter_eq op h.done, h.here.candidates, h.here.sleep]

theorem chosen (h : Tried offers maxDepth failing ops sleep b t)
    (op : b.candidate? b.chosen = some c) :
    c ∈ offers (procs ops) ∧ ¬ c.proc ∈ procs sleep ∧ ¬ c.proc ∈ procs t.firsts := by
  obtain ⟨hmem, hproc⟩ := Branch.mem_of_candidate? op
  obtain ⟨⟨-, hawake⟩, hd, -, -⟩ := h.here.wellFormed
  refine ⟨h.here.candidates ▸ hmem, fun hs => ?_, fun hf => ?_⟩
  · rw [hproc] at hs
    have : b.isAsleep b.chosen = true :=
      Branch.isAsleep_iff.mpr (h.here.sleep ▸ List.mem_map.mp hs)
    simp [this] at hawake
  · rw [hproc] at hf
    exact hd ((h.done _).mpr hf)

theorem sound_snoc (h : Tried offers maxDepth failing ops sleep b t)
    (op : b.candidate? b.chosen = some c)
    (hsub : Sound offers (ops ++ [c]) b.sleepAfter [] sub) :
    Sound offers ops sleep [] (t.snoc c sub) := by
  obtain ⟨hc, hs, hd⟩ := h.chosen op
  rw [h.sleepAfter_eq op] at hsub
  exact Tree.sound_snoc h.sound hc hs (by simpa using hd) (by simpa using hsub)

theorem finished_snoc (h : Tried offers maxDepth failing ops sleep b t)
    (op : b.candidate? b.chosen = some c)
    (hset : Settled offers maxDepth failing (ops ++ [c]) b.sleepAfter sub)
    (hsub : Finished offers maxDepth failing (ops ++ [c]) b.sleepAfter [] sub) :
    Finished offers maxDepth failing ops sleep [] (t.snoc c sub) := by
  rw [h.sleepAfter_eq op] at hset hsub
  exact Tree.finished_snoc h.finished (by simpa using hset) (by simpa using hsub)

theorem awake (h : Tried offers maxDepth failing ops sleep b t) {d : Candidate}
    (hd : d ∈ offers (procs ops)) (hs : ¬ d.proc ∈ procs sleep) : b.Awake d.proc := by
  refine ⟨Branch.isEnabled_iff.mpr ⟨d, h.here.candidates ▸ hd, rfl⟩, ?_⟩
  rw [← Bool.not_eq_true, Branch.isAsleep_iff, h.here.sleep]
  exact fun ⟨e, he, hp⟩ => hs (List.mem_map.mpr ⟨e, he, hp⟩)

end Tried

/-! ### From one execution to the next -/

theorem Full.sound {bs : List Branch} (h : Full offers maxDepth failing ops sleep bs t) :
    Sound offers ops sleep [] t := by
  induction h with
  | nil => trivial
  | cons tried op _ _ ih => exact tried.sound_snoc op ih

theorem Ready.follows {bs : List Branch} (h : Ready offers maxDepth failing ops sleep bs t) :
    ∃ w, Follows offers ops sleep bs w := by
  induction h with
  | nil => exact ⟨[], .nil ..⟩
  | last tried =>
      obtain ⟨c, hc⟩ := Option.isSome_iff_exists.mp tried.here.wellFormed.chosen_awake.1
      exact ⟨[c], .cons tried.here hc (.nil ..)⟩
  | cons tried op _ _ _ ih =>
      obtain ⟨w, hw⟩ := ih
      exact ⟨_, .cons tried.here op hw⟩

/-- A branch with nothing left to try has answered all requests by what was tried. -/
theorem Tried.settled (h : Tried offers maxDepth failing ops sleep b t)
    (op : b.candidate? b.chosen = some c)
    (owed : ∀ w ∈ (t.snoc c sub).runs, Owed failing ops b w) (hnext : b.next? = none) :
    Settled offers maxDepth failing ops sleep (t.snoc c sub) := by
  have htaken : ∀ p, b.Takes p → p ∈ procs (t.snoc c sub).firsts := by
    intro p hp
    rw [firsts_snoc, procs, List.map_append, List.mem_append]
    rcases Branch.takes_of_next?_eq_none h.here.wellFormed hnext hp with rfl | hd
    · exact .inr (by simp [(Branch.mem_of_candidate? op).2])
    · exact .inl ((h.done p).mp hd)
  have hall : b.TakesAll → TriedAll offers ops sleep (t.snoc c sub) :=
    fun ha d hd hs => htaken _ (ha _ (h.awake hd hs))
  exact ⟨fun he => absurd he (snoc_ne_tip t c sub),
    fun w hw u d hu hr => ((owed w hw).races u d hu hr).imp (htaken _) hall,
    fun w hw hf => hall ((owed w hw).failed hf)⟩

/-- Going on to the next process at a branch, whose subtree is complete. -/
theorem Tried.switch (h : Tried offers maxDepth failing ops sleep b t)
    (op : b.candidate? b.chosen = some c) (hnext : b.next? = some b')
    (hsound : Sound offers ops sleep [] (t.snoc c sub))
    (hfin : Finished offers maxDepth failing ops sleep [] (t.snoc c sub)) :
    Tried offers maxDepth failing ops sleep b' (t.snoc c sub) := by
  have hsw := Branch.switches_of_next? h.here.wellFormed hnext
  refine ⟨⟨hsw.candidates.trans h.here.candidates, hsw.sleep.trans h.here.sleep,
    hsw.wellFormed h.here.wellFormed⟩, fun p => ?_, hsound, hfin⟩
  rw [hsw.done, ProcSet.mem_insert, h.done, firsts_snoc]
  simp only [procs, List.map_append, List.mem_append, List.map_singleton, List.mem_singleton,
    (Branch.mem_of_candidate? op).2]
  exact or_comm

/-- **Backtracking**: either everything below is settled, or the path for the next execution is
ready. -/
theorem Full.next {bs : List Branch} (h : Full offers maxDepth failing ops sleep bs t) :
    (Path.nextBranches? bs = none →
      Settled offers maxDepth failing ops sleep t ∧
        Finished offers maxDepth failing ops sleep [] t) ∧
    ∀ bs', Path.nextBranches? bs = some bs' →
      t ≠ tip ∧ Ready offers maxDepth failing ops sleep bs' t := by
  induction h with
  | nil ended =>
      refine ⟨fun _ => ⟨⟨fun _ => ended, ?_, ?_⟩, trivial⟩, by simp [Path.nextBranches?]⟩ <;>
        simp [runs]
  | @cons ops sleep b bs c t sub tried op owed rest ih =>
      obtain ⟨ihnone, ihsome⟩ := ih
      simp only [Path.nextBranches?]
      cases hnext : Path.nextBranches? bs with
      | some bs'' =>
          obtain ⟨hne, hready⟩ := ihsome bs'' hnext
          refine ⟨by simp, fun bs' h => ⟨snoc_ne_tip t c sub, ?_⟩⟩
          obtain rfl : b :: bs'' = bs' := by simpa using h
          exact .cons tried op hne owed hready
      | none =>
          obtain ⟨hset, hfin⟩ := ihnone hnext
          have hfin' := tried.finished_snoc op hset hfin
          refine ⟨fun h => ?_, fun bs' h => ⟨snoc_ne_tip t c sub, ?_⟩⟩
          · exact ⟨tried.settled op owed (by simpa using h), hfin'⟩
          · obtain ⟨b', hb', rfl⟩ := Option.map_eq_some_iff.mp h
            have hsw := Branch.switches_of_next? tried.here.wellFormed hb'
            refine .last (tried.switch op hb' (tried.sound_snoc op rest.sound) hfin')
              (snoc_ne_tip t c sub) fun w hw => ?_
            exact ⟨fun u d hu hr => hsw.answers ((owed w hw).races u d hu hr),
              fun hf => hsw.takesAll ((owed w hw).failed hf)⟩

/-! ### From the start of an execution to its end -/

/-- What the execution `w` from `ops` has left behind at the branches from there on. -/
structure Requested (failing : List Candidate → Prop) (ops : List Candidate) (bs : List Branch)
    (w : List Candidate) : Prop where
  races : ∀ i j b d, bs[i]? = some b → w[j]? = some d →
    ops.length + i ∈ (History.ofOps (ops ++ w.take j)).racing d → b.Answers d.proc
  failed : failing (ops ++ w) → ∀ b ∈ bs, b.TakesAll

namespace Requested

theorem owed {bs : List Branch} {w : List Candidate} (h : Requested failing ops (b :: bs) w) :
    Owed failing ops b w := by
  refine ⟨fun u d hu hr => ?_, fun hf => h.failed hf b (by simp)⟩
  obtain ⟨v, rfl⟩ := hu
  refine h.races 0 u.length b d rfl (by simp) ?_
  rw [List.append_assoc u, List.take_left' rfl]
  exact hr

theorem tail {bs : List Branch} {w : List Candidate} (h : Requested failing ops (b :: bs) (c :: w)) :
    Requested failing (ops ++ [c]) bs w := by
  refine ⟨fun i j b' d hb hd hr => ?_, fun hf b' hb => ?_⟩
  · refine h.races (i + 1) (j + 1) b' d hb hd ?_
    rw [List.length_append, List.length_singleton, Nat.add_assoc, Nat.add_comm 1 i] at hr
    simpa using hr
  · exact h.failed (by simpa using hf) b' (List.mem_cons_of_mem _ hb)

end Requested

/-- Where no execution has been before, the tree gets a single leaf. -/
theorem Full.of_new {bs : List Branch} {w : List Candidate}
    (hw : Follows offers ops sleep bs w) (hnew : ∀ b ∈ bs, b.done = .empty)
    (hend : Reduction.Ended offers maxDepth (ops ++ w) (sleepBehind sleep bs))
    (hreq : Requested failing ops bs w) :
    ∃ t, Full offers maxDepth failing ops sleep bs t ∧ t.leaves = [w] := by
  induction hw with
  | nil => exact ⟨tip, .nil (by simpa [sleepBehind] using hend), leaves_tip⟩
  | @cons ops sleep w b bs c here op _ ih =>
      obtain ⟨sub, hsub, hleaves⟩ := ih (fun b' hb => hnew b' (List.mem_cons_of_mem _ hb))
        (by simpa [sleepBehind] using hend) hreq.tail
      have hruns : (tip.snoc c sub).runs = [c :: w] := by simp [runs_snoc, runs, hleaves]
      refine ⟨tip.snoc c sub, .cons ⟨here, fun p => ?_, trivial, trivial⟩ op (fun x hx => ?_) hsub,
        by rw [leaves_of_ne_tip (snoc_ne_tip _ _ _), hruns]⟩
      · simp [hnew b (by simp), firsts]
      · rw [hruns, List.mem_singleton] at hx
        exact hx ▸ hreq.owed

/-- **An execution adds one leaf to the tree.** -/
theorem Ready.executed {old bs new : List Branch} {w : List Candidate}
    (h : Ready offers maxDepth failing ops sleep old t) (hgrow : AllGrow old bs)
    (hw : Follows offers ops sleep (bs ++ new) w) (hnew : ∀ b ∈ new, b.done = .empty)
    (hend : Reduction.Ended offers maxDepth (ops ++ w) (sleepBehind sleep (bs ++ new)))
    (hreq : Requested failing ops (bs ++ new) w) :
    ∃ t', Full offers maxDepth failing ops sleep (bs ++ new) t' ∧ t'.leaves = t.runs ++ [w] := by
  induction h generalizing bs w with
  | nil =>
      obtain rfl := List.forall₂_nil_left_iff.mp hgrow
      exact Full.of_new hw hnew hend hreq
  | @last ops sleep b t tried ne owed =>
      obtain ⟨b', bs', hg, hnil, rfl⟩ := List.forall₂_cons_left_iff.mp hgrow
      obtain rfl := List.forall₂_nil_left_iff.mp hnil
      cases hw with
      | @cons _ _ w _ _ c here op rest =>
      obtain ⟨sub, hsub, hleaves⟩ := Full.of_new rest hnew (by simpa [sleepBehind] using hend) hreq.tail
      have hruns : (t.snoc c sub).runs = t.runs ++ [c :: w] := by simp [runs_snoc, hleaves]
      refine ⟨t.snoc c sub, .cons (tried.grows hg) op (fun x hx => ?_) hsub,
        by rw [leaves_of_ne_tip (snoc_ne_tip _ _ _), hruns]⟩
      rw [hruns, List.mem_append, List.mem_singleton] at hx
      rcases hx with hx | rfl
      · exact (owed x hx).grows hg
      · exact hreq.owed
  | @cons ops sleep b old c t sub tried op ne owed rest ih =>
      obtain ⟨b', bs', hg, htl, rfl⟩ := List.forall₂_cons_left_iff.mp hgrow
      cases hw with
      | @cons _ _ w _ _ c' here op' rest' =>
      obtain rfl : c = c' := Option.some.inj (op.symm.trans (hg.candidate?.symm.trans op'))
      obtain ⟨sub', hsub, hleaves⟩ := ih htl (hg.sleepAfter ▸ rest')
        (by simpa [sleepBehind, hg.sleepAfter] using hend) hreq.tail
      have hruns : (t.snoc c sub').runs = (t.snoc c sub).runs ++ [c :: w] := by
        simp [runs_snoc, hleaves, leaves_of_ne_tip ne]
      refine ⟨t.snoc c sub', .cons (tried.grows hg) op' (fun x hx => ?_) (hg.sleepAfter ▸ hsub),
        by rw [leaves_of_ne_tip (snoc_ne_tip _ _ _), hruns]⟩
      rw [hruns, List.mem_append, List.mem_singleton] at hx
      rcases hx with hx | rfl
      · exact (owed x hx).grows hg
      · exact hreq.owed

end

/-! ### The next path -/

theorem Path.nextBranches?_eq_none {bs : List Branch} (h : Path.nextBranches? bs = none) :
    ∀ b ∈ bs, b.next? = none := by
  induction bs with
  | nil => simp
  | cons b bs ih =>
      simp only [Path.nextBranches?] at h
      split at h
      next => cases h
      next hbs => exact List.forall_mem_cons.mpr ⟨by simpa using h, ih hbs⟩

/-- The next path keeps the branches above the deepest one with a process left to try. -/
theorem Path.nextBranches?_eq_some {bs bs' : List Branch} (h : Path.nextBranches? bs = some bs') :
    ∃ above b b' below, bs = above ++ b :: below ∧ bs' = above ++ [b'] ∧ b.next? = some b' ∧
      ∀ x ∈ below, x.next? = none := by
  induction bs generalizing bs' with
  | nil => cases h
  | cons b bs ih =>
      simp only [Path.nextBranches?] at h
      split at h
      next bs'' hbs =>
        obtain ⟨above, x, x', below, rfl, rfl, hnext, hbelow⟩ := ih hbs
        cases h
        exact ⟨b :: above, x, x', below, rfl, rfl, hnext, hbelow⟩
      next hbs =>
        obtain ⟨b', hb', rfl⟩ := Option.map_eq_some_iff.mp h
        exact ⟨[], b, b', bs, rfl, rfl, hb', Path.nextBranches?_eq_none hbs⟩

/-! ### Explorations -/

namespace Reduction

/-- An execution in the log of an exploration: the reduction at its end, and whether an error was
reported. -/
structure Explored where
  final : Reduction
  failed : Bool

/-- The operations of an execution. -/
def Explored.ops (x : Explored) : List Candidate := x.final.history.map Operated.candidate

/-- The end of an execution, after an error if there was one. -/
def finish (r : Reduction) (failed : Bool) : Reduction :=
  (if failed then r.executionFailed else r).endExecution

/-- An exploration: the executions so far, whether there is another one, and the reduction before
it.  Errors are reported after any of the executions. -/
inductive Explores (offers : Offers) (maxDepth : Option Nat) :
    List Explored → Bool → Reduction → Prop where
  | start : Explores offers maxDepth [] true (.start maxDepth)
  | execution {log : List Explored} {r r' : Reduction} {ps : List Proc} (failed : Bool)
      (before : Explores offers maxDepth log true r) (run : Executes offers [] r ps r') :
      Explores offers maxDepth (log ++ [⟨r'.finish failed, failed⟩])
        (r'.finish failed).advance.1 (r'.finish failed).advance.2

/-- What is known of each execution in the log. -/
structure Explored.Recorded (offers : Offers) (maxDepth : Option Nat) (x : Explored) : Prop where
  schedule : x.final.currentSchedule = procs x.ops
  run : IsRun offers x.ops
  within : ∀ n, maxDepth = some n → x.ops.length ≤ n
  blocked : maxDepth = none → (x.final.blocked = true ↔ offers (procs x.ops) ≠ [])

theorem finish_eq {r : Reduction} (h : r.phase = .exploring) (failed : Bool) :
    r.finish failed = { r with
      path := if failed then r.executionFailed.path else r.path, phase := .readyForNext } := by
  cases failed <;> simp [finish, endExecution, executionFailed, h]

theorem allGrow_finish {r : Reduction} (h : r.phase = .exploring) (failed : Bool) :
    AllGrow r.path.branches (r.finish failed).path.branches := by
  rw [finish_eq h]
  cases failed with
  | false => exact AllGrow.refl _
  | true => exact r.allGrow_executionFailed

theorem finish_position {r : Reduction} (h : r.phase = .exploring) (failed : Bool) :
    (r.finish failed).path.position = r.path.position := by
  rw [finish_eq h]
  cases failed <;> simp [executionFailed, Path.foldl_requestAll]

namespace Executed

variable {offers : Offers} {maxDepth : Option Nat} {failing : List Candidate → Prop}
  {old : List Branch} {ops : List Candidate} {r : Reduction}

theorem takesAll_finish (h : Executed offers maxDepth old ops r) {b : Branch}
    (hb : b ∈ (r.finish true).path.branches) : b.TakesAll := by
  obtain ⟨i, hi⟩ := List.mem_iff_getElem?.mp hb
  rw [finish_eq h.exploring] at hi
  refine takesAll_executionFailed ?_ hi
  rw [h.position, h.follows.length_eq, r.allGrow_executionFailed.length_eq]
  exact (List.getElem?_eq_some_iff.mp hi).1

theorem requested (h : Executed offers maxDepth old ops r) {failed : Bool}
    (hf : failing ops → failed = true) :
    Requested failing [] (r.finish failed).path.branches ops := by
  refine ⟨fun i j b d hb hd hr => ?_, fun hfail b hb => ?_⟩
  · obtain ⟨b', hb', hg⟩ := (allGrow_finish h.exploring failed).getElem? hb
    exact hg.answers (h.answered i j b' d hb' hd (by simpa using hr))
  · obtain rfl := hf (by simpa using hfail)
    exact h.takesAll_finish hb

theorem ops_finish (h : Executed offers maxDepth old ops r) (failed : Bool) :
    Explored.ops ⟨r.finish failed, failed⟩ = ops := by
  simp [Explored.ops, finish_eq h.exploring, h.history]

theorem recorded (h : Executed offers maxDepth old ops r) (failed : Bool) :
    Explored.Recorded offers maxDepth ⟨r.finish failed, failed⟩ := by
  have hfollows := h.follows.grows (allGrow_finish h.exploring failed)
  refine ⟨?_, fun u c v hu => ?_, fun n hn => ?_, fun hn => ?_⟩
  · rw [h.ops_finish, ← hfollows.map_chosen, currentSchedule, Path.schedule,
      finish_position h.exploring, h.position, hfollows.length_eq, List.take_length]
  · rw [h.ops_finish] at hu
    subst hu
    have hlt : u.length < (r.finish failed).path.branches.length := by simp [← hfollows.length_eq]
    obtain ⟨d, sleep', hd, hat, hop⟩ := hfollows.getElem? (List.getElem?_eq_getElem hlt)
    obtain rfl : c = d := by simpa using hd
    have hmem := (Branch.mem_of_candidate? hop).1
    rw [hat.candidates] at hmem
    simpa using hmem
  · rw [h.ops_finish, h.follows.length_eq]
    exact h.within n hn
  · rw [h.ops_finish, finish_eq h.exploring]
    exact h.blocked hn

theorem full (h : Executed offers maxDepth old ops r) {t : Tree}
    (hready : Ready offers maxDepth failing [] [] old t) {failed : Bool}
    (hf : failing ops → failed = true) :
    ∃ t', Full offers maxDepth failing [] [] (r.finish failed).path.branches t' ∧
      t'.leaves = t.runs ++ [ops] := by
  have hgrow := allGrow_finish h.exploring failed
  obtain ⟨bs, new, hbs, hold, hnew⟩ := h.branches
  rw [hbs] at hgrow
  obtain ⟨bs', new', hbs', hnew', heq⟩ := hgrow.append_left
  have hfollows := h.follows.grows (allGrow_finish h.exploring failed)
  have hreq := h.requested hf
  have hend := h.ended
  rw [← (allGrow_finish h.exploring failed).sleepBehind_eq] at hend
  rw [heq] at hfollows hreq hend ⊢
  exact hready.executed (hold.trans hbs') hfollows (hnew'.done_eq_empty hnew) hend hreq

end Executed

/-- The reduction before an execution, when the tree `t` has been explored. -/
structure Prepared (offers : Offers) (maxDepth : Option Nat) (failing : List Candidate → Prop)
    (r : Reduction) (t : Tree) : Prop where
  exploring : r.phase = .exploring
  unmarked : r.blocked = false ∧ r.bounded = false
  maxDepth_eq : r.maxDepth = maxDepth
  within : ∀ n, maxDepth = some n → r.path.branches.length ≤ n
  history : r.history = []
  position : r.path.position = 0
  ready : Ready offers maxDepth failing [] [] r.path.branches t

section

variable {offers : Offers} {maxDepth : Option Nat} {failing : List Candidate → Prop}
  {r r' : Reduction} {t : Tree}

theorem prepared_start : Prepared offers maxDepth failing (.start maxDepth) .tip where
  exploring := rfl
  unmarked := ⟨rfl, rfl⟩
  maxDepth_eq := rfl
  within := by simp [start, Path.empty]
  history := rfl
  position := rfl
  ready := .nil

theorem Prepared.midway (h : Prepared offers maxDepth failing r t) :
    Midway offers maxDepth r.path.branches [] r where
  exploring := h.exploring
  unmarked := h.unmarked
  maxDepth_eq := h.maxDepth_eq
  within := h.within
  history := h.history
  position := h.position
  branches := ⟨_, [], (List.append_nil _).symm, AllGrow.refl _, by simp⟩
  follows := by
    obtain ⟨w, hw⟩ := h.ready.follows
    exact ⟨w, hw, List.nil_prefix⟩
  answered := by simp

theorem Path.length_nextBranches? {bs bs' : List Branch} (h : Path.nextBranches? bs = some bs') :
    bs'.length ≤ bs.length := by
  obtain ⟨above, b, b', below, rfl, rfl, -, -⟩ := Path.nextBranches?_eq_some h
  simp

theorem advance_of_some {bs : List Branch} (hph : r.phase ≠ .exhausted)
    (h : Path.nextBranches? r.path.branches = some bs) :
    r.advance = (true, { r with
      path := ⟨bs, 0⟩, history := [], blocked := false, bounded := false, phase := .exploring }) := by
  simp [advance, Path.advance, hph, h]

theorem advance_of_none (hph : r.phase ≠ .exhausted)
    (h : Path.nextBranches? r.path.branches = none) :
    r.advance = (false, { r with path := ⟨[], 0⟩, phase := .exhausted }) := by
  simp [advance, Path.advance, hph, h]

/-- Behind an execution the reduction goes on or is done. -/
theorem Prepared.executed (h : Prepared offers maxDepth failing r t) {ops : List Candidate}
    (hex : Executed offers maxDepth r.path.branches ops r') {failed : Bool}
    (hf : failing ops → failed = true) :
    Explored.Recorded offers maxDepth ⟨r'.finish failed, failed⟩ ∧
    ∃ t', Tree.Sound offers [] [] [] t' ∧ t'.leaves = t.runs ++ [ops] ∧
      ((r'.finish failed).advance.1 = true →
        t' ≠ .tip ∧ Prepared offers maxDepth failing (r'.finish failed).advance.2 t') ∧
      ((r'.finish failed).advance.1 = false →
        Tree.Settled offers maxDepth failing [] [] t' ∧
          Tree.Finished offers maxDepth failing [] [] [] t') := by
  obtain ⟨t', hfull, hleaves⟩ := hex.full h.ready hf
  have hph : (r'.finish failed).phase ≠ .exhausted := by simp [finish_eq hex.exploring]
  refine ⟨hex.recorded failed, t', hfull.sound, hleaves, fun hmore => ?_, fun hmore => ?_⟩
  · cases hnext : Path.nextBranches? (r'.finish failed).path.branches with
    | none => simp [advance_of_none hph hnext] at hmore
    | some bs =>
        obtain ⟨hne, hready⟩ := hfull.next.2 bs hnext
        refine ⟨hne, ?_⟩
        rw [advance_of_some hph hnext]
        refine ⟨rfl, ⟨rfl, rfl⟩, by simp [finish_eq hex.exploring, hex.maxDepth_eq], ?_, rfl, rfl,
          hready⟩
        intro n hn
        have hle := Path.length_nextBranches? hnext
        have hwithin := hex.within n hn
        rw [(allGrow_finish hex.exploring failed).length_eq] at hwithin
        exact hle.trans hwithin
  · cases hnext : Path.nextBranches? (r'.finish failed).path.branches with
    | none => exact hfull.next.1 hnext
    | some bs => simp [advance_of_some hph hnext] at hmore

/-- **The step of an exploration**: one more execution, and the reduction goes on or is done. -/
theorem Prepared.step (h : Prepared offers maxDepth failing r t) {ps : List Proc}
    (run : Executes offers [] r ps r') {failed : Bool}
    (hf : failing (Explored.ops ⟨r'.finish failed, failed⟩) → failed = true) :
    Explored.Recorded offers maxDepth ⟨r'.finish failed, failed⟩ ∧
    ∃ t', Tree.Sound offers [] [] [] t' ∧
      t'.leaves = t.runs ++ [Explored.ops ⟨r'.finish failed, failed⟩] ∧
      ((r'.finish failed).advance.1 = true →
        t' ≠ .tip ∧ Prepared offers maxDepth failing (r'.finish failed).advance.2 t') ∧
      ((r'.finish failed).advance.1 = false →
        Tree.Settled offers maxDepth failing [] [] t' ∧
          Tree.Finished offers maxDepth failing [] [] [] t') := by
  obtain ⟨ops, -, hex⟩ := run.executed (show procs [] = [] from rfl) h.midway
  rw [hex.ops_finish] at hf ⊢
  exact h.executed hex hf

/-- **An exploration amounts to a tree.**  Each execution is a leaf, in the order of the log; once no
execution is left the tree is settled. -/
theorem Explores.tree {log : List Explored} {more : Bool} (h : Explores offers maxDepth log more r)
    (failing : List Candidate → Prop) (hf : ∀ x ∈ log, failing x.ops → x.failed = true) :
    (∀ x ∈ log, x.Recorded offers maxDepth) ∧
    ∃ t, Tree.Sound offers [] [] [] t ∧
      (more = true → Prepared offers maxDepth failing r t ∧ log.map Explored.ops = t.runs) ∧
      (more = false → Tree.Settled offers maxDepth failing [] [] t ∧
        Tree.Finished offers maxDepth failing [] [] [] t ∧ log.map Explored.ops = t.leaves) := by
  induction h with
  | start =>
      exact ⟨by simp, .tip, trivial, fun _ => ⟨prepared_start, rfl⟩, by simp⟩
  | @execution log r r' ps failed before run ih =>
      obtain ⟨hrec, t, -, hprep, -⟩ := ih fun x hx => hf x (List.mem_append_left _ hx)
      obtain ⟨hprep, hlog⟩ := hprep rfl
      obtain ⟨hrec', t', hsound, hleaves, hmore, hdone⟩ :=
        hprep.step run (hf _ (List.mem_append_right _ (List.mem_singleton_self _)))
      have hlog' : (log ++ [Explored.mk (r'.finish failed) failed]).map Explored.ops = t'.leaves := by
        rw [hleaves, ← hlog, List.map_append, List.map_singleton]
      refine ⟨fun x hx => ?_, t', hsound, fun hm => ?_, fun hm => ?_⟩
      · rcases List.mem_append.mp hx with hx | hx
        · exact hrec x hx
        · rw [List.mem_singleton.mp hx]; exact hrec'
      · obtain ⟨hne, hprep'⟩ := hmore hm
        exact ⟨hprep', hlog'.trans (Tree.leaves_of_ne_tip hne)⟩
      · obtain ⟨hset, hfin⟩ := hdone hm
        exact ⟨hset, hfin, hlog'⟩

end

end Reduction

end Interleave
