import Interleave.Proofs.Search.Exploration
import Mathlib.Algebra.Group.Nat.Defs
import Mathlib.Data.List.Perm.Subperm

/-! # No class of executions is explored twice

A sleeping operation is never the first of its kind in an execution explored below: whatever would
bring it to the front was woken up by an operation that depends on it.  So an execution that starts
with an operation tried earlier, up to the order of independent steps, is not explored again. -/

namespace Interleave

/-- The operation can be brought to the front of a sequence. -/
def Candidate.Initial (c : Candidate) (w : List Candidate) : Prop :=
  ∃ u v, w = u ++ c :: v ∧ c.IndepOf u

namespace Candidate

theorem not_initial_nil (c : Candidate) : ¬ c.Initial [] := by
  rintro ⟨u, v, h, -⟩
  simp at h

theorem initial_cons {c d : Candidate} {w : List Candidate} :
    c.Initial (d :: w) ↔ c = d ∨ c.dependent d = false ∧ c.Initial w := by
  constructor
  · rintro ⟨u, v, h, hi⟩
    cases u with
    | nil => exact .inl (List.cons.inj h).1.symm
    | cons e u =>
        obtain ⟨rfl, rfl⟩ := List.cons.inj h
        obtain ⟨hd, hi⟩ := indepOf_cons.mp hi
        exact .inr ⟨hd, u, v, rfl, hi⟩
  · rintro (rfl | ⟨hd, u, v, rfl, hi⟩)
    · exact ⟨[], w, rfl, indepOf_nil c⟩
    · exact ⟨d :: u, v, rfl, indepOf_cons.mpr ⟨hd, hi⟩⟩

theorem Initial.append {c : Candidate} {w : List Candidate} (h : c.Initial w) (x : List Candidate) :
    c.Initial (w ++ x) := by
  obtain ⟨u, v, rfl, hi⟩ := h
  exact ⟨u, v ++ x, by simp, hi⟩

end Candidate

theorem Equivalent.initial {c : Candidate} {u w : List Candidate} (h : Equivalent (c :: u) w) :
    c.Initial w := by
  obtain ⟨w₁, w₂, he, hi, -⟩ := h.split
  exact ⟨w₁, w₂, he, hi⟩

theorem Candidate.Initial.equivalent {c : Candidate} {v w : List Candidate} (h : c.Initial v)
    (he : Equivalent v w) : c.Initial w := by
  obtain ⟨u, x, rfl, hi⟩ := h
  exact ((Equivalent.front hi x).symm.trans he).initial

namespace Tree

/-- The tree below a sleep set explores no execution that a sleeping operation could start. -/
theorem Sound.not_initial {offers : Offers} {ops sleep : List Candidate} {done : List Proc}
    {t : Tree} (h : Sound offers ops sleep done t) {q : Candidate}
    (hq : q ∈ sleep ∨ q ∈ offers (procs ops) ∧ q.proc ∈ done) {w : List Candidate}
    (hw : w ∈ t.runs) : ¬ q.Initial w := by
  induction t generalizing ops sleep done w with
  | tip => simp [runs] at hw
  | branch c sub rest ihsub ihrest =>
      obtain ⟨-, hs, hd, hsub, hrest⟩ := h
      rw [runs_branch, List.mem_append, List.mem_map] at hw
      rcases hw with ⟨w, hw, rfl⟩ | hw
      · rw [Candidate.initial_cons]
        rintro (rfl | ⟨hi, hinit⟩)
        · rcases hq with hq | ⟨-, hq⟩
          · exact hs (List.mem_map_of_mem hq)
          · exact hd hq
        · rcases mem_leaves.mp hw with ⟨-, rfl⟩ | hw
          · exact Candidate.not_initial_nil q hinit
          · exact ihsub hsub (.inl (mem_sleepBeyond.mpr ⟨hq, hi⟩)) hw hinit
      · refine ihrest hrest (hq.imp_right ?_) hw
        rintro ⟨ho, hp⟩
        exact ⟨ho, List.mem_append_left _ hp⟩

/-- No two executions of the tree are equivalent. -/
theorem Sound.pairwise {offers : Offers} {ops sleep : List Candidate} {done : List Proc} {t : Tree}
    (h : Sound offers ops sleep done t) : t.runs.Pairwise fun v w => ¬ Equivalent v w := by
  induction t generalizing ops sleep done with
  | tip => simp [runs]
  | branch c sub rest ihsub ihrest =>
      obtain ⟨hc, -, -, hsub, hrest⟩ := h
      have hleaves : sub.leaves.Pairwise fun v w => ¬ Equivalent v w := by
        by_cases htip : sub = tip
        · simp [htip, leaves_tip]
        · rw [leaves_of_ne_tip htip]
          exact ihsub hsub
      rw [runs_branch, List.pairwise_append, List.pairwise_map]
      refine ⟨hleaves.imp fun hne he => hne he.cancel_cons, ihrest hrest, ?_⟩
      intro v hv w hw he
      obtain ⟨v, -, rfl⟩ := List.mem_map.mp hv
      exact hrest.not_initial (.inr ⟨hc, by simp⟩) hw he.initial

theorem Sound.pairwise_leaves {offers : Offers} {ops sleep : List Candidate} {done : List Proc}
    {t : Tree} (h : Sound offers ops sleep done t) :
    t.leaves.Pairwise fun v w => ¬ Equivalent v w := by
  by_cases htip : t = tip
  · simp [htip, leaves_tip]
  · rw [leaves_of_ne_tip htip]
    exact h.pairwise

end Tree

namespace Reduction

/-- Where candidates have different processes, the processes of an execution determine its
operations. -/
theorem ops_eq_of_procs_eq {offers : Offers} (hd : ∀ ps, (procs (offers ps)).Nodup)
    {v w : List Candidate} (hv : IsRun offers v) (hw : IsRun offers w) (h : procs v = procs w) :
    v = w := by
  induction v using List.reverseRecOn generalizing w with
  | nil => exact (List.map_eq_nil_iff.mp h.symm).symm
  | append_singleton v c ih =>
      cases w using List.reverseRecOn with
      | nil => simp [procs] at h
      | append_singleton w d =>
          simp only [procs, List.map_append, List.map_singleton] at h
          obtain ⟨hvw, hcd⟩ := List.append_inj' h rfl
          obtain rfl := ih hv.left hw.left hvw
          rw [List.inj_on_of_nodup_map (hd (procs v)) hv.offered hw.offered (by simpa using hcd)]

variable {offers : Offers} {maxDepth : Option Nat} {log : List Explored} {more : Bool} {r : Reduction}

theorem Explores.pairwise_ops (h : Explores offers maxDepth log more r) :
    log.Pairwise fun x y => ¬ Equivalent x.ops y.ops := by
  obtain ⟨-, t, hsound, hmore, hdone⟩ := h.tree (fun _ => False) (by simp)
  have hpair : (log.map Explored.ops).Pairwise fun v w => ¬ Equivalent v w := by
    cases more with
    | true => exact (hmore rfl).2 ▸ hsound.pairwise
    | false => exact (hdone rfl).2.2 ▸ hsound.pairwise_leaves
  exact List.pairwise_map.mp hpair

theorem Explores.pairwise_schedule (hd : ∀ ps, (procs (offers ps)).Nodup)
    (h : Explores offers maxDepth log more r) :
    log.Pairwise fun x y => x.final.currentSchedule ≠ y.final.currentSchedule := by
  have hrec := (h.tree (fun _ => False) (by simp)).1
  refine List.pairwise_iff_forall_sublist.mpr fun {x y} hxy heq => ?_
  have hx := hrec x (hxy.subset (by simp))
  have hy := hrec y (hxy.subset (by simp))
  rw [hx.schedule, hy.schedule] at heq
  refine List.pairwise_iff_forall_sublist.mp h.pairwise_ops hxy ?_
  rw [ops_eq_of_procs_eq hd hx.run hy.run heq]
  exact Equivalent.refl _

/-- **No class of executions is explored twice.**  Whatever an engine offers, with or without a depth
bound and with errors reported after any of its executions, the operations of two executions of an
exploration are not equivalent, and their schedules differ. -/
theorem Explores.pairwise_not_equivalent (hd : ∀ ps, (procs (offers ps)).Nodup)
    (h : Explores offers maxDepth log more r) :
    log.Pairwise fun x y => ¬ Equivalent x.ops y.ops ∧
      x.final.currentSchedule ≠ y.final.currentSchedule :=
  h.pairwise_ops.and (h.pairwise_schedule hd)

/-- Two threads that each write one cell once. -/
def twoWriters : Offers := fun ps =>
  [⟨.thread 0, .write 1⟩, ⟨.thread 1, .write 1⟩].filter fun c => !ps.contains c.proc

theorem nodup_twoWriters (ps : List Proc) : (procs (twoWriters ps)).Nodup := by
  have h : [Proc.thread 0, Proc.thread 1].Nodup := by decide
  exact h.sublist (List.filter_sublist.map Candidate.proc)

/-- The reduction after the first two decisions and the end of an execution of the two writers. -/
def afterBoth (r : Reduction) (p q : Proc) : Reduction :=
  (((r.schedule (twoWriters [])).2.schedule (twoWriters [p])).2.schedule (twoWriters [p, q])).2

theorem executes_twoWriters {r : Reduction} {p q : Proc}
    (hp : (r.schedule (twoWriters [])).1 = .run p)
    (hq : ((r.schedule (twoWriters [])).2.schedule (twoWriters [p])).1 = .run q)
    (hend : (((r.schedule (twoWriters [])).2.schedule (twoWriters [p])).2.schedule
      (twoWriters [p, q])).1 = .stop) :
    Executes twoWriters [] r [p, q] (afterBoth r p q) :=
  .step (Prod.ext hp rfl) (.step (Prod.ext hq rfl) (.refused (Prod.ext hend rfl) rfl))

/-- The two orders of two writes are explored, an error reported after the first of them, and they
are not equivalent. -/
theorem Explores.pairwise_not_equivalent_twoWriters :
    ∃ log r, Explores twoWriters none log false r ∧ log.length = 2 ∧
      log.Pairwise fun x y => ¬ Equivalent x.ops y.ops ∧
        x.final.currentSchedule ≠ y.final.currentSchedule := by
  have h₁ : Explores twoWriters none _ true _ :=
    .execution true .start
      (executes_twoWriters (p := .thread 0) (q := .thread 1) (by decide) (by decide) (by decide))
  have h₂ : Explores twoWriters none _ false _ :=
    .execution false h₁
      (executes_twoWriters (p := .thread 1) (q := .thread 0) (by decide) (by decide) (by decide))
  exact ⟨_, _, h₂, rfl, Explores.pairwise_not_equivalent nodup_twoWriters h₂⟩

/-! ### Explorations are finite -/

/-- The sequences of at most `n` processes of a list. -/
def words (ps : List Proc) : Nat → List (List Proc)
  | 0 => [[]]
  | n + 1 => [] :: ps.flatMap fun p => (words ps n).map (p :: ·)

theorem mem_words {ps w : List Proc} {n : Nat} (hlen : w.length ≤ n) (hw : w ⊆ ps) :
    w ∈ words ps n := by
  induction n generalizing w with
  | zero => simp [words, List.eq_nil_of_length_eq_zero (Nat.le_zero.mp hlen)]
  | succ n ih =>
      cases w with
      | nil => simp [words]
      | cons p w =>
          refine List.mem_cons_of_mem _ (List.mem_flatMap.mpr ⟨p, hw (by simp), ?_⟩)
          have hmem := ih (by simpa using hlen) (List.subset_of_cons_subset hw)
          exact List.mem_map_of_mem hmem

theorem length_words_le (ps : List Proc) (n : Nat) : (words ps n).length ≤ (ps.length + 1) ^ n := by
  induction n with
  | zero => simp [words]
  | succ n ih =>
      have hpos : 1 ≤ (ps.length + 1) ^ n := Nat.one_le_pow _ _ (Nat.succ_pos _)
      calc (words ps (n + 1)).length
          = ps.length * (words ps n).length + 1 := by simp [words]
        _ ≤ ps.length * (ps.length + 1) ^ n + (ps.length + 1) ^ n :=
            Nat.add_le_add (Nat.mul_le_mul_left _ ih) hpos
        _ = (ps.length + 1) ^ (n + 1) := by rw [Nat.pow_succ, Nat.mul_add, Nat.mul_one, Nat.mul_comm]

/-- If the runs within the depth bound have at most `n` steps, of finitely many processes, then the
number of executions in an exploration is bounded. -/
theorem Explores.length_le (hd : ∀ ps, (procs (offers ps)).Nodup) {ps : List Proc} {n : Nat}
    (hrun : ∀ ops, IsRun offers ops → (∀ k, maxDepth = some k → ops.length ≤ k) →
      ops.length ≤ n ∧ procs ops ⊆ ps)
    (h : Explores offers maxDepth log more r) : log.length ≤ (words ps n).length := by
  have hrec := (h.tree (fun _ => False) (by simp)).1
  have hnodup : (log.map fun x => x.final.currentSchedule).Nodup :=
    List.pairwise_map.mpr (h.pairwise_schedule hd)
  have hsub : (log.map fun x => x.final.currentSchedule) ⊆ words ps n := by
    intro w hw
    obtain ⟨x, hx, rfl⟩ := List.mem_map.mp hw
    obtain ⟨hlen, hps⟩ := hrun x.ops (hrec x hx).run (hrec x hx).within
    rw [(hrec x hx).schedule]
    exact mem_words (by simpa using hlen) hps
  simpa using (hnodup.subperm hsub).length_le

end Reduction

end Interleave
