import Interleave.Proofs.Search.Execution

/-! # The tree of explored executions

The reduction keeps the path of one execution; what it has explored is a tree.  A `Tree` lists, in
order, the operations that have been tried at its root, each with the tree explored behind it; a
leaf is the end of an execution.

`Tree.Sound` says that the tree was explored with sleep sets: no operation is tried where it is
asleep or has been tried.  `Tree.Finished` says that behind every operation that was tried all
requests were answered (`Tree.Settled`): whatever races with an operation has been tried in its
place, or all that could be. -/

namespace Interleave

/-- The operations tried at a scheduling point, in order, each with what was explored behind it. -/
inductive Tree where
  | tip
  | branch (op : Candidate) (sub rest : Tree)

namespace Tree

/-- The operations tried at the root. -/
def firsts : Tree → List Candidate
  | tip => []
  | branch c _ rest => c :: rest.firsts

/-- Add one more operation at the root, behind all others. -/
def snoc : Tree → Candidate → Tree → Tree
  | tip, c, sub => branch c sub tip
  | branch d s rest, c, sub => branch d s (rest.snoc c sub)

/-- Where nothing was tried, the execution itself ends. -/
def orEnd (runs : List (List Candidate)) : List (List Candidate) := if runs = [] then [[]] else runs

/-- The executions that go through an operation of the root, in the order of exploration. -/
def runs : Tree → List (List Candidate)
  | tip => []
  | branch c sub rest => (orEnd sub.runs).map (c :: ·) ++ rest.runs

/-- The executions explored from the root. -/
def leaves (t : Tree) : List (List Candidate) := orEnd t.runs

theorem orEnd_ne_nil (l : List (List Candidate)) : orEnd l ≠ [] := by
  unfold orEnd
  split <;> simp_all

theorem runs_eq_nil {t : Tree} : t.runs = [] ↔ t = tip := by
  cases t with
  | tip => simp [runs]
  | branch c sub rest => simp [runs, orEnd_ne_nil]

theorem leaves_tip : leaves tip = [[]] := rfl

theorem leaves_of_ne_tip {t : Tree} (h : t ≠ tip) : t.leaves = t.runs := by
  simp [leaves, orEnd, runs_eq_nil, h]

theorem mem_leaves {t : Tree} {w : List Candidate} :
    w ∈ t.leaves ↔ t = tip ∧ w = [] ∨ w ∈ t.runs := by
  by_cases h : t = tip
  · simp [h, leaves_tip, runs]
  · simp [h, leaves_of_ne_tip h]

theorem runs_branch (c : Candidate) (sub rest : Tree) :
    (branch c sub rest).runs = sub.leaves.map (c :: ·) ++ rest.runs := rfl

theorem snoc_ne_tip (t : Tree) (c : Candidate) (sub : Tree) : t.snoc c sub ≠ tip := by
  cases t <;> simp [snoc]

@[simp] theorem firsts_snoc (t : Tree) (c : Candidate) (sub : Tree) :
    (t.snoc c sub).firsts = t.firsts ++ [c] := by
  induction t with
  | tip => rfl
  | branch d s rest _ ih => simp [snoc, firsts, ih]

theorem runs_snoc (t : Tree) (c : Candidate) (sub : Tree) :
    (t.snoc c sub).runs = t.runs ++ sub.leaves.map (c :: ·) := by
  induction t with
  | tip => simp [snoc, runs, leaves]
  | branch d s rest _ ih => simp [snoc, runs_branch, ih]

/-! ### Sleep sets in the tree -/

/-- The sleep set behind operation `c`: what is asleep or was tried stays asleep, unless `c` is
dependent with it. -/
def sleepBeyond (cs sleep : List Candidate) (done : List Proc) (c : Candidate) : List Candidate :=
  (sleep ++ cs.filter fun d => d.proc != c.proc && decide (d.proc ∈ done)).filter
    fun d => !d.dependent c

theorem mem_sleepBeyond {cs sleep : List Candidate} {done : List Proc} {c d : Candidate} :
    d ∈ sleepBeyond cs sleep done c ↔
      (d ∈ sleep ∨ d ∈ cs ∧ d.proc ∈ done) ∧ d.dependent c = false := by
  simp only [sleepBeyond, List.mem_filter, List.mem_append, Bool.and_eq_true, bne_iff_ne,
    decide_eq_true_eq, Bool.not_eq_true']
  constructor
  · rintro ⟨h | ⟨h, -, h'⟩, hi⟩
    · exact ⟨.inl h, hi⟩
    · exact ⟨.inr ⟨h, h'⟩, hi⟩
  · rintro ⟨h | ⟨h, h'⟩, hi⟩
    · exact ⟨.inl h, hi⟩
    · exact ⟨.inr ⟨h, Candidate.proc_ne_of_indep hi, h'⟩, hi⟩

theorem sleepAfter_eq {b : Branch} {c : Candidate} (hc : b.candidate? b.chosen = some c)
    {done : List Proc} (hd : ∀ p, p ∈ b.done ↔ p ∈ done) :
    b.sleepAfter = sleepBeyond b.candidates b.sleep done c := by
  unfold Branch.sleepAfter
  rw [hc]
  simp only [sleepBeyond, (Branch.mem_of_candidate? hc).2, hd]

/-- The tree below `ops`, where the processes of `done` were tried before those of its root. -/
def Sound (offers : Offers) : List Candidate → List Candidate → List Proc → Tree → Prop
  | _, _, _, tip => True
  | ops, sleep, done, branch c sub rest =>
    c ∈ offers (procs ops) ∧ ¬ c.proc ∈ procs sleep ∧ ¬ c.proc ∈ done ∧
      Sound offers (ops ++ [c]) (sleepBeyond (offers (procs ops)) sleep done c) [] sub ∧
      Sound offers ops sleep (done ++ [c.proc]) rest

theorem sound_snoc {offers : Offers} {ops sleep : List Candidate} {done : List Proc} {t sub : Tree}
    {c : Candidate} (ht : Sound offers ops sleep done t) (hc : c ∈ offers (procs ops))
    (hs : ¬ c.proc ∈ procs sleep) (hd : ¬ c.proc ∈ done ++ procs t.firsts)
    (hsub : Sound offers (ops ++ [c])
      (sleepBeyond (offers (procs ops)) sleep (done ++ procs t.firsts) c) [] sub) :
    Sound offers ops sleep done (t.snoc c sub) := by
  induction t generalizing done with
  | tip =>
      simp only [firsts, procs, List.map_nil, List.append_nil] at hd hsub
      exact ⟨hc, hs, hd, hsub, trivial⟩
  | branch d s rest _ ih =>
      obtain ⟨hd₁, hd₂, hd₃, hd₄, hrest⟩ := ht
      have e : done ++ [d.proc] ++ procs rest.firsts = done ++ procs (branch d s rest).firsts := by
        simp [firsts, procs]
      exact ⟨hd₁, hd₂, hd₃, hd₄, ih hrest (e ▸ hd) (e ▸ hsub)⟩

/-! ### Requests in the tree -/

section Requests

variable (offers : Offers) (maxDepth : Option Nat) (failing : List Candidate → Prop)

/-- Every awake process was tried at the root. -/
def TriedAll (ops sleep : List Candidate) (t : Tree) : Prop :=
  ∀ c ∈ offers (procs ops), ¬ c.proc ∈ procs sleep → c.proc ∈ procs t.firsts

/-- Below `ops` every request for the root was answered, and executions end only where they have
to. -/
structure Settled (ops sleep : List Candidate) (t : Tree) : Prop where
  ended : t = tip → Reduction.Ended offers maxDepth ops sleep
  races : ∀ w ∈ t.runs, ∀ u d, u ++ [d] <+: w →
    ops.length ∈ (History.ofOps (ops ++ u)).racing d →
    d.proc ∈ procs t.firsts ∨ TriedAll offers ops sleep t
  failed : ∀ w ∈ t.runs, failing (ops ++ w) → TriedAll offers ops sleep t

/-- Everything behind the operations of the root is settled. -/
def Finished : List Candidate → List Candidate → List Proc → Tree → Prop
  | _, _, _, tip => True
  | ops, sleep, done, branch c sub rest =>
    Settled offers maxDepth failing (ops ++ [c])
        (sleepBeyond (offers (procs ops)) sleep done c) sub ∧
      Finished (ops ++ [c]) (sleepBeyond (offers (procs ops)) sleep done c) [] sub ∧
      Finished ops sleep (done ++ [c.proc]) rest

variable {offers maxDepth failing}

theorem finished_snoc {ops sleep : List Candidate} {done : List Proc} {t sub : Tree} {c : Candidate}
    (ht : Finished offers maxDepth failing ops sleep done t)
    (hset : Settled offers maxDepth failing (ops ++ [c])
      (sleepBeyond (offers (procs ops)) sleep (done ++ procs t.firsts) c) sub)
    (hsub : Finished offers maxDepth failing (ops ++ [c])
      (sleepBeyond (offers (procs ops)) sleep (done ++ procs t.firsts) c) [] sub) :
    Finished offers maxDepth failing ops sleep done (t.snoc c sub) := by
  induction t generalizing done with
  | tip =>
      simp only [firsts, procs, List.map_nil, List.append_nil] at hset hsub
      exact ⟨hset, hsub, trivial⟩
  | branch d s rest _ ih =>
      obtain ⟨hd₁, hd₂, hrest⟩ := ht
      have e : done ++ [d.proc] ++ procs rest.firsts = done ++ procs (branch d s rest).firsts := by
        simp [firsts, procs]
      exact ⟨hd₁, hd₂, ih hrest (e ▸ hset) (e ▸ hsub)⟩

end Requests

end Tree

end Interleave
