import Interleave.Proofs.HappensBefore
import Interleave.Proofs.Search.Branch
import Mathlib.Data.List.Forall2

/-! # One execution under the reduction

An engine is seen through what it offers after the processes of a list have taken their steps: a
list of candidates, and none once it has stopped.  `Reduction.Executes` is an execution of such an
engine under the reduction.

`Follows` says that the branches of a path belong to the engine: each holds what is offered there
and the sleep set that the branch above leaves behind.  An execution follows the path it finds,
prolongs it by branches where nothing has been tried, and lets branches grow only
(`Reduction.Executes.executed`): at its end every race of an operation has been requested at the
branch of the earlier operation, and the engine offers nothing that is awake. -/

namespace Interleave

/-- What an engine offers after the processes of a list have taken their steps. -/
abbrev Offers := List Proc → List Candidate

/-- The processes of a list of operations. -/
abbrev procs (ops : List Candidate) : List Proc := ops.map Candidate.proc

/-- Every operation was offered when it was performed. -/
def IsRun (offers : Offers) (ops : List Candidate) : Prop :=
  ∀ u c v, ops = u ++ c :: v → c ∈ offers (procs u)

namespace IsRun

variable {offers : Offers} {u v : List Candidate} {c : Candidate}

theorem nil : IsRun offers [] := by
  intro u c v h
  simp at h

theorem left (h : IsRun offers (u ++ v)) : IsRun offers u := by
  rintro x c y rfl
  exact h x c (y ++ v) (by simp)

theorem offered (h : IsRun offers (u ++ c :: v)) : c ∈ offers (procs u) := h u c v rfl

theorem concat (h : IsRun offers u) (hc : c ∈ offers (procs u)) : IsRun offers (u ++ [c]) := by
  intro x d y hx
  cases y using List.reverseRecOn with
  | nil =>
      obtain ⟨rfl, rfl⟩ := List.concat_inj.mp (by simpa using hx)
      exact hc
  | append_singleton y e =>
      have he : u ++ [c] = (x ++ d :: y) ++ [e] := by simpa using hx
      obtain ⟨rfl, -⟩ := List.append_inj' he rfl
      exact h.offered

end IsRun

/-! ### Requests along a path -/

/-- Every branch of a path only grows. -/
abbrev AllGrow (bs bs' : List Branch) : Prop := List.Forall₂ Branch.Grows bs bs'

namespace AllGrow

theorem refl (bs : List Branch) : AllGrow bs bs := List.forall₂_same.mpr fun b _ => .refl b

theorem trans {bs bs' bs'' : List Branch} (h : AllGrow bs bs') (h' : AllGrow bs' bs'') :
    AllGrow bs bs'' := by
  induction h generalizing bs'' with
  | nil => exact h'
  | cons hb _ ih =>
      obtain ⟨b'', tl, hb', htl, rfl⟩ := List.forall₂_cons_left_iff.mp h'
      exact .cons (hb.trans hb') (ih htl)

theorem getElem? {bs bs' : List Branch} (h : AllGrow bs bs') {i : Nat} {b' : Branch}
    (hi : bs'[i]? = some b') : ∃ b, bs[i]? = some b ∧ b.Grows b' := by
  induction h generalizing i with
  | nil => simp at hi
  | cons hb _ ih =>
      cases i with
      | zero => exact ⟨_, rfl, by simp_all⟩
      | succ i => exact ih hi

theorem append_left {bs new bs' : List Branch} (h : AllGrow (bs ++ new) bs') :
    ∃ bs₁ new₁, AllGrow bs bs₁ ∧ AllGrow new new₁ ∧ bs' = bs₁ ++ new₁ := by
  have htake := List.forall₂_take bs.length h
  have hdrop := List.forall₂_drop bs.length h
  rw [List.take_left] at htake
  rw [List.drop_left] at hdrop
  exact ⟨_, _, htake, hdrop, (List.take_append_drop _ _).symm⟩

theorem done_eq_empty {bs bs' : List Branch} (h : AllGrow bs bs')
    (hbs : ∀ b ∈ bs, b.done = .empty) : ∀ b ∈ bs', b.done = .empty := by
  intro b hb
  obtain ⟨i, hi⟩ := List.mem_iff_getElem?.mp hb
  obtain ⟨b', hb', hg⟩ := h.getElem? hi
  rw [hg.done]
  exact hbs b' (List.mem_of_getElem? hb')

theorem modify {f : Branch → Branch} (hf : ∀ b : Branch, b.Grows (f b)) (bs : List Branch) (i : Nat) :
    AllGrow bs (bs.modify i f) := by
  induction bs generalizing i with
  | nil => simp
  | cons b bs ih =>
      cases i with
      | zero => exact .cons (hf b) (AllGrow.refl bs)
      | succ i => exact .cons (.refl b) (ih i)

theorem foldl_modify {f : Branch → Branch} (hf : ∀ b : Branch, b.Grows (f b)) (is : List Nat)
    (bs : List Branch) : AllGrow bs (is.foldl (fun bs i => bs.modify i f) bs) := by
  induction is generalizing bs with
  | nil => exact AllGrow.refl bs
  | cons i is ih => exact (modify hf bs i).trans (ih _)

/-- What `f` establishes and growth keeps holds of every branch that `f` was applied to. -/
theorem of_foldl_modify {f : Branch → Branch} (hf : ∀ b : Branch, b.Grows (f b)) {P : Branch → Prop}
    (hP : ∀ b b', b.Grows b' → P b → P b') (hfP : ∀ b, P (f b)) {is : List Nat} {i : Nat}
    (hi : i ∈ is) (bs : List Branch) {b : Branch}
    (hb : (is.foldl (fun bs i => bs.modify i f) bs)[i]? = some b) : P b := by
  induction is generalizing bs with
  | nil => simp at hi
  | cons j is ih =>
      rw [List.foldl_cons] at hb
      by_cases hmem : i ∈ is
      · exact ih hmem _ hb
      · obtain rfl : i = j := by simpa [hmem] using hi
        obtain ⟨b', hb', hg⟩ := (foldl_modify hf is (bs.modify i f)).getElem? hb
        rw [List.getElem?_modify_eq, Option.map_eq_map, Option.map_eq_some_iff] at hb'
        obtain ⟨b₀, -, rfl⟩ := hb'
        exact hP _ _ hg (hfP b₀)

end AllGrow

theorem Path.foldl_request (is : List Nat) (q : Proc) (p : Path) :
    is.foldl (fun path i => path.request i q) p =
      { p with branches := is.foldl (fun bs i => bs.modify i (·.request q)) p.branches } := by
  induction is generalizing p with
  | nil => rfl
  | cons i is ih => rw [List.foldl_cons, ih]; rfl

theorem Path.foldl_requestAll (is : List Nat) (p : Path) :
    is.foldl Path.requestAll p =
      { p with branches := is.foldl (fun bs i => bs.modify i Branch.requestAll) p.branches } := by
  induction is generalizing p with
  | nil => rfl
  | cons i is ih => rw [List.foldl_cons, ih]; rfl

namespace Reduction

theorem allGrow_requestRaces (r : Reduction) (c : Candidate) :
    AllGrow r.path.branches (r.requestRaces c).branches := by
  rw [requestRaces, Path.foldl_request]
  exact AllGrow.foldl_modify (fun b => b.grows_request c.proc) _ _

theorem position_requestRaces (r : Reduction) (c : Candidate) :
    (r.requestRaces c).position = r.path.position := by
  rw [requestRaces, Path.foldl_request]

theorem answers_requestRaces {r : Reduction} {c : Candidate} {i : Nat}
    (hi : i ∈ r.history.racing c) {b : Branch} (hb : (r.requestRaces c).branches[i]? = some b) :
    b.Answers c.proc := by
  rw [requestRaces, Path.foldl_request] at hb
  exact AllGrow.of_foldl_modify (fun b => b.grows_request c.proc) (fun _ _ hg => hg.answers)
    (fun b => b.answers_request c.proc) hi _ hb

theorem allGrow_executionFailed (r : Reduction) :
    AllGrow r.path.branches r.executionFailed.path.branches := by
  rw [executionFailed, Path.foldl_requestAll]
  exact AllGrow.foldl_modify Branch.grows_requestAll _ _

theorem takesAll_executionFailed {r : Reduction} {i : Nat} (hi : i < r.path.position) {b : Branch}
    (hb : r.executionFailed.path.branches[i]? = some b) : b.TakesAll := by
  rw [executionFailed, Path.foldl_requestAll] at hb
  exact AllGrow.of_foldl_modify Branch.grows_requestAll (fun _ _ hg => hg.takesAll)
    Branch.takesAll_requestAll (List.mem_range.mpr hi) _ hb

end Reduction

theorem History.lt_of_mem_racing {h : History} {c : Candidate} {i : Nat} (hi : i ∈ h.racing c) :
    i < h.length := by
  simp only [History.racing, List.mem_filterMap, Prod.exists, Option.ite_none_right_eq_some] at hi
  obtain ⟨e, j, hmem, -, hj⟩ := hi
  obtain rfl : j = i := by simpa using hj
  have := List.mem_zipIdx hmem
  omega

/-! ### Paths of an engine -/

/-- The branch stands where the engine has performed `ops` and the candidates of `sleep` are
asleep. -/
structure Branch.At (offers : Offers) (ops sleep : List Candidate) (b : Branch) : Prop where
  candidates : b.candidates = offers (procs ops)
  sleep : b.sleep = sleep
  wellFormed : b.WellFormed

/-- The branches lead the engine from `ops` through the operations of a list. -/
inductive Follows (offers : Offers) :
    List Candidate → List Candidate → List Branch → List Candidate → Prop where
  | nil (ops sleep : List Candidate) : Follows offers ops sleep [] []
  | cons {ops sleep w : List Candidate} {b : Branch} {bs : List Branch} {c : Candidate}
      (here : b.At offers ops sleep) (op : b.candidate? b.chosen = some c)
      (rest : Follows offers (ops ++ [c]) b.sleepAfter bs w) :
      Follows offers ops sleep (b :: bs) (c :: w)

/-- The sleep set behind the last of the branches. -/
def sleepBehind (sleep : List Candidate) : List Branch → List Candidate
  | [] => sleep
  | b :: bs => sleepBehind b.sleepAfter bs

theorem sleepBehind_concat (sleep : List Candidate) (bs : List Branch) (b : Branch) :
    sleepBehind sleep (bs ++ [b]) = b.sleepAfter := by
  induction bs generalizing sleep with
  | nil => rfl
  | cons b' bs ih => exact ih _

theorem AllGrow.sleepBehind_eq {bs bs' : List Branch} (h : AllGrow bs bs')
    (sleep : List Candidate) : sleepBehind sleep bs' = sleepBehind sleep bs := by
  induction h generalizing sleep with
  | nil => rfl
  | cons hb _ ih => simp only [sleepBehind, ih, hb.sleepAfter]

theorem Path.nextSleep?_end (bs : List Branch) :
    Path.nextSleep? ⟨bs, bs.length⟩ = some (sleepBehind [] bs) := by
  induction bs using List.reverseRecOn with
  | nil => rfl
  | append_singleton bs b _ => simp [Path.nextSleep?, sleepBehind_concat]

namespace Follows

variable {offers : Offers} {ops sleep w : List Candidate} {bs bs' : List Branch}

theorem length_eq (h : Follows offers ops sleep bs w) : w.length = bs.length := by
  induction h with
  | nil => rfl
  | cons _ _ _ ih => simp [ih]

theorem grows (h : Follows offers ops sleep bs w) (hg : AllGrow bs bs') :
    Follows offers ops sleep bs' w := by
  induction h generalizing bs' with
  | nil => cases hg; exact .nil ..
  | cons here op _ ih =>
      obtain ⟨b', tl, hb, htl, rfl⟩ := List.forall₂_cons_left_iff.mp hg
      refine .cons ⟨hb.candidates.trans here.candidates, hb.sleep.trans here.sleep,
        hb.wellFormed here.wellFormed⟩ (hb.candidate?.trans op) ?_
      rw [hb.sleepAfter]
      exact ih htl

theorem concat (h : Follows offers ops sleep bs w) {b : Branch} {c : Candidate}
    (here : b.At offers (ops ++ w) (sleepBehind sleep bs)) (op : b.candidate? b.chosen = some c) :
    Follows offers ops sleep (bs ++ [b]) (w ++ [c]) := by
  induction h with
  | nil =>
      rw [List.append_nil] at here
      exact .cons here op (.nil ..)
  | cons here' op' _ ih =>
      refine .cons here' op' (ih ?_)
      rw [List.append_assoc]
      exact here

/-- Each of the branches stands where the engine is, and chooses the operation there. -/
theorem getElem? (h : Follows offers ops sleep bs w) {i : Nat} {b : Branch}
    (hi : bs[i]? = some b) :
    ∃ c sleep', w[i]? = some c ∧ b.At offers (ops ++ w.take i) sleep' ∧
      b.candidate? b.chosen = some c := by
  induction h generalizing i with
  | nil => simp at hi
  | @cons ops sleep w b' bs c here op _ ih =>
      cases i with
      | zero =>
          obtain rfl : b' = b := by simpa using hi
          exact ⟨c, sleep, rfl, by simpa using here, op⟩
      | succ i =>
          obtain ⟨d, sleep', hd, hat, hop⟩ := ih hi
          exact ⟨d, sleep', hd, by simpa using hat, hop⟩

theorem map_chosen (h : Follows offers ops sleep bs w) : bs.map Branch.chosen = procs w := by
  induction h with
  | nil => rfl
  | cons _ op _ ih => simp [procs, (Branch.mem_of_candidate? op).2, ih]

end Follows

/-! ### Decisions -/

theorem Proc.least?_eq_none {ps : List Proc} (h : Proc.least? ps = none) : ps = [] := by
  cases ps with
  | nil => rfl
  | cons p ps =>
      simp only [Proc.least?] at h
      split at h
      · simp at h
      · split at h <;> simp at h

theorem Proc.mem_of_least? {ps : List Proc} {p : Proc} (h : Proc.least? ps = some p) : p ∈ ps := by
  induction ps generalizing p with
  | nil => simp [Proc.least?] at h
  | cons q ps ih =>
      simp only [Proc.least?] at h
      split at h
      · simp_all
      next r hr =>
        split at h
        · obtain rfl : r = p := by simpa using h
          exact List.mem_cons_of_mem _ (ih hr)
        · simp_all

namespace Reduction

theorem mem_of_pick {h : History} {awake : List Proc} {p : Proc} (hp : pick h awake = some p) :
    p ∈ awake := by
  unfold pick at hp
  split at hp
  next t _ =>
    split at hp
    next hc =>
      obtain rfl : Proc.thread t = p := by simpa using hp
      simpa using hc
    next => exact Proc.mem_of_least? hp
  next => exact Proc.mem_of_least? hp

theorem awake_eq_nil_of_pick {h : History} {awake : List Proc} (hp : pick h awake = none) :
    awake = [] := by
  unfold pick at hp
  split at hp
  · split at hp
    · simp at hp
    · exact Proc.least?_eq_none hp
  · exact Proc.least?_eq_none hp

/-- Where the execution has been before, the recorded choice is made again. -/
theorem choose_replay {r : Reduction} {cs : List Candidate} {b : Branch}
    (hb : r.path.branches[r.path.position]? = some b) (hc : b.chosen ∈ procs cs) :
    r.choose cs = (.run b.chosen, r) := by
  have hany : (cs.any fun c => c.proc == b.chosen) = true := by simpa using hc
  simp [choose, Path.replay?, hb, hany]

/-- The processes of `cs` that are not asleep. -/
def awake (cs sleep : List Candidate) : List Proc :=
  (procs cs).filter fun p => !sleep.any fun c => c.proc == p

theorem mem_awake {cs sleep : List Candidate} {p : Proc} :
    p ∈ awake cs sleep ↔ p ∈ procs cs ∧ ¬ p ∈ procs sleep := by
  simp [awake]

/-- At the end of the path a process that is awake is picked, on a new branch. -/
theorem choose_end {r : Reduction} (cs : List Candidate)
    (hend : r.path.position = r.path.branches.length) :
    r.choose cs =
      match pick r.history (awake cs (sleepBehind [] r.path.branches)) with
      | none => (.stop, { r with blocked := true })
      | some p =>
        (.run p, { r with path.branches :=
          r.path.branches ++ [.start cs (sleepBehind [] r.path.branches) p] }) := by
  have hsleep : r.path.nextSleep? = some (sleepBehind [] r.path.branches) := by
    rw [← Path.nextSleep?_end, ← hend]
  have hreplay : r.path.replay? = none := by simp [Path.replay?, hend]
  unfold choose
  rw [hreplay, hsleep]
  simp only [Path.push?, hend, if_true]
  rfl

theorem schedule_nil (r : Reduction) : r.schedule [] = (.stop, r) := by simp [schedule]

theorem mem_of_schedule_run {r r' : Reduction} {cs : List Candidate} {p : Proc}
    (h : r.schedule cs = (.run p, r')) : p ∈ procs cs := by
  unfold schedule at h
  split at h
  · simp at h
  · split at h
    · simp at h
    · split at h
      next q r₁ _ =>
        split at h
        next c hc =>
          obtain ⟨rfl, -⟩ : q = p ∧ _ := by simpa using h
          exact List.mem_map.mpr ⟨c, List.mem_of_find?_eq_some hc, by simpa using List.find?_some hc⟩
        next => simp at h
      next d r₁ hd _ =>
        obtain ⟨rfl, -⟩ := Prod.mk.inj h
        exact absurd rfl (hd p)

theorem schedule_of_choose_run {r r' : Reduction} {cs : List Candidate} {c : Candidate} {p : Proc}
    (hph : r.phase = .exploring) (hb : r.atBound = false) (hch : r.choose cs = (.run p, r'))
    (hc : (cs.find? fun c => c.proc == p) = some c) :
    r.schedule cs = (.run p, r'.perform c) := by
  have hne : cs ≠ [] := by rintro rfl; simp at hc
  simp [schedule, hph, hb, hch, hc, hne]

/-! ### The state in the midst of an execution -/

/-- An execution that started on the branches `old` has performed `ops`. -/
structure Midway (offers : Offers) (maxDepth : Option Nat) (old : List Branch)
    (ops : List Candidate) (r : Reduction) : Prop where
  exploring : r.phase = .exploring
  unmarked : r.blocked = false ∧ r.bounded = false
  maxDepth_eq : r.maxDepth = maxDepth
  within : ∀ n, maxDepth = some n → r.path.branches.length ≤ n
  history : r.history = History.ofOps ops
  position : r.path.position = ops.length
  /-- Behind the old branches there are only new ones, where nothing has been tried. -/
  branches : ∃ bs new, r.path.branches = bs ++ new ∧ AllGrow old bs ∧ ∀ b ∈ new, b.done = .empty
  follows : ∃ w, Follows offers [] [] r.path.branches w ∧ ops <+: w
  answered : ∀ i j b d, r.path.branches[i]? = some b → ops[j]? = some d →
    i ∈ (History.ofOps (ops.take j)).racing d → b.Answers d.proc

namespace Midway

variable {offers : Offers} {maxDepth : Option Nat} {old : List Branch} {ops : List Candidate}
  {r : Reduction}

theorem position_le (h : Midway offers maxDepth old ops r) :
    ops.length ≤ r.path.branches.length := by
  obtain ⟨w, hw, hpre⟩ := h.follows
  rw [← hw.length_eq]
  exact hpre.length_le

theorem perform (h : Midway offers maxDepth old ops r) {w : List Candidate} {c : Candidate}
    (hw : Follows offers [] [] r.path.branches w) (hpre : ops ++ [c] <+: w) :
    Midway offers maxDepth old (ops ++ [c]) (r.perform c) := by
  have hgrow := r.allGrow_requestRaces c
  refine ⟨h.exploring, h.unmarked, h.maxDepth_eq, fun n hn => ?_, ?_, ?_, ?_, ?_, ?_⟩
  · simpa [Reduction.perform, Path.forward, ← hgrow.length_eq] using h.within n hn
  · simp [Reduction.perform, h.history, History.ofOps_concat]
  · simp [Reduction.perform, Path.forward, position_requestRaces, h.position]
  · obtain ⟨bs, new, hbs, hold, hnew⟩ := h.branches
    rw [hbs] at hgrow
    obtain ⟨bs', new', hbs', hnew', heq⟩ := hgrow.append_left
    exact ⟨bs', new', heq, hold.trans hbs', hnew'.done_eq_empty hnew⟩
  · exact ⟨w, hw.grows hgrow, hpre⟩
  · intro i j b d hb hd hi
    obtain ⟨b', hb', hg⟩ := hgrow.getElem? hb
    by_cases hj : j < ops.length
    · rw [List.getElem?_append_left hj] at hd
      rw [List.take_append_of_le_length hj.le] at hi
      exact hg.answers (h.answered i j b' d hb' hd hi)
    · obtain rfl : j = ops.length := by
        have := (List.getElem?_eq_some_iff.mp hd).1
        rw [List.length_append, List.length_singleton] at this
        omega
      obtain rfl : c = d := by simpa using hd
      rw [List.take_left' rfl, ← h.history] at hi
      exact answers_requestRaces hi hb

theorem push (h : Midway offers maxDepth old ops r) {w : List Candidate}
    (hw : Follows offers [] [] r.path.branches w) (hend : ops = w) (hbound : r.atBound = false)
    {p : Proc} (hp : p ∈ awake (offers (procs ops)) (sleepBehind [] r.path.branches)) :
    Midway offers maxDepth old ops { r with path.branches := r.path.branches ++
      [.start (offers (procs ops)) (sleepBehind [] r.path.branches) p] } := by
  obtain ⟨hp, hs⟩ := mem_awake.mp hp
  have hwf := Branch.wellFormed_start hp hs
  obtain ⟨c, hc⟩ := Option.isSome_iff_exists.mp hwf.chosen_awake.1
  refine ⟨h.exploring, h.unmarked, h.maxDepth_eq, fun n hn => ?_, h.history, h.position, ?_, ?_, ?_⟩
  · have : r.path.position < n := by simpa [atBound, h.maxDepth_eq, hn] using hbound
    have hlen := hw.length_eq
    rw [← hend, ← h.position] at hlen
    simp only [List.length_append, List.length_singleton]
    omega
  · obtain ⟨bs, new, hbs, hold, hnew⟩ := h.branches
    refine ⟨bs, _, by rw [hbs, List.append_assoc], hold, fun b hb => ?_⟩
    rcases List.mem_append.mp hb with hb | hb
    · exact hnew b hb
    · rw [List.mem_singleton.mp hb]; rfl
  · refine ⟨w ++ [c], hw.concat ⟨by rw [hend]; rfl, rfl, hwf⟩ hc, ?_⟩
    rw [hend]
    exact List.prefix_append w [c]
  · intro i j b d hb hd hi
    have hj := (List.getElem?_eq_some_iff.mp hd).1
    have hlt := History.lt_of_mem_racing hi
    rw [History.length_ofOps, List.length_take] at hlt
    have hle := h.position_le
    rw [List.getElem?_append_left (by omega)] at hb
    exact h.answered i j b d hb hd hi

end Midway

/-- Nothing that is awake is offered, or the depth bound is reached. -/
def Ended (offers : Offers) (maxDepth : Option Nat) (ops sleep : List Candidate) : Prop :=
  (∀ c ∈ offers (procs ops), c.proc ∈ procs sleep) ∨ ∃ n, maxDepth = some n ∧ n ≤ ops.length

/-- An execution that started on the branches `old` has ended after `ops`. -/
structure Executed (offers : Offers) (maxDepth : Option Nat) (old : List Branch)
    (ops : List Candidate) (r : Reduction) : Prop where
  exploring : r.phase = .exploring
  maxDepth_eq : r.maxDepth = maxDepth
  within : ∀ n, maxDepth = some n → r.path.branches.length ≤ n
  history : r.history = History.ofOps ops
  position : r.path.position = ops.length
  branches : ∃ bs new, r.path.branches = bs ++ new ∧ AllGrow old bs ∧ ∀ b ∈ new, b.done = .empty
  follows : Follows offers [] [] r.path.branches ops
  answered : ∀ i j b d, r.path.branches[i]? = some b → ops[j]? = some d →
    i ∈ (History.ofOps (ops.take j)).racing d → b.Answers d.proc
  ended : Ended offers maxDepth ops (sleepBehind [] r.path.branches)
  blocked : maxDepth = none → (r.blocked = true ↔ offers (procs ops) ≠ [])

namespace Midway

variable {offers : Offers} {maxDepth : Option Nat} {old : List Branch} {ops : List Candidate}
  {r : Reduction}

theorem executed (h : Midway offers maxDepth old ops r)
    (hw : Follows offers [] [] r.path.branches ops)
    (hended : Ended offers maxDepth ops (sleepBehind [] r.path.branches)) {blocked bounded : Bool}
    (hblocked : maxDepth = none → (blocked = true ↔ offers (procs ops) ≠ [])) :
    Executed offers maxDepth old ops { r with blocked, bounded } :=
  ⟨h.exploring, h.maxDepth_eq, h.within, h.history, h.position, h.branches, hw, h.answered,
    hended, hblocked⟩

/-- An execution that has been everywhere it goes is at the end of its path or on the way to it. -/
theorem follows_cases (h : Midway offers maxDepth old ops r) :
    Follows offers [] [] r.path.branches ops ∨
      ∃ w c b, Follows offers [] [] r.path.branches w ∧ ops ++ [c] <+: w ∧
        r.path.branches[ops.length]? = some b ∧ b.candidates = offers (procs ops) ∧
        b.candidate? b.chosen = some c := by
  obtain ⟨w, hw, v, rfl⟩ := h.follows
  cases v with
  | nil => exact .inl (by simpa using hw)
  | cons c v =>
      have hlt : ops.length < r.path.branches.length := by simp [← hw.length_eq]
      obtain ⟨b, hb⟩ : ∃ b, r.path.branches[ops.length]? = some b :=
        ⟨_, List.getElem?_eq_getElem hlt⟩
      obtain ⟨d, sleep', hd, hat, hop⟩ := hw.getElem? hb
      obtain rfl : c = d := by simpa using hd
      refine .inr ⟨_, c, b, hw, ⟨v, by simp⟩, hb, by simpa using hat.candidates, hop⟩

/-- Replaying: the operation of the branch at the current position is performed. -/
theorem schedule_replay (h : Midway offers maxDepth old ops r) (hbound : r.atBound = false)
    {w : List Candidate} {c : Candidate} {b : Branch}
    (hw : Follows offers [] [] r.path.branches w) (hpre : ops ++ [c] <+: w)
    (hb : r.path.branches[ops.length]? = some b) (hcs : b.candidates = offers (procs ops))
    (hop : b.candidate? b.chosen = some c) :
    r.schedule (offers (procs ops)) = (.run c.proc, r.perform c) ∧
      Midway offers maxDepth old (ops ++ [c]) (r.perform c) := by
  obtain ⟨hmem, hproc⟩ := Branch.mem_of_candidate? hop
  rw [← hcs, hproc]
  have hch : r.choose b.candidates = (.run b.chosen, r) :=
    choose_replay (h.position ▸ hb) (List.mem_map.mpr ⟨c, hmem, hproc⟩)
  exact ⟨schedule_of_choose_run h.exploring hbound hch hop, h.perform hw hpre⟩

/-- At the end of the path: a process that is awake runs on a new branch, or the execution ends. -/
theorem schedule_end (h : Midway offers maxDepth old ops r) (hbound : r.atBound = false)
    (hne : offers (procs ops) ≠ []) (hw : Follows offers [] [] r.path.branches ops) :
    (∃ c ∈ offers (procs ops), ∃ r', r.schedule (offers (procs ops)) = (.run c.proc, r') ∧
      Midway offers maxDepth old (ops ++ [c]) r') ∨
    ∃ r', r.schedule (offers (procs ops)) = (.stop, r') ∧
      Executed offers maxDepth old ops r' := by
  have hpos : r.path.position = r.path.branches.length := h.position.trans hw.length_eq
  have hch := choose_end (offers (procs ops)) hpos
  cases hpick : pick r.history (awake (offers (procs ops)) (sleepBehind [] r.path.branches)) with
  | none =>
      rw [hpick] at hch
      refine .inr ⟨{ r with blocked := true }, ?_,
        h.executed hw (.inl fun c hc => ?_) fun _ => ⟨fun _ => hne, fun _ => rfl⟩⟩
      · simp [Reduction.schedule, h.exploring, hne, hbound, hch]
      · by_contra hs
        have hmem := mem_awake.mpr ⟨List.mem_map_of_mem (f := Candidate.proc) hc, hs⟩
        simp [awake_eq_nil_of_pick hpick] at hmem
  | some p =>
      rw [hpick] at hch
      have hp := mem_of_pick hpick
      have hpush := h.push hw rfl hbound hp
      obtain ⟨w, hw', hpre⟩ := hpush.follows
      have hwf := Branch.wellFormed_start (mem_awake.mp hp).1 (mem_awake.mp hp).2
      obtain ⟨c, hc⟩ := Option.isSome_iff_exists.mp hwf.chosen_awake.1
      obtain ⟨hmem, hproc⟩ := Branch.mem_of_candidate? hc
      refine .inl ⟨c, hmem, _, ?_, hpush.perform
        (hw.concat ⟨rfl, rfl, hwf⟩ hc) (List.prefix_refl _)⟩
      rw [hproc]
      exact schedule_of_choose_run h.exploring hbound hch hc

/-- **A decision in the midst of an execution** goes on with an offered operation or ends the
execution at the end of its path. -/
theorem schedule (h : Midway offers maxDepth old ops r) :
    (∃ c ∈ offers (procs ops), ∃ r', r.schedule (offers (procs ops)) = (.run c.proc, r') ∧
      Midway offers maxDepth old (ops ++ [c]) r') ∨
    ∃ r', r.schedule (offers (procs ops)) = (.stop, r') ∧
      Executed offers maxDepth old ops r' := by
  by_cases hne : offers (procs ops) = []
  · refine .inr ⟨r, by simp [Reduction.schedule, hne], ?_⟩
    rcases h.follows_cases with hw | ⟨w, c, b, -, -, -, hcs, hop⟩
    · exact h.executed hw (.inl (by simp [hne])) (by simp [hne, h.unmarked.1])
    · have := (Branch.mem_of_candidate? hop).1
      simp [hcs, hne] at this
  by_cases hbound : r.atBound = true
  · obtain ⟨n, hn, hle⟩ : ∃ n, maxDepth = some n ∧ n ≤ ops.length := by
      unfold atBound at hbound
      split at hbound
      next n hn => exact ⟨n, h.maxDepth_eq ▸ hn, by simpa [h.position] using hbound⟩
      next => simp at hbound
    refine .inr ⟨{ r with bounded := true }, by simp [Reduction.schedule, h.exploring, hne, hbound], ?_⟩
    rcases h.follows_cases with hw | ⟨w, c, b, hw, hpre, -, -, -⟩
    · exact h.executed hw (.inr ⟨n, hn, hle⟩) (by simp [hn])
    · have hlen := hpre.length_le
      have := h.within n hn
      rw [hw.length_eq, List.length_append, List.length_singleton] at hlen
      omega
  · have hbound : r.atBound = false := by simpa using hbound
    rcases h.follows_cases with hw | ⟨w, c, b, hw, hpre, hb, hcs, hop⟩
    · exact h.schedule_end hbound hne hw
    · obtain ⟨hs, hmid⟩ := h.schedule_replay hbound hw hpre hb hcs hop
      exact .inl ⟨c, hcs ▸ (Branch.mem_of_candidate? hop).1, _, hs, hmid⟩

end Midway

/-! ### Whole executions -/

/-- An execution of an engine under the reduction, from where the processes `ps` have taken their
steps.  It goes on as long as the reduction chooses a process. -/
inductive Executes (offers : Offers) : List Proc → Reduction → List Proc → Reduction → Prop where
  | refused {ps : List Proc} {r r' : Reduction} {d : Decision}
      (hs : r.schedule (offers ps) = (d, r')) (hd : d.proc? = none) : Executes offers ps r ps r'
  | step {ps ps' : List Proc} {r r' r'' : Reduction} {p : Proc}
      (hs : r.schedule (offers ps) = (.run p, r')) (rest : Executes offers (ps ++ [p]) r' ps' r'') :
      Executes offers ps r ps' r''

/-- An execution goes from what holds midway to what holds at the end. -/
theorem Executes.executed {offers : Offers} {maxDepth : Option Nat} {old : List Branch}
    {ps ps' : List Proc} {r r' : Reduction} (h : Executes offers ps r ps' r')
    {ops : List Candidate} (hps : procs ops = ps) (hmid : Midway offers maxDepth old ops r) :
    ∃ ops', procs ops' = ps' ∧ Executed offers maxDepth old ops' r' := by
  induction h generalizing ops with
  | refused hs hd =>
      subst hps
      rcases hmid.schedule with ⟨c, -, r₁, hs', -⟩ | ⟨r₁, hs', hex⟩
      · rw [hs] at hs'
        simp [(Prod.mk.inj hs').1, Decision.proc?] at hd
      · rw [hs] at hs'
        exact ⟨ops, rfl, (Prod.mk.inj hs').2 ▸ hex⟩
  | step hs _ ih =>
      subst hps
      rcases hmid.schedule with ⟨c, -, r₁, hs', hmid'⟩ | ⟨r₁, hs', -⟩
      · rw [hs, Prod.mk.injEq, Decision.run.injEq] at hs'
        obtain ⟨rfl, rfl⟩ := hs'
        exact ih (by simp [procs]) hmid'
      · rw [hs] at hs'
        simp at hs'

end Reduction

end Interleave
