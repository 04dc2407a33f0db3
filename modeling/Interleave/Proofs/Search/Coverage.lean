import Interleave.Proofs.Commuting
import Interleave.Proofs.Search.NoRepetition
import Mathlib.Order.WellFounded

/-! # Every run is covered by an explored one

Let a lawful system be explored to the end.  Then every run is equivalent to the beginning of an
explored execution, and every error is met by one (`System.Node.covers`,
`System.Node.covers_fault`).

The argument is an induction over the explored tree.  At a node, a run that starts with an operation
tried there, up to the order of independent steps, continues below that operation; so does a run
that is independent of an operation tried there.  In any other case every operation tried there is
followed in the run by a first one that depends on it, and the two race.  For the operation whose
process comes up first in the run, this race is seen below, so the process of the other operation
was tried at the node as well, although it comes up earlier: a contradiction. -/

namespace Interleave

namespace Tree

/-! ### Children of a node -/

/-- At the root the operation is tried, after the processes `done'`, and `sub` is explored behind
it; the processes of `done` were tried before those of the tree. -/
inductive Child : Tree → List Proc → Candidate → List Proc → Tree → Prop where
  | here {c : Candidate} {sub rest : Tree} {done : List Proc} :
      Child (branch c sub rest) done c done sub
  | there {c d : Candidate} {s sub rest : Tree} {done done' : List Proc}
      (h : Child rest (done ++ [c.proc]) d done' sub) : Child (branch c s rest) done d done' sub

namespace Child

variable {offers : Offers} {failing : List Candidate → Prop} {ops sleep : List Candidate}
  {t sub : Tree} {done done' : List Proc} {c : Candidate}

theorem sizeOf_lt (h : Child t done c done' sub) : sizeOf sub < sizeOf t := by
  induction h with
  | here => simp only [branch.sizeOf_spec]; omega
  | there _ ih => simp only [branch.sizeOf_spec]; omega

theorem sound (h : Child t done c done' sub) (ht : Sound offers ops sleep done t) :
    c ∈ offers (procs ops) ∧ ¬ c.proc ∈ procs sleep ∧
      Sound offers (ops ++ [c]) (sleepBeyond (offers (procs ops)) sleep done' c) [] sub := by
  induction h with
  | here => exact ⟨ht.1, ht.2.1, ht.2.2.2.1⟩
  | there _ ih => exact ih ht.2.2.2.2

theorem finished (h : Child t done c done' sub)
    (ht : Finished offers none failing ops sleep done t) :
    Settled offers none failing (ops ++ [c])
        (sleepBeyond (offers (procs ops)) sleep done' c) sub ∧
      Finished offers none failing (ops ++ [c])
        (sleepBeyond (offers (procs ops)) sleep done' c) [] sub := by
  induction h with
  | here => exact ⟨ht.1, ht.2.1⟩
  | there _ ih => exact ih ht.2.2

theorem mem_firsts (h : Child t done c done' sub) : c ∈ t.firsts := by
  induction h with
  | here => simp [firsts]
  | there _ ih => exact List.mem_cons_of_mem _ ih

theorem cons_mem_runs (h : Child t done c done' sub) {w : List Candidate} (hw : w ∈ sub.leaves) :
    c :: w ∈ t.runs := by
  induction h with
  | here => exact List.mem_append_left _ (List.mem_map_of_mem hw)
  | there _ ih => exact List.mem_append_right _ (ih hw)

theorem mem_done (h : Child t done c done' sub) {p : Proc} (hp : p ∈ done') :
    p ∈ done ∨ ∃ d ∈ t.firsts, d.proc = p := by
  induction h with
  | here => exact .inl hp
  | @there c d s sub rest done done' _ ih =>
      rcases ih hp with h | ⟨e, he, hep⟩
      · rcases List.mem_append.mp h with h | h
        · exact .inl h
        · exact .inr ⟨c, by simp [firsts], (List.mem_singleton.mp h).symm⟩
      · exact .inr ⟨e, List.mem_cons_of_mem _ he, hep⟩

end Child

theorem exists_child {t : Tree} {c : Candidate} (hc : c ∈ t.firsts) (done : List Proc) :
    ∃ done' sub, Child t done c done' sub := by
  induction t generalizing done with
  | tip => simp [firsts] at hc
  | branch d s rest _ ih =>
      rcases List.mem_cons.mp hc with rfl | hc
      · exact ⟨_, _, .here⟩
      · obtain ⟨done', sub, h⟩ := ih hc (done ++ [d.proc])
        exact ⟨done', sub, .there h⟩

/-- Of the operations at the root with a property, there is a first. -/
theorem exists_first_child {t : Tree} {P : Candidate → Prop} (h : ∃ c ∈ t.firsts, P c)
    (done : List Proc) :
    ∃ c done' sub, Child t done c done' sub ∧ P c ∧
      ∀ p ∈ done', p ∈ done ∨ ∃ d ∈ t.firsts, d.proc = p ∧ ¬ P d := by
  induction t generalizing done with
  | tip => simp [firsts] at h
  | branch e s rest _ ih =>
      by_cases he : P e
      · exact ⟨e, done, s, .here, he, fun p hp => .inl hp⟩
      · obtain ⟨c, hc, hPc⟩ := h
        have hc' : c ∈ rest.firsts := by
          rcases List.mem_cons.mp hc with rfl | hc
          · exact absurd hPc he
          · exact hc
        obtain ⟨c', done', sub, hchild, hPc', hdone⟩ := ih ⟨c, hc', hPc⟩ (done ++ [e.proc])
        refine ⟨c', done', sub, .there hchild, hPc', fun p hp => ?_⟩
        rcases hdone p hp with h | ⟨d, hd, hdp⟩
        · rcases List.mem_append.mp h with h | h
          · exact .inl h
          · exact .inr ⟨e, by simp [firsts], (List.mem_singleton.mp h).symm, he⟩
        · exact .inr ⟨d, List.mem_cons_of_mem _ hd, hdp⟩

theorem Sound.isRun {offers : Offers} {ops sleep : List Candidate} {done : List Proc} {t : Tree}
    (h : Sound offers ops sleep done t) (hops : IsRun offers ops) {w : List Candidate}
    (hw : w ∈ t.runs) : IsRun offers (ops ++ w) := by
  induction t generalizing ops sleep done w with
  | tip => simp [runs] at hw
  | branch c sub rest ihsub ihrest =>
      obtain ⟨hc, -, -, hsub, hrest⟩ := h
      rw [runs_branch, List.mem_append, List.mem_map] at hw
      rcases hw with ⟨w, hw, rfl⟩ | hw
      · have hops' := hops.concat hc
        rcases mem_leaves.mp hw with ⟨-, rfl⟩ | hw
        · exact hops'
        · simpa using ihsub hsub hops' hw
      · exact ihrest hrest hops hw

theorem Sound.isRun_leaves {offers : Offers} {ops sleep : List Candidate} {done : List Proc}
    {t : Tree} (h : Sound offers ops sleep done t) (hops : IsRun offers ops) {w : List Candidate}
    (hw : w ∈ t.leaves) : IsRun offers (ops ++ w) := by
  rcases mem_leaves.mp hw with ⟨-, rfl⟩ | hw
  · simpa using hops
  · exact h.isRun hops hw

end Tree

theorem History.mem_racing_ofOps {ops z : List Candidate} {p r : Candidate}
    (hrace : p.races r = true)
    (hb : Operated.happensBefore ⟨p, (History.ofOps ops).clockAt p⟩
      ((History.ofOps (ops ++ p :: z)).clockOf r.proc) = false) :
    ops.length ∈ (History.ofOps (ops ++ p :: z)).racing r := by
  obtain ⟨rest, hrest⟩ := History.ofOps_prefix (ops ++ [p]) z
  rw [History.ofOps_concat, History.record, List.append_assoc, List.append_assoc] at hrest
  simp only [History.racing, List.mem_filterMap, Prod.exists]
  refine ⟨⟨p, (History.ofOps ops).clockAt p⟩, ops.length, ?_, by simp [hrace, hb]⟩
  rw [List.mem_zipIdx_iff_getElem?]
  have e : ops ++ p :: z = ops ++ ([p] ++ z) := rfl
  simp [e, ← hrest]

open Interleave.Tree

namespace System

variable {ε : Type} {s : System ε} {failing : List Candidate → Prop}

/-! ### Races that are seen -/

theorem exists_split_of_lt_filter {f : Candidate → Bool} {z : List Candidate} {n : Nat}
    (h : n < (z.filter f).length) :
    ∃ z₁ d z₂, z = z₁ ++ d :: z₂ ∧ f d = true ∧ (z₁.filter f).length = n := by
  induction z generalizing n with
  | nil => simp at h
  | cons c z ih =>
      by_cases hc : f c = true
      · cases n with
        | zero => exact ⟨[], c, z, rfl, hc, rfl⟩
        | succ n =>
            rw [List.filter_cons_of_pos hc, List.length_cons] at h
            obtain ⟨z₁, d, z₂, rfl, hd, hn⟩ := ih (n := n) (by omega)
            exact ⟨c :: z₁, d, z₂, rfl, hd, by simp [hc, hn]⟩
      · rw [List.filter_cons_of_neg hc] at h
        obtain ⟨z₁, d, z₂, rfl, hd, hn⟩ := ih h
        exact ⟨c :: z₁, d, z₂, rfl, hd, by simp [hc, hn]⟩

/-- How many operations a run performs before the first of process `q`. -/
def arrival (q : Proc) (v : List Candidate) : Nat := (v.takeWhile fun c => c.proc != q).length

theorem arrival_le {q : Proc} {y : List Candidate} {r : Candidate} (v : List Candidate)
    (h : r.proc = q) : arrival q (y ++ r :: v) ≤ y.length := by
  induction y with
  | nil => simp [arrival, h]
  | cons c y ih =>
      simp only [arrival, List.cons_append, List.takeWhile_cons, List.length_cons] at ih ⊢
      split
      · simpa using ih
      · simp

theorem lt_arrival {p r : Candidate} {y : List Candidate} (v : List Candidate) (h : p.IndepOf y)
    (hne : p.proc ≠ r.proc) : y.length < arrival p.proc (y ++ r :: v) := by
  have hpos : ∀ c ∈ y ++ [r], (c.proc != p.proc) = true := by
    intro c hc
    rcases List.mem_append.mp hc with hc | hc
    · simpa using (Candidate.proc_ne_of_indep (h c hc)).symm
    · simpa [List.mem_singleton.mp hc] using hne.symm
  have e : y ++ r :: v = (y ++ [r]) ++ v := by simp
  rw [arrival, e, List.takeWhile_append_of_pos hpos]
  simp only [List.length_append, List.length_singleton]
  omega

theorem exists_dependent {c : Candidate} {v : List Candidate} (h : ¬ c.IndepOf v) :
    ∃ y r v₂, v = y ++ r :: v₂ ∧ c.IndepOf y ∧ c.dependent r = true := by
  induction v with
  | nil => exact absurd (Candidate.indepOf_nil c) h
  | cons d v ih =>
      by_cases hd : c.dependent d = true
      · exact ⟨[], d, v, rfl, Candidate.indepOf_nil c, hd⟩
      · rw [Bool.not_eq_true] at hd
        obtain ⟨y, r, v₂, rfl, hi, hr⟩ := ih fun hv => h (Candidate.indepOf_cons.mpr ⟨hd, hv⟩)
        exact ⟨d :: y, r, v₂, rfl, Candidate.indepOf_cons.mpr ⟨hd, hi⟩, hr⟩

namespace Lawful

variable {u v : List Candidate} {e r : Candidate}

theorem spawn_notMem (hs : s.Lawful) {t : Nat} (h : s.Live (u ++ e :: v)) (he : e.access = .spawn t) :
    ∀ d ∈ v, d.access ≠ .spawn t := by
  intro d hd hdt
  obtain ⟨a, b, rfl⟩ := List.append_of_mem hd
  have h₁ : u ++ e :: (a ++ d :: b) = (u ++ [e]) ++ a ++ ([d] ++ b) := by simp
  rw [h₁] at h
  have hd' := hs.live_left (u := u ++ [e] ++ a ++ [d]) (by simpa using h)
  have ha := hs.live_left hd'
  have he' := hs.live_left ha
  have hspawn := hs.spawns u e t (hs.live_left he') he'.run.offered he'.fault he
  have hspawn' := hs.spawns _ d t ha hd'.run.offered hd'.fault hdt
  have hmono := hs.threads_mono ha
  omega

theorem spawn_ne_owner (hs : s.Lawful) (h : s.Live (u ++ v)) (hr : r ∈ s.offers (procs u)) :
    ∀ d ∈ v, d.access ≠ .spawn r.proc.owner := by
  intro d hd hdt
  obtain ⟨a, b, rfl⟩ := List.append_of_mem hd
  have hd' := hs.live_left (u := u ++ a ++ [d]) (v := b) (by simpa using h)
  have ha := hs.live_left hd'
  have hspawn := hs.spawns _ d _ ha hd'.run.offered hd'.fault hdt
  have hmono := hs.threads_mono ha
  have howner := hs.owner_lt u r (hs.live_left ha) hr
  omega

theorem threadsEnqueue (hs : s.Lawful) (h : s.Live u) : History.ThreadsEnqueue u := by
  intro c hc henq
  obtain ⟨a, b, rfl⟩ := List.append_of_mem hc
  exact hs.enqueues a c (hs.live_left h) h.run.offered henq

theorem object_of_races {p r : Candidate} (h : p.races r = true) : r.access.object.isSome := by
  cases hobj : r.access.object with
  | none => simp [Candidate.races, Access.conflicts, hobj] at h
  | some a => rfl

/-- A process that is offered `r` behind a run still aims at it when something independent of the
run is performed first. -/
theorem aims_behind (hs : s.Lawful) {ops y : List Candidate} {p : Candidate}
    (hp : p ∈ s.offers (procs ops)) (hf : s.fault (ops ++ [p]) = none) (hy : s.Live (ops ++ y))
    (hi : p.IndepOf y) (hr : r ∈ s.offers (procs (ops ++ y))) (hdep : p.dependent r = true)
    (hne : p.proc ≠ r.proc) : s.aims (ops ++ [p] ++ y) r := by
  obtain ⟨hp', hf'⟩ := hs.offered_behind hy hp hi
  have hobj := object_of_races (hs.races _ p r hy hp' hr hne hdep)
  have haims := hs.aims_step _ p r hy hp' (hf'.trans hf) (hs.aims_of_offered _ r hy hr hobj) hne
  have := ((hs.live_cons hy hp hf hi).2 []).2.2 r
  simpa using this.mp (by simpa using haims)

theorem eq_of_aims (hs : s.Lawful) (ha : s.aims u r) (h : s.Live (u ++ v))
    (hhead : (v.filter fun c => c.proc == r.proc).head? = some e) : e = r := by
  obtain ⟨l, hl⟩ : ∃ l, (v.filter fun c => c.proc == r.proc) = e :: l := by
    cases hv : v.filter fun c => c.proc == r.proc with
    | nil => simp [hv] at hhead
    | cons a l => exact ⟨l, by simpa [hv] using hhead⟩
  obtain ⟨v₁, v₂, rfl, hnone, he, -⟩ := List.filter_eq_cons_iff.mp hl
  rw [← List.append_assoc] at h
  have hlive := hs.live_left h
  exact hs.aims_unique _ e r hlive h.run.offered
    (hs.aims_run hlive ha fun d hd => by simpa using hnone d hd) (by simpa using he)

/-- Let `p` be performed in front of a run `y` that is independent of it, and let `r`, which is
offered behind `y`, depend on `p`.  In an execution that begins with `p` and goes through `y`, the
race of `r` with `p` is seen as long as the process of `r` has gone no further than in `y`. -/
theorem race_seen (hs : s.Lawful) {ops y w z : List Candidate} {p : Candidate}
    (hp : p ∈ s.offers (procs ops)) (hy : s.Live (ops ++ y)) (hi : p.IndepOf y)
    (hr : r ∈ s.offers (procs (ops ++ y))) (hdep : p.dependent r = true) (hne : p.proc ≠ r.proc)
    (hz : Equivalent z (y ++ w)) (hlive : s.Live (ops ++ p :: z)) (hu : u <+: z)
    (hcount : (u.filter fun c => c.proc == r.proc).length ≤
      (y.filter fun c => c.proc == r.proc).length) :
    ops.length ∈ (History.ofOps (ops ++ p :: u)).racing r := by
  have hrace : p.races r = true :=
    hs.races (ops ++ y) p r hy (hs.offered_behind hy hp hi).1 hr hne hdep
  have hspawn : ∀ t, p.access ≠ .spawn t := by
    intro t ht
    simp [Candidate.races, ht, Access.conflicts, Access.object] at hrace
  refine History.mem_racing_ofOps hrace (History.not_happensBefore_clockOf
    (hs.threadsEnqueue (hs.live_left hlive)) hz hi hu hne (hspawn _) hcount fun e he ht => ?_)
  have hez : e ∈ z := hu.subset he
  constructor
  · rcases List.mem_append.mp (hz.perm.mem_iff.mp hez) with hey | hew
    · exact hey
    · -- otherwise the thread of `r` would be created behind `y`, where it exists
      have hequiv : Equivalent (p :: z) (y ++ p :: w) :=
        (hz.cons p).trans (Equivalent.front hi w).symm
      have hlive' := (hs.same_of_equivalent hequiv hlive).1
      rw [← List.append_assoc] at hlive'
      exact absurd ht (hs.spawn_ne_owner hlive' hr e (List.mem_cons_of_mem _ hew))
  · rintro a b rfl hea
    obtain ⟨a₁, a₂, rfl⟩ := List.append_of_mem hea
    have e₁ : ops ++ p :: (a₁ ++ e :: a₂ ++ e :: b) =
        (ops ++ p :: a₁) ++ e :: (a₂ ++ e :: b) := by simp
    rw [e₁] at hlive
    exact hs.spawn_notMem hlive ht e (by simp) ht

end Lawful

/-! ### Nodes of the explored tree -/

/-- Every process goes on with what it aims at: it is offered it, or it has to wait because of
operations that something offered depends on. -/
def Resumes (s : System ε) (ops : List Candidate) : Prop :=
  ∀ c, s.aims ops c → c ∈ s.offers (procs ops) ∨
    ∀ u w, Equivalent ops (u ++ w) → c ∈ s.offers (procs u) → (∀ d ∈ w, d.proc ≠ c.proc) →
      ∃ d ∈ s.offers (procs ops), ¬ d.IndepOf w

/-- A node of the tree of a finished exploration.  Where an execution ended without a failure,
every process goes on with what it aims at. -/
structure Node (s : System ε) (failing : List Candidate → Prop) (ops sleep : List Candidate)
    (t : Tree) : Prop where
  live : s.Live ops
  asleep : ∀ q ∈ sleep, q ∈ s.offers (procs ops)
  sound : Sound s.offers ops sleep [] t
  settled : Settled s.offers none failing ops sleep t
  finished : Finished s.offers none failing ops sleep [] t
  resumes : ∀ w ∈ t.leaves, ¬ failing (ops ++ w) → s.Resumes (ops ++ w)

namespace Node

variable {ops sleep v : List Candidate} {t sub : Tree} {c : Candidate} {done : List Proc}

theorem offered (h : Node s failing ops sleep t) (hc : c ∈ t.firsts) :
    c ∈ s.offers (procs ops) := by
  obtain ⟨_, _, hchild⟩ := exists_child hc []
  exact (hchild.sound h.sound).1

theorem child (hs : s.Lawful) (h : Node s failing ops sleep t) (hc : Child t [] c done sub)
    (hf : s.fault (ops ++ [c]) = none) :
    Node s failing (ops ++ [c]) (sleepBeyond (s.offers (procs ops)) sleep done c) sub := by
  obtain ⟨hmem, -, hsound⟩ := hc.sound h.sound
  obtain ⟨hset, hfin⟩ := hc.finished h.finished
  refine ⟨⟨h.live.run.concat hmem, hf⟩, fun q hq => ?_, hsound, hset, hfin, fun w hw hfail => ?_⟩
  · obtain ⟨hq, hi⟩ := mem_sleepBeyond.mp hq
    have hq' : q ∈ s.offers (procs ops) := hq.elim (h.asleep q) fun h => h.1
    exact (hs.persists ops c q h.live hmem hq' (Candidate.dependent_comm_false hi) hf).1
  · have e : ops ++ [c] ++ w = ops ++ c :: w := by simp
    rw [e] at hfail ⊢
    exact h.resumes _ (mem_leaves.mpr (.inr (hc.cons_mem_runs hw))) hfail

/-- An operation that sleeps, or was tried, below an operation of the root cannot start a run that
neither a sleeping operation nor one of the root could start. -/
theorem not_initial_of_sleepBeyond (hs : s.Lawful) (h : Node s failing ops sleep t)
    (hsleep : ∀ q ∈ sleep, ¬ q.Initial v)
    (hdone : ∀ p ∈ done, ∃ d ∈ t.firsts, d.proc = p ∧ ¬ d.Initial v) {q : Candidate}
    (hq : q ∈ sleepBeyond (s.offers (procs ops)) sleep done c) : ¬ q.Initial v := by
  rcases (mem_sleepBeyond.mp hq).1 with hq | ⟨ho, hq⟩
  · exact hsleep q hq
  · obtain ⟨d, hd, hp, hn⟩ := hdone q.proc hq
    rwa [← hs.eq_of_proc_eq (h.offered hd) ho hp]

/-- If all that is awake was tried at the root, then what a run starts with was. -/
theorem initial_of_triedAll (hs : s.Lawful) (h : Node s failing ops sleep t)
    (hrun : IsRun s.offers (ops ++ v)) (hne : v ≠ []) (hsleep : ∀ q ∈ sleep, ¬ q.Initial v)
    (hall : TriedAll s.offers ops sleep t) : ∃ c ∈ t.firsts, c.Initial v := by
  obtain ⟨c, v, rfl⟩ := List.exists_cons_of_ne_nil hne
  have hc := hrun.offered
  have hinit : c.Initial (c :: v) := Candidate.initial_cons.mpr (.inl rfl)
  have hawake : ¬ c.proc ∈ procs sleep := by
    intro hm
    obtain ⟨q, hq, hp⟩ := List.mem_map.mp hm
    obtain rfl := hs.eq_of_proc_eq (h.asleep q hq) hc hp
    exact hsleep q hq hinit
  obtain ⟨d, hd, hp⟩ := List.mem_map.mp (hall c hc hawake)
  exact ⟨d, hd, by rwa [hs.eq_of_proc_eq (h.offered hd) hc hp]⟩

/-- Where an operation that was tried meets an error, all that is awake was tried. -/
theorem triedAll_of_fault (hs : s.Lawful) (hfail : ∀ ops, s.fault ops ≠ none → failing ops)
    (h : Node s failing ops sleep t) (hc : Child t [] c done sub)
    (hf : s.fault (ops ++ [c]) ≠ none) : sub = tip ∧ TriedAll s.offers ops sleep t := by
  have htip : sub = tip := by
    cases sub with
    | tip => rfl
    | branch d s' rest =>
        have := (hc.sound h.sound).2.2.1
        rw [hs.stops _ hf] at this
        cases this
  refine ⟨htip, h.settled.failed [c] (hc.cons_mem_runs ?_) (hfail _ hf)⟩
  simp [htip, leaves_tip]

/-- If `r` is performed, as the next step of its process, in an execution that begins with `p` and
goes through `y`, then its process was tried at the root, or all that is awake was. -/
theorem tried_of_race (hs : s.Lawful) (h : Node s failing ops sleep t) {y w z u x : List Candidate}
    {p r : Candidate} (hp : p ∈ s.offers (procs ops)) (hy : s.Live (ops ++ y)) (hi : p.IndepOf y)
    (hr : r ∈ s.offers (procs (ops ++ y))) (hdep : p.dependent r = true) (hne : p.proc ≠ r.proc)
    (hz : Equivalent z (y ++ w)) (hlive : s.Live (ops ++ p :: z)) (hu : u <+: z)
    (hcount : (u.filter fun c => c.proc == r.proc).length ≤
      (y.filter fun c => c.proc == r.proc).length)
    (hx : p :: (u ++ r :: x) ∈ t.runs) :
    r.proc ∈ procs t.firsts ∨ TriedAll s.offers ops sleep t :=
  h.settled.races _ hx (p :: u) r ⟨x, by simp⟩
    (hs.race_seen hp hy hi hr hdep hne hz hlive hu hcount)

/-- Whatever is still offered at the end of the execution `w` has been asleep since the beginning, if
there is no failure in the tree. -/
def Early (s : System ε) (failing : List Candidate → Prop) (ops sleep : List Candidate) (t : Tree)
    (w : List Candidate) : Prop :=
  (∃ x ∈ t.leaves, failing (ops ++ x)) ∨
    ∀ d ∈ s.offers (procs (ops ++ w)), d ∈ sleep ∧ d.IndepOf w

/-- Let `p` be tried at the root in front of a run `y` that is independent of it, and let `r`, which
is offered behind `y`, depend on `p`.  If the subtree of `p` covers `y`, then the process of `r` was
tried at the root, or all that is awake was. -/
theorem tried_of_dependent (hs : s.Lawful) (h : Node s failing ops sleep t)
    {y y' y'' x : List Candidate} {p r : Candidate} (hchild : Child t [] p done sub)
    (hf : s.fault (ops ++ [p]) = none) (hy : s.Live (ops ++ y)) (hi : p.IndepOf y)
    (hr : r ∈ s.offers (procs (ops ++ y))) (hdep : p.dependent r = true) (hne : p.proc ≠ r.proc)
    (hx : y' ++ x ∈ sub.leaves) (hequiv : Equivalent y' (y ++ y''))
    (hearly : Early s failing (ops ++ [p]) (sleepBeyond (s.offers (procs ops)) sleep done p) sub
      (y' ++ x))
    (hfail : ∀ ops, s.fault ops ≠ none → failing ops) :
    r.proc ∈ procs t.firsts ∨ TriedAll s.offers ops sleep t := by
  have hnode := h.child hs hchild hf
  obtain ⟨hp, -, -⟩ := hchild.sound h.sound
  have hmem : p :: (y' ++ x) ∈ t.runs := hchild.cons_mem_runs hx
  have e : ∀ l : List Candidate, ops ++ [p] ++ l = ops ++ p :: l := by simp
  by_cases hfailing : ∃ w ∈ sub.leaves, failing (ops ++ [p] ++ w)
  · obtain ⟨w, hw, hwf⟩ := hfailing
    rw [e] at hwf
    exact .inr (h.settled.failed _ (hchild.cons_mem_runs hw) hwf)
  replace hearly := hearly.resolve_left hfailing
  have hfailing : ¬ failing (ops ++ [p] ++ (y' ++ x)) := fun h => hfailing ⟨_, hx, h⟩
  have hlive : s.Live (ops ++ [p] ++ (y' ++ x)) := by
    refine ⟨hnode.sound.isRun_leaves hnode.live.run hx, ?_⟩
    by_contra hfault
    exact hfailing (hfail _ hfault)
  -- the execution `z` goes through `y`, and `w` is the rest of it
  obtain ⟨z, hz⟩ : ∃ z, z = y' ++ x := ⟨_, rfl⟩
  rw [← hz] at hx hmem hlive hfailing hearly
  have hzw : Equivalent z (y ++ (y'' ++ x)) := by
    rw [hz, ← List.append_assoc]
    exact hequiv.append_right x
  generalize y'' ++ x = w at hzw
  obtain ⟨hlive', hsame⟩ := hs.same_of_equivalent hzw hlive
  have hseen := fun u x hu hcount hx =>
    h.tried_of_race hs (u := u) (x := x) hp hy hi hr hdep hne hzw (by simpa using hlive) hu hcount hx
  have haims := hs.aims_behind hp hf hy hi hr hdep hne
  have hfilter := hzw.filter_proc r.proc
  rw [List.filter_append] at hfilter
  by_cases hcount : (z.filter fun c => c.proc == r.proc).length ≤
      (y.filter fun c => c.proc == r.proc).length
  · -- its process never performs `r`, and everything offered at the end of `z` is independent of `p`
    exfalso
    have hnil : (w.filter fun c => c.proc == r.proc) = [] := by
      rw [hfilter, List.length_append] at hcount
      exact List.eq_nil_of_length_eq_zero (by omega)
    have hwr : ∀ d ∈ w, d.proc ≠ r.proc := fun d hd => by
      simpa using List.filter_eq_nil_iff.mp hnil d hd
    have hend : s.aims (ops ++ [p] ++ z) r := by
      rw [← List.append_assoc] at hlive' hsame
      have := hs.aims_run hlive' haims hwr
      simpa using ((hsame []).2.2 r).mpr (by simpa using this)
    rcases hnode.resumes z hx hfailing r hend with hoff | hwaits
    · have := (mem_sleepBeyond.mp (hearly r hoff).1).2
      rw [Candidate.dependent_comm, hdep] at this
      cases this
    · have hequiv' : Equivalent (ops ++ [p] ++ z) (ops ++ y ++ p :: w) := by
        rw [e, List.append_assoc]
        exact ((hzw.cons p).trans (Equivalent.front hi w).symm).append_left ops
      obtain ⟨d, hd, hdw⟩ := hwaits _ _ hequiv' hr (by simpa [hne] using hwr)
      obtain ⟨hds, hdz⟩ := hearly d hd
      refine hdw (Candidate.indepOf_cons.mpr ⟨(mem_sleepBeyond.mp hds).2, ?_⟩)
      exact (Candidate.indepOf_append.mp fun b hb => hdz b (hzw.perm.mem_iff.mpr hb)).2
  · -- its process does go on, and with `r`
    obtain ⟨z₁, d, z₂, rfl, hd, hz₁⟩ := exists_split_of_lt_filter (not_le.mp hcount)
    have hwd : (w.filter fun c => c.proc == r.proc).head? = some d := by
      rw [List.filter_append] at hfilter
      rw [← (List.append_inj hfilter hz₁).2]
      simp [hd]
    rw [← List.append_assoc] at hlive'
    obtain rfl := hs.eq_of_aims haims hlive' hwd
    exact hseen z₁ z₂ (List.prefix_append _ _) hz₁.le hmem

/-- At a node where a run starts with no operation that was tried, up to the order of independent
steps, and none of them is independent of it, the subtrees do not cover what they should. -/
theorem false_of_dependent (hs : s.Lawful) (hfail : ∀ ops, s.fault ops ≠ none → failing ops)
    (h : Node s failing ops sleep t) (hrun : IsRun s.offers (ops ++ v)) (hne : v ≠ [])
    (hsleep : ∀ q ∈ sleep, ¬ q.Initial v) (hinit : ∀ c ∈ t.firsts, ¬ c.Initial v)
    (hdep : ∀ c ∈ t.firsts, ¬ c.IndepOf v)
    (hcover : ∀ c done sub, Child t [] c done sub → s.fault (ops ++ [c]) = none →
      ∀ y, s.Live (ops ++ [c] ++ y) →
        (∀ q ∈ sleepBeyond (s.offers (procs ops)) sleep done c, ¬ q.Initial y) →
        ∃ y' y'' x, y' ++ x ∈ sub.leaves ∧ Equivalent y' (y ++ y'') ∧
          Early s failing (ops ++ [c]) (sleepBeyond (s.offers (procs ops)) sleep done c) sub
            (y' ++ x)) : False := by
  have hall : ¬ TriedAll s.offers ops sleep t := by
    intro hall
    obtain ⟨c, hc, hi⟩ := h.initial_of_triedAll hs hrun hne hsleep hall
    exact hinit c hc hi
  have hfirsts : ∃ c, c ∈ t.firsts := by
    cases t with
    | tip =>
        have hended := h.settled.ended rfl
        simp only [Reduction.Ended, reduceCtorEq, false_and, exists_false, or_false] at hended
        exact absurd (fun c hc ha => absurd (hended c hc) ha) hall
    | branch c _ _ => exact ⟨c, by simp [firsts]⟩
  obtain ⟨p, hp, hmin⟩ :=
    (measure fun c : Candidate => arrival c.proc v).wf.has_min {c | c ∈ t.firsts} hfirsts
  obtain ⟨y, r, v₂, rfl, hi, hpr⟩ := exists_dependent (hdep p hp)
  obtain ⟨done, sub, hchild⟩ := exists_child hp []
  have hf : s.fault (ops ++ [p]) = none := by
    by_contra hf
    exact hall (h.triedAll_of_fault hs hfail hchild hf).2
  rw [← List.append_assoc] at hrun
  have hy := hs.live_of_run hrun
  have hr := hrun.offered
  have hne' : p.proc ≠ r.proc := by
    intro heq
    obtain rfl := hs.eq_of_proc_eq (hs.offered_behind hy (h.offered hp) hi).1 hr heq
    exact hinit p hp ⟨y, v₂, rfl, hi⟩
  have hlive := (hs.live_cons hy (h.offered hp) hf hi).1
  obtain ⟨y', y'', x, hx, hequiv, hearly⟩ := hcover p done sub hchild hf y (by simpa using hlive) <| by
    intro q hq hqy
    refine h.not_initial_of_sleepBeyond hs hsleep (fun p' hp' => ?_) hq (hqy.append _)
    obtain ⟨d, hd, hdp⟩ := (hchild.mem_done hp').resolve_left (by simp)
    exact ⟨d, hd, hdp, hinit d hd⟩
  rcases h.tried_of_dependent hs hchild hf hy hi hr hpr hne' hx hequiv hearly hfail with htried | htried
  · obtain ⟨c, hc, hcr⟩ := List.mem_map.mp htried
    refine hmin c hc ?_
    calc arrival c.proc (y ++ r :: v₂) ≤ y.length := arrival_le v₂ hcr.symm
      _ < arrival p.proc (y ++ r :: v₂) := lt_arrival v₂ hi hne'
  · exact hall htried

/-- Where all that was tried failed, some execution of the tree is early. -/
theorem exists_early (hs : s.Lawful) (hfail : ∀ ops, s.fault ops ≠ none → failing ops)
    (h : Node s failing ops sleep t) (hfaults : ∀ c ∈ t.firsts, s.fault (ops ++ [c]) ≠ none) :
    ∃ x ∈ t.leaves, Early s failing ops sleep t x := by
  cases t with
  | tip =>
      refine ⟨[], by simp [leaves_tip], .inr fun d hd => ?_⟩
      have hended : ∀ c ∈ s.offers (procs ops), c.proc ∈ procs sleep := by
        simpa [Reduction.Ended] using h.settled.ended rfl
      rw [List.append_nil] at hd
      obtain ⟨q, hq, hqd⟩ := List.mem_map.mp (hended d hd)
      obtain rfl := hs.eq_of_proc_eq (h.asleep q hq) hd hqd
      exact ⟨hq, Candidate.indepOf_nil q⟩
  | branch c sub rest =>
      have hchild : Child (branch c sub rest) [] c [] sub := .here
      have hf := hfaults c hchild.mem_firsts
      obtain ⟨rfl, -⟩ := h.triedAll_of_fault hs hfail hchild hf
      have hmem := mem_leaves.mpr (.inr (hchild.cons_mem_runs (w := []) (by simp [leaves_tip])))
      exact ⟨[c], hmem, .inl ⟨[c], hmem, hfail _ hf⟩⟩

/-- An execution that is early in the subtree of `c` is early in the tree, if what was tried before
`c` failed or does not go with it. -/
theorem early_cons (hs : s.Lawful) (hfail : ∀ ops, s.fault ops ≠ none → failing ops)
    (h : Node s failing ops sleep t) (hchild : Child t [] c done sub) {w : List Candidate}
    (hearly : Early s failing (ops ++ [c]) (sleepBeyond (s.offers (procs ops)) sleep done c) sub w)
    (hdone : ∀ p ∈ done, ∃ d ∈ t.firsts, d.proc = p ∧
      ¬ (d.IndepOf (c :: w) ∧ s.fault (ops ++ [d]) = none)) :
    Early s failing ops sleep t (c :: w) := by
  have e : ∀ l : List Candidate, ops ++ [c] ++ l = ops ++ c :: l := by simp
  rcases hearly with ⟨x, hx, hfails⟩ | hearly
  · exact .inl ⟨c :: x, mem_leaves.mpr (.inr (hchild.cons_mem_runs hx)), e x ▸ hfails⟩
  by_cases hfaults : ∃ d ∈ t.firsts, s.fault (ops ++ [d]) ≠ none
  · obtain ⟨d, hd, hf⟩ := hfaults
    obtain ⟨done', sub', hchild'⟩ := exists_child hd []
    obtain ⟨rfl, -⟩ := h.triedAll_of_fault hs hfail hchild' hf
    exact .inl ⟨[d], mem_leaves.mpr (.inr (hchild'.cons_mem_runs (by simp [leaves_tip]))),
      hfail _ hf⟩
  -- what was tried before `c` is awake at the end
  refine .inr fun d hd => ?_
  obtain ⟨hds, hdw⟩ := hearly d (by rwa [e])
  obtain ⟨hds, hdc⟩ := mem_sleepBeyond.mp hds
  have hindep : d.IndepOf (c :: w) := Candidate.indepOf_cons.mpr ⟨hdc, hdw⟩
  refine ⟨hds.resolve_right fun ⟨ho, hdp⟩ => ?_, hindep⟩
  obtain ⟨b, hb, hbp, hn⟩ := hdone _ hdp
  obtain rfl := hs.eq_of_proc_eq (h.offered hb) ho hbp
  exact hn ⟨hindep, not_not.mp fun hf => hfaults ⟨b, hb, hf⟩⟩

/-- **Every run is covered**: unless a sleeping operation could start it, it is equivalent to the
beginning of an explored execution, up to further operations.  The first such execution is early. -/
theorem covers (hs : s.Lawful) (hfail : ∀ ops, s.fault ops ≠ none → failing ops)
    (h : Node s failing ops sleep t) (hv : s.Live (ops ++ v)) (hsleep : ∀ q ∈ sleep, ¬ q.Initial v) :
    ∃ v' v'' x, v' ++ x ∈ t.leaves ∧ s.Live (ops ++ v') ∧ Equivalent v' (v ++ v'') ∧
      Early s failing ops sleep t (v' ++ x) := by
  induction hn : sizeOf t using Nat.strong_induction_on generalizing t ops sleep v with
  | _ n ih =>
  subst hn
  have e : ∀ (c : Candidate) (l : List Candidate), ops ++ [c] ++ l = ops ++ c :: l := by simp
  by_cases hstarts : ∃ c ∈ t.firsts, c.Initial v ∨ c.IndepOf v ∧ s.fault (ops ++ [c]) = none
  · -- the first operation of the root that the run starts with or is independent of
    obtain ⟨c, done, sub, hchild, hc, hdone⟩ := exists_first_child hstarts []
    replace hdone := fun p hp => (hdone p hp).resolve_left (by simp)
    obtain ⟨w, hlive, hw⟩ : ∃ w, s.Live (ops ++ [c] ++ w) ∧
        ((v = w ∧ c.IndepOf v) ∨ Equivalent v (c :: w)) := by
      rcases hc with ⟨u, w, rfl, hi⟩ | ⟨hi, hf⟩
      · have hequiv := Equivalent.front hi w
        exact ⟨u ++ w, (e c _).symm ▸ (hs.same_of_equivalent hequiv hv).1, .inr hequiv⟩
      · exact ⟨v, (e c v).symm ▸ (hs.live_cons hv (h.offered hchild.mem_firsts) hf hi).1, .inl ⟨rfl, hi⟩⟩
    have hinitial : ∀ q : Candidate, q.dependent c = false → q.Initial w → q.Initial v := by
      intro q hqc hqw
      rcases hw with ⟨rfl, -⟩ | hequiv
      · exact hqw
      · exact Candidate.Initial.equivalent (Candidate.initial_cons.mpr (.inr ⟨hqc, hqw⟩)) hequiv.symm
    obtain ⟨y', y'', x, hx, hlive', hy, hearly⟩ :=
      ih _ hchild.sizeOf_lt (h.child hs hchild (hs.live_left hlive).fault) hlive (fun q hq hqi => by
        refine h.not_initial_of_sleepBeyond hs hsleep (fun p hp => ?_) hq
          (hinitial q (mem_sleepBeyond.mp hq).2 hqi)
        obtain ⟨d, hd, hdp, hn⟩ := hdone p hp
        exact ⟨d, hd, hdp, fun hdi => hn (.inl hdi)⟩) rfl
    have hmem := mem_leaves.mpr (.inr (hchild.cons_mem_runs hx))
    obtain ⟨z, hz⟩ : ∃ z, Equivalent (c :: y') (v ++ z) := by
      rcases hw with ⟨rfl, hi⟩ | hequiv
      · exact ⟨c :: y'', (hy.cons c).trans (Equivalent.front hi y'').symm⟩
      · exact ⟨y'', (hy.cons c).trans (hequiv.symm.append_right y'')⟩
    refine ⟨c :: y', z, x, hmem, e c y' ▸ hlive', hz, h.early_cons hs hfail hchild hearly fun p hp => ?_⟩
    obtain ⟨d, hd, hdp, hn⟩ := hdone p hp
    refine ⟨d, hd, hdp, fun ⟨hi, hf⟩ => hn (.inr ⟨fun a ha => ?_, hf⟩)⟩
    exact hi a (List.mem_append_left x (hz.perm.mem_iff.mpr (List.mem_append_left z ha)))
  have hinit : ∀ c ∈ t.firsts, ¬ c.Initial v := fun c hc hi => hstarts ⟨c, hc, .inl hi⟩
  by_cases hne : v = []
  · subst hne
    obtain ⟨x, hx, hearly⟩ := h.exists_early hs hfail fun c hc hf =>
      hstarts ⟨c, hc, .inr ⟨Candidate.indepOf_nil c, hf⟩⟩
    exact ⟨[], [], x, hx, by simpa using h.live, .refl [], hearly⟩
  exfalso
  refine h.false_of_dependent hs hfail hv.run hne hsleep hinit (fun c hc hi => ?_)
    fun c done sub hchild hf y hy hsy => ?_
  · by_cases hf : s.fault (ops ++ [c]) = none
    · exact hstarts ⟨c, hc, .inr ⟨hi, hf⟩⟩
    · obtain ⟨done, sub, hchild⟩ := exists_child hc []
      obtain ⟨d, hd, hdi⟩ := h.initial_of_triedAll hs hv.run hne hsleep
        (h.triedAll_of_fault hs hfail hchild hf).2
      exact hinit d hd hdi
  · obtain ⟨y', y'', x, hx, -, hequiv, hearly⟩ :=
      ih _ hchild.sizeOf_lt (h.child hs hchild hf) hy hsy rfl
    exact ⟨y', y'', x, hx, hequiv, hearly⟩

/-- **Every error is met**: unless a sleeping operation could start the run that leads to it, some
explored execution ends with the same operation and the same error. -/
theorem covers_fault (hs : s.Lawful) (hfail : ∀ ops, s.fault ops ≠ none → failing ops)
    (h : Node s failing ops sleep t) (hv : s.Live (ops ++ v)) {d : Candidate}
    (hd : d ∈ s.offers (procs (ops ++ v))) {error : ε}
    (herror : s.fault (ops ++ v ++ [d]) = some error)
    (hsleep : ∀ q ∈ sleep, ¬ q.Initial (v ++ [d])) :
    ∃ v', v' ++ [d] ∈ t.leaves ∧ s.fault (ops ++ v' ++ [d]) = some error := by
  induction hn : sizeOf t using Nat.strong_induction_on generalizing t ops sleep v with
  | _ n ih =>
  subst hn
  have e : ∀ (c : Candidate) (l : List Candidate), ops ++ [c] ++ l = ops ++ c :: l := by simp
  have hrun : IsRun s.offers (ops ++ (v ++ [d])) := by
    rw [← List.append_assoc]
    exact hv.run.concat hd
  by_cases hinit : ∃ c ∈ t.firsts, c.Initial (v ++ [d])
  · obtain ⟨c, done, sub, hchild, hc, hdone⟩ := exists_first_child hinit []
    obtain ⟨u, w, hvd, hi⟩ := hc
    cases w using List.reverseRecOn with
    | nil =>
        -- the failing operation itself was tried at the root
        obtain ⟨rfl, rfl⟩ : v = u ∧ d = c := List.concat_inj.mp (by simpa using hvd)
        have herror' := (hs.offered_behind hv (h.offered hchild.mem_firsts) hi).2.symm.trans herror
        obtain ⟨rfl, -⟩ := h.triedAll_of_fault hs hfail hchild (by simp [herror'])
        exact ⟨[], mem_leaves.mpr (.inr (hchild.cons_mem_runs (by simp [leaves_tip]))),
          by simpa using herror'⟩
    | append_singleton w d' =>
        have hvd' : v ++ [d] = (u ++ c :: w) ++ [d'] := by simpa using hvd
        obtain ⟨rfl, hdd⟩ := List.append_inj' hvd' rfl
        obtain rfl : d = d' := by simpa using hdd
        have hequiv := Equivalent.front hi w
        obtain ⟨hlive, hsame⟩ := hs.same_of_equivalent hequiv hv
        rw [← e] at hlive hsame
        have hf := (hs.live_left hlive).fault
        obtain ⟨v', hmem, hv'⟩ := ih _ hchild.sizeOf_lt (h.child hs hchild hf) hlive
          (hsame.offers_eq ▸ hd) ((hsame.append [d]).fault_eq ▸ herror) (fun q hq hqi => by
            refine h.not_initial_of_sleepBeyond hs hsleep
              (fun p hp => (hdone p hp).resolve_left (by simp)) hq ?_
            refine Candidate.Initial.equivalent ?_ (hequiv.symm.append_right [d])
            exact Candidate.initial_cons.mpr (.inr ⟨(mem_sleepBeyond.mp hq).2, hqi⟩)) rfl
        exact ⟨c :: v', mem_leaves.mpr (.inr (hchild.cons_mem_runs hmem)), by simpa using hv'⟩
  by_cases hindep : ∃ c ∈ t.firsts, c.IndepOf (v ++ [d])
  · obtain ⟨c, hc, hi⟩ := hindep
    obtain ⟨done, sub, hchild⟩ := exists_child hc []
    have hf : s.fault (ops ++ [c]) = none := by
      by_contra hf
      have hall := (h.triedAll_of_fault hs hfail hchild hf).2
      exact hinit (h.initial_of_triedAll hs hrun (by simp) hsleep hall)
    obtain ⟨hiv, hid⟩ := Candidate.indepOf_append.mp hi
    obtain ⟨hcv, hfv⟩ := hs.offered_behind hv (h.offered hc) hiv
    obtain ⟨hd', herror'⟩ := hs.persists _ c d hv hcv hd (Candidate.indepOf_cons.mp hid).1
      (hfv.trans hf)
    obtain ⟨hlive, hsame⟩ := hs.live_cons hv (h.offered hc) hf hiv
    rw [← e] at hlive hsame
    obtain ⟨v', hmem, hv'⟩ := ih _ hchild.sizeOf_lt (h.child hs hchild hf) hlive
      (hsame.offers_eq ▸ hd') ((hsame.append [d]).fault_eq ▸ herror'.trans herror) (fun q hq => by
        refine h.not_initial_of_sleepBeyond hs hsleep (fun p hp => ?_) hq
        obtain ⟨b, hb, hbp⟩ := (hchild.mem_done hp).resolve_left (by simp)
        exact ⟨b, hb, hbp, fun hbi => hinit ⟨b, hb, hbi⟩⟩) rfl
    exact ⟨c :: v', mem_leaves.mpr (.inr (hchild.cons_mem_runs hmem)), by simpa using hv'⟩
  exfalso
  refine h.false_of_dependent hs hfail hrun (by simp) hsleep (fun c hc hi => hinit ⟨c, hc, hi⟩)
    (fun c hc hi => hindep ⟨c, hc, hi⟩) fun c done sub hchild hf y hy hsy => ?_
  obtain ⟨y', y'', x, hx, -, hequiv, hearly⟩ := (h.child hs hchild hf).covers hs hfail hy hsy
  exact ⟨y', y'', x, hx, hequiv, hearly⟩

end Node

/-! ### Finished explorations -/

variable {log : List Reduction.Explored} {r : Reduction} {v : List Candidate}

theorem eq_nil_of_ended {w : List Candidate} (hend : s.offers (procs v) = [])
    (h : IsRun s.offers (v ++ w)) : w = [] := by
  cases w with
  | nil => rfl
  | cons c w =>
      have := h.offered
      rw [hend] at this
      cases this

/-- The root of a finished exploration, whose leaves are its executions. -/
theorem exists_node (hx : Reduction.Explores s.offers none log false r)
    (hstart : s.fault [] = none) (hreported : ∀ x ∈ log, failing x.ops → x.failed = true)
    (hresumes : ∀ x ∈ log, ¬ failing x.ops → s.Resumes x.ops) :
    ∃ t, Node s failing [] [] t ∧ log.map Reduction.Explored.ops = t.leaves := by
  obtain ⟨-, t, hsound, -, hdone⟩ := hx.tree failing hreported
  obtain ⟨hsettled, hfinished, hlog⟩ := hdone rfl
  refine ⟨t, ⟨⟨IsRun.nil, hstart⟩, by simp, hsound, hsettled, hfinished, fun w hw hf => ?_⟩, hlog⟩
  obtain ⟨x, hx, rfl⟩ := List.mem_map.mp (hlog ▸ hw)
  exact hresumes x hx hf

namespace Lawful

/-- **Every execution of a lawful system is explored up to the order of independent steps.** -/
theorem exists_equivalent_of_resumes (hs : s.Lawful) (failing : List Candidate → Prop)
    (hfail : ∀ ops, s.fault ops ≠ none → failing ops)
    (hx : Reduction.Explores s.offers none log false r)
    (hreported : ∀ x ∈ log, failing x.ops → x.failed = true)
    (hresumes : ∀ x ∈ log, ¬ failing x.ops → s.Resumes x.ops)
    (hv : s.Live v) (hend : s.offers (procs v) = []) :
    ∃ x ∈ log, x.final.blocked = false ∧ Equivalent v x.ops ∧ s.Same v x.ops := by
  have hrec := (hx.tree failing hreported).1
  have hstart : s.fault [] = none := (hs.live_left (u := []) (v := v) hv).fault
  obtain ⟨t, hnode, hlog⟩ := exists_node hx hstart hreported hresumes
  obtain ⟨v', v'', x, hmem, hlive, hequiv, -⟩ := hnode.covers hs hfail (by simpa using hv) (by simp)
  rw [List.nil_append] at hlive
  obtain rfl := eq_nil_of_ended hend (hs.same_of_equivalent (u := []) hequiv hlive).1.run
  rw [List.append_nil] at hequiv
  obtain ⟨-, hsame⟩ := hs.same_of_equivalent (u := []) hequiv hlive
  rw [List.nil_append, List.nil_append] at hsame
  have hend' : s.offers (procs v') = [] := hsame.offers_eq.trans hend
  have hrun := hnode.sound.isRun_leaves hnode.live.run hmem
  obtain rfl := eq_nil_of_ended hend' (by simpa using hrun)
  rw [List.append_nil, ← hlog] at hmem
  obtain ⟨y, hy, rfl⟩ := List.mem_map.mp hmem
  refine ⟨y, hy, ?_, hequiv.symm, hsame.symm⟩
  rw [← Bool.not_eq_true, (hrec y hy).blocked rfl]
  simpa using hend'

/-- The case of a system in which nothing has to wait. -/
theorem exists_equivalent (hs : s.Lawful) (failing : List Candidate → Prop)
    (hfail : ∀ ops, s.fault ops ≠ none → failing ops)
    (hx : Reduction.Explores s.offers none log false r)
    (hreported : ∀ x ∈ log, failing x.ops → x.failed = true)
    (hresumes : ∀ x ∈ log, ¬ failing x.ops → ∀ c, s.aims x.ops c → c ∈ s.offers (procs x.ops))
    (hv : s.Live v) (hend : s.offers (procs v) = []) :
    ∃ x ∈ log, x.final.blocked = false ∧ Equivalent v x.ops ∧ s.Same v x.ops :=
  hs.exists_equivalent_of_resumes failing hfail hx hreported
    (fun x hx hf c hc => .inl (hresumes x hx hf c hc)) hv hend

/-- **Every error of a lawful system is met by an explored execution.** -/
theorem exists_fault (hs : s.Lawful) (failing : List Candidate → Prop)
    (hfail : ∀ ops, s.fault ops ≠ none → failing ops)
    (hx : Reduction.Explores s.offers none log false r)
    (hreported : ∀ x ∈ log, failing x.ops → x.failed = true)
    (hresumes : ∀ x ∈ log, ¬ failing x.ops → s.Resumes x.ops)
    (hv : s.Live v) {d : Candidate} (hd : d ∈ s.offers (procs v)) {error : ε}
    (herror : s.fault (v ++ [d]) = some error) :
    ∃ x ∈ log, x.final.blocked = false ∧ s.fault x.ops = some error := by
  have hrec := (hx.tree failing hreported).1
  have hstart : s.fault [] = none := (hs.live_left (u := []) (v := v) hv).fault
  obtain ⟨t, hnode, hlog⟩ := exists_node hx hstart hreported hresumes
  obtain ⟨v', hmem, hfault⟩ :=
    hnode.covers_fault hs hfail (by simpa using hv) hd (by simpa using herror) (by simp)
  rw [← hlog] at hmem
  obtain ⟨y, hy, hops⟩ := List.mem_map.mp hmem
  rw [List.nil_append, ← hops] at hfault
  refine ⟨y, hy, ?_, hfault⟩
  rw [← Bool.not_eq_true, (hrec y hy).blocked rfl, hs.stops _ (by simp [hfault])]
  simp

end Lawful

end System

end Interleave
