import Interleave.Proofs.Search.Execution

/-! # Engines whose independent operations commute

A `System` is an engine as the theory of its interleavings sees it: what is offered after a sequence
of operations, whether the last of them met an error, and which operation a process aims at even
while it has to wait for it.  In a lawful system independent operations neither disable nor change
one another and can be performed in either order, while dependent ones that are offered together
race.

Equivalent runs of a lawful system lead to the same state (`System.Lawful.same_of_equivalent`), and
an operation that is offered can be postponed behind independent ones. -/

namespace Interleave

theorem pairwise_zipIdx {α : Type} (l : List α) : l.zipIdx.Pairwise fun x y => x.2 < y.2 := by
  have h : (l.zipIdx.map Prod.snd).Pairwise (· < ·) := by
    rw [List.zipIdx_map_snd]
    exact List.pairwise_lt_range'
  exact List.pairwise_map.mp h

/-- An engine, with errors of type `ε`. -/
structure System (ε : Type) where
  offers : Offers
  /-- The error that the last operation of a sequence met. -/
  fault : List Candidate → Option ε
  /-- The process of the operation goes on with it, sooner or later. -/
  aims : List Candidate → Candidate → Prop
  /-- Number of threads that exist. -/
  threads : List Candidate → Nat

namespace System

variable {ε : Type} (s : System ε)

/-- Nothing that happens from now on tells the two sequences apart. -/
def Same (ops ops' : List Candidate) : Prop :=
  ∀ u, s.offers (procs (ops ++ u)) = s.offers (procs (ops' ++ u)) ∧
    s.fault (ops ++ u) = s.fault (ops' ++ u) ∧
    ∀ c, s.aims (ops ++ u) c ↔ s.aims (ops' ++ u) c

/-- The run has met no error. -/
structure Live (ops : List Candidate) : Prop where
  run : IsRun s.offers ops
  fault : s.fault ops = none

/-- Independent operations commute, and dependent ones that are offered together race. -/
structure Lawful : Prop where
  distinct : ∀ ps, (procs (s.offers ps)).Nodup
  /-- An error ends the execution. -/
  stops : ∀ ops, s.fault ops ≠ none → s.offers (procs ops) = []
  /-- What is offered stays so, with the same effect, when something independent goes first. -/
  persists : ∀ ops c d, s.Live ops → c ∈ s.offers (procs ops) → d ∈ s.offers (procs ops) →
    c.dependent d = false → s.fault (ops ++ [c]) = none →
    d ∈ s.offers (procs (ops ++ [c])) ∧ s.fault (ops ++ [c] ++ [d]) = s.fault (ops ++ [d])
  /-- What is offered behind something independent is offered before. -/
  reflects : ∀ ops c d, s.Live ops → c ∈ s.offers (procs ops) → c.dependent d = false →
    s.fault (ops ++ [c]) = none → d ∈ s.offers (procs (ops ++ [c])) → d ∈ s.offers (procs ops)
  commutes : ∀ ops c d, s.Live ops → c ∈ s.offers (procs ops) → d ∈ s.offers (procs ops) →
    c.dependent d = false → s.fault (ops ++ [c]) = none → s.fault (ops ++ [d]) = none →
    s.Same (ops ++ [c] ++ [d]) (ops ++ [d] ++ [c])
  races : ∀ ops c d, s.Live ops → c ∈ s.offers (procs ops) → d ∈ s.offers (procs ops) →
    c.proc ≠ d.proc → c.dependent d = true → c.races d = true
  /-- A process that is offered a memory operation aims at it, until it performs it. -/
  aims_of_offered : ∀ ops c, s.Live ops → c ∈ s.offers (procs ops) → c.access.object.isSome →
    s.aims ops c
  aims_step : ∀ ops c r, s.Live ops → c ∈ s.offers (procs ops) → s.fault (ops ++ [c]) = none →
    s.aims ops r → c.proc ≠ r.proc → s.aims (ops ++ [c]) r
  aims_unique : ∀ ops c r, s.Live ops → c ∈ s.offers (procs ops) → s.aims ops r →
    c.proc = r.proc → c = r
  enqueues : ∀ ops c, s.Live ops → c ∈ s.offers (procs ops) → c.access.isEnqueue = true →
    ∃ t, c.proc = .thread t
  /-- Threads are numbered in the order of their creation. -/
  spawns : ∀ ops c t, s.Live ops → c ∈ s.offers (procs ops) → s.fault (ops ++ [c]) = none →
    c.access = .spawn t → t = s.threads ops ∧ s.threads (ops ++ [c]) = t + 1
  threads_le : ∀ ops c, s.Live ops → c ∈ s.offers (procs ops) → s.fault (ops ++ [c]) = none →
    s.threads ops ≤ s.threads (ops ++ [c])
  owner_lt : ∀ ops c, s.Live ops → c ∈ s.offers (procs ops) → c.proc.owner < s.threads ops

variable {s}

namespace Same

variable {u v w : List Candidate}

theorem refl (u : List Candidate) : s.Same u u := fun _ => ⟨rfl, rfl, fun _ => Iff.rfl⟩

theorem symm (h : s.Same u v) : s.Same v u := fun x =>
  ⟨(h x).1.symm, (h x).2.1.symm, fun c => ((h x).2.2 c).symm⟩

theorem trans (h : s.Same u v) (h' : s.Same v w) : s.Same u w := fun x =>
  ⟨(h x).1.trans (h' x).1, (h x).2.1.trans (h' x).2.1, fun c => ((h x).2.2 c).trans ((h' x).2.2 c)⟩

theorem append (h : s.Same u v) (x : List Candidate) : s.Same (u ++ x) (v ++ x) := fun y => by
  rw [List.append_assoc, List.append_assoc]
  exact h (x ++ y)

theorem offers_eq (h : s.Same u v) : s.offers (procs u) = s.offers (procs v) := by
  simpa using (h []).1

theorem fault_eq (h : s.Same u v) : s.fault u = s.fault v := by simpa using (h []).2.1

theorem isRun (h : s.Same u v) (hv : IsRun s.offers v) (hu : IsRun s.offers (u ++ w)) :
    IsRun s.offers (v ++ w) := by
  induction w using List.reverseRecOn with
  | nil => simpa using hv
  | append_singleton w c ih =>
      rw [← List.append_assoc] at hu ⊢
      refine (ih hu.left).concat ?_
      rw [← (h.append w).offers_eq]
      exact hu.offered

end Same

namespace Lawful

variable {u v w : List Candidate} {c d : Candidate}

theorem live_left (hs : s.Lawful) (h : s.Live (u ++ v)) : s.Live u := by
  refine ⟨h.run.left, ?_⟩
  cases v with
  | nil => simpa using h.fault
  | cons c v =>
      by_contra hf
      have := h.run.offered
      rw [hs.stops u hf] at this
      cases this

theorem live_of_offered (hs : s.Lawful) (h : IsRun s.offers u) (hc : c ∈ s.offers (procs u)) :
    s.Live u := by
  refine ⟨h, ?_⟩
  by_contra hf
  rw [hs.stops u hf] at hc
  cases hc

theorem live_of_run (hs : s.Lawful) (h : IsRun s.offers (u ++ c :: v)) : s.Live u :=
  hs.live_of_offered h.left h.offered

theorem eq_of_proc_eq (hs : s.Lawful) {ps : List Proc} (hc : c ∈ s.offers ps)
    (hd : d ∈ s.offers ps) (h : c.proc = d.proc) : c = d :=
  List.inj_on_of_nodup_map (hs.distinct ps) hc hd h

theorem same_of_swap (hs : s.Lawful) (h : Swap v w) (hv : s.Live (u ++ v)) :
    s.Live (u ++ w) ∧ s.Same (u ++ v) (u ++ w) := by
  induction h generalizing u with
  | @here c d x hi =>
      have e : u ++ c :: d :: x = u ++ [c] ++ [d] ++ x := by simp
      rw [e] at hv ⊢
      have e' : u ++ d :: c :: x = u ++ [d] ++ [c] ++ x := by simp
      rw [e']
      have hcd := hs.live_left hv
      have hc := hs.live_left hcd
      have hu := hs.live_left hc
      have hc₀ := hc.run.offered
      have hd₀ := hs.reflects u c d hu hc₀ hi hc.fault hcd.run.offered
      have hd : s.fault (u ++ [d]) = none := by
        rw [← (hs.persists u c d hu hc₀ hd₀ hi hc.fault).2, hcd.fault]
      have hi' := Candidate.dependent_comm_false hi
      have hsame := (hs.commutes u c d hu hc₀ hd₀ hi hc.fault hd).append x
      have hdc : IsRun s.offers (u ++ [d] ++ [c]) :=
        (hu.run.concat hd₀).concat (hs.persists u d c hu hd₀ hc₀ hi' hd).1
      refine ⟨⟨?_, ?_⟩, hsame⟩
      · exact (hs.commutes u c d hu hc₀ hd₀ hi hc.fault hd).isRun hdc hv.run
      · rw [← hsame.fault_eq, hv.fault]
  | @there c x y _ ih =>
      have e : ∀ z : List Candidate, u ++ c :: z = u ++ [c] ++ z := by simp
      rw [e x] at hv ⊢
      rw [e y]
      exact ih hv

/-- Equivalent continuations of a run lead to the same state. -/
theorem same_of_equivalent (hs : s.Lawful) (h : Equivalent v w) (hv : s.Live (u ++ v)) :
    s.Live (u ++ w) ∧ s.Same (u ++ v) (u ++ w) := by
  induction h with
  | refl => exact ⟨hv, .refl _⟩
  | tail _ hswap ih =>
      obtain ⟨hlive, hsame⟩ := ih
      obtain ⟨hlive', hsame'⟩ := hs.same_of_swap hswap hlive
      exact ⟨hlive', hsame.trans hsame'⟩

/-- An operation that is offered stays so, with the same effect, behind independent ones. -/
theorem offered_behind (hs : s.Lawful) (hv : s.Live (u ++ v)) (hc : c ∈ s.offers (procs u))
    (hi : c.IndepOf v) :
    c ∈ s.offers (procs (u ++ v)) ∧ s.fault (u ++ v ++ [c]) = s.fault (u ++ [c]) := by
  induction v using List.reverseRecOn with
  | nil => simpa using hc
  | append_singleton v d ih =>
      obtain ⟨hi, hd⟩ := Candidate.indepOf_append.mp hi
      have hd : d.dependent c = false :=
        Candidate.dependent_comm_false (Candidate.indepOf_cons.mp hd).1
      rw [← List.append_assoc] at hv ⊢
      have hv' := hs.live_left hv
      obtain ⟨hmem, hfault⟩ := ih hv' hi
      obtain ⟨hmem', hfault'⟩ := hs.persists (u ++ v) d c hv' hv.run.offered hmem hd hv.fault
      exact ⟨hmem', hfault'.trans hfault⟩

theorem live_cons (hs : s.Lawful) (hv : s.Live (u ++ v)) (hc : c ∈ s.offers (procs u))
    (hf : s.fault (u ++ [c]) = none) (hi : c.IndepOf v) :
    s.Live (u ++ c :: v) ∧ s.Same (u ++ v ++ [c]) (u ++ c :: v) := by
  obtain ⟨hmem, hfault⟩ := hs.offered_behind hv hc hi
  have hlive : s.Live (u ++ (v ++ [c])) := by
    rw [← List.append_assoc]
    exact ⟨hv.run.concat hmem, hfault.trans hf⟩
  have h := hs.same_of_equivalent (Equivalent.front hi []) hlive
  simpa using h

/-- The process of an operation that it aims at goes on with nothing else. -/
theorem aims_run (hs : s.Lawful) (h : s.Live (u ++ v)) (ha : s.aims u c)
    (hp : ∀ d ∈ v, d.proc ≠ c.proc) : s.aims (u ++ v) c := by
  induction v using List.reverseRecOn with
  | nil => simpa using ha
  | append_singleton v d ih =>
      rw [← List.append_assoc] at h ⊢
      have hv := hs.live_left h
      exact hs.aims_step (u ++ v) d c hv h.run.offered h.fault
        (ih hv fun e he => hp e (List.mem_append_left _ he)) (hp d (by simp))

theorem threads_mono (hs : s.Lawful) (h : s.Live (u ++ v)) : s.threads u ≤ s.threads (u ++ v) := by
  induction v using List.reverseRecOn with
  | nil => simp
  | append_singleton v d ih =>
      rw [← List.append_assoc] at h ⊢
      have hv := hs.live_left h
      exact (ih hv).trans (hs.threads_le (u ++ v) d hv h.run.offered h.fault)

end Lawful

end System

end Interleave
