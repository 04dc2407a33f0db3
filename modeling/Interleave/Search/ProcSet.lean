import Interleave.Proc

/-! # Sets of processes

A set of processes is kept as a strictly increasing list, so the least member is its first. -/

namespace Interleave

/-- Put a process into an increasing list. -/
def insertOrdered (p : Proc) : List Proc → List Proc
  | [] => [p]
  | q :: qs =>
    if p = q then q :: qs
    else if p < q then p :: q :: qs
    else q :: insertOrdered p qs

theorem mem_insertOrdered {p q : Proc} {l : List Proc} :
    q ∈ insertOrdered p l ↔ q = p ∨ q ∈ l := by
  induction l with
  | nil => simp [insertOrdered]
  | cons r l ih =>
    simp only [insertOrdered]
    split
    next h => subst h; simp
    next =>
      split
      · simp
      · simp only [List.mem_cons, ih]; grind

theorem pairwise_insertOrdered {p : Proc} {l : List Proc} (h : l.Pairwise (· < ·)) :
    (insertOrdered p l).Pairwise (· < ·) := by
  induction l with
  | nil => simp [insertOrdered]
  | cons r l ih =>
    obtain ⟨hr, hl⟩ := List.pairwise_cons.mp h
    simp only [insertOrdered]
    split
    next => exact h
    next hne =>
      split
      next hlt =>
        refine List.pairwise_cons.mpr ⟨fun q hq => ?_, h⟩
        rcases List.mem_cons.mp hq with rfl | hq
        · exact hlt
        · exact Proc.lt_trans hlt (hr q hq)
      next hge =>
        refine List.pairwise_cons.mpr ⟨fun q hq => ?_, ih hl⟩
        rcases mem_insertOrdered.mp hq with rfl | hq
        · rcases Proc.lt_or_eq_or_gt q r with h' | h' | h'
          · exact absurd h' hge
          · exact absurd h' hne
          · exact h'
        · exact hr q hq

/-- A set of processes. -/
structure ProcSet where
  toList : List Proc
  sorted : toList.Pairwise (· < ·)
deriving DecidableEq

namespace ProcSet

/-- The set without members. -/
def empty : ProcSet := ⟨[], .nil⟩

instance : Inhabited ProcSet := ⟨empty⟩

instance : Membership Proc ProcSet := ⟨fun s p => p ∈ s.toList⟩

instance (p : Proc) (s : ProcSet) : Decidable (p ∈ s) := inferInstanceAs (Decidable (p ∈ s.toList))

/-- Put a process into a set. -/
def insert (s : ProcSet) (p : Proc) : ProcSet :=
  ⟨insertOrdered p s.toList, pairwise_insertOrdered s.sorted⟩

/-- Put all processes of a list into a set. -/
def insertAll (s : ProcSet) (ps : List Proc) : ProcSet := ps.foldl insert s

/-- The set of the processes in a list. -/
def ofList (ps : List Proc) : ProcSet := empty.insertAll ps

theorem mem_def {p : Proc} {s : ProcSet} : p ∈ s ↔ p ∈ s.toList := Iff.rfl

@[simp] theorem not_mem_empty (p : Proc) : ¬ p ∈ empty := by simp [mem_def, empty]

@[simp] theorem mem_insert {p q : Proc} {s : ProcSet} : q ∈ s.insert p ↔ q = p ∨ q ∈ s :=
  mem_insertOrdered

@[simp] theorem mem_insertAll {q : Proc} {s : ProcSet} {ps : List Proc} :
    q ∈ s.insertAll ps ↔ q ∈ ps ∨ q ∈ s := by
  induction ps generalizing s with
  | nil => simp [insertAll]
  | cons p ps ih =>
    have := ih (s := s.insert p)
    simp only [insertAll, List.foldl_cons] at this ⊢
    rw [this, mem_insert, List.mem_cons]
    grind

/-- The members from the first one with property `p` on; those in front of it are dropped. -/
def dropUntil (s : ProcSet) (p : Proc → Bool) : Option (Proc × ProcSet) :=
  match h : s.toList.dropWhile (!p ·) with
  | [] => none
  | q :: qs =>
    some (q, ⟨qs, (List.pairwise_cons.mp (h ▸ s.sorted.sublist (List.dropWhile_sublist _))).2⟩)

end ProcSet

end Interleave
