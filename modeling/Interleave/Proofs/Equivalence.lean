import Interleave.Access
import Mathlib.Data.List.Perm.Lattice
import Mathlib.Logic.Relation

/-! # Equivalent interleavings

Two sequences of operations are *equivalent* if one is obtained from the other by repeatedly
swapping neighbours that are not dependent.  What a sequence starts with is then a matter of the
class: an operation can be brought to the front exactly if nothing before it is dependent with it
(`Equivalent.front`, `Equivalent.split`).

The *residue* of a sequence with respect to some operations that went before consists of what does
not depend on them, neither directly nor through other operations of the sequence.  Up to order it
is the same for equivalent sequences (`Equivalent.residue_perm`). -/

namespace Interleave

/-- Two neighbours that are not dependent change places. -/
inductive Swap : List Candidate → List Candidate → Prop
  | here {c d : Candidate} (w : List Candidate) (h : c.dependent d = false) :
      Swap (c :: d :: w) (d :: c :: w)
  | there (c : Candidate) {u v : List Candidate} (h : Swap u v) : Swap (c :: u) (c :: v)

/-- One sequence of operations is obtained from the other by repeatedly swapping neighbours that are
not dependent. -/
def Equivalent : List Candidate → List Candidate → Prop := Relation.ReflTransGen Swap

/-- The operation `c` is dependent with none of the operations of `u`. -/
def Candidate.IndepOf (c : Candidate) (u : List Candidate) : Prop :=
  ∀ d ∈ u, c.dependent d = false

namespace Candidate

theorem dependent_self (c : Candidate) : c.dependent c = true := by simp [dependent]

theorem dependent_of_proc_eq {c d : Candidate} (h : c.proc = d.proc) : c.dependent d = true := by
  simp [dependent, h]

theorem proc_ne_of_indep {c d : Candidate} (h : c.dependent d = false) : c.proc ≠ d.proc := by
  intro he
  rw [dependent_of_proc_eq he] at h
  cases h

theorem dependent_comm_false {c d : Candidate} (h : c.dependent d = false) :
    d.dependent c = false := by rwa [dependent_comm]

@[simp] theorem indepOf_nil (c : Candidate) : c.IndepOf [] := by simp [IndepOf]

@[simp] theorem indepOf_cons {c d : Candidate} {u : List Candidate} :
    c.IndepOf (d :: u) ↔ c.dependent d = false ∧ c.IndepOf u := by simp [IndepOf]

@[simp] theorem indepOf_append {c : Candidate} {u v : List Candidate} :
    c.IndepOf (u ++ v) ↔ c.IndepOf u ∧ c.IndepOf v := by
  simp only [IndepOf, List.mem_append]
  constructor
  · intro h
    exact ⟨fun d hd => h d (.inl hd), fun d hd => h d (.inr hd)⟩
  · rintro ⟨hu, hv⟩ d (hd | hd)
    · exact hu d hd
    · exact hv d hd

end Candidate

namespace Swap

theorem symm {u v : List Candidate} (h : Swap u v) : Swap v u := by
  induction h with
  | here w h => exact .here w (Candidate.dependent_comm_false h)
  | there c _ ih => exact .there c ih

theorem perm {u v : List Candidate} (h : Swap u v) : u.Perm v := by
  induction h with
  | here w _ => exact List.Perm.swap _ _ w
  | there c _ ih => exact ih.cons c

theorem append_right {u v : List Candidate} (h : Swap u v) (w : List Candidate) :
    Swap (u ++ w) (v ++ w) := by
  induction h with
  | here x h => exact .here (x ++ w) h
  | there c _ ih => exact .there c ih

theorem filter_proc {u v : List Candidate} (h : Swap u v) (p : Proc) :
    u.filter (fun c => c.proc == p) = v.filter (fun c => c.proc == p) := by
  induction h with
  | @here c d w h =>
      have hne := Candidate.proc_ne_of_indep h
      by_cases hc : c.proc = p
      · have hd : ¬ d.proc = p := fun hd => hne (hc.trans hd.symm)
        simp [hc, hd]
      · simp [List.filter_cons, hc]
  | there c _ ih => simp only [List.filter_cons, ih]

end Swap

namespace Equivalent

theorem refl (u : List Candidate) : Equivalent u u := Relation.ReflTransGen.refl

theorem trans {u v w : List Candidate} (h : Equivalent u v) (h' : Equivalent v w) :
    Equivalent u w := Relation.ReflTransGen.trans h h'

theorem of_swap {u v : List Candidate} (h : Swap u v) : Equivalent u v :=
  Relation.ReflTransGen.single h

theorem symm {u v : List Candidate} (h : Equivalent u v) : Equivalent v u := by
  induction h with
  | refl => exact refl u
  | tail _ hs ih => exact (of_swap hs.symm).trans ih

theorem cons (c : Candidate) {u v : List Candidate} (h : Equivalent u v) :
    Equivalent (c :: u) (c :: v) := by
  induction h with
  | refl => exact refl _
  | tail _ hs ih => exact ih.trans (of_swap (.there c hs))

theorem append_left (u : List Candidate) {v w : List Candidate} (h : Equivalent v w) :
    Equivalent (u ++ v) (u ++ w) := by
  induction u with
  | nil => exact h
  | cons c u ih => exact ih.cons c

theorem append_right {u v : List Candidate} (h : Equivalent u v) (w : List Candidate) :
    Equivalent (u ++ w) (v ++ w) := by
  induction h with
  | refl => exact refl _
  | tail _ hs ih => exact ih.trans (of_swap (hs.append_right w))

theorem perm {u v : List Candidate} (h : Equivalent u v) : u.Perm v := by
  induction h with
  | refl => exact List.Perm.refl u
  | tail _ hs ih => exact ih.trans hs.perm

theorem filter_proc {u v : List Candidate} (h : Equivalent u v) (p : Proc) :
    u.filter (fun c => c.proc == p) = v.filter (fun c => c.proc == p) := by
  induction h with
  | refl => rfl
  | tail _ hs ih => exact ih.trans (hs.filter_proc p)

/-! ### Bringing an operation to the front -/

theorem front {c : Candidate} {u : List Candidate} (h : c.IndepOf u) (w : List Candidate) :
    Equivalent (u ++ c :: w) (c :: (u ++ w)) := by
  induction u with
  | nil => exact refl _
  | cons d u ih =>
      obtain ⟨hd, hu⟩ := Candidate.indepOf_cons.mp h
      refine ((ih hu).cons d).trans (of_swap ?_)
      exact .here (u ++ w) (Candidate.dependent_comm_false hd)

theorem split_of_swap {c : Candidate} {u v w : List Candidate} (hu : c.IndepOf u)
    (h : Swap (u ++ c :: v) w) :
    ∃ u' v', w = u' ++ c :: v' ∧ c.IndepOf u' ∧ Equivalent (u ++ v) (u' ++ v') := by
  induction u generalizing w with
  | nil =>
      cases h with
      | @here _ d x h => exact ⟨[d], x, rfl, by simpa using h, refl _⟩
      | @there _ _ x h => exact ⟨[], x, rfl, by simp, of_swap h⟩
  | cons a u ih =>
      obtain ⟨ha, hu⟩ := Candidate.indepOf_cons.mp hu
      rw [List.cons_append] at h
      generalize hx : u ++ c :: v = x at h
      cases h with
      | @here _ d y h =>
          cases u with
          | nil =>
              obtain ⟨rfl, rfl⟩ := List.cons.inj hx
              exact ⟨[], a :: v, rfl, by simp, refl _⟩
          | cons b u =>
              obtain ⟨rfl, rfl⟩ := List.cons.inj hx
              obtain ⟨hb, hu⟩ := Candidate.indepOf_cons.mp hu
              exact ⟨b :: a :: u, v, rfl, by simp [ha, hb, hu], of_swap (.here (u ++ v) h)⟩
      | there _ h =>
          subst hx
          obtain ⟨u', v', rfl, hi, he⟩ := ih hu h
          exact ⟨a :: u', v', rfl, by simp [ha, hi], he.cons a⟩

/-- What one sequence starts with can be brought to the front of every equivalent one. -/
theorem split {c : Candidate} {u w : List Candidate} (h : Equivalent (c :: u) w) :
    ∃ w₁ w₂, w = w₁ ++ c :: w₂ ∧ c.IndepOf w₁ ∧ Equivalent u (w₁ ++ w₂) := by
  induction h with
  | refl => exact ⟨[], u, rfl, by simp, refl _⟩
  | tail _ hs ih =>
      obtain ⟨w₁, w₂, rfl, hi, he⟩ := ih
      obtain ⟨u', v', rfl, hi', he'⟩ := split_of_swap hi hs
      exact ⟨u', v', rfl, hi', he.trans he'⟩

theorem cancel_cons {c : Candidate} {u w : List Candidate} (h : Equivalent (c :: u) (c :: w)) :
    Equivalent u w := by
  obtain ⟨w₁, w₂, he, hi, hw⟩ := h.split
  cases w₁ with
  | nil =>
      obtain ⟨-, rfl⟩ := List.cons.inj he
      exact hw
  | cons d w₁ =>
      obtain ⟨rfl, -⟩ := List.cons.inj he
      have := (Candidate.indepOf_cons.mp hi).1
      rw [Candidate.dependent_self] at this
      cases this

end Equivalent

/-! ### Residues -/

/-- The operations of a sequence that depend neither on those of `behind` nor on other operations of
the sequence that do. -/
def residue (behind : List Candidate) : List Candidate → List Candidate
  | [] => []
  | d :: w =>
    if behind.any fun c => c.dependent d then residue (d :: behind) w
    else d :: residue behind w

/-- All of `behind`, together with the operations of a sequence that depend on them, directly or
through others. -/
def ordered (behind : List Candidate) : List Candidate → List Candidate
  | [] => behind
  | d :: w => ordered (if behind.any fun c => c.dependent d then d :: behind else behind) w

theorem residue_congr {b b' : List Candidate} (h : ∀ c, c ∈ b ↔ c ∈ b') (w : List Candidate) :
    residue b w = residue b' w := by
  induction w generalizing b b' with
  | nil => rfl
  | cons d w ih =>
      have he : (b.any fun c => c.dependent d) = b'.any fun c => c.dependent d := by
        apply Bool.eq_iff_iff.mpr
        simp only [List.any_eq_true, h]
      have hd : ∀ c, c ∈ d :: b ↔ c ∈ d :: b' := by simp [h]
      simp only [residue, he, ih h, ih hd]

theorem residue_append_of_indep {b u : List Candidate} (h : ∀ c ∈ b, c.IndepOf u)
    (w : List Candidate) : residue b (u ++ w) = u ++ residue b w := by
  induction u with
  | nil => rfl
  | cons d u ih =>
      have hd : (b.any fun c => c.dependent d) = false := by
        rw [List.any_eq_false]
        intro c hc
        simp [(Candidate.indepOf_cons.mp (h c hc)).1]
      have hu := ih fun c hc => (Candidate.indepOf_cons.mp (h c hc)).2
      simp only [List.cons_append, residue, hd, hu]
      simp

theorem residue_sublist (b w : List Candidate) : (residue b w).Sublist w := by
  induction w generalizing b with
  | nil => exact List.Sublist.refl _
  | cons d w ih =>
      simp only [residue]
      split
      · exact (ih _).cons d
      · exact (ih _).cons_cons d

theorem residue_append (b u w : List Candidate) :
    residue b (u ++ w) = residue b u ++ residue (ordered b u) w := by
  induction u generalizing b with
  | nil => rfl
  | cons d u ih =>
      simp only [List.cons_append, residue, ordered]
      split
      · exact ih _
      · rw [ih, List.cons_append]

theorem ordered_append (b u w : List Candidate) :
    ordered b (u ++ w) = ordered (ordered b u) w := by
  induction u generalizing b with
  | nil => rfl
  | cons d u ih => exact ih _

theorem subset_ordered (b w : List Candidate) : b ⊆ ordered b w := by
  induction w generalizing b with
  | nil => exact List.Subset.refl b
  | cons d w ih =>
      simp only [ordered]
      split
      · exact fun c hc => ih _ (List.mem_cons_of_mem d hc)
      · exact ih _

/-- Behind an operation that belongs to `ordered b`, its process contributes nothing to a residue. -/
theorem proc_notMem_residue {b : List Candidate} {e : Candidate} (he : e ∈ b)
    (w : List Candidate) : e.proc ∉ (residue b w).map Candidate.proc := by
  induction w generalizing b with
  | nil => simp [residue]
  | cons d w ih =>
      simp only [residue]
      split
      next => exact ih (List.mem_cons_of_mem d he)
      next h =>
        have hd : e.proc ≠ d.proc := by
          intro hp
          apply h
          exact List.any_eq_true.mpr ⟨e, he, Candidate.dependent_of_proc_eq hp⟩
        rw [List.map_cons, List.mem_cons, not_or]
        exact ⟨hd, ih he⟩

theorem Swap.residue_perm {u v : List Candidate} (h : Swap u v) (b : List Candidate) :
    (residue b u).Perm (residue b v) := by
  induction h generalizing b with
  | @here c d w h =>
      have hd : ((c :: b).any fun x => x.dependent d) = b.any fun x => x.dependent d := by simp [h]
      have hc : ((d :: b).any fun x => x.dependent c) = b.any fun x => x.dependent c := by
        simp [Candidate.dependent_comm_false h]
      have hcomm : residue (d :: c :: b) w = residue (c :: d :: b) w :=
        residue_congr (fun x => by simp only [List.mem_cons]; tauto) w
      simp only [residue, hd, hc, hcomm]
      split <;> split
      · exact List.Perm.refl _
      · exact List.Perm.refl _
      · exact List.Perm.refl _
      · exact List.Perm.swap _ _ _
  | there c _ ih =>
      simp only [residue]
      split
      · exact ih _
      · exact (ih _).cons c

theorem Equivalent.residue_perm {u v : List Candidate} (h : Equivalent u v) (b : List Candidate) :
    (residue b u).Perm (residue b v) := by
  induction h with
  | refl => exact List.Perm.refl _
  | tail _ hs ih => exact ih.trans (hs.residue_perm b)

end Interleave
