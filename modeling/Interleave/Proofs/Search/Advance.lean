import Interleave.Proofs.Search.Queries

/-! # On to the next execution

The next execution begins at the deepest branch where a process is still to be tried.  The search for it
passes over processes that have been tried or are asleep, but it meets none of these: whatever the reduction
has been asked, the processes still to be tried at a branch can all be tried there
(`Branch.WellFormed.next?_eq_none_iff`).  So the deepest branch that has one is taken, with its least one,
the branches above it stay as they are, and everything else is as at the start of an exploration
(`Reduction.advance_deepest`). -/

namespace Interleave

namespace ProcSet

theorem ne_empty_iff {s : ProcSet} : s ≠ .empty ↔ ∃ p, p ∈ s := by
  obtain ⟨l, hl⟩ := s
  cases l with
  | nil => simp [empty, mem_def]
  | cons p l => simp [empty, mem_def]

theorem lt_of_dropUntil {s rest : ProcSet} {f : Proc → Bool} {p : Proc}
    (h : s.dropUntil f = some (p, rest)) : ∀ q ∈ rest, p < q := by
  unfold dropUntil at h
  split at h
  next => cases h
  next p' ps heq =>
    obtain ⟨rfl, rfl⟩ : p' = p ∧ _ = rest := by simpa using h
    have hsorted := s.sorted.sublist (heq ▸ List.dropWhile_sublist (fun q => !f q))
    exact (List.pairwise_cons.mp hsorted).1

end ProcSet

namespace Branch

variable {b b' : Branch}

/-- **Something is left to try at a branch** exactly if a process is noted there. -/
theorem WellFormed.next?_eq_none_iff (hw : b.WellFormed) : b.next? = none ↔ b.backtrack = .empty := by
  constructor
  · intro h
    by_contra hne
    obtain ⟨p, hp⟩ := ProcSet.ne_empty_iff.mp hne
    obtain ⟨-, hdone, hchosen⟩ := hw.backtrack p hp
    exact (takes_of_next?_eq_none hw h (.inr (.inr hp))).elim hchosen hdone
  · intro h
    rw [Option.eq_none_iff_forall_ne_some]
    intro b' hb'
    have hmem := (switches_of_next? hw hb').mem_backtrack
    rw [h] at hmem
    exact ProcSet.not_mem_empty _ hmem

/-- The process that is tried next is the least of those still to be tried. -/
theorem WellFormed.least_of_next? (hw : b.WellFormed) (h : b.next? = some b') :
    ∀ p ∈ b.backtrack, p = b'.chosen ∨ b'.chosen < p := by
  intro p hp
  by_cases heq : p = b'.chosen
  · exact .inl heq
  · have hleft := ((switches_of_next? hw h).backtrack p).mpr ⟨hp, heq⟩
    obtain ⟨⟨q, rest⟩, hdrop, rfl⟩ := Option.map_eq_some_iff.mp h
    exact .inr (ProcSet.lt_of_dropUntil hdrop p hleft)

end Branch

namespace Path

variable {above below : List Branch} {b b' : Branch}

theorem nextBranches?_of_none (h : ∀ x ∈ below, x.next? = none) : nextBranches? below = none := by
  induction below with
  | nil => rfl
  | cons x below ih =>
      obtain ⟨hx, hbelow⟩ := List.forall_mem_cons.mp h
      rw [nextBranches?, ih hbelow, hx]
      rfl

/-- The branches above the deepest one with a process left to try stay. -/
theorem nextBranches?_of_deepest (hb : b.next? = some b') (hbelow : ∀ x ∈ below, x.next? = none) :
    nextBranches? (above ++ b :: below) = some (above ++ [b']) := by
  induction above with
  | nil =>
      rw [List.nil_append, nextBranches?, nextBranches?_of_none hbelow, hb]
      rfl
  | cons x above ih => rw [List.cons_append, nextBranches?, ih, List.cons_append]

end Path

namespace Reduction

variable {r : Reduction}

theorem maxDepth_ask (h : r.Consistent) (q : Query) : (r.ask q).maxDepth = r.maxDepth := by
  cases q with
  | schedule cs =>
      rcases h.schedule_cases cs with ⟨d, hrefuses⟩ | ⟨c, bs, hruns⟩
      · obtain ⟨blocked, bounded, hask⟩ := hrefuses.ask_eq
        rw [hask]
      · rw [hruns.ask_eq]
        rfl
  | executionFailed => rfl
  | endExecution =>
      obtain ⟨phase, heq⟩ := r.endExecution_eq
      rw [ask, heq]
  | advance =>
      rcases r.advance_cases with ⟨-, heq⟩ | ⟨-, heq⟩ | ⟨_, _, _, _, -, -, -, heq⟩ <;> rw [ask, heq]

theorem maxDepth_askAll (maxDepth : Option Nat) (qs : List Query) :
    ((start maxDepth).askAll qs).maxDepth = maxDepth := by
  induction qs using List.reverseRecOn with
  | nil => rfl
  | append_singleton qs q ih =>
      rw [askAll_concat, maxDepth_ask ((consistent_start maxDepth).askAll qs), ih]

namespace Consistent

/-- Nothing is left to try on the path exactly if no branch has a process noted. -/
theorem advance_of_empty (h : r.Consistent) (hactive : r.phase ≠ .exhausted)
    (hempty : ∀ b ∈ r.path.branches, b.backtrack = .empty) :
    r.advance = (false, { r with path := .empty, phase := .exhausted }) := by
  rcases r.advance_cases with ⟨hp, -⟩ | ⟨-, heq⟩ | ⟨above, b, b', below, hbs, hb, -, -⟩
  · exact absurd hp hactive
  · exact heq
  · have hmem : b ∈ r.path.branches := by simp [hbs]
    rw [(h.wellFormed b hmem).next?_eq_none_iff.mpr (hempty b hmem)] at hb
    cases hb

/-- **The deepest branch where a process is noted is the one where the next execution departs.** -/
theorem advance_of_deepest (h : r.Consistent) (hactive : r.phase ≠ .exhausted) {above below : List Branch}
    {b : Branch} (hbs : r.path.branches = above ++ b :: below) (hb : b.backtrack ≠ .empty)
    (hbelow : ∀ x ∈ below, x.backtrack = .empty) :
    ∃ b', b.next? = some b' ∧
      r.advance = (true, { start r.maxDepth with path.branches := above ++ [b'] }) := by
  have hwf : ∀ x ∈ above ++ b :: below, x.WellFormed := hbs ▸ h.wellFormed
  have hnext : ∀ x ∈ below, x.next? = none := fun x hx =>
    (hwf x (by simp [hx])).next?_eq_none_iff.mpr (hbelow x hx)
  obtain ⟨b', hb'⟩ := Option.ne_none_iff_exists'.mp
    (mt (hwf b (by simp)).next?_eq_none_iff.mp hb)
  refine ⟨b', hb', ?_⟩
  have hbranches : Path.nextBranches? r.path.branches = some (above ++ [b']) := by
    rw [hbs, Path.nextBranches?_of_deepest hb' hnext]
  rw [advance_of_some hactive hbranches]
  rfl

end Consistent

/-! ### The main result -/

/-- **The next execution departs from the deepest branch with a process left to try, and leaves what is above
it alone.**  Whatever the reduction has been asked, unless it is exhausted: there is a next execution if and
only if some branch of the path has a process noted.  For the deepest such branch, the new path has the
branches above it unchanged, and behind them this branch with its least process chosen, which is no longer
noted, while the process chosen before counts as tried; all else is as at the start of an exploration.
Otherwise the path is given up and the reduction is exhausted. -/
theorem advance_deepest (maxDepth : Option Nat) (qs : List Query)
    (hactive : ((start maxDepth).askAll qs).phase ≠ .exhausted) :
    let r := (start maxDepth).askAll qs
    (r.advance.1 = true ↔ ∃ b ∈ r.path.branches, b.backtrack ≠ .empty) ∧
    (∀ above b below, r.path.branches = above ++ b :: below → b.backtrack ≠ .empty →
      (∀ x ∈ below, x.backtrack = .empty) →
      ∃ b', r.advance = (true, { start maxDepth with path.branches := above ++ [b'] }) ∧
        b.Switches b' ∧ ∀ p ∈ b.backtrack, p = b'.chosen ∨ b'.chosen < p) ∧
    ((∀ b ∈ r.path.branches, b.backtrack = .empty) →
      r.advance = (false, { r with path := .empty, phase := .exhausted })) := by
  intro r
  have hr : r.Consistent := (consistent_start maxDepth).askAll qs
  have hdepth : r.maxDepth = maxDepth := maxDepth_askAll maxDepth qs
  have hdeepest : ∀ above b below, r.path.branches = above ++ b :: below → b.backtrack ≠ .empty →
      (∀ x ∈ below, x.backtrack = .empty) →
      ∃ b', r.advance = (true, { start maxDepth with path.branches := above ++ [b'] }) ∧
        b.Switches b' ∧ ∀ p ∈ b.backtrack, p = b'.chosen ∨ b'.chosen < p := by
    intro above b below hbs hb hbelow
    obtain ⟨b', hb', hadvance⟩ := hr.advance_of_deepest hactive hbs hb hbelow
    have hw : b.WellFormed := hr.wellFormed b (by simp [hbs])
    rw [hdepth] at hadvance
    exact ⟨b', hadvance, Branch.switches_of_next? hw hb', hw.least_of_next? hb'⟩
  refine ⟨⟨fun htrue => ?_, fun ⟨b, hb, hne⟩ => ?_⟩, hdeepest, hr.advance_of_empty hactive⟩
  · by_contra hnone
    have hempty : ∀ b ∈ r.path.branches, b.backtrack = .empty := fun b hb =>
      by_contra fun hne => hnone ⟨b, hb, hne⟩
    rw [hr.advance_of_empty hactive hempty] at htrue
    cases htrue
  · rcases r.advance_cases with ⟨hp, -⟩ | ⟨hnext, -⟩ | ⟨above, b₁, b', below, -, -, -, hadvance⟩
    · exact absurd hp hactive
    · exact absurd ((hr.wellFormed b hb).next?_eq_none_iff.mp (hnext b hb)) hne
    · rw [hadvance]

/-- An execution of three threads that store to one cell. -/
def threeStores : List Query :=
  [.schedule [⟨.thread 0, .write 8⟩, ⟨.thread 1, .write 8⟩, ⟨.thread 2, .write 8⟩],
    .schedule [⟨.thread 1, .write 8⟩, ⟨.thread 2, .write 8⟩], .schedule [⟨.thread 2, .write 8⟩],
    .endExecution]

/-- The second and the third store are noted at the branch of the first one, and the third also at the branch
of the second one, where the next execution departs. -/
theorem advance_deepest_stores :
    let first : Branch := ⟨[⟨.thread 0, .write 8⟩, ⟨.thread 1, .write 8⟩, ⟨.thread 2, .write 8⟩], [],
      .thread 0, .ofList [.thread 1, .thread 2], .empty⟩
    let second : Branch :=
      ⟨[⟨.thread 1, .write 8⟩, ⟨.thread 2, .write 8⟩], [], .thread 1, .ofList [.thread 2], .empty⟩
    let third : Branch := ⟨[⟨.thread 2, .write 8⟩], [], .thread 2, .empty, .empty⟩
    ((start none).askAll threeStores).phase ≠ .exhausted ∧
      ((start none).askAll threeStores).path.branches = [first, second, third] ∧
      ∃ b', ((start none).askAll threeStores).advance =
          (true, { start none with path.branches := [first, b'] }) ∧
        second.Switches b' ∧ b'.chosen = .thread 2 := by
  intro first second third
  have hactive : ((start none).askAll threeStores).phase ≠ .exhausted := by decide +kernel
  have hbranches : ((start none).askAll threeStores).path.branches = [first, second, third] := by
    decide +kernel
  obtain ⟨-, hdeepest, -⟩ := advance_deepest none threeStores hactive
  obtain ⟨b', hadvance, hswitches, -⟩ := hdeepest [first] second [third] hbranches (by decide)
    (List.forall_mem_singleton.mpr rfl)
  refine ⟨hactive, hbranches, b', hadvance, hswitches, ?_⟩
  simpa [second, ProcSet.ofList] using hswitches.mem_backtrack

end Reduction

end Interleave
