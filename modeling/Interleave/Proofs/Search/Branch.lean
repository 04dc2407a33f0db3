import Interleave.Search.Path
import Mathlib.Data.List.Nodup
import Mathlib.Data.List.TakeWhile

/-! # Scheduling points of an exploration

What holds of a branch whatever is requested there (`Branch.WellFormed`): the chosen process, those
still to be tried and those already tried are enabled and awake, and no process is in two of these
roles.  While an execution lasts a branch only grows: requests add processes to its backtrack set
(`Branch.Grows`).  A request is answered in one of two ways (`Branch.Answers`): the process itself
is taken, or all that can be taken are. -/

namespace Interleave

namespace ProcSet

theorem dropUntil_eq_none {s : ProcSet} {f : Proc → Bool} (h : s.dropUntil f = none) :
    ∀ p ∈ s, f p = false := by
  unfold dropUntil at h
  split at h
  next heq =>
    intro p hp
    have := List.dropWhile_eq_nil_iff.mp heq p hp
    simpa using this
  next => simp at h

theorem dropUntil_eq_some {s rest : ProcSet} {f : Proc → Bool} {p : Proc}
    (h : s.dropUntil f = some (p, rest)) :
    p ∈ s ∧ f p = true ∧ (∀ q ∈ rest, q ∈ s ∧ q ≠ p) ∧ ∀ q ∈ s, f q = true → q = p ∨ q ∈ rest := by
  unfold dropUntil at h
  split at h
  next => simp at h
  next p' ps heq =>
    obtain ⟨rfl, rfl⟩ : p' = p ∧ _ = rest := by simpa using h
    have hsub : List.Sublist (p' :: ps) s.toList := heq ▸ List.dropWhile_sublist _
    have hlt := (List.pairwise_cons.mp (s.sorted.sublist hsub)).1
    refine ⟨hsub.subset (by simp), ?_, fun q hq => ⟨hsub.subset (by simp [mem_def.mp hq]), ?_⟩,
      fun q hq hf => ?_⟩
    · have := List.head_dropWhile_not (fun q => !f q) (l := s.toList) (by simp [heq])
      simpa [heq] using this
    · rintro rfl
      exact Proc.lt_irrefl q (hlt q hq)
    · rw [mem_def, ← List.takeWhile_append_dropWhile (p := fun q => !f q) (l := s.toList),
        heq, List.mem_append] at hq
      rcases hq with hq | hq
      · have := List.mem_takeWhile_imp hq
        simp [hf] at this
      · exact List.mem_cons.mp hq

end ProcSet

namespace Branch

/-- The process could do something here, and doing it is not known to be redundant. -/
def Awake (b : Branch) (p : Proc) : Prop := b.isEnabled p = true ∧ b.isAsleep p = false

/-- The roles that processes have at a branch fit together. -/
structure WellFormed (b : Branch) : Prop where
  chosen_awake : b.Awake b.chosen
  chosen_notMem_done : ¬ b.chosen ∈ b.done
  backtrack : ∀ p ∈ b.backtrack, b.Awake p ∧ ¬ p ∈ b.done ∧ p ≠ b.chosen
  done_awake : ∀ p ∈ b.done, b.Awake p

/-- The process has been tried here, is being tried or still will be. -/
def Takes (b : Branch) (p : Proc) : Prop := p = b.chosen ∨ p ∈ b.done ∨ p ∈ b.backtrack

/-- Every process that could run here to some purpose is taken. -/
def TakesAll (b : Branch) : Prop := ∀ p, b.Awake p → b.Takes p

/-- A request for the process has had its effect. -/
def Answers (b : Branch) (p : Proc) : Prop := b.Takes p ∨ b.TakesAll

/-- Requests turn `b` into `b'`: fresh enabled processes are added to the backtrack set. -/
structure Grows (b b' : Branch) : Prop where
  candidates : b'.candidates = b.candidates
  sleep : b'.sleep = b.sleep
  chosen : b'.chosen = b.chosen
  done : b'.done = b.done
  keeps : ∀ p ∈ b.backtrack, p ∈ b'.backtrack
  adds : ∀ p ∈ b'.backtrack, p ∈ b.backtrack ∨ b.isEnabled p = true ∧ b.isFresh p = true

theorem isEnabled_iff {b : Branch} {p : Proc} :
    b.isEnabled p = true ↔ ∃ c ∈ b.candidates, c.proc = p := by
  simp [isEnabled, candidate?]

theorem isAsleep_iff {b : Branch} {p : Proc} :
    b.isAsleep p = true ↔ ∃ c ∈ b.sleep, c.proc = p := by
  simp [isAsleep]

theorem isFresh_iff {b : Branch} {p : Proc} :
    b.isFresh p = true ↔ ¬ b.Takes p ∧ b.isAsleep p = false := by
  simp [isFresh, Takes, and_assoc]

theorem mem_of_candidate? {b : Branch} {p : Proc} {c : Candidate} (h : b.candidate? p = some c) :
    c ∈ b.candidates ∧ c.proc = p :=
  ⟨List.mem_of_find?_eq_some h, by simpa using List.find?_some h⟩

/-! ### Growth -/

namespace Grows

theorem refl (b : Branch) : Grows b b := ⟨rfl, rfl, rfl, rfl, fun _ h => h, fun _ h => .inl h⟩

variable {b b' : Branch}

theorem isEnabled (h : Grows b b') (p : Proc) : b'.isEnabled p = b.isEnabled p := by
  simp [Branch.isEnabled, candidate?, h.candidates]

theorem isAsleep (h : Grows b b') (p : Proc) : b'.isAsleep p = b.isAsleep p := by
  simp [Branch.isAsleep, h.sleep]

theorem awake (h : Grows b b') {p : Proc} : b'.Awake p ↔ b.Awake p := by
  simp [Awake, h.isEnabled, h.isAsleep]

theorem takes (h : Grows b b') {p : Proc} (hp : b.Takes p) : b'.Takes p := by
  rcases hp with hp | hp | hp
  · exact .inl (by rw [h.chosen, hp])
  · exact .inr (.inl (by rwa [h.done]))
  · exact .inr (.inr (h.keeps p hp))

theorem takesAll (h : Grows b b') (ha : b.TakesAll) : b'.TakesAll :=
  fun p hp => h.takes (ha p (h.awake.mp hp))

theorem answers (h : Grows b b') {p : Proc} (hp : b.Answers p) : b'.Answers p :=
  hp.imp h.takes h.takesAll

theorem trans {b'' : Branch} (h : Grows b b') (h' : Grows b' b'') : Grows b b'' where
  candidates := h'.candidates.trans h.candidates
  sleep := h'.sleep.trans h.sleep
  chosen := h'.chosen.trans h.chosen
  done := h'.done.trans h.done
  keeps p hp := h'.keeps p (h.keeps p hp)
  adds p hp := by
    rcases h'.adds p hp with hp | ⟨he, hf⟩
    · exact h.adds p hp
    · rw [isFresh_iff, h.isAsleep] at hf
      rw [h.isEnabled] at he
      exact .inr ⟨he, isFresh_iff.mpr ⟨fun ht => hf.1 (h.takes ht), hf.2⟩⟩

theorem wellFormed (h : Grows b b') (hw : b.WellFormed) : b'.WellFormed where
  chosen_awake := by rw [h.chosen, h.awake]; exact hw.chosen_awake
  chosen_notMem_done := by rw [h.chosen, h.done]; exact hw.chosen_notMem_done
  backtrack p hp := by
    rw [h.awake, h.done, h.chosen]
    rcases h.adds p hp with hp | ⟨he, hf⟩
    · exact hw.backtrack p hp
    · obtain ⟨ht, hs⟩ := isFresh_iff.mp hf
      exact ⟨⟨he, hs⟩, fun hd => ht (.inr (.inl hd)), fun hc => ht (.inl hc)⟩
  done_awake p hp := by rw [h.awake]; exact hw.done_awake p (h.done ▸ hp)

theorem candidate? (h : Grows b b') : b'.candidate? b'.chosen = b.candidate? b.chosen := by
  simp [Branch.candidate?, h.candidates, h.chosen]

theorem sleepAfter (h : Grows b b') : b'.sleepAfter = b.sleepAfter := by
  simp only [Branch.sleepAfter, Branch.candidate?, h.candidates, h.sleep, h.chosen, h.done]

end Grows

/-! ### Requests -/

theorem grows_requestAll (b : Branch) : Grows b b.requestAll where
  candidates := rfl
  sleep := rfl
  chosen := rfl
  done := rfl
  keeps p hp := by simp [requestAll, hp]
  adds p hp := by
    simp only [requestAll, ProcSet.mem_insertAll, List.mem_filter, List.mem_map] at hp
    rcases hp with ⟨hc, hf⟩ | hp
    · exact .inr ⟨isEnabled_iff.mpr hc, hf⟩
    · exact .inl hp

theorem takesAll_requestAll (b : Branch) : b.requestAll.TakesAll := by
  intro p hp
  rw [b.grows_requestAll.awake] at hp
  by_cases ht : b.Takes p
  · exact b.grows_requestAll.takes ht
  · have hf : b.isFresh p = true := isFresh_iff.mpr ⟨ht, hp.2⟩
    have hmem : p ∈ b.candidates.map Candidate.proc := by
      simpa using isEnabled_iff.mp hp.1
    exact .inr (.inr (by simp [requestAll, hmem, hf]))

theorem grows_request (b : Branch) (p : Proc) : Grows b (b.request p) := by
  unfold request
  split
  next => exact b.grows_requestAll
  next hrun =>
    split
    next hf =>
      refine ⟨rfl, rfl, rfl, rfl, fun q hq => by simp [hq], fun q hq => ?_⟩
      rcases ProcSet.mem_insert.mp hq with rfl | hq
      · exact .inr ⟨by simp_all, hf⟩
      · exact .inl hq
    next => exact .refl b

theorem answers_request (b : Branch) (p : Proc) : (b.request p).Answers p := by
  unfold request
  split
  next => exact .inr b.takesAll_requestAll
  next hrun =>
    have hs : b.isAsleep p = false := by simp_all
    split
    next => exact .inl (.inr (.inr (by simp)))
    next hf =>
      by_cases ht : b.Takes p
      · exact .inl ht
      · exact absurd (isFresh_iff.mpr ⟨ht, hs⟩) hf

/-! ### Going on to the next process -/

theorem takes_of_next?_eq_none {b : Branch} (hw : b.WellFormed) (h : b.next? = none) {p : Proc}
    (hp : b.Takes p) : p = b.chosen ∨ p ∈ b.done := by
  rcases hp with hp | hp | hp
  · exact .inl hp
  · exact .inr hp
  · simp only [next?, Option.map_eq_none_iff] at h
    have := ProcSet.dropUntil_eq_none h p hp
    obtain ⟨ha, hd, hc⟩ := hw.backtrack p hp
    simp [hd, hc, ha.2] at this

/-- What going on to the next process does to a branch. -/
structure Switches (b b' : Branch) : Prop where
  candidates : b'.candidates = b.candidates
  sleep : b'.sleep = b.sleep
  done : b'.done = b.done.insert b.chosen
  mem_backtrack : b'.chosen ∈ b.backtrack
  backtrack : ∀ p, p ∈ b'.backtrack ↔ p ∈ b.backtrack ∧ p ≠ b'.chosen

theorem switches_of_next? {b b' : Branch} (hw : b.WellFormed) (h : b.next? = some b') :
    Switches b b' := by
  simp only [next?, Option.map_eq_some_iff] at h
  obtain ⟨⟨p, rest⟩, hdrop, rfl⟩ := h
  obtain ⟨hp, -, hrest, hall⟩ := ProcSet.dropUntil_eq_some hdrop
  refine ⟨rfl, rfl, rfl, hp, fun q => ⟨hrest q, fun ⟨hq, hne⟩ => ?_⟩⟩
  obtain ⟨ha, hd, hc⟩ := hw.backtrack q hq
  exact (hall q hq (by simp [hd, hc, ha.2])).resolve_left hne

namespace Switches

variable {b b' : Branch}

theorem awake (h : Switches b b') {p : Proc} : b'.Awake p ↔ b.Awake p := by
  simp [Awake, isEnabled, isAsleep, candidate?, h.candidates, h.sleep]

theorem takes (h : Switches b b') {p : Proc} (hp : b.Takes p) : b'.Takes p := by
  rcases hp with rfl | hp | hp
  · exact .inr (.inl (by simp [h.done]))
  · exact .inr (.inl (by simp [h.done, hp]))
  · by_cases hc : p = b'.chosen
    · exact .inl hc
    · exact .inr (.inr ((h.backtrack p).mpr ⟨hp, hc⟩))

theorem takesAll (h : Switches b b') (ha : b.TakesAll) : b'.TakesAll :=
  fun p hp => h.takes (ha p (h.awake.mp hp))

theorem answers (h : Switches b b') {p : Proc} (hp : b.Answers p) : b'.Answers p :=
  hp.imp h.takes h.takesAll

theorem wellFormed (h : Switches b b') (hw : b.WellFormed) : b'.WellFormed where
  chosen_awake := h.awake.mpr (hw.backtrack _ h.mem_backtrack).1
  chosen_notMem_done := by
    obtain ⟨-, hd, hc⟩ := hw.backtrack _ h.mem_backtrack
    simp [h.done, hd, hc]
  backtrack p hp := by
    obtain ⟨hp, hne⟩ := (h.backtrack p).mp hp
    obtain ⟨ha, hd, hc⟩ := hw.backtrack p hp
    exact ⟨h.awake.mpr ha, by simp [h.done, hd, hc], hne⟩
  done_awake p hp := by
    rw [h.done, ProcSet.mem_insert] at hp
    rcases hp with rfl | hp
    · exact h.awake.mpr hw.chosen_awake
    · exact h.awake.mpr (hw.done_awake p hp)

end Switches

theorem wellFormed_start {cs sleep : List Candidate} {p : Proc} (hp : p ∈ cs.map Candidate.proc)
    (hs : ¬ p ∈ sleep.map Candidate.proc) : (start cs sleep p).WellFormed where
  chosen_awake := by
    refine ⟨isEnabled_iff.mpr (List.mem_map.mp hp), ?_⟩
    rw [← Bool.not_eq_true, isAsleep_iff]
    simpa [start] using hs
  chosen_notMem_done := by simp [start]
  backtrack p hp := by simp [start] at hp
  done_awake p hp := by simp [start] at hp

end Branch

end Interleave
