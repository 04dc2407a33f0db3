import Interleave.Proofs.Equivalence
import Interleave.Search.Reduction
import Mathlib.Data.List.Induction
import Mathlib.Order.MinMax

/-! # What the clocks of a history order

The clocks of a history order an operation only behind operations on which it depends, directly or
through others (`mem_ordered_of_happensBefore`).  Together with the residues of `Equivalence` this
says when a race is seen: in a sequence that is equivalent to one in which `y` comes first, where
`y` is independent of an operation `p` that went before, the next operation of a process that has
not got beyond its part of `y` is not ordered behind `p` (`not_happensBefore_clockOf`). -/

namespace Interleave

namespace Clock

/-- Joining clocks one by one: an entry is that of the first clock or of one that was joined. -/
theorem get_foldl_join (keep : Operated → Bool) (h : History) (k : Clock) (i : Nat) :
    ((h.foldl (fun k e => if keep e then k.join e.clock else k) k).get i = k.get i ∨
      ∃ e ∈ h, keep e = true ∧
        (h.foldl (fun k e => if keep e then k.join e.clock else k) k).get i = e.clock.get i) := by
  induction h generalizing k with
  | nil => exact .inl rfl
  | cons e h ih =>
      simp only [List.foldl_cons]
      rcases ih (if keep e then k.join e.clock else k) with hk | ⟨f, hf, hkeep, hk⟩
      · rw [hk]
        by_cases he : keep e = true
        · rw [if_pos he, get_join]
          rcases max_choice (k.get i) (e.clock.get i) with hm | hm
          · exact .inl hm
          · exact .inr ⟨e, List.mem_cons_self, he, hm⟩
        · rw [if_neg he]
          exact .inl rfl
      · exact .inr ⟨f, List.mem_cons_of_mem e hf, hkeep, hk⟩

theorem get_le_foldl_join (keep : Operated → Bool) (h : History) (k : Clock) (i : Nat) :
    k.get i ≤ (h.foldl (fun k e => if keep e then k.join e.clock else k) k).get i := by
  induction h generalizing k with
  | nil => exact le_rfl
  | cons e h ih =>
      simp only [List.foldl_cons]
      refine le_trans ?_ (ih _)
      split
      · rw [get_join]
        exact le_max_left _ _
      · exact le_rfl

theorem get_le_foldl_join_of_mem (keep : Operated → Bool) {h : History} (k : Clock) (i : Nat)
    {e : Operated} (he : e ∈ h) (hk : keep e = true) :
    e.clock.get i ≤ (h.foldl (fun k e => if keep e then k.join e.clock else k) k).get i := by
  induction h generalizing k with
  | nil => cases he
  | cons f h ih =>
      simp only [List.foldl_cons]
      rcases List.mem_cons.mp he with rfl | he
      · refine le_trans ?_ (get_le_foldl_join keep h _ i)
        rw [if_pos hk, get_join]
        exact le_max_right _ _
      · exact ih _ he

end Clock

namespace History

/-! ### The operations of a history -/

/-- The history in which the given operations were performed one after the other. -/
def ofOps (ops : List Candidate) : History := ops.foldl record []

@[simp] theorem ofOps_nil : ofOps [] = [] := rfl

theorem ofOps_concat (ops : List Candidate) (c : Candidate) :
    ofOps (ops ++ [c]) = (ofOps ops).record c := by simp [ofOps]

@[simp] theorem map_candidate_ofOps (ops : List Candidate) :
    (ofOps ops).map Operated.candidate = ops := by
  induction ops using List.reverseRecOn with
  | nil => rfl
  | append_singleton ops c ih => simp [ofOps_concat, record, ih]

@[simp] theorem length_ofOps (ops : List Candidate) : (ofOps ops).length = ops.length := by
  rw [← List.length_map Operated.candidate, map_candidate_ofOps]

theorem ofOps_prefix (ops rest : List Candidate) : ofOps ops <+: ofOps (ops ++ rest) := by
  induction rest using List.reverseRecOn with
  | nil => simp
  | append_singleton rest c ih =>
      rw [← List.append_assoc, ofOps_concat]
      exact ih.trans (List.prefix_append _ _)

/-! ### Where an entry of a clock comes from -/

/-- The clock that a process starts from is that of an operation on which its next one depends. -/
theorem clockOf_cases (h : History) (p : Proc) :
    h.clockOf p = .empty ∨
      ∃ e ∈ h, (e.candidate.proc = p ∨ e.candidate.access = .spawn p.owner) ∧
        h.clockOf p = e.clock := by
  unfold clockOf
  split
  next e he =>
    refine .inr ⟨e, List.mem_reverse.mp (List.mem_of_find?_eq_some he), ?_, rfl⟩
    have := List.find?_some he
    simpa using this
  next => exact .inl rfl

theorem dependent_of_source {e c : Candidate}
    (h : e.proc = c.proc ∨ e.access = .spawn c.proc.owner) : e.dependent c = true := by
  rcases h with h | h
  · exact Candidate.dependent_of_proc_eq h
  · simp [Candidate.dependent, Candidate.bearsOn, Access.concerns, h]

theorem mem_waiting {h : History} {t : Nat} {k : Clock} (hk : k ∈ h.waiting t) :
    ∃ e ∈ h, e.candidate.proc = .thread t ∧ e.candidate.access.isEnqueue = true ∧ e.clock = k := by
  induction h using List.reverseRecOn with
  | nil => simp [waiting] at hk
  | append_singleton h e ih =>
      have hcons : k ∈ waiting h t → ∃ f ∈ h ++ [e], f.candidate.proc = .thread t ∧
          f.candidate.access.isEnqueue = true ∧ f.clock = k := by
        intro hk
        obtain ⟨f, hf, hp⟩ := ih hk
        exact ⟨f, List.mem_append_left _ hf, hp⟩
      have hstep : waiting (h ++ [e]) t =
          if e.candidate.proc == .flush t then (waiting h t).tail
          else if e.candidate.proc == .thread t && e.candidate.access.isEnqueue then
            waiting h t ++ [e.clock]
          else waiting h t := by simp [waiting]
      rw [hstep] at hk
      split at hk
      next => exact hcons (List.mem_of_mem_tail hk)
      next =>
        split at hk
        next he =>
          rcases List.mem_append.mp hk with hk | hk
          · exact hcons hk
          · simp only [Bool.and_eq_true, beq_iff_eq] at he
            exact ⟨e, by simp, he.1, he.2, (List.mem_singleton.mp hk).symm⟩
        next => exact hcons hk

theorem dependent_of_waiting {e c : Candidate} {t : Nat} (he : e.proc = .thread t)
    (ha : e.access.isEnqueue = true) (hc : c.proc = .flush t) : e.dependent c = true := by
  simp [Candidate.dependent, Candidate.bearsOn, he, ha, hc]

/-- A new clock before the operation itself is counted in it. -/
def joinedAt (h : History) (c : Candidate) : Clock :=
  h.foldl (fun k e => if orders e c then k.join e.clock else k) (h.clockOf c.proc)

theorem clockAt_thread {h : History} {c : Candidate} {t : Nat} (hc : c.proc = .thread t) :
    h.clockAt c = (h.joinedAt c).tick c.proc.index := by
  simp only [clockAt, joinedAt, hc]

theorem clockAt_flush {h : History} {c : Candidate} {t : Nat} (hc : c.proc = .flush t) :
    h.clockAt c =
      (((h.waiting t).head?.map (h.joinedAt c).join).getD (h.joinedAt c)).tick c.proc.index := by
  simp only [clockAt, joinedAt, hc]

/-- The entry of a new clock for another process comes from an operation on which the new one
depends. -/
theorem get_clockAt_cases (h : History) (c : Candidate) {i : Nat} (hi : i ≠ c.proc.index) :
    (h.clockAt c).get i = 0 ∨
      ∃ e ∈ h, e.candidate.dependent c = true ∧ (h.clockAt c).get i = e.clock.get i := by
  have hfrom : (h.joinedAt c).get i = 0 ∨
      ∃ e ∈ h, e.candidate.dependent c = true ∧ (h.joinedAt c).get i = e.clock.get i := by
    unfold joinedAt
    rcases Clock.get_foldl_join (orders · c) h (h.clockOf c.proc) i with hk | ⟨e, he, ho, hk⟩
    · rcases h.clockOf_cases c.proc with ho | ⟨e, he, hs, ho⟩
      · exact .inl (by rw [hk, ho, Clock.get_empty])
      · exact .inr ⟨e, he, dependent_of_source hs, by rw [hk, ho]⟩
    · simp only [orders, Bool.and_eq_true] at ho
      exact .inr ⟨e, he, ho.2, hk⟩
  cases hp : c.proc with
  | thread t =>
      rw [clockAt_thread hp, Clock.get_tick, if_neg hi]
      exact hfrom
  | flush t =>
      rw [clockAt_flush hp, Clock.get_tick, if_neg hi]
      cases hw : (h.waiting t).head? with
      | none => exact hfrom
      | some k =>
          obtain ⟨e, he, het, hea, rfl⟩ := mem_waiting (List.mem_of_mem_head? hw)
          rw [Option.map_some, Option.getD_some, Clock.get_join]
          rcases max_choice ((h.joinedAt c).get i) (e.clock.get i) with hm | hm
          · rw [hm]
            exact hfrom
          · rw [hm]
            exact .inr ⟨e, he, dependent_of_waiting het hea hp, rfl⟩

theorem get_joinedAt_lt (h : History) (c : Candidate) :
    (h.joinedAt c).get c.proc.index < (h.clockAt c).get c.proc.index := by
  cases hp : c.proc with
  | thread t =>
      rw [clockAt_thread hp, ← hp, Clock.get_tick, if_pos rfl]
      exact Nat.lt_succ_self _
  | flush t =>
      rw [clockAt_flush hp, ← hp, Clock.get_tick, if_pos rfl]
      cases (h.waiting t).head? with
      | none => exact Nat.lt_succ_self _
      | some k =>
          rw [Option.map_some, Option.getD_some, Clock.get_join]
          exact Nat.lt_succ_of_le (le_max_left _ _)

/-- The own entry of a new clock is beyond that of every operation behind which it is ordered. -/
theorem get_lt_clockAt {h : History} {c : Candidate} {e : Operated} (he : e ∈ h)
    (ho : orders e c = true) : e.clock.get c.proc.index < (h.clockAt c).get c.proc.index :=
  lt_of_le_of_lt
    (Clock.get_le_foldl_join_of_mem (orders · c) (h.clockOf c.proc) c.proc.index he ho)
    (h.get_joinedAt_lt c)

theorem get_clockAt_pos (h : History) (c : Candidate) :
    0 < (h.clockAt c).get c.proc.index := lt_of_le_of_lt (Nat.zero_le _) (h.get_joinedAt_lt c)

/-- Only threads put stores into a buffer. -/
def ThreadsEnqueue (ops : List Candidate) : Prop :=
  ∀ c ∈ ops, c.access.isEnqueue = true → ∃ t, c.proc = .thread t

theorem get_le_own (ops : List Candidate) :
    ∀ e ∈ ofOps ops, ∀ p : Proc, e.clock.get p.index = 0 ∨
      ∃ f ∈ ofOps ops, f.candidate.proc = p ∧ e.clock.get p.index ≤ f.clock.get p.index := by
  induction ops using List.reverseRecOn with
  | nil => simp
  | append_singleton ops c ih =>
      rw [ofOps_concat, record]
      intro e he p
      have hold : ∀ e ∈ ofOps ops, e.clock.get p.index = 0 ∨
          ∃ f ∈ ofOps ops ++ [⟨c, (ofOps ops).clockAt c⟩], f.candidate.proc = p ∧
            e.clock.get p.index ≤ f.clock.get p.index := by
        intro e he
        rcases ih e he p with h0 | ⟨f, hf, hp, hle⟩
        · exact .inl h0
        · exact .inr ⟨f, List.mem_append_left _ hf, hp, hle⟩
      rcases List.mem_append.mp he with he | he
      · exact hold e he
      · rw [List.mem_singleton.mp he]
        by_cases hp : c.proc = p
        · exact .inr ⟨_, List.mem_append_right _ (by simp), hp, le_rfl⟩
        · have hi : p.index ≠ c.proc.index := fun hi => hp (Proc.index_injective hi).symm
          rcases get_clockAt_cases (ofOps ops) c hi with h0 | ⟨f, hf, -, hk⟩
          · exact .inl h0
          · rw [hk]
            exact hold f hf

/-- An operation does not happen before anything that went before it. -/
theorem get_lt_of_mem {ops : List Candidate} {c : Candidate} (hops : ThreadsEnqueue ops)
    {e : Operated} (he : e ∈ ofOps ops) :
    e.clock.get c.proc.index < ((ofOps ops).clockAt c).get c.proc.index := by
  rcases get_le_own ops e he c.proc with h0 | ⟨f, hf, hp, hle⟩
  · rw [h0]
    exact get_clockAt_pos _ c
  · refine lt_of_le_of_lt hle (get_lt_clockAt hf ?_)
    have hmem : f.candidate ∈ ops := by
      rw [← map_candidate_ofOps ops]
      exact List.mem_map_of_mem hf
    have hdep : f.candidate.dependent c = true := Candidate.dependent_of_proc_eq hp
    cases hc : c.proc with
    | thread t => simp [orders, hc, hdep]
    | flush t =>
        -- a flush puts nothing into a buffer, so the exception for waiting stores does not apply
        have hne : f.candidate.access.isEnqueue = false := by
          by_contra hq
          obtain ⟨u, hu⟩ := hops _ hmem (by simpa using hq)
          rw [hp, hc] at hu
          cases hu
        simp [orders, hne, hdep]

/-! ### Clocks and residues -/

/-- What the clocks order behind `p` depends on it, directly or through others. -/
theorem mem_ordered_of_happensBefore {ops : List Candidate} {p : Candidate}
    (hops : ThreadsEnqueue ops) (z : List Candidate) :
    ∀ e ∈ ofOps (ops ++ p :: z),
      Operated.happensBefore ⟨p, (ofOps ops).clockAt p⟩ e.clock = true →
        e.candidate ∈ ordered [p] z := by
  induction z using List.reverseRecOn with
  | nil =>
      intro e he hb
      rw [ofOps_concat, record] at he
      rcases List.mem_append.mp he with he | he
      · have := get_lt_of_mem (c := p) hops he
        simp only [Operated.happensBefore, decide_eq_true_eq] at hb
        omega
      · simp [List.mem_singleton.mp he, ordered]
  | append_singleton z c ih =>
      intro e he hb
      have hassoc : ops ++ p :: (z ++ [c]) = (ops ++ p :: z) ++ [c] := by simp
      rw [hassoc, ofOps_concat, record] at he
      have hmono : ordered [p] z ⊆ ordered [p] (z ++ [c]) := by
        rw [ordered_append]
        exact subset_ordered _ _
      rcases List.mem_append.mp he with he | he
      · exact hmono (ih e he hb)
      · rw [List.mem_singleton.mp he] at hb ⊢
        suffices hany : (ordered [p] z).any (fun d => d.dependent c) = true by
          rw [ordered_append]
          simp [ordered, hany]
        rw [List.any_eq_true]
        by_cases hp : p.proc = c.proc
        · exact ⟨p, subset_ordered _ _ (by simp), Candidate.dependent_of_proc_eq hp⟩
        · simp only [Operated.happensBefore, decide_eq_true_eq] at hb
          have hpos := get_clockAt_pos (ofOps ops) p
          have hi : p.proc.index ≠ c.proc.index := fun hi => hp (Proc.index_injective hi)
          rcases get_clockAt_cases (ofOps (ops ++ p :: z)) c hi with h0 | ⟨f, hf, hd, hk⟩
          · omega
          · refine ⟨f.candidate, ih f hf ?_, hd⟩
            simp only [Operated.happensBefore, decide_eq_true_eq]
            omega

end History

/-- An operation that is ordered behind some others stands at a place where it depends on them. -/
theorem exists_split_of_mem_ordered {b z : List Candidate} {d : Candidate} (h : d ∈ ordered b z) :
    d ∈ b ∨ ∃ u v, z = u ++ d :: v ∧ ordered b (u ++ [d]) = d :: ordered b u := by
  induction z using List.reverseRecOn with
  | nil => exact .inl h
  | append_singleton z c ih =>
      have hlift : d ∈ ordered b z → d ∈ b ∨ ∃ u v, z ++ [c] = u ++ d :: v ∧
          ordered b (u ++ [d]) = d :: ordered b u := by
        intro h
        rcases ih h with h | ⟨u, v, rfl, ho⟩
        · exact .inl h
        · exact .inr ⟨u, v ++ [c], by simp, ho⟩
      rw [ordered_append] at h
      simp only [ordered] at h
      split at h
      next ha =>
        rcases List.mem_cons.mp h with rfl | h
        · refine .inr ⟨z, [], rfl, ?_⟩
          rw [ordered_append]
          simp only [ordered, ha, if_true]
        · exact hlift h
      next => exact hlift h

theorem residue_of_ordered {b u : List Candidate} {d : Candidate}
    (h : ordered b (u ++ [d]) = d :: ordered b u) (v : List Candidate) :
    residue b (u ++ d :: v) = residue b u ++ residue (d :: ordered b u) v := by
  have hassoc : u ++ d :: v = (u ++ [d]) ++ v := by simp
  rw [hassoc, residue_append, h, residue_append]
  have hlen : residue (ordered b u) [d] = [] := by
    rw [ordered_append] at h
    simp only [ordered] at h
    simp only [residue]
    split
    · rfl
    next hn =>
      simp only [hn] at h
      exact absurd h (List.ne_cons_self)
  rw [hlen, List.append_nil]

namespace History

/-- **When a race is seen.**  Let `z` be equivalent to `y ++ w`, where `y` is independent of `p`.
If process `q` has performed no more in a part `z₁` of `z` than it does in `y`, and if what creates
its thread there is part of `y`, then `p` does not happen before the next operation of `q`. -/
theorem not_happensBefore_clockOf {ops y w z z₁ : List Candidate} {p : Candidate} {q : Proc}
    (hops : ThreadsEnqueue ops) (hz : Equivalent z (y ++ w)) (hy : p.IndepOf y) (hz₁ : z₁ <+: z)
    (hpq : p.proc ≠ q) (hps : p.access ≠ .spawn q.owner)
    (hcount : (z₁.filter fun c => c.proc == q).length ≤ (y.filter fun c => c.proc == q).length)
    (hspawn : ∀ e ∈ z₁, e.access = .spawn q.owner → e ∈ y ∧ ∀ u v, z = u ++ e :: v → e ∉ u) :
    Operated.happensBefore ⟨p, (ofOps ops).clockAt p⟩ ((ofOps (ops ++ p :: z₁)).clockOf q)
      = false := by
  by_contra hb
  rw [Bool.not_eq_false] at hb
  have hpos := get_clockAt_pos (ofOps ops) p
  rcases clockOf_cases (ofOps (ops ++ p :: z₁)) q with he | ⟨e, he, hsrc, hck⟩
  · rw [he] at hb
    simp only [Operated.happensBefore, Clock.get_empty] at hb
    have := of_decide_eq_true hb
    omega
  rw [hck] at hb
  -- so some operation of `q`, or the one that created it, depends on `p`
  have hord := mem_ordered_of_happensBefore hops z₁ e he hb
  generalize e.candidate = d at hord hsrc
  have hdp : d ≠ p := by
    rintro rfl
    rcases hsrc with h | h
    · exact hpq h
    · exact hps h
  rcases exists_split_of_mem_ordered hord with h | ⟨u, v, rfl, ho⟩
  · exact hdp (List.mem_singleton.mp h)
  obtain ⟨z₂, rfl⟩ := hz₁
  -- behind it, its process has no part in the residue, which yet holds all of `y`
  have hres := hz.residue_perm [p]
  rw [residue_append_of_indep (u := y) (by simpa using hy), List.append_assoc, List.cons_append,
    residue_of_ordered ho] at hres
  have hnone : d.proc ∉ (residue (d :: ordered [p] u) (v ++ z₂)).map Candidate.proc :=
    proc_notMem_residue List.mem_cons_self (v ++ z₂)
  rcases hsrc with hq | hs
  · have hcnt := (hres.filter fun c => c.proc == q).length_eq
    have hzero : (residue (d :: ordered [p] u) (v ++ z₂)).filter (fun c => c.proc == q) = [] := by
      rw [List.filter_eq_nil_iff]
      intro c hc
      rw [beq_iff_eq]
      rintro rfl
      exact hnone (hq ▸ List.mem_map_of_mem hc)
    have hle := ((residue_sublist [p] u).filter fun c => c.proc == q).length_le
    rw [List.filter_append, List.filter_append, hzero, List.append_nil, List.length_append] at hcnt
    have hlt : (u.filter fun c => c.proc == q).length <
        ((u ++ d :: v).filter fun c => c.proc == q).length := by
      simp [hq]
    omega
  · obtain ⟨hy', huniq⟩ := hspawn d (by simp) hs
    have hmem : d ∈ residue [p] u ++ residue (d :: ordered [p] u) (v ++ z₂) :=
      hres.mem_iff.mpr (List.mem_append_left _ hy')
    rcases List.mem_append.mp hmem with hm | hm
    · exact huniq u (v ++ z₂) (by simp) ((residue_sublist [p] u).subset hm)
    · exact hnone (List.mem_map_of_mem hm)

end History

end Interleave
