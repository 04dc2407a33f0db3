import Interleave.Machine.Run
import Interleave.Proofs.Machine.Robustness
import Interleave.Proofs.Search.Exploration
import Interleave.Search.Script

/-! # Runs under a scheduler

The run of a machine under a scheduler that chooses among what it is offered is a run of its system:
it ends where that run ends, where the scheduler refuses to go on, or where the fuel is used up
(`Machine.runLoop_concludes`).  This holds of the reduction (`Machine.guided_reduction`) and of a
script that picks candidates by their numbers (`Machine.guided_script`). -/

namespace Interleave.Machine

variable {s : Setup} {m m' m₁ : Machine} {ops : List Candidate}

/-- What is reported when nothing is offered though not everything is done. -/
def blockage (s : Setup) (m : Machine) : Stop :=
  match m.deadlock s with
  | .ok e => .error e
  | .error why => why

/-- The run with the turns of `ps` ends by itself. -/
inductive Ends (s : Setup) (m : Machine) (ps : List Proc) : Ending → Machine → Prop
  | stopped {why : Stop} {m' : Machine} (reach : m.reach s ps = .error why)
      (errors : m'.errors = m.errors) : Ends s m ps (.stopped why) m'
  | completed {m' : Machine} (reach : m.reach s ps = .ok m') (nothing : m'.offered s = [])
      (done : m'.isDone = true) : Ends s m ps .completed m'
  | deadlock {m' : Machine} (reach : m.reach s ps = .ok m') (nothing : m'.offered s = [])
      (done : m'.isDone = false) : Ends s m ps (.stopped (m'.blockage s)) m'

theorem Ends.offers_eq_nil {ending : Ending} (h : Ends s m (procs ops) ending m') :
    (system s m).offers (procs ops) = [] := by
  cases h with
  | stopped reach _ => exact offers_of_error reach
  | completed reach nothing _ => rw [offers_of_ok reach, nothing]
  | deadlock reach nothing _ => rw [offers_of_ok reach, nothing]

section

variable {σ : Type} [Scheduler σ]

/-- The scheduler chooses among the candidates or stops: after the operations `ops` its state
satisfies `Q`, or `R` once it has stopped. -/
def Guided (s : Setup) (m : Machine) (Q R : List Candidate → σ → Prop) : Prop :=
  ∀ ops q, Q ops q → (system s m).offers (procs ops) ≠ [] →
    (∃ c ∈ (system s m).offers (procs ops), ∃ q',
      Scheduler.schedule q ((system s m).offers (procs ops)) = (.run c.proc, q') ∧ Q (ops ++ [c]) q') ∨
    ∃ q', Scheduler.schedule q ((system s m).offers (procs ops)) = (.stop, q') ∧ R ops q'

/-- How a run of at most `n` operations can end after `ops`. -/
inductive Concludes (s : Setup) (m : Machine) (Q R : List Candidate → σ → Prop) (n : Nat)
    (ops : List Candidate) : Ending × Machine × σ → Prop
  | ended {ending : Ending} {m' : Machine} {q : σ} (ends : Ends s m (procs ops) ending m')
      (state : Q ops q) : Concludes s m Q R n ops (ending, m', q)
  | refused {m' : Machine} {log : List LogRecord} {q : σ} (lt : ops.length < n)
      (reach : m.reach s (procs ops) = .ok m') (offered : m'.offered s ≠ []) (state : R ops q) :
      Concludes s m Q R n ops (.refused, { m' with log }, q)
  | outOfFuel {m' : Machine} {q : σ} (length_eq : ops.length = n) (state : Q ops q) :
      Concludes s m Q R n ops (.outOfFuel, m', q)

/-- **The run loop** goes through a run of the system. -/
theorem runLoop_concludes {Q R : List Candidate → σ → Prop} (hguided : Guided s m Q R)
    (fuel : Nat) {q : σ} (hrun : IsRun (system s m).offers ops) (hq : Q ops q)
    (hreach : m.reach s (procs ops) = m₁.rest s) (herrors : m₁.errors = m.errors) :
    ∃ ops', IsRun (system s m).offers ops' ∧
      Concludes s m Q R (ops.length + fuel) ops' (m₁.runLoop s fuel q) := by
  induction fuel generalizing ops m₁ q with
  | zero => exact ⟨ops, hrun, .outOfFuel rfl hq⟩
  | succ fuel ih =>
      rw [runLoop]
      have herrors₂ : (m₁.settle s).1.errors = m.errors := herrors
      unfold rest at hreach
      generalize m₁.settle s = settled at hreach herrors₂ ⊢
      obtain ⟨m₂, stop⟩ := settled
      cases stop with
      | some why => exact ⟨ops, hrun, .ended (.stopped hreach herrors₂) hq⟩
      | none =>
          simp only at hreach ⊢
          cases hcs : m₂.candidates s with
          | error why =>
              rw [hcs] at hreach
              exact ⟨ops, hrun, .ended (.stopped hreach herrors₂) hq⟩
          | ok cs =>
              rw [hcs, ok_bind, pure_eq_ok] at hreach
              have hoffered : m₂.offered s = cs := (candidates_eq_ok.mp hcs).2.symm
              have hoffers : (system s m).offers (procs ops) = cs :=
                (offers_of_ok hreach).trans hoffered
              cases cs with
              | nil =>
                  cases hdone : m₂.isDone with
                  | true => exact ⟨ops, hrun, .ended (.completed hreach hoffered hdone) hq⟩
                  | false =>
                      refine ⟨ops, hrun, ?_⟩
                      have hends := Ends.deadlock hreach hoffered hdone
                      unfold blockage at hends
                      simp only [Bool.false_eq_true, if_false]
                      cases hdead : m₂.deadlock s with
                      | ok e =>
                          rw [hdead] at hends
                          exact .ended hends hq
                      | error why =>
                          rw [hdead] at hends
                          exact .ended hends hq
              | cons c cs =>
                  have hne : (system s m).offers (procs ops) ≠ [] := by
                    rw [hoffers]
                    exact List.cons_ne_nil _ _
                  rcases hguided ops q hq hne with ⟨d, hd, q', hs, hq'⟩ | ⟨q', hs, hr⟩
                  · rw [hoffers] at hs hd
                    simp only [hs]
                    have hd' : m₂.Offered s d := by
                      rw [← mem_offered, hoffered]
                      exact hd
                    have hturn : m.reach s (procs (ops ++ [d])) = m₂.turn s d.proc := by
                      rw [procs_concat, reach_concat hreach hd']
                    have hrun' := hrun.concat (hoffers ▸ hd)
                    unfold turn at hturn
                    cases hstep : m₂.step s d.proc with
                    | error why =>
                        rw [hstep] at hturn
                        exact ⟨ops ++ [d], hrun', .ended (.stopped hturn herrors₂) hq'⟩
                    | ok m₃ =>
                        rw [hstep] at hturn
                        have herrors₃ : m₃.errors = m.errors := by
                          obtain ⟨k, -, hbehind⟩ := (moves_step s).behind_of_ok trivial hstep
                          exact hbehind.errors.trans herrors₂
                        obtain ⟨ops', hrun', hconc⟩ := ih hrun' hq' hturn herrors₃
                        rw [List.length_append, List.length_singleton, Nat.add_assoc,
                          Nat.add_comm 1] at hconc
                        exact ⟨ops', hrun', hconc⟩
                  · rw [hoffers] at hs
                    simp only [hs]
                    refine ⟨ops, hrun, .refused (by omega) hreach ?_ hr⟩
                    rw [hoffered]
                    exact List.cons_ne_nil _ _

end

/-! ### The reduction as a scheduler -/

open Reduction

/-- The execution that the reduction began at `r₀` is under way, after the operations `ops`. -/
structure Underway (offers : Offers) (maxDepth : Option Nat) (old : List Branch) (r₀ : Reduction)
    (ops : List Candidate) (r : Reduction) : Prop where
  midway : Midway offers maxDepth old ops r
  executes : ∀ ps r', Executes offers (procs ops) r ps r' → Executes offers [] r₀ ps r'

/-- The execution that the reduction began at `r₀` is over, after the operations `ops`. -/
structure Over (offers : Offers) (maxDepth : Option Nat) (old : List Branch) (r₀ : Reduction)
    (ops : List Candidate) (r : Reduction) : Prop where
  executed : Executed offers maxDepth old ops r
  executes : Executes offers [] r₀ (procs ops) r

theorem underway_nil {offers : Offers} {maxDepth : Option Nat} {old : List Branch} {r₀ : Reduction}
    (h : Midway offers maxDepth old [] r₀) : Underway offers maxDepth old r₀ [] r₀ :=
  ⟨h, fun _ _ h => h⟩

section

variable {offers : Offers} {maxDepth : Option Nat} {old : List Branch} {r₀ r : Reduction}

theorem Underway.over (h : Underway offers maxDepth old r₀ ops r) (hnil : offers (procs ops) = []) :
    Over offers maxDepth old r₀ ops r := by
  rcases h.midway.schedule with ⟨c, hc, -⟩ | ⟨r', hs, hexecuted⟩
  · rw [hnil] at hc
    cases hc
  · rw [hnil, schedule_nil] at hs
    cases hs
    exact ⟨hexecuted, h.executes _ _ (.refused (by rw [hnil]; exact schedule_nil r) rfl)⟩

/-- A decision goes on with the execution or ends it. -/
theorem Underway.schedule (h : Underway offers maxDepth old r₀ ops r) :
    (∃ c ∈ offers (procs ops), ∃ r', r.schedule (offers (procs ops)) = (.run c.proc, r') ∧
      Underway offers maxDepth old r₀ (ops ++ [c]) r') ∨
    ∃ r', r.schedule (offers (procs ops)) = (.stop, r') ∧ Over offers maxDepth old r₀ ops r' := by
  rcases h.midway.schedule with ⟨c, hc, r', hs, hmidway⟩ | ⟨r', hs, hexecuted⟩
  · refine .inl ⟨c, hc, r', hs, hmidway, fun ps r'' hex => h.executes ps r'' (.step hs ?_)⟩
    rwa [procs_concat] at hex
  · exact .inr ⟨r', hs, hexecuted, h.executes _ _ (.refused hs rfl)⟩

end

theorem guided_reduction (s : Setup) (m : Machine) (maxDepth : Option Nat) (old : List Branch)
    (r₀ : Reduction) : Guided s m (Underway (system s m).offers maxDepth old r₀)
      (Over (system s m).offers maxDepth old r₀) :=
  fun _ _ h _ => h.schedule

/-! ### Scripts as schedulers -/

/-- The script that picks candidates by the given numbers, counted round and round, and the first one
behind the end of these. -/
def picking (choices : List Nat) (limit : Nat) : Script :=
  .start (choices.map .index) .first limit

/-- The operations of the run are the candidates of the given numbers, counted round and round. -/
def PickedBy (offers : Offers) (choices : List Nat) (ops : List Candidate) : Prop :=
  ∀ k c, ops[k]? = some c →
    (offers (procs (ops.take k)))[choices.getD k 0 % (offers (procs (ops.take k))).length]? = some c

/-- The script has picked the operations `ops`. -/
structure Picked (offers : Offers) (choices : List Nat) (limit : Nat) (ops : List Candidate)
    (q : Script) : Prop where
  moves : q.moves = choices.map .index
  policy : q.policy = .first
  limit_eq : q.limit = limit
  length_eq : q.offered.length = ops.length
  picked : PickedBy offers choices ops

theorem picked_nil (offers : Offers) (choices : List Nat) (limit : Nat) :
    Picked offers choices limit [] (picking choices limit) := by
  constructor <;> simp [picking, Script.start, PickedBy]

theorem Picked.choice {offers : Offers} {choices : List Nat} {limit : Nat} {q : Script}
    (h : Picked offers choices limit ops q) (hlt : ops.length < limit) {cs : List Candidate} :
    q.choice cs = (cs[choices.getD ops.length 0 % cs.length]?).map Candidate.proc := by
  have hmove : q.moves[q.offered.length]? = (choices[ops.length]?).map .index := by
    rw [h.moves, h.length_eq, List.getElem?_map]
  simp only [Script.choice, h.limit_eq, h.policy, hmove]
  rw [h.length_eq, if_neg (Nat.not_le.mpr hlt)]
  cases hi : choices[ops.length]? with
  | some i => simp [Script.around, List.getD_eq_getElem?_getD, hi]
  | none => simp [List.getD_eq_getElem?_getD, hi, List.head?_eq_getElem?]

theorem guided_script (s : Setup) (m : Machine) (choices : List Nat) (limit : Nat) :
    Guided s m (Picked (system s m).offers choices limit) fun ops _ => limit ≤ ops.length := by
  intro ops q h hne
  generalize hcs : (system s m).offers (procs ops) = cs at hne ⊢
  by_cases hlt : ops.length < limit
  · left
    have hindex : choices.getD ops.length 0 % cs.length < cs.length :=
      Nat.mod_lt _ (List.length_pos_iff.mpr hne)
    have hget := List.getElem?_eq_getElem hindex
    refine ⟨_, List.getElem_mem hindex, { q with offered := q.offered ++ [(cs, q.choice cs)] }, ?_,
      h.moves, h.policy, h.limit_eq, ?_, ?_⟩
    · simp only [Scheduler.schedule, h.choice hlt, hget, Option.map_some]
    · rw [List.length_append, List.length_append, h.length_eq]
      rfl
    · intro k c hk
      rcases Nat.lt_or_ge k ops.length with hklt | hkge
      · rw [List.getElem?_append_left hklt] at hk
        rw [List.take_append_of_le_length (Nat.le_of_lt hklt)]
        exact h.picked k c hk
      · obtain rfl : k = ops.length := by
          have := (List.getElem?_eq_some_iff.mp hk).1
          rw [List.length_append, List.length_singleton] at this
          omega
        rw [List.getElem?_append_right (Nat.le_refl _)] at hk
        simp only [Nat.sub_self, List.getElem?_cons_zero, Option.some.injEq] at hk
        rw [List.take_left, hcs, hget, hk]
  · right
    refine ⟨{ q with offered := q.offered ++ [(cs, q.choice cs)] }, ?_, Nat.le_of_not_lt hlt⟩
    have hnone : q.choice cs = none := by
      unfold Script.choice
      rw [h.limit_eq, h.length_eq, if_pos (Nat.le_of_not_lt hlt)]
    simp only [Scheduler.schedule, hnone]

theorem exists_choices {offers : Offers} (hrun : IsRun offers ops) :
    ∃ choices, PickedBy offers choices ops := by
  have hindex : ∀ k : Nat, ∃ i : Nat, ∀ c, ops[k]? = some c → (offers (procs (ops.take k)))[i]? = some c := by
    intro k
    cases hk : ops[k]? with
    | none => exact ⟨0, by simp⟩
    | some c =>
        obtain ⟨hlt, hget⟩ := List.getElem?_eq_some_iff.mp hk
        have hsplit : ops = ops.take k ++ c :: ops.drop (k + 1) := by
          rw [← hget, ← List.drop_eq_getElem_cons hlt, List.take_append_drop]
        obtain ⟨i, hi⟩ := List.mem_iff_getElem?.mp (hrun _ _ _ hsplit)
        exact ⟨i, by simpa using hi⟩
  choose index hindex using hindex
  refine ⟨(List.range ops.length).map index, fun k c hk => ?_⟩
  have hlt := (List.getElem?_eq_some_iff.mp hk).1
  have hget := hindex k c hk
  rw [List.getD_eq_getElem?_getD, List.getElem?_map, List.getElem?_range hlt, Option.map_some,
    Option.getD_some, Nat.mod_eq_of_lt (List.getElem?_eq_some_iff.mp hget).1, hget]

/-- Two runs that are picked by the same numbers are the same if nothing is offered behind them. -/
theorem eq_of_picked {offers : Offers} {choices : List Nat} {ops' : List Candidate}
    (h : PickedBy offers choices ops) (h' : PickedBy offers choices ops')
    (hnil : offers (procs ops) = []) (hnil' : offers (procs ops') = []) : ops = ops' := by
  have htake : ∀ k, k ≤ ops.length → k ≤ ops'.length → ops.take k = ops'.take k := by
    intro k
    induction k with
    | zero => simp
    | succ k ih =>
        intro hk hk'
        have ih := ih (by omega) (by omega)
        have hget := h k _ (List.getElem?_eq_getElem hk)
        have hget' := h' k _ (List.getElem?_eq_getElem hk')
        rw [ih] at hget
        rw [List.take_succ_eq_append_getElem hk, List.take_succ_eq_append_getElem hk', ih,
          Option.some.inj (hget.symm.trans hget')]
  have hlast : ∀ u v : List Candidate, PickedBy offers choices u → offers (procs v) = [] →
      u.take v.length = v → u.length ≤ v.length := by
    intro u v hu hv htake
    by_contra hlt
    have hget := hu v.length _ (List.getElem?_eq_getElem (Nat.lt_of_not_le hlt))
    rw [htake, hv] at hget
    cases hget
  rcases Nat.le_total ops.length ops'.length with hle | hle
  · have heq := htake _ (Nat.le_refl _) hle
    rw [List.take_length] at heq
    have := hlast ops' ops h' hnil heq.symm
    rw [heq, List.take_of_length_le this]
  · have heq := htake _ hle (Nat.le_refl _)
    rw [List.take_length] at heq
    have := hlast ops ops' h hnil' heq
    rw [← heq, List.take_of_length_le this]

end Interleave.Machine
