import Interleave.Exploration.StraightLine
import Interleave.Proofs.Search.Coverage
import Mathlib.Algebra.BigOperators.Group.Finset.Basic
import Mathlib.Algebra.Order.BigOperators.Group.Finset
import Mathlib.Algebra.Ring.Nat

/-! # Exploration of straight-line threads

Threads that read, write, fence and enqueue one access after the other never wait and never fail.
They form a lawful system, so their exploration ends and covers every interleaving
(`StraightLine.explore_covers`). -/

namespace Interleave

namespace StraightLine

/-- Threads with the given accesses, numbered from zero, without any trouble. -/
def ofAccesses (ts : List (List Access)) : StraightLine :=
  ⟨ts.zipIdx.map fun (as, t) => (.thread t, as), [], 0⟩

/-- The executions of an exploration, each by the state of the reduction at its end; `none` if more
than `fuel` of them are needed. -/
def explore (l : StraightLine) : (fuel : Nat) → Reduction → Option (List Reduction)
  | 0, _ => none
  | fuel + 1, r =>
    let ended := (l.runLoop (l.size + 1) l.start r).2.2.endExecution
    match ended.advance with
    | (true, next) => (explore l fuel next).map (ended :: ·)
    | (false, _) => some [ended]

/-- An interleaving of all operations of the threads. -/
structure Interleaves (ts : List (List Access)) (w : List Candidate) : Prop where
  thread : ∀ c ∈ w, ∃ t < ts.length, c.proc = .thread t
  order : ∀ t as, ts[t]? = some as →
    (w.filter fun c => c.proc == .thread t) = as.map fun a => ⟨.thread t, a⟩

/-- The accesses that neither wait nor concern the threads themselves. -/
def IsPlain : Access → Prop
  | .read _ | .write _ | .fence | .enqueue _ => True
  | _ => False

/-! ### The threads as a system -/

/-- What is offered after the processes of a list have taken their steps: the next access of each
thread that has one. -/
def offers (ts : List (List Access)) : Offers := fun ps =>
  ts.zipIdx.filterMap fun (as, t) => (as[ps.count (.thread t)]?).map fun a => ⟨.thread t, a⟩

variable {ts : List (List Access)} {ps : List Proc} {c d : Candidate}

theorem mem_offers : c ∈ offers ts ps ↔
    ∃ t as, ts[t]? = some as ∧ c.proc = .thread t ∧
      as[ps.count (.thread t)]? = some c.access := by
  simp only [offers, List.mem_filterMap, Prod.exists, Option.map_eq_some_iff,
    List.mem_zipIdx_iff_getElem?]
  constructor
  · rintro ⟨as, t, hts, a, ha, rfl⟩
    exact ⟨t, as, hts, rfl, ha⟩
  · rintro ⟨t, as, hts, hp, ha⟩
    exact ⟨as, t, hts, c.access, ha, by rw [← hp]⟩

theorem nodup_offers (ts : List (List Access)) (ps : List Proc) : (procs (offers ts ps)).Nodup := by
  refine List.pairwise_map.mpr ((pairwise_zipIdx ts).filterMap _ ?_)
  rintro ⟨as, t⟩ ⟨as', t'⟩ hlt c hc d hd
  obtain ⟨a, -, rfl⟩ := Option.map_eq_some_iff.mp hc
  obtain ⟨b, -, rfl⟩ := Option.map_eq_some_iff.mp hd
  simpa using hlt.ne

/-- What is offered depends on the number of steps of each thread only. -/
theorem offers_perm {ps' : List Proc} (h : ps.Perm ps') : offers ts ps = offers ts ps' := by
  simp only [offers, h.count_eq]

/-- Steps of other threads make no difference to what a thread is offered. -/
theorem mem_offers_concat {p : Proc} (hne : p ≠ c.proc) :
    c ∈ offers ts (ps ++ [p]) ↔ c ∈ offers ts ps := by
  simp only [mem_offers]
  constructor <;>
  · rintro ⟨t, as, hts, hp, ha⟩
    refine ⟨t, as, hts, hp, ?_⟩
    rw [hp] at hne
    simpa [List.count_append, hne] using ha

/-- The accesses of the threads neither wait nor concern the threads themselves. -/
def Plain (ts : List (List Access)) : Prop := ∀ as ∈ ts, ∀ a ∈ as, IsPlain a

theorem Plain.isPlain (hts : Plain ts) (hc : c ∈ offers ts ps) : IsPlain c.access := by
  obtain ⟨t, as, has, -, ha⟩ := mem_offers.mp hc
  exact hts as (List.mem_of_getElem? has) _ (List.mem_of_getElem? ha)

theorem races_of_dependent {t u : Nat} (hc : IsPlain c.access) (hd : IsPlain d.access)
    (htc : c.proc = .thread t) (htd : d.proc = .thread u) (hne : c.proc ≠ d.proc)
    (h : c.dependent d = true) : c.races d = true := by
  obtain ⟨p, a⟩ := c
  obtain ⟨q, b⟩ := d
  simp only at htc htd hc hd
  subst htc htd
  unfold IsPlain at hc hd
  cases a <;> cases b <;>
    simp_all [Candidate.dependent, Candidate.races, Candidate.bearsOn, Access.concerns,
      Access.excludes, Access.conflicts, Access.object, Access.isRead]

/-- Straight-line threads, as a system in which nothing fails and nothing waits. -/
def system (ts : List (List Access)) : System Empty :=
  ⟨offers ts, fun _ => none, fun ops c => c ∈ offers ts (procs ops), fun _ => ts.length⟩

theorem same_of_perm {u v : List Candidate} (h : u.Perm v) : (system ts).Same u v := by
  intro x
  have hoffers : offers ts (procs (u ++ x)) = offers ts (procs (v ++ x)) :=
    offers_perm ((h.append_right x).map _)
  refine ⟨hoffers, rfl, fun c => ?_⟩
  simp only [system, hoffers]

theorem mem_offers_ops {ops : List Candidate} (hne : d.proc ≠ c.proc) :
    c ∈ offers ts (procs (ops ++ [d])) ↔ c ∈ offers ts (procs ops) := by
  rw [procs, List.map_append]
  exact mem_offers_concat hne

theorem Plain.lawful (hts : Plain ts) : (system ts).Lawful where
  distinct := nodup_offers ts
  stops ops h := absurd rfl h
  persists ops c d _ _ hd hi _ := by
    have hne := Candidate.proc_ne_of_indep hi
    exact ⟨(mem_offers_ops hne).mpr hd, rfl⟩
  reflects ops c d _ _ hi _ hd := (mem_offers_ops (Candidate.proc_ne_of_indep hi)).mp hd
  commutes ops c d _ _ _ _ _ _ := by
    refine same_of_perm ?_
    rw [List.append_assoc, List.append_assoc]
    exact (List.Perm.swap d c []).append_left ops
  races ops c d _ hc hd hne hdep := by
    obtain ⟨t, _, _, htc, _⟩ := mem_offers.mp hc
    obtain ⟨u, _, _, htd, _⟩ := mem_offers.mp hd
    exact races_of_dependent (hts.isPlain hc) (hts.isPlain hd) htc htd hne hdep
  aims_of_offered ops c _ hc _ := hc
  aims_step ops c r _ _ _ hr hne := (mem_offers_ops hne).mpr hr
  aims_unique ops c r _ hc hr hp := List.inj_on_of_nodup_map (nodup_offers ts _) hc hr hp
  enqueues ops c _ hc _ := by
    obtain ⟨t, _, _, ht, _⟩ := mem_offers.mp hc
    exact ⟨t, ht⟩
  spawns ops c t _ hc _ ht := by
    have := hts.isPlain hc
    rw [ht] at this
    exact this.elim
  threads_le ops c _ _ _ := le_refl _
  owner_lt ops c _ hc := by
    obtain ⟨t, as, has, ht, -⟩ := mem_offers.mp hc
    rw [ht]
    exact (List.getElem?_eq_some_iff.mp has).1

/-! ### Interleavings as runs -/

theorem count_procs (w : List Candidate) (p : Proc) :
    (procs w).count p = (w.filter fun c => c.proc == p).length := by
  rw [procs, List.count, List.countP_map, List.countP_eq_length_filter]
  rfl

namespace Interleaves

variable {w : List Candidate}

theorem isRun (h : Interleaves ts w) : IsRun (offers ts) w := by
  rintro u c v rfl
  obtain ⟨t, ht, hp⟩ := h.thread c (by simp)
  have horder := h.order t _ (List.getElem?_eq_getElem ht)
  refine mem_offers.mpr ⟨t, _, List.getElem?_eq_getElem ht, hp, ?_⟩
  have hget : (ts[t].map fun a => (⟨.thread t, a⟩ : Candidate))[
      (u.filter fun c => c.proc == .thread t).length]? = some c := by
    rw [← horder, List.filter_append, List.filter_cons_of_pos (by simp [hp])]
    simp
  rw [count_procs]
  rw [List.getElem?_map, Option.map_eq_some_iff] at hget
  obtain ⟨a, ha, rfl⟩ := hget
  exact ha

theorem offers_eq_nil (h : Interleaves ts w) : offers ts (procs w) = [] := by
  rw [List.eq_nil_iff_forall_not_mem]
  intro c hc
  obtain ⟨t, as, has, -, ha⟩ := mem_offers.mp hc
  rw [count_procs, h.order t as has, List.length_map, List.getElem?_eq_none (le_refl _)] at ha
  cases ha

end Interleaves

/-! ### Runs are finite -/

/-- Number of accesses that the threads have left. -/
def left (ts : List (List Access)) (ps : List Proc) : Nat :=
  (ts.zipIdx.map fun x => x.1.length - ps.count (.thread x.2)).sum

theorem left_lt (hc : c ∈ offers ts ps) : left ts (ps ++ [c.proc]) < left ts ps := by
  obtain ⟨t, as, has, hp, ha⟩ := mem_offers.mp hc
  refine List.sum_lt_sum _ _ (fun x _ => ?_) ⟨(as, t), List.mem_zipIdx_iff_getElem?.mpr has, ?_⟩
  · rw [List.count_append]
    omega
  · have hlt := (List.getElem?_eq_some_iff.mp ha).1
    simp only [hp, List.count_append, List.count_singleton_self]
    omega

theorem length_add_left_le {ops : List Candidate} (h : IsRun (offers ts) ops) :
    ops.length + left ts (procs ops) ≤ left ts [] := by
  induction ops using List.reverseRecOn with
  | nil => simp [procs]
  | append_singleton ops c ih =>
      have hlt := left_lt h.offered
      have := ih h.left
      rw [procs, List.map_append, List.length_append, List.length_singleton]
      simp only [procs, List.map_singleton] at hlt this ⊢
      omega

theorem left_nil (ts : List (List Access)) : left ts [] = (ofAccesses ts).size := by
  have hfold : ∀ (l : List (Proc × List Access)) (n : Nat),
      l.foldl (fun n th => n + th.2.length) n = n + (l.map fun th => th.2.length).sum := by
    intro l
    induction l with
    | nil => simp
    | cons th l ih =>
        intro n
        rw [List.foldl_cons, ih, List.map_cons, List.sum_cons, Nat.add_assoc]
  rw [size, hfold, Nat.zero_add, ofAccesses, List.map_map, left]
  simp [Function.comp_def]

/-! ### The engine of the threads -/

/-- The engine stands where the processes of `ps` have taken their steps. -/
def Stands (ts : List (List Access)) (st : State) (ps : List Proc) : Prop :=
  st.pcs = (List.range ts.length).map fun t => ps.count (.thread t)

theorem stands_start (ts : List (List Access)) : Stands ts (ofAccesses ts).start [] := by
  refine List.ext_getElem? fun i => ?_
  by_cases hi : i < ts.length
  · simp [start, ofAccesses, hi]
  · simp [start, ofAccesses, hi]

theorem Stands.pc_eq {st : State} (h : Stands ts st ps) {t : Nat} (ht : t < ts.length) :
    pc st t = ps.count (.thread t) := by
  rw [pc, show st.pcs = _ from h, List.getD_eq_getElem?_getD, List.getElem?_map,
    List.getElem?_range ht]
  rfl

theorem zipIdx_threads (ts : List (List Access)) :
    (ofAccesses ts).threads.zipIdx = ts.zipIdx.map fun x => ((.thread x.2, x.1), x.2) := by
  refine List.ext_getElem? fun i => ?_
  by_cases hi : i < ts.length
  · simp [ofAccesses, hi]
  · simp [ofAccesses, hi]

theorem Stands.candidates_eq {st : State} (h : Stands ts st ps) :
    (ofAccesses ts).candidates st = offers ts ps := by
  rw [candidates, zipIdx_threads, List.filterMap_map]
  refine List.filterMap_congr fun x hx => ?_
  have ht := (List.getElem?_eq_some_iff.mp (List.mem_zipIdx_iff_getElem?.mp hx)).1
  simp only [Function.comp_apply, h.pc_eq ht]

theorem step_ofAccesses (ts : List (List Access)) (st : State) (t : Nat) (p : Proc) :
    ∃ st', (ofAccesses ts).step st t p = (.continues, st') ∧
      st'.pcs = st.pcs.modify t (· + 1) := by
  simp [step, troubles, ofAccesses, meet]

theorem Stands.step {st st' : State} (h : Stands ts st ps) {t : Nat}
    (hst : st'.pcs = st.pcs.modify t (· + 1)) : Stands ts st' (ps ++ [.thread t]) := by
  rw [Stands, hst, show st.pcs = _ from h]
  refine List.ext_getElem? fun i => ?_
  rw [List.getElem?_modify, List.getElem?_map, List.getElem?_map]
  by_cases hi : i < ts.length
  · by_cases hti : t = i
    · simp [hi, hti]
    · have hne : Proc.thread t ≠ Proc.thread i := by simpa using hti
      simp [hi, hti, List.count_append, hne]
  · simp [hi]

theorem findIdx?_threads {t : Nat} (ht : t < ts.length) :
    ((ofAccesses ts).threads.findIdx? fun th => th.1 == .thread t) = some t := by
  rw [List.findIdx?_eq_some_iff_getElem]
  refine ⟨by simpa [ofAccesses] using ht, by simp [ofAccesses], fun j hj => ?_⟩
  have hne : j ≠ t := Nat.ne_of_lt hj
  simpa [ofAccesses] using hne

/-- The run of the engine is an execution under the reduction, given enough fuel. -/
theorem executes_runLoop (fuel : Nat) {st : State} {ops : List Candidate} (r : Reduction)
    (hst : Stands ts st (procs ops)) (hrun : IsRun (offers ts) ops)
    (hfuel : (ofAccesses ts).size < fuel + ops.length) :
    ∃ ps, Reduction.Executes (offers ts) (procs ops) r ps
      ((ofAccesses ts).runLoop fuel st r).2.2 := by
  induction fuel generalizing st ops r with
  | zero =>
      have hle := length_add_left_le hrun
      rw [left_nil] at hle
      omega
  | succ fuel ih =>
      rw [runLoop, hst.candidates_eq]
      cases hcs : offers ts (procs ops) with
      | nil => exact ⟨procs ops, .refused (by rw [hcs]; exact Reduction.schedule_nil r) rfl⟩
      | cons c cs =>
          simp only
          rw [← hcs]
          cases hs : r.schedule (offers ts (procs ops)) with
          | mk d r' =>
          have hs' : Scheduler.schedule r (offers ts (procs ops)) = (d, r') := hs
          rw [hs']
          cases d with
          | run p =>
              obtain ⟨c, hc, rfl⟩ := List.mem_map.mp (Reduction.mem_of_schedule_run hs)
              obtain ⟨t, as, has, hp, -⟩ := mem_offers.mp hc
              have ht := (List.getElem?_eq_some_iff.mp has).1
              obtain ⟨st', hstep, hpcs⟩ := step_ofAccesses ts st t c.proc
              have hst' : Stands ts st' (procs (ops ++ [c])) := by
                rw [procs, List.map_append, List.map_singleton, hp]
                exact hst.step hpcs
              obtain ⟨ps, hex⟩ := ih r' hst' (hrun.concat hc) (by
                rw [List.length_append, List.length_singleton]
                omega)
              refine ⟨ps, .step hs ?_⟩
              simp only [hp, findIdx?_threads ht]
              rw [hp] at hstep
              simp only [hstep]
              simpa [procs, hp] using hex
          | stop => exact ⟨_, .refused hs rfl⟩
          | diverged i p => exact ⟨_, .refused hs rfl⟩
          | outOfStep => exact ⟨_, .refused hs rfl⟩

open Reduction in
/-- The loop either finishes an exploration that is under way or adds `fuel` executions to it. -/
theorem explores_explore (fuel : Nat) {log : List Explored} {r : Reduction}
    (h : Explores (offers ts) none log true r) :
    ∃ log' r', ((ofAccesses ts).explore fuel r = some (log'.map Explored.final) ∧
        Explores (offers ts) none (log ++ log') false r') ∨
      log'.length = fuel ∧ Explores (offers ts) none (log ++ log') true r' := by
  induction fuel generalizing log r with
  | zero => exact ⟨[], r, .inr ⟨rfl, by simpa using h⟩⟩
  | succ fuel ih =>
      obtain ⟨ps, hex⟩ := executes_runLoop ((ofAccesses ts).size + 1) r (stands_start ts) IsRun.nil
        (by simp)
      rw [explore]
      generalize ((ofAccesses ts).runLoop ((ofAccesses ts).size + 1) (ofAccesses ts).start r).2.2
        = r₁ at hex ⊢
      have hstep := Explores.execution false h hex
      have hfin : r₁.finish false = r₁.endExecution := rfl
      rw [hfin] at hstep
      cases hadv : r₁.endExecution.advance with
      | mk more next =>
      rw [hadv] at hstep
      cases more with
      | false =>
          exact ⟨[⟨r₁.endExecution, false⟩], next, .inl ⟨rfl, hstep⟩⟩
      | true =>
          obtain ⟨log', r', hor⟩ := ih hstep
          refine ⟨⟨r₁.endExecution, false⟩ :: log', r', ?_⟩
          rw [List.append_assoc, List.singleton_append] at hor
          rcases hor with ⟨he, hx⟩ | ⟨hlen, hx⟩
          · exact .inl ⟨by simp [he], hx⟩
          · exact .inr ⟨by simp [hlen], hx⟩

theorem procs_subset_of_isRun {ops : List Candidate} (h : IsRun (offers ts) ops) :
    procs ops ⊆ (List.range ts.length).map Proc.thread := by
  intro p hp
  obtain ⟨c, hc, rfl⟩ := List.mem_map.mp hp
  obtain ⟨u, v, rfl⟩ := List.append_of_mem hc
  obtain ⟨t, as, has, ht, -⟩ := mem_offers.mp h.offered
  rw [ht]
  exact List.mem_map_of_mem (List.mem_range.mpr (List.getElem?_eq_some_iff.mp has).1)

theorem exists_explore (ts : List (List Access)) :
    ∃ fuel log r,
      (ofAccesses ts).explore fuel (.start none) = some (log.map Reduction.Explored.final) ∧
      Reduction.Explores (offers ts) none log false r := by
  have hrun : ∀ ops, IsRun (offers ts) ops →
      ops.length ≤ left ts [] ∧ procs ops ⊆ (List.range ts.length).map Proc.thread := by
    intro ops h
    have := length_add_left_le h
    exact ⟨by omega, procs_subset_of_isRun h⟩
  obtain ⟨n, hn⟩ : ∃ n, ∀ log more r, Reduction.Explores (offers ts) none log more r →
      log.length ≤ n :=
    ⟨_, fun log more r h => h.length_le (nodup_offers ts) fun ops hops _ => hrun ops hops⟩
  have hstart : Reduction.Explores (offers ts) none [] true (.start none) := .start
  obtain ⟨log, r, ⟨he, hx⟩ | ⟨hlen, hx⟩⟩ := explores_explore (n + 1) hstart
  · exact ⟨n + 1, log, r, he, hx⟩
  · have := hn _ _ _ hx
    rw [List.nil_append, hlen] at this
    omega

/-- **Straight-line threads are explored completely.**  For threads that read, write, fence and
enqueue, the exploration without depth bound ends, and every interleaving of all their operations
is, up to the order of independent steps, the schedule of an explored execution that is not
redundant. -/
theorem explore_covers (hts : Plain ts) :
    ∃ fuel log, (ofAccesses ts).explore fuel (.start none) = some log ∧
      ∀ w, Interleaves ts w → ∃ r ∈ log, Scheduler.wasRedundant r = false ∧
        Equivalent w (r.history.map Operated.candidate) ∧
        r.currentSchedule = procs (r.history.map Operated.candidate) := by
  obtain ⟨fuel, log, r, he, hx⟩ := exists_explore ts
  refine ⟨fuel, _, he, fun w hw => ?_⟩
  obtain ⟨x, hmem, hblocked, hequiv, -⟩ := hts.lawful.exists_equivalent
    (fun _ => False) (fun ops h => h rfl) hx (fun x _ h => h.elim) (fun x _ _ c hc => hc)
    ⟨hw.isRun, rfl⟩ hw.offers_eq_nil
  have hrec := (hx.tree (fun _ => False) (by simp)).1 x hmem
  exact ⟨x.final, List.mem_map_of_mem hmem, hblocked, hequiv, hrec.schedule⟩

/-- A thread that stores and loads next to one that fences in between. -/
def storeBuffering : List (List Access) :=
  [[.write 1, .read 2], [.write 2, .fence, .read 1]]

theorem explore_covers_storeBuffering :
    Plain storeBuffering ∧ Interleaves storeBuffering
        [⟨.thread 1, .write 2⟩, ⟨.thread 0, .write 1⟩, ⟨.thread 1, .fence⟩, ⟨.thread 0, .read 2⟩,
          ⟨.thread 1, .read 1⟩] ∧
      ∃ fuel log, (ofAccesses storeBuffering).explore fuel (.start none) = some log ∧
        ∀ w, Interleaves storeBuffering w → ∃ r ∈ log, Scheduler.wasRedundant r = false ∧
          Equivalent w (r.history.map Operated.candidate) ∧
          r.currentSchedule = procs (r.history.map Operated.candidate) := by
  have hplain : Plain storeBuffering := by
    intro as has a ha
    simp only [storeBuffering, List.mem_cons, List.not_mem_nil, or_false] at has
    rcases has with rfl | rfl
    · simp only [List.mem_cons, List.not_mem_nil, or_false] at ha
      rcases ha with rfl | rfl <;> trivial
    · simp only [List.mem_cons, List.not_mem_nil, or_false] at ha
      rcases ha with rfl | rfl | rfl <;> trivial
  refine ⟨hplain, ⟨by simp [storeBuffering], fun t as has => ?_⟩, explore_covers hplain⟩
  match t, has with
  | 0, has | 1, has => cases has; rfl

end StraightLine

end Interleave
