import Interleave.Proofs.Search.Queries
import Mathlib.Algebra.Group.Nat.Defs
import Mathlib.Logic.Relation

/-! # The clocks of an execution are its happens-before order

The operations of an execution are linked directly if they are of one process or dependent, and a
store that is put into a buffer to the flush that commits it (`History.Links`).  A flush depends on all
stores of its buffer, but only the one that it commits counts: stores leave the buffer in the order in
which they came, so that it is the one with the same number (`History.Commits`).

An earlier operation is in the clock of a later one if and only if a chain of links leads from one to
the other (`Reduction.happensBefore_iff_chained`).  A link carries over every entry of the clock
(`History.Links.get_le`), and every entry for another process has come over a link
(`History.exists_links`). -/

namespace Interleave

namespace History

/-! ### Links between operations -/

/-- Flushes do nothing but write to memory. -/
def FlushesWrite (ops : List Candidate) : Prop :=
  ∀ c ∈ ops, ∀ t, c.proc = .flush t → ∃ a, c.access = .write a

/-- The operation puts a store into the buffer of thread `t`. -/
def fills (t : Nat) (c : Candidate) : Bool := c.proc == .thread t && c.access.isEnqueue

/-- The operation takes a store from the buffer of thread `t`. -/
def empties (t : Nat) (c : Candidate) : Bool := c.proc == .flush t

/-- Whenever a buffer is flushed, more stores have been put into it than taken from it. -/
def FlushesFind (ops : List Candidate) : Prop :=
  ∀ i t, ops[i]?.any (empties t) = true →
    (ops.take i).countP (empties t) < (ops.take i).countP (fills t)

/-- For some `n`, the operation at `i` puts the `n`-th store of a thread into its buffer, and the one
at `j` is the `n`-th flush of that buffer. -/
def Commits (ops : List Candidate) (i j : Nat) : Prop :=
  ∃ t, ops[i]?.any (fills t) = true ∧ ops[j]?.any (empties t) = true ∧
    (ops.take i).countP (fills t) = (ops.take j).countP (empties t)

/-- The operation at `j` comes directly behind the one at `i`: both are of one process, or they are
dependent and not a store put into a buffer and a flush, or the second commits the store of the first. -/
def Links (ops : List Candidate) (i j : Nat) : Prop :=
  i < j ∧ ∃ c d, ops[i]? = some c ∧ ops[j]? = some d ∧
    (c.proc = d.proc ∨
      c.dependent d = true ∧ ¬ (c.access.isEnqueue = true ∧ ∃ t, d.proc = .flush t) ∨
      Commits ops i j)

/-- A chain of links leads from one operation to the other. -/
abbrev Chained (ops : List Candidate) : Nat → Nat → Prop := Relation.TransGen (Links ops)

variable {ops : List Candidate} {c : Candidate} {e f : Operated} {i j t : Nat}

theorem FlushesWrite.threadsEnqueue (h : FlushesWrite ops) : ThreadsEnqueue ops := by
  intro c hc henqueue
  cases hp : c.proc with
  | thread t => exact ⟨t, rfl⟩
  | flush t =>
      obtain ⟨a, ha⟩ := h c hc t hp
      rw [ha] at henqueue
      cases henqueue

theorem orders_iff : orders e c = true ↔
    e.candidate.dependent c = true ∧
      ¬ (e.candidate.access.isEnqueue = true ∧ ∃ t, c.proc = .flush t) := by
  unfold orders
  cases c.proc <;> simp [and_comm]

/-- Two operations of one process are in order, as a flush puts nothing into a buffer. -/
theorem FlushesWrite.orders_of_proc_eq (h : FlushesWrite ops) (he : e.candidate ∈ ops)
    (hp : e.candidate.proc = c.proc) : orders e c = true := by
  refine orders_iff.mpr ⟨Candidate.dependent_of_proc_eq hp, ?_⟩
  rintro ⟨henqueue, t, ht⟩
  obtain ⟨a, ha⟩ := h e.candidate he t (hp.trans ht)
  rw [ha] at henqueue
  cases henqueue

/-! ### The operations by position -/

theorem getElem?_ofOps (ops : List Candidate) (j : Nat) :
    (ofOps ops)[j]? = ops[j]?.map fun c => ⟨c, (ofOps (ops.take j)).clockAt c⟩ := by
  induction ops using List.reverseRecOn with
  | nil => simp
  | append_singleton ops c ih =>
      rw [ofOps_concat, record]
      rcases Nat.lt_trichotomy j ops.length with hj | rfl | hj
      · have hj' : j < (ofOps ops).length := by rwa [length_ofOps]
        rw [List.getElem?_append_left hj', List.getElem?_append_left hj, ih,
          List.take_append_of_le_length hj.le]
      · have hlast := List.getElem?_concat_length (l := ofOps ops) (a := ⟨c, (ofOps ops).clockAt c⟩)
        rw [length_ofOps] at hlast
        rw [hlast]
        simp
      · have hnone : ∀ {α : Type} (l : List α), l.length = ops.length → ∀ x, (l ++ [x])[j]? = none := by
          intro α l hl x
          apply List.getElem?_eq_none
          rw [List.length_append, List.length_singleton, hl]
          omega
        rw [hnone _ (length_ofOps ops), hnone _ rfl]
        rfl

theorem getElem?_ofOps_eq_some (hf : (ofOps ops)[j]? = some f) :
    ops[j]? = some f.candidate ∧ f.clock = (ofOps (ops.take j)).clockAt f.candidate := by
  rw [getElem?_ofOps, Option.map_eq_some_iff] at hf
  obtain ⟨c, hc, rfl⟩ := hf
  exact ⟨hc, rfl⟩

theorem getElem?_ofOps_take (hij : i < j) : (ofOps (ops.take j))[i]? = (ofOps ops)[i]? := by
  rw [getElem?_ofOps, getElem?_ofOps, List.getElem?_take_of_lt hij, List.take_take,
    Nat.min_eq_left hij.le]

theorem mem_ofOps_take (hij : i < j) (he : (ofOps ops)[i]? = some e) : e ∈ ofOps (ops.take j) :=
  List.mem_of_getElem? ((getElem?_ofOps_take hij).trans he)

/-- The `n`-th entry that passes a test stands behind `n` others that do. -/
theorem getElem?_filter_eq_some {α : Type} {p : α → Bool} {l : List α} {n : Nat} {x : α} :
    (l.filter p)[n]? = some x ↔
      ∃ i, l[i]? = some x ∧ p x = true ∧ (l.take i).countP p = n := by
  induction l generalizing n with
  | nil => simp
  | cons y l ih =>
      constructor
      · intro h
        by_cases hy : p y = true
        · rw [List.filter_cons_of_pos hy] at h
          cases n with
          | zero => exact ⟨0, by simpa using h, by simp_all, rfl⟩
          | succ n =>
              obtain ⟨i, hi, hx, hn⟩ := ih.mp (by simpa using h)
              exact ⟨i + 1, hi, hx, by simp [hy, hn]⟩
        · rw [List.filter_cons_of_neg hy] at h
          obtain ⟨i, hi, hx, hn⟩ := ih.mp h
          exact ⟨i + 1, hi, hx, by simp [hy, hn]⟩
      · rintro ⟨i, hi, hx, rfl⟩
        cases i with
        | zero =>
            obtain rfl : y = x := by simpa using hi
            simp [hx]
        | succ i =>
            have hrest := ih.mpr ⟨i, hi, hx, rfl⟩
            by_cases hy : p y = true <;> simpa [hy] using hrest

/-! ### The stores that wait -/

theorem not_fills_of_empties (h : empties t c = true) : fills t c = false := by
  rw [empties, beq_iff_eq] at h
  simp [fills, h]

theorem FlushesFind.take (h : FlushesFind ops) (n : Nat) : FlushesFind (ops.take n) := by
  intro i t hi
  rcases Nat.lt_or_ge i n with hn | hn
  · rw [List.getElem?_take_of_lt hn] at hi
    rw [List.take_take, Nat.min_eq_left hn.le]
    exact h i t hi
  · rw [List.getElem?_take_eq_none hn] at hi
    cases hi

theorem FlushesFind.of_concat (h : FlushesFind (ops ++ [c])) : FlushesFind ops := by
  have htake := h.take ops.length
  rwa [List.take_left' rfl] at htake

/-- No more stores leave a buffer than have been put into it. -/
theorem FlushesFind.countP_le (h : FlushesFind ops) (t : Nat) :
    ops.countP (empties t) ≤ ops.countP (fills t) := by
  induction ops using List.reverseRecOn with
  | nil => exact le_rfl
  | append_singleton ops c ih =>
      have hle := ih h.of_concat
      rw [List.countP_append, List.countP_append]
      by_cases hc : empties t c = true
      · have hlt := h ops.length t (by simpa using hc)
        rw [List.take_left' rfl] at hlt
        simp only [List.countP_singleton, hc, if_true]
        omega
      · rw [List.countP_singleton, if_neg hc]
        omega

/-- What waits is what has been put into the buffer, less as many stores as have been taken. -/
theorem waiting_ofOps (h : FlushesFind ops) (t : Nat) :
    (ofOps ops).waiting t = (((ofOps ops).filter fun e => fills t e.candidate).map
      Operated.clock).drop (ops.countP (empties t)) := by
  induction ops using List.reverseRecOn with
  | nil => rfl
  | append_singleton ops c ih =>
      have ih := ih h.of_concat
      have hle := h.of_concat.countP_le t
      have hlength : (((ofOps ops).filter fun e => fills t e.candidate).map Operated.clock).length =
          ops.countP (fills t) := by
        rw [List.length_map, ← List.countP_eq_length_filter, ← map_candidate_ofOps ops,
          List.countP_map, map_candidate_ofOps]
        rfl
      have hstep : ((ofOps ops).record c).waiting t =
          if empties t c then ((ofOps ops).waiting t).tail
          else if fills t c then (ofOps ops).waiting t ++ [(ofOps ops).clockAt c]
          else (ofOps ops).waiting t := by simp [record, waiting, empties, fills]
      rw [ofOps_concat, hstep, ih, record, List.filter_append, List.map_append, List.countP_append]
      by_cases hc : empties t c = true
      · simp [hc, not_fills_of_empties hc, List.tail_drop]
      · by_cases hf : fills t c = true
        · simp [hc, hf, List.drop_append_of_le_length (hlength ▸ hle)]
        · simp [hc, hf]

/-- **Stores leave the buffer in order**: the one that is flushed next is the one with the number of
the flush. -/
theorem head?_waiting (h : FlushesFind ops) {k : Clock} :
    ((ofOps ops).waiting t).head? = some k ↔
      ∃ i e, (ofOps ops)[i]? = some e ∧ fills t e.candidate = true ∧
        (ops.take i).countP (fills t) = ops.countP (empties t) ∧ e.clock = k := by
  have hcount : ∀ i, ((ofOps ops).take i).countP (fun e => fills t e.candidate) =
      (ops.take i).countP (fills t) := by
    intro i
    conv_rhs => rw [← map_candidate_ofOps ops, ← List.map_take, List.countP_map]
    rfl
  rw [waiting_ofOps h, List.head?_drop, List.getElem?_map, Option.map_eq_some_iff]
  constructor
  · rintro ⟨e, he, hk⟩
    obtain ⟨i, hi, hfills, hn⟩ := getElem?_filter_eq_some.mp he
    exact ⟨i, e, hi, hfills, (hcount i).symm.trans hn, hk⟩
  · rintro ⟨i, e, hi, hfills, hn, hk⟩
    exact ⟨e, getElem?_filter_eq_some.mpr ⟨i, hi, hfills, (hcount i).trans hn⟩, hk⟩

/-! ### Links and entries of clocks -/

theorem get_le_tick (k : Clock) (i n : Nat) : k.get n ≤ (k.tick i).get n := by
  rw [Clock.get_tick]
  split <;> omega

theorem get_joinedAt_le (h : History) (c : Candidate) (n : Nat) :
    (h.joinedAt c).get n ≤ (h.clockAt c).get n := by
  cases hp : c.proc with
  | thread t =>
      rw [clockAt_thread hp]
      exact get_le_tick _ _ n
  | flush t =>
      rw [clockAt_flush hp]
      refine le_trans ?_ (get_le_tick _ _ n)
      cases (h.waiting t).head? with
      | none => exact le_rfl
      | some k =>
          rw [Option.map_some, Option.getD_some, Clock.get_join]
          exact le_max_left _ _

/-- A link carries over every entry of the clock. -/
theorem Links.get_le (hwrite : FlushesWrite ops) (hfind : FlushesFind ops) (h : Links ops i j)
    (he : (ofOps ops)[i]? = some e) (hf : (ofOps ops)[j]? = some f) (n : Nat) :
    e.clock.get n ≤ f.clock.get n := by
  obtain ⟨hij, c, d, hc, hd, hlink⟩ := h
  obtain ⟨hc', -⟩ := getElem?_ofOps_eq_some he
  obtain ⟨hd', hclock⟩ := getElem?_ofOps_eq_some hf
  obtain rfl : e.candidate = c := Option.some.inj (hc'.symm.trans hc)
  obtain rfl : f.candidate = d := Option.some.inj (hd'.symm.trans hd)
  rw [hclock]
  have hordered : orders e f.candidate = true →
      e.clock.get n ≤ ((ofOps (ops.take j)).clockAt f.candidate).get n := by
    intro ho
    refine le_trans ?_ (get_joinedAt_le _ _ n)
    exact Clock.get_le_foldl_join_of_mem (orders · f.candidate) _ n (mem_ofOps_take hij he) ho
  rcases hlink with hp | ⟨hdep, hnot⟩ | ⟨t, hfills, hempties, hcount⟩
  · exact hordered (hwrite.orders_of_proc_eq (List.mem_of_getElem? hc) hp)
  · exact hordered (orders_iff.mpr ⟨hdep, hnot⟩)
  · rw [hc, Option.any_some] at hfills
    rw [hd, Option.any_some, empties, beq_iff_eq] at hempties
    have hhead : ((ofOps (ops.take j)).waiting t).head? = some e.clock := by
      refine (head?_waiting (hfind.take j)).mpr ⟨i, e, ?_, hfills, ?_, rfl⟩
      · rw [getElem?_ofOps_take hij, he]
      · rw [List.take_take, Nat.min_eq_left hij.le, hcount]
    rw [clockAt_flush hempties, hhead, Option.map_some, Option.getD_some]
    refine le_trans ?_ (get_le_tick _ _ n)
    rw [Clock.get_join]
    exact le_max_right _ _

theorem exists_links_of_orders (hd : ops[j]? = some c) (he : e ∈ ofOps (ops.take j))
    (ho : orders e c = true) : ∃ i, Links ops i j ∧ (ofOps ops)[i]? = some e := by
  obtain ⟨i, hi⟩ := List.mem_iff_getElem?.mp he
  have hij : i < j := by
    have hlt := (List.getElem?_eq_some_iff.mp hi).1
    rw [length_ofOps, List.length_take] at hlt
    omega
  rw [getElem?_ofOps_take hij] at hi
  obtain ⟨hc, -⟩ := getElem?_ofOps_eq_some hi
  exact ⟨i, ⟨hij, e.candidate, c, hc, hd, .inr (.inl (orders_iff.mp ho))⟩, hi⟩

/-- Every entry for another process has come over a link. -/
theorem exists_links (hwrite : FlushesWrite ops) (hfind : FlushesFind ops)
    (hf : (ofOps ops)[j]? = some f) {n : Nat} (hn : n ≠ f.candidate.proc.index) :
    f.clock.get n = 0 ∨
      ∃ i e, Links ops i j ∧ (ofOps ops)[i]? = some e ∧ f.clock.get n = e.clock.get n := by
  obtain ⟨hd, hclock⟩ := getElem?_ofOps_eq_some hf
  rw [hclock]
  generalize f.candidate = c at hd hn
  generalize hh : ofOps (ops.take j) = h
  have hordered : ∀ e ∈ h, orders e c = true → ∃ i, Links ops i j ∧ (ofOps ops)[i]? = some e :=
    fun e he ho => exists_links_of_orders hd (hh ▸ he) ho
  have hops : ∀ e ∈ h, e.candidate ∈ ops := by
    intro e he
    obtain ⟨i, hi⟩ := List.mem_iff_getElem?.mp (hh ▸ he)
    exact List.mem_of_mem_take (List.mem_of_getElem? (getElem?_ofOps_eq_some hi).1)
  have hjoined : (h.joinedAt c).get n = 0 ∨
      ∃ i e, Links ops i j ∧ (ofOps ops)[i]? = some e ∧ (h.joinedAt c).get n = e.clock.get n := by
    unfold joinedAt
    rcases Clock.get_foldl_join (orders · c) h (h.clockOf c.proc) n with hk | ⟨e, he, ho, hk⟩
    · rcases h.clockOf_cases c.proc with hempty | ⟨e, he, hsource, hown⟩
      · exact .inl (by rw [hk, hempty, Clock.get_empty])
      · have ho : orders e c = true := by
          rcases hsource with hp | hspawn
          · exact hwrite.orders_of_proc_eq (hops e he) hp
          · exact orders_iff.mpr ⟨dependent_of_source (.inr hspawn), by simp [hspawn, Access.isEnqueue]⟩
        obtain ⟨i, hlinks, hi⟩ := hordered e he ho
        exact .inr ⟨i, e, hlinks, hi, by rw [hk, hown]⟩
    · obtain ⟨i, hlinks, hi⟩ := hordered e he ho
      exact .inr ⟨i, e, hlinks, hi, hk⟩
  cases hp : c.proc with
  | thread t =>
      rw [clockAt_thread hp, Clock.get_tick, if_neg hn]
      exact hjoined
  | flush t =>
      rw [clockAt_flush hp, Clock.get_tick, if_neg hn]
      cases hw : (h.waiting t).head? with
      | none => exact hjoined
      | some k =>
          rw [Option.map_some, Option.getD_some, Clock.get_join]
          rcases max_choice ((h.joinedAt c).get n) (k.get n) with hm | hm
          · rw [hm]
            exact hjoined
          · rw [hm]
            rw [← hh] at hw
            obtain ⟨i, e, hi, hfills, hcount, rfl⟩ := (head?_waiting (hfind.take j)).mp hw
            have hij : i < j := by
              have hlt := (List.getElem?_eq_some_iff.mp hi).1
              rw [length_ofOps, List.length_take] at hlt
              omega
            rw [getElem?_ofOps_take hij] at hi
            rw [List.take_take, Nat.min_eq_left hij.le] at hcount
            obtain ⟨hc, -⟩ := getElem?_ofOps_eq_some hi
            refine .inr ⟨i, e, ⟨hij, e.candidate, c, hc, hd, .inr (.inr ⟨t, ?_, ?_, hcount⟩)⟩, hi, rfl⟩
            · rw [hc, Option.any_some, hfills]
            · rw [hd, Option.any_some, empties, hp, beq_self_eq_true]

/-! ### Chains and clocks -/

/-- A chain carries over every entry of the clock. -/
theorem Chained.get_le (hwrite : FlushesWrite ops) (hfind : FlushesFind ops) (h : Chained ops i j)
    (he : (ofOps ops)[i]? = some e) (hf : (ofOps ops)[j]? = some f) (n : Nat) :
    e.clock.get n ≤ f.clock.get n := by
  induction h generalizing f with
  | single h => exact h.get_le hwrite hfind he hf n
  | @tail m j _ hlast ih =>
      have ⟨_, c, _, hc, _⟩ := hlast
      have hm := getElem?_ofOps ops m
      rw [hc, Option.map_some] at hm
      exact (ih hm).trans (hlast.get_le hwrite hfind hm hf n)

/-- **A clock holds only what a chain leads from.**  The entry for the process of the earlier operation
has come over a link, and not from an operation in front of it, where that entry is smaller. -/
theorem chained_of_happensBefore (hwrite : FlushesWrite ops) (hfind : FlushesFind ops)
    (he : (ofOps ops)[i]? = some e) (hf : (ofOps ops)[j]? = some f) (hij : i < j)
    (hb : e.happensBefore f.clock = true) : Chained ops i j := by
  induction j using Nat.strong_induction_on generalizing f with
  | _ j ih =>
      obtain ⟨hc, hclock⟩ := getElem?_ofOps_eq_some he
      obtain ⟨hd, -⟩ := getElem?_ofOps_eq_some hf
      by_cases hp : e.candidate.proc = f.candidate.proc
      · exact .single ⟨hij, _, _, hc, hd, .inl hp⟩
      have hn : e.candidate.proc.index ≠ f.candidate.proc.index :=
        fun hn => hp (Proc.index_injective hn)
      have hpos := get_clockAt_pos (ofOps (ops.take i)) e.candidate
      rw [← hclock] at hpos
      rw [Operated.happensBefore, decide_eq_true_eq] at hb
      rcases exists_links hwrite hfind hf hn with hzero | ⟨m, g, hlink, hg, hget⟩
      · omega
      · rw [hget] at hb
        rcases Nat.lt_trichotomy m i with hm | rfl | hm
        · have hthreads : ThreadsEnqueue (ops.take i) := fun c hc =>
            hwrite.threadsEnqueue c (List.mem_of_mem_take hc)
          have hlt := get_lt_of_mem (c := e.candidate) hthreads (mem_ofOps_take hm hg)
          rw [← hclock] at hlt
          omega
        · exact .single hlink
        · refine .tail (ih m hlink.1 hg hm ?_) hlink
          rw [Operated.happensBefore, decide_eq_true_eq]
          exact hb

theorem bounded_ofOps {n : Nat} (h : ∀ c ∈ ops, c.proc.owner < n) :
    ∀ e ∈ ofOps ops, e.clock.Bounded (2 * n) (ofOps ops).length := by
  induction ops using List.reverseRecOn with
  | nil => simp
  | append_singleton ops c ih =>
      rw [ofOps_concat]
      exact bounded_record (ih fun d hd => h d (List.mem_append_left _ hd)) (h c (by simp))

end History

namespace Reduction

open History

/-- The history of a reduction is that of the operations it has performed in the current execution. -/
theorem history_askAll (maxDepth : Option Nat) (qs : List Query) :
    ((start maxDepth).askAll qs).history =
      ofOps (((start maxDepth).askAll qs).history.map Operated.candidate) := by
  induction qs using List.reverseRecOn with
  | nil => rfl
  | append_singleton qs q ih =>
      have hr := (consistent_start maxDepth).askAll qs
      rw [askAll_concat]
      generalize (start maxDepth).askAll qs = r at ih hr ⊢
      rcases hr.history_ask q with hkept | ⟨c, -, hrecord⟩ | hnew
      · rw [hkept]
        exact ih
      · rw [hrecord, record, List.map_append, List.map_singleton, ofOps_concat, ← ih]
        rfl
      · rw [hnew]
        rfl

/-- **The clocks are exactly happens-before.**  In any execution of fewer than `2 ^ 32` operations in
which flushes only write and find a store to commit, the entries of the clocks are below `2 ^ 32`, and
an earlier operation happens before a later one, as their clocks tell it, if and only if a chain of
links leads from the one to the other. -/
theorem happensBefore_iff_chained (maxDepth : Option Nat) (qs : List Query) :
    let h := ((start maxDepth).askAll qs).history
    let ops := h.map Operated.candidate
    ops.length < 2 ^ 32 → (∀ c ∈ ops, c.proc.owner < 2 ^ 32) → FlushesWrite ops → FlushesFind ops →
      (∀ e ∈ h, e.clock.counts.length ≤ 2 ^ 33 ∧ ∀ n, e.clock.get n < 2 ^ 32) ∧
      ∀ i j e f, i < j → h[i]? = some e → h[j]? = some f →
        (e.happensBefore f.clock = true ↔ Chained ops i j) := by
  intro h ops hlength howner hwrite hfind
  have hh : h = ofOps ops := history_askAll maxDepth qs
  rw [hh]
  refine ⟨fun e he => ?_, fun i j e f hij he hf => ⟨?_, fun hchain => ?_⟩⟩
  · have hbounded := bounded_ofOps howner e he
    rw [length_ofOps] at hbounded
    exact ⟨hbounded.length_le, fun n => (hbounded.get_le n).trans_lt hlength⟩
  · exact chained_of_happensBefore hwrite hfind he hf hij
  · rw [Operated.happensBefore, decide_eq_true_eq]
    exact hchain.get_le hwrite hfind he hf _

/-- Thread 0 buffers two stores and the first is flushed, which another thread sees.  The second store
comes before the flush, and yet nothing behind the flush comes behind it. -/
theorem happensBefore_iff_chained_twoStores :
    let ops : List Candidate := [⟨.thread 0, .enqueue 8⟩, ⟨.thread 0, .enqueue 16⟩,
      ⟨.flush 0, .write 8⟩, ⟨.thread 1, .read 8⟩]
    let h := ((start none).askAll (ops.map fun c => .schedule [c])).history
    h.map Operated.candidate = ops ∧ FlushesWrite ops ∧ FlushesFind ops ∧
      Chained ops 0 3 ∧ ¬ Chained ops 1 3 := by
  intro ops h
  have hops : h.map Operated.candidate = ops := by decide +kernel
  have hwrite : FlushesWrite ops := by
    intro c hc t hp
    simp only [ops, List.mem_cons, List.not_mem_nil, or_false] at hc
    rcases hc with rfl | rfl | rfl | rfl
    all_goals simp at hp ⊢
  have hfind : FlushesFind ops := by
    intro i t hi
    match i with
    | 0 | 1 | 3 => simp [ops, empties] at hi
    | 2 =>
        obtain rfl : 0 = t := by simpa [ops, empties] using hi
        decide
    | i + 4 => simp [ops] at hi
  obtain ⟨-, hiff⟩ := happensBefore_iff_chained none (ops.map fun c => .schedule [c])
    (by rw [hops]; decide) (by rw [hops]; decide) (by rwa [hops]) (by rwa [hops])
  rw [hops] at hiff
  have hfirst : h[0]? = some ⟨⟨.thread 0, .enqueue 8⟩, ⟨[1]⟩⟩ := by decide +kernel
  have hsecond : h[1]? = some ⟨⟨.thread 0, .enqueue 16⟩, ⟨[2]⟩⟩ := by decide +kernel
  have hread : h[3]? = some ⟨⟨.thread 1, .read 8⟩, ⟨[1, 1, 1]⟩⟩ := by decide +kernel
  refine ⟨hops, hwrite, hfind, (hiff 0 3 _ _ (by decide) hfirst hread).mp (by decide), ?_⟩
  rw [← hiff 1 3 _ _ (by decide) hsecond hread]
  decide

end Reduction

end Interleave
