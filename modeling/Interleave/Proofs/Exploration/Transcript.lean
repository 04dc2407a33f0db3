import Interleave.Exploration.StraightLine
import Interleave.Proofs.Exploration.Completeness
import Interleave.Proofs.Exploration.Observation

/-! # What an exploration asks for

An exploration creates engines, makes them execute, and tells its scheduler how that went.  `Noted`
puts both under observation, whatever they are: it takes down each call with the answer.  The notes do
not interfere (`Exploration.explore_noted`), and if an exploration finishes they are the transcript of
a list of executions, one after the other (`Exploration.performsAll_rounds`).  The result of the
exploration is what these executions add up to (`Exploration.explore_transcript`). -/

namespace Interleave

/-! ### Notes -/

/-- The reply to a call of an engine. -/
inductive Engine.Reply where
  | ran (errored : Except Break Bool)
  | checked (violated : Except Break Bool)
  | extracted (trace : Except Break Trace)
deriving DecidableEq

/-- The trace is handed out only if there was an error or all traces are collected. -/
inductive Engine.Extracts (cfg : Config) (errored : Bool) : List Reply → Trace → Prop where
  | skipped (h : (errored || cfg.collectTraces) = false) : Extracts cfg errored [] .empty
  | handed (trace : Trace) (h : (errored || cfg.collectTraces) = true) :
      Extracts cfg errored [.extracted (.ok trace)] trace
  | faulted (f : Fault) (h : (errored || cfg.collectTraces) = true) :
      Extracts cfg errored [.extracted (.error (.fault f))] (.ofError f.toError)

/-- The replies of an engine in an execution with the given trace.  It runs, it looks for a violation
if that is to be checked and there was no error, and it hands out the trace.  A fault is its last
reply, and then the one error of the trace. -/
inductive Engine.Reports (cfg : Config) : List Reply → Trace → Prop where
  | runFaulted (f : Fault) : Reports cfg [.ran (.error (.fault f))] (.ofError f.toError)
  | checkFaulted (f : Fault) (h : cfg.checkRobustness = true) :
      Reports cfg [.ran (.ok false), .checked (.error (.fault f))] (.ofError f.toError)
  | checked {violated : Bool} {rs : List Reply} {trace : Trace} (h : cfg.checkRobustness = true)
      (hrs : Extracts cfg violated rs trace) :
      Reports cfg (.ran (.ok false) :: .checked (.ok violated) :: rs) trace
  | unchecked {errored : Bool} {rs : List Reply} {trace : Trace}
      (h : (cfg.checkRobustness && !errored) = false) (hrs : Extracts cfg errored rs trace) :
      Reports cfg (.ran (.ok errored) :: rs) trace

/-- A call that an exploration makes, with the answer. -/
inductive Note where
  /-- An engine was created. -/
  | created
  | replied (r : Engine.Reply)
  /-- The scheduler was told of an error. -/
  | failed
  /-- The scheduler was told of the end of an execution, and then held it for redundant or not. -/
  | ended (redundant : Bool)
  /-- The scheduler was asked for another execution. -/
  | advanced (more : Bool)
deriving DecidableEq

/-- Whether the end of an execution was told. -/
def Note.isEnd : Note → Bool
  | ended _ => true
  | _ => false

/-- A scheduler or an engine, with the notes that were taken. -/
structure Noted (α : Type) where
  state : α
  notes : List Note

namespace Noted

variable {σ ε α : Type}

/-- Nothing has been noted. -/
def start (q : σ) : Noted σ := ⟨q, []⟩

instance [Scheduler σ] : Scheduler (Noted σ) where
  schedule q cs :=
    let (d, state) := Scheduler.schedule q.state cs
    (d, { q with state })
  executionFailed q := ⟨Scheduler.executionFailed q.state, q.notes ++ [.failed]⟩
  endExecution q :=
    let state := Scheduler.endExecution q.state
    ⟨state, q.notes ++ [.ended (Scheduler.wasRedundant state)]⟩
  wasRedundant q := Scheduler.wasRedundant q.state
  advance q :=
    let (more, state) := Scheduler.advance q.state
    (more, ⟨state, q.notes ++ [.advanced more]⟩)

/-- A call of an engine whose reply is noted. -/
def call (reply : Except Break α → Engine.Reply) (x : Call ε α) : Call (Noted ε) α := fun e =>
  let (r, state) := x.run e.state
  (r, ⟨state, e.notes ++ [.replied (reply r)]⟩)

instance [Engine ε σ] : Engine (Noted ε) (Noted σ) where
  run := call .ran Engine.run
  checkRobustness := call .checked Engine.checkRobustness
  extractTrace := call .extracted Engine.extractTrace
  scheduler e := ⟨Engine.scheduler e.state, e.notes⟩
  log e := Engine.log e.state

end Noted

/-! ### Transcripts -/

/-- An execution as it is seen from outside: what its engine replied, the trace that is accounted for,
and whether the execution was redundant. -/
structure Performed where
  replies : List Engine.Reply
  trace : Trace
  redundant : Bool
deriving DecidableEq

namespace Performed

/-- The notes on an execution: its engine is created and replies, an error other than a robustness
violation is told, and then the end. -/
def notes (e : Performed) : List Note :=
  .created :: e.replies.map .replied ++ (if e.trace.wasCutShort then [.failed] else []) ++
    [.ended e.redundant]

/-- Whether the exploration stops at an error of the execution. -/
def stops (cfg : Config) (e : Performed) : Bool := e.trace.hasErrors && !cfg.exploreAll

end Performed

/-- The notes on the executions of an exploration.  Behind each of them but the last the scheduler has
another one.  Behind the last the scheduler has none, or is not asked because of an error. -/
def transcript (cfg : Config) : List Performed → List Note
  | [] => []
  | [e] => e.notes ++ if e.stops cfg then [] else [.advanced false]
  | e :: es => e.notes ++ .advanced true :: transcript cfg es

theorem transcript_cons (cfg : Config) (e : Performed) {es : List Performed} (h : es ≠ []) :
    transcript cfg (e :: es) = e.notes ++ .advanced true :: transcript cfg es := by
  cases es with
  | nil => exact absurd rfl h
  | cons => rfl

theorem count_notes (e : Performed) :
    e.notes.count .created = 1 ∧ e.notes.countP Note.isEnd = 1 := by
  have hreplies : (e.replies.map Note.replied).countP Note.isEnd = 0 := by
    simp [List.countP_eq_zero, Note.isEnd]
  unfold Performed.notes
  constructor
  · cases e.trace.wasCutShort <;> simp [List.count_eq_zero]
  · cases e.trace.wasCutShort <;> simp [hreplies, Note.isEnd]

theorem count_transcript (cfg : Config) (es : List Performed) :
    (transcript cfg es).count .created = es.length ∧
      (transcript cfg es).countP Note.isEnd = es.length := by
  induction es with
  | nil => exact ⟨rfl, rfl⟩
  | cons e es ih =>
      obtain ⟨hcreated, hended⟩ := count_notes e
      by_cases hes : es = []
      · subst hes
        simp only [transcript]
        split <;> simp [hcreated, hended, Note.isEnd]
      · rw [transcript_cons cfg e hes, List.count_append, List.countP_append, hcreated, hended,
          List.count_cons_of_ne (by decide), List.countP_cons_of_neg (by decide), ih.1, ih.2]
        exact ⟨Nat.add_comm .., Nat.add_comm ..⟩

/-- The last note is that the scheduler has no other execution, or else the end of the execution at
whose error the exploration stops. -/
theorem getLast?_transcript (cfg : Config) (es : List Performed) (e : Performed) :
    (transcript cfg (es ++ [e])).getLast? =
      some (if e.stops cfg then .ended e.redundant else .advanced false) := by
  induction es with
  | nil =>
      simp only [List.nil_append, transcript]
      cases e.stops cfg with
      | true => rw [if_pos rfl, List.append_nil, Performed.notes, List.getLast?_concat, if_pos rfl]
      | false => rw [if_neg (by simp), List.getLast?_concat, if_neg (by simp)]
  | cons e' es ih =>
      rw [List.cons_append, transcript_cons cfg e' (by simp), List.getLast?_append_of_ne_nil _ (by simp),
        List.getLast?_cons, ih]
      rfl

theorem foldl_add (collect : Bool) (es : List Performed) (r : Result) :
    es.foldl (fun r e => r.add collect e.trace e.redundant) r =
      { traceCount := r.traceCount + es.countP fun e => !e.redundant
        blockedCount := r.blockedCount + es.countP Performed.redundant
        errorTrace := r.errorTrace.or ((es.map Performed.trace).find? Trace.hasErrors)
        allTraces := r.allTraces ++ if collect then es.map Performed.trace else [] } := by
  induction es generalizing r with
  | nil => simp
  | cons e es ih =>
      rw [List.foldl_cons, ih]
      cases hredundant : e.redundant <;> cases herrors : e.trace.hasErrors <;> cases collect <;>
        simp [Result.add, hredundant, herrors, Nat.add_assoc, Nat.add_comm 1]

/-! ### Noting an exploration -/

namespace Noted

variable {σ ε : Type} [Scheduler σ] [Engine ε σ]

theorem respects_state : Scheduler.Respects (state : Noted σ → σ) where
  schedule _ _ := rfl
  executionFailed _ := rfl
  endExecution _ := rfl
  wasRedundant _ := rfl
  advance _ := rfl

omit [Scheduler σ] in
theorem respects_engine : Engine.Respects (state : Noted σ → σ) (state : Noted ε → ε) where
  run _ := rfl
  checkRobustness _ := rfl
  extractTrace _ := rfl
  scheduler _ := rfl
  log _ := rfl

omit [Scheduler σ] in
theorem run_call {α : Type} (reply : Except Break α → Engine.Reply) (x : Call ε α) (e : Noted ε) :
    ExceptT.run (call reply x) e =
      ((ExceptT.run x e.state).1, ⟨(ExceptT.run x e.state).2,
        e.notes ++ [.replied (reply (ExceptT.run x e.state).1)]⟩) := rfl

omit [Scheduler σ] in
theorem exists_extracts (cfg : Config) (errored : Bool) (e : Noted ε) :
    let y := ExceptT.run (if errored || cfg.collectTraces then Engine.extractTrace else pure .empty :
      Call (Noted ε) Trace) e
    ∃ rs, y.2.notes = e.notes ++ rs.map .replied ∧
      ∀ trace, Exploration.reported? y.1 = some trace → Engine.Extracts cfg errored rs trace := by
  cases hasked : errored || cfg.collectTraces with
  | false =>
      refine ⟨[], (List.append_nil _).symm, ?_⟩
      rintro _ ⟨⟩
      exact .skipped hasked
  | true =>
      simp only [if_true, show (Engine.extractTrace : Call (Noted ε) Trace) =
        call .extracted Engine.extractTrace from rfl, run_call]
      generalize (ExceptT.run Engine.extractTrace e.state : Except Break Trace × ε) = y
      obtain ⟨reply, state⟩ := y
      refine ⟨[.extracted reply], rfl, fun trace htrace => ?_⟩
      rcases reply with (f | _) | trace
      · cases htrace
        exact .faulted f hasked
      · cases htrace
      · cases htrace
        exact .handed trace hasked

omit [Scheduler σ] in
/-- **The notes on the execution of an engine** are its replies. -/
theorem exists_reports (cfg : Config) (e : Noted ε) :
    let y := ExceptT.run (Engine.execute cfg : Call (Noted ε) Trace) e
    ∃ rs, y.2.notes = e.notes ++ rs.map .replied ∧
      ∀ trace, Exploration.reported? y.1 = some trace → Engine.Reports cfg rs trace := by
  rw [Engine.execute, Call.run_bind, show (Engine.run : Call (Noted ε) Bool) = call .ran Engine.run
    from rfl, run_call]
  generalize (ExceptT.run Engine.run e.state : Except Break Bool × ε) = y
  obtain ⟨why | errored, state⟩ := y
  · refine ⟨[_], rfl, fun trace htrace => ?_⟩
    cases why with
    | fault f =>
        cases htrace
        exact .runFaulted f
    | outOfFuel => cases htrace
  · simp only
    cases hcheck : cfg.checkRobustness && !errored with
    | false =>
        obtain ⟨rs, hnotes, htrace⟩ := exists_extracts cfg errored
          (⟨state, e.notes ++ [.replied (.ran (.ok errored))]⟩ : Noted ε)
        exact ⟨.ran (.ok errored) :: rs, hnotes.trans (by simp),
          fun trace h => .unchecked hcheck (htrace trace h)⟩
    | true =>
        obtain ⟨hchecks, herrored⟩ := Bool.and_eq_true_iff.mp hcheck
        obtain rfl : errored = false := by simpa using herrored
        rw [if_pos rfl, Call.run_bind, show (Engine.checkRobustness : Call (Noted ε) Bool) =
          call .checked Engine.checkRobustness from rfl, run_call]
        generalize (ExceptT.run Engine.checkRobustness state : Except Break Bool × ε) = y
        obtain ⟨why | violated, state⟩ := y
        · refine ⟨[.ran (.ok false), .checked (.error why)], by simp, fun trace htrace => ?_⟩
          cases why with
          | fault f =>
              cases htrace
              exact .checkFaulted f hchecks
          | outOfFuel => cases htrace
        · obtain ⟨rs, hnotes, htrace⟩ := exists_extracts cfg violated (⟨state,
            e.notes ++ [.replied (.ran (.ok false))] ++ [.replied (.checked (.ok violated))]⟩ : Noted ε)
          exact ⟨.ran (.ok false) :: .checked (.ok violated) :: rs, hnotes.trans (by simp),
            fun trace h => .checked hchecks (htrace trace h)⟩

theorem notes_concluded (q : Noted σ) (trace : Trace) :
    (Exploration.concluded q trace).notes = q.notes ++
      (if trace.wasCutShort then [.failed] else []) ++
      [.ended (Scheduler.wasRedundant (Exploration.concluded q trace))] := by
  unfold Exploration.concluded
  cases trace.wasCutShort with
  | false => simp [Scheduler.endExecution, Scheduler.wasRedundant]
  | true => simp [Scheduler.endExecution, Scheduler.wasRedundant, Scheduler.executionFailed]

end Noted

namespace Exploration

variable {σ ε : Type} [Scheduler σ] [Engine ε σ] (x : Exploration σ ε)

/-- The exploration under observation. -/
def noted : Exploration (Noted σ) (Noted ε) where
  registry := x.registry
  config := x.config
  create p cfg q := (x.create p cfg q.state).map fun e => ⟨e, q.notes ++ [.created]⟩

/-- **Notes do not interfere.** -/
theorem explore_noted (fuel : Nat) (s : Session) (q : σ) :
    x.explore fuel s q =
      Prod.map id (Progress.map Noted.state) (x.noted.explore fuel s (.start q)) := by
  refine explore_map Noted.respects_state Noted.respects_engine ⟨rfl, rfl, fun p q => ?_⟩ fuel s
    (.start q)
  simp only [noted]
  cases x.create p x.config q.state <;> rfl

variable {x} {g g' : Progress (Noted σ)}

omit [Scheduler σ] in
/-- **What an execution is made of.**  The engine is created and replies. -/
theorem exists_replies {trace : Trace} (h : x.noted.attempt g = some (g', trace)) :
    g'.iteration = g.iteration ∧
    ∃ rs, g'.scheduler.notes = g.scheduler.notes ++ .created :: rs.map .replied ∧
      Engine.Reports x.config rs trace := by
  obtain ⟨session, engine, y, -, hcreate, rfl, hreported, rfl⟩ := exists_of_attempt h
  obtain ⟨rs, hnotes, hreports⟩ := Noted.exists_reports x.config engine
  have hcreated : engine.notes = g.scheduler.notes ++ [.created] := by
    simp only [noted] at hcreate
    cases hstate : x.create session.program x.config g.scheduler.state with
    | error f => simp [hstate, Except.map] at hcreate
    | ok e =>
        rw [hstate] at hcreate
        cases hcreate
        rfl
  exact ⟨rfl, rs, hnotes.trans (by simp [hcreated]), hreports trace hreported⟩

/-- From `g` to `g'` the execution `e` was performed and accounted for, and `more` tells whether the
scheduler has another one if it was asked. -/
structure Performs (cfg : Config) (e : Performed) (more : Bool) (g g' : Progress (Noted σ)) :
    Prop where
  reports : Engine.Reports cfg e.replies e.trace
  notes : g'.scheduler.notes =
    g.scheduler.notes ++ (e.notes ++ if e.stops cfg then [] else [.advanced more])
  result : g'.result = g.result.add cfg.collectTraces e.trace e.redundant
  iteration : g'.iteration = g.iteration + 1

omit [Engine ε σ] in
/-- The account of an execution: the scheduler is asked for another one unless there was an error that
is enough. -/
theorem performs_account {e : Performed} {g₁ : Progress (Noted σ)} {o : Outcome}
    (hreports : Engine.Reports x.config e.replies e.trace)
    (hredundant : e.redundant = Scheduler.wasRedundant (concluded g₁.scheduler e.trace))
    (hnotes : (concluded g₁.scheduler e.trace).notes = g.scheduler.notes ++ e.notes)
    (hresult : g₁.result = g.result) (hiteration : g₁.iteration = g.iteration)
    (h : x.noted.account g₁ e.trace = (o, g')) :
    Performs x.config e (o == .continues) g g' ∧ (o = .continues → e.stops x.config = false) := by
  have hadd := x.noted.result_account g₁ e.trace
  rw [h, ← hredundant, hresult] at hadd
  have haccount : x.noted.account g₁ e.trace = if e.stops x.config
      then (.finished, ⟨g₁.session, concluded g₁.scheduler e.trace, _, g₁.iteration + 1, g₁.log⟩)
      else (if (Scheduler.advance (concluded g₁.scheduler e.trace)).1 then .continues else .finished,
        ⟨g₁.session, (Scheduler.advance (concluded g₁.scheduler e.trace)).2, _, g₁.iteration + 1,
          g₁.log⟩) := rfl
  rw [h] at haccount
  cases hstops : e.stops x.config with
  | true =>
      rw [hstops, if_pos rfl] at haccount
      obtain ⟨rfl, rfl⟩ := Prod.mk.inj haccount
      exact ⟨⟨hreports, by simp [hnotes, hstops], hadd, by rw [hiteration]⟩, by simp⟩
  | false =>
      rw [hstops, if_neg (by simp)] at haccount
      obtain ⟨rfl, rfl⟩ := Prod.mk.inj haccount
      refine ⟨⟨hreports, ?_, hadd, by rw [hiteration]⟩, fun _ => rfl⟩
      have hadvance : (Scheduler.advance (concluded g₁.scheduler e.trace)).2.notes =
        (concluded g₁.scheduler e.trace).notes ++
          [.advanced (Scheduler.advance (concluded g₁.scheduler e.trace)).1] := rfl
      rw [hadvance, hnotes, hstops]
      cases (Scheduler.advance (concluded g₁.scheduler e.trace)).1 <;> simp

/-- **One more execution.** -/
theorem performs_round {o : Outcome} (h : x.noted.round g = (o, g'))
    (ho : o = .continues ∨ o = .finished) :
    ∃ e, Performs x.config e (o == .continues) g g' ∧
      (o = .continues → e.stops x.config = false) := by
  cases hattempt : x.noted.attempt g with
  | none =>
      obtain ⟨hcontinues, hfinished, -⟩ := x.noted.round_of_attempt_eq_none g hattempt
      rw [h] at hcontinues hfinished
      exact absurd ho (not_or.mpr ⟨hcontinues, hfinished⟩)
  | some y =>
      obtain ⟨g₁, trace⟩ := y
      obtain ⟨hround, hresult⟩ := x.noted.round_of_attempt g hattempt
      obtain ⟨hiteration, rs, hnotes, hreports⟩ := exists_replies hattempt
      rw [hround] at h
      refine ⟨⟨rs, trace, Scheduler.wasRedundant (concluded g₁.scheduler trace)⟩,
        performs_account hreports rfl ?_ hresult hiteration h⟩
      rw [Noted.notes_concluded, hnotes, Performed.notes]
      simp

/-- The executions `es` were performed from `g` to `g'`, and there is no other one. -/
structure PerformsAll (cfg : Config) (es : List Performed) (g g' : Progress (Noted σ)) : Prop where
  ne_nil : es ≠ []
  reports : ∀ e ∈ es, Engine.Reports cfg e.replies e.trace
  notes : g'.scheduler.notes = g.scheduler.notes ++ transcript cfg es
  result : g'.result = es.foldl (fun r e => r.add cfg.collectTraces e.trace e.redundant) g.result
  iteration : g'.iteration = g.iteration + es.length
  goesOn : ∀ e ∈ es.dropLast, e.stops cfg = false

omit [Scheduler σ] in
theorem PerformsAll.cons {cfg : Config} {e : Performed} {es : List Performed}
    {g₁ : Progress (Noted σ)} (h : Performs cfg e true g g₁) (hstops : e.stops cfg = false)
    (hall : PerformsAll cfg es g₁ g') : PerformsAll cfg (e :: es) g g' where
  ne_nil := by simp
  reports := List.forall_mem_cons.mpr ⟨h.reports, hall.reports⟩
  notes := by
    rw [hall.notes, h.notes, transcript_cons cfg e hall.ne_nil, hstops]
    simp
  result := by rw [hall.result, h.result, List.foldl_cons]
  iteration := by
    rw [hall.iteration, h.iteration, List.length_cons]
    omega
  goesOn := by
    rw [List.dropLast_cons_of_ne_nil hall.ne_nil]
    exact List.forall_mem_cons.mpr ⟨hstops, hall.goesOn⟩

omit [Scheduler σ] in
theorem Performs.last {cfg : Config} {e : Performed} (h : Performs cfg e false g g') :
    PerformsAll cfg [e] g g' where
  ne_nil := by simp
  reports := by simpa using h.reports
  notes := h.notes
  result := h.result
  iteration := h.iteration
  goesOn := by simp

/-- **The executions of a finished exploration.** -/
theorem performsAll_rounds (fuel : Nat) (h : x.noted.rounds fuel g = (.finished, g')) :
    ∃ es, PerformsAll x.config es g g' := by
  induction fuel generalizing g with
  | zero => cases h
  | succ fuel ih =>
      rw [rounds] at h
      generalize hround : x.noted.round g = y at h
      obtain ⟨o, g₁⟩ := y
      cases o with
      | continues =>
          obtain ⟨e, hperforms, hstops⟩ := performs_round hround (.inl rfl)
          obtain ⟨es, hall⟩ := ih h
          exact ⟨e :: es, .cons hperforms (hstops rfl) hall⟩
      | finished =>
          obtain ⟨-, rfl⟩ := Prod.mk.inj h
          obtain ⟨e, hperforms, -⟩ := performs_round hround (.inr rfl)
          exact ⟨[e], hperforms.last⟩
      | _ => cases h

variable (x)

/-- The notes on an exploration. -/
def notes (fuel : Nat) (s : Session) (q : σ) : List Note :=
  (x.noted.explore fuel s (.start q)).2.scheduler.notes

/-- The exploration performs the executions `es`, and its result is what they add up to. -/
structure Consists (fuel : Nat) (s : Session) (q : σ) (es : List Performed) : Prop where
  ne_nil : es ≠ []
  /-- Each engine replies to what the configuration asks for. -/
  reports : ∀ e ∈ es, Engine.Reports x.config e.replies e.trace
  /-- What is asked for between the executions, and what is told about each. -/
  notes : x.notes fuel s q = transcript x.config es
  created : (x.notes fuel s q).count .created = es.length
  ended : (x.notes fuel s q).countP Note.isEnd = es.length
  iteration : (x.explore fuel s q).2.iteration = es.length
  result : (x.explore fuel s q).2.result =
    { traceCount := es.countP fun e => !e.redundant
      blockedCount := es.countP Performed.redundant
      errorTrace := (es.map Performed.trace).find? Trace.hasErrors
      allTraces := if x.config.collectTraces then es.map Performed.trace else [] }
  /-- One error is enough. -/
  errors : x.config.exploreAll = false → ∀ e ∈ es.dropLast, e.trace.hasErrors = false

/-- Why a finished exploration ended, by its result and the notes on it. -/
inductive EndsBy (cfg : Config) (r : Result) (notes : List Note) : Prop where
  /-- The scheduler was asked for another execution and had none. -/
  | exhausted (last : notes.getLast? = some (.advanced false))
      (goesOn : r.hasErrors = true → cfg.exploreAll = true)
  /-- The scheduler was not asked any more: an error was found, and one is enough. -/
  | stopped (redundant : Bool) (last : notes.getLast? = some (.ended redundant))
      (errors : r.hasErrors = true) (first : cfg.exploreAll = false)

variable {x} in
/-- **An exploration ends** when the scheduler has no other execution, or at an error. -/
theorem Consists.endsBy {fuel : Nat} {s : Session} {q : σ} {es : List Performed}
    (h : x.Consists fuel s q es) :
    EndsBy x.config (x.explore fuel s q).2.result (x.notes fuel s q) := by
  obtain hnil | ⟨es, e, rfl⟩ := List.eq_nil_or_concat' es
  · exact absurd hnil h.ne_nil
  have hlast := getLast?_transcript x.config es e
  rw [← h.notes] at hlast
  have herrors : (x.explore fuel s q).2.result.hasErrors = true ↔
      (∃ e ∈ es, e.trace.hasErrors = true) ∨ e.trace.hasErrors = true := by
    rw [h.result, Result.hasErrors, List.find?_isSome]
    simp [or_and_right, exists_or]
  cases hstops : e.stops x.config with
  | true =>
      rw [hstops, if_pos rfl] at hlast
      simp only [Performed.stops, Bool.and_eq_true, Bool.not_eq_true'] at hstops
      exact .stopped e.redundant hlast (herrors.mpr (.inr hstops.1)) hstops.2
  | false =>
      rw [hstops, if_neg (by simp)] at hlast
      refine .exhausted hlast fun hr => ?_
      -- if one error were enough, the execution with an error would be the last, which does not stop
      by_contra hall
      rw [Bool.not_eq_true] at hall
      have hbefore := h.errors hall
      rw [List.dropLast_concat] at hbefore
      rcases herrors.mp hr with ⟨e', he', htrace⟩ | htrace
      · simp [hbefore e' he'] at htrace
      · simp [Performed.stops, hall, htrace] at hstops

theorem exists_consists (fuel : Nat) (s : Session) (q : σ)
    (h : (x.explore fuel s q).1 = .finished) : ∃ es, x.Consists fuel s q es := by
  have hnoted := x.explore_noted fuel s q
  obtain ⟨g, hrounds, hexplore⟩ := x.noted.exists_rounds_of_explore
    (show (x.noted.explore fuel s (.start q)).1 = .finished by rwa [hnoted] at h)
  obtain ⟨es, hall⟩ := performsAll_rounds fuel hrounds
  have hnotes : x.notes fuel s q = transcript x.config es := by
    rw [notes, hexplore, hall.notes]
    rfl
  obtain ⟨hcreated, hended⟩ := count_transcript x.config es
  refine ⟨es, hall.ne_nil, hall.reports, hnotes, hnotes ▸ hcreated, hnotes ▸ hended, ?_, ?_, ?_⟩
  · rw [hnoted, hexplore]
    exact hall.iteration.trans (Nat.zero_add _)
  · rw [hnoted, hexplore]
    exact hall.result.trans ((foldl_add _ es .empty).trans (by simp [Result.empty]))
  · intro hfirst e he
    simpa [Performed.stops, hfirst] using hall.goesOn e he

end Exploration

end Interleave
