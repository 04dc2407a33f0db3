import Interleave.Containment
import Mathlib.Data.List.Count

/-! # Containment hides exactly the contained faults

What an action does to its process is a sequence of happenings, and which ones these are does not
depend on hooks: `Action.story` tells them together with the answer.  Doing the action is to let
them happen to the process one after the other (`Action.run_follows`).

A process whose guards come and go in this way is `Host.Sound`: while a guard is alive, the hook is
a filter whose inner hook is the one that will be restored.  Filters that were left behind by guards
dropped during unwinding may stand below it, and all of them pass a fault on that is not contained.
So at every moment the counting hook has been told of the faults that were raised outside of any
containment, each of them once, and of no other (`World.performAll_seen`). -/

namespace Interleave.Containment

variable {α β : Type}

/-! ### What happens -/

/-- Something that happens to a process. -/
inductive Happening where
  | install
  | release (unwinding : Bool)
  /-- A containment begins. -/
  | enter
  /-- A containment ends, inside another one or not. -/
  | leave (inside : Bool)
  /-- A fault is raised, inside a containment or not. -/
  | raise (inside : Bool)
deriving DecidableEq, Repr

/-- Whether a guard is dropped. -/
def Happening.isRelease : Happening → Bool
  | release _ => true
  | _ => false

namespace Action

mutual

/-- The answer of an action and what happens in it, given which guards it can name and whether it is
done inside a containment. -/
def story (scope : Scope) (inside : Bool) :
    Action α → Except Fault (Answer α) × List Happening
  | .value v => (.ok (.value v), [])
  | .raise f => (.error f, [.raise inside])
  | .seq as =>
    match storyAll scope inside as with
    | (.ok vs, l) => (.ok (.list vs), l)
    | (.error f, l) => (.error f, l)
  | .attempt a =>
    match a.story scope inside with
    | (.ok v, l) => (.ok (.ok v), l)
    | (.error _, l) => (.ok .caught, l)
  | .contain guard a =>
    if scope.isAlive guard then
      match a.story scope true with
      | (.ok v, l) => (.ok (.ok v), .enter :: l ++ [.leave inside])
      | (.error f, l) => (.ok (.fault f.toError), .enter :: l ++ [.leave inside])
    else (.ok .noGuard, [])
  | .install a =>
    match a.story scope.inner inside with
    | (.ok v, l) => (.ok v, .install :: l ++ [.release false])
    | (.error f, l) => (.error f, .install :: l ++ [.release true])

/-- The answers of actions that are done one after the other, until one raises a fault, and what
happens in them. -/
def storyAll (scope : Scope) (inside : Bool) :
    List (Action α) → Except Fault (List (Answer α)) × List Happening
  | [] => (.ok [], [])
  | a :: as =>
    match a.story scope inside with
    | (.error f, l) => (.error f, l)
    | (.ok v, l) =>
      match storyAll scope inside as with
      | (.ok vs, l') => (.ok (v :: vs), l ++ l')
      | (.error f, l') => (.error f, l ++ l')

end

end Action

theorem Hook.reports_false (k : Hook) : k.reports false = 1 := by
  induction k with
  | counting => rfl
  | filter inner ih => simpa [reports] using ih

namespace Host

/-- The process behind something that happens to it. -/
def after (h : Host) : Happening → Host
  | .install => h.install
  | .release unwinding => h.release unwinding
  | .enter => { h with containing := true }
  | .leave inside => { h with containing := inside }
  | .raise _ => h.raise

/-- The process behind all that happens to it. -/
def afterAll (h : Host) (l : List Happening) : Host := l.foldl after h

@[simp] theorem afterAll_nil (h : Host) : h.afterAll [] = h := rfl

@[simp] theorem afterAll_cons (h : Host) (x : Happening) (l : List Happening) :
    h.afterAll (x :: l) = (h.after x).afterAll l := rfl

@[simp] theorem afterAll_append (h : Host) (l l' : List Happening) :
    h.afterAll (l ++ l') = (h.afterAll l).afterAll l' := List.foldl_append

theorem guards_install (h : Host) : h.install.guards = h.guards + 1 := by
  unfold install
  split
  · next hzero => rw [hzero]
  · rfl

@[simp] theorem containing_install (h : Host) : h.install.containing = h.containing := by
  unfold install
  split <;> rfl

@[simp] theorem seen_install (h : Host) : h.install.seen = h.seen := by
  unfold install
  split <;> rfl

theorem guards_release (h : Host) (unwinding : Bool) : (h.release unwinding).guards = h.guards - 1 := by
  unfold release
  split
  · rfl
  · show 0 = h.guards - 1
    omega

@[simp] theorem containing_release (h : Host) (unwinding : Bool) :
    (h.release unwinding).containing = h.containing := by
  unfold release
  split <;> rfl

@[simp] theorem seen_release (h : Host) (unwinding : Bool) : (h.release unwinding).seen = h.seen := by
  unfold release
  split <;> rfl

/-! ### What a process permits -/

/-- Whether something can happen to a process: guards that are dropped are alive, a fault is contained
exactly if it is raised inside a containment, and a guard outlives every containment. -/
def Permits (h : Host) : Happening → Prop
  | .install => True
  | .release _ => 0 < h.guards ∧ (h.containing = true → 1 < h.guards)
  | .enter => 0 < h.guards
  | .leave inside => inside = true → 0 < h.guards
  | .raise inside => h.containing = inside

/-- Whether all of it can happen to a process, one after the other. -/
def PermitsAll (h : Host) : List Happening → Prop
  | [] => True
  | x :: l => h.Permits x ∧ (h.after x).PermitsAll l

theorem permitsAll_append {h : Host} {l l' : List Happening} :
    h.PermitsAll (l ++ l') ↔ h.PermitsAll l ∧ (h.afterAll l).PermitsAll l' := by
  induction l generalizing h with
  | nil => simp [PermitsAll]
  | cons x l ih => simp only [List.cons_append, PermitsAll, ih, afterAll_cons, and_assoc]

theorem PermitsAll.left {h : Host} {l p : List Happening} (hl : h.PermitsAll l) (hp : p <+: l) :
    h.PermitsAll p := by
  obtain ⟨l', rfl⟩ := hp
  exact (permitsAll_append.mp hl).1

/-! ### What is always so -/

/-- While a guard is alive the hook is a filter of the hook that will be restored; only then can a
fault be contained. -/
structure Sound (h : Host) : Prop where
  filters : 0 < h.guards → ∃ inner, h.hook = .filter inner ∧ h.previous = some inner
  guarded : h.containing = true → 0 < h.guards

theorem sound_start : start.Sound := ⟨fun h => absurd h (Nat.lt_irrefl 0), fun h => by cases h⟩

/-- **One step**: what is permitted keeps the process sound, the faults outside of containments are
counted, and the guards are those installed and not yet dropped. -/
theorem Sound.after {h : Host} (hs : h.Sound) {x : Happening} (hx : h.Permits x) :
    (h.after x).Sound ∧ (h.after x).seen = h.seen + [x].count (.raise false) ∧
      (h.after x).guards + [x].countP Happening.isRelease = h.guards + [x].count .install := by
  cases x with
  | install =>
      refine ⟨⟨fun _ => ?_, fun _ => ?_⟩, by simp [Host.after], ?_⟩
      · by_cases hzero : h.guards = 0
        · exact ⟨h.hook, by simp [Host.after, install, hzero], by simp [Host.after, install, hzero]⟩
        · simpa [Host.after, install, hzero] using hs.filters (by omega)
      · simp [Host.after, guards_install]
      · simp [Host.after, guards_install, Happening.isRelease]
  | release unwinding =>
      obtain ⟨hpos, hmore⟩ := hx
      refine ⟨⟨fun hlive => ?_, fun hcontaining => ?_⟩, by simp [Host.after], ?_⟩
      · have hlt : 1 < h.guards := by
          simp only [Host.after, guards_release] at hlive
          omega
        simpa [Host.after, release, hlt] using hs.filters hpos
      · simp only [Host.after, containing_release, guards_release] at hcontaining ⊢
        have := hmore hcontaining
        omega
      · have hone : [Happening.release unwinding].countP Happening.isRelease = 1 := rfl
        have hzero : [Happening.release unwinding].count .install = 0 := by simp
        rw [Host.after, guards_release, hone, hzero]
        omega
  | enter =>
      exact ⟨⟨hs.filters, fun _ => hx⟩, by simp [Host.after], by simp [Host.after, Happening.isRelease]⟩
  | leave inside =>
      exact ⟨⟨hs.filters, hx⟩, by simp [Host.after], by simp [Host.after, Happening.isRelease]⟩
  | raise inside =>
      refine ⟨⟨hs.filters, hs.guarded⟩, ?_, by simp [Host.after, raise, Happening.isRelease]⟩
      replace hx : h.containing = inside := hx
      cases inside with
      | false => simp [Host.after, raise, hx, Hook.reports_false]
      | true =>
          obtain ⟨inner, hhook, -⟩ := hs.filters (hs.guarded hx)
          simp [Host.after, raise, hx, hhook, Hook.reports]

/-- **All steps.** -/
theorem Sound.afterAll {h : Host} (hs : h.Sound) {l : List Happening} (hl : h.PermitsAll l) :
    (h.afterAll l).Sound ∧ (h.afterAll l).seen = h.seen + l.count (.raise false) ∧
      (h.afterAll l).guards + l.countP Happening.isRelease = h.guards + l.count .install := by
  induction l generalizing h with
  | nil => exact ⟨hs, rfl, rfl⟩
  | cons x l ih =>
      obtain ⟨hx, hl⟩ := hl
      obtain ⟨hs', hseen, hguards⟩ := hs.after hx
      obtain ⟨hs'', hseen', hguards'⟩ := ih hs' hl
      rw [← List.singleton_append, List.count_append, List.count_append, List.countP_append]
      refine ⟨hs'', ?_, ?_⟩
      · rw [List.singleton_append, afterAll_cons, hseen', hseen, Nat.add_assoc]
      · rw [List.singleton_append, afterAll_cons]
        omega

end Host

/-! ### Actions -/

/-- What was done to the process `h` is what is told, and no guard or containment of its own is left
behind. -/
structure Follows (h : Host) (done : Except Fault β × Host) (told : Except Fault β × List Happening) :
    Prop where
  answer : done.1 = told.1
  host : done.2 = h.afterAll told.2
  permitted : h.PermitsAll told.2
  guards : done.2.guards = h.guards
  containing : done.2.containing = h.containing

namespace Follows

variable {γ : Type} {h h' : Host} {r r' : Except Fault β} {l : List Happening}

theorem answering (hf : Follows h (r, h') (r', l)) (x : Except Fault γ) : Follows h (x, h') (x, l) :=
  ⟨rfl, hf.host, hf.permitted, hf.guards, hf.containing⟩

theorem trans (hf : Follows h (r, h') (r', l)) {h'' : Host} {s s' : Except Fault γ}
    {l' : List Happening} (hf' : Follows h' (s, h'') (s', l')) : Follows h (s, h'') (s', l ++ l') := by
  have hhost : h' = h.afterAll l := hf.host
  refine ⟨hf'.answer, ?_, Host.permitsAll_append.mpr ⟨hf.permitted, ?_⟩,
    hf'.guards.trans hf.guards, hf'.containing.trans hf.containing⟩
  · rw [Host.afterAll_append, ← hhost]
    exact hf'.host
  · rw [← hhost]
    exact hf'.permitted

theorem contained (hpos : 0 < h.guards) (hf : Follows (h.after .enter) (r, h') (r', l))
    (x : Except Fault γ) :
    Follows h (x, { h' with containing := h.containing })
      (x, .enter :: l ++ [.leave h.containing]) := by
  have hhost : h' = (h.after .enter).afterAll l := hf.host
  refine ⟨rfl, ?_, ?_, hf.guards, rfl⟩
  · rw [Host.afterAll_append, Host.afterAll_cons h .enter, ← hhost]
    rfl
  · rw [List.cons_append]
    refine ⟨hpos, Host.permitsAll_append.mpr ⟨hf.permitted, fun _ => ?_, trivial⟩⟩
    rw [← hhost, show h'.guards = h.guards from hf.guards]
    exact hpos

theorem installed (hcontaining : h.containing = true → 0 < h.guards)
    (hf : Follows (h.after .install) (r, h') (r', l)) (unwinding : Bool) (x : Except Fault γ) :
    Follows h (x, h'.release unwinding) (x, .install :: l ++ [.release unwinding]) := by
  have hhost : h' = (h.after .install).afterAll l := hf.host
  have hguards : h'.guards = h.guards + 1 := hf.guards.trans h.guards_install
  have hflag : h'.containing = h.containing := hf.containing.trans h.containing_install
  refine ⟨rfl, ?_, ?_, ?_, ?_⟩
  · rw [Host.afterAll_append, Host.afterAll_cons h .install, ← hhost]
    rfl
  · rw [List.cons_append]
    refine ⟨trivial, Host.permitsAll_append.mpr ⟨hf.permitted, ?_, trivial⟩⟩
    rw [← hhost]
    refine ⟨by omega, fun hc => ?_⟩
    have := hcontaining (hflag.symm.trans hc)
    omega
  · rw [Host.guards_release, hguards, Nat.add_sub_cancel]
  · rw [Host.containing_release, hflag]

end Follows

namespace Action

mutual

/-- **Doing an action is to let happen what is told of it.** -/
theorem run_follows (scope : Scope) (a : Action α) {h : Host}
    (hcontaining : h.containing = true → 0 < h.guards)
    (halive : ∀ guard, scope.isAlive guard = true → 0 < h.guards) :
    Follows h (a.run scope h) (a.story scope h.containing) := by
  match a with
  | .value v => exact ⟨rfl, rfl, trivial, rfl, rfl⟩
  | .raise f => exact ⟨rfl, rfl, ⟨rfl, trivial⟩, rfl, rfl⟩
  | .seq as =>
      have ih := runAll_follows scope as hcontaining halive
      rw [run, story]
      generalize runAll scope as h = done, storyAll scope h.containing as = told at ih
      obtain ⟨_ | vs, h'⟩ := done <;> obtain ⟨_ | vs', l⟩ := told <;> cases ih.answer <;>
        exact ih.answering _
  | .attempt a =>
      have ih := run_follows scope a hcontaining halive
      rw [run, story]
      generalize a.run scope h = done, a.story scope h.containing = told at ih
      obtain ⟨_ | v, h'⟩ := done <;> obtain ⟨_ | v', l⟩ := told <;> cases ih.answer <;>
        exact ih.answering _
  | .contain guard a =>
      rw [run, story]
      split
      · next hguard =>
        have hpos : 0 < h.guards := halive guard hguard
        have ih := run_follows scope a (h := h.after .enter) (fun _ => hpos) halive
        simp only [Host.after] at ih ⊢
        generalize a.run scope { h with containing := true } = done, a.story scope true = told at ih
        obtain ⟨_ | v, h'⟩ := done <;> obtain ⟨_ | v', l⟩ := told <;> cases ih.answer <;>
          exact ih.contained hpos _
      · exact ⟨rfl, rfl, trivial, rfl, rfl⟩
  | .install a =>
      have hpos : 0 < (h.after .install).guards := by
        rw [Host.after, Host.guards_install]
        omega
      have ih := run_follows scope.inner a (fun _ => hpos) (fun _ _ => hpos)
      rw [run, story]
      rw [Host.after, Host.containing_install] at ih
      generalize a.run scope.inner h.install = done, a.story scope.inner h.containing = told at ih
      obtain ⟨_ | v, h'⟩ := done <;> obtain ⟨_ | v', l⟩ := told <;> cases ih.answer <;>
        exact ih.installed hcontaining _ _

theorem runAll_follows (scope : Scope) (as : List (Action α)) {h : Host}
    (hcontaining : h.containing = true → 0 < h.guards)
    (halive : ∀ guard, scope.isAlive guard = true → 0 < h.guards) :
    Follows h (runAll scope as h) (storyAll scope h.containing as) := by
  match as with
  | [] => exact ⟨rfl, rfl, trivial, rfl, rfl⟩
  | a :: as =>
      have ha := run_follows scope a hcontaining halive
      rw [runAll, storyAll]
      generalize a.run scope h = done, a.story scope h.containing = told at ha
      obtain ⟨_ | v, h'⟩ := done <;> obtain ⟨_ | v', l⟩ := told <;> cases ha.answer
      · exact ha.answering _
      · have has := runAll_follows scope as (h := h')
          (fun hc => lt_of_lt_of_eq (hcontaining (ha.containing.symm.trans hc)) ha.guards.symm)
          (fun guard hguard => lt_of_lt_of_eq (halive guard hguard) ha.guards.symm)
        rw [show h'.containing = h.containing from ha.containing] at has
        simp only
        generalize runAll scope as h' = done', storyAll scope h.containing as = told' at has
        obtain ⟨_ | vs, h''⟩ := done' <;> obtain ⟨_ | vs', l'⟩ := told' <;> cases has.answer <;>
          exact (ha.trans has).answering _

end

end Action

/-! ### Operations -/

/-- What can be done with a process: guards come and go, and actions are done. -/
inductive Op (α : Type) where
  | addGuard
  | dropGuard (i : Nat)
  | act (a : Action α)

/-- The reply to an operation. -/
inductive Reply (α : Type) where
  | guard (i : Nat)
  | dropped (wasAlive : Bool)
  | answer (v : Answer α)

namespace World

/-- Perform an operation. -/
def perform (w : World) : Op α → Reply α × World
  | .addGuard => Prod.map .guard id w.addGuard
  | .dropGuard i => Prod.map .dropped id (w.dropGuard i)
  | .act a => Prod.map .answer id (w.act a)

/-- Perform operations one after the other. -/
def performAll (w : World) : List (Op α) → List (Reply α) × World
  | [] => ([], w)
  | o :: os =>
    let (r, w) := w.perform o
    let (rs, w) := w.performAll os
    (r :: rs, w)

end World

/-- What is told of operations: the replies, which guards are alive behind them, and what happens. -/
structure Told (α : Type) where
  replies : List (Reply α)
  alive : List Bool
  happenings : List Happening

namespace Op

/-- What is told of an operation, given which guards are alive. -/
def tell (alive : List Bool) : Op α → Told α
  | .addGuard => ⟨[.guard alive.length], alive ++ [true], [.install]⟩
  | .dropGuard i =>
    if alive[i]? = some true then ⟨[.dropped true], alive.set i false, [.release false]⟩
    else ⟨[.dropped false], alive, []⟩
  | .act a =>
    match a.story ⟨alive, 0⟩ false with
    | (.ok v, l) => ⟨[.answer (.ok v)], alive, l⟩
    | (.error _, l) => ⟨[.answer .caught], alive, l⟩

/-- What is told of operations that are performed one after the other. -/
def tellAll (alive : List Bool) : List (Op α) → Told α
  | [] => ⟨[], alive, []⟩
  | o :: os =>
    let first := o.tell alive
    let rest := tellAll first.alive os
    ⟨first.replies ++ rest.replies, rest.alive, first.happenings ++ rest.happenings⟩

end Op

namespace World

/-- The guards of the process are those that are alive, and it is not inside a containment. -/
structure Settled (w : World) : Prop where
  guards : w.host.guards = w.alive.count true
  outside : w.host.containing = false

/-- What was done to a world is what is told. -/
structure Tells (w : World) (done : List (Reply α) × World) (told : Told α) : Prop where
  replies : done.1 = told.replies
  alive : done.2.alive = told.alive
  host : done.2.host = w.host.afterAll told.happenings
  permitted : w.host.PermitsAll told.happenings
  settled : done.2.Settled

/-- **One operation** is what is told of it. -/
theorem Settled.perform {w : World} (hw : w.Settled) (o : Op α) :
    w.Tells ([(w.perform o).1], (w.perform o).2) (o.tell w.alive) := by
  have hpos : true ∈ w.alive → 0 < w.host.guards := fun hmem =>
    hw.guards ▸ List.count_pos_iff.mpr hmem
  cases o with
  | addGuard =>
      refine ⟨rfl, rfl, rfl, ⟨trivial, trivial⟩, ?_, ?_⟩
      · show w.host.install.guards = (w.alive ++ [true]).count true
        rw [Host.guards_install, hw.guards, List.count_append, List.count_singleton_self]
      · exact w.host.containing_install.trans hw.outside
  | dropGuard i =>
      simp only [World.perform, dropGuard, Op.tell]
      split
      · next hi =>
        have hlive := hpos (List.mem_of_getElem? hi)
        refine ⟨rfl, rfl, rfl, ⟨⟨hlive, fun hc => ?_⟩, trivial⟩, ?_, ?_⟩
        · rw [hw.outside] at hc
          cases hc
        · show (w.host.release false).guards = (w.alive.set i false).count true
          obtain ⟨hlt, hget⟩ := List.getElem?_eq_some_iff.mp hi
          rw [Host.guards_release, hw.guards, List.count_set hlt, hget]
          simp
        · exact (w.host.containing_release false).trans hw.outside
      · exact ⟨rfl, rfl, rfl, trivial, hw⟩
  | act a =>
      have halive : ∀ guard, Scope.isAlive ⟨w.alive, 0⟩ guard = true → 0 < w.host.guards := by
        intro guard hguard
        cases guard with
        | kept i => exact hpos (List.mem_of_getElem? (beq_iff_eq.mp hguard))
        | enclosing i => exact absurd (of_decide_eq_true (p := i < 0) hguard) (Nat.not_lt_zero i)
      have hrun := a.run_follows ⟨w.alive, 0⟩ (h := w.host)
        (fun hc => by rw [hw.outside] at hc; cases hc) halive
      simp only [World.perform, act, Op.tell]
      rw [hw.outside] at hrun
      generalize a.run ⟨w.alive, 0⟩ w.host = done, a.story ⟨w.alive, 0⟩ false = told at hrun
      obtain ⟨_ | v, h'⟩ := done <;> obtain ⟨_ | v', l⟩ := told <;> cases hrun.answer <;>
        exact ⟨rfl, rfl, hrun.host, hrun.permitted, hrun.guards.trans hw.guards,
          hrun.containing.trans hw.outside⟩

/-- **All operations** are what is told of them. -/
theorem Settled.performAll {w : World} (hw : w.Settled) (os : List (Op α)) :
    w.Tells (w.performAll os) (Op.tellAll w.alive os) := by
  induction os generalizing w with
  | nil => exact ⟨rfl, rfl, rfl, trivial, hw⟩
  | cons o os ih =>
      have ho := hw.perform o
      have hos := ih ho.settled
      rw [World.performAll, Op.tellAll]
      refine ⟨?_, ?_, ?_, ?_, hos.settled⟩
      · show (w.perform o).1 :: _ = _
        rw [hos.replies, ← ho.replies, show (w.perform o).2.alive = _ from ho.alive]
        rfl
      · rw [← show (w.perform o).2.alive = _ from ho.alive]
        exact hos.alive
      · rw [← show (w.perform o).2.alive = _ from ho.alive, Host.afterAll_append,
          ← show (w.perform o).2.host = _ from ho.host]
        exact hos.host
      · rw [← show (w.perform o).2.alive = _ from ho.alive]
        refine Host.permitsAll_append.mpr ⟨ho.permitted, ?_⟩
        rw [← show (w.perform o).2.host = _ from ho.host]
        exact hos.permitted

theorem settled_start : start.Settled := ⟨rfl, rfl⟩

end World

/-! ### The counting hook -/

/-- A live guard contains an action: its value is passed on, its fault becomes an error, and the process
is inside a containment afterwards if it was before. -/
theorem Action.run_contain {scope : Scope} {guard : Guard} (hguard : scope.isAlive guard = true)
    (a : Action α) (h : Host) :
    ((contain guard a).run scope h).2.containing = h.containing ∧
      (∀ v, (a.run scope { h with containing := true }).1 = .ok v →
        ((contain guard a).run scope h).1 = .ok (.ok v)) ∧
      ∀ f, (a.run scope { h with containing := true }).1 = .error f →
        ((contain guard a).run scope h).1 =
          .ok (.fault ⟨.hostFault, none, "fault while executing: " ++ f.message⟩) := by
  rw [run]
  simp only [hguard, if_true]
  generalize a.run scope { h with containing := true } = done
  obtain ⟨_ | v, h'⟩ := done
  · exact ⟨rfl, fun v hv => (by cases hv), fun f hf => by cases hf; rfl⟩
  · exact ⟨rfl, fun v hv => by cases hv; rfl, fun f hf => by cases hf⟩

/-- **Containment hides exactly the contained faults.**  Guards are installed and dropped in any order
while actions are done, in which faults are raised, caught and contained and other guards come and go.
What is done is what is told of it.  At every moment, the hook that was there before has been told of
the faults raised so far outside of any containment, of each of them once and of no other, and a guard
is installed exactly if more have been installed than dropped.  A containment gives the value of its
action or an error for its fault, and leaves the process inside or outside as it was. -/
theorem World.performAll_seen (os : List (Op α)) :
    (start.performAll os).1 = (Op.tellAll [] os).replies ∧
    (start.performAll os).2 =
      ⟨Host.start.afterAll (Op.tellAll [] os).happenings, (Op.tellAll [] os).alive⟩ ∧
    (∀ p, p <+: (Op.tellAll [] os).happenings →
      (Host.start.afterAll p).seen = p.count (.raise false) ∧
      ((Host.start.afterAll p).isInstalled = true ↔
        p.countP Happening.isRelease < p.count .install)) ∧
    ((start.performAll os).2.host.isInstalled = true ↔ true ∈ (start.performAll os).2.alive) ∧
    (start.performAll os).2.host.containing = false ∧
    ∀ (scope : Scope) (guard : Guard) (a : Action α) (h : Host), scope.isAlive guard = true →
      ((Action.contain guard a).run scope h).2.containing = h.containing ∧
      (∀ v, (a.run scope { h with containing := true }).1 = .ok v →
        ((Action.contain guard a).run scope h).1 = .ok (.ok v)) ∧
      ∀ f, (a.run scope { h with containing := true }).1 = .error f →
        ((Action.contain guard a).run scope h).1 =
          .ok (.fault ⟨.hostFault, none, "fault while executing: " ++ f.message⟩) := by
  have htells : start.Tells (start.performAll os) (Op.tellAll [] os) := settled_start.performAll os
  refine ⟨htells.replies, ?_, fun p hp => ?_, ?_, htells.settled.outside,
    fun scope guard a h hguard => a.run_contain hguard h⟩
  · exact congrArg₂ World.mk htells.host htells.alive
  · obtain ⟨-, hseen, hguards⟩ := Host.sound_start.afterAll (htells.permitted.left hp)
    refine ⟨hseen.trans (Nat.zero_add _), ?_⟩
    rw [show Host.start.guards = 0 from rfl] at hguards
    rw [Host.isInstalled, decide_eq_true_iff]
    omega
  · rw [Host.isInstalled, decide_eq_true_iff, htells.settled.guards, List.count_pos_iff]

/-- A guard contains one fault and is dropped by the unwinding of another.  It leaves its filter behind,
on which the next guard puts another one. -/
def leavesFilter : List (Op Unit) :=
  [.act (.install (.seq [.contain (.enclosing 0) (.raise .silent), .raise .silent])), .addGuard,
    .act (.seq [.attempt (.contain (.kept 0) (.seq [.attempt (.raise .silent), .raise .silent])),
      .raise .silent]),
    .dropGuard 0, .act (.raise .silent)]

theorem World.performAll_seen_leavesFilter :
    (start.performAll leavesFilter).2.host.seen = 3 ∧
      (start.performAll leavesFilter).2.host.hook = .filter .counting ∧
      (start.performAll leavesFilter).2.host.isInstalled = false ∧
      ((Action.contain (.enclosing 0) (.raise .silent : Action Unit)).run ⟨[], 1⟩
        Host.start.install).1 =
        .ok (.fault ⟨.hostFault, none, "fault while executing: unknown fault"⟩) := by
  obtain ⟨-, hworld, hmoment, hinstalled, -, hcontain⟩ := performAll_seen leavesFilter
  refine ⟨?_, ?_, ?_, (hcontain ⟨[], 1⟩ (.enclosing 0) (.raise .silent) Host.start.install rfl).2.2
    .silent rfl⟩
  · rw [hworld, (hmoment _ List.prefix_rfl).1]
    decide
  · rw [hworld]
    decide
  · rw [← Bool.not_eq_true, hinstalled, hworld]
    decide

end Interleave.Containment
