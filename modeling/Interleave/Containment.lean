import Interleave.Fault

/-! # Containment of faults

A fault is reported to the hook of the process before it unwinds.  A guard of the containment
replaces the hook for as long as it is alive: faults inside `contain` become errors and are not
reported, all others are passed on to the hook that was there before.  The first guard installs the
filter and the last one restores the previous hook.  A hook cannot be replaced while a fault is
unwinding, so a last guard that is dropped then leaves the filter in place, where it keeps passing
on what it is not asked to contain. -/

namespace Interleave.Containment

/-- Who is told about a fault. -/
inductive Hook where
  /-- The hook that counts every fault it is told of. -/
  | counting
  /-- A filter that tells the inner hook about the faults that are not being contained. -/
  | filter (inner : Hook)
deriving DecidableEq, Repr, Inhabited

/-- How often a fault is counted. -/
def Hook.reports (containing : Bool) : Hook → Nat
  | counting => 1
  | filter inner => if containing then 0 else inner.reports containing

/-- The state of the process that matters to containment. -/
structure Host where
  hook : Hook
  /-- Number of guards that are alive. -/
  guards : Nat
  /-- The hook that the first guard replaced. -/
  previous : Option Hook
  /-- Whether a fault would be contained now. -/
  containing : Bool
  /-- Number of faults counted so far. -/
  seen : Nat
deriving DecidableEq, Repr, Inhabited

namespace Host

/-- A process without guards. -/
def start : Host := ⟨.counting, 0, none, false, 0⟩

/-- Whether a guard is alive. -/
def isInstalled (h : Host) : Bool := 0 < h.guards

/-- A new guard. -/
def install (h : Host) : Host :=
  if h.guards = 0 then
    { h with guards := 1, hook := .filter h.hook, previous := some h.hook }
  else { h with guards := h.guards + 1 }

/-- A guard is dropped, possibly while a fault is unwinding. -/
def release (h : Host) (unwinding : Bool) : Host :=
  if 1 < h.guards then { h with guards := h.guards - 1 }
  else
    let hook := if unwinding then h.hook else h.previous.getD h.hook
    { h with guards := 0, previous := none, hook }

/-- A fault is raised. -/
def raise (h : Host) : Host := { h with seen := h.seen + h.hook.reports h.containing }

end Host

/-- How an action names a guard. -/
inductive Guard where
  /-- One that the process keeps, by its number. -/
  | kept (number : Nat)
  /-- That of an enclosing `install`; the innermost of them has depth zero. -/
  | enclosing (depth : Nat)
deriving DecidableEq, Repr, Inhabited

instance : Coe Nat Guard := ⟨.kept⟩

/-- The guards that an action can name. -/
structure Scope where
  /-- For each guard that the process keeps or has kept, whether it is alive. -/
  kept : List Bool
  /-- Number of guards installed around the action. -/
  enclosing : Nat
deriving DecidableEq, Repr, Inhabited

namespace Scope

/-- Whether a guard is alive. -/
def isAlive (s : Scope) : Guard → Bool
  | .kept i => s.kept[i]? == some true
  | .enclosing i => i < s.enclosing

/-- The scope of an action around which another guard is installed. -/
def inner (s : Scope) : Scope := { s with enclosing := s.enclosing + 1 }

end Scope

/-- Something to be done, which gives a value of type `α` or raises a fault. -/
inductive Action (α : Type) where
  | value (v : α)
  | raise (f : Fault)
  /-- One after the other. -/
  | seq (actions : List (Action α))
  /-- Catch a fault after it has been reported. -/
  | attempt (a : Action α)
  /-- Contain a fault by a guard. -/
  | contain (guard : Guard) (a : Action α)
  /-- Keep a guard alive meanwhile. -/
  | install (a : Action α)

/-- What an action gives. -/
inductive Answer (α : Type) where
  | value (v : α)
  | list (answers : List (Answer α))
  | ok (answer : Answer α)
  | caught
  | fault (e : TraceError)
  /-- The guard that was to contain a fault is not alive. -/
  | noGuard

mutual

/-- Do an action, given which guards it can name. -/
def Action.run {α : Type} (scope : Scope) : Action α → Host → Except Fault (Answer α) × Host
  | .value v, h => (.ok (.value v), h)
  | .raise f, h => (.error f, h.raise)
  | .seq as, h =>
    match Action.runAll scope as h with
    | (.ok vs, h) => (.ok (.list vs), h)
    | (.error f, h) => (.error f, h)
  | .attempt a, h =>
    match a.run scope h with
    | (.ok v, h) => (.ok (.ok v), h)
    | (.error _, h) => (.ok .caught, h)
  | .contain guard a, h =>
    if scope.isAlive guard then
      let outer := h.containing
      match a.run scope { h with containing := true } with
      | (.ok v, h) => (.ok (.ok v), { h with containing := outer })
      | (.error f, h) => (.ok (.fault f.toError), { h with containing := outer })
    else (.ok .noGuard, h)
  | .install a, h =>
    match a.run scope.inner h.install with
    | (.ok v, h) => (.ok v, h.release false)
    | (.error f, h) => (.error f, h.release true)

/-- Do actions one after the other, until one raises a fault. -/
def Action.runAll {α : Type} (scope : Scope) :
    List (Action α) → Host → Except Fault (List (Answer α)) × Host
  | [], h => (.ok [], h)
  | a :: as, h =>
    match a.run scope h with
    | (.error f, h) => (.error f, h)
    | (.ok v, h) =>
      match Action.runAll scope as h with
      | (.ok vs, h) => (.ok (v :: vs), h)
      | (.error f, h) => (.error f, h)

end

/-- A process with numbered guards, some of which are alive. -/
structure World where
  host : Host
  alive : List Bool
deriving DecidableEq, Repr, Inhabited

namespace World

/-- A process that has had no guards yet. -/
def start : World := ⟨.start, []⟩

/-- Install a new guard; its number is the next one. -/
def addGuard (w : World) : Nat × World := (w.alive.length, ⟨w.host.install, w.alive ++ [true]⟩)

/-- Drop a guard; tells whether it was alive. -/
def dropGuard (w : World) (i : Nat) : Bool × World :=
  if w.alive[i]? = some true then (true, ⟨w.host.release false, w.alive.set i false⟩)
  else (false, w)

/-- Do an action and catch its fault. -/
def act {α : Type} (w : World) (a : Action α) : Answer α × World :=
  match a.run ⟨w.alive, 0⟩ w.host with
  | (.ok v, host) => (.ok v, { w with host })
  | (.error _, host) => (.caught, { w with host })

/-- Drop every guard that is alive. -/
def dropAll (w : World) : World :=
  (List.range w.alive.length).foldl (fun w i => (w.dropGuard i).2) w

end World

end Interleave.Containment
