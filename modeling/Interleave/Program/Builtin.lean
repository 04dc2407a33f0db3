import Interleave.Failure
import Interleave.Program.Basic

/-! # Builtin functions

A `call` names a builtin function.  A `Registry` holds the builtins that are known; it starts out
without any, and nothing can be looked up before they are registered.  `Program.check` accepts a
program all of whose calls name a known builtin with as many arguments as it takes. -/

namespace Interleave

/-- What a builtin does. -/
inductive Effect where
  /-- Fail if the first argument is zero or missing. -/
  | assert
  /-- Fail. -/
  | abort
  /-- Do nothing. -/
  | yield
  /-- Log the arguments. -/
  | print
deriving DecidableEq, Repr, Inhabited

/-- A function that a program can call. -/
structure Builtin where
  name : String
  /-- Number of arguments; any number if there is none. -/
  arity : Option Nat
  effect : Effect
deriving DecidableEq, Repr, Inhabited

/-- The builtins of the dialect. -/
def Builtin.all : List Builtin :=
  [⟨"assert", some 1, .assert⟩, ⟨"abort", some 0, .abort⟩, ⟨"yield", some 0, .yield⟩,
    ⟨"print", none, .print⟩]

/-- The builtins known so far; `none` before they are registered. -/
structure Registry where
  entries : Option (List Builtin)
deriving DecidableEq, Repr, Inhabited

namespace Registry

/-- The registry before registration. -/
def unset : Registry := ⟨none⟩

/-- Register the builtins; once they are registered this changes nothing. -/
def register (r : Registry) : Registry := ⟨some (r.entries.getD Builtin.all)⟩

/-- The registry that everyday use starts with. -/
def standard : Registry := unset.register

/-- Whether the builtins have been registered. -/
def isSet (r : Registry) : Bool := r.entries.isSome

/-- The builtin of a name. -/
def lookup (r : Registry) (name : String) : Except Failure (Option Builtin) :=
  match r.entries with
  | none => .error .notRegistered
  | some es => .ok (es.find? fun b => b.name == name)

@[simp] theorem register_register (r : Registry) : r.register.register = r.register := rfl

@[simp] theorem isSet_register (r : Registry) : r.register.isSet = true := rfl

end Registry

/-- Check the call at position `pc` of a function. -/
def Registry.checkCall (r : Registry) (function : String) (pc : Nat) :
    Instr Nat → Except Failure Unit
  | .call name args => do
    match ← r.lookup name with
    | none => .error (.check (.unknownCallee name function pc))
    | some b =>
      match b.arity with
      | some n =>
        if n = args.length then .ok ()
        else .error (.check (.wrongArity name n args.length function pc))
      | none => .ok ()
  | _ => .ok ()

/-- Check every call of a program, in order; the first that fits no builtin is reported. -/
def Program.check (r : Registry) (p : Program) : Except Failure Unit :=
  p.functions.forM fun f => f.body.zipIdx.forM fun (i, pc) => r.checkCall f.name pc i

end Interleave
