import Interleave.Config
import Interleave.Program.ReadError

/-! # Failures of the checker

A `Failure` ends a whole exploration.  Errors of the checked program are no failures: they are
recorded on traces. -/

namespace Interleave

/-- Why a program file could not be read. -/
inductive FileError where
  | missing
  | notUtf8
deriving DecidableEq, Repr, Inhabited

/-- The wording of each cause. -/
def FileError.message : FileError → String
  | missing => "No such file or directory (os error 2)"
  | notUtf8 => "stream did not contain valid UTF-8"

/-- Why a program that could be read is not accepted: a call fits no builtin. -/
inductive CheckError where
  | unknownCallee (name function : String) (pc : Nat)
  | wrongArity (name : String) (expected actual : Nat) (function : String) (pc : Nat)
deriving DecidableEq, Repr, Inhabited

/-- The wording of each cause. -/
def CheckError.message : CheckError → String
  | unknownCallee name function pc =>
    "call to unknown function `" ++ name ++ "` in `" ++ function ++ "` at instruction "
      ++ toString pc
  | wrongArity name expected actual function pc =>
    "`" ++ name ++ "` expects " ++ toString expected ++ " argument(s), got " ++ toString actual
      ++ " in `" ++ function ++ "` at instruction " ++ toString pc

/-- Why an engine could not be created. -/
inductive EngineRefusal where
  | wrongModel (own wanted : MemoryModel)
  | memoryLimit (globals limit : Nat)
  | engineLimit (limit : Nat)
deriving DecidableEq, Repr, Inhabited

/-- The wording of each cause. -/
def EngineRefusal.message : EngineRefusal → String
  | wrongModel own wanted => own.name ++ " interpreter cannot execute under " ++ wanted.name
  | memoryLimit globals limit => s!"{globals} globals exceed the memory limit of {limit} cells"
  | engineLimit limit => s!"cap of {limit} reached"

/-- A condition that ends a whole exploration. -/
inductive Failure where
  | file (cause : FileError)
  | read (error : LineError)
  | check (cause : CheckError)
  | unsupportedModel (model : MemoryModel)
  | missingEntryPoint (name : String)
  | engine (cause : EngineRefusal)
  /-- The builtin functions were not registered first. -/
  | notRegistered
deriving DecidableEq, Repr, Inhabited

namespace Failure

/-- The wording of each failure. -/
def message : Failure → String
  | file cause => cause.message
  | read e => s!"Failed to parse assembly at line {e.line}: " ++ e.cause.message
  | check cause => "Invalid module: " ++ cause.message
  | unsupportedModel model => "Unsupported memory model: " ++ model.name
  | missingEntryPoint name => "No " ++ name ++ " function found in module"
  | engine cause => "Error creating execution engine: " ++ cause.message
  | notRegistered => "Checker runtime is not initialized; call smc_rs::init() first"

/-- Whether the failure arose while loading the program. -/
def isLoadFailure : Failure → Bool
  | file _ | read _ | check _ => true
  | _ => false

end Failure

end Interleave
