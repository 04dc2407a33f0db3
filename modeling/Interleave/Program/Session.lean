import Interleave.Program.Builtin
import Interleave.Program.Reader

/-! # Sessions

A `Session` owns the program under check together with its source text, from which the program
can be rebuilt at any time.  A session exists only for a text that is a program and whose calls
fit the registered builtins. -/

namespace Interleave

/-- A program under check, with its source. -/
structure Session where
  source : String
  /-- Name of the file that the text came from. -/
  path : Option String
  program : Program
  /-- How often the program was rebuilt. -/
  generation : Nat
deriving DecidableEq, Repr, Inhabited

/-- Read and check a program. -/
def Program.build (r : Registry) (source : String) : Except Failure Program := do
  if !r.isSet then throw .notRegistered
  let p ← (Program.read source).mapError .read
  p.check r
  return p

/-- The text in a file; `none` stands for a file that does not exist. -/
def readFile (bytes : Option ByteArray) : Except Failure String :=
  match bytes with
  | none => .error (.file .missing)
  | some bytes =>
    match String.fromUTF8? bytes with
    | none => .error (.file .notUtf8)
    | some text => .ok text

/-- The program in a file, not checked. -/
def Program.load (bytes : Option ByteArray) : Except Failure Program := do
  (Program.read (← readFile bytes)).mapError .read

namespace Session

/-- Start a session on a program text. -/
def ofText (r : Registry) (source : String) : Except Failure Session := do
  return ⟨source, none, ← Program.build r source, 0⟩

/-- Start a session on the file of the given name and contents. -/
def ofFile (r : Registry) (path : String) (bytes : Option ByteArray) : Except Failure Session := do
  return { ← ofText r (← readFile bytes) with path := some path }

/-- Rebuild the program from its source. -/
def rebuild (r : Registry) (s : Session) : Except Failure Session := do
  return { s with program := ← Program.build r s.source, generation := s.generation + 1 }

/-- What the program is called in the log. -/
def title (s : Session) : String := s.path.getD "<text>"

end Session

end Interleave
