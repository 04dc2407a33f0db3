import Interleave.Exploration.Checker

/-! # Command line

`FILE [--tso | --sc] [--robustness] [--explore-all] [--collect-all] [--recycle N] [--depth N]`
explores the program in a file and prints what was found.  The exit code is zero if no error was
found, one if there was an error or the program could not be explored, and two if the command line
asks for nothing that can be done. -/

namespace Interleave.CommandLine

/-- What the command line asks for. -/
structure Options where
  path : Option String := none
  tso : Bool := false
  sc : Bool := false
  robustness : Bool := false
  exploreAll : Bool := false
  collectAll : Bool := false
  recycle : Option Nat := none
  depth : Option Nat := none
deriving DecidableEq, Repr, Inhabited

/-- The configuration of the exploration; the program is never rebuilt if the interval is zero. -/
def Options.config (o : Options) : Config :=
  let interval := o.recycle.getD 1000
  { model := if o.tso then .tso else .sc
    checkRobustness := o.robustness
    exploreAll := o.exploreAll
    collectTraces := o.collectAll
    recycleInterval := if interval = 0 then none else some interval
    maxDepth := o.depth }

/-- An option is given only once. -/
def once (name : String) (given : Bool) : Except String Unit :=
  if given then .error (name ++ " cannot be used multiple times") else .ok ()

/-- A number of 64 bits. -/
def number (s : String) : Except String Nat :=
  match Decimal.digits? ((Text.after? ['+'] s.toList).getD s.toList) with
  | some n => if n < UInt64.size then .ok n else .error ("number too large: " ++ s)
  | none => .error ("not a number: " ++ s)

/-- An option and its number may stand in one argument. -/
def separate (arg : String) : List String :=
  let one (name : String) : Option (List String) :=
    (Text.after? (name.toList ++ ['=']) arg.toList).map fun n => [name, String.ofList n]
  (["--recycle", "--depth"].findSome? one).getD [arg]

/-- Read the arguments, changing the options as they say. -/
def parse : List String → Options → Except String Options
  | [], o => .ok o
  | "--tso" :: rest, o => do
    once "--tso" o.tso
    parse rest { o with tso := true }
  | "--sc" :: rest, o => do
    once "--sc" o.sc
    parse rest { o with sc := true }
  | "--robustness" :: rest, o => do
    once "--robustness" o.robustness
    parse rest { o with robustness := true }
  | "--explore-all" :: rest, o => do
    once "--explore-all" o.exploreAll
    parse rest { o with exploreAll := true }
  | "--collect-all" :: rest, o => do
    once "--collect-all" o.collectAll
    parse rest { o with collectAll := true }
  | ["--recycle"], _ => .error "--recycle needs a number"
  | "--recycle" :: n :: rest, o => do
    once "--recycle" o.recycle.isSome
    parse rest { o with recycle := some (← number n) }
  | ["--depth"], _ => .error "--depth needs a number"
  | "--depth" :: n :: rest, o => do
    once "--depth" o.depth.isSome
    parse rest { o with depth := some (← number n) }
  | arg :: rest, o =>
    if arg.toList.head? = some '-' then .error ("unknown option: " ++ arg)
    else match o.path with
      | none => parse rest { o with path := some arg }
      | some _ => .error ("unexpected argument: " ++ arg)

/-- The file to explore, and how. -/
def request (args : List String) : Except String (String × Config) := do
  let o ← parse (args.flatMap separate) {}
  if o.tso && o.sc then .error "--tso cannot be used with --sc"
  else match o.path with
    | some path => return (path, o.config)
    | none => .error "a program file is needed"

/-- What is printed about a finished exploration: the result, then the collected traces. -/
def report (r : Result) : List String :=
  r.text :: r.allTraces.zipIdx.flatMap fun (t, i) => [s!"--- Trace {i} ---", t.text]

/-- Contents of a file, if it can be read. -/
def contents (path : String) : IO (Option ByteArray) := do
  try return some (← IO.FS.readBinFile path)
  catch _ => return none

/-- Explore the program in a file. -/
def check (path : String) (cfg : Config) : IO UInt32 := do
  match Checker.ofFile .standard cfg path (← contents path) with
  | .error f =>
    IO.eprintln f.message
    return 1
  | .ok c =>
    let (outcome, progress) := c.run Checker.ampleFuel
    progress.log.forM fun r => IO.eprintln r.text
    match outcome with
    | .finished =>
      (report progress.result).forM IO.println
      return if progress.result.hasErrors then 1 else 0
    | .failed f =>
      IO.eprintln f.message
      return 1
    | _ => return 1

end Interleave.CommandLine

open Interleave.CommandLine in
def main (args : List String) : IO UInt32 := do
  match request args with
  | .ok (path, cfg) => check path cfg
  | .error e =>
    IO.eprintln e
    return 2
