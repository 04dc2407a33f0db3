import Interleave.Program.Basic
import Interleave.Program.ReadError
import Interleave.Text.Decimal
import Interleave.Text.Split

/-! # Reading a program

The text is cut into lines; a comment runs from `;` to the end of its line, and a line without
content is skipped.  Reading takes two passes:

1. `Symbols.ofLines` collects the names of globals and functions from every line, so that a body
   may refer to what is declared further down;
2. `Draft.readLine` goes through the lines once more and builds the program.  A jump refers to a
   label until the closing brace of its function, where `Body.finish` replaces labels by positions.

The first error met wins, so an error of the first pass wins over any of the second, and an
undefined label is found at the end of its function.  `Program.read` is the entry point. -/

namespace Interleave

open Text

namespace Reader

/-- A name: an ASCII letter or underscore, then ASCII letters, digits, underscores and dots. -/
def isIdent : List Char → Bool
  | [] => false
  | c :: cs => (c.isAlpha || c == '_') && cs.all fun d => d.isAlphanum || d == '_' || d == '.'

/-- A line with content, numbered from one. -/
structure Line where
  number : Nat
  content : List Char
deriving DecidableEq, Repr, Inhabited

/-- The content of a line: what precedes a comment, without surrounding blanks. -/
def content (s : List Char) : List Char := trim (s.takeWhile (· != ';'))

/-- The lines of a text that have content. -/
def numberedLines (text : List Char) : List Line :=
  ((lines text).zipIdx 1).map (fun (s, n) => ⟨n, content s⟩) |>.filter (!·.content.isEmpty)

/-- The cause, as an error of the given line. -/
def atLine {α : Type} (n : Nat) : Except ReadError α → Except LineError α
  | .ok a => .ok a
  | .error e => .error ⟨n, e⟩

/-! ### First pass: declared names -/

/-- The declared names, each in order of declaration: a name's position is its index. -/
structure Symbols where
  globals : List String
  functions : List String
deriving DecidableEq, Repr, Inhabited

/-- Name declared by what follows `global` on a line. -/
def globalName (rest : List Char) : List Char := trim (rest.takeWhile (· != '='))

/-- Name declared by what follows `fn` on a line. -/
def functionName (rest : List Char) : List Char := trim (dropEndWhile (· == '\x7b') rest)

/-- Note the name that a line declares, if it declares one. -/
def Symbols.addLine (s : Symbols) (line : List Char) : Except ReadError Symbols :=
  match after? "global ".toList line, after? "fn ".toList line with
  | some rest, _ =>
    let name := globalName rest
    let key := String.ofList name
    if !isIdent name then .error (.badGlobalName key)
    else if s.globals.contains key then .error (.duplicateGlobal key)
    else .ok { s with globals := s.globals ++ [key] }
  | none, some rest =>
    let name := functionName rest
    let key := String.ofList name
    if !isIdent name then .error (.badFunctionName key)
    else if s.functions.contains key then .error (.duplicateFunction key)
    else .ok { s with functions := s.functions ++ [key] }
  | none, none => .ok s

/-- The names declared by a list of lines. -/
def Symbols.ofLines (ls : List Line) : Except LineError Symbols :=
  ls.foldlM (fun s l => atLine l.number (s.addLine l.content)) ⟨[], []⟩

/-! ### Operands -/

/-- Reading in a function body: the registers named so far are known by position, and a new name
gets the next one. -/
abbrev InBody := StateT (List String) (Except ReadError)

/-- Number of the register of a name. -/
def registerNumber (name : String) : InBody Reg := fun known =>
  match known.idxOf? name with
  | some r => .ok (r, known)
  | none => .ok (known.length, known ++ [name])

/-- A 64-bit integer. -/
def integer (s : List Char) : Except ReadError Int64 :=
  match Decimal.read? s with
  | some v => .ok v
  | none => .error (.badInteger (String.ofList s))

/-- A register, written `%name`. -/
def register (s : List Char) : InBody Reg :=
  match s with
  | '%' :: name =>
    if isIdent name then registerNumber (String.ofList name)
    else throw (.expectedRegister (String.ofList s))
  | _ => throw (.expectedRegister (String.ofList s))

/-- A register or an integer. -/
def operand (s : List Char) : InBody Operand :=
  match s with
  | '%' :: _ => do return .reg (← register s)
  | _ => do return .imm (← integer s)

/-- Index of a global, written `@name`. -/
def globalIndex (symbols : Symbols) (s : List Char) : Except ReadError Nat :=
  match s with
  | '@' :: name =>
    match symbols.globals.idxOf? (String.ofList name) with
    | some g => .ok g
    | none => .error (.undefinedGlobal (String.ofList name))
  | _ => .error (.expectedGlobal (String.ofList s))

/-- Index of a function, written by its bare name. -/
def functionIndex (symbols : Symbols) (s : List Char) : Except ReadError Nat :=
  match symbols.functions.idxOf? (String.ofList s) with
  | some f => .ok f
  | none => .error (.undefinedFunction (String.ofList s))

/-- A memory operand: a global, or a register in brackets. -/
def location (symbols : Symbols) (s : List Char) : InBody Location :=
  match (after? ['['] s).bind (before? ']') with
  | some inner => do return .indirect (← register (trim inner))
  | none => do return .global (← globalIndex symbols s)

/-- A label, with the line of the jump that names it. -/
structure Target where
  label : String
  line : Nat
deriving DecidableEq, Repr, Inhabited

/-- The target of a jump on line `n`. -/
def target (n : Nat) (s : List Char) : Except ReadError Target :=
  if isIdent s then .ok ⟨String.ofList s, n⟩ else .error (.badLabel (String.ofList s))

/-- Pieces between commas; nothing has no pieces. -/
def commaSeparated (s : List Char) : List (List Char) :=
  if s.isEmpty then [] else (fields ',' s).map trim

/-! ### Instructions -/

/-- The operands of an instruction that takes none. -/
def noOperand (op : String) : List (List Char) → Except ReadError Unit
  | [] => .ok ()
  | args => .error (.operandCount op 0 args.length)

/-- The operand of an instruction that takes one. -/
def oneOperand (op : String) : List (List Char) → Except ReadError (List Char)
  | [a] => .ok a
  | args => .error (.operandCount op 1 args.length)

/-- The operands of an instruction that takes two. -/
def twoOperands (op : String) : List (List Char) → Except ReadError (List Char × List Char)
  | [a, b] => .ok (a, b)
  | args => .error (.operandCount op 2 args.length)

/-- The operands of an instruction that takes three. -/
def threeOperands (op : String) :
    List (List Char) → Except ReadError (List Char × List Char × List Char)
  | [a, b, c] => .ok (a, b, c)
  | args => .error (.operandCount op 3 args.length)

/-- What follows `call`: the name of a builtin and its arguments in parentheses. -/
def callee (rest : List Char) : InBody (Instr Target) :=
  match rest with
  | '@' :: rest =>
    match cut '(' rest with
    | none => throw .openParenExpected
    | some (name, args) =>
      match before? ')' (trimEnd args) with
      | none => throw .closeParenExpected
      | some args =>
        let name := trim name
        if isIdent name then do
          return .call (String.ofList name) (← (commaSeparated (trim args)).mapM operand)
        else throw (.badCallee (String.ofList name))
  | _ => throw .calleeExpected

/-- The instruction written on line `n`. -/
def instruction (symbols : Symbols) (n : Nat) (s : List Char) : InBody (Instr Target) :=
  let op := String.ofList (s.takeWhile (!isBlank ·))
  let rest := trim (s.dropWhile (!isBlank ·))
  let args := commaSeparated rest
  match BinOp.ofMnemonic? op with
  | some bin => do
    let (d, l, r) ← threeOperands op args
    return .bin bin (← register d) (← operand l) (← operand r)
  | none =>
    match op with
    | "mov" => do
      let (d, v) ← twoOperands op args
      return .mov (← register d) (← operand v)
    | "load" => do
      let (d, l) ← twoOperands op args
      return .load (← register d) (← location symbols l)
    | "store" => do
      let (l, v) ← twoOperands op args
      return .store (← location symbols l) (← operand v)
    | "addr" => do
      let (d, g) ← twoOperands op args
      return .addr (← register d) (← globalIndex symbols g)
    | "fence" => do
      noOperand op args
      return .fence
    | "spawn" => do
      let (d, f) ← twoOperands op args
      return .spawn (← register d) (← functionIndex symbols f)
    | "join" => do
      return .join (← operand (← oneOperand op args))
    | "lock" => do
      return .lock (← location symbols (← oneOperand op args))
    | "unlock" => do
      return .unlock (← location symbols (← oneOperand op args))
    | "assert" => do
      return .assert (← operand (← oneOperand op args))
    | "jmp" => do
      return .jump (← target n (← oneOperand op args))
    | "brz" => do
      let (c, t) ← twoOperands op args
      return .branch (← operand c) true (← target n t)
    | "brnz" => do
      let (c, t) ← twoOperands op args
      return .branch (← operand c) false (← target n t)
    | "call" => callee rest
    | "ret" => do
      noOperand op args
      return .ret
    | _ => throw (.unknownInstruction op)

/-! ### Second pass: globals, functions, layout -/

/-- A function body being read. -/
structure Body where
  name : String
  registers : List String
  labels : List (String × Nat)
  instrs : List (Instr Target)
deriving DecidableEq, Repr, Inhabited

/-- Replace the target of a jump. -/
def retarget {τ υ ε : Type} (f : τ → Except ε υ) : Instr τ → Except ε (Instr υ)
  | .mov d s => .ok (.mov d s)
  | .bin op d l r => .ok (.bin op d l r)
  | .load d l => .ok (.load d l)
  | .store l v => .ok (.store l v)
  | .addr d g => .ok (.addr d g)
  | .fence => .ok .fence
  | .spawn d f => .ok (.spawn d f)
  | .join v => .ok (.join v)
  | .lock l => .ok (.lock l)
  | .unlock l => .ok (.unlock l)
  | .assert v => .ok (.assert v)
  | .jump t => (f t).map .jump
  | .branch c z t => (f t).map (.branch c z)
  | .call name args => .ok (.call name args)
  | .ret => .ok .ret

/-- The position of a label in its function. -/
def Body.position (b : Body) (t : Target) : Except LineError Nat :=
  match b.labels.lookup t.label with
  | some pc => .ok pc
  | none => .error ⟨t.line, .undefinedLabel t.label⟩

/-- The function of a finished body. -/
def Body.finish (b : Body) : Except LineError Function := do
  return ⟨b.name, b.registers, ← b.instrs.mapM (retarget b.position)⟩

/-- Read a line inside a body, other than its closing brace: a label or an instruction. -/
def Body.readLine (symbols : Symbols) (b : Body) (l : Line) : Except ReadError Body :=
  match before? ':' l.content with
  | some s =>
    let label := trim s
    let key := String.ofList label
    if !isIdent label then .error (.badLabel key)
    else if (b.labels.lookup key).isSome then .error (.duplicateLabel key)
    else .ok { b with labels := b.labels ++ [(key, b.instrs.length)] }
  | none => do
    let (i, registers) ← (instruction symbols l.number l.content).run b.registers
    return { b with registers, instrs := b.instrs ++ [i] }

/-- The layout given by a line that starts with `target`. -/
def layout? (s : List Char) : Option (List Char) := do
  let s ← after? "target".toList s
  let s ← after? "datalayout".toList (trimStart s)
  let s ← after? ['='] (trimStart s)
  let s ← after? ['\x22'] (trim s)
  before? '\x22' s

/-- The global declared by what follows `global` on a line. -/
def global (rest : List Char) : Except ReadError Global :=
  match cut '=' rest with
  | some (name, init) => do return ⟨String.ofList (trim name), ← integer (trim init)⟩
  | none => .ok ⟨String.ofList (trim rest), 0⟩

/-- A program being read. -/
structure Draft where
  layout : Option String
  globals : List Global
  functions : List Function
  /-- The function whose closing brace has not come yet. -/
  current : Option Body
deriving DecidableEq, Repr, Inhabited

/-- The draft before the first line. -/
def Draft.empty : Draft := ⟨none, [], [], none⟩

/-- Read a line outside of any function. -/
def Draft.readDeclaration (d : Draft) (s : List Char) : Except ReadError Draft :=
  if (after? "target".toList s).isSome then
    match layout? s with
    | some l => .ok { d with layout := some (String.ofList l) }
    | none => .error .malformedLayout
  else
    match after? "global ".toList s, after? "fn ".toList s with
    | some rest, _ => do return { d with globals := d.globals ++ [← global rest] }
    | none, some rest =>
      match before? '\x7b' rest with
      | some name => .ok { d with current := some ⟨String.ofList (trim name), [], [], []⟩ }
      | none => .error .openBraceExpected
    | none, none => .error (.outsideFunction (String.ofList s))

/-- Read one more line. -/
def Draft.readLine (symbols : Symbols) (d : Draft) (l : Line) : Except LineError Draft :=
  match d.current with
  | some b =>
    if l.content = ['\x7d'] then do
      return { d with functions := d.functions ++ [← b.finish], current := none }
    else do
      return { d with current := some (← atLine l.number (b.readLine symbols l)) }
  | none => atLine l.number (d.readDeclaration l.content)

/-- The program of a finished draft; `count` is the number of lines of the whole text. -/
def Draft.finish (d : Draft) (count : Nat) : Except LineError Program :=
  match d.current with
  | some b => .error ⟨count, .unterminatedFunction b.name⟩
  | none =>
    let layout := match d.layout with
      | some l => if l.isEmpty then Program.defaultLayout else l
      | none => Program.defaultLayout
    .ok ⟨layout, d.globals, d.functions⟩

end Reader

open Reader in
/-- The program written by a text. -/
def Program.read (text : String) : Except LineError Program := do
  let ls := numberedLines text.toList
  let symbols ← Symbols.ofLines ls
  let draft ← ls.foldlM (Draft.readLine symbols) Draft.empty
  draft.finish (lines text.toList).length

end Interleave
