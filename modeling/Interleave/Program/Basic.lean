/-! # Programs of the assembly dialect

A `Program` has global cells, each with a starting value, and functions.  The body of a function is
a list of instructions over named registers; every thread has registers of its own and runs one
function.  Globals, functions and registers are referred to by index.

An instruction is generic in the way it names the target of a jump: `Instr Nat` jumps to a position
in the body, and a program that is still being read jumps to labels. -/

namespace Interleave

/-- Index of a register in its function. -/
abbrev Reg := Nat

/-- A value that an instruction reads. -/
inductive Operand where
  | reg (r : Reg)
  | imm (v : Int64)
deriving DecidableEq, Repr, Inhabited

/-- A memory operand. -/
inductive Location where
  /-- The cell of a global. -/
  | global (g : Nat)
  /-- The cell whose address a register holds. -/
  | indirect (r : Reg)
deriving DecidableEq, Repr, Inhabited

/-- The operations on two values. -/
inductive BinOp where
  | add | sub | mul | eq | ne | lt
deriving DecidableEq, Repr, Inhabited

namespace BinOp

/-- All operations. -/
def all : List BinOp := [add, sub, mul, eq, ne, lt]

/-- How an operation is written. -/
def mnemonic : BinOp → String
  | add => "add"
  | sub => "sub"
  | mul => "mul"
  | eq => "eq"
  | ne => "ne"
  | lt => "lt"

/-- The operation of a mnemonic. -/
def ofMnemonic? (s : String) : Option BinOp := all.find? fun op => op.mnemonic == s

/-- Arithmetic wraps around, comparisons are signed and give one or zero. -/
def apply : BinOp → Int64 → Int64 → Int64
  | add, a, b => a + b
  | sub, a, b => a - b
  | mul, a, b => a * b
  | eq, a, b => if a = b then 1 else 0
  | ne, a, b => if a = b then 0 else 1
  | lt, a, b => if a < b then 1 else 0

theorem ofMnemonic?_mnemonic (op : BinOp) : ofMnemonic? op.mnemonic = some op := by
  cases op <;> decide

end BinOp

/-- An instruction whose jump targets are of type `τ`. -/
inductive Instr (τ : Type) where
  | mov (dst : Reg) (src : Operand)
  | bin (op : BinOp) (dst : Reg) (lhs rhs : Operand)
  | load (dst : Reg) (loc : Location)
  | store (loc : Location) (value : Operand)
  /-- Put the address of a global into a register. -/
  | addr (dst : Reg) (g : Nat)
  | fence
  /-- Start a thread that runs function `f`, and put its number into a register. -/
  | spawn (dst : Reg) (f : Nat)
  /-- Wait for the thread with the given number. -/
  | join (thread : Operand)
  | lock (loc : Location)
  | unlock (loc : Location)
  | assert (value : Operand)
  | jump (target : τ)
  /-- Jump if the condition is zero (`ifZero`), or if it is not. -/
  | branch (cond : Operand) (ifZero : Bool) (target : τ)
  /-- Call a builtin function. -/
  | call (name : String) (args : List Operand)
  | ret
deriving DecidableEq, Repr, Inhabited

namespace Instr

variable {τ : Type}

/-- Visible instructions bear on other threads: they are where the scheduler decides. -/
def isVisible : Instr τ → Bool
  | load .. | store .. | fence | spawn .. | join _ | lock _ | unlock _ => true
  | _ => false

end Instr

/-- A cell of shared memory, with the value it starts with. -/
structure Global where
  name : String
  init : Int64
deriving DecidableEq, Repr, Inhabited

/-- A function that a thread can run. -/
structure Function where
  name : String
  /-- Names of the registers, in the order of their first occurrence. -/
  registers : List String
  body : List (Instr Nat)
deriving DecidableEq, Repr, Inhabited

/-- Byte order. -/
inductive Endianness where
  | little
  | big
deriving DecidableEq, Repr, Inhabited

/-- A program of the dialect. -/
structure Program where
  /-- Description of the data layout; it starts with `e` or `E` for the byte order. -/
  layout : String
  globals : List Global
  functions : List Function
deriving DecidableEq, Repr, Inhabited

namespace Program

/-- Data layout of a text that gives none. -/
def defaultLayout : String := "e"

/-- The function that a run starts with. -/
def entryPoint : String := "main"

/-- The byte order that the data layout asks for. -/
def endianness (p : Program) : Endianness :=
  if p.layout.toList.head? = some 'E' then .big else .little

/-- Index of the first function of a name. -/
def find? (p : Program) (name : String) : Option Nat :=
  p.functions.findIdx? fun f => f.name == name

end Program

end Interleave
