import Interleave.Program.Basic
import Interleave.Text.Decimal

/-! # Listings

The listing of an instruction shows what it refers to by index: registers as `%0`, globals as `@0`,
functions and jump targets as plain numbers. -/

namespace Interleave

/-- Listing of an operand. -/
def Operand.listing : Operand → String
  | reg r => s!"%{r}"
  | imm v => Decimal.write v

/-- Listing of a memory operand. -/
def Location.listing : Location → String
  | global g => s!"@{g}"
  | indirect r => s!"[%{r}]"

/-- Listing of an instruction of a finished program. -/
def Instr.listing : Instr Nat → String
  | mov d s => s!"mov %{d}, " ++ s.listing
  | bin op d l r => op.mnemonic ++ s!" %{d}, " ++ l.listing ++ ", " ++ r.listing
  | load d l => s!"load %{d}, " ++ l.listing
  | store l v => "store " ++ l.listing ++ ", " ++ v.listing
  | addr d g => s!"addr %{d}, @{g}"
  | fence => "fence"
  | spawn d f => s!"spawn %{d}, {f}"
  | join v => "join " ++ v.listing
  | lock l => "lock " ++ l.listing
  | unlock l => "unlock " ++ l.listing
  | assert v => "assert " ++ v.listing
  | jump t => s!"jmp {t}"
  | branch c ifZero t => (if ifZero then "brz " else "brnz ") ++ c.listing ++ s!", {t}"
  | call name args => "call " ++ name ++ "(" ++ ", ".intercalate (args.map Operand.listing) ++ ")"
  | ret => "ret"

end Interleave
