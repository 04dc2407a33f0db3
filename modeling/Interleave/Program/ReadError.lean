/-! # Why a text is no program -/

namespace Interleave

/-- What can be wrong with a line of a program text. -/
inductive ReadError where
  | badGlobalName (name : String)
  | duplicateGlobal (name : String)
  | badFunctionName (name : String)
  | duplicateFunction (name : String)
  | badInteger (text : String)
  | expectedRegister (text : String)
  | expectedGlobal (text : String)
  | undefinedGlobal (name : String)
  | undefinedFunction (name : String)
  | badLabel (name : String)
  | duplicateLabel (name : String)
  | undefinedLabel (name : String)
  | operandCount (op : String) (expected actual : Nat)
  | calleeExpected
  | openParenExpected
  | closeParenExpected
  | badCallee (name : String)
  | unknownInstruction (op : String)
  | malformedLayout
  | openBraceExpected
  | outsideFunction (line : String)
  | unterminatedFunction (name : String)
deriving DecidableEq, Repr, Inhabited

/-- The wording of each cause. -/
def ReadError.message : ReadError → String
  | badGlobalName name => "bad global name `" ++ name ++ "`"
  | duplicateGlobal name => "duplicate global `" ++ name ++ "`"
  | badFunctionName name => "bad function name `" ++ name ++ "`"
  | duplicateFunction name => "duplicate function `" ++ name ++ "`"
  | badInteger text => "bad integer `" ++ text ++ "`"
  | expectedRegister text => "expected register, got `" ++ text ++ "`"
  | expectedGlobal text => "expected global, got `" ++ text ++ "`"
  | undefinedGlobal name => "undefined global `" ++ name ++ "`"
  | undefinedFunction name => "undefined function `" ++ name ++ "`"
  | badLabel name => "bad label `" ++ name ++ "`"
  | duplicateLabel name => "duplicate label `" ++ name ++ "`"
  | undefinedLabel name => "undefined label `" ++ name ++ "`"
  | operandCount op expected actual =>
    "`" ++ op ++ "` expects " ++ toString expected ++ " operand(s), got " ++ toString actual
  | calleeExpected => "expected `@name(...)` after `call`"
  | openParenExpected => "expected `(` in call"
  | closeParenExpected => "expected `)` at the end of call"
  | badCallee name => "bad callee `" ++ name ++ "`"
  | unknownInstruction op => "unknown instruction `" ++ op ++ "`"
  | malformedLayout => "malformed `target datalayout`"
  | openBraceExpected => "expected `\x7b` after function name"
  | outsideFunction line => "unexpected `" ++ line ++ "` outside of a function"
  | unterminatedFunction name => "unterminated function `" ++ name ++ "`"

/-- A cause together with the number of the line that shows it, counted from one. -/
structure LineError where
  line : Nat
  cause : ReadError
deriving DecidableEq, Repr, Inhabited

end Interleave
