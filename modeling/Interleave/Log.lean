/-! # Log records

The library writes no log of its own: whatever would be logged is returned as a list of records. -/

namespace Interleave

/-- What is told about the progress of an exploration. -/
inductive LogRecord where
  | info (message : String)
  | warn (message : String)
deriving DecidableEq, Repr, Inhabited

/-- A record as one line. -/
def LogRecord.text : LogRecord → String
  | info m => "INFO: " ++ m
  | warn m => "WARN: " ++ m

end Interleave
