/-! # Signed decimal numbers of 64 bits

A number is written as an optional sign and at least one decimal digit; leading zeros and the sign
of zero are free.  `Decimal.read?` refuses a value outside the range of `Int64`. -/

namespace Interleave.Decimal

/-- The value of a nonempty string of decimal digits. -/
def digits? (s : List Char) : Option Nat :=
  if s.isEmpty || !s.all Char.isDigit then none
  else some (s.foldl (fun n c => 10 * n + (c.toNat - '0'.toNat)) 0)

/-- The integer written by an optional sign and digits. -/
def int? : List Char → Option Int
  | '+' :: s => (digits? s).map Int.ofNat
  | '-' :: s => (digits? s).map fun n => -Int.ofNat n
  | s => (digits? s).map Int.ofNat

/-- The 64-bit value written by `s`, if `s` is a number in range. -/
def read? (s : List Char) : Option Int64 :=
  (int? s).bind fun n =>
    if Int64.minValue.toInt ≤ n ∧ n ≤ Int64.maxValue.toInt then some (Int64.ofInt n) else none

/-- The shortest way to write a value: a minus sign if it is negative, then its digits. -/
def write (x : Int64) : String := toString x.toInt

end Interleave.Decimal
