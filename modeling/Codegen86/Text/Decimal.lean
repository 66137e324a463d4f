import Codegen86.Word
/-!
# Decimal numbers

Whole numbers in decimal: ASCII digits only, at least one, behind an optional sign.  A natural number
takes no `-`, not even before zero.
-/

set_option autoImplicit false

namespace Codegen86.Text

/-- The value of a list of digits, most significant first. -/
def digitsValue (cs : List Char) : Nat :=
  cs.foldl (fun n c => 10 * n + (c.toNat - '0'.toNat)) 0

/-- One or more ASCII digits. -/
def digits? (cs : List Char) : Option Nat :=
  if !cs.isEmpty && cs.all Char.isDigit then some (digitsValue cs) else none

/-- Digits behind an optional `+`. -/
def natural? : List Char → Option Nat
  | '+' :: cs => digits? cs
  | cs => digits? cs

/-- Digits behind an optional `+` or `-`. -/
def integer? : List Char → Option Int
  | '-' :: cs => (digits? cs).map fun n => -(n : Int)
  | cs => (natural? cs).map Int.ofNat

/-- A natural number below `2 ^ 64`. -/
def unsigned64? (cs : List Char) : Option Nat :=
  (natural? cs).filter (· < UInt64.size)

/-- A number in the range of a word. -/
def word? (cs : List Char) : Option Word :=
  (integer? cs).bind Word.ofInt?

end Codegen86.Text
