import Codegen86.Binary64.Basic
import Codegen86.Text.Decimal
/-!
# Reading doubles

A double is written as an optional sign and then `inf`, `infinity` or `nan` in any case, or digits with
an optional point and an optional exponent.  At least one digit stands beside the point.  The value
read is the double nearest to the number written.
-/

set_option autoImplicit false

namespace Codegen86.Binary64

/-- An exponent: `e` or `E`, an optional sign and digits.  No text is the exponent zero. -/
def exponent? : List Char → Option Int
  | [] => some 0
  | c :: cs => if c = 'e' ∨ c = 'E' then Text.integer? cs else none

/-- The double nearest to `± digits * 10 ^ e`.  The number of digits bounds the value, so that a huge
exponent is settled without computing its power. -/
def ofDecimal (negative : Bool) (digits : List Char) (e : Int) : Binary64 :=
  let significant := digits.dropWhile (· == '0')
  let size := (significant.length : Int) + e
  if significant.isEmpty then zero negative
  else if 310 < size then infinity negative
  else if size < -330 then zero negative
  else
    ofQuotient negative (Text.digitsValue significant * powerOfTen e.toNat) (powerOfTen (-e).toNat)

/-- Digits with an optional point, then an optional exponent. -/
def magnitude? (negative : Bool) (cs : List Char) : Option Binary64 :=
  let whole := cs.takeWhile Char.isDigit
  let rest := cs.dropWhile Char.isDigit
  let (fraction, rest) :=
    match rest with
    | '.' :: after => (after.takeWhile Char.isDigit, after.dropWhile Char.isDigit)
    | _ => ([], rest)
  if whole.isEmpty && fraction.isEmpty then none
  else (exponent? rest).map fun e => ofDecimal negative (whole ++ fraction) (e - fraction.length)

/-- A word for a value without digits, or a magnitude. -/
def unsigned? (negative : Bool) (cs : List Char) : Option Binary64 :=
  let word := cs.map Char.toLower
  if word = ['i', 'n', 'f'] ∨ word = ['i', 'n', 'f', 'i', 'n', 'i', 't', 'y'] then
    some (infinity negative)
  else if word = ['n', 'a', 'n'] then some nan
  else magnitude? negative cs

/-- The double that a text denotes. -/
def read? : List Char → Option Binary64
  | '-' :: cs => unsigned? true cs
  | '+' :: cs => unsigned? false cs
  | cs => unsigned? false cs

end Codegen86.Binary64
