/-!
# Double precision numbers

A double is not a number, an infinity, or a finite value `± significand * 2 ^ exponent`.  Finite values
are kept in one form: the significand is below `2 ^ 53`, and it is at least `2 ^ 52` unless the exponent
is the least one, `-1074`.

`ofQuotient` rounds a quotient of naturals to the nearest double, a tie to the even significand.  Only
whole numbers are computed with.
-/

set_option autoImplicit false

namespace Codegen86

inductive Binary64 where
  | nan
  | infinity (negative : Bool)
  | finite (negative : Bool) (significand : Nat) (exponent : Int)
  deriving DecidableEq, Repr, Inhabited

namespace Binary64

/-- Exponent of the least positive double. -/
def leastExponent : Int := -1074

/-- Exponent of the largest finite double. -/
def largestExponent : Int := 971

/-- `2 ^ 52`, the least significand of 53 bits. -/
def fullSignificand : Nat := 1 <<< 52

/-- `10 ^ k` -/
def powerOfTen (k : Nat) : Nat := Nat.pow 10 k

/-- Zero with a sign. -/
def zero (negative : Bool) : Binary64 := finite negative 0 leastExponent

/-- The whole number nearest to `num / den`, the even one on a tie. -/
def roundHalfEven (num den : Nat) : Nat :=
  let quotient := num / den
  let rest := num % den
  if 2 * rest < den then quotient
  else if den < 2 * rest then quotient + 1
  else if quotient % 2 = 0 then quotient
  else quotient + 1

/-- `num / den / 2 ^ e` as a quotient of naturals. -/
def scaleBy (num den : Nat) (e : Int) : Nat × Nat :=
  (num <<< (-e).toNat, den <<< e.toNat)

/-- The exponent for which `num / den` has 53 significant bits, but none below the least. -/
def exponentFor (num den : Nat) : Int :=
  let e := (num.log2 : Int) - den.log2 - 52
  let (n, d) := scaleBy num den e
  max leastExponent (if n < d * fullSignificand then e - 1 else e)

/-- The double nearest to `± num / den`, the even one on a tie, and an infinity beyond the largest. -/
def ofQuotient (negative : Bool) (num den : Nat) : Binary64 :=
  if num = 0 then zero negative
  else
    let e := exponentFor num den
    let (n, d) := scaleBy num den e
    let m := roundHalfEven n d
    let (m, e) := if m = 2 * fullSignificand then (fullSignificand, e + 1) else (m, e)
    if largestExponent < e then infinity negative else finite negative m e

end Binary64

end Codegen86
