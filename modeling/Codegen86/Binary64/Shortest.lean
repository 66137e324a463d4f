import Codegen86.Binary64.Basic
/-!
# Shortest decimals

A finite double is printed with the fewest digits that read back as it, in positional notation at every
size and without a point for a whole value.  Of two such decimals the nearer one is taken, and of two
equally near ones the larger.

The decimals that read back lie between the two midpoints to the neighbouring doubles, midpoints
included for an even significand.  Grids of points `c * 10 ^ k` are tried from coarse to fine; on each
only the two points beside the value can be the nearest ones inside.
-/

set_option autoImplicit false

namespace Codegen86.Binary64

/-- The point of the grid with spacing `10 ^ k` that stands for the double, in units of the grid, if
one of the two points beside it reads back as it.  All lengths are in quarters of the double's last
place, so that both midpoints are whole. -/
def gridPoint? (significand : Nat) (exponent : Int) (k : Int) : Option Nat :=
  let unit := powerOfTen (-k).toNat <<< (exponent - 2).toNat
  let spacing := powerOfTen k.toNat <<< (2 - exponent).toNat
  let value := 4 * significand * unit
  let low := (4 * significand - if significand = fullSignificand then 1 else 2) * unit
  let high := (4 * significand + 2) * unit
  let below := value / spacing
  let above := below + 1
  let inside (x y : Nat) : Bool := if significand % 2 = 0 then x ≤ y else x < y
  match inside low (below * spacing), inside (above * spacing) high with
  | true, true => some (if 2 * (value % spacing) < spacing then below else above)
  | true, false => some below
  | false, true => some above
  | false, false => none

/-- Digits of `n` in decimal. -/
def decimalDigits (n : Nat) : List Char := Nat.toDigits 10 n

/-- The coarsest decimal `c * 10 ^ k` that reads back as the double, as `c` and `k`.  The grid at
`10 ^ exponent` holds the double itself, so the search ends. -/
def shortest (significand : Nat) (exponent : Int) : Nat × Int :=
  let whole := significand <<< exponent.toNat >>> (-exponent).toNat
  let start := (decimalDigits whole).length
  let hit := (List.range (start + 1076)).findSome? fun (i : Nat) =>
    let k := (start : Int) - i
    (gridPoint? significand exponent k).map fun c => (c, k)
  hit.getD (0, 0)

/-- `c * 10 ^ k` in positional notation. -/
def positional (c : Nat) (k : Int) : List Char :=
  let digits := decimalDigits c
  let places := (-k).toNat
  if places = 0 then digits ++ List.replicate k.toNat '0'
  else if places < digits.length then
    digits.take (digits.length - places) ++ '.' :: digits.drop (digits.length - places)
  else '0' :: '.' :: (List.replicate (places - digits.length) '0' ++ digits)

/-- The text of a double.  Zero keeps its sign; not-a-number has none. -/
def text : Binary64 → String
  | nan => "NaN"
  | infinity negative => if negative then "-inf" else "inf"
  | finite negative significand exponent =>
    let magnitude :=
      if significand = 0 then ['0']
      else
        let (c, k) := shortest significand exponent
        positional c k
    String.ofList (if negative then '-' :: magnitude else magnitude)

end Codegen86.Binary64
