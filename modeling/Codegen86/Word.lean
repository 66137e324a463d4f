/-!
# Machine words

A word is a 64-bit signed integer.  Sums, differences and products wrap, division rounds toward zero,
and dividing the least word by `-1` wraps back to it.  Registers, memory cells, immediates and offsets
are all words.
-/

set_option autoImplicit false

namespace Codegen86

/-- A 64-bit signed machine word; its arithmetic wraps. -/
abbrev Word := Int64

namespace Word

/-- The word of a natural number, wrapping above the largest word. -/
def ofNat (n : Nat) : Word := Int64.ofNat n

/-- The word with value `i`, if `i` is in range. -/
def ofInt? (i : Int) : Option Word :=
  if Int64.minValue.toInt ≤ i ∧ i ≤ Int64.maxValue.toInt then some (Int64.ofInt i) else none

/-- Decimal text, with a leading `-` below zero. -/
def text (w : Word) : String := toString w.toInt

/-- The index that `w` denotes in a table of `size` entries, if it is one. -/
def index? (w : Word) (size : Nat) : Option Nat :=
  if 0 ≤ w ∧ w.toNatClampNeg < size then some w.toNatClampNeg else none

theorem index?_lt {w : Word} {size i : Nat} (h : w.index? size = some i) : i < size := by
  simp only [index?, Option.ite_none_right_eq_some, Option.some.injEq] at h
  omega

end Word

end Codegen86
