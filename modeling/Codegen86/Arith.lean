import Codegen86.Word
/-!
# Integer operators

The operators that the intermediate language and the machine share: seven arithmetic operators, each
with its value on words, and six signed comparisons, each with the orderings for which it holds.
Division and remainder have no value when the divisor is zero.
-/

set_option autoImplicit false

namespace Codegen86

/-- Arithmetic and bitwise operators on words. -/
inductive Arith where
  | add | sub | mul | div | mod | and | or
  deriving DecidableEq, Repr

namespace Arith

def all : List Arith := [add, sub, mul, div, mod, and, or]

/-- The value of `op` on two words; `none` exactly for a division by zero. -/
def eval (op : Arith) (x y : Word) : Option Word :=
  match op with
  | add => some (x + y)
  | sub => some (x - y)
  | mul => some (x * y)
  | div => if y = 0 then none else some (x / y)
  | mod => if y = 0 then none else some (x % y)
  | and => some (x &&& y)
  | or => some (x ||| y)

end Arith

/-- Signed comparisons of words. -/
inductive Comparison where
  | lt | le | gt | ge | eq | ne
  deriving DecidableEq, Repr

namespace Comparison

def all : List Comparison := [lt, le, gt, ge, eq, ne]

/-- Whether the comparison holds of operands that compare as `o`. -/
def holds (c : Comparison) (o : Ordering) : Bool :=
  match c with
  | lt => o == .lt
  | le => o != .gt
  | gt => o == .gt
  | ge => o != .lt
  | eq => o == .eq
  | ne => o != .eq

end Comparison

end Codegen86
