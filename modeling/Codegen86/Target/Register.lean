/-!
# Registers

The stack pointer, the base pointer and the general registers of the machine are physical.  Abstract
registers stand in for general ones until allocation.  Register `R0` carries the value that a function
returns.
-/

set_option autoImplicit false

namespace Codegen86.Target

/-- A register; the order of the constructors is the order of registers. -/
inductive Register where
  | stackPointer
  | basePointer
  | abstract (index : Nat)
  | physical (index : Nat)
  deriving DecidableEq, Repr, Ord, Inhabited

namespace Register

/-- The register of returned values. -/
def result : Register := physical 0

def isAbstract : Register → Bool
  | abstract _ => true
  | _ => false

/-- Registers that allocation leaves alone. -/
def isSpecial (r : Register) : Bool := r == stackPointer || r == basePointer || r == result

/-- The number of a general register. -/
def index? : Register → Option Nat
  | abstract index | physical index => some index
  | stackPointer | basePointer => none

def text : Register → String
  | stackPointer => "SP"
  | basePointer => "BP"
  | abstract index => "%v" ++ toString index
  | physical index => "R" ++ toString index

end Register

end Codegen86.Target
