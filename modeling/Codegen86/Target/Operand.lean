import Codegen86.Target.Register
import Codegen86.Word
/-!
# Operands

An operand is a register, a memory word at an offset from a register, an immediate word, or a label.
A label is symbolic until assembly gives it an address.
-/

set_option autoImplicit false

namespace Codegen86.Target

/-- The target of a jump or call. -/
structure Label where
  name : String
  address : Option Nat := none
  deriving DecidableEq, Repr, Ord

/-- An operand; the order of the constructors is the order of operands. -/
inductive Operand where
  | reg (register : Register)
  | mem (base : Register) (offset : Word)
  | imm (value : Word)
  | label (target : Label)
  deriving DecidableEq, Repr, Ord

namespace Operand

/-- The word at an offset from the base pointer. -/
def frameSlot (offset : Word) : Operand := mem .basePointer offset

/-- A label without an address. -/
def symbol (name : String) : Operand := label { name }

def register? : Operand → Option Register
  | reg r => some r
  | _ => none

def label? : Operand → Option Label
  | label l => some l
  | _ => none

def isAbstract : Operand → Bool
  | reg r => r.isAbstract
  | _ => false

def isMemory : Operand → Bool
  | mem _ _ => true
  | _ => false

/-- Whether finding the operand's place or value reads register `r`. -/
def mentions (r : Register) : Operand → Bool
  | reg s => s == r
  | mem base _ => base == r
  | imm _ | label _ => false

/-- A memory word shows its offset with a sign, an offset of zero not at all. -/
def text : Operand → String
  | reg r => r.text
  | mem base offset =>
    if offset < 0 then "[" ++ base.text ++ " - " ++ (-offset).text ++ "]"
    else if 0 < offset then "[" ++ base.text ++ " + " ++ offset.text ++ "]"
    else "[" ++ base.text ++ "]"
  | imm value => value.text
  | label { name, address } =>
    match address with
    | some address => toString address
    | none => name

end Operand

end Codegen86.Target
