import Codegen86.Target.Operand
/-!
# Machine faults

What stops the machine, and at which address.
-/

set_option autoImplicit false

namespace Codegen86.Machine

open Target

inductive Fault where
  | divisionByZero (pc : Nat)
  | stackOverflow (pc : Nat)
  | invalidAddress (pc : Nat) (address : Word)
  | invalidJump (pc : Nat) (address : Word)
  | unpatchedLabel (pc : Nat) (label : String)
  | abstractRegister (pc : Nat) (register : Register)
  | unknownRegister (pc : Nat) (register : Register)
  | invalidTarget (pc : Nat) (operand : Operand)
  | stepLimit (limit : Nat)
  deriving DecidableEq, Repr

def Fault.message : Fault → String
  | divisionByZero pc => "Division by zero at " ++ toString pc
  | stackOverflow pc => "Stack overflow at " ++ toString pc
  | invalidAddress pc address =>
    "Address " ++ Word.text address ++ " is outside memory (at " ++ toString pc ++ ")"
  | invalidJump pc address =>
    "Jump to " ++ Word.text address ++ " leaves the program (at " ++ toString pc ++ ")"
  | unpatchedLabel pc label =>
    "Label `" ++ label ++ "` was never patched (at " ++ toString pc ++ ")"
  | abstractRegister pc register =>
    "Abstract register " ++ register.text ++ " reached execution (at " ++ toString pc ++ ")"
  | unknownRegister pc register =>
    "Register " ++ register.text ++ " does not exist (at " ++ toString pc ++ ")"
  | invalidTarget pc operand =>
    "Operand `" ++ operand.text ++ "` cannot be written (at " ++ toString pc ++ ")"
  | stepLimit limit => "Step limit of " ++ toString limit ++ " instructions exceeded"

end Codegen86.Machine
