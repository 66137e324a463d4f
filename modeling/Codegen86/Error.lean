/-!
# Compilation errors

Why a compilation stops.  Each error carries what its message names, and belongs to the stage that
found it.  `Defect` lists what can be wrong with one function of the intermediate language.
-/

set_option autoImplicit false

namespace Codegen86

/-- Stages of a compilation that can fail. -/
inductive Stage where
  | lowering | allocation | assembly | construction | config
  deriving DecidableEq, Repr

def Stage.name : Stage → String
  | lowering => "Lowering"
  | allocation => "Allocation"
  | assembly => "Assembly"
  | construction => "Construction"
  | config => "Config"

/-- What makes a function unfit for instruction selection.  Values are given by their printed name. -/
inductive Defect where
  | noBlocks
  | emptyBlock (block : String)
  | unknownValue (block : String)
  | placedArgument (value block : String)
  | unterminated (block : String)
  | afterTerminator (block : String)
  | unknownSuccessor (block : Nat)
  | placedTwice (value : String)
  | notAValue (value : String)
  | usedBeforeDefinition (value : String)
  | noResultSlot
  | argumentCount (callee : String) (passed expected : Nat)
  deriving DecidableEq, Repr

def Defect.message : Defect → String
  | noBlocks => "function has no blocks"
  | emptyBlock block => "block `" ++ block ++ "` is empty"
  | unknownValue block => "block `" ++ block ++ "` lists unknown value"
  | placedArgument value block => "argument " ++ value ++ " placed in block `" ++ block ++ "`"
  | unterminated block => "block `" ++ block ++ "` is not terminated"
  | afterTerminator block => "instruction after the terminator of block `" ++ block ++ "`"
  | unknownSuccessor block => "branch to unknown block " ++ toString block
  | placedTwice value => "value " ++ value ++ " is placed twice"
  | notAValue value => value ++ " does not name a value"
  | usedBeforeDefinition value => value ++ " is used before its definition"
  | noResultSlot => "comparison without a result slot"
  | argumentCount callee passed expected =>
    "call to `" ++ callee ++ "` passes " ++ toString passed ++ " arguments, expected " ++
      toString expected

/-- What a compilation configuration can get wrong. -/
inductive Misconfiguration where
  | registerCount (count least most : Nat)
  | noEntry
  deriving DecidableEq, Repr

def Misconfiguration.message : Misconfiguration → String
  | registerCount count least most =>
    "physical register count " ++ toString count ++ " outside " ++ toString least ++ "..=" ++
      toString most
  | noEntry => "entry symbol is empty"

/-- Everything that stops a compilation. -/
inductive Error where
  | missingEntry (name : String)
  | undefinedFunction (name : String)
  | unimplemented (opcode function : String)
  | indirectCall (function : String)
  | oversizedLocal (bytes : Nat) (function : String)
  | malformed (function : String) (defect : Defect)
  | notResident (block : String) (index : Nat) (operand : String)
  | registerPressure (block : String) (index : Nat)
  | leaked (block : String) (bindings dirty free registers : Nat)
  | unresolvedLabel (label : String)
  | duplicateLabel (label : String)
  | duplicateFunction (name : String)
  | duplicateBlock (function block : String)
  | invalidConfig (reason : Misconfiguration)
  deriving DecidableEq, Repr

namespace Error

def stage : Error → Stage
  | missingEntry _ | undefinedFunction _ | unimplemented _ _ | indirectCall _ | oversizedLocal _ _
  | malformed _ _ => .lowering
  | notResident _ _ _ | registerPressure _ _ | leaked _ _ _ _ _ => .allocation
  | unresolvedLabel _ | duplicateLabel _ => .assembly
  | duplicateFunction _ | duplicateBlock _ _ => .construction
  | invalidConfig _ => .config

/-- A place in a block, as `block[index]`. -/
def place (block : String) (index : Nat) : String := block ++ "[" ++ toString index ++ "]"

def message : Error → String
  | missingEntry name => "Entry function `" ++ name ++ "` not found"
  | undefinedFunction name => "Call to undefined function `" ++ name ++ "`"
  | unimplemented opcode function =>
    "Opcode `" ++ opcode ++ "` is not implemented (in function `" ++ function ++ "`)"
  | indirectCall function => "Indirect call in `" ++ function ++ "` is not supported"
  | oversizedLocal bytes function =>
    "Local of " ++ toString bytes ++ " bytes in `" ++ function ++ "` does not fit a machine word"
  | malformed function defect => "Malformed IR in `" ++ function ++ "`: " ++ defect.message
  | notResident block index operand =>
    "Operand " ++ operand ++ " used at " ++ place block index ++ " is not resident in a register"
  | registerPressure block index => "No evictable register at " ++ place block index
  | leaked block bindings dirty free registers =>
    "Register state leaked out of block " ++ block ++ ": " ++ toString bindings ++
      " bindings and " ++ toString dirty ++ " dirty words remain, " ++ toString free ++ " of " ++
      toString registers ++ " registers free"
  | unresolvedLabel label => "Unresolved label `" ++ label ++ "`"
  | duplicateLabel label => "Label `" ++ label ++ "` names more than one function or block"
  | duplicateFunction name => "Function `" ++ name ++ "` is defined twice"
  | duplicateBlock function block =>
    "Block `" ++ block ++ "` is defined twice in `" ++ function ++ "`"
  | invalidConfig reason => "Invalid configuration: " ++ reason.message

end Error

end Codegen86
