import Codegen86.Error
/-!
# Errors in program text

What can be wrong with the text of a program, and on which line it was found.
-/

set_option autoImplicit false

namespace Codegen86.IR

inductive Complaint where
  | nestedFunction
  | noBrace
  | noOpening
  | noClosing
  | functionName (text : String)
  | expectedValue (text : String)
  | strayBrace
  | strayLabel
  | blockName (text : String)
  | strayInstruction
  | noMnemonic
  | unclosed (function : String)
  | duplicateArgument (name : String)
  | duplicateValue (name : String)
  | duplicateBlock (name : String)
  | operandCount (mnemonic : String) (expected found : Nat)
  | invalidNumber (text : String)
  | undefinedValue (name : String)
  | undefinedBlock (name : String)
  | noSymbol
  | noCallee
  | unknownMnemonic (text : String)
  | noResult (mnemonic : String)
  | rejected (error : Error)
  deriving DecidableEq, Repr

def Complaint.message : Complaint → String
  | nestedFunction => "nested function definition"
  | noBrace => "expected `\x7b` after function header"
  | noOpening => "expected `(` in function header"
  | noClosing => "expected `)` in function header"
  | functionName text => "invalid function name `" ++ text ++ "`"
  | expectedValue text => "expected a value, found `" ++ text ++ "`"
  | strayBrace => "`\x7d` outside of a function"
  | strayLabel => "block label outside of a function"
  | blockName text => "invalid block name `" ++ text ++ "`"
  | strayInstruction => "instruction outside of a block"
  | noMnemonic => "missing mnemonic"
  | unclosed function => "function `" ++ function ++ "` is not closed"
  | duplicateArgument name => "duplicate argument `%" ++ name ++ "`"
  | duplicateValue name => "value `%" ++ name ++ "` is defined twice"
  | duplicateBlock name => "block `" ++ name ++ "` is defined twice"
  | operandCount mnemonic expected found =>
    "`" ++ mnemonic ++ "` takes " ++ toString expected ++ " operand(s), found " ++ toString found
  | invalidNumber text => "invalid number `" ++ text ++ "`"
  | undefinedValue name => "undefined value `%" ++ name ++ "`"
  | undefinedBlock name => "undefined block `" ++ name ++ "`"
  | noSymbol => "expected `@symbol`"
  | noCallee => "`call` needs a callee"
  | unknownMnemonic text => "unknown mnemonic `" ++ text ++ "`"
  | noResult mnemonic => "`" ++ mnemonic ++ "` does not produce a value"
  | rejected error => error.message

/-- A complaint and the line it is about, counted from 1. -/
structure ParseError where
  line : Nat
  complaint : Complaint
  deriving DecidableEq, Repr

def ParseError.message (e : ParseError) : String :=
  "line " ++ toString e.line ++ ": " ++ e.complaint.message

end Codegen86.IR
