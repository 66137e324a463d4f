import Codegen86.Binary64.Read
import Codegen86.IR.Builder
import Codegen86.IR.Outline
/-!
# Resolving names

From outlines to functions: names of values and blocks become numbers, mnemonics become operations.
All names of a function are numbered first (`valueNames`, `blockNames`), so that a name may be used
before the line that defines it.
-/

set_option autoImplicit false

namespace Codegen86.IR

open Text

/-- Names with the numbers they stand for. -/
abbrev NameTable := List (String × Nat)

/-- Add a new name; the complaint about a known one is given. -/
def NameTable.declare (names : NameTable) (name : String) (id : Nat) (complaint : ParseError) :
    Except ParseError NameTable :=
  if (names.lookup name).isSome then .error complaint else .ok ((name, id) :: names)

namespace FunctionOutline

/-- Parameters are numbered first. -/
def paramNames (f : FunctionOutline) : Except ParseError NameTable :=
  f.params.zipIdx.foldlM (fun names (param, id) =>
    names.declare param id ⟨f.line, .duplicateArgument param⟩) []

/-- Then every statement takes a number, whether or not it names its result. -/
def valueNames (f : FunctionOutline) : Except ParseError NameTable := do
  let names ← f.paramNames
  ((f.blocks.flatMap (·.body)).zipIdx f.params.length).foldlM (fun names (s, id) =>
    match s.result with
    | none => .ok names
    | some result => names.declare result id ⟨s.line, .duplicateValue result⟩) names

def blockNames (f : FunctionOutline) : Except ParseError NameTable :=
  f.blocks.zipIdx.foldlM (fun names (block, id) =>
    names.declare block.name id ⟨block.line, .duplicateBlock block.name⟩) []

end FunctionOutline

/-- What the names of a function stand for. -/
structure Scope where
  values : NameTable
  blocks : NameTable
  deriving DecidableEq, Repr

namespace Scope

def value (scope : Scope) (line : Nat) (operand : List Char) : Except ParseError ValueId := do
  let name ← valueName line operand
  match scope.values.lookup name with
  | some id => .ok id
  | none => .error ⟨line, .undefinedValue name⟩

def block (scope : Scope) (line : Nat) (operand : List Char) : Except ParseError BlockId :=
  match scope.blocks.lookup (String.ofList operand) with
  | some id => .ok id
  | none => .error ⟨line, .undefinedBlock (String.ofList operand)⟩

/-- A callee is `@name`, or else a value. -/
def callee (scope : Scope) (line : Nat) (operand : List Char) : Except ParseError Callee :=
  match (dropFirst? '@' operand).filter isName with
  | some name => .ok (.direct (String.ofList name))
  | none => do pure (.indirect (← scope.value line operand))

end Scope

namespace Statement

/-- The only operand. -/
def one (s : Statement) : Except ParseError (List Char) :=
  match s.operands with
  | [a] => .ok a
  | operands => .error ⟨s.line, .operandCount s.mnemonic 1 operands.length⟩

/-- The only two operands. -/
def two (s : Statement) : Except ParseError (List Char × List Char) :=
  match s.operands with
  | [a, b] => .ok (a, b)
  | operands => .error ⟨s.line, .operandCount s.mnemonic 2 operands.length⟩

/-- The only three operands. -/
def three (s : Statement) : Except ParseError (List Char × List Char × List Char) :=
  match s.operands with
  | [a, b, c] => .ok (a, b, c)
  | operands => .error ⟨s.line, .operandCount s.mnemonic 3 operands.length⟩

/-- A number read from the only operand. -/
def number {α : Type} (s : Statement) (read : List Char → Option α) : Except ParseError α := do
  let operand ← s.one
  match read operand with
  | some n => .ok n
  | none => .error ⟨s.line, .invalidNumber (String.ofList operand)⟩

/-- The operation that a statement denotes. -/
def op (s : Statement) (scope : Scope) : Except ParseError Op :=
  match s.mnemonic with
  | "ldi" => return .imm (← s.number word?)
  | "ldf" => return .float (← s.number Binary64.read?)
  | "alloca" => return .alloca (← s.number unsigned64?)
  | "ld" => return .load (← scope.value s.line (← s.one))
  | "st" => do
    let (addr, value) ← s.two
    return .store (← scope.value s.line addr) (← scope.value s.line value)
  | "sym" => do
    match dropFirst? '@' (← s.one) with
    | some name => return .symbol (String.ofList name)
    | none => .error ⟨s.line, .noSymbol⟩
  | "call" =>
    match s.operands with
    | [] => .error ⟨s.line, .noCallee⟩
    | target :: args =>
      return .call (← scope.callee s.line target) (← args.mapM (scope.value s.line))
  | "br" => do
    let (cond, onTrue, onFalse) ← s.three
    return .branch (← scope.value s.line cond) (← scope.block s.line onTrue)
      (← scope.block s.line onFalse)
  | "jmp" => return .jump (← scope.block s.line (← s.one))
  | "ret" =>
    if s.operands.isEmpty then .ok .ret
    else .error ⟨s.line, .operandCount s.mnemonic 0 s.operands.length⟩
  | "retr" => return .retValue (← scope.value s.line (← s.one))
  | mnemonic =>
    match BinaryOp.ofMnemonic? mnemonic with
    | some op => do
      let (lhs, rhs) ← s.two
      return .binary op (← scope.value s.line lhs) (← scope.value s.line rhs)
    | none => .error ⟨s.line, .unknownMnemonic mnemonic⟩

/-- Append a statement's operation to the function under construction. -/
def pushTo (s : Statement) (scope : Scope) (b : Builder) : Except ParseError Builder := do
  let op ← s.op scope
  match s.result with
  | none => return (b.push op).2
  | some result =>
    if op.hasResult then
      let (v, b) := b.push op
      return b.nameValue v result
    else .error ⟨s.line, .noResult s.mnemonic⟩

end Statement

namespace FunctionOutline

/-- The function with its parameters named and its blocks still empty. -/
def frame (f : FunctionOutline) : Builder :=
  let named := f.params.zipIdx.foldl (fun b (param, v) => b.nameValue v param)
    (Builder.start f.name f.params.length)
  f.blocks.foldl (fun b block => (b.block block.name).2) named

/-- The function that an outline describes. -/
def resolve (f : FunctionOutline) : Except ParseError Function := do
  let scope : Scope := { values := ← f.valueNames, blocks := ← f.blockNames }
  let b ← f.blocks.zipIdx.foldlM (fun b (block, id) =>
    block.body.foldlM (fun b s => s.pushTo scope b) (b.switchTo id)) f.frame
  return b.function

end FunctionOutline

/-- The program that outlines describe. -/
def Program.ofOutlines (outlines : List FunctionOutline) : Except ParseError Program :=
  outlines.foldlM (fun program f => do
    let function ← f.resolve
    match program.add function with
    | .ok program => .ok program
    | .error e => .error ⟨f.line, .rejected e⟩) {}

/-- The program that a text describes. -/
def parse (text : String) : Except ParseError Program := do
  Program.ofOutlines (← outline text.toList)

end Codegen86.IR
