import Codegen86.Binary64.Shortest
import Codegen86.IR.Function
/-!
# Printing the intermediate language

A function is printed as a header line, one line for each block label and each operation, and a closing
brace; functions are separated by an empty line.  Only operations with a result name their value.
-/

set_option autoImplicit false

namespace Codegen86.IR

namespace Function

/-- The name of a block; an unknown one is shown by its number. -/
def displayBlock (f : Function) (id : BlockId) : String :=
  match f.blocks[id]? with
  | some block => block.name
  | none => "<block" ++ toString id ++ ">"

/-- Values separated by commas. -/
def displayAll (f : Function) (vs : List ValueId) : String :=
  ", ".intercalate (vs.map f.display)

/-- An operation without its result. -/
def displayOp (f : Function) (op : Op) : String :=
  match op with
  | .arg index => "arg " ++ toString index
  | .imm value => "ldi " ++ value.text
  | .float value => "ldf " ++ value.text
  | .alloca bytes => "alloca " ++ toString bytes
  | .load addr => "ld " ++ f.display addr
  | .store addr value => "st " ++ f.displayAll [addr, value]
  | .binary op lhs rhs => op.mnemonic ++ " " ++ f.displayAll [lhs, rhs]
  | .symbol name => "sym @" ++ name
  | .call (.direct name) args => "call @" ++ name ++ "(" ++ f.displayAll args ++ ")"
  | .call (.indirect target) args => "call " ++ f.display target ++ "(" ++ f.displayAll args ++ ")"
  | .branch cond onTrue onFalse =>
    "br " ++ f.display cond ++ ", " ++ f.displayBlock onTrue ++ ", " ++ f.displayBlock onFalse
  | .jump target => "jmp " ++ f.displayBlock target
  | .ret => "ret"
  | .retValue value => "retr " ++ f.display value

/-- The line of the operation at `v`; an unknown value has none. -/
def displayLine? (f : Function) (v : ValueId) : Option String :=
  (f.op? v).map fun op =>
    "    " ++ (if op.hasResult then f.display v ++ " = " else "") ++ f.displayOp op

def displayBody (f : Function) (block : Block) : List String :=
  (block.name ++ ":") :: block.body.filterMap f.displayLine?

/-- The lines of a function. -/
def lines (f : Function) : List String :=
  ("fn " ++ f.name ++ "(" ++ f.displayAll f.args ++ ") \x7b") ::
    f.blocks.flatMap f.displayBody ++ ["\x7d"]

end Function

namespace Program

/-- The lines of a program. -/
def lines (p : Program) : List String :=
  [""].intercalate (p.functions.map Function.lines)

/-- The text of a program; every line ends in a line feed. -/
def text (p : Program) : String := String.join (p.lines.map (· ++ "\n"))

end Program

end Codegen86.IR
