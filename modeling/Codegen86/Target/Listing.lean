import Codegen86.Target.Program
/-!
# Printing target programs

A program is printed as its functions, their blocks and their instructions, each level indented by two
more columns.  A listing shows the instructions alone, behind their addresses.
-/

set_option autoImplicit false

namespace Codegen86.Target

namespace Program

/-- Lines joined into a text. -/
def join (lines : List String) : String := String.join (lines.map (· ++ "\n"))

def blockLines (p : Program) (b : Block) : List String :=
  ("  " ++ b.name ++ ":") :: b.code.map fun i => "    " ++ i.text p.pool

def functionLines (p : Program) (f : Function) : List String :=
  (f.name ++ ":") :: f.blocks.flatMap p.blockLines

/-- The text of a program. -/
def text (p : Program) : String := join (p.functions.flatMap p.functionLines)

/-- An address, at least four columns wide. -/
def addressColumn (address : Nat) : String :=
  let digits := toString address
  String.ofList (List.replicate (4 - digits.length) ' ') ++ digits

/-- One line for each instruction, with its address. -/
def listing (p : Program) : String :=
  join (p.code.zipIdx.map fun (i, address) => addressColumn address ++ "  " ++ i.text p.pool)

end Program

end Codegen86.Target
