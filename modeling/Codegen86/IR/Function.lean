import Codegen86.Error
import Codegen86.IR.Op
/-!
# Functions and programs of the intermediate language

A function owns its values, numbered from its parameters on, and its blocks, which list the values they
compute.  A program is a list of functions with distinct names.
-/

set_option autoImplicit false

namespace Codegen86.IR

/-- An operation and the name of its value, if it has one. -/
structure Value where
  op : Op
  name : Option String := none
  deriving DecidableEq, Repr

/-- The values that a block computes, in order. -/
structure Block where
  name : String
  body : List ValueId := []
  deriving DecidableEq, Repr

/-- A function; its first `arity` values are its parameters. -/
structure Function where
  name : String
  arity : Nat
  blocks : List Block
  values : Array Value
  deriving DecidableEq, Repr

namespace Function

def args (f : Function) : List ValueId := List.range f.arity

def op? (f : Function) (v : ValueId) : Option Op := f.values[v]?.map (·.op)

def nameOf? (f : Function) (v : ValueId) : Option String := f.values[v]?.bind (·.name)

/-- The name under which a value is printed: its own, or else its number. -/
def display (f : Function) (v : ValueId) : String := "%" ++ (f.nameOf? v).getD (toString v)

/-- Operands of the operation at `v`; none for an unknown value. -/
def operandsOf (f : Function) (v : ValueId) : List ValueId := ((f.op? v).map Op.operands).getD []

/-- Whether `v` is a comparison. -/
def isComparison (f : Function) (v : ValueId) : Bool := ((f.op? v).map Op.isComparison).getD false

/-- Blocks with their numbers. -/
def numbered (f : Function) : List (Block × BlockId) := f.blocks.zipIdx

/-- The values listed by the blocks, in order. -/
def placed (f : Function) : List ValueId := f.blocks.flatMap (·.body)

end Function

/-- Functions in the order they were added. -/
structure Program where
  functions : List Function := []
  deriving DecidableEq, Repr

namespace Program

def function? (p : Program) (name : String) : Option Function :=
  p.functions.find? (·.name == name)

/-- Add a function under a new name. -/
def add (p : Program) (f : Function) : Except Error Program :=
  if (p.function? f.name).isSome then .error (.duplicateFunction f.name)
  else .ok { p with functions := p.functions ++ [f] }

theorem name_of_function? {p : Program} {name : String} {f : Function}
    (h : p.function? name = some f) : f.name = name := by
  simpa using List.find?_some h

theorem mem_of_function? {p : Program} {name : String} {f : Function}
    (h : p.function? name = some f) : f ∈ p.functions :=
  List.mem_of_find?_eq_some h

end Program

end Codegen86.IR
