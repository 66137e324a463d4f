import Codegen86.Target.Program
/-!
# Laying out programs

Assembly gives every function and block the number of instructions before it as its address, and puts
addresses into the labels of jumps and calls.  Functions and blocks share one set of names.
-/

set_option autoImplicit false

namespace Codegen86.Target

/-- Addresses of functions and blocks, and the number of instructions. -/
structure Layout where
  labels : List (String × Nat) := []
  size : Nat := 0
  deriving DecidableEq, Repr

namespace Layout

def address? (l : Layout) (name : String) : Option Nat := l.labels.lookup name

/-- Give a new name the address of the next instruction. -/
def define (l : Layout) (name : String) : Except Error Layout :=
  if (l.address? name).isSome then .error (.duplicateLabel name)
  else .ok { l with labels := l.labels ++ [(name, l.size)] }

/-- Lay out a block behind what is laid out already. -/
def addBlock (l : Layout) (b : Block) : Except Error Layout := do
  let l ← l.define b.name
  return { l with size := l.size + b.code.length }

/-- Lay out a function behind what is laid out already. -/
def addFunction (l : Layout) (f : Function) : Except Error Layout := do
  let l ← l.define f.name
  f.blocks.foldlM addBlock l

/-- The layout of a program in the order of its functions. -/
def ofProgram (p : Program) : Except Error Layout := p.functions.foldlM addFunction {}

/-- Give the label at `ref` its address; other operands stay. -/
def patchRef (l : Layout) (pool : Pool) (ref : OperandRef) : Except Error Pool :=
  match pool.get ref with
  | .label label =>
    match l.address? label.name with
    | some address => .ok (pool.set ref (.label { label with address := some address }))
    | none => .error (.unresolvedLabel label.name)
  | _ => .ok pool

/-- Give the labels of all jumps and calls their addresses. -/
def patch (l : Layout) (p : Program) : Except Error Program := do
  let pool ← (p.code.filterMap Instruction.destination?).foldlM l.patchRef p.pool
  return { p with pool }

end Layout

/-- Lay out a program with its entry function first, and resolve its labels. -/
def Program.assemble (p : Program) : Except Error (Program × Layout) := do
  let p ← p.placeEntryFirst
  let layout ← Layout.ofProgram p
  let p ← layout.patch p
  return (p, layout)

end Codegen86.Target
