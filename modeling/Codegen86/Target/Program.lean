import Codegen86.Error
import Codegen86.Target.Instruction
/-!
# Target programs

A program is a list of functions with distinct names over one operand pool; a function is a list of
blocks with distinct names; a block is a list of instructions.  The frame of a function is counted in
words, and the immediate that reserves it is one shared operand.
-/

set_option autoImplicit false

namespace Codegen86.Target

structure Block where
  name : String
  code : List Instruction := []
  deriving DecidableEq, Repr

namespace Block

/-- Whether the last instruction transfers control. -/
def isTerminated (b : Block) : Bool := b.code.getLast?.any Instruction.isTerminator

/-- Where the closing group of a block begins: the jumps, returns and halts at its end, and a
comparison right before them. -/
def closingStart (b : Block) : Nat :=
  let start := b.code.length - (b.code.reverse.takeWhile Instruction.isTerminator).length
  if start < b.code.length && (b.code.take start).getLast?.any Instruction.isCompare then start - 1
  else start

end Block

/-- A function; `frame` refers to the immediate that reserves its frame. -/
structure Function where
  name : String
  blocks : List Block := []
  args : List OperandRef := []
  frameSize : UInt32 := 0
  frame : Option OperandRef := none
  deriving DecidableEq, Repr

namespace Function

def block? (f : Function) (name : String) : Option Block := f.blocks.find? (·.name == name)

/-- Add a block under a new name. -/
def addBlock (f : Function) (b : Block) : Except Error Function :=
  if (f.block? b.name).isSome then .error (.duplicateBlock f.name b.name)
  else .ok { f with blocks := f.blocks ++ [b] }

/-- All instructions, in order. -/
def code (f : Function) : List Instruction := f.blocks.flatMap (·.code)

/-- Number of instructions. -/
def size (f : Function) : Nat := f.code.length

end Function

/-- A program; `labels` counts the labels made up so far. -/
structure Program where
  functions : List Function := []
  entry : Option String := none
  pool : Pool := {}
  labels : Nat := 0
  deriving DecidableEq, Repr

namespace Program

def function? (p : Program) (name : String) : Option Function :=
  p.functions.find? (·.name == name)

/-- Add a function under a new name. -/
def add (p : Program) (f : Function) : Except Error Program :=
  if (p.function? f.name).isSome then .error (.duplicateFunction f.name)
  else .ok { p with functions := p.functions ++ [f] }

/-- Designate the function that execution starts in. -/
def setEntry (p : Program) (name : String) : Program := { p with entry := some name }

/-- Move the entry function to the front; the others keep their order. -/
def placeEntryFirst (p : Program) : Except Error Program :=
  match p.entry with
  | none => .ok p
  | some name =>
    match p.function? name with
    | none => .error (.missingEntry name)
    | some f => .ok { p with functions := f :: p.functions.eraseP (·.name == name) }

/-- A new label: the base and the number of labels made before. -/
def freshLabel (p : Program) (base : String) : String × Program :=
  (base ++ toString p.labels, { p with labels := p.labels + 1 })

/-- Put an operand into the pool. -/
def addOperand (p : Program) (operand : Operand) : OperandRef × Program :=
  let (ref, pool) := p.pool.add operand
  (ref, { p with pool })

/-- All instructions, in order. -/
def code (p : Program) : List Instruction := p.functions.flatMap (·.code)

/-- Number of instructions. -/
def size (p : Program) : Nat := p.code.length

/-- The operands that instructions refer to, in order. -/
def referenced (p : Program) : List Operand :=
  (p.code.flatMap Instruction.operands).map p.pool.get

/-- Moving the entry function to the front loses and repeats no function. -/
theorem placeEntryFirst_perm {p p' : Program} (h : p.placeEntryFirst = .ok p') :
    p'.functions.Perm p.functions := by
  unfold placeEntryFirst at h
  split at h
  · cases h; exact .refl _
  · split at h
    · cases h
    · rename_i f found
      cases h
      obtain ⟨same, before, after, split, off⟩ := List.find?_eq_some_iff_append.mp found
      simp only [split]
      rw [List.eraseP_append_right _ (by simpa using off), List.eraseP_cons, same]
      exact List.perm_middle.symm

end Program

end Codegen86.Target
