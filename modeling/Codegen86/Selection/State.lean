import Codegen86.Calling
import Codegen86.Journal
import Codegen86.Selection.Plan
import Codegen86.Target.Program
/-!
# Selection state

What instruction selection has made so far.  `Selector` is what all functions share: the program, the
next abstract register, and the functions found so far in the order they were found, which is also the
order they are lowered in.  `Lowering` adds what belongs to the function being lowered; its `labels`
list the blocks found so far, in the same way.
-/

set_option autoImplicit false

namespace Codegen86.Selection

open Target
open IR (ValueId BlockId)

structure Selector where
  program : Program := {}
  registers : Nat := 1
  found : List String := []
  journal : Journal := {}
  deriving DecidableEq, Repr

/-- What is known about the function being lowered. -/
structure Context where
  source : IR.Program
  function : IR.Function
  plan : Plan
  epilogue : String
  deriving DecidableEq, Repr

/-- `slots` are the offsets of local variables, `held` the registers that hold values in the current
segment. -/
structure Lowering extends Selector where
  frame : Frame
  labels : List (BlockId × String) := []
  slots : List (ValueId × Word) := []
  held : List (ValueId × OperandRef) := []
  name : String := ""
  code : Array Instruction := #[]
  done : Array Block := #[]
  deriving DecidableEq, Repr

namespace Selector

/-- Note a function that is called. -/
def find (s : Selector) (name : String) : Selector :=
  if s.found.contains name then s else { s with found := s.found ++ [name] }

def addOperand (s : Selector) (operand : Operand) : OperandRef × Selector :=
  let (ref, program) := s.program.addOperand operand
  (ref, { s with program })

/-- A new label. -/
def freshLabel (s : Selector) (base : String) : String × Selector :=
  let (label, program) := s.program.freshLabel base
  (label, { s with program })

/-- A new abstract register. -/
def freshRegister (s : Selector) : OperandRef × Selector :=
  { s with registers := s.registers + 1 }.addOperand (.reg (.abstract s.registers))

/-- Several new abstract registers. -/
def freshRegisters (s : Selector) : Nat → List OperandRef × Selector
  | 0 => ([], s)
  | n + 1 =>
    let (ref, s) := s.freshRegister
    let (refs, s) := s.freshRegisters n
    (ref :: refs, s)

end Selector

/-- The parts of a generated label are joined by `$`, which no name in program text contains. -/
def labelBase (function part : String) : String := function ++ "$" ++ part

namespace Lowering

def addOperand (s : Lowering) (operand : Operand) : OperandRef × Lowering :=
  let (ref, selector) := s.toSelector.addOperand operand
  (ref, { s with toSelector := selector })

def freshLabel (s : Lowering) (base : String) : String × Lowering :=
  let (label, selector) := s.toSelector.freshLabel base
  (label, { s with toSelector := selector })

def freshRegister (s : Lowering) : OperandRef × Lowering :=
  let (ref, selector) := s.toSelector.freshRegister
  (ref, { s with toSelector := selector })

/-- Append an instruction to the block under construction. -/
def emit (s : Lowering) (i : Instruction) : Lowering :=
  { s with code := s.code.push i, journal := s.journal.recordInstruction i.mnemonic }

def emitAll (s : Lowering) (code : List Instruction) : Lowering := code.foldl emit s

/-- Append a sequence that puts its own operands into the pool. -/
def emitSequence (s : Lowering) (sequence : Pool → List Instruction × Pool) : Lowering :=
  let (code, pool) := sequence s.program.pool
  { s with program := { s.program with pool } }.emitAll code

/-- Append a jump to a label. -/
def emitJump (s : Lowering) (label : String) : Lowering :=
  let (ref, s) := s.addOperand (.symbol label)
  s.emit (.jump ref)

/-- Append a conditional jump to a label. -/
def emitJumpIf (s : Lowering) (condition : Condition) (label : String) : Lowering :=
  let (ref, s) := s.addOperand (.symbol label)
  s.emit (.jumpIf condition ref)

/-- Append a store of an operand to the frame. -/
def emitStore (s : Lowering) (offset : Word) (source : Operand) : Lowering :=
  let (slot, s) := s.addOperand (.frameSlot offset)
  let (source, s) := s.addOperand source
  s.emit (.mov slot source)

/-- Begin a block, in which no register holds a value yet. -/
def beginBlock (s : Lowering) (name : String) : Lowering :=
  { s with name, code := #[], held := [], journal := s.journal.recordBlock }

/-- End the block under construction. -/
def endBlock (s : Lowering) : Lowering :=
  { s with done := s.done.push { name := s.name, code := s.code.toList } }

/-- The label of a block; a block gets one when it is first asked for. -/
def labelOf (c : Context) (s : Lowering) (id : BlockId) : Except Error (String × Lowering) :=
  match s.labels.lookup id with
  | some label => .ok (label, s)
  | none =>
    match c.function.blocks[id]? with
    | none => .error (.malformed c.function.name (.unknownSuccessor id))
    | some block =>
      let (label, s) := s.freshLabel (labelBase c.function.name block.name)
      .ok (label, { s with labels := s.labels ++ [(id, label)] })

/-- Where a value is found that no register of the segment holds. -/
def sourceOf (c : Context) (v : ValueId) : Except Error Operand :=
  match c.function.op? v with
  | some (.arg index) => .ok (Calling.argSlot index)
  | some (.alloca _) => .error (.unimplemented "alloca address as value" c.function.name)
  | _ =>
    match c.plan.homes.lookup v with
    | some offset => .ok (.frameSlot offset)
    | none =>
      .error (.malformed c.function.name (.usedBeforeDefinition (c.function.display v)))

/-- A register that holds a value, which is loaded unless one does already. -/
def resolve (c : Context) (s : Lowering) (v : ValueId) : Except Error (OperandRef × Lowering) :=
  match s.held.lookup v with
  | some ref => .ok (ref, s)
  | none => do
    let source ← sourceOf c v
    let (register, s) := s.freshRegister
    let (source, s) := s.addOperand source
    let s := s.emit (.mov register source)
    return (register, { s with held := (v, register) :: s.held })

/-- Registers that hold values, one after another. -/
def resolveAll (c : Context) (s : Lowering) :
    List ValueId → Except Error (List OperandRef × Lowering)
  | [] => .ok ([], s)
  | v :: rest => do
    let (ref, s) ← s.resolve c v
    let (refs, s) ← s.resolveAll c rest
    return (ref :: refs, s)

/-- Let a register hold a new value, and store an escaping value in its home. -/
def define (c : Context) (s : Lowering) (v : ValueId) (register : OperandRef) : Lowering :=
  let s := { s with held := (v, register) :: s.held }
  match c.plan.homes.lookup v with
  | none => s
  | some offset =>
    let (home, s) := s.addOperand (.frameSlot offset)
    s.emit (.mov home register)

end Lowering

end Codegen86.Selection
