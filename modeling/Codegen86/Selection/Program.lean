import Codegen86.Selection.Lower
/-!
# Instruction selection

A function becomes a prologue, its blocks in the order they are found from the entry block, and one
epilogue.  A program becomes its functions in the order they are found from the entry function.
-/

set_option autoImplicit false

namespace Codegen86.Selection

open Target

/-- Lower a function up to its epilogue.  The frame immediate and the registers of the arguments are
handed on. -/
def lowerBody (source : IR.Program) (selector : Selector) (f : IR.Function) :
    Except Error (Context × OperandRef × List OperandRef × Lowering) := do
  let selector := { selector with journal := selector.journal.enter f.name }
  let plan ←
    match Plan.ofFunction f with
    | .ok plan => pure plan
    | .error defect => throw (.malformed f.name defect)
  let (epilogue, selector) := selector.freshLabel (labelBase f.name "epilogue")
  let (frame, selector) := selector.addOperand (.imm 0)
  let (prologue, selector) := selector.freshLabel (labelBase f.name "prologue")
  let c : Context := { source, function := f, plan, epilogue }
  let s : Lowering := { toSelector := selector, frame := plan.frame }
  let (body, s) ← s.labelOf c 0
  let (args, selector) := s.toSelector.freshRegisters f.arity
  let s := ({ s with toSelector := selector }.beginBlock prologue).emitSequence fun pool =>
    Calling.prologue pool frame args body
  return (c, frame, args, ← s.endBlock.blocks c f.blocks.length 0)

/-- Lower a function.  The frame immediate is shared by prologue and epilogue, and is set when the size
of the frame is known. -/
def lowerFunction (source : IR.Program) (selector : Selector) (f : IR.Function) :
    Except Error (Function × Selector) := do
  let (c, frame, args, s) ← lowerBody source selector f
  let s := ((s.beginBlock c.epilogue).emitSequence fun pool => Calling.epilogue pool frame).endBlock
  let target : Function :=
    { name := f.name, args, frameSize := s.frame.words, frame := some frame }
  let target ← s.done.toList.foldlM Function.addBlock target
  return (target, { s.toSelector with
    program := { s.program with pool := s.program.pool.set frame (.imm s.frame.size) }
    journal := s.journal.recordFunction f.name target.size })

/-- Lower the functions found, from the one at `position` on, with those found on the way.  Every
function is found once, so their number bounds the steps. -/
def lowerFound (source : IR.Program) : Nat → Nat → Selector → Except Error Selector
  | 0, _, s => .ok s
  | fuel + 1, position, s =>
    match s.found[position]? with
    | none => .ok s
    | some name =>
      match source.function? name with
      | none => .error (.undefinedFunction name)
      | some f => do
        let (target, s) ← lowerFunction source s f
        let program ← s.program.add target
        lowerFound source fuel (position + 1) { s with program }

/-- Select instructions for an entry function and everything it calls. -/
def select (source : IR.Program) (entry : String) (journal : Journal) :
    Except Error (Program × Journal) :=
  if (source.function? entry).isNone then .error (.missingEntry entry)
  else do
    let start : Selector := { journal, program := ({} : Program).setEntry entry }
    let s ← lowerFound source source.functions.length 0 (start.find entry)
    return (s.program, s.journal)

end Codegen86.Selection
