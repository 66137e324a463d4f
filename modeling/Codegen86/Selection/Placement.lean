import Codegen86.IR.Function
/-!
# Placement of values

The checks that a function has to pass before instructions are selected for it.  Every block lists
values and ends in its only terminator, successors exist, no value is listed twice, no parameter is
listed, and operands name parameters or listed values with a result.  The first fault found is
reported, in the order of blocks and values.
-/

set_option autoImplicit false

namespace Codegen86.Selection

open IR

/-- The block that each value is listed in. -/
abbrev Placement := List (ValueId × BlockId)

/-- Check the value `v` listed in a block, and note its place. -/
def place (f : Function) (block : Block) (id : BlockId) (placement : Placement) (v : ValueId)
    (isLast : Bool) : Except Defect Placement :=
  match f.op? v with
  | none => .error (.unknownValue block.name)
  | some (.arg _) => .error (.placedArgument (f.display v) block.name)
  | some op =>
    if op.isTerminator != isLast then
      .error (if isLast then .unterminated block.name else .afterTerminator block.name)
    else
      match op.successors.find? fun b => f.blocks[b]?.isNone with
      | some b => .error (.unknownSuccessor b)
      | none =>
        if (placement.lookup v).isSome then .error (.placedTwice (f.display v))
        else .ok ((v, id) :: placement)

/-- Check the values listed in a block from some point on. -/
def placeAll (f : Function) (block : Block) (id : BlockId) (placement : Placement) :
    List ValueId → Except Defect Placement
  | [] => .ok placement
  | v :: rest => do
    let placement ← place f block id placement v rest.isEmpty
    placeAll f block id placement rest

/-- Check a block. -/
def placeBlock (f : Function) (placement : Placement) (block : Block × BlockId) :
    Except Defect Placement :=
  if block.1.body.isEmpty then .error (.emptyBlock block.1.name)
  else placeAll f block.1 block.2 placement block.1.body

/-- Whether an operand names a parameter, or a listed value with a result. -/
def isDefined (f : Function) (placement : Placement) (v : ValueId) : Bool :=
  match f.op? v with
  | some (.arg _) => true
  | some op => op.hasResult && (placement.lookup v).isSome
  | none => false

/-- Every read of a value in a function, in order. -/
def uses (f : Function) : List ValueId := f.placed.flatMap f.operandsOf

/-- Check a function, and place its values. -/
def placement (f : Function) : Except Defect Placement := do
  if f.blocks.isEmpty then throw .noBlocks
  let placement ← f.numbered.foldlM (placeBlock f) []
  match (uses f).find? fun v => !isDefined f placement v with
  | some v => throw (.notAValue (f.display v))
  | none => return placement

end Codegen86.Selection
