import Codegen86.Selection.State
/-!
# Lowering operations

The instructions selected for each operation.
-/

set_option autoImplicit false

namespace Codegen86.Selection.Lowering

open Target
open IR (ValueId BlockId)

/-- The slot of a local variable; only local variables have addresses. -/
def slotOf (c : Context) (s : Lowering) (addr : ValueId) (mnemonic : String) :
    Except Error Word :=
  match s.slots.lookup addr with
  | some offset => .ok offset
  | none => .error (.unimplemented (mnemonic ++ " through a computed address") c.function.name)

/-- Move an operand to a new register and let it hold a value. -/
def defineByMove (c : Context) (s : Lowering) (v : ValueId) (source : Operand) : Lowering :=
  let (register, s) := s.freshRegister
  let (source, s) := s.addOperand source
  (s.emit (.mov register source)).define c v register

/-- A local variable is zero at first. -/
def alloca (c : Context) (s : Lowering) (v : ValueId) (bytes : Nat) : Except Error Lowering :=
  match s.frame.reserveBytes? bytes with
  | none => .error (.oversizedLocal bytes c.function.name)
  | some (offset, frame) =>
    .ok ({ s with frame, slots := (v, offset) :: s.slots }.emitStore offset (.imm 0))

def store (c : Context) (s : Lowering) (addr value : ValueId) : Except Error Lowering := do
  let offset ← s.slotOf c addr "st"
  let (source, s) ← s.resolve c value
  let (slot, s) := s.addOperand (.frameSlot offset)
  return s.emit (.mov slot source)

def arith (c : Context) (s : Lowering) (v : ValueId) (op : Arith) (lhs rhs : ValueId) :
    Except Error Lowering := do
  let (left, s) ← s.resolve c lhs
  let (right, s) ← s.resolve c rhs
  let (result, s) := s.freshRegister
  return ((s.emit (.mov result left)).emit (.arith op result right)).define c v result

/-- A comparison whose value is kept: its home is set to one, and to zero in a block of its own that the
comparison jumps over when it holds. -/
def compare (c : Context) (s : Lowering) (v : ValueId) (op : Comparison) (lhs rhs : ValueId) :
    Except Error Lowering :=
  match c.plan.homes.lookup v with
  | none => .error (.malformed c.function.name .noResultSlot)
  | some offset => do
    let (left, s) ← s.resolve c lhs
    let (right, s) ← s.resolve c rhs
    let (otherwise, s) := s.freshLabel (labelBase c.function.name "cmp_false")
    let (join, s) := s.freshLabel (labelBase c.function.name "cmp_join")
    let s := (s.emitStore offset (.imm 1)).emit (.cmp left right)
    let s := ((s.emitJumpIf (.ofComparison op) join).emitJump otherwise).endBlock
    let s := (((s.beginBlock otherwise).emitStore offset (.imm 0)).emitJump join).endBlock
    return s.beginBlock join

/-- A direct call.  The result is moved out of the register of returned values if anything reads it. -/
def call (c : Context) (s : Lowering) (v : ValueId) (callee : IR.Callee) (args : List ValueId) :
    Except Error Lowering :=
  match callee with
  | .indirect _ => .error (.indirectCall c.function.name)
  | .direct name =>
    match c.source.function? name with
    | none => .error (.undefinedFunction name)
    | some target =>
      if target.arity ≠ args.length then
        .error (.malformed c.function.name (.argumentCount name args.length target.arity))
      else do
        let s := { s with toSelector := s.toSelector.find name }
        let (registers, s) ← s.resolveAll c args
        let s := s.emitSequence fun pool => Calling.callSequence pool name registers
        return if (uses c.function).contains v then s.defineByMove c v (.reg .result) else s

/-- The comparison in front of a branch, and the condition under which the branch is not taken. -/
def branchTest (c : Context) (s : Lowering) (cond : ValueId) :
    Except Error (Condition × Lowering) :=
  match c.function.op? cond, c.plan.fused.contains cond with
  | some (.binary (.compare op) lhs rhs), true => do
    let (left, s) ← s.resolve c lhs
    let (right, s) ← s.resolve c rhs
    return ((Condition.ofComparison op).negate, s.emit (.cmp left right))
  | _, _ => do
    let (value, s) ← s.resolve c cond
    let (constant, s) := s.addOperand (.imm 0)
    return (.zero, s.emit (.cmp value constant))

def branch (c : Context) (s : Lowering) (cond : ValueId) (onTrue onFalse : BlockId) :
    Except Error Lowering := do
  let (trueLabel, s) ← s.labelOf c onTrue
  let (falseLabel, s) ← s.labelOf c onFalse
  let (otherwise, s) ← s.branchTest c cond
  return (s.emitJumpIf otherwise falseLabel).emitJump trueLabel

/-- Lower the operation of the value `v`. -/
def operation (c : Context) (s : Lowering) (v : ValueId) : Except Error Lowering :=
  match c.function.op? v with
  | none => .error (.malformed c.function.name (.unknownValue s.name))
  | some op =>
    match op with
    | .arg _ => .ok s
    | .imm value => .ok (s.defineByMove c v (.imm value))
    | .float _ => .error (.unimplemented op.mnemonic c.function.name)
    | .symbol _ => .error (.unimplemented op.mnemonic c.function.name)
    | .alloca bytes => s.alloca c v bytes
    | .load addr => do
      let offset ← s.slotOf c addr "ld"
      return s.defineByMove c v (.frameSlot offset)
    | .store addr value => s.store c addr value
    | .binary (.arith op) lhs rhs => s.arith c v op lhs rhs
    | .binary (.compare op) lhs rhs =>
      if c.plan.fused.contains v then .ok s else s.compare c v op lhs rhs
    | .call callee args => s.call c v callee args
    | .branch cond onTrue onFalse => s.branch c cond onTrue onFalse
    | .jump target => do
      let (label, s) ← s.labelOf c target
      return s.emitJump label
    | .ret => .ok (s.emitJump c.epilogue)
    | .retValue value => do
      let (source, s) ← s.resolve c value
      let s := s.emitSequence fun pool =>
        let (i, pool) := Calling.returnValue pool source
        ([i], pool)
      return s.emitJump c.epilogue

/-- Lower the values listed in a block. -/
def operations (c : Context) (s : Lowering) : List ValueId → Except Error Lowering
  | [] => .ok s
  | v :: rest => do (← s.operation c v).operations c rest

/-- Lower a block under its label. -/
def block (c : Context) (s : Lowering) (id : BlockId) (label : String) : Except Error Lowering := do
  let body := (c.function.blocks[id]?.map (·.body)).getD []
  return (← (s.beginBlock label).operations c body).endBlock

/-- Lower the blocks found, from the one at `position` on, with those found on the way.  Every block is
found once, so their number bounds the steps. -/
def blocks (c : Context) : Nat → Nat → Lowering → Except Error Lowering
  | 0, _, s => .ok s
  | fuel + 1, position, s =>
    match s.labels[position]? with
    | none => .ok s
    | some (id, label) => do blocks c fuel (position + 1) (← s.block c id label)

end Codegen86.Selection.Lowering
