import Codegen86.Allocation.State
/-!
# Assigning registers to instructions

How each instruction of a block comes to name physical registers.  A move between values that are in
registers only records that the target is now held too, and leaves a `NOP`; a store to a word that is
read later stays in its register as a dirty word.  A call empties all registers first.
-/

set_option autoImplicit false

namespace Codegen86.Allocation.State

open Target

/-- Define `key` in a new register by moving `source` there. -/
def defineByMove (c : Context) (s : State) (index : Nat) (target : OperandRef) (key : Operand)
    (source : OperandRef) : Except Error (Nat × State) := do
  let (register, s) ← s.acquire c index
  let (target, s) := ((s.pin register).bind key register).attach target key register
  return (register, s.emit (.mov target source))

/-- Let `key` stand in a register that already holds its value. -/
def defineByAlias (s : State) (target : OperandRef) (key : Operand) (register : Nat) : State :=
  ((s.bind key register).attach target key register).2.eliminate

/-- A move to an abstract register. -/
def moveToRegister (c : Context) (s : State) (index : Nat) (target : OperandRef) (key : Operand)
    (source : OperandRef) : Except Error State :=
  if !c.liveness.isLiveAfter index key then .ok s.eliminate
  else
    match s.role source with
    | .abstract sourceKey => do
      let (register, _, s) ← s.resolve c index source sourceKey
      return s.defineByAlias target key register
    | .memory word =>
      match s.register? word with
      | some register => .ok (s.defineByAlias target key register)
      | none => do
        let (register, s) ← s.defineByMove c index target key source
        return if c.liveness.isLiveAfter index word then s.bind word register else s
    | .other => do
      let (_, s) ← s.defineByMove c index target key source
      return s

/-- A move to a memory word. -/
def moveToMemory (c : Context) (s : State) (index : Nat) (target : OperandRef) (word : Operand)
    (source : OperandRef) : Except Error State :=
  match s.role source with
  | .abstract sourceKey => do
    let (register, source, s) ← s.resolve c index source sourceKey
    return if c.liveness.isLiveAfter index word then
        ((s.bind word register).markDirty word).eliminate
      else (s.invalidate word).emit (.mov target source)
  | .memory _ | .other => do
    let (source, s) ← s.use c index source
    return (s.invalidate word).emit (.mov target source)

def move (c : Context) (s : State) (index : Nat) (target source : OperandRef) :
    Except Error State :=
  match s.role target with
  | .abstract key => s.moveToRegister c index target key source
  | .memory word => s.moveToMemory c index target word source
  | .other => do
    let (source, s) ← s.use c index source
    return s.emit (.mov target source)

def arith (c : Context) (s : State) (index : Nat) (op : Arith) (target source : OperandRef) :
    Except Error State := do
  let role := s.role target
  let (source, s) ← s.use c index source
  match role with
  | .abstract key =>
    let (register, target, s) ← s.resolve c index target key
    return (s.separate c index register key).emit (.arith op target source)
  | .memory word =>
    let s :=
      match s.register? word with
      | some register => (s.clean word register).unbind word
      | none => s
    return s.emit (.arith op target source)
  | .other => return s.emit (.arith op target source)

def pop (c : Context) (s : State) (index : Nat) (operand : OperandRef) : Except Error State :=
  match s.role operand with
  | .abstract key => do
    let (register, s) ← s.acquire c index
    let (operand, s) := (s.bind key register).attach operand key register
    return s.emit (.pop operand)
  | .memory word => .ok ((s.invalidate word).emit (.pop operand))
  | .other => .ok (s.emit (.pop operand))

/-- Empty all registers. -/
def vacateAll (c : Context) (s : State) (index : Nat) : State :=
  (List.range' 1 c.registers).foldl (fun s register =>
    if s.residents.occupants register = 0 then s else s.vacate c register index) s

/-- Give registers to the instruction at `index`, and emit it. -/
def instruction (c : Context) (s : State) (index : Nat) (i : Instruction) : Except Error State :=
  let s := { s with pinned := .empty }
  match i.mapRefs s.current with
  | .push x => do
    let (x, s) ← s.use c index x
    return s.emit (.push x)
  | .pop x => s.pop c index x
  | .mov x y => s.move c index x y
  | .cmp x y => do
    let (x, s) ← s.use c index x
    let (y, s) ← s.use c index y
    return s.emit (.cmp x y)
  | .arith op x y => s.arith c index op x y
  | .call x => .ok ((s.vacateAll c index).emit (.call x))
  | i => .ok (s.emit i)

/-- Give registers to the instructions from `index` on.  Dirty words are stored right before the
closing group of the block, which begins at `closing`. -/
def instructions (c : Context) (closing : Nat) (s : State) (index : Nat) :
    List Instruction → Except Error State
  | [] => .ok (if closing = index then s.writeBackAll else s)
  | i :: rest => do
    let s := if closing = index then s.writeBackAll else s
    let s ← s.instruction c index i
    (s.releaseDead c index).instructions c closing (index + 1) rest

/-- At the end of a block nothing is held, nothing is dirty and every register is free. -/
def finish (c : Context) (s : State) : Except Error State :=
  let held := s.residents.bindings.length
  let free := s.residents.free.size
  if held = 0 ∧ s.dirty.isEmpty ∧ free = c.registers then .ok s
  else .error (.leaked c.block held s.dirty.length free c.registers)

end Codegen86.Allocation.State
