import Codegen86.Target.Instruction
/-!
# Calling convention

The caller pushes arguments last to first, calls, and drops the arguments.  The callee saves the base
pointer and reserves its frame with one immediate, which its epilogue releases, so that argument `i` is
at offset `i + 2`, above the saved base pointer and the return address.  A value is returned in `R0`.

Each sequence puts its own operands into the pool; the frame immediate alone is shared.
-/

set_option autoImplicit false

namespace Codegen86.Calling

open Target

/-- Words between the base pointer and the first argument. -/
def argBase : Nat := 2

/-- Where the callee finds argument `i`. -/
def argSlot (i : Nat) : Operand := .frameSlot (Word.ofNat (argBase + i))

/-- Load arguments from `i` on into registers. -/
def loadArgs (pool : Pool) (i : Nat) : List OperandRef → List Instruction × Pool
  | [] => ([], pool)
  | register :: rest =>
    let (slot, pool) := pool.add (argSlot i)
    let (loads, pool) := loadArgs pool (i + 1) rest
    (.mov register slot :: loads, pool)

/-- Enter a function: save the base pointer, reserve the frame, load the arguments, go to the body. -/
def prologue (pool : Pool) (frame : OperandRef) (registers : List OperandRef) (body : String) :
    List Instruction × Pool :=
  let (saved, pool) := pool.add (.reg .basePointer)
  let (base, pool) := pool.add (.reg .basePointer)
  let (top, pool) := pool.add (.reg .stackPointer)
  let (stack, pool) := pool.add (.reg .stackPointer)
  let (loads, pool) := loadArgs pool 0 registers
  let (label, pool) := pool.add (.symbol body)
  ([.push saved, .mov base top, .arith .sub stack frame] ++ loads ++ [.jump label], pool)

/-- Leave a function: release the frame, restore the base pointer, return. -/
def epilogue (pool : Pool) (frame : OperandRef) : List Instruction × Pool :=
  let (stack, pool) := pool.add (.reg .stackPointer)
  let (saved, pool) := pool.add (.reg .basePointer)
  ([.arith .add stack frame, .pop saved, .ret], pool)

/-- Call a function and drop its arguments, if it has any. -/
def callSequence (pool : Pool) (callee : String) (args : List OperandRef) :
    List Instruction × Pool :=
  let pushes := args.reverse.map Instruction.push
  let (label, pool) := pool.add (.symbol callee)
  if args.isEmpty then (pushes ++ [.call label], pool)
  else
    let (words, pool) := pool.add (.imm (Word.ofNat args.length))
    let (stack, pool) := pool.add (.reg .stackPointer)
    (pushes ++ [.call label, .arith .add stack words], pool)

/-- Hand over a value to the caller. -/
def returnValue (pool : Pool) (value : OperandRef) : Instruction × Pool :=
  let (result, pool) := pool.add (.reg .result)
  (.mov result value, pool)

end Codegen86.Calling
