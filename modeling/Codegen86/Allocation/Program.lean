import Codegen86.Allocation.Assign
/-!
# Register allocation

Every block is allocated by itself, from nothing held in registers to nothing held.  A function's frame
grows by the slots of its spilled values, and the immediate that reserves the frame follows.
-/

set_option autoImplicit false

namespace Codegen86

open Target Allocation

namespace Target

/-- Allocate `R1` to `Rn` in a block; the pool, the frame and the journal are passed on. -/
def Block.allocate (registers : Nat) (b : Block) (pool : Pool) (frame : Frame)
    (journal : Journal) : Except Error (Block × State) := do
  let c : Context := { block := b.name, liveness := .compute pool b.code, registers }
  let s ← (State.start c pool frame journal).instructions c b.closingStart 0 b.code
  let s ← s.finish c
  return ({ b with code := s.out.toList }, s)

/-- Allocate the blocks of a function one after another. -/
def Function.allocateBlocks (registers : Nat) (pool : Pool) (frame : Frame) (journal : Journal) :
    List Block → Except Error (List Block × Pool × Frame × Journal)
  | [] => .ok ([], pool, frame, journal)
  | b :: rest => do
    let (b, s) ← b.allocate registers pool frame journal
    let (rest, pool, frame, journal) ← allocateBlocks registers s.pool s.frame s.journal rest
    return (b :: rest, pool, frame, journal)

/-- Allocate a function and let its frame grow. -/
def Function.allocate (registers : Nat) (f : Function) (pool : Pool) (journal : Journal) :
    Except Error (Function × Pool × Journal) := do
  let (blocks, pool, frame, journal) ←
    allocateBlocks registers pool { words := f.frameSize } (journal.enter f.name) f.blocks
  let pool :=
    match f.frame with
    | some ref => pool.set ref (.imm frame.size)
    | none => pool
  return ({ f with blocks, frameSize := frame.words }, pool, journal)

/-- Allocate functions one after another. -/
def Program.allocateFunctions (registers : Nat) (pool : Pool) (journal : Journal) :
    List Function → Except Error (List Function × Pool × Journal)
  | [] => .ok ([], pool, journal)
  | f :: rest => do
    let (f, pool, journal) ← f.allocate registers pool journal
    let (rest, pool, journal) ← allocateFunctions registers pool journal rest
    return (f :: rest, pool, journal)

/-- Register numbers have 32 bits; a larger count is taken modulo their number. -/
def registerCount (n : Nat) : Nat := n % UInt32.size

/-- Allocate every block of every function. -/
def Program.allocate (registers : Nat) (p : Program) (journal : Journal) :
    Except Error (Program × Journal) := do
  let (functions, pool, journal) ←
    allocateFunctions (registerCount registers) p.pool journal p.functions
  return ({ p with functions, pool }, journal)

end Target

end Codegen86
