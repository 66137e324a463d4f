import Codegen86.Target.Instruction
/-!
# Liveness within a block

Which abstract registers and memory words each instruction of a block reads and defines, which of them
are still read after it, and where the next read is.  Nothing is live at the end of a block.

A memory operand with an abstract base reads the base as well.  A `MOV` defines its target; an
arithmetic instruction reads its target and so keeps it live.
-/

set_option autoImplicit false

namespace Codegen86.Allocation

open Target

/-- Abstract registers and memory words are what the allocator keeps track of. -/
def isTracked (operand : Operand) : Bool := operand.isMemory || operand.isAbstract

/-- The abstract register that a memory operand is based on. -/
def baseReads : Operand → List Operand
  | .mem base _ => [Operand.reg base].filter isTracked
  | _ => []

/-- What reading an operand reads. -/
def operandReads (operand : Operand) : List Operand :=
  baseReads operand ++ [operand].filter isTracked

/-- What an instruction reads, and what it defines. -/
structure Effects where
  reads : List Operand := []
  defines : Option Operand := none
  deriving DecidableEq, Repr

def Effects.of (pool : Pool) : Instruction → Effects
  | .push x => { reads := operandReads (pool.get x) }
  | .pop x => { defines := some (pool.get x) |>.filter isTracked }
  | .mov x y =>
    { reads := operandReads (pool.get y) ++ baseReads (pool.get x)
      defines := some (pool.get x) |>.filter isTracked }
  | .arith _ x y | .cmp x y => { reads := operandReads (pool.get x) ++ operandReads (pool.get y) }
  | .ret | .halt | .nop | .jump _ | .jumpIf _ _ | .call _ => {}

/-- What is live before an instruction, from what is live after it: its definition dies, and then its
reads live. -/
def Effects.before (e : Effects) (after : List Operand) : List Operand :=
  e.reads.foldl (fun live o => live.insert o) (after.filter fun o => e.defines != some o)

theorem Effects.mem_before {e : Effects} {after : List Operand} {o : Operand} :
    o ∈ e.before after ↔ o ∈ e.reads ∨ o ∈ after ∧ e.defines ≠ some o := by
  have insertAll : ∀ (reads live : List Operand),
      o ∈ reads.foldl (fun live r => live.insert r) live ↔ o ∈ reads ∨ o ∈ live := by
    intro reads
    induction reads with
    | nil => simp
    | cons r rest ih => intro live; simp [ih, List.mem_insert_iff, or_left_comm, or_assoc]
  simp [before, insertAll]

/-- The effects of each instruction of a block, with what is live after it. -/
structure Liveness where
  effects : List Effects
  liveAfter : List (List Operand)
  deriving DecidableEq, Repr

namespace Liveness

/-- What is live before the first of some instructions, and after each of them. -/
def backward : List Effects → List Operand × List (List Operand)
  | [] => ([], [])
  | e :: rest =>
    let (live, after) := backward rest
    (e.before live, live :: after)

def compute (pool : Pool) (code : List Instruction) : Liveness :=
  let effects := code.map (Effects.of pool)
  { effects, liveAfter := (backward effects).2 }

/-- Number of instructions. -/
def size (l : Liveness) : Nat := l.effects.length

def live (l : Liveness) (i : Nat) : List Operand := l.liveAfter[i]?.getD []

def isLiveAfter (l : Liveness) (i : Nat) (o : Operand) : Bool := (l.live i).contains o

/-- The first instruction from `start` on that reads `o`. -/
def nextRead (l : Liveness) (o : Operand) (start : Nat) : Option Nat :=
  ((l.effects.drop start).findIdx? (·.reads.contains o)).map (· + start)

end Liveness

end Codegen86.Allocation
