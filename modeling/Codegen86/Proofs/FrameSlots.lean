import Codegen86.Compile
/-!
# What the words of frames are for

Slots come from two stages.  Selection reserves them for values that need a home and for local variables, and
the allocator for values that it spills, block by block.  None of the stages keeps a record of them; here they
are listed, in the order in which they are handed out (`frameSlots`).
-/

set_option autoImplicit false

namespace Codegen86

open Target

/-- What a slot is for: a value of the function, a local variable, or an abstract register that is spilled in a
block. -/
inductive Owner where
  | home (v : IR.ValueId)
  | alloca (v : IR.ValueId)
  | spilled (block : String) (key : Operand)
  deriving DecidableEq, Repr

/-- Slots with what they are for. -/
abbrev Slots := List (Owner × Word)

namespace Selection

/-- The slots reserved for a function when its blocks are lowered. -/
def reserved (c : Context) (s : Lowering) : Slots :=
  c.plan.homes.map (fun entry => (.home entry.1, entry.2)) ++
    s.slots.reverse.map fun entry => (.alloca entry.1, entry.2)

/-- The slots reserved for the functions found, from the one at `position` on. -/
def foundSlots (source : IR.Program) : Nat → Nat → Selector → Except Error (List Slots)
  | 0, _, _ => .ok []
  | fuel + 1, position, s =>
    match s.found[position]? with
    | none => .ok []
    | some name =>
      match source.function? name with
      | none => .error (.undefinedFunction name)
      | some f => do
        let (c, _, _, body) ← lowerBody source s f
        let (target, s) ← lowerFunction source s f
        let program ← s.program.add target
        return reserved c body :: (← foundSlots source fuel (position + 1) { s with program })

/-- The slots reserved for an entry function and everything it calls. -/
def selectSlots (source : IR.Program) (entry : String) (journal : Journal) :
    Except Error (List Slots) :=
  let start : Selector := { journal, program := ({} : Program).setEntry entry }
  foundSlots source source.functions.length 0 (start.find entry)

end Selection

namespace Target

/-- The slots of values spilled in a block. -/
def Block.spilled (b : Block) (s : Allocation.State) : Slots :=
  s.slots.reverse.map fun entry => (.spilled b.name entry.1, entry.2)

/-- The slots of values spilled in blocks that are allocated one after another. -/
def Function.spilledSlots (registers : Nat) (pool : Pool) (frame : Frame) (journal : Journal) :
    List Block → Except Error Slots
  | [] => .ok []
  | b :: rest => do
    let (_, s) ← b.allocate registers pool frame journal
    return b.spilled s ++ (← spilledSlots registers s.pool s.frame s.journal rest)

/-- All slots of functions that are allocated one after another, after those that were reserved. -/
def Program.allocatedSlots (registers : Nat) (pool : Pool) (journal : Journal) :
    List (Function × Slots) → Except Error (List (String × Slots))
  | [] => .ok []
  | (f, reserved) :: rest => do
    let spilled ← Function.spilledSlots registers pool { words := f.frameSize } (journal.enter f.name) f.blocks
    let (f, pool, journal) ← f.allocate registers pool journal
    return (f.name, reserved ++ spilled) :: (← allocatedSlots registers pool journal rest)

end Target

/-- The slots of every function of a compiled program. -/
def frameSlots (config : Config) (source : IR.Program) : Except Error (List (String × Slots)) := do
  let reserved ← Selection.selectSlots source config.entry {}
  let (p, journal) ← Selection.select source config.entry {}
  Program.allocatedSlots (registerCount config.registers) p.pool journal (p.functions.zip reserved)

end Codegen86
