import Codegen86.Allocation.Liveness
import Codegen86.Allocation.Residents
import Codegen86.Frame
import Codegen86.Journal
import Codegen86.Target.Program
/-!
# Allocation state

The state of the allocator within a block, and the moves it makes between registers and memory: storing
changed words back, spilling values to slots of their own, loading them again, and evicting the register
whose values are read furthest ahead.

Registers are assigned through the operand pool.  The first time an abstract register gets a physical
one, the shared operand itself is changed (`keys` remembers what it was), which changes every
instruction that refers to it.  When the value later comes to stand in another register, the operand is
split: a new one takes its place from there on (`retarget`).
-/

set_option autoImplicit false

namespace Codegen86.Allocation

open Target

/-- What stays the same within a block. -/
structure Context where
  block : String
  liveness : Liveness
  registers : Nat
  deriving DecidableEq, Repr

/-- `dirty` words are newer in their register than in memory; `pinned` registers belong to the
instruction being allocated. -/
structure State where
  pool : Pool
  frame : Frame
  journal : Journal
  residents : Residents
  dirty : List Operand := []
  slots : List (Operand × Word) := []
  keys : List (OperandRef × Operand) := []
  retarget : List (OperandRef × OperandRef) := []
  pinned : RegisterSet := .empty
  out : Array Instruction := #[]
  deriving DecidableEq, Repr

/-- What an operand is to the allocator; both kinds of resident carry the key they go by. -/
inductive Role where
  | abstract (key : Operand)
  | memory (key : Operand)
  | other
  deriving DecidableEq, Repr

namespace State

def start (c : Context) (pool : Pool) (frame : Frame) (journal : Journal) : State :=
  { pool, frame, journal, residents := .start c.registers }

def emit (s : State) (i : Instruction) : State := { s with out := s.out.push i }

/-- A new operand in the pool. -/
def addOperand (s : State) (operand : Operand) : OperandRef × State :=
  let (ref, pool) := s.pool.add operand
  (ref, { s with pool })

/-- A new operand that names a physical register. -/
def physical (s : State) (register : Nat) : OperandRef × State :=
  s.addOperand (.reg (.physical register))

/-- Emit a move between two new operands. -/
def emitMove (s : State) (target source : Operand) : State :=
  let (x, s) := s.addOperand target
  let (y, s) := s.addOperand source
  s.emit (.mov x y)

def role (s : State) (ref : OperandRef) : Role :=
  match s.keys.lookup ref with
  | some key => .abstract key
  | none =>
    let operand := s.pool.get ref
    if operand.isAbstract then .abstract operand
    else if operand.isMemory then .memory operand
    else .other

/-- Follow at most `fuel` splits. -/
def follow (s : State) : Nat → OperandRef → OperandRef
  | 0, ref => ref
  | fuel + 1, ref =>
    match s.retarget.lookup ref with
    | none => ref
    | some next => s.follow fuel next

/-- The operand that stands for `ref` now.  No chain of splits is longer than their number. -/
def current (s : State) (ref : OperandRef) : OperandRef := s.follow s.retarget.length ref

def bind (s : State) (key : Operand) (register : Nat) : State :=
  { s with residents := s.residents.bind key register }

def unbind (s : State) (key : Operand) : State := { s with residents := s.residents.unbind key }

def register? (s : State) (key : Operand) : Option Nat := s.residents.register? key

def isDirty (s : State) (key : Operand) : Bool := s.dirty.contains key

def markDirty (s : State) (key : Operand) : State := { s with dirty := s.dirty.insert key }

def markClean (s : State) (key : Operand) : State :=
  { s with dirty := s.dirty.filter fun k => k != key }

def pin (s : State) (register : Nat) : State := { s with pinned := s.pinned.insert register }

/-- The slot of a spilled value, a new one the first time. -/
def slot (s : State) (key : Operand) : Word × State :=
  match s.slots.lookup key with
  | some offset => (offset, s)
  | none =>
    let (offset, frame) := s.frame.reserve
    (offset, { s with frame, slots := (key, offset) :: s.slots })

/-- Store a register to the slot of a value it holds. -/
def spill (s : State) (key : Operand) (register : Nat) : State :=
  let (offset, s) := s.slot key
  let s := s.emitMove (.frameSlot offset) (.reg (.physical register))
  { s with journal := s.journal.recordSpill }

/-- Store a register to the memory word it holds. -/
def writeBack (s : State) (key : Operand) (register : Nat) : State :=
  s.emitMove key (.reg (.physical register))

/-- Store a register to the memory word it holds, if the word is dirty. -/
def clean (s : State) (key : Operand) (register : Nat) : State :=
  if s.isDirty key then (s.markClean key).writeBack key register else s

/-- Store all dirty words; their registers keep holding them. -/
def writeBackAll (s : State) : State :=
  (Residents.sorted s.dirty).foldl (fun s key =>
    match s.register? key with
    | some register => s.writeBack key register
    | none => s) { s with dirty := [] }

/-- Forget a memory word that is about to be overwritten. -/
def invalidate (s : State) (key : Operand) : State := (s.markClean key).unbind key

/-- Save one resident of a register, as far as it is needed from instruction `index` on, and take it
out. -/
def vacateOne (c : Context) (index register : Nat) (s : State) (key : Operand) : State :=
  let s :=
    if key.isMemory then s.clean key register
    else if (c.liveness.nextRead key index).isSome then s.spill key register
    else s
  s.unbind key

/-- Empty a register. -/
def vacate (c : Context) (s : State) (register index : Nat) : State :=
  (s.residents.of register).foldl (vacateOne c index register) s

/-- The first read of any resident of a register; past the block if there is none. -/
def firstRead (c : Context) (s : State) (register index : Nat) : Nat :=
  (s.residents.of register).foldl (fun least key =>
    min least ((c.liveness.nextRead key index).getD c.liveness.size)) c.liveness.size

/-- Registers that hold something the current instruction does not use. -/
def evictable (c : Context) (s : State) : List Nat :=
  (List.range' 1 c.registers).filter fun register =>
    !s.pinned.contains register && s.residents.occupants register != 0

/-- The evictable register whose first read is furthest ahead; of several, the lowest. -/
def victim? (c : Context) (s : State) (index : Nat) : Option Nat :=
  let furthest := (evictable c s).foldl (fun best register =>
    let distance := s.firstRead c register index
    match best with
    | none => some (register, distance)
    | some (_, far) => if far < distance then some (register, distance) else best) none
  furthest.map (·.1)

def evict (c : Context) (s : State) (index : Nat) : Except Error State :=
  match s.victim? c index with
  | some register => .ok (s.vacate c register index)
  | none => .error (.registerPressure c.block index)

/-- The lowest free register, after an eviction if there was none. -/
def acquire (c : Context) (s : State) (index : Nat) : Except Error (Nat × State) := do
  let s ← if s.residents.free.isEmpty then s.evict c index else pure s
  match s.residents.free.first? with
  | some register => .ok (register, s)
  | none => .error (.registerPressure c.block index)

/-- Make the operand at `ref`, an instance of `key`, name `register`.  The result is the operand to use
from here on. -/
def attach (s : State) (ref : OperandRef) (key : Operand) (register : Nat) : OperandRef × State :=
  let ref := s.current ref
  let operand := s.pool.get ref
  if operand.isAbstract then
    (ref, { s with
      keys := (ref, key) :: s.keys
      pool := s.pool.set ref (.reg (.physical register)) })
  else if operand = .reg (.physical register) then (ref, s)
  else
    let (split, s) := s.physical register
    (split, { s with keys := (split, key) :: s.keys, retarget := (ref, split) :: s.retarget })

/-- The register of an abstract register's value; a spilled value is loaded first. -/
def load (c : Context) (s : State) (index : Nat) (key : Operand) : Except Error (Nat × State) :=
  match s.register? key with
  | some register => .ok (register, s)
  | none =>
    match s.slots.lookup key with
    | none => .error (.notResident c.block index key.text)
    | some offset => do
      let (register, s) ← s.acquire c index
      let s := s.emitMove (.reg (.physical register)) (.frameSlot offset)
      let s := { s with journal := s.journal.recordReload }
      return (register, s.bind key register)

/-- Bring an abstract register's value into a register for the current instruction. -/
def resolve (c : Context) (s : State) (index : Nat) (ref : OperandRef) (key : Operand) :
    Except Error (Nat × OperandRef × State) := do
  let (register, s) ← s.load c index key
  let (ref, s) := (s.pin register).attach ref key register
  return (register, ref, s)

/-- The operand to use for a read; a memory word that a register holds is read there. -/
def use (c : Context) (s : State) (index : Nat) (ref : OperandRef) :
    Except Error (OperandRef × State) :=
  match s.role ref with
  | .abstract key => do
    let (_, ref, s) ← s.resolve c index ref key
    return (ref, s)
  | .memory key =>
    match s.register? key with
    | some register => .ok ((s.pin register).physical register)
    | none => .ok (ref, s)
  | .other => .ok (ref, s)

/-- Put an instruction without effect in the place of a move. -/
def eliminate (s : State) : State :=
  { s with journal := s.journal.recordEliminated }.emit .nop

/-- Free one resident from a register that `owner` is about to overwrite: a memory word is stored, a
dead value forgotten, a live value copied to a free register or else spilled. -/
def separateOne (c : Context) (index register : Nat) (owner : Operand) (s : State) (key : Operand) :
    State :=
  if key = owner then s
  else if key.isMemory then (s.clean key register).unbind key
  else if c.liveness.isLiveAfter index key then
    match s.residents.free.first? with
    | some copy =>
      let s := s.emitMove (.reg (.physical copy)) (.reg (.physical register))
      (s.unbind key).bind key copy
    | none => (s.spill key register).unbind key
  else s.unbind key

/-- Leave `owner` as the only resident of a register. -/
def separate (c : Context) (s : State) (index register : Nat) (owner : Operand) : State :=
  (s.residents.of register).foldl (separateOne c index register owner) s

/-- Take out a resident that is not read after the instruction. -/
def releaseOne (c : Context) (index : Nat) (s : State) (key : Operand) : State :=
  if c.liveness.isLiveAfter index key then s
  else
    let s :=
      match s.register? key with
      | some register => s.clean key register
      | none => s.markClean key
    s.unbind key

/-- Take out all residents that are not read after the instruction. -/
def releaseDead (c : Context) (s : State) (index : Nat) : State :=
  s.residents.all.foldl (releaseOne c index) s

end State

end Codegen86.Allocation
