import Codegen86.Machine.Fault
import Codegen86.Target.Pool
/-!
# Machine states

Registers, memory, flags and the address of the next instruction, and how operands are read and written.
The stack grows downward from the end of memory.  Every access outside the machine is a fault, reported
at a given address.
-/

set_option autoImplicit false

namespace Codegen86.Machine

open Target

/-- Number of general registers, `R0` included. -/
def generalRegisters : Nat := 65

structure State where
  general : Vector Word generalRegisters
  stackPointer : Word
  basePointer : Word
  memory : Array Word
  flags : Ordering
  pc : Nat
  deriving DecidableEq, Repr

namespace State

/-- Registers and memory cleared, both pointers at the end of memory. -/
def initial (words entry : Nat) : State :=
  { general := Vector.replicate generalRegisters 0
    stackPointer := Word.ofNat words
    basePointer := Word.ofNat words
    memory := Array.replicate words 0
    flags := .eq
    pc := entry }

/-- The returned value. -/
def result (s : State) : Word := s.general[0]

def register (s : State) (pc : Nat) (r : Register) : Except Fault Word :=
  match r with
  | .stackPointer => .ok s.stackPointer
  | .basePointer => .ok s.basePointer
  | .abstract _ => .error (.abstractRegister pc r)
  | .physical i =>
    if h : i < generalRegisters then .ok s.general[i] else .error (.unknownRegister pc r)

def setRegister (s : State) (pc : Nat) (r : Register) (value : Word) : Except Fault State :=
  match r with
  | .stackPointer => .ok { s with stackPointer := value }
  | .basePointer => .ok { s with basePointer := value }
  | .abstract _ => .error (.abstractRegister pc r)
  | .physical i =>
    if h : i < generalRegisters then .ok { s with general := s.general.set i value }
    else .error (.unknownRegister pc r)

/-- The memory cell at an offset from a register; sums of addresses wrap. -/
def address (s : State) (pc : Nat) (base : Register) (offset : Word) : Except Fault Nat := do
  let b ← s.register pc base
  match (b + offset).index? s.memory.size with
  | some i => .ok i
  | none => .error (.invalidAddress pc (b + offset))

def read (s : State) (pc : Nat) : Operand → Except Fault Word
  | .reg r => s.register pc r
  | .mem base offset => do return s.memory.getD (← s.address pc base offset) 0
  | .imm value => .ok value
  | .label l =>
    match l.address with
    | some address => .ok (Word.ofNat address)
    | none => .error (.unpatchedLabel pc l.name)

def write (s : State) (pc : Nat) (target : Operand) (value : Word) : Except Fault State :=
  match target with
  | .reg r => s.setRegister pc r value
  | .mem base offset => do
    let i ← s.address pc base offset
    return { s with memory := s.memory.setIfInBounds i value }
  | .imm _ | .label _ => .error (.invalidTarget pc target)

/-- Push a word.  The stack pointer has to be in memory or at its end, and not at its start. -/
def push (s : State) (pc : Nat) (value : Word) : Except Fault State :=
  if s.stackPointer ≤ 0 ∨ s.memory.size < s.stackPointer.toNatClampNeg then
    .error (.stackOverflow pc)
  else
    let top := s.stackPointer - 1
    .ok { s with
      stackPointer := top
      memory := s.memory.setIfInBounds top.toNatClampNeg value }

def pop (s : State) (pc : Nat) : Except Fault (Word × State) :=
  match s.stackPointer.index? s.memory.size with
  | some i => .ok (s.memory.getD i 0, { s with stackPointer := s.stackPointer + 1 })
  | none => .error (.invalidAddress pc s.stackPointer)

end State

end Codegen86.Machine
