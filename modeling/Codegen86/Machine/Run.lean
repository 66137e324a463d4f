import Codegen86.Machine.State
import Codegen86.Target.Layout
/-!
# Running programs

A machine holds an assembled program.  A run pushes the arguments, last to first, and a sentinel return
address, and executes from the entry until a return meets the sentinel or a halt; the result is the
register of returned values.  A run executes at most as many instructions as the step limit says, and
counts them, the one that faults included.
-/

set_option autoImplicit false

namespace Codegen86

open Target

structure Machine where
  code : Array Instruction
  pool : Pool
  entry : Nat := 0
  words : Nat := 65536
  limit : Nat := 1000000
  deriving DecidableEq, Repr

namespace Machine

/-- Outcome of one instruction that does not fault. -/
inductive Step where
  | next (s : State)
  | done (s : State)
  deriving DecidableEq, Repr

/-- The result of a run and the number of instructions executed. -/
structure Run where
  outcome : Except Fault Word
  steps : Nat

/-- The return address that ends a run. -/
def sentinel : Word := -1

/-- Load a program, entering at its entry function if the layout has it, and else at address 0. -/
def load (p : Program) (layout : Layout) : Machine :=
  { code := p.code.toArray
    pool := p.pool
    entry := (p.entry.bind layout.address?).getD 0 }

/-- The instruction address that a word denotes. -/
def jumpAddress (m : Machine) (pc : Nat) (address : Word) : Except Fault Nat :=
  match address.index? m.code.size with
  | some target => .ok target
  | none => .error (.invalidJump pc address)

/-- The address that a jump or call leads to. -/
def destination (m : Machine) (pc : Nat) (s : State) (target : OperandRef) : Except Fault Nat := do
  m.jumpAddress pc (← s.read pc (m.pool.get target))

/-- Execute an instruction at address `pc`; the state already points behind it. -/
def execute (m : Machine) (pc : Nat) (s : State) : Instruction → Except Fault Step
  | .nop => .ok (.next s)
  | .halt => .ok (.done s)
  | .ret => do
    let (address, s) ← s.pop pc
    if address = sentinel then return .done s
    let target ← m.jumpAddress pc address
    return .next { s with pc := target }
  | .push x => do
    let value ← s.read pc (m.pool.get x)
    return .next (← s.push pc value)
  | .pop x => do
    let (value, s) ← s.pop pc
    return .next (← s.write pc (m.pool.get x) value)
  | .mov x y => do
    let value ← s.read pc (m.pool.get y)
    return .next (← s.write pc (m.pool.get x) value)
  | .arith op x y => do
    let source ← s.read pc (m.pool.get y)
    let target ← s.read pc (m.pool.get x)
    match op.eval target source with
    | some value => return .next (← s.write pc (m.pool.get x) value)
    | none => .error (.divisionByZero pc)
  | .cmp x y => do
    let right ← s.read pc (m.pool.get y)
    let left ← s.read pc (m.pool.get x)
    return .next { s with flags := compare left right }
  | .jump x => do
    let target ← m.destination pc s x
    return .next { s with pc := target }
  | .jumpIf condition x => do
    let target ← m.destination pc s x
    return .next (if condition.holds s.flags then { s with pc := target } else s)
  | .call x => do
    let target ← m.destination pc s x
    let s ← s.push pc (Word.ofNat s.pc)
    return .next { s with pc := target }

/-- Execute the instruction that the state points to. -/
def step (m : Machine) (s : State) : Except Fault Step :=
  let pc := s.pc
  match m.code[pc]? with
  | none => .error (.invalidJump pc (Word.ofNat pc))
  | some i => m.execute pc { s with pc := pc + 1 } i

/-- Execute up to `fuel` instructions after `steps` earlier ones. -/
def loop (m : Machine) : Nat → Nat → State → Run
  | 0, steps, _ => { outcome := .error (.stepLimit m.limit), steps }
  | fuel + 1, steps, s =>
    match m.step s with
    | .error fault => { outcome := .error fault, steps := steps + 1 }
    | .ok (.next s) => m.loop fuel (steps + 1) s
    | .ok (.done s) => { outcome := .ok s.result, steps := steps + 1 }

/-- The state in which execution begins: arguments and sentinel pushed. -/
def start (m : Machine) (args : List Word) : Except Fault State := do
  let s ← args.reverse.foldlM (fun s arg => s.push (m.entry - 1) arg)
    (State.initial m.words m.entry)
  s.push (m.entry - 1) sentinel

/-- Call the entry function with `args`. -/
def run (m : Machine) (args : List Word) : Run :=
  match m.start args with
  | .error fault => { outcome := .error fault, steps := 0 }
  | .ok s => m.loop m.limit 0 s

end Machine

end Codegen86
