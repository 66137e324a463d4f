import Codegen86.Machine.State
import Codegen86.Target.Instruction
/-!
# Symbolic machine states

The machine as the compiler's stages see it before assembly.  Memory is a function on all words, of
which a `Model` says which are addresses; abstract registers have values if the model allows them; what
goes wrong is a `Trap`, a fault that no address belongs to yet.

Two models matter.  `Model.machine` is the machine itself with a memory of some size.  `Model.ideal`
lets every word be an address, so that only a push at the start of memory goes wrong; it is what the
machine does until it runs out of memory.
-/

set_option autoImplicit false

namespace Codegen86.Symbolic

open Target Machine

/-! ## Functions changed at one place -/

/-- The function `f` with value `w` at `a`. -/
def put {α : Type} [DecidableEq α] (f : α → Word) (a : α) (w : Word) : α → Word :=
  fun b => if b = a then w else f b

@[simp] theorem put_self {α : Type} [DecidableEq α] (f : α → Word) (a : α) (w : Word) :
    put f a w a = w := if_pos rfl

theorem put_of_ne {α : Type} [DecidableEq α] (f : α → Word) {a b : α} (w : Word) (ne : b ≠ a) :
    put f a w b = f b := if_neg ne

theorem put_eq {α : Type} [DecidableEq α] (f : α → Word) (b : α) : put f b (f b) = f := by
  funext c
  by_cases same : c = b
  · rw [same, put_self]
  · rw [put_of_ne _ _ same]

theorem put_put {α : Type} [DecidableEq α] (f : α → Word) (b : α) (w w' : Word) :
    put (put f b w) b w' = put f b w' := by
  funext c
  by_cases same : c = b
  · rw [same, put_self, put_self]
  · rw [put_of_ne _ _ same, put_of_ne _ _ same, put_of_ne _ _ same]

/-! ## States -/

/-- What goes wrong in an instruction. -/
inductive Trap where
  | divisionByZero
  | stackOverflow
  | invalidAddress (address : Word)
  | unpatchedLabel (label : String)
  | abstractRegister (register : Register)
  | unknownRegister (register : Register)
  | invalidTarget (operand : Operand)
  deriving DecidableEq, Repr

/-- The fault of a trap at an instruction address. -/
def Trap.at (pc : Nat) : Trap → Fault
  | divisionByZero => .divisionByZero pc
  | stackOverflow => .stackOverflow pc
  | invalidAddress address => .invalidAddress pc address
  | unpatchedLabel label => .unpatchedLabel pc label
  | abstractRegister register => .abstractRegister pc register
  | unknownRegister register => .unknownRegister pc register
  | invalidTarget operand => .invalidTarget pc operand

/-- Which words are addresses, and whether abstract registers have values. -/
structure Model where
  valid : Word → Bool
  abstracts : Bool

namespace Model

/-- A memory of `words` words. -/
def machine (words : Nat) (abstracts : Bool) : Model :=
  { valid := fun a => (a.index? words).isSome, abstracts }

theorem machine_valid {words : Nat} {abstracts : Bool} {a : Word} :
    (machine words abstracts).valid a = true ↔ (a.index? words).isSome = true := Iff.rfl

/-- A memory without bounds. -/
def ideal (abstracts : Bool) : Model := { valid := fun _ => true, abstracts }

end Model

/-- Registers, memory and flags.  `pushed` lists the words pushed so far, the last one first, each with
its place; nothing reads it. -/
structure View where
  general : Nat → Word
  locals : Nat → Word
  stackPointer : Word
  basePointer : Word
  memory : Word → Word
  flags : Ordering
  pushed : List (Word × Word) := []

namespace View

variable (M : Model)

def register (v : View) (r : Register) : Except Trap Word :=
  match r with
  | .stackPointer => .ok v.stackPointer
  | .basePointer => .ok v.basePointer
  | .abstract i => if M.abstracts then .ok (v.locals i) else .error (.abstractRegister r)
  | .physical i =>
    if i < generalRegisters then .ok (v.general i) else .error (.unknownRegister r)

def setRegister (v : View) (r : Register) (value : Word) : Except Trap View :=
  match r with
  | .stackPointer => .ok { v with stackPointer := value }
  | .basePointer => .ok { v with basePointer := value }
  | .abstract i =>
    if M.abstracts then .ok { v with locals := put v.locals i value }
    else .error (.abstractRegister r)
  | .physical i =>
    if i < generalRegisters then .ok { v with general := put v.general i value }
    else .error (.unknownRegister r)

/-- The address at an offset from a register. -/
def address (v : View) (base : Register) (offset : Word) : Except Trap Word := do
  let b ← v.register M base
  if M.valid (b + offset) then .ok (b + offset) else .error (.invalidAddress (b + offset))

def read (v : View) : Operand → Except Trap Word
  | .reg r => v.register M r
  | .mem base offset => do return v.memory (← v.address M base offset)
  | .imm value => .ok value
  | .label l =>
    match l.address with
    | some address => .ok (Word.ofNat address)
    | none => .error (.unpatchedLabel l.name)

def write (v : View) (target : Operand) (value : Word) : Except Trap View :=
  match target with
  | .reg r => v.setRegister M r value
  | .mem base offset => do
    let a ← v.address M base offset
    return { v with memory := put v.memory a value }
  | .imm _ | .label _ => .error (.invalidTarget target)

/-- Put a word on the stack. -/
def push (v : View) (value : Word) : Except Trap View :=
  let top := v.stackPointer - 1
  if 0 < v.stackPointer ∧ M.valid top then
    .ok { v with stackPointer := top, memory := put v.memory top value }
  else .error .stackOverflow

def pop (v : View) : Except Trap (Word × View) :=
  if M.valid v.stackPointer then
    .ok (v.memory v.stackPointer, { v with stackPointer := v.stackPointer + 1 })
  else .error (.invalidAddress v.stackPointer)

/-- Note a word that was pushed. -/
def note (v : View) (value : Word) : View :=
  { v with pushed := (v.stackPointer, value) :: v.pushed }

/-- Execute an instruction that does not transfer control; the others change nothing. -/
def execute (pool : Pool) (v : View) : Instruction → Except Trap View
  | .push x => do
    let value ← v.read M (pool.get x)
    return (← v.push M value).note value
  | .pop x => do
    let (value, v) ← v.pop M
    v.write M (pool.get x) value
  | .mov x y => do
    let value ← v.read M (pool.get y)
    v.write M (pool.get x) value
  | .arith op x y => do
    let source ← v.read M (pool.get y)
    let target ← v.read M (pool.get x)
    match op.eval target source with
    | some value => v.write M (pool.get x) value
    | none => .error .divisionByZero
  | .cmp x y => do
    let right ← v.read M (pool.get y)
    let left ← v.read M (pool.get x)
    return { v with flags := compare left right }
  | .nop | .ret | .halt | .jump _ | .jumpIf _ _ | .call _ => .ok v

variable {M}

/-- What an instruction does depends on the operands it refers to, not on the rest of the pool. -/
theorem execute_congr {p q : Pool} (v : View) {i : Instruction}
    (same : ∀ x ∈ i.operands, p.get x = q.get x) : v.execute M p i = v.execute M q i := by
  cases i <;> simp_all [execute, Instruction.operands]

/-! ## Operands that are no abstract registers -/

section

variable {M' : Model} {p q : Pool} {o : Operand} (concrete : o.isAbstract = false) (word : o.isMemory = false)
include concrete word

theorem read_concrete (v : View) : v.read M' o = v.read M o := by
  cases o with
  | reg r => cases r <;> first | rfl | cases concrete
  | mem base offset => cases word
  | imm value => rfl
  | label l => rfl

theorem write_concrete (v : View) (value : Word) : v.write M' o value = v.write M o value := by
  cases o with
  | reg r => cases r <;> first | rfl | cases concrete
  | mem base offset => cases word
  | imm value => rfl
  | label l => rfl

end

/-- An instruction that has the same operands, none of them an abstract register or a word of memory, does the same
with abstract registers and without. -/
theorem execute_concrete {M' : Model} {p q : Pool} (v : View) {i : Instruction} (valid : M'.valid = M.valid)
    (same : ∀ x ∈ i.operands, q.get x = p.get x ∧ (p.get x).isAbstract = false ∧ (p.get x).isMemory = false) :
    v.execute M' q i = v.execute M p i := by
  have read : ∀ x ∈ i.operands, ∀ w : View, w.read M' (q.get x) = w.read M (p.get x) := by
    intro x use w
    obtain ⟨get, concrete, word⟩ := same x use
    rw [get]
    exact read_concrete concrete word w
  have write : ∀ x ∈ i.operands, ∀ (w : View) (value : Word),
      w.write M' (q.get x) value = w.write M (p.get x) value := by
    intro x use w value
    obtain ⟨get, concrete, word⟩ := same x use
    rw [get]
    exact write_concrete concrete word w value
  cases i <;> simp_all [execute, Instruction.operands, push, pop]

/-! ## Executing several instructions -/

/-- Execute instructions that transfer no control, one after another. -/
def executeAll (M : Model) (pool : Pool) (v : View) : List Instruction → Except Trap View
  | [] => .ok v
  | i :: rest => do (← v.execute M pool i).executeAll M pool rest

theorem executeAll_append {pool : Pool} {v w : View} {code : List Instruction}
    (first : v.executeAll M pool code = .ok w) (more : List Instruction) :
    v.executeAll M pool (code ++ more) = w.executeAll M pool more := by
  induction code generalizing v with
  | nil =>
    cases first
    rfl
  | cons i rest ih =>
    rw [executeAll] at first
    rw [List.cons_append, executeAll]
    cases done : v.execute M pool i with
    | error t => simp [done, bind, Except.bind] at first
    | ok next =>
      rw [done] at first
      exact ih first

theorem executeAll_congr {p q : Pool} (v : View) {code : List Instruction}
    (same : ∀ i ∈ code, ∀ x ∈ i.operands, p.get x = q.get x) :
    v.executeAll M p code = v.executeAll M q code := by
  induction code generalizing v with
  | nil => rfl
  | cons i rest ih =>
    rw [executeAll, executeAll, execute_congr v (same i List.mem_cons_self)]
    cases v.execute M q i with
    | error t => rfl
    | ok next => exact ih next fun j mem => same j (List.mem_cons_of_mem _ mem)

theorem executeAll_concrete {M' : Model} {p q : Pool} (v : View) {code : List Instruction} (valid : M'.valid = M.valid)
    (same : ∀ i ∈ code, ∀ x ∈ i.operands,
      q.get x = p.get x ∧ (p.get x).isAbstract = false ∧ (p.get x).isMemory = false) :
    v.executeAll M' q code = v.executeAll M p code := by
  induction code generalizing v with
  | nil => rfl
  | cons i rest ih =>
    rw [executeAll, executeAll, execute_concrete v valid (same i List.mem_cons_self)]
    cases v.execute M p i with
    | error t => rfl
    | ok next => exact ih next fun j mem => same j (List.mem_cons_of_mem _ mem)

end View

end Codegen86.Symbolic
