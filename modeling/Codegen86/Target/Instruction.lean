import Codegen86.Arith
import Codegen86.Target.Pool
/-!
# Instructions

The machine's instructions, with references to their operands.  An arithmetic instruction replaces its
target by a value of target and source; `CMP` alone sets the flags; jumps and calls take a label.
-/

set_option autoImplicit false

namespace Codegen86.Target

/-- What a conditional jump asks of the flags. -/
inductive Condition where
  | zero | notZero | equal | notEqual | greater | greaterEqual | less | lessEqual
  deriving DecidableEq, Repr

namespace Condition

def all : List Condition :=
  [zero, notZero, equal, notEqual, greater, greaterEqual, less, lessEqual]

/-- Whether the condition holds after comparing with outcome `flags`. -/
def holds (c : Condition) (flags : Ordering) : Bool :=
  match c with
  | zero | equal => flags == .eq
  | notZero | notEqual => flags != .eq
  | greater => flags == .gt
  | greaterEqual => flags != .lt
  | less => flags == .lt
  | lessEqual => flags != .gt

/-- The condition that holds exactly when `c` does not. -/
def negate : Condition → Condition
  | zero => notZero
  | notZero => zero
  | equal => notEqual
  | notEqual => equal
  | greater => lessEqual
  | lessEqual => greater
  | greaterEqual => less
  | less => greaterEqual

theorem holds_negate (c : Condition) (flags : Ordering) :
    c.negate.holds flags = !c.holds flags := by
  cases c <;> cases flags <;> rfl

/-- The condition that asks for a comparison. -/
def ofComparison : Comparison → Condition
  | .lt => less
  | .le => lessEqual
  | .gt => greater
  | .ge => greaterEqual
  | .eq => equal
  | .ne => notEqual

theorem holds_ofComparison (c : Comparison) (flags : Ordering) :
    (ofComparison c).holds flags = c.holds flags := by
  cases c <;> rfl

def mnemonic : Condition → String
  | zero => "JZ"
  | notZero => "JNZ"
  | equal => "JE"
  | notEqual => "JNE"
  | greater => "JG"
  | greaterEqual => "JGE"
  | less => "JL"
  | lessEqual => "JLE"

end Condition

inductive Instruction where
  | ret
  | halt
  | nop
  | push (operand : OperandRef)
  | pop (operand : OperandRef)
  | mov (target source : OperandRef)
  | arith (op : Arith) (target source : OperandRef)
  | cmp (left right : OperandRef)
  | jump (target : OperandRef)
  | jumpIf (condition : Condition) (target : OperandRef)
  | call (target : OperandRef)
  deriving DecidableEq, Repr

namespace Instruction

/-- Mnemonics of the arithmetic instructions. -/
def arithMnemonic : Arith → String
  | .add => "ADD"
  | .sub => "SUB"
  | .mul => "MUL"
  | .div => "DIV"
  | .mod => "MOD"
  | .and => "AND"
  | .or => "OR"

def mnemonic : Instruction → String
  | ret => "RET"
  | halt => "HALT"
  | nop => "NOP"
  | push _ => "PUSH"
  | pop _ => "POP"
  | mov _ _ => "MOV"
  | arith op _ _ => arithMnemonic op
  | cmp _ _ => "CMP"
  | jump _ => "JMP"
  | jumpIf condition _ => condition.mnemonic
  | call _ => "CALL"

/-- The instruction with a mnemonic and operands, target first; `none` if they do not go together. -/
def ofMnemonic? (mnemonic : String) (operands : List OperandRef) : Option Instruction :=
  match operands with
  | [] => [ret, halt, nop].find? (·.mnemonic == mnemonic)
  | [x] =>
    ([push x, pop x, jump x, call x] ++ Condition.all.map (jumpIf · x)).find?
      (·.mnemonic == mnemonic)
  | [x, y] => ([mov x y, cmp x y] ++ Arith.all.map (arith · x y)).find? (·.mnemonic == mnemonic)
  | _ => none

/-- Operands in the order they are written. -/
def operands : Instruction → List OperandRef
  | ret | halt | nop => []
  | push x | pop x | jump x | jumpIf _ x | call x => [x]
  | mov x y | arith _ x y | cmp x y => [x, y]

/-- Change every reference by `f`. -/
def mapRefs (f : OperandRef → OperandRef) : Instruction → Instruction
  | ret => ret
  | halt => halt
  | nop => nop
  | push x => push (f x)
  | pop x => pop (f x)
  | mov x y => mov (f x) (f y)
  | arith op x y => arith op (f x) (f y)
  | cmp x y => cmp (f x) (f y)
  | jump x => jump (f x)
  | jumpIf condition x => jumpIf condition (f x)
  | call x => call (f x)

/-- Put `new` in the place of `old`. -/
def replace (i : Instruction) (old new : OperandRef) : Instruction :=
  i.mapRefs fun ref => if ref = old then new else ref

/-- Whether the instruction has a target and a source. -/
def isBinary : Instruction → Bool
  | mov _ _ | arith _ _ _ | cmp _ _ => true
  | _ => false

/-- Whether the target's old value goes into its new one. -/
def updatesTarget : Instruction → Bool
  | arith _ _ _ => true
  | _ => false

/-- Whether a target is written. -/
def writesTarget : Instruction → Bool
  | mov _ _ | arith _ _ _ => true
  | _ => false

def isNop : Instruction → Bool
  | nop => true
  | _ => false

def isCall : Instruction → Bool
  | call _ => true
  | _ => false

def isCompare : Instruction → Bool
  | cmp _ _ => true
  | _ => false

/-- Jumps within a function. -/
def isJump : Instruction → Bool
  | jump _ | jumpIf _ _ => true
  | _ => false

/-- Instructions after which control may leave the block. -/
def isTerminator : Instruction → Bool
  | jump _ | jumpIf _ _ | ret | halt => true
  | _ => false

/-- The label of a jump or call. -/
def destination? : Instruction → Option OperandRef
  | jump x | jumpIf _ x | call x => some x
  | _ => none

/-- The condition of a conditional jump. -/
def condition? : Instruction → Option Condition
  | jumpIf condition _ => some condition
  | _ => none

def text (p : Pool) (i : Instruction) : String :=
  match i.operands with
  | [] => i.mnemonic
  | operands => i.mnemonic ++ " " ++ ", ".intercalate (operands.map fun ref => (p.get ref).text)

/-- An instruction is written by its operands alone. -/
theorem text_congr {p q : Pool} {i : Instruction} (same : ∀ x ∈ i.operands, p.get x = q.get x) :
    i.text p = i.text q := by
  have texts : i.operands.map (fun x => (p.get x).text) = i.operands.map (fun x => (q.get x).text) :=
    List.map_congr_left fun x use => congrArg Operand.text (same x use)
  unfold text
  split
  · rfl
  · rw [texts]

end Instruction

end Codegen86.Target
