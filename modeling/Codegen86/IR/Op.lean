import Codegen86.Arith
import Codegen86.Binary64.Basic
/-!
# Operations of the intermediate language

Values and blocks are numbered within their function.  An operation reads values, may name successor
blocks, and occupies one value number whether or not it has a result.
-/

set_option autoImplicit false

namespace Codegen86.IR

/-- Number of a value in its function. -/
abbrev ValueId := Nat

/-- Number of a block in its function; the entry block is number 0. -/
abbrev BlockId := Nat

/-- Operators on two values. -/
inductive BinaryOp where
  | arith (op : Arith)
  | compare (op : Comparison)
  deriving DecidableEq, Repr

namespace BinaryOp

def all : List BinaryOp := Arith.all.map arith ++ Comparison.all.map compare

def mnemonic : BinaryOp → String
  | arith .add => "add"
  | arith .sub => "sub"
  | arith .mul => "mul"
  | arith .div => "div"
  | arith .mod => "mod"
  | arith .and => "and"
  | arith .or => "or"
  | compare .lt => "lt"
  | compare .le => "le"
  | compare .gt => "gt"
  | compare .ge => "ge"
  | compare .eq => "eq"
  | compare .ne => "ne"

def ofMnemonic? (text : String) : Option BinaryOp := all.find? (·.mnemonic == text)

theorem mem_all (op : BinaryOp) : op ∈ all := by
  rcases op with op | op <;> cases op <;> decide

theorem ofMnemonic?_mnemonic (op : BinaryOp) : ofMnemonic? op.mnemonic = some op := by
  rcases op with op | op <;> cases op <;> rfl

def isComparison : BinaryOp → Bool
  | arith _ => false
  | compare _ => true

end BinaryOp

/-- What a call calls. -/
inductive Callee where
  | direct (name : String)
  | indirect (target : ValueId)
  deriving DecidableEq, Repr

/-- One operation.  `arg` stands for a parameter and belongs in no block. -/
inductive Op where
  | arg (index : Nat)
  | imm (value : Word)
  | float (value : Binary64)
  | alloca (bytes : Nat)
  | load (addr : ValueId)
  | store (addr value : ValueId)
  | binary (op : BinaryOp) (lhs rhs : ValueId)
  | symbol (name : String)
  | call (callee : Callee) (args : List ValueId)
  | branch (cond : ValueId) (onTrue onFalse : BlockId)
  | jump (target : BlockId)
  | ret
  | retValue (value : ValueId)
  deriving DecidableEq, Repr

namespace Op

def mnemonic : Op → String
  | arg _ => "arg"
  | imm _ => "ldi"
  | float _ => "ldf"
  | alloca _ => "alloca"
  | load _ => "ld"
  | store _ _ => "st"
  | binary op _ _ => op.mnemonic
  | symbol _ => "sym"
  | call _ _ => "call"
  | branch _ _ _ => "br"
  | jump _ => "jmp"
  | ret => "ret"
  | retValue _ => "retr"

/-- The values read, in order; an indirect callee comes first. -/
def operands : Op → List ValueId
  | load addr => [addr]
  | store addr value => [addr, value]
  | binary _ lhs rhs => [lhs, rhs]
  | call (.direct _) args => args
  | call (.indirect target) args => target :: args
  | branch cond _ _ => [cond]
  | retValue value => [value]
  | arg _ | imm _ | float _ | alloca _ | symbol _ | jump _ | ret => []

def successors : Op → List BlockId
  | branch _ onTrue onFalse => [onTrue, onFalse]
  | jump target => [target]
  | _ => []

def isTerminator : Op → Bool
  | branch _ _ _ | jump _ | ret | retValue _ => true
  | _ => false

/-- Whether other operations may read the operation's value. -/
def hasResult : Op → Bool
  | store _ _ | branch _ _ _ | jump _ | ret | retValue _ => false
  | _ => true

def isComparison : Op → Bool
  | binary op _ _ => op.isComparison
  | _ => false

/-- A terminator has no result. -/
theorem hasResult_of_isTerminator {op : Op} (h : op.isTerminator = true) :
    op.hasResult = false := by
  cases op <;> simp_all [isTerminator, hasResult]

end Op

end Codegen86.IR
