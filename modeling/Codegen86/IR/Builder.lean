import Codegen86.IR.Function
/-!
# Building functions

A builder holds an unfinished function and the block that receives the next operation.  Numbers are
handed out in order: parameters first, then one for each operation pushed.
-/

set_option autoImplicit false

namespace Codegen86.IR

structure Builder where
  function : Function
  current : Option BlockId := none
  deriving DecidableEq, Repr

namespace Builder

/-- A function with parameters and nothing else. -/
def start (name : String) (arity : Nat) : Builder :=
  { function :=
      { name, arity, blocks := [], values := (Array.range arity).map fun i => { op := .arg i } } }

/-- The value of parameter `i`. -/
def arg? (b : Builder) (i : Nat) : Option ValueId := if i < b.function.arity then some i else none

/-- Add an empty block.  The first one becomes current. -/
def block (b : Builder) (name : String) : BlockId × Builder :=
  let id := b.function.blocks.length
  (id, { function := { b.function with blocks := b.function.blocks ++ [{ name }] }
         current := some (b.current.getD id) })

/-- Make `id` the block that receives operations. -/
def switchTo (b : Builder) (id : BlockId) : Builder := { b with current := some id }

/-- Name a value; an unknown value is left alone. -/
def nameValue (b : Builder) (v : ValueId) (name : String) : Builder :=
  { b with function := { b.function with
      values := b.function.values.modify v fun value => { value with name := some name } } }

/-- The block that receives the next operation, a new block `entry` if none is current. -/
def target (b : Builder) : BlockId × Builder :=
  match b.current with
  | some id => (id, b)
  | none => b.block "entry"

/-- Append an operation to the current block. -/
def push (b : Builder) (op : Op) : ValueId × Builder :=
  let (id, b) := b.target
  let v := b.function.values.size
  (v, { b with function := { b.function with
      values := b.function.values.push { op }
      blocks := b.function.blocks.modify id fun block => { block with body := block.body ++ [v] } } })

@[simp] theorem target_values (b : Builder) : b.target.2.function.values = b.function.values := by
  unfold target
  split <;> rfl

theorem push_values (b : Builder) (op : Op) :
    (b.push op).2.function.values = b.function.values.push { op } := by
  simp [push]

end Builder

end Codegen86.IR
