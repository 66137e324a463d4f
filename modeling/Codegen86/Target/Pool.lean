import Codegen86.Target.Operand
/-!
# Operand pools

Instructions refer to operands by their place in a pool.  Instructions that hold the same reference
share the operand: changing it changes all of them at once, and no instruction that refers to another
place, even to an equal operand.
-/

set_option autoImplicit false

namespace Codegen86.Target

/-- Place of an operand in a pool. -/
abbrev OperandRef := Nat

structure Pool where
  operands : Array Operand := #[]
  deriving DecidableEq, Repr

namespace Pool

/-- The operand at `ref`; a place outside the pool reads as the immediate zero. -/
def get (p : Pool) (ref : OperandRef) : Operand := p.operands.getD ref (.imm 0)

/-- Change the operand at `ref`. -/
def set (p : Pool) (ref : OperandRef) (operand : Operand) : Pool :=
  { operands := p.operands.setIfInBounds ref operand }

/-- Put an operand at a new place. -/
def add (p : Pool) (operand : Operand) : OperandRef × Pool :=
  (p.operands.size, { operands := p.operands.push operand })

/-- Put several operands at new places. -/
def addAll (p : Pool) : List Operand → List OperandRef × Pool
  | [] => ([], p)
  | operand :: rest =>
    let (ref, p) := p.add operand
    let (refs, p) := p.addAll rest
    (ref :: refs, p)

theorem get_set (p : Pool) {ref : OperandRef} (other : OperandRef) (operand : Operand)
    (h : ref < p.operands.size) :
    (p.set ref operand).get other = if other = ref then operand else p.get other := by
  simp only [get, set, Array.getD_eq_getD_getElem?, Array.getElem?_setIfInBounds]
  by_cases e : other = ref
  · subst e
    rw [if_pos rfl, if_pos rfl, if_pos h]
    rfl
  · rw [if_neg (Ne.symm e), if_neg e]

/-- The new operand is at the new place. -/
theorem get_add_self (p : Pool) (operand : Operand) :
    (p.add operand).2.get (p.add operand).1 = operand := by
  simp [get, add]

/-- Adding an operand changes no place that is in use. -/
theorem get_add_of_lt (p : Pool) {ref : OperandRef} (operand : Operand)
    (h : ref < p.operands.size) : (p.add operand).2.get ref = p.get ref := by
  simp [get, add, Array.getElem?_push, Nat.ne_of_lt h]

end Pool

end Codegen86.Target
