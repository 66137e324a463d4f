import Codegen86.Target.Operand
import Codegen86.Target.RegisterSet
/-!
# Residents of registers

Which abstract registers and memory words the physical registers `R1` to `Rn` hold at a moment.  A
register may hold several, a resident is in one register.  Beside the bindings stand the number of
residents of each register and the set of free registers; `bind` and `unbind` keep the three in step.

The view of the residents is `register?`, with one equation for each operation (`register?_bind`,
`register?_unbind`).
-/

set_option autoImplicit false

namespace Codegen86.Allocation

open Target

structure Residents where
  bindings : List (Operand × Nat) := []
  occupancy : Array Nat
  free : RegisterSet
  deriving DecidableEq, Repr

namespace Residents

/-- Registers `1` to `registers`, all free. -/
def start (registers : Nat) : Residents :=
  { occupancy := Array.replicate (registers + 1) 0, free := .range 1 registers }

/-- The register that holds a resident. -/
def register? (r : Residents) (key : Operand) : Option Nat := r.bindings.lookup key

/-- Number of residents of a register. -/
def occupants (r : Residents) (register : Nat) : Nat := r.occupancy.getD register 0

/-- Count one more resident, so that the register is not free. -/
def occupy (r : Residents) (register : Nat) : Residents :=
  { r with occupancy := r.occupancy.modify register (· + 1), free := r.free.remove register }

/-- Count one resident less; a register without residents is free. -/
def release (r : Residents) (register : Nat) : Residents :=
  let r := { r with occupancy := r.occupancy.modify register (· - 1) }
  if r.occupants register = 0 then { r with free := r.free.insert register } else r

/-- Forget where a resident is. -/
def erase (r : Residents) (key : Operand) : Residents :=
  { r with bindings := r.bindings.filter fun entry => entry.1 != key }

/-- Let a register hold `key`, which leaves the register that held it before. -/
def bind (r : Residents) (key : Operand) (register : Nat) : Residents :=
  let moved := r.erase key
  let moved := { moved with bindings := (key, register) :: moved.bindings }
  match r.register? key with
  | none => moved.occupy register
  | some old => if old = register then r else (moved.release old).occupy register

/-- Let no register hold `key`. -/
def unbind (r : Residents) (key : Operand) : Residents :=
  match r.register? key with
  | none => r
  | some register => (r.erase key).release register

/-- Operands in their order. -/
def sorted (keys : List Operand) : List Operand := keys.mergeSort fun a b => (compare a b).isLE

/-- All residents, in the order of operands. -/
def all (r : Residents) : List Operand := sorted (r.bindings.map (·.1))

/-- The residents of a register, in the order of operands. -/
def of (r : Residents) (register : Nat) : List Operand :=
  sorted ((r.bindings.filter fun entry => entry.2 == register).map (·.1))

@[simp] theorem register?_occupy (r : Residents) (register : Nat) (key : Operand) :
    (r.occupy register).register? key = r.register? key := rfl

@[simp] theorem register?_release (r : Residents) (register : Nat) (key : Operand) :
    (r.release register).register? key = r.register? key := by
  unfold release
  dsimp only
  split <;> rfl

theorem register?_erase (r : Residents) (key other : Operand) :
    (r.erase key).register? other = if other = key then none else r.register? other := by
  have drop : ∀ entries : List (Operand × Nat),
      (entries.filter fun entry => entry.1 != key).lookup other =
        if other = key then none else entries.lookup other := by
    intro entries
    induction entries with
    | nil => simp
    | cons entry rest ih =>
      obtain ⟨name, register⟩ := entry
      rw [List.filter_cons]
      by_cases same : name = key
      · subst same
        rw [if_neg (by simp), ih]
        by_cases e : other = name
        · rw [if_pos e, if_pos e]
        · rw [if_neg e, if_neg e, List.lookup_cons, beq_false_of_ne e]
      · rw [if_pos (by simp [same]), List.lookup_cons, List.lookup_cons, ih]
        by_cases e : other = key
        · subst e
          rw [beq_false_of_ne (Ne.symm same), if_pos rfl]
        · rw [if_neg e, if_neg e]
  exact drop r.bindings

/-- A resident is in the register it was last bound to. -/
theorem register?_bind (r : Residents) (key other : Operand) (register : Nat) :
    (r.bind key register).register? other =
      if other = key then some register else r.register? other := by
  have moved : ({ r.erase key with bindings := (key, register) :: (r.erase key).bindings } :
      Residents).register? other = if other = key then some register else r.register? other := by
    by_cases e : other = key
    · subst e
      simp [register?]
    · have := register?_erase r key other
      rw [if_neg e] at this ⊢
      rw [← this, register?, List.lookup_cons, beq_false_of_ne e]
      rfl
  unfold bind
  dsimp only
  split
  · exact moved
  · rename_i old held
    split
    · rename_i same
      subst same
      by_cases e : other = key
      · rw [if_pos e, e, held]
      · rw [if_neg e]
    · rw [register?_occupy, register?_release]
      exact moved

theorem register?_unbind (r : Residents) (key other : Operand) :
    (r.unbind key).register? other = if other = key then none else r.register? other := by
  unfold unbind
  split
  · rename_i absent
    by_cases e : other = key
    · rw [if_pos e, e, absent]
    · rw [if_neg e]
  · rw [register?_release, register?_erase]

theorem mem_of {r : Residents} {register : Nat} {key : Operand} :
    key ∈ r.of register ↔ (key, register) ∈ r.bindings := by
  simp [of, sorted, List.mem_mergeSort]

end Residents

end Codegen86.Allocation
