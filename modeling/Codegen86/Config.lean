import Codegen86.Error
/-!
# Configuration

The choices of one compilation: how many registers may be allocated, where execution starts, and whether
the peephole optimizer runs.
-/

set_option autoImplicit false

namespace Codegen86

structure Config where
  registers : Nat := 4
  entry : String := "main"
  optimize : Bool := true
  deriving DecidableEq, Repr

namespace Config

/-- A binary instruction needs two registers. -/
def leastRegisters : Nat := 2

/-- The machine has `R1` to `R64` besides the register of returned values. -/
def mostRegisters : Nat := 64

/-- Refuse what the allocator or the machine cannot honour. -/
def validate (c : Config) : Except Error Unit :=
  if c.registers < leastRegisters ∨ mostRegisters < c.registers then
    .error (.invalidConfig (.registerCount c.registers leastRegisters mostRegisters))
  else if c.entry.isEmpty then .error (.invalidConfig .noEntry)
  else .ok ()

theorem validate_eq_ok_iff (c : Config) :
    c.validate = .ok () ↔ 2 ≤ c.registers ∧ c.registers ≤ 64 ∧ c.entry ≠ "" := by
  unfold validate leastRegisters mostRegisters
  split
  · simp only [reduceCtorEq, false_iff]
    omega
  · rename_i inside
    rw [not_or, Nat.not_lt, Nat.not_lt] at inside
    split
    · rename_i empty
      exact iff_of_false nofun fun h => h.2.2 (String.isEmpty_iff.mp empty)
    · rename_i named
      exact iff_of_true rfl ⟨inside.1, inside.2, fun h => named (String.isEmpty_iff.mpr h)⟩

end Config

end Codegen86
