import Codegen86.Target.Pool
/-!
# Growing pools

The stages of the compiler put new operands into the pool and leave those that are there.
-/

set_option autoImplicit false

namespace Codegen86.Target.Pool

/-- Operands are only added. -/
structure Grows (p q : Pool) : Prop where
  size : p.operands.size ≤ q.operands.size
  get : ∀ {x}, x < p.operands.size → q.get x = p.get x

namespace Grows

theorem refl (p : Pool) : Grows p p := ⟨Nat.le_refl _, fun _ => rfl⟩

theorem trans {p q r : Pool} (h : Grows p q) (h' : Grows q r) : Grows p r :=
  ⟨Nat.le_trans h.size h'.size, fun inside =>
    (h'.get (Nat.lt_of_lt_of_le inside h.size)).trans (h.get inside)⟩

theorem add (p : Pool) (o : Operand) : Grows p (p.add o).2 :=
  ⟨by simp [Pool.add], fun inside => get_add_of_lt p o inside⟩

end Grows

@[simp] theorem add_fst (p : Pool) (o : Operand) : (p.add o).1 = p.operands.size := rfl

@[simp] theorem size_add (p : Pool) (o : Operand) :
    (p.add o).2.operands.size = p.operands.size + 1 := by
  simp [add]

theorem get_size_add (p : Pool) (o : Operand) : (p.add o).2.get p.operands.size = o := get_add_self p o

end Codegen86.Target.Pool
