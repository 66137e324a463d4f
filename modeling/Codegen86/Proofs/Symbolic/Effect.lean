import Codegen86.Proofs.Symbolic.View
/-!
# What an instruction comes to

What is known of an instruction that was executed, and that only a push overflows the stack.
-/

set_option autoImplicit false

namespace Codegen86.Symbolic

open Target

variable {M : Model} {p : Pool} {v v' : View}

theorem execute_mov_ok {x y : OperandRef} (h : v.execute M p (.mov x y) = .ok v') :
    ∃ w, v.read M (p.get y) = .ok w ∧ v.write M (p.get x) w = .ok v' := by
  simp only [View.execute, bind, Except.bind] at h
  split at h
  · cases h
  · rename_i w read
    exact ⟨w, read, h⟩

theorem execute_arith_ok {op : Arith} {x y : OperandRef}
    (h : v.execute M p (.arith op x y) = .ok v') :
    ∃ source target w, v.read M (p.get y) = .ok source ∧ v.read M (p.get x) = .ok target ∧
      op.eval target source = some w ∧ v.write M (p.get x) w = .ok v' := by
  simp only [View.execute, bind, Except.bind] at h
  split at h
  · cases h
  · rename_i source readSource
    split at h
    · cases h
    · rename_i target readTarget
      split at h
      · rename_i w eval
        exact ⟨source, target, w, readSource, readTarget, eval, h⟩
      · cases h

theorem execute_cmp_ok {x y : OperandRef} (h : v.execute M p (.cmp x y) = .ok v') :
    ∃ left right, v.read M (p.get y) = .ok right ∧ v.read M (p.get x) = .ok left ∧
      v' = { v with flags := compare left right } := by
  simp only [View.execute, bind, Except.bind, pure, Except.pure] at h
  split at h
  · cases h
  · rename_i right readRight
    split at h
    · cases h
    · rename_i left readLeft
      cases h
      exact ⟨left, right, readRight, readLeft, rfl⟩

/-- What a write comes to. -/
theorem write_ok {o : Operand} {w : Word} (h : v.write M o w = .ok v') :
    (∃ k, o = .reg (.abstract k) ∧ v' = { v with locals := put v.locals k w }) ∨
    (∃ r, o = .reg (.physical r) ∧ v' = { v with general := put v.general r w }) ∨
    (o = .reg .stackPointer ∧ v' = { v with stackPointer := w }) ∨
    (o = .reg .basePointer ∧ v' = { v with basePointer := w }) ∨
    (∃ b off a, o = .mem b off ∧ v.register M b = .ok a ∧ M.valid (a + off) = true ∧
      v' = { v with memory := put v.memory (a + off) w }) := by
  match o with
  | .reg (.abstract k) =>
    simp only [View.write, View.setRegister] at h
    split at h
    · cases h
      exact .inl ⟨k, rfl, rfl⟩
    · cases h
  | .reg (.physical r) =>
    simp only [View.write, View.setRegister] at h
    split at h
    · cases h
      exact .inr (.inl ⟨r, rfl, rfl⟩)
    · cases h
  | .reg .stackPointer =>
    cases h
    exact .inr (.inr (.inl ⟨rfl, rfl⟩))
  | .reg .basePointer =>
    cases h
    exact .inr (.inr (.inr (.inl ⟨rfl, rfl⟩)))
  | .mem b off =>
    simp only [View.write, View.address, bind, Except.bind, pure, Except.pure] at h
    split at h
    · cases h
    · rename_i place found
      split at found
      · cases found
      · rename_i a base
        split at found
        · rename_i valid
          cases found
          cases h
          exact .inr (.inr (.inr (.inr ⟨b, off, a, rfl, base, valid, rfl⟩)))
        · cases found
  | .imm _ => cases h
  | .label _ => cases h

/-- A write to a word of the frame. -/
theorem write_frame_ok {off w : Word} (h : v.write M (.mem .basePointer off) w = .ok v') :
    M.valid (v.basePointer + off) = true ∧
      v' = { v with memory := put v.memory (v.basePointer + off) w } := by
  rcases write_ok h with ⟨k, eq, -⟩ | ⟨r, eq, -⟩ | ⟨eq, -⟩ | ⟨eq, -⟩ | ⟨b, off', a, eq, base, valid, rfl⟩
  all_goals cases eq
  cases base
  exact ⟨valid, rfl⟩

/-- Reads and writes do not overflow the stack. -/
theorem register_ne_stackOverflow (r : Register) : v.register M r ≠ .error .stackOverflow := by
  intro h
  cases r <;> simp only [View.register] at h <;> first | cases h | (split at h <;> cases h)

theorem address_ne_stackOverflow (b : Register) (off : Word) :
    v.address M b off ≠ .error .stackOverflow := by
  intro h
  simp only [View.address, bind, Except.bind] at h
  split at h
  · rename_i failed
    cases h
    exact register_ne_stackOverflow b failed
  · split at h <;> cases h

theorem read_ne_stackOverflow (o : Operand) : v.read M o ≠ .error .stackOverflow := by
  intro h
  cases o with
  | reg r => exact register_ne_stackOverflow r h
  | mem b off =>
    simp only [View.read, bind, Except.bind] at h
    split at h
    · rename_i failed
      cases h
      exact address_ne_stackOverflow b off failed
    · cases h
  | imm _ => cases h
  | label l =>
    simp only [View.read] at h
    split at h <;> cases h

theorem write_ne_stackOverflow (o : Operand) (w : Word) : v.write M o w ≠ .error .stackOverflow := by
  intro h
  cases o with
  | reg r =>
    cases r <;> simp only [View.write, View.setRegister] at h <;> first | cases h | (split at h <;> cases h)
  | mem b off =>
    simp only [View.write, bind, Except.bind] at h
    split at h
    · rename_i failed
      cases h
      exact address_ne_stackOverflow b off failed
    · cases h
  | imm _ => cases h
  | label _ => cases h

/-- Only a push overflows the stack. -/
theorem execute_ne_stackOverflow {i : Instruction} (notPush : ∀ x, i ≠ .push x)
    (notPop : ∀ x, i ≠ .pop x) : v.execute M p i ≠ .error .stackOverflow := by
  intro h
  cases i with
  | push x => exact notPush x rfl
  | pop x => exact notPop x rfl
  | mov x y =>
    simp only [View.execute, bind, Except.bind] at h
    split at h
    · rename_i failed
      cases h
      exact read_ne_stackOverflow _ failed
    · exact write_ne_stackOverflow _ _ h
  | arith op x y =>
    simp only [View.execute, bind, Except.bind] at h
    split at h
    · rename_i failed
      cases h
      exact read_ne_stackOverflow _ failed
    · split at h
      · rename_i failed
        cases h
        exact read_ne_stackOverflow _ failed
      · split at h
        · exact write_ne_stackOverflow _ _ h
        · cases h
  | cmp x y =>
    simp only [View.execute, bind, Except.bind] at h
    split at h
    · rename_i failed
      cases h
      exact read_ne_stackOverflow _ failed
    · split at h
      · rename_i failed
        cases h
        exact read_ne_stackOverflow _ failed
      · cases h
  | _ => cases h

end Codegen86.Symbolic
