import Codegen86.Allocation.Program
import Codegen86.Proofs.Pools
/-!
# Code that needs no registers

As long as nothing is in a register (`Idle`), an instruction without abstract registers (`Plain`) is given
out as it is, and nothing comes to be in a register.
-/

set_option autoImplicit false

namespace Codegen86.Allocation

open Target

/-- An instruction without abstract registers, but for a label's place in a jump or a call. -/
def Plain (pool : Pool) (i : Instruction) : Prop :=
  i.destination? = none → ∀ x ∈ i.operands, (pool.get x).isAbstract = false

/-- Nothing is in a register and no operand was changed. -/
structure Idle (s : State) : Prop where
  keys : s.keys = []
  retarget : s.retarget = []
  bindings : s.residents.bindings = []
  dirty : s.dirty = []
  pinned : s.pinned = .empty

namespace Idle

variable {s : State} {c : Context} {index : Nat} {x : OperandRef}

theorem current (h : Idle s) (x : OperandRef) : s.current x = x := by
  simp [State.current, State.follow, h.retarget]

theorem register? (h : Idle s) (key : Operand) : s.register? key = none := by
  simp [State.register?, Residents.register?, h.bindings]

theorem emit (h : Idle s) (i : Instruction) : Idle (s.emit i) :=
  ⟨h.keys, h.retarget, h.bindings, h.dirty, h.pinned⟩

theorem writeBackAll (h : Idle s) : s.writeBackAll = s := by
  have same : { s with dirty := [] } = s := by
    cases s
    cases h.dirty
    rfl
  simp [State.writeBackAll, h.dirty, Residents.sorted, same]

theorem releaseDead (h : Idle s) : s.releaseDead c index = s := by
  simp [State.releaseDead, Residents.all, Residents.sorted, h.bindings]

theorem vacateAll (h : Idle s) : s.vacateAll c index = s := by
  have empty : ∀ r, s.vacate c r index = s := fun r => by
    simp [State.vacate, Residents.of, Residents.sorted, h.bindings]
  unfold State.vacateAll
  induction List.range' 1 c.registers with
  | nil => rfl
  | cons r rest ih =>
    rw [List.foldl_cons]
    split
    · exact ih
    · rw [empty]
      exact ih

theorem invalidate (h : Idle s) (word : Operand) : s.invalidate word = s := by
  have clean : s.markClean word = s := by
    cases s
    cases h.dirty
    rfl
  rw [State.invalidate, clean, State.unbind, Residents.unbind,
    show s.residents.register? word = none from h.register? word]

/-- The role of an operand that is no abstract register. -/
theorem role (h : Idle s) (concrete : (s.pool.get x).isAbstract = false) :
    s.role x = .other ∨ ∃ word, s.role x = .memory word := by
  unfold State.role
  simp only [h.keys, List.lookup_nil, concrete, Bool.false_eq_true, if_false]
  split
  · exact .inr ⟨_, rfl⟩
  · exact .inl rfl

theorem use (h : Idle s) (concrete : (s.pool.get x).isAbstract = false) : s.use c index x = .ok (x, s) := by
  rcases h.role concrete with role | ⟨word, role⟩
  · simp only [State.use, role]
  · simp only [State.use, role, h.register? word]

/-- An instruction that needs no register is given out as it is. -/
theorem instruction (h : Idle s) {i : Instruction} (plain : Plain s.pool i) :
    s.instruction c index i = .ok (s.emit i) := by
  have unpinned : { s with pinned := .empty } = s := by
    cases s
    cases h.pinned
    rfl
  have same : i.mapRefs s.current = i := by
    cases i <;> simp only [Instruction.mapRefs, h.current]
  unfold State.instruction
  simp only [unpinned, same]
  cases i with
  | ret | halt | nop | jump | jumpIf => rfl
  | call x => simp only [h.vacateAll]
  | push x =>
    have concrete := plain rfl x (by simp [Instruction.operands])
    simp only [h.use concrete, bind, Except.bind, pure, Except.pure]
  | pop x =>
    rcases h.role (plain rfl x (by simp [Instruction.operands])) with role | ⟨word, role⟩
    · simp only [State.pop, role]
    · simp only [State.pop, role, h.invalidate]
  | mov x y =>
    have concrete := plain rfl y (by simp [Instruction.operands])
    rcases h.role (plain rfl x (by simp [Instruction.operands])) with role | ⟨word, role⟩
    · simp only [State.move, role, h.use concrete, bind, Except.bind, pure, Except.pure]
    · rcases h.role concrete with role' | ⟨word', role'⟩ <;>
        simp only [State.move, State.moveToMemory, role, role', h.use concrete, h.invalidate, bind, Except.bind,
          pure, Except.pure]
  | arith op x y =>
    have concrete := plain rfl y (by simp [Instruction.operands])
    rcases h.role (plain rfl x (by simp [Instruction.operands])) with role | ⟨word, role⟩
    · simp only [State.arith, role, h.use concrete, bind, Except.bind, pure, Except.pure]
    · simp only [State.arith, role, h.use concrete, h.register? word, bind, Except.bind, pure, Except.pure]
  | cmp x y =>
    have concrete := plain rfl x (by simp [Instruction.operands])
    have concrete' := plain rfl y (by simp [Instruction.operands])
    simp only [h.use concrete, h.use concrete', bind, Except.bind, pure, Except.pure]

/-- Code that needs no registers is given out as it is. -/
theorem instructions (h : Idle s) (closing : Nat) {code : List Instruction}
    (plain : ∀ i ∈ code, Plain s.pool i) (rest : List Instruction) :
    ∃ t, Idle t ∧ t = { s with out := t.out } ∧ t.out.toList = s.out.toList ++ code ∧
      s.instructions c closing index (code ++ rest) =
        t.instructions c closing (index + code.length) rest := by
  induction code generalizing s index with
  | nil => exact ⟨s, h, rfl, by simp, rfl⟩
  | cons i more ih =>
    obtain ⟨t, idle, eq, out, rest_eq⟩ :=
      @ih (s.emit i) (index + 1) (h.emit i) fun j mem => plain j (List.mem_cons_of_mem _ mem)
    refine ⟨t, idle, eq, by rw [out]; simp [State.emit], ?_⟩
    have stores : (if closing = index then s.writeBackAll else s) = s := by
      rw [h.writeBackAll, ite_self]
    rw [List.cons_append, State.instructions]
    simp only [stores, h.instruction (plain i List.mem_cons_self), bind, Except.bind,
      (h.emit i).releaseDead, rest_eq, List.length_cons]
    rw [Nat.add_assoc, Nat.add_comm 1]

end Idle

end Codegen86.Allocation
