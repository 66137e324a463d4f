import Codegen86.Proofs.Allocation.Invariant
/-!
# What the allocator's moves do

Before and after an instruction the allocator gives out moves: words are stored back, values go to
slots, come back, or are copied to another register.  `Does` is what each of these operations on the
allocator's state is shown to do: it keeps the shape of the state, and the code it gives out leads from
a state that holds what the original run has to another such state.  Operations follow each other
(`Does.trans`).
-/

set_option autoImplicit false

namespace Codegen86.Allocation

open Target Symbolic

/-- Executing the code given out between `s` and `s'` leads from `t` to `t'`. -/
def Emits (E : Setting) (s s' : State) (t t' : View) : Prop :=
  ∃ code, s'.out.toList = s.out.toList ++ code ∧
    (∀ i ∈ code, i.isPlain = true ∧ ∀ x ∈ i.operands, Settled s' x) ∧
    t.executeAll E.model s'.pool code = .ok t'

namespace Emits

variable {E : Setting} {s s' s'' : State} {t t' t'' : View}

theorem nothing (same : s'.out = s.out) : Emits E s s' t t :=
  ⟨[], by simp [same], by simp, rfl⟩

theorem trans (h : Emits E s s' t t') (later : Evolves s' s'') (h' : Emits E s' s'' t' t'') :
    Emits E s s'' t t'' := by
  obtain ⟨code, out, clean, run⟩ := h
  obtain ⟨code', out', clean', run'⟩ := h'
  refine ⟨code ++ code', by rw [out', out, List.append_assoc], ?_, ?_⟩
  · intro i mem
    rcases List.mem_append.mp mem with mem | mem
    · exact ⟨(clean i mem).1, fun x use => (later.settledAt ((clean i mem).2 x use)).1⟩
    · exact clean' i mem
  · have same : t.executeAll E.model s''.pool code = .ok t' := by
      rw [← run]
      exact View.executeAll_congr t fun i mem x use => (later.settledAt ((clean i mem).2 x use)).2
    rw [View.executeAll_append same, run']

end Emits

/-- An operation of the allocator that takes `s` to `s'`. -/
structure Does (E : Setting) (L : Operand → Prop) (s s' : State) : Prop where
  shape : Shape E s'
  evolves : Evolves s s'
  dirty : ∀ {key}, key ∈ s'.dirty → key ∈ s.dirty
  covers : Covered L s → Covered L s'
  simulates : ∀ {u t : View}, E.base + s'.slots.length ≤ E.cap → Room E u.basePointer →
    Holds E L s u t → ∃ t', Emits E s s' t t' ∧ Holds E L s' u t'

namespace Does

variable {E : Setting} {L : Operand → Prop} {s s' s'' : State}

theorem refl (h : Shape E s) : Does E L s s :=
  ⟨h, .refl s, fun mem => mem, fun covered => covered, fun _ _ holds => ⟨_, .nothing rfl, holds⟩⟩

theorem trans (h : Does E L s s') (h' : Does E L s' s'') : Does E L s s'' where
  shape := h'.shape
  evolves := h.evolves.trans h'.evolves
  dirty mem := h.dirty (h'.dirty mem)
  covers covered := h'.covers (h.covers covered)
  simulates := by
    intro u t fits room holds
    have shorter : s'.slots.length ≤ s''.slots.length := h'.evolves.slots.length_le
    obtain ⟨t₁, emits, holds⟩ := h.simulates (by omega) room holds
    obtain ⟨t₂, emits', holds⟩ := h'.simulates fits room holds
    exact ⟨t₂, emits.trans h'.evolves emits', holds⟩

end Does

/-! ## Operands and instructions -/

section Operands

variable {E : Setting} {s : State}

theorem evolves_addOperand (s : State) (o : Operand) : Evolves s (s.addOperand o).2 where
  size := by simp [State.addOperand, Pool.add]
  keyed := fun found => found
  settled := fun inside _ => Pool.get_add_of_lt _ _ inside
  unkeyed := fun inside absent => .inl ⟨absent, Pool.get_add_of_lt _ _ inside⟩
  slots := List.suffix_refl _
  out := List.prefix_refl _
  given := .inl

theorem Shape.addOperand (h : Shape E s) (o : Operand) : Shape E (s.addOperand o).2 where
  residents := h.residents
  isKey := h.isKey
  dirty := h.dirty
  slots := h.slots
  frame := h.frame
  poolSize := Nat.le_trans h.poolSize (evolves_addOperand s o).size
  keyed found := by
    obtain ⟨abstract, inside, reg, here, bounds⟩ := h.keyed found
    refine ⟨abstract, Nat.lt_of_lt_of_le inside (evolves_addOperand s o).size, reg, ?_, bounds⟩
    rw [← here]
    exact Pool.get_add_of_lt _ _ inside
  unkeyed inside absent := by
    rw [← h.unkeyed inside absent]
    exact Pool.get_add_of_lt _ _ (Nat.lt_of_lt_of_le inside h.poolSize)
  original := h.original
  retarget := h.retarget

theorem settled_addOperand (s : State) {o : Operand} (concrete : o.isAbstract = false) :
    Settled (s.addOperand o).2 (s.addOperand o).1 := by
  refine ⟨by simp [State.addOperand, Pool.add], ?_⟩
  have : (s.addOperand o).2.pool.get (s.addOperand o).1 = o := Pool.get_add_self _ _
  rw [this]
  exact concrete

theorem evolves_emit {i : Instruction} (settled : ∀ x ∈ i.operands, Settled s x) :
    Evolves s (s.emit i) := by
  refine ⟨Nat.le_refl _, fun h => h, fun _ _ => rfl, fun _ h => .inl ⟨h, rfl⟩, List.suffix_refl _,
    by simp [State.emit], fun mem => ?_⟩
  simp only [State.emit, Array.toList_push, List.mem_append, List.mem_singleton] at mem
  rcases mem with mem | rfl
  · exact .inl mem
  · exact .inr settled

theorem Shape.emit (h : Shape E s) (i : Instruction) : Shape E (s.emit i) :=
  ⟨h.residents, h.isKey, h.dirty, h.slots, h.frame, h.poolSize, h.keyed, h.unkeyed, h.original,
    h.retarget⟩

theorem evolves_emitMove (s : State) {target source : Operand}
    (concrete : target.isAbstract = false ∧ source.isAbstract = false) :
    Evolves s (s.emitMove target source) := by
  refine ((evolves_addOperand s target).trans (evolves_addOperand _ source)).trans (evolves_emit ?_)
  intro x use
  simp only [Instruction.operands, List.mem_cons, List.not_mem_nil, or_false] at use
  rcases use with rfl | rfl
  · exact ((evolves_addOperand _ source).settledAt (settled_addOperand s concrete.1)).1
  · exact settled_addOperand _ concrete.2

theorem Shape.emitMove (h : Shape E s) (target source : Operand) :
    Shape E (s.emitMove target source) :=
  ((h.addOperand target).addOperand source).emit _

/-- An emitted move is executed. -/
theorem emits_emitMove (s : State) {o source : Operand} {t t' : View} {w : Word}
    (concrete : o.isAbstract = false ∧ source.isAbstract = false)
    (read : t.read E.model source = .ok w) (write : t.write E.model o w = .ok t') :
    Emits E s (s.emitMove o source) t t' := by
  have first := settled_addOperand s concrete.1
  have second := settled_addOperand (s.addOperand o).2 concrete.2
  have there := (evolves_addOperand (s.addOperand o).2 source).settledAt first
  refine ⟨[.mov (s.addOperand o).1 ((s.addOperand o).2.addOperand source).1], ?_, ?_, ?_⟩
  · simp [State.emitMove, State.emit, State.addOperand]
  · intro i mem
    obtain rfl := List.mem_singleton.mp mem
    refine ⟨rfl, fun x use => ?_⟩
    simp only [Instruction.operands, List.mem_cons, List.not_mem_nil, or_false] at use
    rcases use with rfl | rfl
    · exact there.1
    · exact second
  · have target_eq : (s.emitMove o source).pool.get (s.addOperand o).1 = o :=
      there.2.trans (Pool.get_add_self _ _)
    have source_eq : (s.emitMove o source).pool.get
        ((s.addOperand o).2.addOperand source).1 = source := Pool.get_add_self _ _
    simp only [View.executeAll, View.execute, target_eq, source_eq, read, bind, Except.bind, write]

end Operands

end Codegen86.Allocation
