import Codegen86.Proofs.Allocation.Writes
import Codegen86.Proofs.Symbolic.Effect
/-!
# One instruction

`Advances` is what it means that allocation handles one instruction: whatever the original instruction
does, the code given out does too.  The two ways to end an instruction are to give out its counterpart
(`Advances.emit`) and to let a register go by one more name (`advances_alias`).
-/

set_option autoImplicit false

namespace Codegen86.Allocation

open Target Symbolic

/-- An instruction that allocation is meant for. -/
structure Admissible (pool : Pool) (base : Nat) (i : Instruction) : Prop where
  inside : ∀ {x}, x ∈ i.operands → x < pool.operands.size
  allowed : ∀ {x}, x ∈ i.operands → Allowed base (pool.get x)
  keepsBase : ∀ {x}, i.writesTarget = true → i.operands.head? = some x →
    pool.get x ≠ .reg .basePointer
  noPop : ∀ x, i ≠ .pop x
  label : ∀ {x}, i.destination? = some x → ∃ l, pool.get x = .label l

/-- What the tables say of the instruction at `index`, with what is live before and after it. -/
structure Point (E : Setting) (index : Nat) (i : Instruction) (before after : Operand → Prop) :
    Prop where
  reads : ∀ {o}, o ∈ (Effects.of E.pool i).reads → before o
  passes : ∀ {o}, after o → (Effects.of E.pool i).defines ≠ some o → before o
  next : ∀ o, before o → (E.context.liveness.nextRead o index).isSome = true
  lasts : ∀ o, E.context.liveness.isLiveAfter index o = true ↔ after o

theorem Point.of_split {E : Setting} {first rest : List Instruction} {i : Instruction}
    (tables : E.context.liveness = .compute E.pool (first ++ i :: rest)) :
    Point E first.length i (Live E.pool (i :: rest)) (Live E.pool rest) where
  reads read := live_cons.mpr (.inl read)
  passes wanted other := live_cons.mpr (.inr ⟨wanted, other⟩)
  next _ wanted := by
    rw [tables]
    exact Liveness.nextRead_isSome wanted
  lasts _ := by
    rw [tables]
    exact Liveness.isLiveAfter_iff

/-- Executing the code given out between `s` and `s'` ends in a trap. -/
def EmitsTrap (E : Setting) (s s' : State) (t : View) (cause : Trap) : Prop :=
  ∃ code, s'.out.toList = s.out.toList ++ code ∧
    (∀ i ∈ code, i.isPlain = true ∧ ∀ x ∈ i.operands, Settled s' x) ∧
    t.executeAll E.model s'.pool code = .error cause

/-- Allocation handles the instruction `i` between `s` and `s'`. -/
structure Advances (E : Setting) (before after : Operand → Prop) (i : Instruction) (s s' : State) :
    Prop where
  shape : Shape E s'
  evolves : Evolves s s'
  dirty : i.writesTarget = false → ∀ {key}, key ∈ s'.dirty → key ∈ s.dirty
  covers : Covered before s → Covered after s'
  simulates : ∀ {u t u' : View}, E.base + s'.slots.length ≤ E.cap → Room E u.basePointer →
    u.stackPointer.toInt + E.cap ≤ u.basePointer.toInt → Holds E before s u t →
    u.execute E.original E.pool i = .ok u' → ∃ t', Emits E s s' t t' ∧ Holds E after s' u' t'
  overflows : ∀ {u t : View}, E.base + s'.slots.length ≤ E.cap → Room E u.basePointer →
    Holds E before s u t → u.execute E.original E.pool i = .error .stackOverflow →
    EmitsTrap E s s' t .stackOverflow

variable {E : Setting} {before after : Operand → Prop} {i : Instruction} {s s' s'' : State}
  {u t : View} {index : Nat}

/-- What is done to bring operands in comes first. -/
theorem Advances.after_does (first : Does E before s s') (h : Advances E before after i s' s'') :
    Advances E before after i s s'' where
  shape := h.shape
  evolves := first.evolves.trans h.evolves
  dirty keeps _ mem := first.dirty (h.dirty keeps mem)
  covers covered := h.covers (first.covers covered)
  simulates := by
    intro u t u' fits room apart holds step
    have shorter : s'.slots.length ≤ s''.slots.length := h.evolves.slots.length_le
    obtain ⟨t₁, emits, holds⟩ := first.simulates (by omega) room holds
    obtain ⟨t₂, emits', holds⟩ := h.simulates fits room apart holds step
    exact ⟨t₂, emits.trans h.evolves emits', holds⟩
  overflows := by
    intro u t fits room holds step
    have shorter : s'.slots.length ≤ s''.slots.length := h.evolves.slots.length_le
    obtain ⟨t₁, ⟨code, out, clean, run⟩, holds⟩ := first.simulates (by omega) room holds
    obtain ⟨code', out', clean', run'⟩ := h.overflows fits room holds step
    refine ⟨code ++ code', by rw [out', out, List.append_assoc], ?_, ?_⟩
    · intro i mem
      rcases List.mem_append.mp mem with mem | mem
      · exact ⟨(clean i mem).1, fun x use => (h.evolves.settledAt ((clean i mem).2 x use)).1⟩
      · exact clean' i mem
    · have same : t.executeAll E.model s''.pool code = .ok t₁ := by
        rw [← run]
        exact View.executeAll_congr t fun i mem x use =>
          (h.evolves.settledAt ((clean i mem).2 x use)).2
      rw [View.executeAll_append same, run']

section Executing

variable {M : Model} {p : Pool} {v v' : View}

/-- An admissible instruction leaves the base pointer alone. -/
theorem execute_basePointer {base : Nat} {i : Instruction} (ok : Admissible p base i)
    (h : v.execute M p i = .ok v') : v'.basePointer = v.basePointer := by
  have written : ∀ {x w} {v' : View}, i.writesTarget = true → i.operands.head? = some x →
      v.write M (p.get x) w = .ok v' → v'.basePointer = v.basePointer := by
    intro x w v' writes target step
    rcases write_ok step with ⟨k, -, rfl⟩ | ⟨r, -, rfl⟩ | ⟨-, rfl⟩ | ⟨eq, -⟩ | ⟨b, off, a, -, -, -, rfl⟩
    · rfl
    · rfl
    · rfl
    · exact absurd eq (ok.keepsBase writes target)
    · rfl
  cases i with
  | pop x => exact absurd rfl (ok.noPop x)
  | mov x y =>
    obtain ⟨w, -, step⟩ := execute_mov_ok h
    exact written rfl rfl step
  | arith op x y =>
    obtain ⟨source, target, w, -, -, -, step⟩ := execute_arith_ok h
    exact written rfl rfl step
  | cmp x y =>
    obtain ⟨left, right, -, -, rfl⟩ := execute_cmp_ok h
    rfl
  | push x =>
    simp only [View.execute, View.push, bind, Except.bind, pure, Except.pure] at h
    split at h
    · cases h
    · split at h
      · cases h
      · rename_i pushed
        split at pushed
        · cases pushed
          cases h
          rfl
        · cases pushed
  | _ =>
    cases h
    rfl

end Executing

/-! ## Giving out the instruction -/

/-- An instruction ends with its counterpart.  Before that nothing is given out, but the rest of the state may change,
from `s` to `r`. -/
theorem Advances.emit {j : Instruction} {r : State} (out : r.out = s.out) (shape : Shape E r)
    (evolves : Evolves s r) (dirty : i.writesTarget = false → r.dirty = s.dirty)
    (plain : j.isPlain = true) (settled : ∀ x ∈ j.operands, Settled r x) (covers : Covered before s → Covered after r)
    (run : ∀ {u t u' : View}, E.base + r.slots.length ≤ E.cap → Room E u.basePointer →
      u.stackPointer.toInt + E.cap ≤ u.basePointer.toInt → Holds E before s u t →
      u.execute E.original E.pool i = .ok u' →
      ∃ t', t.execute E.model r.pool j = .ok t' ∧ Holds E after r u' t')
    (overflow : ∀ {u t : View}, Room E u.basePointer → Holds E before s u t →
      u.execute E.original E.pool i = .error .stackOverflow →
      t.execute E.model r.pool j = .error .stackOverflow) :
    Advances E before after i s (r.emit j) where
  shape := shape.emit j
  evolves := evolves.trans (evolves_emit settled)
  dirty keeps key mem := by
    rw [← dirty keeps]
    exact mem
  covers covered := Covered.of_eq (s := r) (covers covered) rfl rfl
  simulates := by
    intro u t u' fits room apart holds step
    obtain ⟨t', ran, holds'⟩ := run fits room apart holds step
    refine ⟨t', ⟨[j], by simp [State.emit, out], ?_, ?_⟩, holds'.of_eq rfl rfl rfl⟩
    · intro x mem
      obtain rfl := List.mem_singleton.mp mem
      exact ⟨plain, settled⟩
    · show View.executeAll E.model r.pool t [j] = .ok t'
      simp [View.executeAll, ran, bind, Except.bind]
  overflows := by
    intro u t _ room holds step
    refine ⟨[j], by simp [State.emit, out], ?_, ?_⟩
    · intro x mem
      obtain rfl := List.mem_singleton.mp mem
      exact ⟨plain, settled⟩
    · show View.executeAll E.model r.pool t [j] = .error .stackOverflow
      simp [View.executeAll, overflow room holds step, bind, Except.bind]

end Codegen86.Allocation
