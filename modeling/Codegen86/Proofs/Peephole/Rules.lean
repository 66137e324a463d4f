import Codegen86.Peephole.Rule
import Codegen86.Proofs.Symbolic.Code
import Codegen86.Proofs.Symbolic.Effect
import Codegen86.Proofs.Words
/-!
# What the rules drop

An instruction that a rule drops by itself leaves every state as it is (`Idle`).  Of two moves, a rule
drops the one or the other, and the one that is left does what both did (`deadStore_same`,
`roundTrip_same`); here it matters that memory is accessed relative to the base pointer, for then
different operands are different words.
-/

set_option autoImplicit false

namespace Codegen86.Peephole

open Target Symbolic

variable {M : Model} {v v' v'' : View} {x y o : Operand} {a w : Word}

/-- An operand that is no word of memory, or one at an offset from the base pointer. -/
def FrameOnly (o : Operand) : Prop := ∀ base offset, o = .mem base offset → base = .basePointer

/-- Writing what is there changes nothing. -/
theorem write_read (read : v.read M o = .ok a) (written : v.write M o a = .ok v') : v' = v := by
  rcases write_ok written with ⟨k, rfl, rfl⟩ | ⟨r, rfl, rfl⟩ | ⟨rfl, rfl⟩ | ⟨rfl, rfl⟩ |
    ⟨base, offset, b, rfl, found, valid, rfl⟩
  · simp only [View.read, View.register] at read
    split at read <;> cases read
    rw [put_eq]
  · simp only [View.read, View.register] at read
    split at read <;> cases read
    rw [put_eq]
  · cases read
    rfl
  · cases read
    rfl
  · simp only [View.read, View.address, found, bind, Except.bind, valid, if_true] at read
    cases read
    rw [put_eq]

/-- The second of two writes to the same place counts. -/
theorem write_write (first : v.write M o a = .ok v') (second : v'.write M o w = .ok v'') :
    v.write M o w = .ok v'' := by
  rcases write_ok first with ⟨k, rfl, rfl⟩ | ⟨r, rfl, rfl⟩ | ⟨rfl, rfl⟩ | ⟨rfl, rfl⟩ |
    ⟨base, offset, b, rfl, found, valid, rfl⟩
  · simp only [View.write, View.setRegister] at second ⊢
    split at second <;> cases second
    rename_i known
    rw [if_pos known, put_put]
  · simp only [View.write, View.setRegister] at second ⊢
    split at second <;> cases second
    rename_i known
    rw [if_pos known, put_put]
  · exact second
  · exact second
  · have found' : { v with memory := put v.memory (b + offset) a }.register M base = .ok b := by
      cases base <;> exact found
    simp only [View.write, View.address, found, found', bind, Except.bind, valid, if_true, pure,
      Except.pure] at second ⊢
    cases second
    rw [put_put]

/-- What was written is read. -/
theorem read_written (written : v.write M o a = .ok v') : v'.read M o = .ok a := by
  rcases write_ok written with ⟨k, rfl, rfl⟩ | ⟨r, rfl, rfl⟩ | ⟨rfl, rfl⟩ | ⟨rfl, rfl⟩ |
    ⟨base, offset, b, rfl, found, valid, rfl⟩
  · simp only [View.write, View.setRegister] at written
    split at written <;> cases written
    rename_i known
    simp only [View.read, View.register, if_pos known, put_self]
  · simp only [View.write, View.setRegister] at written
    split at written <;> cases written
    rename_i known
    simp only [View.read, View.register, if_pos known, put_self]
  · rfl
  · rfl
  · have found' : { v with memory := put v.memory (b + offset) a }.register M base = .ok b := by
      cases base <;> exact found
    simp only [View.read, View.address, found', bind, Except.bind, valid, if_true, put_self, pure,
      Except.pure]

/-- A register that is not written keeps its value. -/
theorem register_of_write {r : Register} (written : v.write M x a = .ok v') (ne : x ≠ .reg r) :
    v'.register M r = v.register M r := by
  rcases write_ok written with ⟨k, rfl, rfl⟩ | ⟨n, rfl, rfl⟩ | ⟨rfl, rfl⟩ | ⟨rfl, rfl⟩ |
    ⟨base, offset, b, rfl, found, valid, rfl⟩
  · cases r with
    | abstract j =>
      have : j ≠ k := fun same => ne (by rw [same])
      simp only [View.register, put_of_ne _ _ this]
    | _ => rfl
  · cases r with
    | physical j =>
      have : j ≠ n := fun same => ne (by rw [same])
      simp only [View.register, put_of_ne _ _ this]
    | _ => rfl
  · cases r with
    | stackPointer => exact absurd rfl ne
    | _ => rfl
  · cases r with
    | basePointer => exact absurd rfl ne
    | _ => rfl
  · cases r <;> rfl

/-- A write to a register changes no memory, and one to memory only the word it goes to. -/
theorem memory_of_write (written : v.write M x a = .ok v') (b : Word)
    (apart : ∀ base offset c, x = .mem base offset → v.register M base = .ok c → c + offset ≠ b) :
    v'.memory b = v.memory b := by
  rcases write_ok written with ⟨k, rfl, rfl⟩ | ⟨n, rfl, rfl⟩ | ⟨rfl, rfl⟩ | ⟨rfl, rfl⟩ |
    ⟨base, offset, c, rfl, found, valid, rfl⟩
  · rfl
  · rfl
  · rfl
  · rfl
  · exact put_of_ne _ _ (apart base offset c rfl found).symm

/-- A write changes no operand that does not show what is stored there. -/
theorem read_unaffected (frameX : FrameOnly x) (frameO : FrameOnly o)
    (written : v.write M x a = .ok v') (other : Rule.readsLocation o x = false) :
    v'.read M o = v.read M o := by
  cases o with
  | imm value => rfl
  | label l => rfl
  | reg r =>
    refine register_of_write written ?_
    rintro rfl
    simp [Rule.readsLocation, Operand.mentions] at other
  | mem base offset =>
    obtain rfl := frameO base offset rfl
    have pointer : v'.register M .basePointer = v.register M .basePointer := by
      refine register_of_write written ?_
      rintro rfl
      simp [Rule.readsLocation, Operand.mentions] at other
    have word : ∀ b, v.register M .basePointer = .ok b → v'.memory (b + offset) = v.memory (b + offset) := by
      intro b found
      refine memory_of_write written _ fun base offset' c same found' => ?_
      obtain rfl := frameX base offset' same
      obtain rfl : b = c := by
        rw [found] at found'
        exact Except.ok.inj found'
      subst same
      intro place
      have := Word.add_left_cancel place
      simp [Rule.readsLocation, this] at other
    simp only [View.read, View.address, pointer, bind, Except.bind]
    cases found : v.register M .basePointer with
    | error t => rfl
    | ok b =>
      dsimp only
      by_cases valid : M.valid (b + offset) = true
      · simp only [valid, if_true, word b found]
      · simp only [valid, if_false, Bool.false_eq_true]

/-- A value that is copied stays where it is. -/
theorem read_copied (frameX : FrameOnly x) (frameY : FrameOnly y) (read : v.read M y = .ok a)
    (written : v.write M x a = .ok v') (keeps : Rule.movesAddress x y = false) :
    v'.read M y = .ok a := by
  by_cases same : y = x
  · rw [same]
    exact read_written written
  · rw [read_unaffected frameX frameY written, read]
    cases x with
    | reg r =>
      cases y with
      | reg s =>
        have : s ≠ r := fun e => same (by rw [e])
        simp [Rule.readsLocation, Operand.mentions, this]
      | mem base offset => simpa [Rule.readsLocation, Rule.movesAddress, Operand.isMemory] using keeps
      | imm value => rfl
      | label l => rfl
    | _ => exact beq_false_of_ne same

/-! ## Single instructions -/

variable {pool : Pool}

/-- An instruction that changes nothing, where it is executed at all. -/
structure Idle (pool : Pool) (i : Instruction) : Prop where
  plain : i.isPlain = true
  noPush : ∀ z, i ≠ .push z
  noPop : ∀ z, i ≠ .pop z
  same : ∀ {M : Model} {v v' : View}, v.execute M pool i = .ok v' → v' = v

theorem idle_nop : Idle pool .nop where
  plain := rfl
  noPush := nofun
  noPop := nofun
  same done := by
    cases done
    rfl

theorem idle_selfCopy {z z' : OperandRef} (equal : pool.get z = pool.get z') :
    Idle pool (.mov z z') where
  plain := rfl
  noPush := nofun
  noPop := nofun
  same done := by
    obtain ⟨w, read, written⟩ := execute_mov_ok done
    rw [← equal] at read
    exact write_read read written

theorem idle_zeroArithmetic {op : Arith} {z z' : OperandRef} (zero : pool.get z' = .imm 0)
    (neutral : ∀ w, op.eval w 0 = some w) : Idle pool (.arith op z z') where
  plain := rfl
  noPush := nofun
  noPop := nofun
  same done := by
    obtain ⟨source, target, w, read, old, value, written⟩ := execute_arith_ok done
    rw [zero] at read
    cases read
    rw [neutral target] at value
    cases value
    exact write_read old written

/-! ## Two moves -/

variable {x₁ y₁ x₂ y₂ : OperandRef}

/-- A move whose target is overwritten. -/
theorem deadStore_same (frames : ∀ z ∈ [x₁, y₁, x₂, y₂], FrameOnly (pool.get z))
    (target : pool.get x₁ = pool.get x₂)
    (unread : Rule.readsLocation (pool.get y₂) (pool.get x₁) = false)
    (first : v.execute M pool (.mov x₁ y₁) = .ok v')
    (second : v'.execute M pool (.mov x₂ y₂) = .ok v'') :
    v.execute M pool (.mov x₂ y₂) = .ok v'' := by
  obtain ⟨a, -, written⟩ := execute_mov_ok first
  obtain ⟨w, read, written'⟩ := execute_mov_ok second
  rw [read_unaffected (frames x₁ (by simp)) (frames y₂ (by simp)) written unread] at read
  rw [← target] at written'
  have both := write_write written written'
  rw [target] at both
  simp only [View.execute, read, bind, Except.bind, both]

/-- A move back. -/
theorem roundTrip_same (frames : ∀ z ∈ [x₁, y₁, x₂, y₂], FrameOnly (pool.get z))
    (there : pool.get x₁ = pool.get y₂) (back : pool.get y₁ = pool.get x₂)
    (keeps : Rule.movesAddress (pool.get x₁) (pool.get y₁) = false)
    (first : v.execute M pool (.mov x₁ y₁) = .ok v')
    (second : v'.execute M pool (.mov x₂ y₂) = .ok v'') : v'' = v' := by
  obtain ⟨a, read, written⟩ := execute_mov_ok first
  obtain ⟨w, read', written'⟩ := execute_mov_ok second
  have copied := read_copied (frames x₁ (by simp)) (frames y₁ (by simp)) read written keeps
  rw [← there, read_written written] at read'
  cases read'
  rw [← back] at written'
  exact write_read copied written'

/-! ## What a rule drops -/

/-- What is dropped when a rule applies. -/
inductive Dropped (pool : Pool) (next : Option String) : List Instruction → List Instruction → Prop
  | idle {i : Instruction} {rest : List Instruction} (h : Idle pool i) :
      Dropped pool next (i :: rest) rest
  | first {rest : List Instruction} {x₁ y₁ x₂ y₂ : OperandRef} (target : pool.get x₁ = pool.get x₂)
      (unread : Rule.readsLocation (pool.get y₂) (pool.get x₁) = false) :
      Dropped pool next (.mov x₁ y₁ :: .mov x₂ y₂ :: rest) (.mov x₂ y₂ :: rest)
  | second {rest : List Instruction} {x₁ y₁ x₂ y₂ : OperandRef} (there : pool.get x₁ = pool.get y₂)
      (back : pool.get y₁ = pool.get x₂)
      (keeps : Rule.movesAddress (pool.get x₁) (pool.get y₁) = false) :
      Dropped pool next (.mov x₁ y₁ :: .mov x₂ y₂ :: rest) (.mov x₁ y₁ :: rest)
  | jump {z : OperandRef} {l : Label} (label : pool.get z = .label l) (follows : some l.name = next) :
      Dropped pool next [.jump z] []

theorem dropped_of_shrink? {next : Option String} {rule : Rule} {code rest : List Instruction}
    (h : rule.shrink? pool next code = some rest) : Dropped pool next code rest := by
  unfold Rule.shrink? at h
  split at h
  · split at h
    · rename_i zero
      cases h
      exact .idle (idle_zeroArithmetic zero fun w => by simp [Arith.eval])
    · cases h
  · split at h
    · rename_i zero
      cases h
      exact .idle (idle_zeroArithmetic zero fun w => by simp [Arith.eval])
    · cases h
  · cases h
    exact .idle idle_nop
  · split at h
    · rename_i equal
      cases h
      exact .idle (idle_selfCopy equal)
    · cases h
  · split at h
    · rename_i applies
      cases h
      exact .first applies.1 applies.2
    · cases h
  · split at h
    · rename_i applies
      cases h
      exact .second applies.1 applies.2.1 applies.2.2
    · cases h
  · split at h
    · rename_i l label
      split at h
      · rename_i applies
        cases h
        exact .jump label applies.2
      · cases h
    · cases h
  · cases h

end Codegen86.Peephole
