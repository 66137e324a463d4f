import Codegen86.Proofs.Peephole.Deletion
import Codegen86.Proofs.Peephole.Rules
/-!
# What the rules drop is redundant

An instruction that changes nothing is redundant by itself, and so is a jump to the next instruction.  Of
two moves, one is redundant if the other does what both do, and no label leads between them.
-/

set_option autoImplicit false

namespace Codegen86.Peephole

open Target Symbolic

variable {d b : Nat} {P P' : Linked}

/-- A fault of an instruction that does not push is no final end. -/
theorem not_final {M : Model} {pool : Pool} {v : View} {i : Instruction} {t : Trap}
    (noPush : ∀ z, i ≠ .push z) (noPop : ∀ z, i ≠ .pop z) (failed : v.execute M pool i = .error t) :
    ¬ Final (.failed t) := by
  cases t with
  | stackOverflow => exact absurd failed (execute_ne_stackOverflow noPush noPop)
  | _ => exact id

/-- An instruction that changes nothing. -/
theorem redundant_idle (D : Deletes d P P') {i : Instruction} (here : P.code[d]? = some i)
    (idle : Idle P.pool i) : Redundant d d 1 P P' where
  first := Nat.le_refl d
  last := Nat.lt_succ_self d
  jumps _ _ k _ := by omega
  calls _ k _ := by omega
  same := by
    rintro ⟨pc, v, points⟩ at_
    dsimp only at at_
    subst at_
    have step := P.step_plain (c := { pc, view := v, points }) here idle.plain
    rw [Linked.stepPlain] at step
    cases done : v.execute P.model P.pool i with
    | error t =>
      refine .inr ⟨.failed t, ?_, by simp, not_final idle.noPush idle.noPop done⟩
      simp only [Linked.after, step, done]
    | ok w =>
      obtain rfl := idle.same done
      refine .inl ⟨w, ?_, ?_⟩
      · simp only [Linked.after, step, done]
      · simp [Linked.after, shiftPosition, shift]

/-- A jump to the next instruction. -/
theorem redundant_jump (D : Deletes d P P') {z : OperandRef} {l : Label}
    (here : P.code[d]? = some (.jump z)) (label : P.pool.get z = .label l)
    (next : P.jumps d l = some (d + 1)) : Redundant d d 1 P P' where
  first := Nat.le_refl d
  last := Nat.lt_succ_self d
  jumps _ _ k _ := by omega
  calls _ k _ := by omega
  same := by
    rintro ⟨pc, v, points⟩ at_
    dsimp only at at_
    subst at_
    have target : P.jumpTarget pc z = some (pc + 1) := by
      rw [Linked.jumpTarget, label]
      exact Linked.inside_eq_some.mpr ⟨next, D.inside⟩
    refine .inl ⟨v, ?_, ?_⟩
    · simp only [Linked.after, Linked.step, here, Linked.stepJump, target]
    · simp [Linked.after, shiftPosition, shift]

/-- One of two moves, if the other one does what both do. -/
theorem redundant_pair (D : Deletes d P P') (window : d = b ∨ d = b + 1) {x₁ y₁ x₂ y₂ : OperandRef}
    {kept : Instruction} (first : P.code[b]? = some (.mov x₁ y₁))
    (second : P.code[b + 1]? = some (.mov x₂ y₂)) (left : P'.code[b]? = some kept)
    (plain : kept.isPlain = true)
    (same : ∀ {v v' v'' : View}, v.execute P.model P.pool (.mov x₁ y₁) = .ok v' →
      v'.execute P.model P.pool (.mov x₂ y₂) = .ok v'' → v.execute P.model P.pool kept = .ok v'')
    (jumps : ∀ pc l, P.jumps pc l ≠ some (b + 1)) (calls : ∀ l, P.calls l ≠ some (b + 1)) :
    Redundant d b 2 P P' where
  first := by omega
  last := by omega
  jumps pc l k target := by
    have : k ≠ b + 1 := fun e => jumps pc l (e ▸ target)
    omega
  calls l k target := by
    have : k ≠ b + 1 := fun e => calls l (e ▸ target)
    omega
  same := by
    rintro ⟨pc, v, points⟩ at_
    dsimp only at at_
    subst at_
    have step := P.step_plain (c := { pc, view := v, points }) first rfl
    rw [Linked.stepPlain] at step
    dsimp only at step
    cases done : v.execute P.model P.pool (.mov x₁ y₁) with
    | error t =>
      refine .inr ⟨.failed t, ?_, by simp, not_final (i := .mov x₁ y₁) (by simp) (by simp) done⟩
      simp only [Linked.after, step, done]
    | ok v' =>
      have step' := P.step_plain (c := { pc := pc + 1, view := v', points }) second rfl
      rw [Linked.stepPlain] at step'
      cases done' : v'.execute P.model P.pool (.mov x₂ y₂) with
      | error t =>
        refine .inr ⟨.failed t, ?_, by simp, not_final (i := .mov x₂ y₂) (by simp) (by simp) done'⟩
        simp only [Linked.after, step, done, step', done']
      | ok v'' =>
        refine .inl ⟨v'', ?_, ?_⟩
        · simp only [Linked.after, step, done, step', done']
        · -- before and behind the window, addresses are shifted as in the new program
          have at_ : shift d pc = pc ∧ shift d (pc + 2) = pc + 1 := by
            unfold shift
            rcases window with rfl | rfl <;> constructor <;> split <;> omega
          have start : shiftPosition d { pc, view := v, points } =
              { pc, view := v, points := shiftPoints d points } := by
            rw [shiftPosition, at_.1]
          rw [start, show 2 - 1 = 1 from rfl, Linked.after,
            P'.step_plain (c := { pc, view := v, points := shiftPoints d points }) left plain,
            Linked.stepPlain, D.model, D.pool]
          dsimp only
          rw [same done done']
          simp only [Linked.after, shiftPosition, at_.2]

end Codegen86.Peephole
