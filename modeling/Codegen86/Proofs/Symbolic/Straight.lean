import Codegen86.Proofs.Symbolic.Calls
/-!
# Straight code, one instruction after another

`Performs` says what code comes to without saying what follows it: whatever follows runs right if it does from
each of the states that are possible then.  Code after code is two such steps (`Performs.append`), so that a
compiler's output can be followed piece by piece as it was put together.
-/

set_option autoImplicit false

namespace Codegen86.Symbolic

open Target

/-- From `v`, the code comes to a state that `P` allows and goes on there, or to a trap that `T` allows. -/
def Performs (S : Surroundings) (T : Trap → Prop) (code : List Instruction) (v : View) (P : View → Prop) : Prop :=
  ∀ (k : Nat) (rest : List Instruction) (Q : Exit → View → Prop), (∀ t w, T t → Q (.trap t) w) →
    (∀ k w, P w → Runs S k rest w Q) → Runs S k (code ++ rest) v Q

namespace Performs

variable {S : Surroundings} {T : Trap → Prop} {code code' : List Instruction} {v w : View} {P P' : View → Prop}

theorem nil (p : P v) : Performs S T [] v P := fun k _ _ _ goes => goes k v p

theorem append (first : Performs S T code v P) (then_ : ∀ w, P w → Performs S T code' w P') :
    Performs S T (code ++ code') v P' := by
  intro k rest Q traps goes
  rw [List.append_assoc]
  exact first k _ Q traps fun k w p => then_ w p k rest Q traps goes

/-- An instruction, and then code. -/
theorem cons {i : Instruction} (first : Performs S T [i] v P) (then_ : ∀ w, P w → Performs S T code w P') :
    Performs S T (i :: code) v P' := append first then_

theorem mono (h : Performs S T code v P) (wider : ∀ w, P w → P' w) : Performs S T code v P' :=
  fun k rest Q traps goes => h k rest Q traps fun k w p => goes k w (wider w p)

/-- An instruction that transfers no control. -/
theorem plain {i : Instruction} (plain : i.isPlain = true) (inside : S.within v)
    (done : v.execute S.model S.pool i = .ok w) (p : P w) : Performs S T [i] v P :=
  fun k _ _ _ goes => Runs.plain plain inside done (goes k w p)

/-- An instruction that traps. -/
theorem trap {i : Instruction} {t : Trap} (plain : i.isPlain = true) (inside : S.within v)
    (fails : v.execute S.model S.pool i = .error t) (allowed : T t) : Performs S T [i] v P :=
  fun _ _ _ traps _ => Runs.trap plain inside fails (traps t v allowed)

/-- A call that comes to what is known of it. -/
theorem call {x : OperandRef} {l : Label} {post : Except Trap View → Prop} (inside : S.within v)
    (label : S.pool.get x = .label l) (spec : ∀ k, S.calls k l v = some post)
    (returns : ∀ w, post (.ok w) → P w) (traps : ∀ t, post (.error t) → T t) : Performs S T [.call x] v P := by
  intro k rest Q allowed goes
  refine Runs.call_iff.mpr ⟨inside, l, post, label, spec k, fun r possible => ?_⟩
  cases r with
  | ok w => exact goes (k + 1) w (returns w possible)
  | error t => exact allowed t v (traps t possible)

/-- Code and what follows it. -/
theorem runs {rest : List Instruction} {k : Nat} {Q : Exit → View → Prop} (h : Performs S T code v P)
    (traps : ∀ t w, T t → Q (.trap t) w) (goes : ∀ k w, P w → Runs S k rest w Q) :
    Runs S k (code ++ rest) v Q := h k rest Q traps goes

theorem runs_cons {i : Instruction} {rest : List Instruction} {k : Nat} {Q : Exit → View → Prop}
    (h : Performs S T [i] v P) (traps : ∀ t w, T t → Q (.trap t) w) (goes : ∀ k w, P w → Runs S k rest w Q) :
    Runs S k (i :: rest) v Q := h k rest Q traps goes

end Performs

/-! ## Reading and writing -/

section

variable {M : Model} {pool : Pool} {v : View} {x y : OperandRef} {w a b : Word} {k : Nat} {offset : Word}

theorem read_abstract (abstracts : M.abstracts = true) : v.read M (.reg (.abstract k)) = .ok (v.locals k) := by
  simp only [View.read, View.register, abstracts, if_true]

theorem read_result : v.read M (.reg .result) = .ok (v.general 0) := rfl

theorem read_slot (valid : M.valid (v.basePointer + offset) = true) :
    v.read M (.frameSlot offset) = .ok (v.memory (v.basePointer + offset)) := by
  simp only [Operand.frameSlot, View.read, View.address, View.register, valid, bind, Except.bind, if_true, pure,
    Except.pure]

theorem write_abstract (abstracts : M.abstracts = true) :
    v.write M (.reg (.abstract k)) w = .ok { v with locals := put v.locals k w } := by
  simp only [View.write, View.setRegister, abstracts, if_true]

theorem write_result : v.write M (.reg .result) w = .ok { v with general := put v.general 0 w } := rfl

theorem write_slot (valid : M.valid (v.basePointer + offset) = true) :
    v.write M (.frameSlot offset) w = .ok { v with memory := put v.memory (v.basePointer + offset) w } := by
  simp only [Operand.frameSlot, View.write, View.address, View.register, valid, bind, Except.bind, if_true, pure,
    Except.pure]

theorem execute_mov (source : v.read M (pool.get y) = .ok w) :
    v.execute M pool (.mov x y) = v.write M (pool.get x) w := by
  simp only [View.execute, source, bind, Except.bind]

theorem execute_arith {op : Arith} (target : v.read M (pool.get x) = .ok a) (source : v.read M (pool.get y) = .ok b)
    (value : op.eval a b = some w) : v.execute M pool (.arith op x y) = v.write M (pool.get x) w := by
  simp only [View.execute, source, target, bind, Except.bind, value]

theorem execute_arith_error {op : Arith} (target : v.read M (pool.get x) = .ok a)
    (source : v.read M (pool.get y) = .ok b) (value : op.eval a b = none) :
    v.execute M pool (.arith op x y) = .error .divisionByZero := by
  simp only [View.execute, source, target, bind, Except.bind, value]

theorem execute_cmp (left : v.read M (pool.get x) = .ok a) (right : v.read M (pool.get y) = .ok b) :
    v.execute M pool (.cmp x y) = .ok { v with flags := compare a b } := by
  simp only [View.execute, left, right, bind, Except.bind, pure, Except.pure]

theorem execute_push (source : v.read M (pool.get x) = .ok w) {u : View} (pushed : v.push M w = .ok u) :
    v.execute M pool (.push x) = .ok (u.note w) := by
  simp only [View.execute, source, pushed, bind, Except.bind, pure, Except.pure]

theorem execute_push_error (source : v.read M (pool.get x) = .ok w) {t : Trap} (fails : v.push M w = .error t) :
    v.execute M pool (.push x) = .error t := by
  simp only [View.execute, source, fails, bind, Except.bind]

end

end Codegen86.Symbolic
