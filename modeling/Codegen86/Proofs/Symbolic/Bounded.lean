import Codegen86.Proofs.Symbolic.Linked
/-!
# Running out of memory

With less memory a program does what it does with more, until a push or an address does not fit: each instruction
does the same or it traps (`View.execute_curtails`), and so does a whole run (`Linked.run_curtails`).
-/

set_option autoImplicit false

namespace Codegen86.Symbolic

open Target Machine

/-- What goes wrong for want of memory. -/
def Trap.Exhausted : Trap → Prop
  | .stackOverflow | .invalidAddress _ => True
  | _ => False

/-- The same, or a trap for want of memory. -/
def Curtails {α : Type} (x y : Except Trap α) : Prop := y = x ∨ ∃ t, y = .error t ∧ t.Exhausted

/-- With `M` there is less memory than with `M'`. -/
structure Model.Less (M M' : Model) : Prop where
  valid : ∀ a, M.valid a = true → M'.valid a = true
  abstracts : M.abstracts = M'.abstracts

/-- A memory of any size is less than one without bounds. -/
theorem Model.machine_less (words : Nat) (abstracts : Bool) : Less (machine words abstracts) (ideal abstracts) :=
  ⟨fun _ _ => rfl, rfl⟩

namespace Curtails

variable {α β : Type} {x y : Except Trap α} {f g : α → Except Trap β}

theorem refl (x : Except Trap α) : Curtails x x := .inl rfl

theorem of_eq (same : y = x) : Curtails x y := .inl same

theorem bind (h : Curtails x y) (rest : ∀ a, Curtails (f a) (g a)) : Curtails (x >>= f) (y >>= g) := by
  rcases h with rfl | ⟨t, rfl, exhausted⟩
  · cases y with
    | error t => exact .refl _
    | ok a => exact rest a
  · exact .inr ⟨t, rfl, exhausted⟩

/-- What is checked of more memory is checked of less. -/
theorem ite {c c' : Prop} [Decidable c] [Decidable c'] {t : Trap} (less : c → c') (exhausted : t.Exhausted)
    (x : Except Trap α) : Curtails (if c' then x else .error t) (if c then x else .error t) := by
  by_cases h : c
  · rw [if_pos h, if_pos (less h)]
    exact .refl x
  · rw [if_neg h]
    exact .inr ⟨t, rfl, exhausted⟩

end Curtails

/-! ## Instructions -/

namespace View

variable {M M' : Model} (less : M.Less M') (v : View)
include less

theorem register_less (r : Register) : v.register M r = v.register M' r := by
  cases r <;> simp only [register, less.abstracts]

theorem setRegister_less (r : Register) (value : Word) : v.setRegister M r value = v.setRegister M' r value := by
  cases r <;> simp only [setRegister, less.abstracts]

theorem address_curtails (base : Register) (offset : Word) :
    Curtails (v.address M' base offset) (v.address M base offset) := by
  unfold address
  rw [register_less less]
  exact (Curtails.refl _).bind fun b => .ite (t := .invalidAddress _) (less.valid _) trivial _

theorem read_curtails (o : Operand) : Curtails (v.read M' o) (v.read M o) := by
  cases o with
  | reg r => exact .of_eq (register_less less v r)
  | mem base offset => exact (address_curtails less v base offset).bind fun a => .refl _
  | imm value => exact .refl _
  | label l => exact .refl _

theorem write_curtails (o : Operand) (value : Word) : Curtails (v.write M' o value) (v.write M o value) := by
  cases o with
  | reg r => exact .of_eq (setRegister_less less v r value)
  | mem base offset => exact (address_curtails less v base offset).bind fun a => .refl _
  | imm value => exact .refl _
  | label l => exact .refl _

theorem push_curtails (value : Word) : Curtails (v.push M' value) (v.push M value) :=
  .ite (t := .stackOverflow) (And.imp_right (less.valid _)) trivial _

theorem pop_curtails : Curtails (v.pop M') (v.pop M) :=
  .ite (t := .invalidAddress _) (less.valid _) trivial _

theorem execute_curtails (pool : Pool) (i : Instruction) : Curtails (v.execute M' pool i) (v.execute M pool i) := by
  have read := fun x => read_curtails less v (pool.get x)
  cases i with
  | push x => exact (read x).bind fun value => (push_curtails less v value).bind fun w => .refl _
  | pop x => exact (pop_curtails less v).bind fun popped => write_curtails less popped.2 _ popped.1
  | mov x y => exact (read y).bind fun value => write_curtails less v _ value
  | arith op x y =>
    refine (read y).bind fun source => (read x).bind fun target => ?_
    cases op.eval target source with
    | none => exact .refl _
    | some value => exact write_curtails less v _ value
  | cmp x y => exact (read y).bind fun right => (read x).bind fun left => .refl _
  | _ => exact .refl _

end View

/-! ## Runs -/

namespace Linked

/-- The same progress, or a trap for want of memory. -/
def Stops (p p' : Progress) : Prop := p' = p ∨ ∃ t, p' = .failed t ∧ t.Exhausted

variable {M : Model} {P : Linked} (less : M.Less P.model)
include less

theorem step_stops (c : Position) : Stops (P.step c) ({ P with model := M }.step c) := by
  let P' : Linked := { P with model := M }
  show Stops (P.step c) (P'.step c)
  cases here : P.code[c.pc]? with
  | none =>
    refine .inl ?_
    rw [step, step, here]
  | some i =>
    have here' : P'.code[c.pc]? = some i := here
    by_cases plain : i.isPlain = true
    · rw [P.step_plain here plain, P'.step_plain here' plain]
      rcases View.execute_curtails less c.view P.pool i with same | ⟨t, fails, exhausted⟩
      · exact .inl (by simp only [stepPlain, P', same])
      · exact .inr ⟨t, by simp only [stepPlain, P', fails], exhausted⟩
    · cases i with
      | ret =>
        have steps : P.step c = P.stepRet c ∧ P'.step c = P'.stepRet c := by
          rw [step, step, here]
          exact ⟨rfl, rfl⟩
        rw [steps.1, steps.2]
        rcases View.pop_curtails less c.view with same | ⟨t, fails, exhausted⟩
        · exact .inl (by simp only [stepRet, P', same]; rfl)
        · exact .inr ⟨t, by simp only [stepRet, P', fails], exhausted⟩
      | call x =>
        have steps : P.step c = P.stepCall c x ∧ P'.step c = P'.stepCall c x := by
          rw [step, step, here]
          exact ⟨rfl, rfl⟩
        rw [steps.1, steps.2, stepCall, stepCall, show P'.callTarget x = P.callTarget x from rfl]
        cases P.callTarget x with
        | none => exact .inl rfl
        | some target =>
          rcases View.push_curtails less c.view (P.word (c.pc + 1)) with same | ⟨t, fails, exhausted⟩
          · exact .inl (by simp only [P', same])
          · exact .inr ⟨t, by simp only [P', fails], exhausted⟩
      | halt =>
        refine .inl ?_
        rw [step, step, here]
      | jump | jumpIf =>
        refine .inl ?_
        rw [step, step, here]
        rfl
      | _ => exact absurd rfl plain

theorem after_stops (n : Nat) (c : Position) : Stops (P.after n c) ({ P with model := M }.after n c) := by
  induction n generalizing c with
  | zero => exact .inl rfl
  | succ n ih =>
    rw [after, after]
    rcases step_stops less c with same | ⟨t, fails, exhausted⟩
    · rw [same]
      cases P.step c with
      | running next => exact ih next
      | _ => exact .inl rfl
    · rw [fails]
      exact .inr ⟨t, rfl, exhausted⟩

/-- With less memory a run comes to the same, or it stops for want of memory. -/
theorem run_stops (words : Nat) (args : List Word) (entry n : Nat) :
    Stops (P.run words args entry n) ({ P with model := M }.run words args entry n) := by
  have pushes : ∀ (values : List Word) (v : View),
      Curtails (values.foldlM (fun v arg => v.push P.model arg) v) (values.foldlM (fun v arg => v.push M arg) v) := by
    intro values
    induction values with
    | nil => exact fun v => .refl _
    | cons value rest ih =>
      intro v
      rw [List.foldlM_cons, List.foldlM_cons]
      exact (View.push_curtails less v value).bind ih
  have start : Curtails (P.startView words args) ({ P with model := M }.startView words args) :=
    (pushes _ _).bind fun v => View.push_curtails less v sentinel
  unfold run
  rcases start with same | ⟨t, fails, exhausted⟩
  · rw [same]
    cases P.startView words args with
    | error t => exact .inl rfl
    | ok v => exact after_stops less n _
  · rw [fails]
    exact .inr ⟨t, rfl, exhausted⟩

end Linked

end Codegen86.Symbolic
