import Codegen86.Selection.Program
/-!
# Failures of selection

Selection complains about the program it is given: it stops only with errors of its own stage, or because
a name is taken (`select_early`).
-/

set_option autoImplicit false

namespace Codegen86

/-- Errors found while a program is lowered, or put together. -/
def Error.Early (e : Error) : Prop := e.stage = .lowering ∨ e.stage = .construction

/-- A computation that stops with an early error, if it stops. -/
def StopsEarly {α : Type} (m : Except Error α) : Prop := ∀ e, m = .error e → e.Early

variable {α β : Type}

theorem stopsEarly_ok (a : α) : StopsEarly (.ok a : Except Error α) := fun _ failed => by cases failed

theorem stopsEarly_error {e : Error} (early : e.Early) : StopsEarly (.error e : Except Error α) :=
  fun _ failed => by cases failed; exact early

theorem StopsEarly.bind {m : Except Error α} {k : α → Except Error β} (h : StopsEarly m)
    (next : ∀ a, StopsEarly (k a)) : StopsEarly (m >>= k) := by
  intro e failed
  cases done : m with
  | error e' =>
    rw [done] at failed
    cases failed
    exact h e done
  | ok a =>
    rw [done] at failed
    exact next a e failed

theorem StopsEarly.foldlM {step : β → α → Except Error β} (h : ∀ b a, StopsEarly (step b a)) (b : β)
    (items : List α) : StopsEarly (items.foldlM step b) := by
  induction items generalizing b with
  | nil => exact stopsEarly_ok b
  | cons a items ih => exact (h b a).bind ih

end Codegen86

namespace Codegen86.Selection

open Target
open IR (ValueId BlockId)

variable (c : Context) (s : Lowering)

namespace Lowering

theorem labelOf_early (id : BlockId) : StopsEarly (s.labelOf c id) := by
  unfold labelOf
  split
  · exact stopsEarly_ok _
  · split
    · exact stopsEarly_error (.inl rfl)
    · exact stopsEarly_ok _

theorem sourceOf_early (v : ValueId) : StopsEarly (sourceOf c v) := by
  unfold sourceOf
  split
  · exact stopsEarly_ok _
  · exact stopsEarly_error (.inl rfl)
  · split
    · exact stopsEarly_ok _
    · exact stopsEarly_error (.inl rfl)

theorem resolve_early (v : ValueId) : StopsEarly (s.resolve c v) := by
  unfold resolve
  split
  · exact stopsEarly_ok _
  · exact (sourceOf_early c v).bind fun _ => stopsEarly_ok _

theorem resolveAll_early (values : List ValueId) : StopsEarly (s.resolveAll c values) := by
  induction values generalizing s with
  | nil => exact stopsEarly_ok _
  | cons v rest ih =>
    exact (resolve_early c s v).bind fun r => (ih r.2).bind fun _ => stopsEarly_ok _

theorem slotOf_early (addr : ValueId) (mnemonic : String) : StopsEarly (s.slotOf c addr mnemonic) := by
  unfold slotOf
  split
  · exact stopsEarly_ok _
  · exact stopsEarly_error (.inl rfl)

theorem alloca_early (v : ValueId) (bytes : Nat) : StopsEarly (s.alloca c v bytes) := by
  unfold alloca
  split
  · exact stopsEarly_error (.inl rfl)
  · exact stopsEarly_ok _

theorem store_early (addr value : ValueId) : StopsEarly (s.store c addr value) :=
  (slotOf_early c s addr "st").bind fun _ => (resolve_early c s value).bind fun _ => stopsEarly_ok _

theorem arith_early (v : ValueId) (op : Arith) (lhs rhs : ValueId) :
    StopsEarly (s.arith c v op lhs rhs) :=
  (resolve_early c s lhs).bind fun r => (resolve_early c r.2 rhs).bind fun _ => stopsEarly_ok _

theorem compare_early (v : ValueId) (op : Comparison) (lhs rhs : ValueId) :
    StopsEarly (s.compare c v op lhs rhs) := by
  unfold compare
  split
  · exact stopsEarly_error (.inl rfl)
  · exact (resolve_early c s lhs).bind fun r => (resolve_early c r.2 rhs).bind fun _ => stopsEarly_ok _

theorem call_early (v : ValueId) (callee : IR.Callee) (args : List ValueId) :
    StopsEarly (s.call c v callee args) := by
  unfold call
  split
  · exact stopsEarly_error (.inl rfl)
  · split
    · exact stopsEarly_error (.inl rfl)
    · split
      · exact stopsEarly_error (.inl rfl)
      · exact (resolveAll_early c _ args).bind fun _ => stopsEarly_ok _

theorem branchTest_early (cond : ValueId) : StopsEarly (s.branchTest c cond) := by
  unfold branchTest
  split
  · exact (resolve_early c s _).bind fun r => (resolve_early c r.2 _).bind fun _ => stopsEarly_ok _
  · exact (resolve_early c s cond).bind fun _ => stopsEarly_ok _

theorem branch_early (cond : ValueId) (onTrue onFalse : BlockId) :
    StopsEarly (s.branch c cond onTrue onFalse) :=
  (labelOf_early c s onTrue).bind fun r => (labelOf_early c r.2 onFalse).bind fun r' =>
    (branchTest_early c r'.2 cond).bind fun _ => stopsEarly_ok _

theorem operation_early (v : ValueId) : StopsEarly (s.operation c v) := by
  unfold operation
  split
  · exact stopsEarly_error (.inl rfl)
  · rename_i op _
    cases op with
    | arg i | imm w | ret => exact stopsEarly_ok _
    | float w | symbol name => exact stopsEarly_error (.inl rfl)
    | alloca bytes => exact alloca_early c s v bytes
    | load addr => exact (slotOf_early c s addr "ld").bind fun _ => stopsEarly_ok _
    | store addr value => exact store_early c s addr value
    | binary op lhs rhs =>
      cases op with
      | arith op => exact arith_early c s v op lhs rhs
      | compare op =>
        dsimp only
        split
        · exact stopsEarly_ok _
        · exact compare_early c s v op lhs rhs
    | call callee args => exact call_early c s v callee args
    | branch cond onTrue onFalse => exact branch_early c s cond onTrue onFalse
    | jump target => exact (labelOf_early c s target).bind fun _ => stopsEarly_ok _
    | retValue value => exact (resolve_early c s value).bind fun _ => stopsEarly_ok _

theorem operations_early (body : List ValueId) : StopsEarly (s.operations c body) := by
  induction body generalizing s with
  | nil => exact stopsEarly_ok s
  | cons v rest ih => exact (operation_early c s v).bind ih

theorem block_early (id : BlockId) (label : String) : StopsEarly (s.block c id label) :=
  (operations_early c _ _).bind fun _ => stopsEarly_ok _

theorem blocks_early (fuel position : Nat) : StopsEarly (blocks c fuel position s) := by
  induction fuel generalizing position s with
  | zero => exact stopsEarly_ok s
  | succ fuel ih =>
    unfold blocks
    split
    · exact stopsEarly_ok s
    · exact (block_early c s _ _).bind fun s => ih s _

end Lowering

theorem addBlock_early (f : Function) (b : Block) : StopsEarly (f.addBlock b) := by
  unfold Function.addBlock
  split
  · exact stopsEarly_error (.inr rfl)
  · exact stopsEarly_ok _

theorem add_early (p : Program) (f : Function) : StopsEarly (p.add f) := by
  unfold Program.add
  split
  · exact stopsEarly_error (.inr rfl)
  · exact stopsEarly_ok _

theorem lowerBody_early (source : IR.Program) (selector : Selector) (f : IR.Function) :
    StopsEarly (lowerBody source selector f) := by
  unfold lowerBody
  cases planned : Plan.ofFunction f with
  | error defect =>
    intro e failed
    cases failed
    exact .inl rfl
  | ok plan =>
    exact (Lowering.labelOf_early _ _ 0).bind fun r => (Lowering.blocks_early _ _ _ 0).bind fun s =>
      stopsEarly_ok _

theorem lowerFunction_early (source : IR.Program) (selector : Selector) (f : IR.Function) :
    StopsEarly (lowerFunction source selector f) :=
  (lowerBody_early source selector f).bind fun _ =>
    (StopsEarly.foldlM addBlock_early _ _).bind fun _ => stopsEarly_ok _

theorem lowerFound_early (source : IR.Program) (fuel position : Nat) (s : Selector) :
    StopsEarly (lowerFound source fuel position s) := by
  induction fuel generalizing position s with
  | zero => exact stopsEarly_ok s
  | succ fuel ih =>
    unfold lowerFound
    split
    · exact stopsEarly_ok s
    · split
      · exact stopsEarly_error (.inl rfl)
      · exact (lowerFunction_early source s _).bind fun r => (add_early _ _).bind fun _ => ih _ _

/-- Selection stops only with early errors. -/
theorem select_early (source : IR.Program) (entry : String) (journal : Journal) :
    StopsEarly (select source entry journal) := by
  unfold select
  split
  · exact stopsEarly_error (.inl rfl)
  · exact (lowerFound_early source _ 0 _).bind fun _ => stopsEarly_ok _

end Codegen86.Selection
