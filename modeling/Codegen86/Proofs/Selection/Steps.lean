import Codegen86.Proofs.Selection.Operations
/-!
# Lowering step by step

Most of what lowering does is to add code, operands and labels (`Adds`).  What counts for more are the events among
it: a value is read or defined, a block or a function is referred to, a local variable takes a slot, a block begins
(`Event`, `Step`).  Which events an operation has, and in which order, can be told from the operation alone
(`eventsOf`, `operation_steps`).  What every step keeps, every operation keeps.
-/

set_option autoImplicit false

namespace Codegen86

open IR (ValueId BlockId Op)

/-- The function that an operation calls by its name. -/
def IR.Op.callees : Op → List String
  | .call (.direct name) _ => [name]
  | _ => []

namespace Selection

open Target

/-- Code, operands or labels are added. -/
inductive Adds (s : Lowering) : Lowering → Prop
  | operands {pool : Pool} {registers : Nat} (grows : s.program.pool.Grows pool) :
      Adds s { s with program := { s.program with pool }, registers }
  | label (base : String) : Adds s (s.freshLabel base).2
  | emit (i : Instruction) : Adds s (s.emit i)

/-- What lowering does besides. -/
inductive Event
  | reads (v : ValueId)
  | addresses (v : ValueId)
  | defines (v : ValueId)
  | reserves (v : ValueId)
  | leads (id : BlockId)
  | calls (name : String)
  | begins
  deriving DecidableEq

/-- One event.  A value is read from a register that holds it, or a register is loaded from where it is found. -/
inductive Step (c : Context) (s : Lowering) : Event → Lowering → Prop
  | held {v : ValueId} {x : OperandRef} (found : s.held.lookup v = some x) : Step c s (.reads v) s
  | loaded {v : ValueId} {x : OperandRef} {o : Operand} (source : Lowering.sourceOf c v = .ok o) :
      Step c s (.reads v) { s with held := (v, x) :: s.held }
  | slot {v : ValueId} {offset : Word} (found : s.slots.lookup v = some offset) : Step c s (.addresses v) s
  | define {v : ValueId} {x : OperandRef} : Step c s (.defines v) { s with held := (v, x) :: s.held }
  | reserve {v : ValueId} {bytes : Nat} {offset : Word} {frame : Frame}
      (found : c.function.op? v = some (.alloca bytes))
      (reserved : s.frame.reserveBytes? bytes = some (offset, frame)) :
      Step c s (.reserves v) { s with frame, slots := (v, offset) :: s.slots }
  | lead {id : BlockId} {label : String} {t : Lowering} (labels : Labels c s id label t) : Step c s (.leads id) t
  | call {name : String} (there : (c.source.function? name).isSome = true) :
      Step c s (.calls name) { s with toSelector := s.toSelector.find name }
  | next (name : String) : Step c s .begins (s.endBlock.beginBlock name)

/-- A row of steps, with the events in it. -/
inductive Steps (c : Context) : Lowering → List Event → Lowering → Prop
  | refl {s : Lowering} : Steps c s [] s
  | adds {s t s' : Lowering} {events : List Event} (first : Adds s t) (rest : Steps c t events s') :
      Steps c s events s'
  | event {s t s' : Lowering} {e : Event} {events : List Event} (first : Step c s e t)
      (rest : Steps c t events s') : Steps c s (e :: events) s'

namespace Event

/-- What is read, or whose address is used. -/
def seen : Event → List ValueId
  | .reads v | .addresses v => [v]
  | _ => []

/-- What is in a register or has a slot from then on. -/
def made : Event → List ValueId
  | .defines v | .reserves v => [v]
  | _ => []

/-- The block that is referred to. -/
def blocks : Event → List BlockId
  | .leads id => [id]
  | _ => []

/-- The function that is referred to. -/
def functions : Event → List String
  | .calls name => [name]
  | _ => []

end Event

/-! ## The events of an operation -/

/-- What the test in front of a branch reads. -/
def testReads (c : Context) (cond : ValueId) : List ValueId :=
  match c.function.op? cond, c.plan.fused.contains cond with
  | some (.binary (.compare _) l r), true => [l, r]
  | _, _ => [cond]

/-- What happens where the operation of the value `v` is lowered. -/
def eventsOf (c : Context) (v : ValueId) : Op → List Event
  | .arg _ | .float _ | .symbol _ | .ret => []
  | .imm _ => [.defines v]
  | .alloca _ => [.reserves v]
  | .load addr => [.addresses addr, .defines v]
  | .store addr value => [.addresses addr, .reads value]
  | .binary (.arith _) l r => [.reads l, .reads r, .defines v]
  | .binary (.compare _) l r => if c.plan.fused.contains v then [] else [.reads l, .reads r, .begins, .begins]
  | .call callee args =>
    (Op.call callee args).callees.map .calls ++ (Op.call callee args).operands.map .reads ++
      if (uses c.function).contains v then [.defines v] else []
  | .branch cond onTrue onFalse => [.leads onTrue, .leads onFalse] ++ (testReads c cond).map .reads
  | .jump target => [.leads target]
  | .retValue value => [.reads value]

/-- What happens where the value `v` is lowered. -/
def eventsAt (c : Context) (v : ValueId) : List Event := ((c.function.op? v).map (eventsOf c v)).getD []

variable {c : Context} {s s' s'' : Lowering} {v : ValueId} {x : OperandRef} {events events' : List Event}

theorem flatMap_reads {α : Type} {f : Event → List α} (none : ∀ v, f (.reads v) = []) (values : List ValueId) :
    (values.map Event.reads).flatMap f = [] :=
  List.flatMap_eq_nil_iff.mpr (List.forall_mem_map.mpr fun v _ => none v)

/-- An operation makes nothing but its own value. -/
theorem made_eventsAt (c : Context) (v : ValueId) : ((eventsAt c v).flatMap Event.made).Sublist [v] := by
  have reads := flatMap_reads (f := Event.made) fun _ => rfl
  unfold eventsAt
  cases c.function.op? v with
  | none => exact List.nil_sublist _
  | some op =>
    show ((eventsOf c v op).flatMap Event.made).Sublist [v]
    match op with
    | .imm _ | .alloca _ | .load _ | .binary (.arith _) _ _ => exact .refl _
    | .binary (.compare _) _ _ =>
      simp only [eventsOf]
      split <;> exact List.nil_sublist _
    | .call (.direct _) _ | .call (.indirect _) _ =>
      simp only [eventsOf, List.flatMap_append, reads]
      split
      · exact .refl _
      · exact List.nil_sublist _
    | .branch cond _ _ =>
      simp only [eventsOf, List.flatMap_append, reads, List.append_nil]
      exact List.nil_sublist _
    | .arg _ | .float _ | .store _ _ | .symbol _ | .jump _ | .ret | .retValue _ => exact List.nil_sublist _

/-- The values listed in a block are lowered in their order. -/
theorem made_eventsAll (c : Context) (body : List ValueId) :
    ((body.flatMap (eventsAt c)).flatMap Event.made).Sublist body := by
  induction body with
  | nil => exact .refl _
  | cons v rest ih =>
    rw [List.flatMap_cons, List.flatMap_append]
    exact (made_eventsAt c v).append ih

/-! ## Rows of steps -/

namespace Steps

theorem trans (h : Steps c s events s') (h' : Steps c s' events' s'') : Steps c s (events ++ events') s'' := by
  induction h with
  | refl => exact h'
  | adds first _ ih => exact .adds first (ih h')
  | event first _ ih => exact .event first (ih h')

theorem single {e : Event} (h : Step c s e s') : Steps c s [e] s' := .event h .refl

/-- Code, operands or labels are added behind the last event. -/
theorem more (h : Steps c s events s') (adds : Adds s' s'') : Steps c s events s'' := by
  have all := h.trans (.adds adds .refl)
  rwa [List.append_nil] at all

theorem operand (h : Steps c s events s') (o : Operand) : Steps c s events (s'.addOperand o).2 :=
  h.more (.operands (.add _ _))

theorem register (h : Steps c s events s') : Steps c s events s'.freshRegister.2 := h.more (.operands (.add _ _))

theorem label (h : Steps c s events s') (base : String) : Steps c s events (s'.freshLabel base).2 :=
  h.more (.label base)

theorem emit (h : Steps c s events s') (i : Instruction) : Steps c s events (s'.emit i) := h.more (.emit i)

theorem emitStore (h : Steps c s events s') (offset : Word) (o : Operand) :
    Steps c s events (s'.emitStore offset o) :=
  ((h.operand _).operand o).emit _

theorem emitJump (h : Steps c s events s') (label : String) : Steps c s events (s'.emitJump label) :=
  (h.operand _).emit _

theorem emitJumpIf (h : Steps c s events s') (condition : Condition) (label : String) :
    Steps c s events (s'.emitJumpIf condition label) :=
  (h.operand _).emit _

theorem emitAll (h : Steps c s events s') (code : List Instruction) : Steps c s events (s'.emitAll code) := by
  induction code generalizing s' with
  | nil => exact h
  | cons i rest ih => exact ih (h.emit i)

theorem emitSequence (h : Steps c s events s') (sequence : Pool → List Instruction × Pool)
    (grows : s'.program.pool.Grows (sequence s'.program.pool).2) : Steps c s events (s'.emitSequence sequence) :=
  (h.more (.operands grows)).emitAll _

end Steps

/-! ## Values -/

theorem resolve_steps (ok : s.resolve c v = .ok (x, s')) : Steps c s [.reads v] s' := by
  unfold Lowering.resolve at ok
  split at ok
  · rename_i ref found
    cases ok
    exact .single (.held found)
  · obtain ⟨o, source, ok⟩ := bind_ok.mp ok
    cases ok
    have loads : Steps c s [] (s.load o).2 := (Steps.refl.register.operand o).emit _
    exact loads.trans (.single (.loaded source))

theorem resolveAll_steps {values : List ValueId} {refs : List OperandRef}
    (ok : s.resolveAll c values = .ok (refs, s')) : Steps c s (values.map .reads) s' := by
  induction values generalizing s refs with
  | nil =>
    cases ok
    exact .refl
  | cons v rest ih =>
    obtain ⟨⟨x, t⟩, first, ok⟩ := bind_ok.mp ok
    obtain ⟨⟨refs', t'⟩, others, ok⟩ := bind_ok.mp ok
    cases ok
    exact (resolve_steps first).trans (ih others)

theorem define_steps (c : Context) (s : Lowering) (v : ValueId) (x : OperandRef) :
    Steps c s [.defines v] (s.define c v x) := by
  have holds : Steps c s [.defines v] { s with held := (v, x) :: s.held } := .single .define
  unfold Lowering.define
  dsimp only
  split
  · exact holds
  · exact (holds.operand _).emit _

theorem defineByMove_steps (c : Context) (s : Lowering) (v : ValueId) (o : Operand) :
    Steps c s [.defines v] (s.defineByMove c v o) := by
  have loads : Steps c s [] (s.load o).2 := (Steps.refl.register.operand o).emit _
  exact loads.trans (define_steps c _ v _)

theorem slotOf_step {addr : ValueId} {mnemonic : String} {offset : Word}
    (ok : s.slotOf c addr mnemonic = .ok offset) : Step c s (.addresses addr) s := by
  unfold Lowering.slotOf at ok
  split at ok
  · rename_i found
    exact .slot found
  · cases ok

/-! ## Operations -/

theorem alloca_steps {bytes : Nat} (found : c.function.op? v = some (.alloca bytes))
    (ok : s.alloca c v bytes = .ok s') : Steps c s [.reserves v] s' := by
  unfold Lowering.alloca at ok
  split at ok
  · cases ok
  · rename_i offset frame reserved
    cases ok
    exact (Steps.single (.reserve found reserved)).emitStore _ _

theorem store_steps {addr value : ValueId} (ok : s.store c addr value = .ok s') :
    Steps c s [.addresses addr, .reads value] s' := by
  obtain ⟨offset, slot, ok⟩ := bind_ok.mp ok
  obtain ⟨⟨source, t⟩, resolved, ok⟩ := bind_ok.mp ok
  cases ok
  exact .event (slotOf_step slot) (((resolve_steps resolved).operand _).emit _)

theorem arith_steps {op : Arith} {l r : ValueId} (ok : s.arith c v op l r = .ok s') :
    Steps c s [.reads l, .reads r, .defines v] s' := by
  obtain ⟨⟨left, t⟩, first, ok⟩ := bind_ok.mp ok
  obtain ⟨⟨right, u⟩, second, ok⟩ := bind_ok.mp ok
  cases ok
  have resolved := (resolve_steps first).trans (resolve_steps second)
  exact ((resolved.register.emit _).emit _).trans (define_steps c _ v _)

theorem split_steps (c : Context) (s : Lowering) (x y : OperandRef) (condition : Condition) (offset : Word)
    (otherwise join : String) : Steps c s [.begins, .begins] (s.split x y condition offset otherwise join) := by
  let t := ((s.emit (.cmp x y)).emitJumpIf condition join).emitJump otherwise
  have tests : Steps c s [] t := ((Steps.refl.emit _).emitJumpIf condition join).emitJump otherwise
  have begun := tests.trans (.single (.next otherwise))
  exact ((begun.emitStore offset (.imm 0)).emitJump join).trans (.single (.next join))

theorem compare_steps {op : Comparison} {l r : ValueId} (ok : s.compare c v op l r = .ok s') :
    Steps c s [.reads l, .reads r, .begins, .begins] s' := by
  unfold Lowering.compare at ok
  split at ok
  · cases ok
  · rename_i offset home
    obtain ⟨⟨x, t⟩, first, ok⟩ := bind_ok.mp ok
    obtain ⟨⟨y, u⟩, second, ok⟩ := bind_ok.mp ok
    cases ok
    have resolved := (resolve_steps first).trans (resolve_steps second)
    have labelled := (resolved.label (labelBase c.function.name "cmp_false")).label
      (labelBase c.function.name "cmp_join")
    exact (labelled.emitStore offset (.imm 1)).trans (split_steps c _ x y (.ofComparison op) offset _ _)

theorem callSequence_grows (p : Pool) (name : String) (args : List OperandRef) :
    p.Grows (Calling.callSequence p name args).2 := by
  unfold Calling.callSequence
  dsimp only
  split
  · exact .add _ _
  · exact (Pool.Grows.add p _).trans ((Pool.Grows.add _ _).trans (.add _ _))

theorem call_steps {callee : IR.Callee} {args : List ValueId} (ok : s.call c v callee args = .ok s') :
    Steps c s (eventsOf c v (.call callee args)) s' := by
  unfold Lowering.call at ok
  split at ok
  · cases ok
  · rename_i name
    split at ok
    · cases ok
    · rename_i target found
      split at ok
      · cases ok
      · obtain ⟨⟨refs, t⟩, all, ok⟩ := bind_ok.mp ok
        have there : (c.source.function? name).isSome = true := by
          rw [found]
          rfl
        have resolved := (Steps.single (.call there)).trans (resolveAll_steps all)
        have calls := resolved.emitSequence (fun pool => Calling.callSequence pool name refs)
          (callSequence_grows _ name refs)
        dsimp only at ok
        simp only [eventsOf]
        split at ok
        · rename_i used
          cases ok
          rw [if_pos used]
          exact calls.trans (defineByMove_steps c _ v _)
        · rename_i unused
          cases ok
          rw [if_neg unused, List.append_nil]
          exact calls

theorem labelOf_steps {id : BlockId} {label : String} (ok : s.labelOf c id = .ok (label, s')) :
    Steps c s [.leads id] s' :=
  .single (.lead (labelOf_cases ok))

theorem branchTest_steps {cond : ValueId} {condition : Condition} (ok : s.branchTest c cond = .ok (condition, s')) :
    Steps c s ((testReads c cond).map .reads) s' := by
  obtain ⟨x, y, t, tests, rfl⟩ := branchTest_cases ok
  refine Steps.emit ?_ _
  cases tests with
  | fused found fused left right _ =>
    simp only [testReads, found, List.contains_iff_mem.mpr fused]
    exact (resolve_steps left).trans (resolve_steps right)
  | value other read _ same _ =>
    have whole : testReads c cond = [cond] := by
      unfold testReads
      split
      · rename_i found fused
        exact absurd (List.contains_iff_mem.mp fused) (other _ _ _ found)
      · rfl
    rw [whole, same]
    exact (resolve_steps read).operand _

theorem branch_steps {cond : ValueId} {onTrue onFalse : BlockId} (ok : s.branch c cond onTrue onFalse = .ok s') :
    Steps c s ([.leads onTrue, .leads onFalse] ++ (testReads c cond).map .reads) s' := by
  obtain ⟨⟨label, t⟩, first, ok⟩ := bind_ok.mp ok
  obtain ⟨⟨label', u⟩, second, ok⟩ := bind_ok.mp ok
  obtain ⟨⟨condition, w⟩, tested, ok⟩ := bind_ok.mp ok
  cases ok
  have found := (labelOf_steps first).trans (labelOf_steps second)
  exact ((found.trans (branchTest_steps tested)).emitJumpIf condition label').emitJump label

/-- What happens where an operation is lowered. -/
theorem operation_steps (ok : s.operation c v = .ok s') :
    ∃ op, c.function.op? v = some op ∧ Steps c s (eventsOf c v op) s' := by
  unfold Lowering.operation at ok
  split at ok
  · cases ok
  · rename_i op found
    refine ⟨op, found, ?_⟩
    match op with
    | .arg index =>
      cases ok
      exact .refl
    | .imm value =>
      cases ok
      exact defineByMove_steps c s v _
    | .float _ | .symbol _ => cases ok
    | .alloca bytes => exact alloca_steps found ok
    | .load addr =>
      obtain ⟨offset, slot, ok⟩ := bind_ok.mp ok
      cases ok
      exact .event (slotOf_step slot) (defineByMove_steps c s v _)
    | .store addr value => exact store_steps ok
    | .binary (.arith op) l r => exact arith_steps ok
    | .binary (.compare op) l r =>
      dsimp only at ok
      simp only [eventsOf]
      split at ok
      · rename_i fused
        cases ok
        rw [if_pos fused]
        exact .refl
      · rename_i kept
        rw [if_neg kept]
        exact compare_steps ok
    | .call callee args => exact call_steps ok
    | .branch cond onTrue onFalse => exact branch_steps ok
    | .jump target =>
      obtain ⟨⟨label, t⟩, labelled, ok⟩ := bind_ok.mp ok
      cases ok
      exact (labelOf_steps labelled).emitJump label
    | .ret =>
      cases ok
      exact Steps.refl.emitJump _
    | .retValue value =>
      obtain ⟨⟨x, t⟩, resolved, ok⟩ := bind_ok.mp ok
      cases ok
      exact ((resolve_steps resolved).emitSequence _ (Pool.Grows.add t.program.pool _)).emitJump _

/-- What happens where the values listed in a block are lowered. -/
theorem operations_steps {body : List ValueId} (ok : s.operations c body = .ok s') :
    Steps c s (body.flatMap (eventsAt c)) s' := by
  induction body generalizing s with
  | nil =>
    cases ok
    exact .refl
  | cons v rest ih =>
    obtain ⟨t, one, more⟩ := bind_ok.mp ok
    obtain ⟨op, found, steps⟩ := operation_steps one
    have here : eventsAt c v = eventsOf c v op := by
      rw [eventsAt, found]
      rfl
    rw [List.flatMap_cons, here]
    exact steps.trans (ih more)

end Selection

end Codegen86
