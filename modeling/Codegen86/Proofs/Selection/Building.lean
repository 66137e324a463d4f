import Codegen86.Proofs.Pools
import Codegen86.Proofs.Selection.Emission
import Codegen86.Proofs.Selection.Placement
import Codegen86.Selection.Lower
/-!
# What lowering operations make

Every operation extends what was made before it and changes nothing of it.  Most add instructions to the
block under construction and no more (`Emits`); a local variable also takes a word of the frame, a
comparison whose value is kept ends the block and begins another, and a transfer of control ends it.

`Sound` is the invariant: the blocks made and the code of the one under construction are as `Blocks` and
`Code` say, and what registers hold is known.
-/

set_option autoImplicit false

namespace Codegen86

/-- An argument that the function may read: one of its own, or one that a value stands for. -/
def IR.Function.Reads (f : IR.Function) (i : Nat) : Prop := i < f.arity ∨ ∃ v, f.op? v = some (.arg i)

namespace Selection

open Target IR

variable {c : Context} {least : OperandRef} {start first : Nat} {s s' s'' : Lowering}

/-- Where a lowering makes code. -/
def Lowering.site (c : Context) (least : OperandRef) (s : Lowering) : Site where
  pool := s.program.pool
  least := least
  words := c.plan.homes.length + s.slots.length
  found := s.found
  params := c.function.Reads

/-- The blocks made, behind the prologue. -/
def Lowering.bodies (s : Lowering) : List Target.Block := s.done.toList.tail

/-- The names of blocks that a function has so far behind its prologue, and will have. -/
def Lowering.targets (c : Context) (s : Lowering) : List String :=
  c.epilogue :: s.labels.map (·.2) ++ s.bodies.map (·.name) ++ [s.name]

/-- The functions found are functions of the source, each found once. -/
structure Known (source : IR.Program) (found : List String) : Prop where
  distinct : found.Nodup
  known : ∀ name ∈ found, (source.function? name).isSome = true

/-! ## Adding code to a block -/

/-- From `s` to `s'` the instructions `code` are added to the block under construction. -/
structure Emits (c : Context) (least : OperandRef) (first : Nat) (s s' : Lowering)
    (code : List Instruction) : Prop where
  name : s'.name = s.name
  done : s'.done = s.done
  labels : s'.labels = s.labels
  slots : s'.slots = s.slots
  frame : s'.frame = s.frame
  functions : s'.program.functions = s.program.functions
  entry : s'.program.entry = s.program.entry
  counter : s.program.labels ≤ s'.program.labels
  found : s.found <+: s'.found
  known : Known c.source s.found → Known c.source s'.found
  pool : s.program.pool.Grows s'.program.pool
  added : s'.code.toList = s.code.toList ++ code
  made : (s'.site c least).Code first s.registers 0 code s'.registers 0
  held : ∀ entry ∈ s'.held, entry ∈ s.held ∨ (s'.site c least).Held first s'.registers entry.2

/-- The state with more operands, registers and code. -/
def Lowering.grow (s : Lowering) (pool : Pool) (registers : Nat) (code : List Instruction)
    (journal : Journal) : Lowering :=
  { s with program := { s.program with pool }, registers, code := s.code ++ code, journal }

theorem Lowering.emitAll_eq (s : Lowering) (code : List Instruction) :
    ∃ journal, s.emitAll code = { s with code := s.code ++ code, journal } := by
  induction code generalizing s with
  | nil => exact ⟨s.journal, by simp [Lowering.emitAll]⟩
  | cons i rest ih =>
    obtain ⟨journal, eq⟩ := ih (s.emit i)
    refine ⟨journal, ?_⟩
    show (s.emit i).emitAll rest = _
    rw [eq]
    simp [Lowering.emit]

namespace Emits

variable {code code' : List Instruction}

theorem le (h : Emits c least first s s' code) : (s.site c least).Le (s'.site c least) where
  size := h.pool.size
  least := rfl
  get inside := h.pool.get inside.2
  words := by simp [Lowering.site, h.slots]
  found := h.found.subset
  params := id

/-- Code is added that uses the pool as it is then. -/
theorem grow {pool : Pool} {registers : Nat} {journal : Journal} (grows : s.program.pool.Grows pool)
    (made : ((s.grow pool registers code journal).site c least).Code first s.registers 0 code
      registers 0) : Emits c least first s (s.grow pool registers code journal) code where
  name := rfl
  done := rfl
  labels := rfl
  slots := rfl
  frame := rfl
  functions := rfl
  entry := rfl
  counter := Nat.le_refl _
  found := List.prefix_refl _
  known := id
  pool := grows
  added := by simp [Lowering.grow]
  made := made
  held _ mem := .inl mem

theorem refl (s : Lowering) : Emits c least first s s [] := by
  have same : s.grow s.program.pool s.registers [] s.journal = s := by simp [Lowering.grow]
  have h : Emits c least first s (s.grow s.program.pool s.registers [] s.journal) [] :=
    .grow (.refl _) .nil
  rwa [same] at h

theorem trans (h : Emits c least first s s' code) (h' : Emits c least first s' s'' code') :
    Emits c least first s s'' (code ++ code') where
  name := h'.name.trans h.name
  done := h'.done.trans h.done
  labels := h'.labels.trans h.labels
  slots := h'.slots.trans h.slots
  frame := h'.frame.trans h.frame
  functions := h'.functions.trans h.functions
  entry := h'.entry.trans h.entry
  counter := Nat.le_trans h.counter h'.counter
  found := h.found.trans h'.found
  known := h'.known ∘ h.known
  pool := h.pool.trans h'.pool
  added := by rw [h'.added, h.added, List.append_assoc]
  made := (h.made.mono h'.le).append h'.made
  held entry mem := by
    rcases h'.held entry mem with mem | held
    · exact (h.held entry mem).imp_right fun held => held.mono h'.le h'.made.next_le
    · exact .inr held

/-- A register holds a value. -/
theorem hold {v : ValueId} {x : OperandRef} (held : (s.site c least).Held first s.registers x) :
    Emits c least first s { s with held := (v, x) :: s.held } [] :=
  { (refl s : Emits c least first s s []) with
    added := by simp
    made := .nil
    held := fun entry mem => by
      rcases List.mem_cons.mp mem with rfl | mem
      · exact .inr held
      · exact .inl mem }

/-- A register is known to hold a value when code is made. -/
theorem held_of (h : Emits c least first s s' code)
    (known : ∀ entry ∈ s.held, (s.site c least).Held first s.registers entry.2) :
    ∀ entry ∈ s'.held, (s'.site c least).Held first s'.registers entry.2 := by
  intro entry mem
  rcases h.held entry mem with mem | held
  · exact (known entry mem).mono h.le h.made.next_le
  · exact held

end Emits

/-! ## Straight code -/

/-- Registers hold values that the code of the block has computed; other operands are there already. -/
structure Holding (c : Context) (least : OperandRef) (first : Nat) (s : Lowering) : Prop where
  pool : least ≤ s.program.pool.operands.size
  registers : first ≤ s.registers
  held : ∀ entry ∈ s.held, (s.site c least).Held first s.registers entry.2

theorem Holding.emits {code : List Instruction} (h : Holding c least first s)
    (e : Emits c least first s s' code) : Holding c least first s' where
  pool := Nat.le_trans h.pool e.pool.size
  registers := Nat.le_trans h.registers e.made.next_le
  held := e.held_of h.held

/-- What is loaded to registers. -/
inductive Site.Loads (E : Site) : Operand → Prop
  | imm (value : Word) : Loads E (.imm value)
  | result : Loads E (.reg .result)
  | slot {offset : Word} (reserved : E.Local offset) : Loads E (.frameSlot offset)
  | arg {i : Nat} (param : E.params i) : Loads E (Calling.argSlot i)

theorem Site.Loads.mono {E E' : Site} (le : E.Le E') {o : Operand} (h : E.Loads o) : E'.Loads o := by
  cases h with
  | imm value => exact .imm value
  | result => exact .result
  | slot reserved => exact .slot (reserved.mono le)
  | arg param => exact .arg (le.params param)

theorem Site.Loads.loadable {E : Site} {o : Operand} (h : E.Loads o) {first next : Nat}
    {x : OperandRef} (is : E.Is x o) : E.Loadable first next x := by
  cases h with
  | imm value => exact .imm is
  | result => exact .result is
  | slot reserved => exact .slot reserved is
  | arg param => exact .arg param is

/-- Move an operand to a new register. -/
def Lowering.load (s : Lowering) (source : Operand) : OperandRef × Lowering :=
  let (register, s) := s.freshRegister
  let (source, s) := s.addOperand source
  (register, s.emit (.mov register source))

/-- The operand `o` was moved to the register at `x`, which is new. -/
structure Loaded (c : Context) (least : OperandRef) (first : Nat) (s : Lowering) (o : Operand)
    (x : OperandRef) (s' : Lowering) : Prop where
  emits : ∃ y, Emits c least first s s' [.mov x y] ∧ (s'.site c least).Is y o
  target : (s'.site c least).Is x (.reg (.abstract s.registers))
  next : s'.registers = s.registers + 1
  same : s'.held = s.held

theorem load_spec (h : Holding c least first s) {o : Operand} (loads : (s.site c least).Loads o) :
    Loaded c least first s o (s.load o).1 (s.load o).2 := by
  let p := s.program.pool
  let q := (p.add (.reg (.abstract s.registers))).2
  let r := (q.add o).2
  have grows : p.Grows q := .add _ _
  have grows' : q.Grows r := .add _ _
  let t := s.grow r (s.registers + 1) [.mov p.operands.size q.operands.size]
    (s.journal.recordInstruction "MOV")
  have eq : s.load o = (p.operands.size, t) := by
    simp [Lowering.load, Lowering.freshRegister, Selector.freshRegister, Lowering.addOperand,
      Selector.addOperand, Program.addOperand, Lowering.emit, Lowering.grow, t, r, q, p,
      Instruction.mnemonic]
  have target : (t.site c least).Is p.operands.size (.reg (.abstract s.registers)) := by
    have inside : p.operands.size < q.operands.size := by simp [q]
    refine ⟨⟨h.pool, Nat.lt_of_lt_of_le inside grows'.size⟩, ?_⟩
    exact (grows'.get inside).trans (Pool.get_size_add _ _)
  have source : (t.site c least).Is q.operands.size o := by
    refine ⟨⟨Nat.le_trans h.pool grows.size, ?_⟩, Pool.get_size_add _ _⟩
    show q.operands.size < r.operands.size
    simp [r]
  have le : (s.site c least).Le (t.site c least) :=
    ⟨(grows.trans grows').size, rfl, fun inside => (grows.trans grows').get inside.2, Nat.le_refl _,
      fun _ mem => mem, id⟩
  rw [eq]
  refine ⟨⟨q.operands.size, ?_, source⟩, target, rfl, rfl⟩
  exact .grow (grows.trans grows') (.single (.load target ((loads.mono le).loadable source)))

theorem Loaded.held {o : Operand} {x : OperandRef} (h : Loaded c least first s o x s')
    (enough : first ≤ s.registers) : (s'.site c least).Held first s'.registers x :=
  ⟨s.registers, enough, by rw [h.next]; exact Nat.lt_succ_self _, h.target⟩

/-- Copy a register to a new one. -/
theorem copy_spec (h : Holding c least first s) {x : OperandRef}
    (held : (s.site c least).Held first s.registers x) :
    let s' := s.freshRegister.2.emit (.mov s.freshRegister.1 x)
    Emits c least first s s' [.mov s.freshRegister.1 x] ∧
      (s'.site c least).Is s.freshRegister.1 (.reg (.abstract s.registers)) ∧
      s'.registers = s.registers + 1 ∧ s'.held = s.held := by
  let p := s.program.pool
  let q := (p.add (.reg (.abstract s.registers))).2
  have grows : p.Grows q := .add _ _
  let t := s.grow q (s.registers + 1) [.mov p.operands.size x] (s.journal.recordInstruction "MOV")
  have eq : s.freshRegister.2.emit (.mov s.freshRegister.1 x) = t := by
    simp [Lowering.freshRegister, Selector.freshRegister, Selector.addOperand, Program.addOperand,
      Lowering.emit, Lowering.grow, t, q, p, Instruction.mnemonic]
  have ref : s.freshRegister.1 = p.operands.size := rfl
  have target : (t.site c least).Is p.operands.size (.reg (.abstract s.registers)) := by
    refine ⟨⟨h.pool, ?_⟩, Pool.get_size_add _ _⟩
    show p.operands.size < q.operands.size
    simp [q]
  have le : (s.site c least).Le (t.site c least) :=
    ⟨grows.size, rfl, fun inside => grows.get inside.2, Nat.le_refl _, fun _ mem => mem, id⟩
  rw [eq, ref]
  exact ⟨.grow grows (.single (.load target (.held (held.mono le (Nat.le_refl _))))), target, rfl, rfl⟩

theorem addOperand_spec (c : Context) (first : Nat)
    (enough : least ≤ s.program.pool.operands.size) (o : Operand) :
    Emits c least first s (s.addOperand o).2 [] ∧
      ((s.addOperand o).2.site c least).Is (s.addOperand o).1 o := by
  constructor
  · have same : (s.addOperand o).2 =
        s.grow (s.program.pool.add o).2 s.registers [] s.journal := by
      simp [Lowering.addOperand, Selector.addOperand, Program.addOperand, Lowering.grow]
    rw [same]
    exact .grow (.add _ _) .nil
  · refine ⟨⟨enough, ?_⟩, Pool.get_size_add _ _⟩
    show s.program.pool.operands.size < (s.program.pool.add o).2.operands.size
    simp

theorem emit_spec {i : Instruction}
    (made : (s.site c least).Emission first s.registers 0 i s.registers 0) :
    Emits c least first s (s.emit i) [i] := by
  have same : s.emit i =
      s.grow s.program.pool s.registers [i] (s.journal.recordInstruction i.mnemonic) := by
    simp [Lowering.emit, Lowering.grow]
  rw [same]
  exact .grow (.refl _) (.single made)

/-- Store a register to the frame. -/
def Lowering.storeRegister (s : Lowering) (offset : Word) (x : OperandRef) : Lowering :=
  let (slot, s) := s.addOperand (.frameSlot offset)
  s.emit (.mov slot x)

theorem storeRegister_spec (h : Holding c least first s) {offset : Word} {x : OperandRef}
    (reserved : (s.site c least).Local offset) (held : (s.site c least).Held first s.registers x) :
    ∃ slot, Emits c least first s (s.storeRegister offset x) [.mov slot x] ∧
      ((s.storeRegister offset x).site c least).Is slot (.frameSlot offset) := by
  obtain ⟨adds, is⟩ := addOperand_spec c first h.pool (.frameSlot offset)
  have stores : Emits c least first _ _ _ := emit_spec
    (.store (reserved.mono adds.le) is (.held (held.mono adds.le adds.made.next_le)))
  exact ⟨_, adds.trans stores, is.mono stores.le⟩

theorem emitStore_spec (value : Word) (h : Holding c least first s) {offset : Word}
    (reserved : (s.site c least).Local offset) :
    ∃ slot source, Emits c least first s (s.emitStore offset (.imm value)) [.mov slot source] ∧
      ((s.emitStore offset (.imm value)).site c least).Is slot (.frameSlot offset) ∧
      ((s.emitStore offset (.imm value)).site c least).Is source (.imm value) := by
  obtain ⟨adds, is⟩ := addOperand_spec c first h.pool (.frameSlot offset)
  obtain ⟨adds', is'⟩ := addOperand_spec c first (h.emits adds).pool (.imm value)
  have stores : Emits c least first _ _ _ := emit_spec
    (.store ((reserved.mono adds.le).mono adds'.le) (is.mono adds'.le) (.imm is'))
  exact ⟨_, _, (adds.trans adds').trans stores, (is.mono adds'.le).mono stores.le, is'.mono stores.le⟩

theorem Known.find {source : IR.Program} {s : Selector} {name : String} (h : Known source s.found)
    (there : (source.function? name).isSome = true) : Known source (s.find name).found := by
  unfold Selector.find
  split
  · exact h
  · rename_i new
    have new : name ∉ s.found := fun mem => new (List.contains_iff_mem.mpr mem)
    refine ⟨List.nodup_append.mpr ⟨h.distinct, by simp, ?_⟩, fun other mem => ?_⟩
    · intro a mem b mem'
      obtain rfl := List.mem_singleton.mp mem'
      exact fun same => new (same ▸ mem)
    · rcases List.mem_append.mp mem with mem | mem
      · exact h.known other mem
      · obtain rfl := List.mem_singleton.mp mem
        exact there

/-- Note a function that is called. -/
theorem find_spec (c : Context) (least : OperandRef) (first : Nat) (s : Lowering) {name : String}
    (there : (c.source.function? name).isSome = true) :
    Emits c least first s { s with toSelector := s.toSelector.find name } [] ∧
      name ∈ (s.toSelector.find name).found := by
  by_cases old : s.found.contains name = true
  · have same : s.toSelector.find name = s.toSelector := if_pos old
    rw [same]
    exact ⟨.refl s, List.contains_iff_mem.mp old⟩
  · have new : s.toSelector.find name = { s.toSelector with found := s.found ++ [name] } := if_neg old
    have known : Known c.source s.found → Known c.source (s.toSelector.find name).found :=
      fun known => known.find there
    rw [new] at known ⊢
    exact ⟨{ (Emits.refl s : Emits c least first s s []) with
      found := List.prefix_append _ _
      known := known
      made := .nil }, by simp⟩

theorem freshLabel_spec (c : Context) (least : OperandRef) (first : Nat) (s : Lowering) (base : String) :
    Emits c least first s (s.freshLabel base).2 [] :=
  { (Emits.refl s : Emits c least first s s []) with
    counter := Nat.le_succ _
    made := .nil }

/-- Push registers that hold the arguments of a call. -/
theorem Site.Code.pushes {E : Site} {first next pushed : Nat} (args : List OperandRef)
    (held : ∀ x ∈ args, E.Held first next x) :
    E.Code first next pushed (args.map Instruction.push) next (pushed + args.length) := by
  induction args generalizing pushed with
  | nil => exact .nil
  | cons x rest ih =>
    refine .cons (.push (held x List.mem_cons_self)) ?_
    rw [List.length_cons, Nat.add_comm rest.length 1, ← Nat.add_assoc]
    exact ih fun y mem => held y (List.mem_cons_of_mem _ mem)

theorem Lowering.emitSequence_eq (s : Lowering) (sequence : Pool → List Instruction × Pool)
    {code : List Instruction} {pool : Pool} (eq : sequence s.program.pool = (code, pool)) :
    ∃ journal, s.emitSequence sequence = s.grow pool s.registers code journal := by
  obtain ⟨journal, all⟩ :=
    Lowering.emitAll_eq { s with program := { s.program with pool } } code
  refine ⟨journal, ?_⟩
  simp only [Lowering.emitSequence, eq, Lowering.grow]
  exact all

/-- Append a sequence that puts its operands into the pool. -/
theorem emitSequence_spec (c : Context) (sequence : Pool → List Instruction × Pool)
    {code : List Instruction} {pool : Pool} (eq : sequence s.program.pool = (code, pool))
    (grows : s.program.pool.Grows pool)
    (made : ∀ E : Site, E.pool = pool → (s.site c least).Le E →
      E.Code first s.registers 0 code s.registers 0) :
    Emits c least first s (s.emitSequence sequence) code ∧
      (s.emitSequence sequence).program.pool = pool ∧ (s.emitSequence sequence).held = s.held := by
  obtain ⟨journal, same⟩ := Lowering.emitSequence_eq s sequence eq
  rw [same]
  refine ⟨.grow grows (made _ rfl ?_), rfl, rfl⟩
  exact ⟨grows.size, rfl, fun inside => grows.get inside.2, Nat.le_refl _, fun _ mem => mem, id⟩

/-- What drops the arguments of a call, if it has any. -/
inductive Site.Drops (E : Site) (arity : Nat) : List Instruction → Prop
  | none (empty : arity = 0) : Drops E arity []
  | some {x y : OperandRef} (full : arity ≠ 0) (stack : E.Is x (.reg .stackPointer))
      (words : E.Is y (.imm (Word.ofNat arity))) : Drops E arity [.arith .add x y]

theorem callSequence_spec (h : Holding c least first s) {name : String} (known : name ∈ s.found)
    {args : List OperandRef} (held : ∀ x ∈ args, (s.site c least).Held first s.registers x) :
    ∃ s' label drop, s.emitSequence (fun pool => Calling.callSequence pool name args) = s' ∧
      Emits c least first s s' (args.reverse.map Instruction.push ++ .call label :: drop) ∧
      (s'.site c least).Is label (.symbol name) ∧ (s'.site c least).Drops args.length drop ∧
      s'.held = s.held := by
  let p := s.program.pool
  let q := (p.add (.symbol name)).2
  have grows : p.Grows q := .add _ _
  have named : q.get p.operands.size = .symbol name := Pool.get_size_add _ _
  have inside : p.operands.size < q.operands.size := by simp [q]
  have pushes : ∀ E : Site, (s.site c least).Le E →
      E.Code first s.registers 0 (args.reverse.map Instruction.push) s.registers args.length := by
    intro E le
    have pushes : E.Code first s.registers 0 _ _ _ := Site.Code.pushes args.reverse
      fun x mem => (held x (List.mem_reverse.mp mem)).mono le (Nat.le_refl _)
    simpa using pushes
  by_cases empty : args.isEmpty = true
  · have none : args = [] := List.isEmpty_iff.mp empty
    have code : Calling.callSequence p name args =
        (args.reverse.map Instruction.push ++ [.call p.operands.size], q) := by
      simp [Calling.callSequence, q, none]
    have calls : ∀ E : Site, E.pool = q → (s.site c least).Le E →
        E.Is p.operands.size (.symbol name) :=
      fun E eq le => ⟨⟨le.least ▸ h.pool, eq ▸ inside⟩, eq ▸ named⟩
    obtain ⟨emits, pool, same⟩ := emitSequence_spec c
      (fun pool => Calling.callSequence pool name args) code grows
      fun E eq (le : (s.site c least).Le E) => by
        refine (pushes E le).append ?_
        rw [none]
        exact .single (.call (calls E eq le) (le.found known))
    exact ⟨_, p.operands.size, [], rfl, emits, calls _ pool emits.le, .none (by simp [none]), same⟩
  · let r := (q.add (.imm (Word.ofNat args.length))).2
    let t := (r.add (.reg .stackPointer)).2
    have grows' : q.Grows r := .add _ _
    have grows'' : r.Grows t := .add _ _
    have code : Calling.callSequence p name args =
        (args.reverse.map Instruction.push ++
          [.call p.operands.size, .arith .add r.operands.size q.operands.size], t) := by
      simp only [Calling.callSequence, empty]
      rfl
    have calls : ∀ E : Site, E.pool = t → (s.site c least).Le E →
        E.Is p.operands.size (.symbol name) ∧ E.Is r.operands.size (.reg .stackPointer) ∧
          E.Is q.operands.size (.imm (Word.ofNat args.length)) := by
      intro E eq le
      have small : q.operands.size < r.operands.size := by simp [r]
      have small' : r.operands.size < t.operands.size := by simp [t]
      have enough : E.least ≤ p.operands.size := le.least ▸ h.pool
      refine ⟨⟨⟨enough, eq ▸ Nat.lt_trans (Nat.lt_trans inside small) small'⟩, ?_⟩,
        ⟨⟨Nat.le_trans enough (Nat.le_of_lt (Nat.lt_trans inside small)), eq ▸ small'⟩, ?_⟩,
        ⟨Nat.le_trans enough (Nat.le_of_lt inside), eq ▸ Nat.lt_trans small small'⟩, ?_⟩
      · rw [eq, (grows'.trans grows'').get inside]
        exact named
      · rw [eq]
        exact Pool.get_size_add _ _
      · rw [eq, grows''.get small]
        exact Pool.get_size_add _ _
    obtain ⟨emits, pool, same⟩ := emitSequence_spec c
      (fun pool => Calling.callSequence pool name args) code ((grows.trans grows').trans grows'')
      fun E eq (le : (s.site c least).Le E) => by
        obtain ⟨label, stack, words⟩ := calls E eq le
        exact (pushes E le).append (.cons (.call label (le.found known)) (.single (.drop stack words)))
    obtain ⟨label, stack, words⟩ := calls _ pool emits.le
    refine ⟨_, p.operands.size, [.arith .add r.operands.size q.operands.size], rfl, emits, label,
      .some ?_ stack words, same⟩
    simpa using empty

/-- Hand over a register to the caller. -/
theorem returnValue_spec (h : Holding c least first s) {x : OperandRef}
    (held : (s.site c least).Held first s.registers x) :
    ∃ s' y, (s.emitSequence fun pool =>
        let (i, pool) := Calling.returnValue pool x
        ([i], pool)) = s' ∧ Emits c least first s s' [.mov y x] ∧
      (s'.site c least).Is y (.reg .result) ∧ s'.held = s.held := by
  let p := s.program.pool
  let q := (p.add (.reg .result)).2
  have grows : p.Grows q := .add _ _
  have is : ∀ E : Site, E.pool = q → (s.site c least).Le E → E.Is p.operands.size (.reg .result) := by
    intro E eq le
    refine ⟨⟨le.least ▸ h.pool, ?_⟩, eq ▸ Pool.get_size_add _ _⟩
    rw [eq]
    simp [q]
  obtain ⟨emits, pool, same⟩ := emitSequence_spec c
    (fun pool => ([(Calling.returnValue pool x).1], (Calling.returnValue pool x).2)) rfl grows
    fun E eq (le : (s.site c least).Le E) =>
      .single (.result (is E eq le) (held.mono le (Nat.le_refl _)))
  exact ⟨_, p.operands.size, rfl, emits, is _ pool emits.le, same⟩

/-! ## Closing a block -/

theorem emitJump_spec (c : Context) (enough : least ≤ s.program.pool.operands.size) (label : String) :
    ∃ x pool journal, s.emitJump label = s.grow pool s.registers [.jump x] journal ∧
      s.program.pool.Grows pool ∧
      ((s.grow pool s.registers [.jump x] journal).site c least).Is x (.symbol label) := by
  refine ⟨s.program.pool.operands.size, (s.program.pool.add (.symbol label)).2,
    s.journal.recordInstruction "JMP", ?_, .add _ _, ⟨enough, ?_⟩, Pool.get_size_add _ _⟩
  · simp [Lowering.emitJump, Lowering.addOperand, Selector.addOperand, Program.addOperand,
      Lowering.emit, Lowering.grow, Instruction.mnemonic]
  · simp [Lowering.site, Lowering.grow]

theorem emitJumpIf_spec (c : Context)
    (enough : least ≤ s.program.pool.operands.size) (condition : Condition)
    (label : String) :
    ∃ x pool journal, s.emitJumpIf condition label =
        s.grow pool s.registers [.jumpIf condition x] journal ∧ s.program.pool.Grows pool ∧
      ((s.grow pool s.registers [.jumpIf condition x] journal).site c least).Is x (.symbol label) := by
  refine ⟨s.program.pool.operands.size, (s.program.pool.add (.symbol label)).2,
    s.journal.recordInstruction condition.mnemonic, ?_, .add _ _, ⟨enough, ?_⟩, Pool.get_size_add _ _⟩
  · simp [Lowering.emitJumpIf, Lowering.addOperand, Selector.addOperand, Program.addOperand,
      Lowering.emit, Lowering.grow, Instruction.mnemonic]
  · simp [Lowering.site, Lowering.grow]

theorem Lowering.grow_grow (s : Lowering) (p q : Pool) (n m : Nat) (code code' : List Instruction)
    (j k : Journal) : (s.grow p n code j).grow q m code' k = s.grow q m (code ++ code') k := by
  have code : s.code ++ code ++ code' = s.code ++ (code ++ code') := Array.ext' (by simp)
  simp [Lowering.grow, code]

/-- A comparison, a conditional jump and a jump. -/
theorem test_spec (c : Context) (enough : least ≤ s.program.pool.operands.size) (x y : OperandRef)
    (condition : Condition) (name name' : String) :
    ∃ z w pool journal, ((s.emit (.cmp x y)).emitJumpIf condition name).emitJump name' =
        s.grow pool s.registers [.cmp x y, .jumpIf condition z, .jump w] journal ∧
      s.program.pool.Grows pool ∧
      ((s.grow pool s.registers [.cmp x y, .jumpIf condition z, .jump w] journal).site c least).Is z
        (.symbol name) ∧
      ((s.grow pool s.registers [.cmp x y, .jumpIf condition z, .jump w] journal).site c least).Is w
        (.symbol name') := by
  obtain ⟨z, pool, journal, eq, grows, is⟩ :=
    emitJumpIf_spec (s := s.emit (.cmp x y)) c enough condition name
  have compared : s.emit (.cmp x y) =
      s.grow s.program.pool s.registers [.cmp x y] (s.journal.recordInstruction "CMP") := by
    simp [Lowering.emit, Lowering.grow, Instruction.mnemonic]
  obtain ⟨w, pool', journal', eq', grows', is'⟩ :=
    emitJump_spec (s := (s.emit (.cmp x y)).emitJumpIf condition name) c
      (show least ≤ _ by rw [eq]; exact Nat.le_trans enough grows.size) name'
  rw [eq] at eq' grows' is'
  refine ⟨z, w, pool', journal', ?_, grows.trans grows', ?_, is'⟩
  · rw [eq, eq', compared, Lowering.grow_grow, Lowering.grow_grow]
    rfl
  · have le : ((Lowering.grow (s.emit (.cmp x y)) pool s.registers [.jumpIf condition z] journal).site c
        least).Le ((s.grow pool' s.registers [.cmp x y, .jumpIf condition z, .jump w] journal').site c
        least) :=
      ⟨grows'.size, rfl, fun inside => grows'.get inside.2, Nat.le_refl _, fun _ mem => mem, id⟩
    exact is.mono le

end Selection

end Codegen86
