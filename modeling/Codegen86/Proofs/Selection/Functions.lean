import Codegen86.Proofs.FrameSlots
import Codegen86.Proofs.Selection.Operations
import Codegen86.Proofs.Selection.Slots
import Codegen86.Selection.Program
import Mathlib.Data.List.Perm.Subperm
/-!
# Lowering functions

A lowered function is a prologue, blocks as `Emitted` says, and an epilogue (`Lowered`).  Its blocks are
the ones found from the entry block on: each is found once, so that their number bounds the steps
(`Lowering.blocks`), and a jump leads to one of them.
-/

set_option autoImplicit false

namespace Codegen86.Selection

open Target IR

variable {c : Context} {least : OperandRef} {start first : Nat} {s s' s'' : Lowering} {v : ValueId}
  {x : OperandRef}

/-! ## Bodies of blocks -/

theorem WellListed.tail {f : IR.Function} {v : ValueId} {rest : List ValueId}
    (h : WellListed f (v :: rest)) : WellListed f rest :=
  fun before u after split => h (v :: before) u after (by rw [split, List.cons_append])

theorem operations_spec {body : List ValueId} (h : Sound c least start first s)
    (well : WellListed c.function body) (full : body ≠ []) (ok : s.operations c body = .ok s') :
    ∃ first', Ended c least start first' s' ∧ Advances c s s' := by
  induction body generalizing s first with
  | nil => exact absurd rfl full
  | cons v rest ih =>
    obtain ⟨t, one, more⟩ := bind_ok.mp ok
    obtain ⟨op, listed⟩ := well [] v rest rfl
    by_cases last : rest = []
    · subst last
      cases more
      exact ⟨first, terminator_spec h listed.found listed.terminator one⟩
    · obtain ⟨first', sound, advances⟩ :=
        operation_spec h listed.found (by rw [listed.terminator]; simpa using last) one
      obtain ⟨first'', ended, advances'⟩ := ih sound well.tail last more
      exact ⟨first'', ended, advances.trans advances'⟩

/-! ## Blocks in the order they are found -/

/-- The names of blocks behind the prologue when none is under construction. -/
def Lowering.known (c : Context) (s : Lowering) : List String :=
  c.epilogue :: s.labels.map (·.2) ++ s.bodies.map (·.name)

/-- What holds between blocks: those found before `position` are made. -/
structure Between (c : Context) (least : OperandRef) (start position : Nat) (s : Lowering) : Prop where
  pool : least ≤ s.program.pool.operands.size
  framed : Framed c s
  labelled : Labelled c s
  slotted : Slotted c position s
  entered : s.done.toList ≠ []
  done : Blocks (s.site c least) (s.known c) start s.registers s.bodies
  inside : position ≤ s.labels.length
  made : ∀ entry ∈ s.labels.take position, entry.2 ∈ s.bodies.map (·.name)

/-- From one point between blocks to a later one. -/
structure Passes (c : Context) (s : Lowering) (position : Nat) (s' : Lowering) (position' : Nat) :
    Prop where
  functions : s'.program.functions = s.program.functions
  entry : s'.program.entry = s.program.entry
  pool : s.program.pool.Grows s'.program.pool
  found : s.found <+: s'.found
  known : Known c.source s.found → Known c.source s'.found
  labels : s.labels <+: s'.labels
  slots : s.slots <:+ s'.slots
  done : s.done.toList <+: s'.done.toList
  named : ∃ extra, Fresh c.function s.program.labels s'.program.labels extra ∧
    (s'.done.toList.map (·.name) ++ (s'.labels.drop position').map (·.2)).Perm
      (s.done.toList.map (·.name) ++ (s.labels.drop position).map (·.2) ++ extra)

theorem Passes.refl (s : Lowering) (position : Nat) : Passes c s position s position :=
  ⟨rfl, rfl, .refl _, List.prefix_refl _, id, List.prefix_refl _, List.suffix_refl _,
    List.prefix_refl _, [], .nil (Nat.le_refl _), by simp⟩

theorem Passes.trans {position position' position'' : Nat} (h : Passes c s position s' position')
    (h' : Passes c s' position' s'' position'') : Passes c s position s'' position'' := by
  obtain ⟨extra, fresh, perm⟩ := h.named
  obtain ⟨extra', fresh', perm'⟩ := h'.named
  refine ⟨h'.functions.trans h.functions, h'.entry.trans h.entry, h.pool.trans h'.pool,
    h.found.trans h'.found, h'.known ∘ h.known, h.labels.trans h'.labels, h.slots.trans h'.slots,
    h.done.trans h'.done, extra ++ extra', fresh.append fresh', ?_⟩
  have := perm'.trans (perm.append_right extra')
  rwa [List.append_assoc _ extra extra'] at this

theorem Passes.le {position position' : Nat} (h : Passes c s position s' position') :
    (s.site c least).Le (s'.site c least) where
  size := h.pool.size
  least := rfl
  get inside := h.pool.get inside.2
  words := Nat.add_le_add_left h.slots.length_le _
  found := h.found.subset
  params := id

theorem Between.begin {position : Nat} (h : Between c least start position s) (name : String) :
    Sound c least start s.registers (s.beginBlock name) where
  holding := ⟨h.pool, Nat.le_refl _, nofun⟩
  framed := h.framed.of_eq rfl rfl
  labelled := ⟨h.labelled.distinct, h.labelled.known⟩
  made := .nil
  entered := h.entered
  done := h.done.mono ⟨Nat.le_refl _, rfl, fun _ => rfl, Nat.le_refl _, fun _ mem => mem, id⟩
    fun _ mem => List.mem_append_left _ mem

theorem Lowering.bodies_endBlock (entered : s.done.toList ≠ []) :
    s.endBlock.bodies = s.bodies ++ [{ name := s.name, code := s.code.toList }] := by
  simp [Lowering.endBlock, Lowering.bodies, List.tail_append_of_ne_nil entered]

/-- A block is among those made once it was begun and ended. -/
theorem mem_bodies_endBlock {label : String} (entered : s.done.toList ≠ [])
    (grown : Grown (s.beginBlock label) s') :
    label ∈ s'.endBlock.bodies.map (·.name) := by
  have entered' : s'.done.toList ≠ [] := by
    obtain ⟨more, eq⟩ := grown.done
    rw [← eq]
    exact List.append_ne_nil_of_left_ne_nil entered _
  rw [Lowering.bodies_endBlock entered', List.map_append, List.mem_append]
  rcases grown.block with ⟨name, -, -⟩ | ⟨rest, more, eq⟩
  · right
    simpa [Lowering.beginBlock] using name.symm
  · left
    have entered : (s.beginBlock label).done.toList ≠ [] := entered
    rw [Lowering.bodies, eq, List.tail_append_of_ne_nil entered]
    simp [Lowering.beginBlock]

/-- A block is made. -/
theorem block_spec (placed : ∀ b ∈ c.function.blocks, b.body ≠ [] ∧ WellListed c.function b.body)
    {position : Nat} {id : BlockId} {label : String} (h : Between c least start position s)
    (here : s.labels[position]? = some (id, label)) (ok : s.block c id label = .ok s') :
    Between c least start (position + 1) s' ∧ Passes c s position s' (position + 1) := by
  have slotted := h.slotted.block here ok
  obtain ⟨t, all, ok⟩ := bind_ok.mp ok
  cases ok
  have block := List.getElem?_eq_getElem (h.labelled.known _ (List.mem_of_getElem? here))
  rw [block] at all
  obtain ⟨full, well⟩ := placed _ (List.mem_of_getElem? block)
  obtain ⟨first, ended, advances⟩ := operations_spec (h.begin label) well full all
  obtain ⟨found, here⟩ := List.getElem?_eq_some_iff.mp here
  obtain ⟨others, done⟩ := advances.done
  obtain ⟨later, labels⟩ := advances.labels
  have bodies : t.endBlock.bodies = t.bodies ++ [{ name := t.name, code := t.code.toList }] :=
    Lowering.bodies_endBlock ended.entered
  have kept : s.bodies ⊆ t.endBlock.bodies := by
    rw [bodies, Lowering.bodies, Lowering.bodies, ← done]
    show s.done.toList.tail ⊆ _
    rw [List.tail_append_of_ne_nil (show (s.beginBlock label).done.toList ≠ [] from h.entered)]
    intro b mem
    exact List.mem_append_left _ (List.mem_append_left _ mem)
  constructor
  · constructor
    · exact ended.pool
    · exact ended.framed.of_eq rfl rfl
    · exact ⟨ended.labelled.distinct, ended.labelled.known⟩
    · exact slotted advances.labels
    · simp [Lowering.endBlock]
    · rw [bodies]
      refine ((ended.done.append (.cons ended.emitted .nil)).mono
        ⟨Nat.le_refl _, rfl, fun _ => rfl, Nat.le_refl _, fun _ mem => mem, fun param => param⟩ fun name mem => ?_)
      have labels : t.endBlock.labels = t.labels := rfl
      simpa [Lowering.targets, Lowering.known, bodies, labels] using mem
    · exact Nat.le_trans found (advances.labels.length_le)
    · intro entry mem
      have mem : entry ∈ t.labels.take (position + 1) := mem
      have before : t.labels.take (position + 1) = s.labels.take (position + 1) := by
        rw [← labels]
        exact List.take_append_of_le_length found
      rw [before, List.take_succ_eq_append_getElem found, here] at mem
      rcases List.mem_append.mp mem with mem | mem
      · exact List.map_subset _ kept (h.made entry mem)
      · obtain rfl := List.mem_singleton.mp mem
        exact mem_bodies_endBlock h.entered advances.toGrown
  · obtain ⟨extra, fresh, perm⟩ := advances.named
    refine ⟨advances.functions, advances.entry, advances.pool, advances.found, advances.known,
      advances.labels, advances.slots, ?_, extra, fresh, ?_⟩
    · exact advances.done.trans (by simp [Lowering.endBlock])
    · have perm := perm (position + 1) found
      have split : (s.labels.drop position).map (·.2) =
          label :: (s.labels.drop (position + 1)).map (·.2) := by
        rw [List.drop_eq_getElem_cons found, here, List.map_cons]
      rw [split]
      simpa [Lowering.names, Lowering.endBlock, Lowering.beginBlock] using perm

/-- A block found is a block of the function, and none is found twice. -/
theorem Labelled.length_le (h : Labelled c s) : s.labels.length ≤ c.function.blocks.length := by
  have known : s.labels.map (·.1) ⊆ List.range c.function.blocks.length := by
    intro id mem
    obtain ⟨entry, found, rfl⟩ := List.mem_map.mp mem
    exact List.mem_range.mpr (h.known entry found)
  have := (List.subperm_of_subset h.distinct known).length_le
  simpa using this

/-- The blocks found are made, with those found on the way. -/
theorem blocks_spec (placed : ∀ b ∈ c.function.blocks, b.body ≠ [] ∧ WellListed c.function b.body)
    {fuel position : Nat} (enough : position + fuel = c.function.blocks.length)
    (h : Between c least start position s) (ok : s.blocks c fuel position = .ok s') :
    Between c least start s'.labels.length s' ∧ Passes c s position s' s'.labels.length := by
  have finished : ∀ {t : Lowering} {p : Nat}, Between c least start p t → t.labels.length ≤ p →
      p = t.labels.length := fun between most => Nat.le_antisymm between.inside most
  induction fuel generalizing position s with
  | zero =>
    obtain rfl := Except.ok.inj ok
    have most := h.labelled.length_le
    obtain rfl := finished h (by omega)
    exact ⟨h, .refl _ _⟩
  | succ fuel ih =>
    unfold Lowering.blocks at ok
    split at ok
    · rename_i none
      cases ok
      obtain rfl := finished h (List.getElem?_eq_none_iff.mp none)
      exact ⟨h, .refl _ _⟩
    · rename_i id label here
      obtain ⟨t, one, ok⟩ := bind_ok.mp ok
      obtain ⟨between, passes⟩ := block_spec placed h here one
      obtain ⟨between', passes'⟩ := ih (by omega) between ok
      exact ⟨between', passes.trans passes'⟩

/-! ## Entering and leaving -/

/-- Abstract registers one after another. -/
inductive Site.Registers (E : Site) : (k : Nat) → List OperandRef → (m : Nat) → Prop
  | nil {k : Nat} : Registers E k [] k
  | cons {k m : Nat} {x : OperandRef} {rest : List OperandRef} (is : E.Is x (.reg (.abstract k)))
      (tail : Registers E (k + 1) rest m) : Registers E k (x :: rest) m

theorem Site.Registers.next_eq {E : Site} {k m : Nat} {refs : List OperandRef}
    (registers : E.Registers k refs m) : m = k + refs.length := by
  induction registers with
  | nil => rfl
  | cons is _ ih => rw [ih, List.length_cons, Nat.add_assoc, Nat.add_comm 1]

/-- An operand that was added at the end of a pool, which may have grown since. -/
theorem is_of_add {p : Pool} {o : Operand} {E : Site} (grows : (p.add o).2.Grows E.pool)
    (enough : E.least ≤ p.operands.size) : E.Is p.operands.size o := by
  have inside : p.operands.size < (p.add o).2.operands.size := by simp
  refine ⟨⟨enough, Nat.lt_of_lt_of_le inside grows.size⟩, ?_⟩
  rw [grows.get inside]
  exact Pool.get_size_add p o

theorem freshRegisters_spec (s : Selector) (n : Nat) :
    ∃ refs pool, s.freshRegisters n =
        (refs, { s with program := { s.program with pool }, registers := s.registers + n }) ∧
      s.program.pool.Grows pool ∧
      ∀ E : Site, pool.Grows E.pool → E.least ≤ s.program.pool.operands.size →
        E.Registers s.registers refs (s.registers + n) := by
  induction n generalizing s with
  | zero => exact ⟨[], s.program.pool, rfl, .refl _, fun _ _ _ => .nil⟩
  | succ n ih =>
    obtain ⟨refs, pool, eq, grows, registers⟩ := ih s.freshRegister.2
    have first : s.program.pool.Grows s.freshRegister.2.program.pool := .add _ _
    refine ⟨s.program.pool.operands.size :: refs, pool, ?_, first.trans grows, fun E later enough => ?_⟩
    · rw [Selector.freshRegisters]
      dsimp only
      rw [eq]
      simp [Selector.freshRegister, Selector.addOperand, Program.addOperand, Nat.add_assoc,
        Nat.add_comm 1 n]
    · refine .cons (is_of_add (grows.trans later) enough) ?_
      have := registers E later (Nat.le_trans enough first.size)
      rwa [show s.freshRegister.2.registers = s.registers + 1 from rfl, Nat.add_assoc,
        Nat.add_comm 1 n] at this

/-- Arguments from `i` on are loaded into abstract registers from `k` up to `m`. -/
inductive Site.Arguments (E : Site) : (i k : Nat) → List Instruction → (m : Nat) → Prop
  | nil {i k : Nat} : Arguments E i k [] k
  | cons {i k m : Nat} {x y : OperandRef} {rest : List Instruction} (param : E.params i)
      (target : E.Is x (.reg (.abstract k))) (source : E.Is y (Calling.argSlot i))
      (tail : Arguments E (i + 1) (k + 1) rest m) : Arguments E i k (.mov x y :: rest) m

namespace Site.Arguments

variable {E : Site} {i k m : Nat} {code : List Instruction}

theorem mono {E' : Site} (h : E.Le E') (loads : E.Arguments i k code m) : E'.Arguments i k code m := by
  induction loads with
  | nil => exact .nil
  | cons param target source _ ih => exact .cons (h.params param) (target.mono h) (source.mono h) ih

theorem made (loads : E.Arguments i k code m) (first : Nat) : E.Code first k 0 code m 0 := by
  induction loads with
  | nil => exact .nil
  | cons param target source _ ih => exact .cons (.load target (.arg param source)) ih

end Site.Arguments

theorem loadArgs_spec (p : Pool) (i : Nat) (refs : List OperandRef) :
    ∃ code q, Calling.loadArgs p i refs = (code, q) ∧ p.Grows q ∧
      ∀ (E : Site) (k m : Nat), q.Grows E.pool → E.least ≤ p.operands.size →
        (∀ j < i + refs.length, E.params j) → E.Registers k refs m → E.Arguments i k code m := by
  induction refs generalizing p i with
  | nil =>
    refine ⟨[], p, rfl, .refl p, fun E k m _ _ _ registers => ?_⟩
    cases registers
    exact .nil
  | cons x rest ih =>
    obtain ⟨code, q, eq, grows, made⟩ := ih (p.add (Calling.argSlot i)).2 (i + 1)
    have first : p.Grows (p.add (Calling.argSlot i)).2 := .add _ _
    refine ⟨.mov x p.operands.size :: code, q, ?_, first.trans grows, ?_⟩
    · rw [Calling.loadArgs]
      dsimp only
      rw [eq]
      rfl
    · intro E k m later enough params registers
      rw [List.length_cons] at params
      cases registers with
      | cons target tail =>
        exact .cons (params i (by omega)) target (is_of_add (grows.trans later) enough)
          (made E (k + 1) m later (Nat.le_trans enough first.size) (fun j less => params j (by omega)) tail)

/-- A prologue that reserves the frame with the operand at `frame`, and leads to a block among
`targets`. -/
structure Entry (E : Site) (frame : OperandRef) (targets : List String) (first next : Nat)
    (code : List Instruction) : Prop where
  split : ∃ saved base top stack loads label name,
    code = [.push saved, .mov base top, .arith .sub stack frame] ++ loads ++ [.jump label] ∧
      E.Is saved (.reg .basePointer) ∧ E.Is base (.reg .basePointer) ∧ E.Is top (.reg .stackPointer) ∧
      E.Is stack (.reg .stackPointer) ∧ E.Arguments 0 first loads next ∧
      E.Is label (.symbol name) ∧ name ∈ targets

/-- An epilogue that releases the frame with the operand at `frame`. -/
structure Exit (E : Site) (frame : OperandRef) (code : List Instruction) : Prop where
  split : ∃ stack saved, code = [.arith .add stack frame, .pop saved, .ret] ∧
    E.Is stack (.reg .stackPointer) ∧ E.Is saved (.reg .basePointer)

section

variable {E E' : Site} {targets targets' : List String} {frame : OperandRef} {code : List Instruction}
  {next : Nat}

theorem Entry.mono (h : E.Le E') (more : targets ⊆ targets') (entry : Entry E frame targets first next code) :
    Entry E' frame targets' first next code := by
  obtain ⟨saved, base, top, stack, loads, label, name, eq, isSaved, isBase, isTop, isStack, made, target,
    known⟩ := entry.split
  exact ⟨saved, base, top, stack, loads, label, name, eq, isSaved.mono h, isBase.mono h, isTop.mono h,
    isStack.mono h, made.mono h, target.mono h, more known⟩

theorem Exit.mono (h : E.Le E') (leaves : Exit E frame code) : Exit E' frame code := by
  obtain ⟨stack, saved, eq, isStack, isSaved⟩ := leaves.split
  exact ⟨stack, saved, eq, isStack.mono h, isSaved.mono h⟩

end

theorem prologue_spec (p : Pool) (frame : OperandRef) (refs : List OperandRef) {body : String}
    {targets : List String} (known : body ∈ targets) :
    ∃ code q, Calling.prologue p frame refs body = (code, q) ∧ p.Grows q ∧
      ∀ (E : Site) (first next : Nat), q.Grows E.pool → E.least ≤ p.operands.size →
        (∀ j < refs.length, E.params j) → E.Registers first refs next → Entry E frame targets first next code := by
  let p₁ := (p.add (.reg .basePointer)).2
  let p₂ := (p₁.add (.reg .basePointer)).2
  let p₃ := (p₂.add (.reg .stackPointer)).2
  let p₄ := (p₃.add (.reg .stackPointer)).2
  have g₁ : p.Grows p₁ := .add _ _
  have g₂ : p₁.Grows p₂ := .add _ _
  have g₃ : p₂.Grows p₃ := .add _ _
  have g₄ : p₃.Grows p₄ := .add _ _
  obtain ⟨loads, q, eq, grows, made⟩ := loadArgs_spec p₄ 0 refs
  have last : q.Grows (q.add (.symbol body)).2 := .add _ _
  refine ⟨[.push p.operands.size, .mov p₁.operands.size p₂.operands.size,
    .arith .sub p₃.operands.size frame] ++ loads ++ [.jump q.operands.size], (q.add (.symbol body)).2,
    ?_, g₁.trans (g₂.trans (g₃.trans (g₄.trans (grows.trans last)))), ?_⟩
  · rw [Calling.prologue]
    dsimp only
    rw [show Calling.loadArgs _ 0 refs = (loads, q) from eq]
    rfl
  · intro E first next later enough params registers
    have l₄ : p₄.Grows E.pool := grows.trans (last.trans later)
    have l₃ : p₃.Grows E.pool := g₄.trans l₄
    have l₂ : p₂.Grows E.pool := g₃.trans l₃
    have l₁ : p₁.Grows E.pool := g₂.trans l₂
    have e₁ := Nat.le_trans enough g₁.size
    have e₂ := Nat.le_trans e₁ g₂.size
    have e₃ := Nat.le_trans e₂ g₃.size
    have e₄ := Nat.le_trans e₃ g₄.size
    exact ⟨_, _, _, _, loads, _, body, rfl, is_of_add l₁ enough, is_of_add l₂ e₁, is_of_add l₃ e₂,
      is_of_add l₄ e₃, made E first next (last.trans later) e₄ (by rwa [Nat.zero_add]) registers,
      is_of_add later (Nat.le_trans e₄ grows.size), known⟩

theorem epilogue_spec (p : Pool) (frame : OperandRef) :
    ∃ code q, Calling.epilogue p frame = (code, q) ∧ p.Grows q ∧
      ∀ E : Site, q.Grows E.pool → E.least ≤ p.operands.size → Exit E frame code := by
  have first : p.Grows (p.add (.reg .stackPointer)).2 := .add _ _
  have second : (p.add (.reg .stackPointer)).2.Grows
      ((p.add (.reg .stackPointer)).2.add (.reg .basePointer)).2 := .add _ _
  exact ⟨_, _, rfl, first.trans second, fun E later enough => ⟨_, _, rfl,
    is_of_add (second.trans later) enough, is_of_add later (Nat.le_trans enough first.size)⟩⟩

/-! ## Whole functions -/

theorem block?_isSome {t : Target.Function} {name : String} :
    (t.block? name).isSome = true ↔ name ∈ t.blocks.map (·.name) := by
  unfold Target.Function.block?
  simp

/-- Blocks are added under new names only. -/
theorem addBlocks_iff {blocks : List Target.Block} {t t' : Target.Function}
    (distinct : (t.blocks.map (·.name)).Nodup) :
    blocks.foldlM Target.Function.addBlock t = .ok t' ↔
      t' = { t with blocks := t.blocks ++ blocks } ∧
        ((t.blocks ++ blocks).map (·.name)).Nodup := by
  induction blocks generalizing t with
  | nil =>
    simp only [List.foldlM_nil, List.append_nil]
    refine ⟨fun ok => ?_, fun ⟨same, _⟩ => same ▸ rfl⟩
    cases ok
    exact ⟨rfl, distinct⟩
  | cons b rest ih =>
    rw [List.foldlM_cons, Target.Function.addBlock]
    by_cases old : (t.block? b.name).isSome = true
    · have mem := block?_isSome.mp old
      rw [if_pos old]
      constructor
      · intro ok
        cases ok
      · rintro ⟨-, nodup⟩
        rw [List.map_append, List.map_cons] at nodup
        exact absurd rfl ((List.nodup_append.mp nodup).2.2 _ mem _ List.mem_cons_self)
    · have new := mt block?_isSome.mpr old
      rw [if_neg old]
      have more : ((t.blocks ++ [b]).map (·.name)).Nodup := by
        rw [List.map_append, List.nodup_append]
        refine ⟨distinct, by simp, fun name mem name' mem' => ?_⟩
        obtain rfl : name' = b.name := by simpa using mem'
        exact fun same => new (same ▸ mem)
      have := ih (t := { t with blocks := t.blocks ++ [b] }) more
      rw [List.append_assoc, List.singleton_append] at this
      exact this

/-- How a function is lowered: `s` is what is made before its first block, `s'` after its last. -/
structure Lowers (source : IR.Program) (selector : Selector) (f : IR.Function) (c : Context)
    (frame : OperandRef) (s s' : Lowering) (t : Target.Function) (selector' : Selector) : Prop where
  body : ∃ args, lowerBody source selector f = .ok (c, frame, args, s')
  source : c.source = source
  function : c.function = f
  plan : Plan.ofFunction f = .ok c.plan
  place : frame = selector.program.pool.operands.size
  functions : s.program.functions = selector.program.functions
  entry : s.program.entry = selector.program.entry
  found : s.found = selector.found
  pool : selector.program.pool.Grows s.program.pool
  slots : s.slots = []
  between : Between c (frame + 1) s.registers 0 s
  prologue : ∃ name code body, s.done.toList = [{ name, code }] ∧ s.labels = [(0, body)] ∧
    Fresh f selector.program.labels s.program.labels [c.epilogue, name, body] ∧
    Entry (s.site c (frame + 1)) frame [body] selector.registers s.registers code
  registers : s.registers = selector.registers + f.arity
  blocks : s.blocks c f.blocks.length 0 = .ok s'
  epilogue : ∃ code pool journal,
    s'.program.pool.Grows pool ∧
      (∀ E : Site, pool.Grows E.pool → E.least ≤ s'.program.pool.operands.size → Exit E frame code) ∧
      t.blocks = s'.done.toList ++ [{ name := c.epilogue, code }] ∧
      selector' = { s'.toSelector with
        program := { s'.program with pool := pool.set frame (.imm s'.frame.size) }, journal }
  distinct : (t.blocks.map (·.name)).Nodup
  named : t.name = f.name
  framed : t.frame = some frame
  size : t.frameSize = s'.frame.words

/-- The state in which the blocks of a function are numbered: its frame immediate and the labels of its
epilogue and prologue are there already. -/
def Lowering.opened (selector : Selector) (f : IR.Function) (plan : Plan) : Lowering :=
  { program := { selector.program with
      pool := (selector.program.pool.add (.imm 0)).2
      labels := selector.program.labels + 2 }
    registers := selector.registers
    found := selector.found
    journal := selector.journal.enter f.name
    frame := plan.frame }

/-- The state behind the prologue, which has the code `code`. -/
def Lowering.entered (s : Lowering) (name : String) (arity : Nat) (code : List Instruction) (pool : Pool)
    (journal : Journal) : Lowering :=
  ((s.beginBlock name).grow pool (s.registers + arity) code journal).endBlock

theorem entered_spec {selector : Selector} {f : IR.Function} {pl : Placement} {body : String}
    {u : Lowering} (function : c.function = f) (planned : Planned f c.plan pl)
    (labelled : (Lowering.opened selector f c.plan).labelOf c 0 = .ok (body, u)) (name : String)
    (arity : Nat) (code : List Instruction) {pool : Pool} (grows : u.program.pool.Grows pool)
    (journal : Journal) :
    let s := u.entered name arity code pool journal
    Between c (selector.program.pool.operands.size + 1) s.registers 0 s ∧
      s.labels = [(0, body)] ∧ selector.program.pool.Grows pool ∧
      Fresh f (selector.program.labels + 2) s.program.labels [body] ∧
      s.program.functions = selector.program.functions ∧ s.program.entry = selector.program.entry ∧
      s.found = selector.found ∧ s.slots = [] ∧ s.done.toList = [{ name, code }] ∧
      u.registers = selector.registers ∧
      selector.program.pool.operands.size + 1 ≤ u.program.pool.operands.size := by
  cases labelOf_cases labelled with
  | known found same => cases found
  | @new b absent block label same =>
    subst same
    have opened : selector.program.pool.Grows (selector.program.pool.add (.imm 0)).2 := .add _ _
    have size : selector.program.pool.operands.size + 1 ≤
        (selector.program.pool.add (.imm 0)).2.operands.size := by simp
    have inside : 0 < c.function.blocks.length := (List.getElem?_eq_some_iff.mp block).1
    refine ⟨⟨Nat.le_trans size grows.size, ⟨?_, ?_⟩, ⟨by simp [Lowering.entered, Lowering.opened, Lowering.grow,
      Lowering.beginBlock, Lowering.endBlock], ?_⟩, ⟨List.nil_subperm, nofun⟩, ?_, ?_, Nat.zero_le _,
      nofun⟩, rfl,
      opened.trans grows, ?_, rfl, rfl, rfl, rfl, ?_, rfl, size⟩
    · show SlotsAfter 0 (c.plan.homes ++ [])
      rw [List.append_nil]
      exact planned.homes
    · exact planned.frame
    · intro entry mem
      obtain rfl : entry = (0, body) := List.mem_singleton.mp mem
      exact inside
    · simp [Lowering.entered, Lowering.endBlock]
    · exact .nil
    · subst function label
      refine .single ?_ _
      simp only [parts, List.mem_append, List.mem_map]
      exact .inr ⟨b, List.mem_of_getElem? block, rfl⟩
    · simp [Lowering.entered, Lowering.opened, Lowering.grow, Lowering.beginBlock, Lowering.endBlock,
        Lowering.freshLabel]

theorem lowerFunction_cases {source : IR.Program} {selector selector' : Selector} {f : IR.Function}
    {t : Target.Function} (ok : lowerFunction source selector f = .ok (t, selector')) :
    ∃ c frame s s', Lowers source selector f c frame s s' t selector' := by
  obtain ⟨⟨c', frame', args, s'⟩, lowered, ok⟩ := bind_ok.mp ok
  have whole := lowered
  unfold lowerBody at lowered
  cases planned : Plan.ofFunction f with
  | error defect =>
    rw [planned] at lowered
    cases lowered
  | ok plan =>
    rw [planned] at lowered
    obtain ⟨_, same, lowered⟩ := bind_ok.mp lowered
    cases same
    obtain ⟨⟨body, u⟩, labelled, lowered⟩ := bind_ok.mp lowered
    obtain ⟨refs, pool, registers, grows, numbered⟩ := freshRegisters_spec u.toSelector f.arity
    dsimp only at lowered
    rw [registers] at lowered
    obtain ⟨last, blocks, lowered⟩ := bind_ok.mp lowered
    cases lowered
    obtain ⟨t', added, ok⟩ := bind_ok.mp ok
    let frame := selector.program.pool.operands.size
    let c : Context := { source, function := f, plan,
                         epilogue := labelBase f.name "epilogue" ++ toString selector.program.labels }
    let prologue := labelBase f.name "prologue" ++ toString (selector.program.labels + 1)
    obtain ⟨code, pool', opens, grows', enters⟩ :=
      prologue_spec pool frame refs (List.mem_singleton_self body)
    obtain ⟨journal, emits⟩ := Lowering.emitSequence_eq
      ({ u with program := { u.program with pool }
                registers := u.registers + f.arity }.beginBlock prologue)
      (fun pool => Calling.prologue pool frame refs body) opens
    let s := u.entered prologue f.arity code pool' journal
    have blocks : s.blocks c f.blocks.length 0 = .ok s' := by
      rw [emits] at blocks
      exact blocks
    obtain ⟨code', pool'', closes, grows'', leaves⟩ := epilogue_spec s'.program.pool frame
    obtain ⟨journal', emits'⟩ := Lowering.emitSequence_eq (s'.beginBlock c.epilogue)
      (fun pool => Calling.epilogue pool frame) closes
    let w := ((s'.beginBlock c.epilogue).emitSequence fun pool => Calling.epilogue pool frame).endBlock
    have final : w = ((s'.beginBlock c.epilogue).grow pool'' s'.registers code' journal').endBlock :=
      congrArg Lowering.endBlock emits'
    let empty : Target.Function :=
      { name := f.name, args := refs, frameSize := w.frame.words, frame := some frame }
    have added : w.done.toList.foldlM Target.Function.addBlock empty = .ok t' := added
    have result : (t', { w.toSelector with
      program := { w.program with pool := w.program.pool.set frame (.imm w.frame.size) }
      journal := w.journal.recordFunction f.name t'.size }) = (t, selector') := Except.ok.inj ok
    obtain ⟨same, distinct⟩ := (addBlocks_iff (t := empty) List.nodup_nil).mp added
    rw [final] at same distinct result
    obtain ⟨rfl, rfl⟩ := Prod.mk.inj result
    obtain ⟨pl, planned'⟩ := Plan.ofFunction_ok planned
    obtain ⟨between, labels, opened, fresh, functions, entry, found, slots, done, start, enough⟩ :=
      entered_spec (c := c) rfl planned' labelled prologue f.arity code (grows.trans grows') journal
    refine ⟨c, frame, s, s', ⟨refs, whole⟩, rfl, rfl, planned, rfl, functions, entry, found, opened, slots, between,
      ⟨prologue, code, body, done, labels, ?_, ?_⟩, congrArg (· + f.arity) start, blocks, ⟨code', pool'', _, grows'', leaves, ?_, rfl⟩, ?_, ?_, ?_, ?_⟩
    · refine .cons (by simp [parts]) (Nat.le_refl _) ?_
      exact .cons (by simp [parts]) (Nat.le_refl _) fresh
    · have registers := numbered (s.site c (frame + 1)) grows' enough
      have arity : refs.length = f.arity := Nat.add_left_cancel registers.next_eq.symm
      refine enters (s.site c (frame + 1)) _ _ (.refl _) (Nat.le_trans enough grows.size)
        (fun j less => .inl (arity ▸ less)) ?_
      rw [← start]
      exact registers
    all_goals subst same
    · simp [empty, Lowering.endBlock, Lowering.grow, Lowering.beginBlock]
    · exact distinct
    · rfl
    · rfl
    · show w.frame.words = _
      rw [final]
      rfl

/-- The names of the blocks of a function that its jumps lead to: all but the prologue. -/
def inner (t : Target.Function) : List String := t.blocks.tail.map (·.name)

/-- Slots reserved for a function: homes and local variables, from the bottom of its frame on. -/
structure Reserves (E : Site) (slots : Slots) : Prop where
  placed : SlotsAfter 0 slots
  owners : (slots.map (·.1)).Nodup
  early : ∀ owner ∈ slots.map (·.1), ∃ v, owner = .home v ∨ owner = .alloca v
  words : slots.length = E.words

/-- A lowered function, which has its frame immediate at `frame` and uses the abstract registers from
`first` up to `next`. -/
structure Lowered (E : Site) (f : IR.Function) (frame : OperandRef) (first next : Nat)
    (t : Target.Function) (slots : Slots) : Prop where
  name : t.name = f.name
  framed : t.frame = some frame
  below : frame + 1 = E.least
  inside : frame < E.pool.operands.size
  words : t.frameSize.toNat = E.words % 2 ^ 32
  bound : E.words ≤ f.values.size
  placed : ∃ pl, Placed f pl
  params : E.params = f.Reads
  slots : Reserves E slots
  reserves : E.pool.get frame = .imm (Word.ofNat t.frameSize.toNat)
  blocks : ∃ prologue bodies epilogue middle, t.blocks = prologue :: bodies ++ [epilogue] ∧
    Entry E frame (inner t) first middle prologue.code ∧ Blocks E (inner t) middle next bodies ∧
    Exit E frame epilogue.code
  distinct : (t.blocks.map (·.name)).Nodup
  named : ∃ n m made, Fresh f n m made ∧ (t.blocks.map (·.name)).Perm made

/-- Homes and local variables have a slot each. -/
theorem reserves_of_framed {E : Site} (framed : Framed c s)
    (distinct : ((c.plan.homes ++ s.slots).map (·.1)).Nodup)
    (words : E.words = c.plan.homes.length + s.slots.length) : Reserves E (reserved c s) where
  placed := framed.reserved.congr (by simp [reserved, Function.comp_def])
  owners := by
    rw [List.map_append, List.nodup_append] at distinct
    obtain ⟨homes, slots, -⟩ := distinct
    have owners : (reserved c s).map (·.1) =
        (c.plan.homes.map (·.1)).map Owner.home ++ (s.slots.map (·.1)).reverse.map Owner.alloca := by
      simp [reserved, Function.comp_def]
    rw [owners, List.nodup_append]
    refine ⟨homes.map fun _ _ => Owner.home.inj, (List.nodup_reverse.mpr slots).map fun _ _ => Owner.alloca.inj,
      fun a mem b mem' same => ?_⟩
    obtain ⟨v, -, rfl⟩ := List.mem_map.mp mem
    obtain ⟨w, -, rfl⟩ := List.mem_map.mp mem'
    cases same
  early := by
    intro owner mem
    simp only [reserved, List.map_append, List.map_map, List.mem_append, List.mem_map] at mem
    rcases mem with ⟨entry, -, rfl⟩ | ⟨entry, -, rfl⟩
    · exact ⟨entry.1, .inl rfl⟩
    · exact ⟨entry.1, .inr rfl⟩
  words := by simp [reserved, words]

/-- From one selector to a later one. -/
structure Selector.Grows (source : IR.Program) (s s' : Selector) : Prop where
  functions : s'.program.functions = s.program.functions
  entry : s'.program.entry = s.program.entry
  pool : s.program.pool.Grows s'.program.pool
  found : s.found <+: s'.found
  known : Known source s.found → Known source s'.found

theorem Lowers.lowered {source : IR.Program} {selector selector' : Selector} {f : IR.Function}
    {frame : OperandRef} {t : Target.Function}
    (h : Lowers source selector f c frame s s' t selector') :
    ∃ E : Site, Lowered E f frame selector.registers selector'.registers t (reserved c s') ∧
      E.pool = selector'.program.pool ∧ E.found = selector'.found ∧
      frame = selector.program.pool.operands.size ∧ selector.Grows source selector' := by
  obtain ⟨pl, planned⟩ := Plan.ofFunction_ok h.plan
  obtain ⟨name, code, body, done, labels, fresh, enters⟩ := h.prologue
  obtain ⟨code', pool, journal, grows, leaves, blocks, rfl⟩ := h.epilogue
  have placed : ∀ b ∈ c.function.blocks, b.body ≠ [] ∧ WellListed c.function b.body := by
    rw [h.function]
    exact fun b mem => ⟨planned.placed.full b mem, planned.placed.listed b mem⟩
  obtain ⟨between, passes⟩ := blocks_spec placed (by rw [h.function, Nat.zero_add]) h.between h.blocks
  let E : Site := { s'.site c (frame + 1) with pool := pool.set frame (.imm s'.frame.size) }
  have inside : frame < pool.operands.size := Nat.lt_of_lt_of_le between.pool grows.size
  have other : ∀ {x}, x ≠ frame → E.pool.get x = pool.get x := fun ne => by
    show (pool.set frame _).get _ = _
    rw [Pool.get_set pool _ _ inside, if_neg ne]
  have size : E.pool.operands.size = pool.operands.size := by simp [E, Pool.set]
  have le' : ({ s'.site c (frame + 1) with pool := pool } : Site).Le E := .of_set (Nat.lt_succ_self frame) inside _
  have le : (s'.site c (frame + 1)).Le E := Site.Le.trans (.of_grows grows fun _ mem => mem) le'
  have made : s'.done.toList = { name, code } :: s'.bodies := by
    obtain ⟨more, eq⟩ := passes.done
    rw [Lowering.bodies, ← eq, done]
    rfl
  have all : t.blocks = { name, code } :: s'.bodies ++ [{ name := c.epilogue, code := code' }] := by
    rw [blocks, made]
  have targets : inner t = s'.bodies.map (·.name) ++ [c.epilogue] := by
    rw [inner, all]
    simp
  have known : s'.known c ⊆ inner t := by
    intro target mem
    rw [targets, List.mem_append, List.mem_singleton]
    rcases List.mem_append.mp mem with mem | mem
    · rcases List.mem_cons.mp mem with same | mem
      · exact .inr same
      · obtain ⟨entry, mem, rfl⟩ := List.mem_map.mp mem
        exact .inl (between.made entry (by rwa [List.take_length]))
    · exact .inl mem
  have first : body ∈ inner t := by
    refine known (List.mem_append_left _ (List.mem_cons_of_mem _ ?_))
    exact List.mem_map_of_mem (f := (·.2)) (passes.labels.subset (by rw [labels]; exact List.mem_singleton_self _))
  refine ⟨E, ⟨h.named, h.framed, rfl, size.symm ▸ inside, ?_, ?_, ⟨pl, planned.placed⟩,
    congrArg IR.Function.Reads h.function, ?_, ?_, ?_, h.distinct, ?_⟩, rfl, rfl, h.place,
    ⟨passes.functions.trans h.functions, passes.entry.trans h.entry, ?_, ?_, ?_⟩⟩
  · rw [h.size]
    exact between.framed.words
  · rw [← h.function]
    rw [← h.function] at planned
    exact between.slotted.bound planned between.labelled.distinct between.labelled.known
  · rw [← h.function] at planned
    exact reserves_of_framed between.framed
      (between.slotted.distinct planned between.labelled.distinct between.labelled.known) rfl
  · show (pool.set frame _).get _ = _
    rw [Pool.get_set pool _ _ inside, if_pos rfl, h.size]
    rfl
  · refine ⟨_, s'.bodies, _, s.registers, all, ?_, between.done.mono le known, ?_⟩
    · refine enters.mono (passes.le.trans le) fun target mem => ?_
      obtain rfl := List.mem_singleton.mp mem
      exact first
    · exact (leaves { s'.site c (frame + 1) with pool := pool } (.refl _) between.pool).mono le'
  · obtain ⟨extra, fresh', perm⟩ := passes.named
    rw [h.function] at fresh'
    refine ⟨_, _, _, fresh.append fresh', ?_⟩
    rw [all, List.cons_append, ← List.cons_append, ← made]
    simp only [done, labels, List.drop_length, List.drop_zero, List.map_nil, List.append_nil, List.map_cons,
      List.map_append] at perm ⊢
    exact (List.perm_append_comm.trans (List.Perm.cons _ perm)).trans (by simp)
  · have grown := h.pool.trans (passes.pool.trans grows)
    refine ⟨Nat.le_trans grown.size (Nat.le_of_eq size.symm), fun {x} old => ?_⟩
    have ne : x ≠ frame := Nat.ne_of_lt (h.place ▸ old)
    exact (other ne).trans (grown.get old)
  · exact h.found ▸ passes.found
  · have known := passes.known
    rw [h.source, h.found] at known
    exact known

end Codegen86.Selection
