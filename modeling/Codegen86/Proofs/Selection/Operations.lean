import Codegen86.Proofs.Except
import Codegen86.Proofs.Selection.Names
/-!
# Lowering operation by operation

`Sound` is what holds while a block is under construction, `Ended` what holds when a transfer of control
has ended it.  `operation_spec` says that every operation but a transfer of control keeps `Sound`, and
`terminator_spec` that a transfer of control leads to `Ended`; what was made before stays (`Grown`), and
the names of blocks are new labels (`Advances`).
-/

set_option autoImplicit false

namespace Codegen86.Selection

open Target IR

variable {c : Context} {least : OperandRef} {start first : Nat} {s s' s'' : Lowering} {v : ValueId}
  {x : OperandRef}

/-! ## Invariants -/

/-- What was made stays as it is. -/
structure Grown (s s' : Lowering) : Prop where
  functions : s'.program.functions = s.program.functions
  entry : s'.program.entry = s.program.entry
  counter : s.program.labels ≤ s'.program.labels
  registers : s.registers ≤ s'.registers
  found : s.found <+: s'.found
  pool : s.program.pool.Grows s'.program.pool
  labels : s.labels <+: s'.labels
  slots : s.slots <:+ s'.slots
  done : s.done.toList <+: s'.done.toList
  block : s'.name = s.name ∧ s'.done = s.done ∧ s.code.toList <+: s'.code.toList ∨
    ∃ rest more, s'.done.toList =
      s.done.toList ++ { name := s.name, code := s.code.toList ++ rest } :: more

namespace Grown

theorem refl (s : Lowering) : Grown s s :=
  ⟨rfl, rfl, Nat.le_refl _, Nat.le_refl _, List.prefix_refl _, .refl _, List.prefix_refl _,
    List.suffix_refl _, List.prefix_refl _, .inl ⟨rfl, rfl, List.prefix_refl _⟩⟩

theorem trans (h : Grown s s') (h' : Grown s' s'') : Grown s s'' where
  functions := h'.functions.trans h.functions
  entry := h'.entry.trans h.entry
  counter := Nat.le_trans h.counter h'.counter
  registers := Nat.le_trans h.registers h'.registers
  found := h.found.trans h'.found
  pool := h.pool.trans h'.pool
  labels := h.labels.trans h'.labels
  slots := h.slots.trans h'.slots
  done := h.done.trans h'.done
  block := by
    rcases h.block with ⟨name, done, code⟩ | ⟨rest, more, eq⟩
    · obtain ⟨added, code⟩ := code
      rcases h'.block with ⟨name', done', code'⟩ | ⟨rest, more, eq⟩
      · exact .inl ⟨name'.trans name, done'.trans done, List.IsPrefix.trans ⟨added, code⟩ code'⟩
      · refine .inr ⟨added ++ rest, more, ?_⟩
        rw [eq, name, done, ← code, List.append_assoc]
    · obtain ⟨others, done⟩ := h'.done
      exact .inr ⟨rest, more ++ others, by rw [← done, eq, List.append_assoc, List.cons_append]⟩

theorem le (h : Grown s s') : (s.site c least).Le (s'.site c least) where
  size := h.pool.size
  least := rfl
  get inside := h.pool.get inside.2
  words := Nat.add_le_add_left h.slots.length_le _
  found := h.found.subset
  params := id

end Grown

theorem Emits.grown {code : List Instruction} (h : Emits c least first s s' code) : Grown s s' where
  functions := h.functions
  entry := h.entry
  counter := h.counter
  registers := h.made.next_le
  found := h.found
  pool := h.pool
  labels := h.labels ▸ List.prefix_refl _
  slots := h.slots ▸ List.suffix_refl _
  done := h.done ▸ List.prefix_refl _
  block := .inl ⟨h.name, h.done, code, h.added.symm⟩

/-- The names of the blocks made, of the one under construction, and of those found from position `k`
on. -/
def Lowering.names (s : Lowering) (k : Nat) : List String :=
  s.done.toList.map (·.name) ++ s.name :: (s.labels.drop k).map (·.2)

/-- What was made stays; new blocks have new names, and new functions found are new ones. -/
structure Advances (c : Context) (s s' : Lowering) : Prop extends Grown s s' where
  known : Known c.source s.found → Known c.source s'.found
  named : ∃ extra, Fresh c.function s.program.labels s'.program.labels extra ∧
    ∀ k ≤ s.labels.length, (s'.names k).Perm (s.names k ++ extra)

namespace Advances

theorem refl (s : Lowering) : Advances c s s :=
  ⟨.refl s, id, [], .nil (Nat.le_refl _), fun k _ => by simp⟩

theorem trans (h : Advances c s s') (h' : Advances c s' s'') : Advances c s s'' := by
  obtain ⟨extra, fresh, perm⟩ := h.named
  obtain ⟨extra', fresh', perm'⟩ := h'.named
  refine ⟨h.toGrown.trans h'.toGrown, h'.known ∘ h.known, extra ++ extra', fresh.append fresh',
    fun k inside => ?_⟩
  have := (perm' k (Nat.le_trans inside h.labels.length_le)).trans ((perm k inside).append_right extra')
  rwa [List.append_assoc] at this

/-- No name is added. -/
theorem of_grown (h : Grown s s') (known : Known c.source s.found → Known c.source s'.found)
    (same : ∀ k, s'.names k = s.names k) : Advances c s s' :=
  ⟨h, known, [], .nil h.counter, fun k _ => by rw [same, List.append_nil]⟩

end Advances

theorem Emits.advances {code : List Instruction} (h : Emits c least first s s' code) :
    Advances c s s' :=
  .of_grown h.grown h.known fun k => by simp only [Lowering.names, h.done, h.name, h.labels]

/-- The blocks found, each once. -/
structure Labelled (c : Context) (s : Lowering) : Prop where
  distinct : (s.labels.map (·.1)).Nodup
  known : ∀ entry ∈ s.labels, entry.1 < c.function.blocks.length

/-- The frame: homes and local variables have words one after another. -/
structure Framed (c : Context) (s : Lowering) : Prop where
  reserved : SlotsAfter 0 (c.plan.homes ++ s.slots.reverse)
  words : s.frame.words.toNat = (c.plan.homes.length + s.slots.length) % 2 ^ 32

/-- What holds while a block is under construction.  The registers of the blocks behind the prologue are
numbered from `start` on, those of the block from `first` on. -/
structure Sound (c : Context) (least : OperandRef) (start first : Nat) (s : Lowering) : Prop where
  holding : Holding c least first s
  framed : Framed c s
  labelled : Labelled c s
  made : (s.site c least).Code first first 0 s.code.toList s.registers 0
  entered : s.done.toList ≠ []
  done : Blocks (s.site c least) (s.targets c) start first s.bodies

/-- What holds when a block is finished, but not put away yet. -/
structure Ended (c : Context) (least : OperandRef) (start first : Nat) (s : Lowering) : Prop where
  pool : least ≤ s.program.pool.operands.size
  framed : Framed c s
  labelled : Labelled c s
  emitted : Emitted (s.site c least) (s.targets c) first s.registers
    { name := s.name, code := s.code.toList }
  entered : s.done.toList ≠ []
  done : Blocks (s.site c least) (s.targets c) start first s.bodies

/-! ### Reserved words -/

theorem Framed.local (h : Framed c s) {entry : ValueId × Word}
    (mem : entry ∈ c.plan.homes ∨ entry ∈ s.slots) : (s.site c least).Local entry.2 := by
  have mem : entry ∈ c.plan.homes ++ s.slots.reverse := by simpa using mem
  obtain ⟨j, positive, most, eq⟩ := h.reserved.offset mem
  refine ⟨j, positive, ?_, eq⟩
  simpa [Lowering.site] using most

theorem Framed.of_eq (h : Framed c s) (slots : s'.slots = s.slots) (frame : s'.frame = s.frame) :
    Framed c s' := by
  constructor
  · rw [slots]
    exact h.reserved
  · rw [slots, frame]
    exact h.words

theorem Sound.emits (h : Sound c least start first s) {code : List Instruction}
    (e : Emits c least first s s' code) : Sound c least start first s' where
  holding := h.holding.emits e
  framed := h.framed.of_eq e.slots e.frame
  labelled := by
    constructor
    · rw [e.labels]
      exact h.labelled.distinct
    · rw [e.labels]
      exact h.labelled.known
  made := by
    rw [e.added]
    exact (h.made.mono e.le).append e.made
  entered := by
    rw [e.done]
    exact h.entered
  done := by
    have bodies : s'.bodies = s.bodies := by simp only [Lowering.bodies, e.done]
    rw [bodies]
    refine h.done.mono e.le ?_
    simp [Lowering.targets, e.labels, bodies, e.name]

/-! ## Straight operations -/

/-- A register that holds a value, and how it came to. -/
inductive Resolved (c : Context) (least : OperandRef) (first : Nat) (s : Lowering) (v : ValueId)
    (x : OperandRef) (s' : Lowering) : Prop
  | held (found : s.held.lookup v = some x) (same : s' = s)
  | loaded {o : Operand} (absent : s.held.lookup v = none) (source : Lowering.sourceOf c v = .ok o)
      (loads : (s.site c least).Loads o) (register : x = (s.load o).1)
      (same : s' = { (s.load o).2 with held := (v, x) :: (s.load o).2.held })

theorem Sound.sourceOf (h : Sound c least start first s) {o : Operand}
    (source : Lowering.sourceOf c v = .ok o) : (s.site c least).Loads o := by
  unfold Lowering.sourceOf at source
  split at source
  · rename_i index param
    cases source
    exact .arg (.inr ⟨v, param⟩)
  · cases source
  · split at source
    · rename_i offset home
      cases source
      exact .slot (h.framed.local (.inl (mem_of_lookup home)))
    · cases source

theorem Sound.resolved (h : Sound c least start first s) (ok : s.resolve c v = .ok (x, s')) :
    Resolved c least first s v x s' := by
  unfold Lowering.resolve at ok
  split at ok
  · rename_i ref found
    cases ok
    exact .held found rfl
  · rename_i absent
    obtain ⟨o, source, ok⟩ := bind_ok.mp ok
    cases ok
    exact .loaded absent source (h.sourceOf source) rfl rfl

theorem Resolved.spec (h : Sound c least start first s) (r : Resolved c least first s v x s') :
    ∃ code, Emits c least first s s' code ∧ (s'.site c least).Held first s'.registers x := by
  cases r with
  | held found same =>
    subst same
    exact ⟨[], .refl _, h.holding.held _ (mem_of_lookup found)⟩
  | @loaded o absent source loads register same =>
    have loaded := load_spec h.holding loads
    obtain ⟨y, emits, -⟩ := loaded.emits
    have held := loaded.held h.holding.registers
    rw [← register] at held emits
    subst same
    exact ⟨_, emits.trans (.hold held), held⟩

theorem resolve_spec (h : Sound c least start first s) (ok : s.resolve c v = .ok (x, s')) :
    ∃ code, Emits c least first s s' code ∧ (s'.site c least).Held first s'.registers x :=
  (h.resolved ok).spec h

theorem resolveAll_spec {values : List ValueId} {refs : List OperandRef}
    (h : Sound c least start first s) (ok : s.resolveAll c values = .ok (refs, s')) :
    ∃ code, Emits c least first s s' code ∧
      ∀ x ∈ refs, (s'.site c least).Held first s'.registers x := by
  induction values generalizing s refs with
  | nil =>
    cases ok
    exact ⟨[], .refl _, nofun⟩
  | cons v rest ih =>
    obtain ⟨⟨x, t⟩, one, ok⟩ := bind_ok.mp ok
    obtain ⟨⟨others, t'⟩, more, ok⟩ := bind_ok.mp ok
    cases ok
    obtain ⟨code, emits, held⟩ := resolve_spec h one
    obtain ⟨code', emits', held'⟩ := ih (h.emits emits) more
    refine ⟨_, emits.trans emits', fun y mem => ?_⟩
    rcases List.mem_cons.mp mem with rfl | mem
    · exact held.mono emits'.le emits'.made.next_le
    · exact held' y mem

theorem define_spec (h : Sound c least start first s)
    (held : (s.site c least).Held first s.registers x) :
    ∃ code, Emits c least first s (s.define c v x) code := by
  have holds : Emits c least first s { s with held := (v, x) :: s.held } [] := .hold held
  unfold Lowering.define
  dsimp only
  split
  · exact ⟨_, holds⟩
  · rename_i offset home
    have kept := h.emits holds
    obtain ⟨slot, stores, -⟩ := storeRegister_spec kept.holding
      (kept.framed.local (.inl (mem_of_lookup home))) held
    exact ⟨_, holds.trans stores⟩

theorem defineByMove_spec (h : Sound c least start first s) {o : Operand}
    (loads : (s.site c least).Loads o) :
    ∃ code, Emits c least first s (s.defineByMove c v o) code := by
  have loaded := load_spec h.holding loads
  obtain ⟨y, emits, -⟩ := loaded.emits
  obtain ⟨code, defines⟩ := define_spec (v := v) (h.emits emits) (loaded.held h.holding.registers)
  exact ⟨_, emits.trans defines⟩

theorem arith_spec {op : Arith} {l r : ValueId} (h : Sound c least start first s)
    (ok : s.arith c v op l r = .ok s') : ∃ code, Emits c least first s s' code := by
  obtain ⟨⟨left, t⟩, one, ok⟩ := bind_ok.mp ok
  obtain ⟨⟨right, t'⟩, two, ok⟩ := bind_ok.mp ok
  cases ok
  obtain ⟨code, emits, held⟩ := resolve_spec h one
  have h := h.emits emits
  obtain ⟨code', emits', held'⟩ := resolve_spec h two
  have h := h.emits emits'
  obtain ⟨copies, target, next, -⟩ := copy_spec h.holding (held.mono emits'.le emits'.made.next_le)
  have result : ((t'.freshRegister.2.emit (.mov t'.freshRegister.1 left)).site c least).Held first
      (t'.freshRegister.2.emit (.mov t'.freshRegister.1 left)).registers t'.freshRegister.1 :=
    ⟨_, h.holding.registers, by omega, target⟩
  have h := h.emits copies
  have computes : Emits c least first _ _ [.arith op _ _] := emit_spec (.arith result (held'.mono copies.le copies.made.next_le))
  obtain ⟨code'', defines⟩ := define_spec (v := v) (h.emits computes)
    (result.mono computes.le computes.made.next_le)
  exact ⟨_, (((emits.trans emits').trans copies).trans computes).trans defines⟩

theorem slotOf_spec (h : Sound c least start first s) {mnemonic : String} {offset : Word}
    (ok : s.slotOf c v mnemonic = .ok offset) :
    s.slots.lookup v = some offset ∧ (s.site c least).Local offset := by
  unfold Lowering.slotOf at ok
  split at ok
  · rename_i off found
    cases ok
    exact ⟨found, h.framed.local (.inr (mem_of_lookup found))⟩
  · cases ok

theorem store_spec {addr value : ValueId} (h : Sound c least start first s)
    (ok : s.store c addr value = .ok s') : ∃ code, Emits c least first s s' code := by
  obtain ⟨offset, slot, ok⟩ := bind_ok.mp ok
  obtain ⟨⟨source, t⟩, one, ok⟩ := bind_ok.mp ok
  cases ok
  obtain ⟨code, emits, held⟩ := resolve_spec h one
  obtain ⟨place, stores, -⟩ := storeRegister_spec (h.emits emits).holding
    ((slotOf_spec h slot).2.mono emits.le) held
  exact ⟨_, emits.trans stores⟩

/-- A function that is called is found. -/
theorem call_spec {callee : Callee} {args : List ValueId} (h : Sound c least start first s)
    (ok : s.call c v callee args = .ok s') :
    (∃ code, Emits c least first s s' code) ∧ ∀ name, callee = .direct name → name ∈ s'.found := by
  unfold Lowering.call at ok
  split at ok
  · cases ok
  · rename_i name
    split at ok
    · cases ok
    · rename_i target found
      have there : (c.source.function? name).isSome = true := by rw [found]; rfl
      split at ok
      · cases ok
      · obtain ⟨⟨registers, t⟩, all, ok⟩ := bind_ok.mp ok
        obtain ⟨finds, known⟩ := find_spec c least first s there
        have h := h.emits finds
        obtain ⟨code, emits, held⟩ := resolveAll_spec h all
        have h := h.emits emits
        have known := emits.found.subset known
        obtain ⟨u, label, drop, eq, calls, -⟩ := callSequence_spec h.holding known held
        have known := calls.found.subset known
        dsimp only at ok
        rw [eq] at ok
        have h := h.emits calls
        split at ok
        · cases ok
          obtain ⟨code', defines⟩ := defineByMove_spec (v := v) h .result
          refine ⟨⟨_, ((finds.trans emits).trans calls).trans defines⟩, ?_⟩
          rintro _ ⟨⟩
          exact defines.found.subset known
        · cases ok
          refine ⟨⟨_, (finds.trans emits).trans calls⟩, ?_⟩
          rintro _ ⟨⟩
          exact known

/-! ## Local variables -/

/-- A word of the frame becomes the slot of a local variable. -/
theorem reserve_sound (h : Sound c least start first s) :
    let t := { s with frame := s.frame.reserve.2, slots := (v, s.frame.reserve.1) :: s.slots }
    Sound c least start first t ∧ Advances c s t ∧ (t.site c least).Local s.frame.reserve.1 := by
  intro t
  obtain ⟨offset, words⟩ := Frame.reserve_spec h.framed.words
  have grown : Grown s t :=
    { Grown.refl s with slots := List.suffix_cons _ _ }
  have framed : Framed c t := by
    constructor
    · show SlotsAfter 0 (c.plan.homes ++ ((v, s.frame.reserve.1) :: s.slots).reverse)
      rw [List.reverse_cons, ← List.append_assoc]
      refine h.framed.reserved.snoc v (offset.trans ?_)
      simp
    · exact words
  refine ⟨⟨⟨h.holding.pool, h.holding.registers, fun entry mem => ?_⟩, framed,
    ⟨h.labelled.distinct, h.labelled.known⟩, h.made.mono grown.le, h.entered,
    h.done.mono grown.le fun _ mem => mem⟩,
    .of_grown grown id fun _ => rfl, ?_⟩
  · exact (h.holding.held entry mem).mono grown.le (Nat.le_refl _)
  · exact show _ from framed.local (.inr List.mem_cons_self)

theorem alloca_spec {bytes : Nat} (h : Sound c least start first s)
    (ok : s.alloca c v bytes = .ok s') : Sound c least start first s' ∧ Advances c s s' := by
  unfold Lowering.alloca at ok
  split at ok
  · cases ok
  · rename_i offset frame reserved
    unfold Frame.reserveBytes? at reserved
    split at reserved
    · cases reserved
    · cases reserved
      cases ok
      obtain ⟨sound, advances, place⟩ := reserve_sound (v := v) h
      obtain ⟨slot, source, stores, -⟩ := emitStore_spec 0 sound.holding place
      exact ⟨sound.emits stores, advances.trans stores.advances⟩

/-! ## Comparisons whose values are kept -/

/-- The end of a block, and the beginning of another. -/
theorem grown_next {pool : Pool} {closing : List Instruction} {journal : Journal}
    (grows : s.program.pool.Grows pool) (name : String) :
    Grown s ((s.grow pool s.registers closing journal).endBlock.beginBlock name) where
  functions := rfl
  entry := rfl
  counter := Nat.le_refl _
  registers := Nat.le_refl _
  found := List.prefix_refl _
  pool := grows
  labels := List.prefix_refl _
  slots := List.suffix_refl _
  done := by simp [Lowering.beginBlock, Lowering.endBlock, Lowering.grow]
  block := .inr ⟨closing, [], by simp [Lowering.beginBlock, Lowering.endBlock, Lowering.grow]⟩

/-- How a comparison splits its block: `u` is what was made up to the comparison. -/
structure Splits (c : Context) (least : OperandRef) (u : Lowering) (x y : OperandRef)
    (condition : Condition) (offset : Word) (otherwise join : String) (s' : Lowering) : Prop where
  blocks : ∃ z w slot cleared q, s'.done.toList = u.done.toList ++
      [{ name := u.name, code := u.code.toList ++ [.cmp x y, .jumpIf condition z, .jump w] },
        { name := otherwise, code := [.mov slot cleared, .jump q] }] ∧
    (s'.site c least).Is z (.symbol join) ∧ (s'.site c least).Is w (.symbol otherwise) ∧
    (s'.site c least).Is slot (.frameSlot offset) ∧ (s'.site c least).Is cleared (.imm 0) ∧
    (s'.site c least).Is q (.symbol join)
  name : s'.name = join
  code : s'.code = #[]
  held : s'.held = []
  labels : s'.labels = u.labels
  slots : s'.slots = u.slots
  frame : s'.frame = u.frame
  registers : s'.registers = u.registers
  found : s'.found = u.found
  counter : s'.program.labels = u.program.labels
  grown : Grown u s'

/-- Comparing, and setting a word to zero unless the comparison holds. -/
def Lowering.split (u : Lowering) (x y : OperandRef) (condition : Condition) (offset : Word)
    (otherwise join : String) : Lowering :=
  let s := (((u.emit (.cmp x y)).emitJumpIf condition join).emitJump otherwise).endBlock
  let s := (((s.beginBlock otherwise).emitStore offset (.imm 0)).emitJump join).endBlock
  s.beginBlock join

theorem split_spec {u : Lowering} (h : Sound c least start first u) {x y : OperandRef}
    {condition : Condition} {offset : Word} {otherwise join : String}
    (reserved : (u.site c least).Local offset) :
    Splits c least u x y condition offset otherwise join
      (u.split x y condition offset otherwise join) := by
  obtain ⟨z, w, pool, journal, closes, grows, target, target'⟩ :=
    test_spec c h.holding.pool x y condition join otherwise
  let t := (u.grow pool u.registers [.cmp x y, .jumpIf condition z, .jump w] journal).endBlock.beginBlock
    otherwise
  have ends : Grown u t := grown_next grows otherwise
  have holding : Holding c least t.registers t :=
    ⟨Nat.le_trans h.holding.pool grows.size, Nat.le_refl _, nofun⟩
  obtain ⟨slot, cleared, stores, place, value⟩ :=
    emitStore_spec 0 holding (reserved.mono ends.le)
  obtain ⟨q, pool', journal', leaves, grows', target''⟩ :=
    emitJump_spec c (holding.emits stores).pool join
  have ends' : Grown (t.emitStore offset (.imm 0))
      (((t.emitStore offset (.imm 0)).grow pool' _ [.jump q] journal').endBlock.beginBlock join) :=
    grown_next grows' join
  have eq : u.split x y condition offset otherwise join =
      ((t.emitStore offset (.imm 0)).grow pool' (t.emitStore offset (.imm 0)).registers [.jump q]
        journal').endBlock.beginBlock join := by
    rw [← leaves]
    simp only [Lowering.split, closes, t]
  have grown := (ends.trans stores.grown).trans ends'
  have le' : ((t.emitStore offset (.imm 0)).site c least).Le
      ((u.split x y condition offset otherwise join).site c least) := eq ▸ ends'.le
  have le : (t.site c least).Le ((u.split x y condition offset otherwise join).site c least) :=
    eq ▸ (stores.grown.trans ends').le
  have registers : (t.emitStore offset (.imm 0)).registers = u.registers := rfl
  refine ⟨⟨z, w, slot, cleared, q, ?_, target.mono le, target'.mono le, place.mono le', value.mono le', ?_⟩,
    ?_, ?_, ?_, ?_, ?_, ?_, ?_, ?_, ?_, eq ▸ grown⟩
  · rw [eq]
    have name : (t.emitStore offset (.imm 0)).name = otherwise := stores.name
    have code : (t.emitStore offset (.imm 0)).code.toList = [.mov slot cleared] := stores.added
    have done : (t.emitStore offset (.imm 0)).done = u.done.push
        { name := u.name, code := (u.code ++ [Instruction.cmp x y, .jumpIf condition z, .jump w]).toList } :=
      stores.done
    generalize t.emitStore offset (.imm 0) = t' at *
    simp [Lowering.beginBlock, Lowering.endBlock, Lowering.grow, done, name, code]
  · rw [eq]
    exact target''
  · rw [eq]
    rfl
  · rw [eq]
    rfl
  · rw [eq]
    rfl
  · rw [eq]
    exact stores.labels
  · rw [eq]
    exact stores.slots
  · rw [eq]
    exact stores.frame
  · rw [eq]
    exact registers
  · rw [eq]
    rfl
  · rw [eq]
    rfl

/-- How a comparison whose value is kept is lowered: `u` is what was made up to the comparison. -/
structure Compares (c : Context) (least : OperandRef) (first : Nat) (s : Lowering) (v : ValueId)
    (op : Comparison) (l r : ValueId) (u : Lowering) (x y : OperandRef) (offset : Word)
    (otherwise join : String) (s' : Lowering) : Prop where
  home : c.plan.homes.lookup v = some offset
  resolved : ∃ t t', s.resolve c l = .ok (x, t) ∧ t.resolve c r = .ok (y, t') ∧
    ∃ slot one, Emits c least first t' u [.mov slot one] ∧ (u.site c least).Is slot (.frameSlot offset) ∧
      (u.site c least).Is one (.imm 1)
  held : (u.site c least).Held first u.registers x ∧ (u.site c least).Held first u.registers y
  emits : ∃ code, Emits c least first s u code
  fresh : Fresh c.function s.program.labels u.program.labels [otherwise, join]
  splits : Splits c least u x y (.ofComparison op) offset otherwise join s'

theorem compare_cases {op : Comparison} {l r : ValueId} (h : Sound c least start first s)
    (ok : s.compare c v op l r = .ok s') :
    ∃ u x y offset otherwise join,
      Compares c least first s v op l r u x y offset otherwise join s' := by
  unfold Lowering.compare at ok
  split at ok
  · cases ok
  · rename_i offset home
    obtain ⟨⟨x, t⟩, one, ok⟩ := bind_ok.mp ok
    obtain ⟨⟨y, t'⟩, two, ok⟩ := bind_ok.mp ok
    cases ok
    obtain ⟨code, emits, held⟩ := resolve_spec h one
    have kept := h.emits emits
    obtain ⟨code', emits', held'⟩ := resolve_spec kept two
    have kept := kept.emits emits'
    have labels := (freshLabel_spec c least first t' (labelBase c.function.name "cmp_false")).trans
      (freshLabel_spec c least first _ (labelBase c.function.name "cmp_join"))
    have kept := kept.emits labels
    have place : Site.Local (Lowering.site c least _) offset :=
      kept.framed.local (.inl (mem_of_lookup home))
    obtain ⟨slot, one', stores, is, is'⟩ := emitStore_spec 1 kept.holding place
    have all := (emits'.trans labels).trans stores
    refine ⟨_, x, y, offset, _, _, home, ⟨t, t', one, two, slot, one', labels.trans stores, is, is'⟩,
      ⟨held.mono all.le all.made.next_le, ?_⟩, ⟨_, emits.trans all⟩, ?_,
      split_spec (kept.emits stores) (place.mono stores.le)⟩
    · exact held'.mono (labels.trans stores).le (labels.trans stores).made.next_le
    · have leaves : "cmp_false" ∈ parts c.function := by simp [parts]
      have joins : "cmp_join" ∈ parts c.function := by simp [parts]
      have counted := (Fresh.single leaves t'.program.labels).append
        (Fresh.single joins (t'.program.labels + 1))
      exact counted.weaken (emits.trans emits').counter

theorem Compares.spec {op : Comparison} {l r : ValueId} {u : Lowering} {y : OperandRef} {offset : Word}
    {otherwise join : String} (h : Sound c least start first s)
    (compares : Compares c least first s v op l r u x y offset otherwise join s') :
    Sound c least start s'.registers s' ∧ Advances c s s' := by
  obtain ⟨code, emits⟩ := compares.emits
  have kept := h.emits emits
  have splits := compares.splits
  obtain ⟨z, w, slot, cleared, q, done, target, target', place, value, target''⟩ := splits.blocks
  have le : (u.site c least).Le (s'.site c least) := splits.grown.le
  have bodies : s'.bodies = u.bodies ++
      [{ name := u.name,
          code := u.code.toList ++ [.cmp x y, .jumpIf (.ofComparison op) z, .jump w] },
        { name := otherwise, code := [.mov slot cleared, .jump q] }] := by
    rw [Lowering.bodies, done, List.tail_append_of_ne_nil kept.entered]
    rfl
  have joins : join ∈ s'.targets c := by simp [Lowering.targets, splits.name]
  have leaves : otherwise ∈ s'.targets c := by simp [Lowering.targets, bodies]
  have targets : u.targets c ⊆ s'.targets c := by
    intro name mem
    simp only [Lowering.targets, splits.labels, bodies] at mem ⊢
    simp at mem ⊢
    rcases mem with same | found | made | same
    · exact .inl same
    · exact .inr (.inl found)
    · exact .inr (.inr (.inl made))
    · exact .inr (.inr (.inr (.inl same)))
  have same := splits.registers
  have first' : first ≤ u.registers := kept.holding.registers
  have advances : Advances c s s' := by
    refine ⟨emits.grown.trans splits.grown, ?_, [otherwise, join], ?_, fun k _ => ?_⟩
    · rw [splits.found]
      exact emits.known
    · rw [splits.counter]
      exact compares.fresh
    · simp only [Lowering.names, done, splits.name, splits.labels, emits.done, emits.name, emits.labels,
        List.map_append, List.map_cons, List.map_nil, List.append_assoc]
      refine List.Perm.append_left _ (List.Perm.cons _ ?_)
      show ([otherwise, join] ++ _).Perm _
      exact List.perm_append_comm
  refine ⟨⟨⟨Nat.le_trans kept.holding.pool splits.grown.pool.size, Nat.le_refl _, ?_⟩,
    kept.framed.of_eq splits.slots splits.frame, ?_, ?_, ?_, ?_⟩, advances⟩
  · rw [splits.held]
    nofun
  · exact ⟨splits.labels ▸ kept.labelled.distinct, splits.labels ▸ kept.labelled.known⟩
  · rw [splits.code]
    exact .nil
  · rw [done]
    simp
  · rw [bodies]
    refine (kept.done.mono le targets).append (.cons (b := { name := u.name, code := _ })
      ⟨_, _, rfl, kept.made.mono le, ?_⟩ ?_)
    · exact .test (compares.held.1.mono le (Nat.le_refl _))
        (.held (compares.held.2.mono le (Nat.le_refl _))) target joins target' leaves
    · rw [same]
      refine .cons ⟨[.mov slot cleared], [.jump q], rfl, ?_, .jump target'' joins⟩ .nil
      obtain ⟨j, positive, most, eq⟩ :=
        (kept.framed.local (.inl (mem_of_lookup compares.home))).mono le
      exact .single (.store ⟨j, positive, most, eq⟩ place (.imm value))

/-! ## Labels of blocks -/

/-- The label of a block, a new one if it has none. -/
inductive Labels (c : Context) (s : Lowering) (id : BlockId) (label : String) (s' : Lowering) : Prop
  | known (found : s.labels.lookup id = some label) (same : s' = s)
  | new {b : IR.Block} (absent : s.labels.lookup id = none) (block : c.function.blocks[id]? = some b)
      (name : label = labelBase c.function.name b.name ++ toString s.program.labels)
      (same : s' = { (s.freshLabel (labelBase c.function.name b.name)).2 with
        labels := s.labels ++ [(id, label)] })

theorem labelOf_cases {id : BlockId} {label : String} (ok : s.labelOf c id = .ok (label, s')) :
    Labels c s id label s' := by
  unfold Lowering.labelOf at ok
  split at ok
  · rename_i found
    cases ok
    exact .known found rfl
  · rename_i absent
    split at ok
    · cases ok
    · rename_i b block
      cases ok
      exact .new absent block rfl rfl

theorem Labels.spec {id : BlockId} {label : String} (h : Sound c least start first s)
    (labels : Labels c s id label s') :
    Sound c least start first s' ∧ Advances c s s' ∧ (id, label) ∈ s'.labels := by
  cases labels with
  | known found same =>
    subst same
    exact ⟨h, .refl _, mem_of_lookup found⟩
  | @new b absent block name same =>
    have inside : id < c.function.blocks.length := (List.getElem?_eq_some_iff.mp block).1
    have new : id ∉ s.labels.map (·.1) := lookup_eq_none.mp absent
    subst same
    refine ⟨⟨⟨h.holding.pool, h.holding.registers, h.holding.held⟩, ⟨h.framed.reserved, h.framed.words⟩,
      ⟨?_, fun entry mem => ?_⟩, h.made, h.entered, ?_⟩, ?_, by simp⟩
    · show ((s.labels ++ [(id, label)]).map (·.1)).Nodup
      rw [List.map_append, List.nodup_append]
      refine ⟨h.labelled.distinct, by simp, fun a mem b mem' => ?_⟩
      obtain rfl : b = id := by simpa using mem'
      exact fun same => new (same ▸ mem)
    · have mem : entry ∈ s.labels ++ [(id, label)] := mem
      rcases List.mem_append.mp mem with mem | mem
      · exact h.labelled.known entry mem
      · obtain rfl := List.mem_singleton.mp mem
        exact inside
    · refine h.done.mono
        ⟨Nat.le_refl _, rfl, fun _ => rfl, Nat.le_refl _, fun _ mem => mem, fun param => param⟩ ?_
      intro target mem
      simp only [Lowering.targets, Lowering.freshLabel, Selector.freshLabel, List.map_append] at mem ⊢
      simp at mem ⊢
      rcases mem with same | found | made | same
      · exact .inl same
      · exact .inr (.inl found)
      · exact .inr (.inr (.inr (.inl made)))
      · exact .inr (.inr (.inr (.inr same)))
    · refine ⟨{ Grown.refl s with
        counter := Nat.le_succ _
        labels := List.prefix_append _ _ }, fun known => known, [label], ?_, fun k inside => ?_⟩
      · subst name
        refine .single ?_ _
        simp only [parts, List.mem_append, List.mem_map]
        exact .inr ⟨b, List.mem_of_getElem? block, rfl⟩
      · show List.Perm (_ ++ s.name :: ((s.labels ++ [(id, label)]).drop k).map (·.2)) _
        rw [List.drop_append_of_le_length inside]
        simp [Lowering.names, Lowering.freshLabel]

theorem mem_targets {entry : BlockId × String} (mem : entry ∈ s.labels) : entry.2 ∈ s.targets c := by
  simp only [Lowering.targets, List.mem_append, List.mem_cons]
  exact .inl (.inl (.inr (List.mem_map_of_mem mem)))

theorem Grown.labelled (h : Grown s s') {entry : BlockId × String} (mem : entry ∈ s.labels) :
    entry ∈ s'.labels := h.labels.subset mem

/-! ## Transfers of control -/

theorem Sound.close (h : Sound c least start first s) {closing : List Instruction} {pool : Pool}
    {journal : Journal} (grows : s.program.pool.Grows pool)
    (closes : ((s.grow pool s.registers closing journal).site c least).Closes (s.targets c) first
      s.registers closing) :
    Ended c least start first (s.grow pool s.registers closing journal) ∧
      Advances c s (s.grow pool s.registers closing journal) := by
  have grown : Grown s (s.grow pool s.registers closing journal) :=
    { Grown.refl s with
      pool := grows
      block := .inl ⟨rfl, rfl, closing, by simp [Lowering.grow]⟩ }
  refine ⟨⟨Nat.le_trans h.holding.pool grows.size, h.framed.of_eq rfl rfl,
    ⟨h.labelled.distinct, h.labelled.known⟩, ⟨s.code.toList, closing, by simp [Lowering.grow], ?_, closes⟩, h.entered,
    h.done.mono grown.le fun _ mem => mem⟩, .of_grown grown id fun _ => rfl⟩
  exact h.made.mono grown.le

/-- The end of a block by a jump. -/
theorem jump_ends (h : Sound c least start first s) {label : String} (known : label ∈ s.targets c) :
    Ended c least start first (s.emitJump label) ∧ Advances c s (s.emitJump label) := by
  obtain ⟨x, pool, journal, eq, grows, is⟩ := emitJump_spec c h.holding.pool label
  rw [eq]
  exact h.close grows (.jump is known)

/-- The test in front of a branch. -/
inductive Tests (c : Context) (s : Lowering) (cond : ValueId) (condition : Condition) (x y : OperandRef)
    (s' : Lowering) : Prop
  | fused {op : Comparison} {l r : ValueId} {t : Lowering}
      (found : c.function.op? cond = some (.binary (.compare op) l r))
      (fused : cond ∈ c.plan.fused) (left : s.resolve c l = .ok (x, t))
      (right : t.resolve c r = .ok (y, s')) (negated : condition = (Condition.ofComparison op).negate)
  | value {t : Lowering}
      (other : ∀ op l r, c.function.op? cond = some (.binary (.compare op) l r) → cond ∉ c.plan.fused)
      (read : s.resolve c cond = .ok (x, t)) (constant : y = (t.addOperand (.imm 0)).1)
      (same : s' = (t.addOperand (.imm 0)).2) (zero : condition = .zero)

theorem branchTest_cases {cond : ValueId} {condition : Condition}
    (ok : s.branchTest c cond = .ok (condition, s')) :
    ∃ x y t, Tests c s cond condition x y t ∧ s' = t.emit (.cmp x y) := by
  unfold Lowering.branchTest at ok
  split at ok
  · rename_i op l r found fused
    obtain ⟨⟨x, t⟩, left, ok⟩ := bind_ok.mp ok
    obtain ⟨⟨y, t'⟩, right, ok⟩ := bind_ok.mp ok
    cases ok
    exact ⟨x, y, t', .fused found (List.contains_iff_mem.mp fused) left right rfl, rfl⟩
  · rename_i other
    obtain ⟨⟨x, t⟩, read, ok⟩ := bind_ok.mp ok
    cases ok
    exact ⟨x, _, _, .value (fun op l r found fused =>
      other op l r found (List.contains_iff_mem.mpr fused)) read rfl rfl rfl, rfl⟩

theorem Tests.spec {cond : ValueId} {condition : Condition} {y : OperandRef}
    (h : Sound c least start first s) (tests : Tests c s cond condition x y s') :
    ∃ code, Emits c least first s s' code ∧ (s'.site c least).Held first s'.registers x ∧
      (s'.site c least).Storable first s'.registers y := by
  cases tests with
  | fused found fused left right negated =>
    obtain ⟨code, emits, held⟩ := resolve_spec h left
    obtain ⟨code', emits', held'⟩ := resolve_spec (h.emits emits) right
    exact ⟨_, emits.trans emits', held.mono emits'.le emits'.made.next_le, .held held'⟩
  | @value t other read constant same zero =>
    obtain ⟨code, emits, held⟩ := resolve_spec h read
    obtain ⟨adds, is⟩ := addOperand_spec c first (h.emits emits).holding.pool (.imm 0)
    subst same constant
    exact ⟨_, emits.trans adds, held.mono adds.le adds.made.next_le, .imm is⟩

/-- The blocks that a branch leads to are found. -/
theorem branch_spec {cond : ValueId} {onTrue onFalse : BlockId} (h : Sound c least start first s)
    (ok : s.branch c cond onTrue onFalse = .ok s') :
    Ended c least start first s' ∧ Advances c s s' ∧
      onTrue ∈ s'.labels.map (·.1) ∧ onFalse ∈ s'.labels.map (·.1) := by
  obtain ⟨⟨trueLabel, t⟩, one, ok⟩ := bind_ok.mp ok
  obtain ⟨⟨falseLabel, t'⟩, two, ok⟩ := bind_ok.mp ok
  obtain ⟨⟨condition, u⟩, test, ok⟩ := bind_ok.mp ok
  cases ok
  obtain ⟨h, advances, mem⟩ := (labelOf_cases one).spec h
  obtain ⟨h, advances', mem'⟩ := (labelOf_cases two).spec h
  obtain ⟨x, y, w, tests, rfl⟩ := branchTest_cases test
  obtain ⟨code, emits, left, right⟩ := tests.spec h
  have h := h.emits emits
  have mem := emits.grown.labelled (advances'.toGrown.labelled mem)
  have mem' := emits.grown.labelled mem'
  obtain ⟨z, z', pool, journal, eq, grows, is, is'⟩ :=
    test_spec c h.holding.pool x y condition falseLabel trueLabel
  rw [eq]
  have le : (w.site c least).Le ((w.grow pool w.registers
      [.cmp x y, .jumpIf condition z, .jump z'] journal).site c least) :=
    ⟨grows.size, rfl, fun inside => grows.get inside.2, Nat.le_refl _, fun _ mem => mem, id⟩
  obtain ⟨ended, closes⟩ := h.close grows (.test (left.mono le (Nat.le_refl _))
    (right.mono le (Nat.le_refl _)) is (mem_targets mem') is' (mem_targets mem))
  exact ⟨ended, ((advances.trans advances').trans emits.advances).trans closes,
    List.mem_map_of_mem (f := (·.1)) mem, List.mem_map_of_mem (f := (·.1)) mem'⟩

/-! ## All operations -/

/-- An operation that transfers no control. -/
theorem operation_spec {op : Op} (h : Sound c least start first s) (found : c.function.op? v = some op)
    (goes : op.isTerminator = false) (ok : s.operation c v = .ok s') :
    ∃ first', Sound c least start first' s' ∧ Advances c s s' := by
  unfold Lowering.operation at ok
  rw [found] at ok
  have straight : (∃ code, Emits c least first s s' code) →
      ∃ first', Sound c least start first' s' ∧ Advances c s s' :=
    fun ⟨_, emits⟩ => ⟨first, h.emits emits, emits.advances⟩
  match op with
  | .arg _ =>
    cases ok
    exact ⟨first, h, .refl s⟩
  | .imm value =>
    cases ok
    exact straight (defineByMove_spec h (.imm value))
  | .float _ | .symbol _ => cases ok
  | .alloca bytes => exact ⟨first, alloca_spec h ok⟩
  | .load addr =>
    obtain ⟨offset, slot, ok⟩ := bind_ok.mp ok
    cases ok
    exact straight (defineByMove_spec h (.slot (slotOf_spec h slot).2))
  | .store addr value => exact straight (store_spec h ok)
  | .binary (.arith op) l r => exact straight (arith_spec h ok)
  | .binary (.compare op) l r =>
    dsimp only at ok
    split at ok
    · cases ok
      exact ⟨first, h, .refl s⟩
    · obtain ⟨u, x, y, offset, otherwise, join, compares⟩ := compare_cases h ok
      exact ⟨_, compares.spec h⟩
  | .call callee args => exact straight (call_spec h ok).1
  | .branch _ _ _ | .jump _ | .ret | .retValue _ => cases goes

/-- A transfer of control. -/
theorem terminator_spec {op : Op} (h : Sound c least start first s) (found : c.function.op? v = some op)
    (transfers : op.isTerminator = true) (ok : s.operation c v = .ok s') :
    Ended c least start first s' ∧ Advances c s s' := by
  have epilogue : ∀ t : Lowering, c.epilogue ∈ t.targets c := fun t => by simp [Lowering.targets]
  unfold Lowering.operation at ok
  rw [found] at ok
  match op with
  | .branch cond onTrue onFalse =>
    obtain ⟨ended, advances, -⟩ := branch_spec h ok
    exact ⟨ended, advances⟩
  | .jump target =>
    obtain ⟨⟨label, t⟩, labels, ok⟩ := bind_ok.mp ok
    cases ok
    obtain ⟨h, advances, mem⟩ := (labelOf_cases labels).spec h
    obtain ⟨ended, advances'⟩ := jump_ends h (mem_targets mem)
    exact ⟨ended, advances.trans advances'⟩
  | .ret =>
    cases ok
    exact jump_ends h (epilogue s)
  | .retValue value =>
    obtain ⟨⟨x, t⟩, read, ok⟩ := bind_ok.mp ok
    cases ok
    obtain ⟨code, emits, held⟩ := resolve_spec h read
    have h := h.emits emits
    obtain ⟨u, y, eq, emits', -⟩ := returnValue_spec h.holding held
    have h := h.emits emits'
    obtain ⟨ended, advances⟩ := jump_ends h (epilogue u)
    rw [eq]
    exact ⟨ended, (emits.advances.trans emits'.advances).trans advances⟩
  | .arg _ | .imm _ | .float _ | .alloca _ | .load _ | .store _ _ | .binary _ _ _ | .symbol _
  | .call _ _ => cases transfers

end Codegen86.Selection
