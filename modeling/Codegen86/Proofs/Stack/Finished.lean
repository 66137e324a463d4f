import Codegen86.Proofs.Stack.Allocated
/-!
# Allocated functions leave the stack as they found it

When the last block of a function is allocated, the immediate that reserves its frame is set, and the function
is finished: its labels lead where those of the selected program led (`Finished`), so that the program can be
linked (`linkable_of_finished`).  Everything that has a slot in its frame has a word of its own (`Housed`), and
as long as the size of the frame has not wrapped around, the function is balanced.
-/

set_option autoImplicit false

namespace Codegen86.Stack

open Target Selection Allocation

variable {E : Site} {first next : Nat} {x low : OperandRef} {code : List Instruction} {p q q' : Pool}
  {targets : List String} {registers words : Nat} {frame frame' : Frame} {journal journal' : Journal}

/-! ## Functions -/

/-- A function whose jumps lead to its own blocks, and calls to functions that were found.  Its operands
last; those it had before are below `high`. -/
structure Finished (found : List String) (high : OperandRef) (q : Pool) (t : Function) : Prop where
  lasting : ∀ i ∈ t.code, ∀ x ∈ i.operands, Lasting q (· < high) x
  labels : ∀ i ∈ t.code, ∀ x, i.destination? = some x →
    ∃ name, q.get x = .symbol name ∧ name ∈ if i.isJump then Selection.inner t else found
  ordinary : ∀ i ∈ t.code, i.destination? = none → ∀ x ∈ i.operands, Ordinary (q.get x)
  closed : ∃ b, t.blocks.getLast? = some b ∧ b.code.getLast? = some .ret

theorem Balanced.congr {get get' : OperandRef → Operand} {t : Function} (h : Balanced get t)
    (same : ∀ i ∈ t.code, ∀ x ∈ i.operands, get' x = get x) : Balanced get' t := by
  obtain ⟨w, first, rest, blocks, framed⟩ := h
  have same : ∀ b ∈ first :: rest, ∀ i ∈ b.code, ∀ x ∈ i.operands, get' x = get x := fun b block i mem =>
    same i (List.mem_flatMap.mpr ⟨b, blocks ▸ block, mem⟩)
  refine ⟨w, first, rest, blocks, ?_, fun b mem => ?_, fun b block i mem jump x use l is => ?_⟩
  · exact framed.enters.congr fun i mem _ => same first List.mem_cons_self i mem
  · exact (framed.stays b mem).congr fun i code _ => same b (List.mem_cons_of_mem _ mem) i code
  · exact framed.apart b block i mem jump x use l ((same b block i mem x use).symm.trans is)

section

variable {found : List String} {high : OperandRef} {frames : List OperandRef} {t : Function}
  (stays : Settles frames q q') (apart : ∀ g ∈ frames, high ≤ g ∧ ∃ v, q.get g = .imm v)
include stays apart

theorem Finished.last (h : Finished found high q t) {i : Instruction} (mem : i ∈ t.code)
    (use : x ∈ i.operands) : q'.get x = q.get x ∧ Lasting q' (· < high) x :=
  (h.lasting i mem x use).settles stays fun g mem => ⟨Nat.not_lt.mpr (apart g mem).1, (apart g mem).2⟩

theorem Finished.settles (h : Finished found high q t) : Finished found high q' t := by
  refine ⟨fun i mem x use => (h.last stays apart mem use).2, fun i mem x dest => ?_,
    fun i mem none x use => ?_, h.closed⟩
  · rw [(h.last stays apart mem (Instruction.mem_operands_of_destination? dest)).1]
    exact h.labels i mem x dest
  · rw [(h.last stays apart mem use).1]
    exact h.ordinary i mem none x use

theorem Balanced.settles (h : Balanced q.get t) (finished : Finished found high q t) : Balanced q'.get t :=
  h.congr fun _ mem _ use => (finished.last stays apart mem use).1

end

/-- The operand of the function stands for `o` after allocation. -/
structure Denotes (E : Site) (q : Pool) (x : OperandRef) (o : Operand) : Prop where
  inside : x < E.pool.operands.size
  get : q.get x = o

theorem Denotes.lasting {o : Operand} (h : Denotes E q x o) (size : E.pool.operands.size ≤ q.operands.size)
    (concrete : o.isAbstract = false) : Lasting q (· < E.pool.operands.size) x :=
  ⟨Nat.lt_of_lt_of_le h.inside size, by rw [h.get]; exact concrete, .inl h.inside⟩

/-- A prologue that saves the base pointer and makes a frame, and then runs `out`. -/
structure Opens (is : OperandRef → Operand → Prop) (ref : OperandRef) (out code : List Instruction) : Prop where
  split : ∃ saved base top stack,
    code = [.push saved, .mov base top, .arith .sub stack ref] ++ out ∧ is saved (.reg .basePointer) ∧
      is base (.reg .basePointer) ∧ is top (.reg .stackPointer) ∧ is stack (.reg .stackPointer)

/-- An epilogue that gives the frame back. -/
structure Shuts (is : OperandRef → Operand → Prop) (ref : OperandRef) (code : List Instruction) : Prop where
  split : ∃ stack saved, code = [.arith .add stack ref, .pop saved, .ret] ∧ is stack (.reg .stackPointer) ∧
    is saved (.reg .basePointer)

section

variable {is is' : OperandRef → Operand → Prop} {ref : OperandRef} {out : List Instruction}
  (same : ∀ {x o}, is x o → o.isAbstract = false → is' x o)
include same

theorem Opens.imp (h : Opens is ref out code) : Opens is' ref out code := by
  obtain ⟨saved, base, top, stack, eq, isSaved, isBase, isTop, isStack⟩ := h.split
  exact ⟨saved, base, top, stack, eq, same isSaved rfl, same isBase rfl, same isTop rfl, same isStack rfl⟩

theorem Shuts.imp (h : Shuts is ref code) : Shuts is' ref code := by
  obtain ⟨stack, saved, eq, isStack, isSaved⟩ := h.split
  exact ⟨stack, saved, eq, same isStack rfl, same isSaved rfl⟩

end

section

variable {ref : OperandRef} {w : Word} {out : List Instruction}

theorem Opens.flow (h : Opens (Denotes E q) ref out code) (amount : q.get ref = .imm w) (least : 0 ≤ w)
    (keeps : KeepsFrame q out) : Flow q.get (.framed w) .entered code (.framed w) := by
  obtain ⟨saved, base, top, stack, rfl, isSaved, isBase, isTop, isStack⟩ := h.split
  refine .cons (.save isSaved.get) (by simp [Instruction.isJump])
    (.cons (.base isBase.get isTop.get) (by simp [Instruction.isJump]) ?_)
  exact .cons (.reserve isStack.get amount least) (by simp [Instruction.isJump]) (keeps w least)

theorem Shuts.flow (h : Shuts (Denotes E q) ref code) (amount : q.get ref = .imm w) :
    Flow q.get (.framed w) (.framed w) code (.framed w) := by
  obtain ⟨stack, saved, rfl, isStack, isSaved⟩ := h.split
  refine .cons (.drop isStack.get amount (Int64.zero_add w).symm (Int64.le_refl 0))
    (by simp [Instruction.isJump]) ?_
  exact .cons (.restore isSaved.get) (by simp [Instruction.isJump])
    (.cons .ret (by simp [Instruction.isJump]) .nil)

/-- The prologue itself has no labels, and its operands last. -/
theorem Opens.cases (h : Opens (Denotes E q) ref out code) (size : E.pool.operands.size ≤ q.operands.size)
    (frame : Denotes E q ref (.imm w)) {i : Instruction} (mem : i ∈ code) :
    i ∈ out ∨ i.destination? = none ∧
      ∀ x ∈ i.operands, Lasting q (· < E.pool.operands.size) x ∧ Ordinary (q.get x) := by
  obtain ⟨saved, base, top, stack, rfl, isSaved, isBase, isTop, isStack⟩ := h.split
  have lasts : ∀ {x : OperandRef} {o : Operand}, Denotes E q x o → o.isAbstract = false → Ordinary o →
      Lasting q (· < E.pool.operands.size) x ∧ Ordinary (q.get x) :=
    fun denotes concrete ordinary => ⟨denotes.lasting size concrete, denotes.get ▸ ordinary⟩
  simp only [List.cons_append, List.nil_append, List.mem_cons] at mem
  rcases mem with rfl | rfl | rfl | mem
  · refine .inr ⟨rfl, fun x use => ?_⟩
    obtain rfl := List.mem_singleton.mp use
    exact lasts isSaved rfl trivial
  · refine .inr ⟨rfl, fun x use => ?_⟩
    rcases List.mem_pair.mp use with rfl | rfl
    · exact lasts isBase rfl trivial
    · exact lasts isTop rfl trivial
  · refine .inr ⟨rfl, fun x use => ?_⟩
    rcases List.mem_pair.mp use with rfl | rfl
    · exact lasts isStack rfl trivial
    · exact lasts frame rfl trivial
  · exact .inl mem

theorem Shuts.cases (h : Shuts (Denotes E q) ref code) (size : E.pool.operands.size ≤ q.operands.size)
    (frame : Denotes E q ref (.imm w)) {i : Instruction} (mem : i ∈ code) :
    i.destination? = none ∧
      ∀ x ∈ i.operands, Lasting q (· < E.pool.operands.size) x ∧ Ordinary (q.get x) := by
  obtain ⟨stack, saved, rfl, isStack, isSaved⟩ := h.split
  have lasts : ∀ {x : OperandRef} {o : Operand}, Denotes E q x o → o.isAbstract = false → Ordinary o →
      Lasting q (· < E.pool.operands.size) x ∧ Ordinary (q.get x) :=
    fun denotes concrete ordinary => ⟨denotes.lasting size concrete, denotes.get ▸ ordinary⟩
  simp only [List.mem_cons, List.not_mem_nil, or_false] at mem
  rcases mem with rfl | rfl | rfl
  · refine ⟨rfl, fun x use => ?_⟩
    rcases List.mem_pair.mp use with rfl | rfl
    · exact lasts isStack rfl trivial
    · exact lasts frame rfl trivial
  · refine ⟨rfl, fun x use => ?_⟩
    obtain rfl := List.mem_singleton.mp use
    exact lasts isSaved rfl trivial
  · exact ⟨rfl, by simp [Instruction.operands]⟩

/-- A function with a prologue, connected bodies and an epilogue. -/
theorem finished_of_connected {t : Function} {prologue epilogue : Block} {bodies : List Block}
    (blocks : t.blocks = prologue :: bodies ++ [epilogue])
    (size : E.pool.operands.size ≤ q.operands.size) (frame : Denotes E q ref (.imm w))
    (opens : Opens (Denotes E q) ref out prologue.code) (starts : Connected E (Selection.inner t) q out)
    (connected : ∀ b ∈ bodies, Connected E (Selection.inner t) q b.code)
    (shuts : Shuts (Denotes E q) ref epilogue.code) : Finished E.found E.pool.operands.size q t := by
  -- an instruction is of the prologue or the epilogue, or of connected code
  have cases : ∀ i ∈ t.code, (∃ code, i ∈ code ∧ Connected E (Selection.inner t) q code) ∨
      i.destination? = none ∧
        ∀ x ∈ i.operands, Lasting q (· < E.pool.operands.size) x ∧ Ordinary (q.get x) := by
    intro i mem
    obtain ⟨b, block, mem⟩ := List.mem_flatMap.mp mem
    rw [blocks] at block
    simp only [List.cons_append, List.mem_cons, List.mem_append, List.not_mem_nil, or_false] at block
    rcases block with rfl | block | rfl
    · exact (opens.cases size frame mem).imp_left fun mem => ⟨out, mem, starts⟩
    · exact .inl ⟨b.code, mem, connected b block⟩
    · exact .inr (shuts.cases size frame mem)
  refine ⟨fun i mem x use => ?_, fun i mem x dest => ?_, fun i mem none x use => ?_, epilogue, ?_, ?_⟩
  · rcases cases i mem with ⟨code, mem, connected⟩ | ⟨-, plain⟩
    · have last := connected.lasting i mem x use
      exact ⟨last.inside, last.concrete, last.known.imp_left (·.2)⟩
    · exact (plain x use).1
  · rcases cases i mem with ⟨code, mem, connected⟩ | ⟨none, -⟩
    · exact connected.labels i mem x dest
    · rw [none] at dest
      cases dest
  · rcases cases i mem with ⟨code, mem, connected⟩ | ⟨-, plain⟩
    · exact connected.ordinary i mem none x use
    · exact (plain x use).2
  · rw [blocks, List.getLast?_concat]
  · obtain ⟨stack, saved, eq, -, -⟩ := shuts.split
    rw [eq]
    rfl

/-- It leaves the stack as it found it if its bodies keep the frame. -/
theorem balanced_of_keepsFrame {t : Function} {prologue epilogue : Block} {bodies : List Block}
    (blocks : t.blocks = prologue :: bodies ++ [epilogue]) (distinct : (t.blocks.map (·.name)).Nodup)
    (amount : q.get ref = .imm w) (least : 0 ≤ w) (opens : Opens (Denotes E q) ref out prologue.code)
    (starts : KeepsFrame q out) (keeps : ∀ b ∈ bodies, KeepsFrame q b.code)
    (shuts : Shuts (Denotes E q) ref epilogue.code) {high : OperandRef} (finished : Finished E.found high q t) :
    Balanced q.get t := by
  refine ⟨w, prologue, bodies ++ [epilogue], blocks, opens.flow amount least starts, fun b mem => ?_,
    fun b block i mem jump x use l is => ?_⟩
  · rcases List.mem_append.mp mem with mem | mem
    · exact keeps b mem w least
    · obtain rfl := List.mem_singleton.mp mem
      exact shuts.flow amount
  · -- jumps lead to blocks behind the first
    have code : i ∈ t.code := List.mem_flatMap.mpr ⟨b, by rw [blocks]; exact block, mem⟩
    have dest : i.destination? = some x := by
      cases i <;> simp_all [Instruction.destination?, Instruction.operands, Instruction.isJump]
    obtain ⟨name, get, known⟩ := finished.labels i code x dest
    rw [if_pos jump] at known
    rw [get] at is
    cases is
    rintro rfl
    rw [blocks] at distinct
    rw [Selection.inner, blocks] at known
    exact (List.nodup_cons.mp distinct).1 known

/-- It is around its frame if its bodies keep to it. -/
theorem framing_of_issued {t : Function} {prologue epilogue : Block} {bodies : List Block}
    (blocks : t.blocks = prologue :: bodies ++ [epilogue]) (framed : t.frame = some ref)
    (size : t.frameSize.toNat = words % 2 ^ 32) (amount : q.get ref = .imm (Word.ofNat t.frameSize.toNat))
    (opens : Opens (Denotes E q) ref out prologue.code) (starts : Issued E targets q words out)
    (issued : ∀ b ∈ bodies, Issued E targets q words b.code) (shuts : Shuts (Denotes E q) ref epilogue.code) :
    Framing q.get E.params words ref true true t := by
  obtain ⟨saved, base, top, stack, enter, isSaved, isBase, isTop, isStack⟩ := opens.split
  obtain ⟨stack', saved', leave, isStack', isSaved'⟩ := shuts.split
  refine ⟨framed, size, amount, ⟨prologue, out, bodies, epilogue, blocks, ?_, starts.contained,
    fun b mem => (issued b mem).contained, ?_⟩, nofun⟩
  · exact ⟨saved, base, top, _, enter, isSaved.get, isBase.get, isTop.get, .kept isStack.get⟩
  · exact ⟨_, saved', leave, .kept isStack'.get, isSaved'.get⟩

end

/-! ## Allocating functions -/

/-- The first block, those behind it and the last are allocated in turn. -/
theorem allocateBlocks_ends {a z : Block} {blocks blocks' : List Block}
    (ok : Function.allocateBlocks registers q frame journal (a :: blocks ++ [z]) =
      .ok (blocks', q', frame', journal')) :
    ∃ a' s others pool between log z' s',
      a.allocate registers q frame journal = .ok (a', s) ∧
      Function.allocateBlocks registers s.pool s.frame s.journal blocks = .ok (others, pool, between, log) ∧
      z.allocate registers pool between log = .ok (z', s') ∧ s'.pool = q' ∧ s'.frame = frame' ∧
      blocks' = a' :: others ++ [z'] := by
  obtain ⟨⟨a', s⟩, one, rest⟩ := bind_ok.mp ok
  obtain ⟨⟨others, q', frame', journal'⟩, rest, eq⟩ := bind_ok.mp rest
  cases eq
  obtain ⟨others, last, pool, between, log, many, final, rfl⟩ := allocateBlocks_append rest
  obtain ⟨⟨z', s'⟩, close, final⟩ := bind_ok.mp final
  cases final
  exact ⟨a', s, others, pool, between, log, z', s', one, many, close, rfl, rfl, rfl⟩

/-- They spill in turn. -/
theorem spilledSlots_ends {a z a' z' : Block} {blocks others : List Block} {s s' : State} {pool : Pool}
    {between : Frame} {log : Journal} {slots : Slots} (opens : a.allocate registers q frame journal = .ok (a', s))
    (many : Function.allocateBlocks registers s.pool s.frame s.journal blocks = .ok (others, pool, between, log))
    (listed : Function.spilledSlots registers s.pool s.frame s.journal blocks = .ok slots)
    (shuts : z.allocate registers pool between log = .ok (z', s')) :
    Function.spilledSlots registers q frame journal (a :: blocks ++ [z]) =
      .ok (a.spilled s ++ slots ++ z.spilled s') := by
  rw [List.append_assoc]
  refine bind_ok.mpr ⟨_, opens, bind_ok.mpr ⟨_, spilledSlots_append many listed ?_, rfl⟩⟩
  exact bind_ok.mpr ⟨_, shuts, bind_ok.mpr ⟨[], rfl, by rw [List.append_nil]; rfl⟩⟩

section

variable {f : IR.Function} {ref : OperandRef} {t t' : Function} {slots : Slots}
  (lowered : Lowered E f ref first next t slots) (above : low ≤ ref)
include lowered above

/-- Operands that the function uses, or the one that reserves its frame. -/
theorem needs_none {o : Operand} (is : E.Is x o ∨ x = ref) (concrete : o.isAbstract = false)
    (word : o.isMemory = false) :
    low ≤ x ∧ x < E.pool.operands.size ∧ (E.pool.get x).isAbstract = false ∧
      (E.pool.get x).isMemory = false := by
  rcases is with is | rfl
  · have least : ref ≤ E.least := Nat.le_of_lt (Nat.lt_of_succ_le (Nat.le_of_eq lowered.below))
    exact ⟨Nat.le_trans above (Nat.le_trans least is.1.1), is.1.2, by rw [is.2]; exact concrete, by rw [is.2]; exact word⟩
  · exact ⟨above, lowered.inside, by rw [lowered.reserves]; rfl, by rw [lowered.reserves]; rfl⟩

/-- A prologue begins with code that needs no registers. -/
theorem opens_of_entry {targets : List String} {middle : Nat}
    (entry : Entry E ref targets first middle code) :
    ∃ bare rest, code = bare ++ rest ∧ (∀ out, Opens E.Is ref out (bare ++ out)) ∧ Needless E low bare ∧
      Remains E targets first middle rest := by
  obtain ⟨saved, base, top, stack, loads, label, name, eq, isSaved, isBase, isTop, isStack, loading,
    isLabel, target⟩ := entry.split
  refine ⟨[.push saved, .mov base top, .arith .sub stack ref], loads ++ [.jump label],
    by rw [eq, List.append_assoc], fun out => ⟨saved, base, top, stack, rfl, isSaved, isBase, isTop, isStack⟩,
    fun i mem x use => ?_, .code (loading.made first) (.jump isLabel target)⟩
  simp only [List.mem_cons, List.not_mem_nil, or_false] at mem
  rcases mem with rfl | rfl | rfl
  · obtain rfl := List.mem_singleton.mp use
    exact needs_none lowered above (.inl isSaved) rfl rfl
  · rcases List.mem_pair.mp use with rfl | rfl
    · exact needs_none lowered above (.inl isBase) rfl rfl
    · exact needs_none lowered above (.inl isTop) rfl rfl
  · rcases List.mem_pair.mp use with rfl | rfl
    · exact needs_none lowered above (.inl isStack) rfl rfl
    · exact needs_none lowered above (o := .reg .result) (.inr rfl) rfl rfl

/-- An epilogue needs no registers. -/
theorem shuts_of_exit (exit_ : Exit E ref code) : Shuts E.Is ref code ∧ Needless E low code := by
  obtain ⟨stack, saved, eq, isStack, isSaved⟩ := exit_.split
  refine ⟨⟨stack, saved, eq, isStack, isSaved⟩, fun i mem x use => ?_⟩
  rw [eq] at mem
  simp only [List.mem_cons, List.not_mem_nil, or_false] at mem
  rcases mem with rfl | rfl | rfl
  · rcases List.mem_pair.mp use with rfl | rfl
    · exact needs_none lowered above (.inl isStack) rfl rfl
    · exact needs_none lowered above (o := .reg .result) (.inr rfl) rfl rfl
  · obtain rfl := List.mem_singleton.mp use
    exact needs_none lowered above (.inl isSaved) rfl rfl
  · cases use

end

/-- The blocks of a function after allocation: those of `t` one by one, with the slots of the values that were
spilled. -/
structure Rebuilt (E : Site) (ref : OperandRef) (t : Function) (q : Pool) (blocks : List Block)
    (spilled : Slots) (frame : Frame) (q' : Pool) : Prop where
  keeps : q.Keeps q'
  names : blocks.map (·.name) = t.blocks.map (·.name)
  spills : Spills t.blocks E.words q spilled frame q'
  split : ∃ prologue bodies epilogue out, blocks = prologue :: bodies ++ [epilogue] ∧
    Opens E.Is ref out prologue.code ∧
    Issued E (Selection.inner t) q' (E.words + spilled.length) out ∧
    (∀ b ∈ bodies, Issued E (Selection.inner t) q' (E.words + spilled.length) b.code) ∧
    Shuts E.Is ref epilogue.code

/-- The blocks of a lowered function are allocated one after another. -/
theorem lowered_rebuilt (few : registers ≤ 64) (grows : E.pool.Grows p) {f : IR.Function} {ref : OperandRef}
    {t : Function} {slots : Slots} (lowered : Lowered E f ref first next t slots) (above : low ≤ ref)
    (untouched : Untouched p q low first) {blocks' : List Block}
    (ok : Function.allocateBlocks registers q { words := t.frameSize } journal t.blocks =
      .ok (blocks', q', frame', journal')) :
    Untouched p q' low next ∧ ∃ spilled,
      Function.spilledSlots registers q { words := t.frameSize } journal t.blocks = .ok spilled ∧
      Rebuilt E ref t q blocks' spilled frame' q' := by
  obtain ⟨prologue, bodies, epilogue, middle, blocks, enters, made, leaves⟩ := lowered.blocks
  rw [blocks] at ok
  obtain ⟨prologue', s, bodies', u, between, log, epilogue', s', opens, many, shuts, rfl, rfl, rfl⟩ :=
    allocateBlocks_ends ok
  have distinct := lowered.distinct
  rw [blocks, List.cons_append, List.map_cons, List.map_append, List.nodup_cons, List.nodup_append] at distinct
  obtain ⟨apartOpens, distinct, -, apartShuts⟩ := distinct
  have enough : low ≤ E.least :=
    Nat.le_trans above (Nat.le_of_lt (Nat.lt_of_succ_le (Nat.le_of_eq lowered.below)))
  obtain ⟨bare, rest, enter, opening, needless, remains⟩ := opens_of_entry lowered above enters
  obtain ⟨leaving, needless'⟩ := shuts_of_exit lowered above leaves
  obtain ⟨nameOpens, keeps₁, untouched₁, spills₁, out, enter', -, issued₁⟩ :=
    block_settled few grows enough untouched bare rest enter needless remains lowered.words (Nat.le_refl _) opens
  obtain ⟨names, keeps₂, untouched₂, spilled, listed, spills₂, issued₂⟩ :=
    blocks_settled few grows enough untouched₁ made distinct spills₁.frame (Nat.le_add_right _ _) many
  obtain ⟨nameShuts, keeps₃, untouched₃, spills₃, out', leave', nothing, -⟩ :=
    block_settled few grows enough untouched₂ epilogue.code [] (by rw [List.append_nil]) needless'
      (.nothing : Remains E (Selection.inner t) next next []) spills₂.frame
      (Nat.le_trans (Nat.le_add_right _ _) (Nat.le_add_right _ _)) shuts
  obtain ⟨rfl, same⟩ := nothing rfl
  have spills₁₂ : Spills (prologue :: bodies) E.words q (prologue.spilled s ++ spilled) between u := by
    refine spills₁.append spills₂ fun b here c mem same => ?_
    obtain rfl := List.mem_singleton.mp here
    exact apartOpens (List.mem_append_left _ (List.mem_map.mpr ⟨c, mem, same.symm⟩))
  have spills : Spills (prologue :: bodies ++ [epilogue]) E.words q
      (prologue.spilled s ++ spilled ++ epilogue.spilled s') s'.frame s'.pool := by
    refine spills₁₂.append (by rwa [List.length_append, ← Nat.add_assoc]) fun b here c mem same => ?_
    obtain rfl := List.mem_singleton.mp mem
    rcases List.mem_cons.mp here with rfl | here
    · exact apartOpens (List.mem_append_right _ (by simp [same]))
    · exact apartShuts b.name (List.mem_map_of_mem here) c.name (by simp) same
  have all : Function.spilledSlots registers q { words := t.frameSize } journal (prologue :: bodies ++ [epilogue]) =
      .ok (prologue.spilled s ++ spilled ++ epilogue.spilled s') := spilledSlots_ends opens many listed shuts
  refine ⟨untouched₃, _, blocks ▸ all, keeps₁.trans (keeps₂.trans keeps₃), ?_, blocks ▸ spills,
    prologue', bodies', epilogue', out, rfl, enter' ▸ opening out, ?_, fun b mem => ?_, ?_⟩
  · simp only [blocks, List.map_append, List.map_cons, List.map_nil, nameOpens, names, nameShuts]
  · refine (issued₁.settles (.of_keeps (keeps₂.trans keeps₃)) (by simp)).mono ?_
    simp only [List.length_append]
    omega
  · refine ((issued₂ b mem).settles (.of_keeps keeps₃) (by simp)).mono ?_
    simp only [List.length_append]
    omega
  · rw [leave', List.append_nil]
    exact leaving

/-- An allocated function, with the slots of its frame.  It leaves the stack as it found it if sizes have not
wrapped around. -/
structure Housed (f : IR.Function) (q : Pool) (t : Function) (slots : Slots) : Prop where
  placed : SlotsAfter 0 slots
  owners : (slots.map (·.1)).Nodup
  framing : ∃ frame, Framing q.get f.Reads slots.length frame true true t
  balanced : slots.length < 2 ^ 32 → Balanced q.get t
  bound : slots.length ≤ f.values.size + q.operands.size

theorem Housed.settles {f : IR.Function} {t : Function} {slots : Slots} {found : List String}
    {high : OperandRef} {frames : List OperandRef} (stays : Settles frames q q')
    (apart : ∀ g ∈ frames, high ≤ g ∧ ∃ v, q.get g = .imm v) (finished : Finished found high q t)
    (h : Housed f q t slots) : Housed f q' t slots := by
  obtain ⟨frame, framing⟩ := h.framing
  refine ⟨h.placed, h.owners, ⟨frame, framing.relabel fun x use => ?_⟩,
    fun small => (h.balanced small).settles stays apart finished,
    Nat.le_trans h.bound (Nat.add_le_add_left stays.size _)⟩
  have used : ∃ i ∈ t.code, x ∈ i.operands := by
    rcases use with rfl | used
    · exact framing.used
    · exact used
  obtain ⟨i, mem, use⟩ := used
  rw [(finished.last stays apart mem use).1]
  exact .same

/-- The slots of spilled values come below those that were reserved. -/
theorem Reserves.append_spills {reserved spilled : Slots} {blocks : List Block}
    (reserves : Reserves E reserved) (spills : Spills blocks E.words q spilled frame q') :
    SlotsAfter 0 (reserved ++ spilled) ∧ ((reserved ++ spilled).map (·.1)).Nodup := by
  refine ⟨reserves.placed.append (by rw [Nat.zero_add, reserves.words]; exact spills.placed), ?_⟩
  rw [List.map_append, List.nodup_append]
  refine ⟨reserves.owners, spills.owners, fun owner mem owner' mem' same => ?_⟩
  obtain ⟨b, -, key, eq⟩ := spills.spilled owner' mem'
  obtain ⟨v, early | early⟩ := reserves.early owner mem
  · cases same.symm.trans early |>.symm.trans eq
  · cases same.symm.trans early |>.symm.trans eq

/-- The frame immediate of a lowered function stays while registers are given out, and is none of the operands of its
blocks. -/
theorem frame_stands {f : IR.Function} {ref : OperandRef} {t : Function} {slots : Slots} {bound : Nat}
    (lowered : Lowered E f ref first next t slots) (grows : E.pool.Grows p) (above : low ≤ ref)
    (untouched : Untouched p q low bound) :
    q.get ref = .imm (Word.ofNat t.frameSize.toNat) ∧ ∀ g ∈ [ref], ¬ E.Inside g ∧ ∃ v, q.get g = .imm v := by
  have here := grows.get lowered.inside
  rw [lowered.reserves] at here
  have inside := Nat.lt_of_lt_of_le lowered.inside grows.size
  have same := (untouched.concrete above inside (by rw [here]; rfl)).trans here
  refine ⟨same, fun g mem => ?_⟩
  obtain rfl := List.mem_singleton.mp mem
  exact ⟨fun own => absurd own.1 (Nat.not_le.mpr (Nat.lt_of_succ_le (Nat.le_of_eq lowered.below))), _, same⟩

/-- A lowered function is allocated: it is finished, and its spilled values have slots below those that were
reserved for it. -/
theorem function_finished (few : registers ≤ 64) (grows : E.pool.Grows p) {f : IR.Function} {ref : OperandRef}
    {t t' : Function} {slots : Slots} (lowered : Lowered E f ref first next t slots) (above : low ≤ ref)
    (untouched : Untouched p q low first) (ok : t.allocate registers q journal = .ok (t', q', journal')) :
    Settles [ref] q q' ∧ Untouched p q' E.pool.operands.size next ∧ t'.name = t.name ∧
      t'.blocks.map (·.name) = t.blocks.map (·.name) ∧ Finished E.found E.pool.operands.size q' t' ∧
      ∃ spilled, Function.spilledSlots registers q { words := t.frameSize } (journal.enter t.name) t.blocks =
          .ok spilled ∧ Housed f q' t' (slots ++ spilled) := by
  obtain ⟨⟨blocks, u, grown, log⟩, all, ok⟩ := bind_ok.mp ok
  rw [lowered.framed] at ok
  cases ok
  obtain ⟨untouched', spilled, listed, rebuilt⟩ := lowered_rebuilt few grows lowered above untouched all
  obtain ⟨prologue, bodies, epilogue, out, rfl, opens, starts, issued, shuts⟩ := rebuilt.split
  have least : ref < E.least := Nat.lt_of_succ_le (Nat.le_of_eq lowered.below)
  have size : E.pool.operands.size ≤ u.operands.size := Nat.le_trans grows.size untouched'.size
  have frame : ref < u.operands.size := Nat.lt_of_lt_of_le lowered.inside size
  -- of the pool, the frame immediate alone is changed at the end
  have get : ∀ {x : OperandRef}, (u.set ref (.imm grown.size)).get x =
      if x = ref then .imm grown.size else u.get x := fun {x} => Pool.get_set _ _ _ frame
  have setSize : (u.set ref (.imm grown.size)).operands.size = u.operands.size := by simp [Pool.set]
  have final := settles_set u frame (.imm grown.size)
  obtain ⟨-, apart⟩ := frame_stands lowered grows above untouched'
  have stands : ∀ {x : OperandRef} {o : Operand}, E.Is x o → o.isAbstract = false →
      Denotes E (u.set ref (.imm grown.size)) x o := by
    intro x o is concrete
    have here := Nat.lt_of_lt_of_le is.1.2 grows.size
    refine ⟨is.1.2, ?_⟩
    rw [get, if_neg (Nat.ne_of_gt (Nat.lt_of_lt_of_le least is.1.1)), untouched'.concrete
      (Nat.le_trans above (Nat.le_trans (Nat.le_of_lt least) is.1.1)) here
      (by rw [grows.get is.1.2, is.2]; exact concrete), grows.get is.1.2, is.2]
  have denotes : Denotes E (u.set ref (.imm grown.size)) ref (.imm grown.size) :=
    ⟨lowered.inside, get.trans (if_pos rfl)⟩
  have entering := opens.imp stands
  have leaving := shuts.imp stands
  have starts := starts.settles final apart
  have issued := fun b mem => (issued b mem).settles final apart
  let t' : Function :=
    { t with blocks := prologue :: bodies ++ [epilogue], frameSize := grown.words, frame := some ref }
  have inner : Selection.inner t' = Selection.inner t := by
    rw [Selection.inner, Selection.inner, List.map_tail, List.map_tail]
    exact congrArg List.tail rebuilt.names
  have finished : Finished E.found E.pool.operands.size (u.set ref (.imm grown.size)) t' :=
    finished_of_connected rfl (setSize ▸ size) denotes entering (inner ▸ starts.connected)
      (fun b mem => inner ▸ (issued b mem).connected) leaving
  obtain ⟨placed, owners⟩ := Reserves.append_spills lowered.slots rebuilt.spills
  have words : (slots ++ spilled).length = E.words + spilled.length := by
    rw [List.length_append, lowered.slots.words]
  refine ⟨(Settles.of_keeps rebuilt.keeps).trans final,
    ⟨setSize ▸ untouched'.size, fun {x} aboveX inside => ?_⟩, rfl, rebuilt.names, finished, spilled, listed,
    placed, owners, ⟨ref, ?_⟩, fun small => ?_, ?_⟩
  · rw [get, if_neg (Nat.ne_of_gt (Nat.lt_of_lt_of_le lowered.inside aboveX))]
    exact untouched'.same (Nat.le_trans above (Nat.le_trans (Nat.le_of_lt lowered.inside) aboveX)) inside
  · rw [words, ← lowered.params]
    exact framing_of_issued rfl rfl rebuilt.spills.frame denotes.get entering starts issued leaving
  · rw [words] at small
    refine balanced_of_keepsFrame (t := t') (w := grown.size) rfl (by rw [rebuilt.names]; exact lowered.distinct)
      denotes.get ?_ entering (starts.keeps small) (fun b mem => (issued b mem).keeps small) leaving finished
    have most := grown.words.toNat_lt
    rw [Frame.size, Int64.le_iff_toInt_le, Word.toInt_ofNat (by omega)]
    exact Int.natCast_nonneg _
  · have bound := lowered.bound
    have pool := rebuilt.spills.pool
    rw [words, setSize]
    omega

/-! ## Programs -/

/-- The frame immediates of functions. -/
def frames (functions : List Function) : List OperandRef := functions.filterMap (·.frame)

variable {source : IR.Program} {pool : Pool} {found : List String} {high : OperandRef}

theorem frames_above {functions : List Function} {slots : List Slots}
    (made : Functions source pool found low high first next functions slots) {g : OperandRef}
    (mem : g ∈ frames functions) : low ≤ g ∧ g < pool.operands.size ∧ ∃ v, pool.get g = .imm v := by
  induction made with
  | nil => cases mem
  | cons head _ above grows _ _ ih =>
    rw [frames, List.filterMap_cons, head.framed] at mem
    rcases List.mem_cons.mp mem with rfl | mem
    · exact ⟨above, Nat.lt_of_lt_of_le head.inside grows.size, _, (grows.get head.inside).trans head.reserves⟩
    · obtain ⟨least, inside, imm⟩ := ih mem
      exact ⟨Nat.le_trans above (Nat.le_trans (Nat.le_of_lt head.inside) least), inside, imm⟩

/-- Lowered functions are allocated one after another. -/
theorem functions_finished (few : registers ≤ 64) {functions functions' : List Function}
    {reserved : List Slots} (made : Functions source p found low high first next functions reserved)
    (untouched : Untouched p q low first)
    (ok : Program.allocateFunctions registers q journal functions = .ok (functions', q', journal')) :
    Settles (frames functions) q q' ∧ functions'.map (·.names) = functions.map (·.names) ∧
      (∀ t ∈ functions', ∃ high, Finished found high q' t) ∧
      ∃ all, Program.allocatedSlots registers q journal (functions.zip reserved) = .ok all ∧
        all.map (·.1) = functions'.map (·.name) ∧
        ∀ t ∈ functions', ∃ f slots, source.function? t.name = some f ∧ (t.name, slots) ∈ all ∧
          (∃ pl, Placed f pl) ∧ Housed f q' t slots := by
  induction made generalizing q journal functions' with
  | nil =>
    cases ok
    exact ⟨.of_keeps (.refl _), rfl, by simp, [], rfl, rfl, by simp⟩
  | @cons low high first middle next E f ref t rest slots _ head origin above grows known tail ih =>
    obtain ⟨⟨t', r, log⟩, one, ok⟩ := bind_ok.mp ok
    obtain ⟨⟨rest', q', journal'⟩, more, ok⟩ := bind_ok.mp ok
    cases ok
    obtain ⟨settles, untouched', name, names, finished, spilled, listed, housed⟩ :=
      function_finished few grows head above untouched one
    obtain ⟨settles', others, finished', all, listed', named, housed'⟩ := ih untouched' more
    have apart : ∀ g ∈ frames rest, E.pool.operands.size ≤ g ∧ ∃ v, r.get g = .imm v := by
      intro g mem
      obtain ⟨least, inside, v, imm⟩ := frames_above tail mem
      exact ⟨least, v, (untouched'.concrete least inside (by rw [imm]; rfl)).trans imm⟩
    refine ⟨?_, ?_, fun s mem => ?_, (t'.name, slots ++ spilled) :: all,
      bind_ok.mpr ⟨_, listed, bind_ok.mpr ⟨_, one, bind_ok.mpr ⟨_, listed', rfl⟩⟩⟩,
      by rw [List.map_cons, List.map_cons, named], fun s mem => ?_⟩
    · have both := settles.trans settles'
      rwa [frames, List.filterMap_cons, head.framed]
    · rw [List.map_cons, List.map_cons, others, Function.names, Function.names, name, names]
    · rcases List.mem_cons.mp mem with rfl | mem
      · have done := finished.settles settles' apart
        refine ⟨_, done.lasting, fun i mem x dest => ?_, done.ordinary, done.closed⟩
        obtain ⟨name, get, there⟩ := done.labels i mem x dest
        refine ⟨name, get, ?_⟩
        split
        · rename_i jump
          rwa [if_pos jump] at there
        · rename_i jump
          rw [if_neg jump] at there
          exact known there
      · exact finished' s mem
    · rcases List.mem_cons.mp mem with rfl | mem
      · refine ⟨f, slots ++ spilled, ?_, List.mem_cons_self, head.placed, housed.settles settles' apart finished⟩
        rw [name, head.name]
        exact origin
      · obtain ⟨g, more, origin, mem, rest⟩ := housed' s mem
        exact ⟨g, more, origin, List.mem_cons_of_mem _ mem, rest⟩

/-- Finished functions with names of their own make a program that can be linked. -/
theorem linkable_of_finished {p : Program} (names : p.names.Nodup)
    (finished : ∀ t ∈ p.functions, ∃ high, Finished (p.functions.map (·.name)) high p.pool t) : p.Linkable := by
  have label : ∀ {t : Function} {i : Instruction} {x : OperandRef}, t ∈ p.functions → i ∈ t.code →
      i.destination? = some x → ∃ name, p.pool.get x = .symbol name ∧
        name ∈ if i.isJump then Selection.inner t else p.functions.map (·.name) := by
    intro t i x function mem dest
    obtain ⟨high, done⟩ := finished t function
    exact done.labels i mem x dest
  have ordinary : ∀ {i : Instruction}, i ∈ p.code → i.destination? = none → ∀ x ∈ i.operands,
      Ordinary (p.pool.get x) := by
    intro i mem none x use
    obtain ⟨t, function, mem⟩ := List.mem_flatMap.mp mem
    obtain ⟨high, done⟩ := finished t function
    exact done.ordinary i mem none x use
  constructor
  · exact names
  · intro t function i mem jump x use
    have dest : i.destination? = some x := by
      cases i <;> simp_all [Instruction.destination?, Instruction.operands, Instruction.isJump]
    obtain ⟨name, get, known⟩ := label function mem dest
    rw [if_pos jump] at known
    obtain ⟨b, block, same⟩ := List.mem_map.mp known
    exact ⟨_, get, rfl, b, List.mem_of_mem_tail block, same⟩
  · intro x mem
    obtain ⟨t, function, mem⟩ := List.mem_flatMap.mp mem
    obtain ⟨name, get, known⟩ := label function mem rfl
    obtain ⟨g, function', same⟩ := List.mem_map.mp known
    exact ⟨_, get, g, function', same⟩
  · intro i mem plain x use l is
    have := ordinary mem (by cases i <;> first | rfl | cases plain) x use
    rw [is] at this
    exact this
  · intro i mem x use base offset is
    cases dest : i.destination? with
    | none =>
      have := ordinary mem dest x use
      rw [is] at this
      exact this
    | some y =>
      obtain ⟨t, function, mem⟩ := List.mem_flatMap.mp mem
      obtain ⟨name, get, -⟩ := label function mem dest
      obtain rfl : x = y := by
        cases i <;> simp_all [Instruction.destination?, Instruction.operands]
      rw [get] at is
      cases is
  · intro t function
    obtain ⟨high, done⟩ := finished t function
    obtain ⟨b, last, ret⟩ := done.closed
    exact ⟨b, .ret, last, ret, .inl rfl⟩

end Codegen86.Stack
