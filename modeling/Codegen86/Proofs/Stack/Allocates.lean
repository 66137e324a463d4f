import Codegen86.Proofs.Allocation.Correct
import Codegen86.Proofs.Stack.Finished
/-!
# Selected programs are allocated

Allocation has no way to fail on selected code.  A block asks no more than registers for two operands at a
time: what allocation asks of a block (`Block.Allocatable`) holds of the code that selection makes, also in
the pool that the blocks before it have left (`Remains.allocatable`).  So every block of a selected program is
allocated, one after another, with any number of registers from 2 to 64 (`selected_allocates`).
-/

set_option autoImplicit false

namespace Codegen86.Stack

open Target Selection Allocation Symbolic

variable {E : Site} {first next pushed next' pushed' : Nat} {x low : OperandRef} {code : List Instruction}
  {p q : Pool} {targets : List String} {registers : Nat}

/-! ## What is read was written -/

theorem loadable_held (h : E.Loadable first next x) (abstract : (E.pool.get x).isAbstract = true) :
    E.Held first next x := by
  cases h with
  | held is => exact is
  | imm is | result is | slot _ is | arg _ is =>
    rw [is.2] at abstract
    cases abstract

theorem storable_held (h : E.Storable first next x) (abstract : (E.pool.get x).isAbstract = true) :
    E.Held first next x := by
  cases h with
  | held is => exact is
  | imm is =>
    rw [is.2] at abstract
    cases abstract

/-- The abstract registers that an instruction reads have numbers that were given before it. -/
theorem emission_source {i : Instruction} (h : E.Emission first next pushed i next' pushed')
    (use : x ∈ i.sources) (abstract : (E.pool.get x).isAbstract = true) : E.Held first next x := by
  cases h with
  | load target source =>
    obtain rfl := List.mem_singleton.mp use
    exact loadable_held source abstract
  | store reserved target source =>
    obtain rfl := List.mem_singleton.mp use
    exact storable_held source abstract
  | result target source | push source =>
    obtain rfl := List.mem_singleton.mp use
    exact source
  | arith target source =>
    rcases List.mem_pair.mp use with rfl | rfl
    · exact target
    · exact source
  | call target known => cases use
  | drop stack words =>
    rcases List.mem_pair.mp use with rfl | rfl
    · rw [stack.2] at abstract
      cases abstract
    · rw [words.2] at abstract
      cases abstract

theorem closes_source {i : Instruction} (h : E.Closes targets first next code) (mem : i ∈ code)
    (use : x ∈ i.sources) (abstract : (E.pool.get x).isAbstract = true) : E.Held first next x := by
  cases h with
  | jump target known =>
    obtain rfl := List.mem_singleton.mp mem
    cases use
  | test left right target known target' known' =>
    simp only [List.mem_cons, List.not_mem_nil, or_false] at mem
    rcases mem with rfl | rfl | rfl
    · rcases List.mem_pair.mp use with rfl | rfl
      · exact left
      · exact storable_held right abstract
    · cases use
    · cases use

/-- A register that was given a number was moved to. -/
theorem moved_of_held (made : E.Code first first 0 code next pushed) (held : E.Held first next x) :
    ∃ y z, .mov y z ∈ code ∧ E.pool.get y = E.pool.get x := by
  obtain ⟨k, least, most, is⟩ := held
  obtain ⟨before, y, z, after, rfl, target, -⟩ := made.definedOnce (Nat.le_refl _) least most
  exact ⟨y, z, by simp, target.trans is.2.symm⟩

namespace Remains

/-- An abstract register is moved to before it is read. -/
theorem defined (h : Remains E targets first next code) {before after : List Instruction} {i : Instruction}
    (split : code = before ++ i :: after) (use : x ∈ i.sources)
    (abstract : (E.pool.get x).isAbstract = true) :
    ∃ y z, .mov y z ∈ before ∧ E.pool.get y = E.pool.get x := by
  cases h with
  | nothing => simp at split
  | @code _ body closing made closes =>
    rcases List.append_eq_append_iff.mp split with ⟨rest, rfl, eq⟩ | ⟨rest, rfl, eq⟩
    · -- the instruction is at the end of the block
      obtain ⟨y, z, mem, same⟩ :=
        moved_of_held made (closes_source closes (by rw [eq]; simp) use abstract)
      exact ⟨y, z, List.mem_append_left _ mem, same⟩
    · cases rest with
      | nil =>
        have last : i ∈ closing := by
          rw [List.nil_append] at eq
          rw [← eq]
          exact List.mem_cons_self
        obtain ⟨y, z, mem, same⟩ := moved_of_held made (closes_source closes last use abstract)
        exact ⟨y, z, by simpa using mem, same⟩
      | cons j rest =>
        obtain ⟨rfl, rfl⟩ := List.cons.inj eq
        obtain ⟨n, p, n', p', made', emission, -⟩ := made.split
        exact moved_of_held made' (emission_source emission use abstract)

end Remains

/-! ## What allocation asks of operands -/

/-- An operand that a block may have: of the general registers it is `R0`, words of memory are at offsets
from the base pointer, and the base pointer is not named by itself. -/
def Admitted : Operand → Prop
  | .reg (.physical r) => r = 0
  | .reg .basePointer => False
  | .mem base _ => base = .basePointer
  | .reg .stackPointer | .reg (.abstract _) | .imm _ | .label _ => True

theorem admitted_of_is {o : Operand} (is : E.Is x o) (admitted : Admitted o) : Admitted (E.pool.get x) := by
  rw [is.2]
  exact admitted

theorem admitted_of_held (held : E.Held first next x) : Admitted (E.pool.get x) := by
  obtain ⟨k, -, -, is⟩ := held
  exact admitted_of_is is trivial

theorem admitted_of_storable (h : E.Storable first next x) : Admitted (E.pool.get x) := by
  cases h with
  | held is => exact admitted_of_held is
  | imm is => exact admitted_of_is is trivial

theorem admitted_of_loadable (h : E.Loadable first next x) : Admitted (E.pool.get x) := by
  cases h with
  | held is => exact admitted_of_held is
  | imm is => exact admitted_of_is is trivial
  | result is | slot _ is | arg _ is => exact admitted_of_is is rfl

theorem Remains.admitted (h : Remains E targets first next code) {i : Instruction} (mem : i ∈ code)
    (use : x ∈ i.operands) : Admitted (E.pool.get x) := by
  have pair : ∀ {y z : OperandRef}, Admitted (E.pool.get y) → Admitted (E.pool.get z) → x ∈ [y, z] →
      Admitted (E.pool.get x) := by
    intro y z first second use
    rcases List.mem_pair.mp use with rfl | rfl
    · exact first
    · exact second
  have single : ∀ {y : OperandRef}, Admitted (E.pool.get y) → x ∈ [y] → Admitted (E.pool.get x) := by
    intro y only use
    obtain rfl := List.mem_singleton.mp use
    exact only
  cases h with
  | nothing => cases mem
  | code made closes =>
    rcases List.mem_append.mp mem with mem | mem
    · obtain ⟨n, p, n', p', -, -, emission⟩ := made.emission mem
      cases emission with
      | load target source =>
        exact pair (admitted_of_is target trivial) (admitted_of_loadable source) use
      | store reserved target source => exact pair (admitted_of_is target rfl) (admitted_of_storable source) use
      | result target source => exact pair (admitted_of_is target rfl) (admitted_of_held source) use
      | arith target source => exact pair (admitted_of_held target) (admitted_of_held source) use
      | push source => exact single (admitted_of_held source) use
      | call target known => exact single (admitted_of_is target trivial) use
      | drop stack words => exact pair (admitted_of_is stack trivial) (admitted_of_is words trivial) use
    · cases closes with
      | jump target known =>
        obtain rfl := List.mem_singleton.mp mem
        exact single (admitted_of_is target trivial) use
      | test left right target known target' known' =>
        simp only [List.mem_cons, List.not_mem_nil, or_false] at mem
        rcases mem with rfl | rfl | rfl
        · exact pair (admitted_of_held left) (admitted_of_storable right) use
        · exact single (admitted_of_is target trivial) use
        · exact single (admitted_of_is target' trivial) use

/-- Control leaves at the end. -/
theorem Remains.closing (h : Remains E targets first next code) {b : Block} (eq : b.code = code) :
    ∀ i ∈ b.code.take b.closingStart, i.isTerminator = false := by
  cases h with
  | nothing => simp [eq]
  | @code _ body closing made closes =>
    have stays : ∀ i ∈ body, i.isTerminator = false ∧ i.isCompare = false := fun i mem => by
      obtain ⟨_, _, _, _, -, -, emission⟩ := made.emission mem
      exact emission.stays
    rw [closingStart_eq eq stays closes.leaves, eq, List.take_left]
    exact fun i mem => (stays i mem).1

/-- The code that selection makes is as allocation asks, also in a pool that has grown. -/
theorem Remains.allocatable (h : Remains E targets first next code)
    (same : ∀ i ∈ code, ∀ x ∈ i.operands, x < q.operands.size ∧ q.get x = E.pool.get x) {frame : Nat}
    (deep : ∀ i ∈ code, ∀ x ∈ i.operands, ∀ base off, E.pool.get x = .mem base off → -(frame : Int) ≤ off.toInt)
    {b : Block} (eq : b.code = code) : b.Allocatable q frame := by
  have get : ∀ i ∈ b.code, ∀ x ∈ i.operands, q.get x = E.pool.get x := fun i mem x use =>
    (same i (eq ▸ mem) x use).2
  have admitted : ∀ i ∈ b.code, ∀ x ∈ i.operands, Admitted (q.get x) := by
    intro i mem x use
    rw [get i mem x use]
    exact h.admitted (eq ▸ mem) use
  constructor
  · exact fun i mem x use => (same i (eq ▸ mem) x use).1
  · intro i mem x use base off is
    have based := admitted i mem x use
    rw [is] at based
    exact ⟨based, deep i (eq ▸ mem) x use base off ((get i mem x use).symm.trans is)⟩
  · intro i mem x use r is
    have only := admitted i mem x use
    rw [is] at only
    exact only
  · intro i mem _ x head is
    have other := admitted i mem x (List.mem_of_head? head)
    rw [is] at other
    exact other
  · exact fun i mem x pop => h.noPop x (eq ▸ pop ▸ mem)
  · intro i mem x dest
    obtain ⟨name, is, -⟩ := h.destination (eq ▸ mem) dest
    exact ⟨_, (get i mem x (Instruction.mem_operands_of_destination? dest)).trans is.2⟩
  · exact h.closing eq
  · intro before i after split x source abstract
    have within : ∀ {j}, j ∈ before ++ i :: after → j ∈ b.code := fun mem => split ▸ mem
    have here := get i (within (by simp)) x (by
      cases i <;> simp_all [Instruction.sources, Instruction.operands])
    rw [here] at abstract ⊢
    obtain ⟨y, z, mem, moved⟩ := h.defined (eq.symm.trans split) source abstract
    refine ⟨y, z, mem, ?_⟩
    rw [get _ (within (List.mem_append_left _ mem)) y List.mem_cons_self, moved]

/-! ## Blocks, functions, programs -/

theorem Keeps.closing {b : Block} (h : Selection.Keeps p first next b) :
    ∀ i ∈ b.code.take b.closingStart, i.isTerminator = false := by
  obtain ⟨body, closing, split, start, stays, -⟩ := h.ends
  rw [start, split, List.take_left]
  exact stays

section

variable (enough : 2 ≤ registers) (few : registers ≤ 64)
include enough few

/-- A block is allocated. -/
theorem block_allocates (grows : E.pool.Grows p) (above : low ≤ E.least) (untouched : Untouched p q low first)
    {b : Block} (bare rest : List Instruction) (split : b.code = bare ++ rest) (needless : Needless E low bare)
    (remains : Remains E targets first next rest)
    (ends : ∀ i ∈ b.code.take b.closingStart, i.isTerminator = false) (frame : Frame) (journal : Journal) :
    ∃ r, b.allocate registers q frame journal = .ok r := by
  -- a frame larger than any offset: in it, every word at the base pointer is a word of the frame
  let S : Setting :=
    { context := ⟨b.name, .compute q b.code, registers⟩, pool := q, base := 2 ^ 64 + frame.words.toNat
      cap := 0, valid := fun _ => true, tracked := fun _ => True, enough, few, small := by decide }
  have allocatable : ({ b with code := rest } : Block).Allocatable q S.base :=
    remains.allocatable (fun _ mem _ use => remains.get grows above untouched mem use)
      (fun _ _ _ _ _ off _ => by
        have least := Int64.le_toInt off
        show -((2 ^ 64 + frame.words.toNat : Nat) : Int) ≤ off.toInt
        omega) rfl
  have nothing : Calling S (fun _ => False) (fun _ _ _ => none) (fun _ _ _ => none) :=
    ⟨False.elim, fun inside => inside.elim⟩
  have base : frame.words.toNat = S.base % 2 ^ 32 := by
    have := frame.words.toNat_lt
    show frame.words.toNat = (2 ^ 64 + frame.words.toNat) % 2 ^ 32
    omega
  obtain ⟨t, s, -, -, done, -⟩ := allocate_rest (E := S) journal nothing ⟨rfl, rfl⟩ base split
    (fun i mem => needless.bare grows untouched mem) (fun i mem => allocatable.admissible mem) ends
    fun o abstract => allocatable.not_live abstract
  exact ⟨_, done⟩

/-- Blocks are allocated one after another. -/
theorem blocks_allocate (grows : E.pool.Grows p) (above : low ≤ E.least) (untouched : Untouched p q low first)
    {blocks : List Block} (made : Blocks E targets first next blocks) {frame : Frame} {words : Nat}
    (size : frame.words.toNat = words % 2 ^ 32) (room : E.words ≤ words) (journal : Journal) :
    ∃ r, Function.allocateBlocks registers q frame journal blocks = .ok r := by
  induction made generalizing q frame words journal with
  | nil => exact ⟨_, rfl⟩
  | cons head _ ih =>
    obtain ⟨body, closing, split, code, closes⟩ := head.split
    have remains : Remains E targets _ _ (body ++ closing) := .code code closes
    have none : Needless E low [] := by simp [Needless]
    obtain ⟨⟨b', s⟩, one⟩ := block_allocates enough few grows above untouched [] (body ++ closing) split none
      remains (Keeps.closing head.keeps) frame journal
    obtain ⟨-, -, between, spills, -⟩ := block_settled few grows above untouched [] (body ++ closing) split none
      remains size room one
    obtain ⟨r, rest⟩ := ih between spills.frame (Nat.le_trans room (Nat.le_add_right _ _)) s.journal
    exact ⟨_, bind_ok.mpr ⟨_, one, bind_ok.mpr ⟨r, rest, rfl⟩⟩⟩

omit enough few in
theorem allocateBlocks_append_ok {blocks more : List Block} {frame frame' : Frame} {journal journal' : Journal}
    {blocks' : List Block} {q' : Pool} {r : List Block × Pool × Frame × Journal}
    (first : Function.allocateBlocks registers q frame journal blocks = .ok (blocks', q', frame', journal'))
    (second : Function.allocateBlocks registers q' frame' journal' more = .ok r) :
    ∃ r, Function.allocateBlocks registers q frame journal (blocks ++ more) = .ok r := by
  induction blocks generalizing q frame journal blocks' with
  | nil =>
    cases first
    exact ⟨r, second⟩
  | cons b rest ih =>
    obtain ⟨⟨b', s⟩, one, first⟩ := bind_ok.mp first
    obtain ⟨⟨rest', q', frame', journal'⟩, others, eq⟩ := bind_ok.mp first
    cases eq
    obtain ⟨r', all⟩ := ih others
    exact ⟨_, bind_ok.mpr ⟨_, one, bind_ok.mpr ⟨r', all, rfl⟩⟩⟩

/-- A lowered function is allocated. -/
theorem function_allocates (grows : E.pool.Grows p) {f : IR.Function} {ref : OperandRef} {t : Function}
    {slots : Slots} (lowered : Lowered E f ref first next t slots) (above : low ≤ ref)
    (untouched : Untouched p q low first) (journal : Journal) : ∃ r, t.allocate registers q journal = .ok r := by
  obtain ⟨prologue, bodies, epilogue, middle, blocks, enters, made, leaves⟩ := lowered.blocks
  have within : low ≤ E.least := Nat.le_trans above (Nat.le_of_lt (Nat.lt_of_succ_le (Nat.le_of_eq lowered.below)))
  obtain ⟨bare, rest, enter, -, needless, remains⟩ := opens_of_entry lowered above enters
  obtain ⟨-, needless'⟩ := shuts_of_exit lowered above leaves
  have distinct := lowered.distinct
  rw [blocks, List.cons_append, List.map_cons, List.map_append, List.nodup_cons, List.nodup_append] at distinct
  have none : Remains E (Selection.inner t) next next [] := .nothing
  -- the prologue, the bodies, the epilogue
  obtain ⟨⟨prologue', s⟩, opens⟩ := block_allocates enough few grows within untouched _ rest enter needless
    remains (Keeps.closing (Entry.keeps lowered.reserves enters)) { words := t.frameSize }
    (journal.enter t.name)
  obtain ⟨-, -, untouched₁, spills₁, -⟩ :=
    block_settled few grows within untouched _ rest enter needless remains lowered.words (Nat.le_refl _) opens
  obtain ⟨⟨bodies', u, between, log⟩, many⟩ :=
    blocks_allocate enough few grows within untouched₁ made spills₁.frame (Nat.le_add_right _ _) s.journal
  obtain ⟨-, -, untouched₂, -⟩ :=
    blocks_settled few grows within untouched₁ made distinct.2.1 spills₁.frame (Nat.le_add_right _ _) many
  obtain ⟨⟨epilogue', s'⟩, shuts⟩ := block_allocates enough few grows within untouched₂ epilogue.code []
    (by rw [List.append_nil]) needless' none (Keeps.closing (Exit.keeps lowered.reserves leaves next))
    between log
  have last : ∃ r, Function.allocateBlocks registers u between log [epilogue] = .ok r :=
    ⟨_, bind_ok.mpr ⟨_, shuts, bind_ok.mpr ⟨_, rfl, rfl⟩⟩⟩
  obtain ⟨r', last⟩ := last
  obtain ⟨r, bodied⟩ := allocateBlocks_append_ok many last
  have all : Function.allocateBlocks registers q { words := t.frameSize } (journal.enter t.name) t.blocks =
      .ok (prologue' :: r.1, r.2) := by
    rw [blocks, List.cons_append]
    exact bind_ok.mpr ⟨_, opens, bind_ok.mpr ⟨r, bodied, rfl⟩⟩
  exact ⟨_, bind_ok.mpr ⟨_, all, rfl⟩⟩

/-- Lowered functions are allocated one after another. -/
theorem functions_allocate {source : IR.Program} {found : List String} {high : OperandRef}
    {functions : List Function} {slots : List Slots}
    (made : Functions source p found low high first next functions slots)
    (untouched : Untouched p q low first) (journal : Journal) :
    ∃ r, Program.allocateFunctions registers q journal functions = .ok r := by
  induction made generalizing q journal with
  | nil => exact ⟨_, rfl⟩
  | cons head origin above grows known tail ih =>
    obtain ⟨⟨t', r, log⟩, one⟩ := function_allocates enough few grows head above untouched journal
    obtain ⟨-, untouched', -⟩ := function_finished few grows head above untouched one
    obtain ⟨r', rest⟩ := ih untouched' log
    exact ⟨_, bind_ok.mpr ⟨_, one, bind_ok.mpr ⟨r', rest, rfl⟩⟩⟩

/-- A selected program is allocated. -/
theorem selected_allocates {source : IR.Program} {entry : String} {p : Program} {slots : List Slots}
    (selected : Selected source entry p slots) (journal : Journal) :
    ∃ p' journal', p.allocate registers journal = .ok (p', journal') := by
  obtain ⟨next, made⟩ := selected.functions
  have count : registerCount registers = registers :=
    Nat.mod_eq_of_lt (Nat.lt_of_le_of_lt few (by decide))
  obtain ⟨⟨functions, pool, log⟩, done⟩ := functions_allocate enough few made
    ⟨Nat.le_refl _, fun _ _ => .inl rfl⟩ journal
  refine ⟨{ p with functions, pool }, log, bind_ok.mpr ⟨(functions, pool, log), ?_, rfl⟩⟩
  rw [count]
  exact done

end

end Codegen86.Stack
