import Codegen86.Proofs.Selection.Programs
/-!
# The contract between selection and allocation

Allocation works block by block and rewrites operands that other instructions share.  It relies on what
`Contract` says of the program: an abstract register belongs to one block, which defines it by the first
instruction that mentions it; memory is read and written at offsets from the base pointer; labels stand in
jumps and calls; and control leaves a block at its end.  `select_contract` is the main result.
-/

set_option autoImplicit false

namespace Codegen86.Selection

open Target

/-! ## What is asked of a program -/

/-- An instruction mentions an abstract register. -/
def Mentions (pool : Pool) (k : Nat) (i : Instruction) : Prop :=
  ∃ x ∈ i.operands, (pool.get x).mentions (.abstract k) = true

/-- A block mentions an abstract register. -/
def Occurs (pool : Pool) (k : Nat) (b : Block) : Prop := ∃ i ∈ b.code, Mentions pool k i

/-- The instruction moves something to an abstract register. -/
def Defines (pool : Pool) (k : Nat) (i : Instruction) : Prop :=
  ∃ x y, i = .mov x y ∧ pool.get x = .reg (.abstract k)

/-- The code defines an abstract register by the first instruction that mentions it, and never again. -/
def DefinedOnce (pool : Pool) (k : Nat) (code : List Instruction) : Prop :=
  ∃ before x y after, code = before ++ .mov x y :: after ∧ pool.get x = .reg (.abstract k) ∧
    (pool.get y).mentions (.abstract k) = false ∧ (∀ i ∈ before, ¬ Mentions pool k i) ∧
    ∀ i ∈ after, ¬ Defines pool k i

/-- How a block ends. -/
inductive Leaves : List Instruction → Prop
  | ret : Leaves [.ret]
  | jump (x : OperandRef) : Leaves [.jump x]
  | test (x y z w : OperandRef) (condition : Condition) :
      Leaves [.cmp x y, .jumpIf condition z, .jump w]

/-- What allocation relies on. -/
structure Contract (p : Program) : Prop where
  own : ∀ {k m n : Nat} {b b' : Block}, (p.functions.flatMap (·.blocks))[m]? = some b →
    (p.functions.flatMap (·.blocks))[n]? = some b' → Occurs p.pool k b → Occurs p.pool k b' → m = n
  defined : ∀ f ∈ p.functions, ∀ b ∈ f.blocks, ∀ k, Occurs p.pool k b → DefinedOnce p.pool k b.code
  popped : ∀ x, .pop x ∈ p.code → (p.pool.get x).isAbstract = false
  based : ∀ base offset, .mem base offset ∈ p.referenced → base = .basePointer
  labels : ∀ i ∈ p.code, ∀ x ∈ i.operands, (p.pool.get x).label?.isSome = true →
    i.destination? = some x
  ends : ∀ f ∈ p.functions, ∀ b ∈ f.blocks, ∃ body closing, b.code = body ++ closing ∧
    b.closingStart = body.length ∧ (∀ i ∈ body, i.isTerminator = false) ∧ Leaves closing

/-! ## Instructions -/

/-- What is asked of an instruction where abstract registers from `first` up to `next` are in use. -/
structure Orderly (pool : Pool) (first next : Nat) (i : Instruction) : Prop where
  own : ∀ k, Mentions pool k i → first ≤ k ∧ k < next
  based : ∀ x ∈ i.operands, ∀ base offset, pool.get x = .mem base offset → base = .basePointer
  labels : ∀ x ∈ i.operands, (pool.get x).label?.isSome = true → i.destination? = some x
  popped : ∀ x, i = .pop x → (pool.get x).isAbstract = false

/-- An operand that is no label. -/
structure Plain (pool : Pool) (first next : Nat) (x : OperandRef) : Prop where
  own : ∀ k, (pool.get x).mentions (.abstract k) = true → first ≤ k ∧ k < next
  based : ∀ base offset, pool.get x = .mem base offset → base = .basePointer
  labels : (pool.get x).label?.isSome = false

variable {E : Site} {first next : Nat}

theorem Plain.reg {x : OperandRef} {r : Register} (is : E.Is x (.reg r))
    (own : ∀ k, r = .abstract k → first ≤ k ∧ k < next) : Plain E.pool first next x := by
  constructor
  · intro k mentions
    rw [is.2] at mentions
    exact own k (by simpa [Operand.mentions] using mentions)
  · intro base offset eq
    rw [is.2] at eq
    cases eq
  · rw [is.2]
    rfl

theorem Site.Held.plain {x : OperandRef} (held : E.Held first next x) : Plain E.pool first next x := by
  obtain ⟨k, least, most, is⟩ := held
  refine .reg is fun j same => ?_
  cases same
  exact ⟨least, most⟩

theorem Plain.imm {pool : Pool} {x : OperandRef} {value : Word} (is : pool.get x = .imm value) :
    Plain pool first next x := by
  constructor
  · intro k mentions
    rw [is] at mentions
    cases mentions
  · intro base offset eq
    rw [is] at eq
    cases eq
  · rw [is]
    rfl

theorem Plain.slot {x : OperandRef} {offset : Word} (is : E.Is x (.frameSlot offset)) :
    Plain E.pool first next x := by
  constructor
  · intro k mentions
    rw [is.2] at mentions
    simp [Operand.frameSlot, Operand.mentions] at mentions
  · intro base off eq
    rw [is.2] at eq
    cases eq
    rfl
  · rw [is.2]
    rfl

theorem Site.Storable.plain {x : OperandRef} (storable : E.Storable first next x) :
    Plain E.pool first next x := by
  cases storable with
  | held is => exact is.plain
  | imm is => exact .imm is.2

theorem Site.Loadable.plain {x : OperandRef} (loadable : E.Loadable first next x) :
    Plain E.pool first next x := by
  cases loadable with
  | held is => exact is.plain
  | imm is => exact .imm is.2
  | result is => exact .reg is nofun
  | slot reserved is => exact .slot is
  | arg _ is => exact .slot is

theorem Plain.weaken {pool : Pool} {x : OperandRef} {first' next' : Nat} (h : Plain pool first next x)
    (less : first' ≤ first) (more : next ≤ next') : Plain pool first' next' x :=
  ⟨fun k mentions => by have := h.own k mentions; omega, h.based, h.labels⟩

/-- An instruction without labels. -/
theorem Orderly.of_plain {pool : Pool} {i : Instruction}
    (plain : ∀ x ∈ i.operands, Plain pool first next x)
    (noPop : ∀ x, i = .pop x → (pool.get x).isAbstract = false) : Orderly pool first next i := by
  constructor
  · rintro k ⟨x, mem, mentions⟩
    exact (plain x mem).own k mentions
  · exact fun x mem => (plain x mem).based
  · intro x mem label
    rw [(plain x mem).labels] at label
    cases label
  · exact noPop

/-- A jump or a call. -/
theorem Orderly.of_label {i : Instruction} {x : OperandRef} {name : String} (is : E.Is x (.symbol name))
    (only : i.operands = [x]) (label : i.destination? = some x) : Orderly E.pool first next i := by
  have same : ∀ y ∈ i.operands, y = x := fun y mem => by simpa [only] using mem
  constructor
  · rintro k ⟨y, mem, mentions⟩
    rw [same y mem, is.2] at mentions
    cases mentions
  · intro y mem base offset eq
    rw [same y mem, is.2] at eq
    cases eq
  · intro y mem _
    rw [same y mem]
    exact label
  · rintro y rfl
    cases label

theorem Site.Emission.orderly {pushed next' pushed' : Nat} {i : Instruction} (enough : first ≤ next)
    (h : E.Emission first next pushed i next' pushed') : Orderly E.pool first next' i := by
  have pair : ∀ {x y : OperandRef}, Plain E.pool first next' x → Plain E.pool first next' y →
      ∀ z ∈ [x, y], Plain E.pool first next' z := by
    intro x y left right z mem
    rcases List.mem_pair.mp mem with rfl | rfl
    · exact left
    · exact right
  cases h with
  | load target source =>
    refine .of_plain (pair (.reg target fun k same => ?_)
      (source.plain.weaken (Nat.le_refl _) (Nat.le_succ _))) nofun
    cases same
    exact ⟨enough, Nat.lt_succ_self _⟩
  | store reserved target source => exact .of_plain (pair (.slot target) source.plain) nofun
  | result target source => exact .of_plain (pair (.reg target nofun) source.plain) nofun
  | arith target source => exact .of_plain (pair target.plain source.plain) nofun
  | push source =>
    refine .of_plain (fun y mem => ?_) nofun
    obtain rfl := List.mem_singleton.mp mem
    exact source.plain
  | call target known => exact .of_label target rfl rfl
  | drop stack words => exact .of_plain (pair (.reg stack nofun) (.imm words.2)) nofun

/-! ## Code -/

theorem Site.Emission.defines {pushed next' pushed' k : Nat} {i : Instruction}
    (h : E.Emission first next pushed i next' pushed') (defines : Defines E.pool k i) :
    k = next ∧ next' = next + 1 := by
  obtain ⟨x, y, rfl, eq⟩ := defines
  cases h with
  | load target source =>
    rw [target.2] at eq
    cases eq
    exact ⟨rfl, rfl⟩
  | store reserved target source =>
    rw [target.2] at eq
    cases eq
  | result target source =>
    rw [target.2] at eq
    cases eq

theorem Site.Code.defines {pushed next' pushed' k : Nat} {code : List Instruction}
    (made : E.Code first next pushed code next' pushed') {i : Instruction} (mem : i ∈ code)
    (defines : Defines E.pool k i) : next ≤ k := by
  obtain ⟨n, p, n', p', least, -, emission⟩ := made.emission mem
  obtain ⟨rfl, -⟩ := emission.defines defines
  exact least

theorem Site.Code.orderly {pushed next' pushed' : Nat} {code : List Instruction} (enough : first ≤ next)
    (made : E.Code first next pushed code next' pushed') {i : Instruction} (mem : i ∈ code) :
    Orderly E.pool first next' i := by
  obtain ⟨n, p, n', p', least, most, emission⟩ := made.emission mem
  have orderly := emission.orderly (Nat.le_trans enough least)
  exact ⟨fun k mentions => by have := orderly.own k mentions; omega, orderly.based, orderly.labels,
    orderly.popped⟩

theorem DefinedOnce.prepend {pool : Pool} {k : Nat} {code more : List Instruction}
    (h : DefinedOnce pool k code) (other : ∀ i ∈ more, ¬ Mentions pool k i) :
    DefinedOnce pool k (more ++ code) := by
  obtain ⟨before, x, y, after, rfl, target, source, first, only⟩ := h
  refine ⟨more ++ before, x, y, after, by simp, target, source, fun j mem => ?_, only⟩
  rcases List.mem_append.mp mem with mem | mem
  · exact other j mem
  · exact first j mem

theorem DefinedOnce.append {pool : Pool} {k : Nat} {code more : List Instruction}
    (h : DefinedOnce pool k code) (other : ∀ i ∈ more, ¬ Defines pool k i) :
    DefinedOnce pool k (code ++ more) := by
  obtain ⟨before, x, y, after, rfl, target, source, first, only⟩ := h
  refine ⟨before, x, y, after ++ more, by simp, target, source, first, fun j mem => ?_⟩
  rcases List.mem_append.mp mem with mem | mem
  · exact only j mem
  · exact other j mem

/-- The registers of a piece of code are defined in the order of their numbers. -/
theorem Site.Code.definedOnce {pushed next' pushed' k : Nat} {code : List Instruction}
    (enough : first ≤ next) (made : E.Code first next pushed code next' pushed') (least : next ≤ k)
    (most : k < next') : DefinedOnce E.pool k code := by
  induction made with
  | nil => omega
  | @cons next pushed middle pushed' next' pushed'' i rest head tail ih =>
    by_cases later : middle ≤ k
    · have once := ih (Nat.le_trans enough head.next_le) later most
      show DefinedOnce E.pool k ([i] ++ rest)
      refine once.prepend fun j mem mentions => ?_
      obtain rfl := List.mem_singleton.mp mem
      have := (head.orderly enough).own k mentions
      omega
    · -- the number rises, and it does so only at a move to the register with that number
      cases head with
      | @load x y target source =>
        obtain rfl : k = next := by omega
        refine ⟨[], x, y, rest, rfl, target.2, ?_, nofun, fun i mem defines => ?_⟩
        · refine Bool.eq_false_iff.mpr fun mentions => ?_
          have := source.plain.own k mentions
          omega
        · have := tail.defines mem defines
          omega
      | _ => omega

/-! ## Blocks -/

theorem closingStart_eq {b : Block} {body closing : List Instruction} (split : b.code = body ++ closing)
    (plain : ∀ i ∈ body, i.isTerminator = false ∧ i.isCompare = false) (leaves : Leaves closing) :
    b.closingStart = body.length := by
  have scan : body.reverse.takeWhile Instruction.isTerminator = [] := by
    cases last : body.reverse with
    | nil => rfl
    | cons i rest =>
      have mem : i ∈ body := List.mem_reverse.mp (by rw [last]; exact List.mem_cons_self)
      simp [(plain i mem).1]
  have noTest : body.getLast?.any Instruction.isCompare = false := by
    cases last : body.getLast? with
    | none => rfl
    | some i => exact (plain i (List.mem_of_getLast? last)).2
  unfold Block.closingStart
  rw [split]
  cases leaves with
  | ret | jump x => simp [List.takeWhile_cons, Instruction.isTerminator, scan, noTest]
  | test x y z w condition =>
    have compared : (body ++ [Instruction.cmp x y, .jumpIf condition z, .jump w]).take (body.length + 1) =
        body ++ [.cmp x y] := List.take_length_add_append 1
    simp [List.takeWhile_cons, Instruction.isTerminator, Instruction.isCompare, compared]

/-- What is asked of a block with abstract registers from `first` up to `next`. -/
structure Keeps (pool : Pool) (first next : Nat) (b : Block) : Prop where
  le : first ≤ next
  orderly : ∀ i ∈ b.code, Orderly pool first next i
  defined : ∀ k, first ≤ k → k < next → DefinedOnce pool k b.code
  ends : ∃ body closing, b.code = body ++ closing ∧ b.closingStart = body.length ∧
    (∀ i ∈ body, i.isTerminator = false) ∧ Leaves closing

theorem Site.Emission.stays {pushed next' pushed' : Nat} {i : Instruction}
    (h : E.Emission first next pushed i next' pushed') :
    i.isTerminator = false ∧ i.isCompare = false := by
  cases h <;> exact ⟨rfl, rfl⟩

theorem Site.Closes.leaves {targets : List String} {closing : List Instruction}
    (h : E.Closes targets first next closing) : Leaves closing := by
  cases h with
  | jump target known => exact .jump _
  | test left right target known target' known' => exact .test _ _ _ _ _

theorem Site.Closes.orderly {targets : List String} {closing : List Instruction}
    (h : E.Closes targets first next closing) {i : Instruction} (mem : i ∈ closing) :
    Orderly E.pool first next i ∧ ∀ k, ¬ Defines E.pool k i := by
  cases h with
  | jump target known =>
    obtain rfl := List.mem_singleton.mp mem
    exact ⟨.of_label target rfl rfl, fun k defines => by obtain ⟨x, y, eq, -⟩ := defines; cases eq⟩
  | test left right target known target' known' =>
    simp only [List.mem_cons, List.not_mem_nil, or_false] at mem
    rcases mem with rfl | rfl | rfl
    · refine ⟨.of_plain (fun x mem => ?_) nofun, fun k defines => by obtain ⟨x, y, eq, -⟩ := defines; cases eq⟩
      rcases List.mem_pair.mp mem with rfl | rfl
      · exact left.plain
      · exact right.plain
    · exact ⟨.of_label target rfl rfl, fun k defines => by obtain ⟨x, y, eq, -⟩ := defines; cases eq⟩
    · exact ⟨.of_label target' rfl rfl, fun k defines => by obtain ⟨x, y, eq, -⟩ := defines; cases eq⟩

theorem Emitted.keeps {targets : List String} {b : Block} (h : Emitted E targets first next b) :
    Keeps E.pool first next b := by
  obtain ⟨body, closing, split, made, closes⟩ := h.split
  have stays : ∀ i ∈ body, i.isTerminator = false ∧ i.isCompare = false := fun i mem => by
    obtain ⟨_, _, _, _, -, -, emission⟩ := made.emission mem
    exact emission.stays
  refine ⟨made.next_le, fun i mem => ?_, fun k least most => ?_, body, closing, split,
    closingStart_eq split stays closes.leaves, fun i mem => (stays i mem).1, closes.leaves⟩
  · rw [split] at mem
    rcases List.mem_append.mp mem with mem | mem
    · exact made.orderly (Nat.le_refl _) mem
    · exact (closes.orderly mem).1
  · rw [split]
    exact (made.definedOnce (Nat.le_refl _) least most).append fun i mem => (closes.orderly mem).2 k

theorem Entry.keeps {frame : OperandRef} {value : Word} {targets : List String} {b : Block}
    (reserves : E.pool.get frame = .imm value) (h : Entry E frame targets first next b.code) :
    Keeps E.pool first next b := by
  obtain ⟨saved, base, top, stack, loads, label, name, split, isSaved, isBase, isTop, isStack, arguments,
    target, known⟩ := h.split
  have made := arguments.made first
  have special : ∀ {x : OperandRef} {r : Register}, E.Is x (.reg r) → r.isAbstract = false →
      Plain E.pool first next x := fun is physical => .reg is fun k same => by
    subst same
    cases physical
  -- what stands before the loads mentions no abstract register
  have before : ∀ i ∈ [Instruction.push saved, .mov base top, .arith .sub stack frame],
      Orderly E.pool first next i ∧ ∀ k, ¬ Mentions E.pool k i := by
    intro i mem
    have plain : ∀ x ∈ i.operands, Plain E.pool first next x ∧
        ∀ k, (E.pool.get x).mentions (.abstract k) = false := by
      intro x use
      simp only [List.mem_cons, List.not_mem_nil, or_false] at mem
      rcases mem with rfl | rfl | rfl
      · obtain rfl := List.mem_singleton.mp use
        exact ⟨special isSaved rfl, fun k => by rw [isSaved.2]; rfl⟩
      · rcases List.mem_pair.mp use with rfl | rfl
        · exact ⟨special isBase rfl, fun k => by rw [isBase.2]; rfl⟩
        · exact ⟨special isTop rfl, fun k => by rw [isTop.2]; rfl⟩
      · rcases List.mem_pair.mp use with rfl | rfl
        · exact ⟨special isStack rfl, fun k => by rw [isStack.2]; rfl⟩
        · exact ⟨.imm reserves, fun k => by rw [reserves]; rfl⟩
    refine ⟨.of_plain (fun x use => (plain x use).1) ?_, fun k ⟨x, use, mentions⟩ => ?_⟩
    · rintro x rfl
      simp at mem
    · rw [(plain x use).2 k] at mentions
      cases mentions
  have stays : ∀ i ∈ [Instruction.push saved, .mov base top, .arith .sub stack frame] ++ loads,
      i.isTerminator = false ∧ i.isCompare = false := by
    intro i mem
    rcases List.mem_append.mp mem with mem | mem
    · simp only [List.mem_cons, List.not_mem_nil, or_false] at mem
      rcases mem with rfl | rfl | rfl <;> exact ⟨rfl, rfl⟩
    · obtain ⟨_, _, _, _, -, -, emission⟩ := made.emission mem
      exact emission.stays
  refine ⟨made.next_le, fun i mem => ?_, fun k least most => ?_, _, [.jump label], split,
    closingStart_eq split stays (.jump label), fun i mem => (stays i mem).1, .jump label⟩
  · rw [split] at mem
    rcases List.mem_append.mp mem with mem | mem
    · rcases List.mem_append.mp mem with mem | mem
      · exact (before i mem).1
      · exact made.orderly (Nat.le_refl _) mem
    · obtain rfl := List.mem_singleton.mp mem
      exact .of_label target rfl rfl
  · rw [split]
    have once := (made.definedOnce (Nat.le_refl _) least most).prepend fun i mem => (before i mem).2 k
    refine once.append fun i mem defines => ?_
    obtain rfl := List.mem_singleton.mp mem
    obtain ⟨x, y, eq, -⟩ := defines
    cases eq

theorem Exit.keeps {frame : OperandRef} {value : Word} {b : Block}
    (reserves : E.pool.get frame = .imm value) (h : Exit E frame b.code) (first : Nat) :
    Keeps E.pool first first b := by
  obtain ⟨stack, saved, split, isStack, isSaved⟩ := h.split
  have split : b.code = [.arith .add stack frame, .pop saved] ++ [.ret] := split
  have stays : ∀ i ∈ [Instruction.arith .add stack frame, .pop saved],
      i.isTerminator = false ∧ i.isCompare = false := by
    intro i mem
    rcases List.mem_pair.mp mem with rfl | rfl <;> exact ⟨rfl, rfl⟩
  refine ⟨Nat.le_refl _, fun i mem => ?_, fun k least most => by omega, _, [.ret], split,
    closingStart_eq split stays .ret, fun i mem => (stays i mem).1, .ret⟩
  rw [split] at mem
  simp only [List.mem_append, List.mem_cons, List.not_mem_nil, or_false] at mem
  rcases mem with (rfl | rfl) | rfl
  · refine .of_plain (fun x use => ?_) nofun
    rcases List.mem_pair.mp use with rfl | rfl
    · exact .reg isStack nofun
    · exact .imm reserves
  · refine .of_plain (fun x use => ?_) fun x same => ?_
    · obtain rfl := List.mem_singleton.mp use
      exact .reg isSaved nofun
    · cases same
      rw [isSaved.2]
      rfl
  · exact .of_plain nofun nofun

/-! ## Programs -/

/-- Blocks that use the abstract registers from `first` up to `next` one after another. -/
inductive Spread (pool : Pool) : (first next : Nat) → List Block → Prop
  | nil {first : Nat} : Spread pool first first []
  | cons {first middle next : Nat} {b : Block} {rest : List Block} (head : Keeps pool first middle b)
      (tail : Spread pool middle next rest) : Spread pool first next (b :: rest)

namespace Spread

variable {pool : Pool} {last : Nat} {blocks more : List Block}

theorem next_le (h : Spread pool first next blocks) : first ≤ next := by
  induction h with
  | nil => exact Nat.le_refl _
  | cons head _ ih => exact Nat.le_trans head.le ih

theorem append (h : Spread pool first next blocks) (h' : Spread pool next last more) :
    Spread pool first last (blocks ++ more) := by
  induction h with
  | nil => exact h'
  | cons head _ ih => exact .cons head (ih h')

theorem keeps (h : Spread pool first next blocks) {n : Nat} {b : Block} (here : blocks[n]? = some b) :
    ∃ m m', first ≤ m ∧ m' ≤ next ∧ Keeps pool m m' b := by
  induction h generalizing n with
  | nil => cases here
  | cons head tail ih =>
    cases n with
    | zero =>
      cases here
      exact ⟨_, _, Nat.le_refl _, tail.next_le, head⟩
    | succ n =>
      obtain ⟨m, m', least, most, keeps⟩ := ih here
      exact ⟨m, m', Nat.le_trans head.le least, most, keeps⟩

/-- The registers of a block are none of those of a later one. -/
theorem own (h : Spread pool first next blocks) {m n k : Nat} {b b' : Block} (before : m < n)
    (here : blocks[m]? = some b) (there : blocks[n]? = some b') (occurs : Occurs pool k b)
    (occurs' : Occurs pool k b') : False := by
  induction h generalizing m n with
  | nil => cases here
  | cons head tail ih =>
    obtain ⟨n, rfl⟩ : ∃ j, n = j + 1 := ⟨n - 1, by omega⟩
    cases m with
    | zero =>
      cases here
      obtain ⟨l, l', least, -, keeps⟩ := tail.keeps there
      obtain ⟨i, mem, mentions⟩ := occurs
      obtain ⟨i', mem', mentions'⟩ := occurs'
      have := (head.orderly i mem).own k mentions
      have := (keeps.orderly i' mem').own k mentions'
      omega
    | succ m => exact ih (by omega) here there

end Spread

theorem Blocks.spread {targets : List String} {blocks : List Block}
    (h : Blocks E targets first next blocks) : Spread E.pool first next blocks := by
  induction h with
  | nil => exact .nil
  | cons head _ ih => exact .cons head.keeps ih

theorem Lowered.spread {f : IR.Function} {frame : OperandRef} {t : Function} {slots : Slots} {pool : Pool}
    (h : Lowered E f frame first next t slots) (grows : E.pool.Grows pool) :
    Spread pool first next t.blocks := by
  obtain ⟨prologue, bodies, epilogue, middle, split, entry, blocks, leaves⟩ := h.blocks
  have le : E.Le { E with pool := pool } :=
    ⟨grows.size, rfl, fun inside => grows.get inside.2, Nat.le_refl _, fun _ mem => mem, id⟩
  have reserves := (grows.get h.inside).trans h.reserves
  rw [split]
  refine .cons ((entry.mono le fun _ mem => mem).keeps reserves) ?_
  exact ((blocks.mono le fun _ mem => mem).spread).append
    (.cons ((leaves.mono le).keeps reserves next) .nil)

theorem Functions.spread {source : IR.Program} {pool : Pool} {found : List String}
    {low high : OperandRef} {functions : List Function} {reserved : List Slots}
    (h : Functions source pool found low high first next functions reserved) :
    Spread pool first next (functions.flatMap (·.blocks)) := by
  induction h with
  | nil => exact .nil
  | cons head _ _ grows _ _ ih => exact (head.spread grows).append ih

theorem Spread.contract {p : Program} (h : Spread p.pool first next (p.functions.flatMap (·.blocks))) :
    Contract p := by
  have block : ∀ {f : Function} {b : Block}, f ∈ p.functions → b ∈ f.blocks →
      ∃ m m', Keeps p.pool m m' b := by
    intro f b mem inside
    obtain ⟨n, here⟩ := List.mem_iff_getElem?.mp (List.mem_flatMap.mpr ⟨f, mem, inside⟩)
    obtain ⟨m, m', -, -, keeps⟩ := h.keeps here
    exact ⟨m, m', keeps⟩
  have code : ∀ {i : Instruction}, i ∈ p.code → ∃ m m', Orderly p.pool m m' i := by
    intro i mem
    obtain ⟨f, mem, inside⟩ := List.mem_flatMap.mp mem
    obtain ⟨b, mem', here⟩ := List.mem_flatMap.mp inside
    obtain ⟨m, m', keeps⟩ := block mem mem'
    exact ⟨m, m', keeps.orderly i here⟩
  constructor
  · intro k m n b b' here there occurs occurs'
    rcases Nat.lt_trichotomy m n with less | same | more
    · exact (h.own less here there occurs occurs').elim
    · exact same
    · exact (h.own more there here occurs' occurs).elim
  · intro f mem b inside k occurs
    obtain ⟨m, m', keeps⟩ := block mem inside
    obtain ⟨i, here, mentions⟩ := occurs
    obtain ⟨least, most⟩ := (keeps.orderly i here).own k mentions
    exact keeps.defined k least most
  · intro x mem
    obtain ⟨m, m', orderly⟩ := code mem
    exact orderly.popped x rfl
  · intro base offset mem
    obtain ⟨x, use, eq⟩ := List.mem_map.mp mem
    obtain ⟨i, mem, use⟩ := List.mem_flatMap.mp use
    obtain ⟨m, m', orderly⟩ := code mem
    exact orderly.based x use base offset eq
  · intro i mem x use label
    obtain ⟨m, m', orderly⟩ := code mem
    exact orderly.labels x use label
  · intro f mem b inside
    obtain ⟨m, m', keeps⟩ := block mem inside
    exact keeps.ends

/-- Selected programs meet the contract. -/
theorem select_contract {source : IR.Program} {entry : String} {journal journal' : Journal} {p : Program}
    (ok : select source entry journal = .ok (p, journal')) : Contract p := by
  obtain ⟨slots, -, selected⟩ := select_spec ok
  obtain ⟨next, functions⟩ := selected.functions
  exact functions.spread.contract

/-- The absolute value of an argument; zero is kept in a home slot, the comparison is fused. -/
def absolute : IR.Program where
  functions := [{
    name := "main"
    arity := 1
    blocks := [{ name := "entry", body := [1, 2, 3] }, { name := "negative", body := [4, 5] },
      { name := "other", body := [6] }]
    values := #[{ op := .arg 0 }, { op := .imm 0 }, { op := .binary (.compare .lt) 0 1 },
      { op := .branch 2 1 2 }, { op := .binary (.arith .sub) 1 0 }, { op := .retValue 4 },
      { op := .retValue 0 }] }]

theorem absolute_contract :
    ∃ p journal, select absolute "main" {} = .ok (p, journal) ∧ Contract p := by
  cases selected : select absolute "main" {} with
  | error e =>
    have accepted : (select absolute "main" {}).toBool = true := by decide +kernel
    rw [selected] at accepted
    cases accepted
  | ok result => exact ⟨result.1, result.2, rfl, select_contract selected⟩

end Codegen86.Selection
