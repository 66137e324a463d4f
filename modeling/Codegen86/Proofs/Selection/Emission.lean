import Codegen86.Calling
import Codegen86.Frame
import Codegen86.Proofs.Pools
import Codegen86.Target.Program
import Mathlib.Algebra.Group.Int.Defs
import Mathlib.Algebra.Group.Nat.Defs
/-!
# The code that selection makes

The instructions that selection puts into the body of a block are of few kinds, and they follow each
other in an orderly way: abstract registers are numbered in the order of the moves that define them, and
what is pushed for a call is dropped behind it.  `Code` says so of a list of instructions.  It is the
contract between selection and all that comes after it: what other stages ask of selected code is derived
from it.

`Closes` is about the end of a block, `Block.Emitted` about a whole one.
-/

set_option autoImplicit false

namespace Codegen86.Selection

open Target

/-- Where code is made: the pool, of which the function being lowered uses the operands from `least` on;
the number of words reserved in its frame; the functions found; and the arguments that the function may
read. -/
structure Site where
  pool : Pool
  least : OperandRef
  words : Nat
  found : List String
  params : Nat → Prop

namespace Site

variable (E : Site)

/-- An operand of the function being lowered. -/
def Inside (x : OperandRef) : Prop := E.least ≤ x ∧ x < E.pool.operands.size

/-- An operand of the function that is `o`. -/
def Is (x : OperandRef) (o : Operand) : Prop := E.Inside x ∧ E.pool.get x = o

/-- One of the abstract registers from `first` up to `next`. -/
def Held (first next : Nat) (x : OperandRef) : Prop :=
  ∃ k, first ≤ k ∧ k < next ∧ E.Is x (.reg (.abstract k))

/-- The offset of a word that was reserved in the frame. -/
def Local (offset : Word) : Prop :=
  ∃ j, 1 ≤ j ∧ j ≤ E.words ∧ offset = -Word.ofNat (j % 2 ^ 32)

/-- What can be stored to the frame. -/
inductive Storable (first next : Nat) (x : OperandRef) : Prop
  | held (is : E.Held first next x)
  | imm {value : Word} (is : E.Is x (.imm value))

/-- What can be moved to an abstract register. -/
inductive Loadable (first next : Nat) (x : OperandRef) : Prop
  | held (is : E.Held first next x)
  | imm {value : Word} (is : E.Is x (.imm value))
  | result (is : E.Is x (.reg .result))
  | slot {offset : Word} (reserved : E.Local offset) (is : E.Is x (.frameSlot offset))
  | arg {i : Nat} (param : E.params i) (is : E.Is x (Calling.argSlot i))

/-- An instruction in the body of a block whose abstract registers are numbered from `first` on.  Before
it the next number is `next` and `pushed` words wait for a call, after it `next'` and `pushed'`. -/
inductive Emission (first : Nat) : (next pushed : Nat) → Instruction → (next' pushed' : Nat) → Prop
  | load {next pushed : Nat} {x y : OperandRef} (target : E.Is x (.reg (.abstract next)))
      (source : E.Loadable first next y) : Emission first next pushed (.mov x y) (next + 1) pushed
  | store {next pushed : Nat} {x y : OperandRef} {offset : Word} (reserved : E.Local offset)
      (target : E.Is x (.frameSlot offset)) (source : E.Storable first next y) :
      Emission first next pushed (.mov x y) next pushed
  | result {next pushed : Nat} {x y : OperandRef} (target : E.Is x (.reg .result))
      (source : E.Held first next y) : Emission first next pushed (.mov x y) next pushed
  | arith {next pushed : Nat} {op : Arith} {x y : OperandRef} (target : E.Held first next x)
      (source : E.Held first next y) : Emission first next pushed (.arith op x y) next pushed
  | push {next pushed : Nat} {x : OperandRef} (source : E.Held first next x) :
      Emission first next pushed (.push x) next (pushed + 1)
  | call {next pushed : Nat} {x : OperandRef} {name : String} (target : E.Is x (.symbol name))
      (known : name ∈ E.found) : Emission first next pushed (.call x) next pushed
  | drop {next pushed : Nat} {x y : OperandRef} (stack : E.Is x (.reg .stackPointer))
      (words : E.Is y (.imm (Word.ofNat pushed))) : Emission first next pushed (.arith .add x y) next 0

/-- The body of a block, or a part of it. -/
inductive Code (first : Nat) : (next pushed : Nat) → List Instruction → (next' pushed' : Nat) → Prop
  | nil {next pushed : Nat} : Code first next pushed [] next pushed
  | cons {next pushed next' pushed' next'' pushed'' : Nat} {i : Instruction} {rest : List Instruction}
      (head : E.Emission first next pushed i next' pushed')
      (tail : Code first next' pushed' rest next'' pushed'') :
      Code first next pushed (i :: rest) next'' pushed''

/-- The end of a block that leads to blocks among `targets`. -/
inductive Closes (targets : List String) (first next : Nat) : List Instruction → Prop
  | jump {x : OperandRef} {name : String} (target : E.Is x (.symbol name)) (known : name ∈ targets) :
      Closes targets first next [.jump x]
  | test {x y z w : OperandRef} {condition : Condition} {name name' : String}
      (left : E.Held first next x) (right : E.Storable first next y) (target : E.Is z (.symbol name))
      (known : name ∈ targets) (target' : E.Is w (.symbol name')) (known' : name' ∈ targets) :
      Closes targets first next [.cmp x y, .jumpIf condition z, .jump w]

/-- What `E` has is still there in `E'`. -/
structure Le (E E' : Site) : Prop where
  size : E.pool.operands.size ≤ E'.pool.operands.size
  least : E'.least = E.least
  get : ∀ {x}, E.Inside x → E'.pool.get x = E.pool.get x
  words : E.words ≤ E'.words
  found : E.found ⊆ E'.found
  params : ∀ {i}, E.params i → E'.params i

variable {E} {E' : Site} {first next next' pushed pushed' : Nat} {x : OperandRef}

/-! ## What was made stays -/

section Mono

theorem Le.trans {E'' : Site} (h : E.Le E') (h' : E'.Le E'') : E.Le E'' where
  size := Nat.le_trans h.size h'.size
  least := h'.least.trans h.least
  get inside := (h'.get ⟨h.least ▸ inside.1, Nat.lt_of_lt_of_le inside.2 h.size⟩).trans (h.get inside)
  words := Nat.le_trans h.words h'.words
  found := fun _ mem => h'.found (h.found mem)
  params param := h'.params (h.params param)

/-- Operands and functions are added. -/
theorem Le.of_grows {pool : Pool} {found : List String} (grows : E.pool.Grows pool) (more : E.found ⊆ found) :
    E.Le { E with pool, found } where
  size := grows.size
  least := rfl
  get inside := grows.get inside.2
  words := Nat.le_refl _
  found := more
  params := id

/-- An operand is set that is none of the function's. -/
theorem Le.of_set {y : OperandRef} (below : y < E.least) (there : y < E.pool.operands.size) (o : Operand) :
    E.Le { E with pool := E.pool.set y o } where
  size := by simp [Pool.set]
  least := rfl
  get {x} inside := by
    rw [Pool.get_set E.pool x o there, if_neg (Nat.ne_of_gt (Nat.lt_of_lt_of_le below inside.1))]
  words := Nat.le_refl _
  found := fun _ mem => mem
  params := id

theorem Inside.mono (h : E.Le E') (inside : E.Inside x) : E'.Inside x :=
  ⟨by rw [h.least]; exact inside.1, Nat.lt_of_lt_of_le inside.2 h.size⟩

theorem Is.mono (h : E.Le E') {o : Operand} (is : E.Is x o) : E'.Is x o :=
  ⟨is.1.mono h, (h.get is.1).trans is.2⟩

theorem Held.mono (h : E.Le E') (more : next ≤ next') (held : E.Held first next x) :
    E'.Held first next' x := by
  obtain ⟨k, least, most, is⟩ := held
  exact ⟨k, least, by omega, is.mono h⟩

theorem Local.mono (h : E.Le E') {offset : Word} (reserved : E.Local offset) : E'.Local offset := by
  obtain ⟨j, least, most, eq⟩ := reserved
  exact ⟨j, least, Nat.le_trans most h.words, eq⟩

theorem Storable.mono (h : E.Le E') (more : next ≤ next') (storable : E.Storable first next x) :
    E'.Storable first next' x := by
  cases storable with
  | held is => exact .held (is.mono h more)
  | imm is => exact .imm (is.mono h)

theorem Loadable.mono (h : E.Le E') (loadable : E.Loadable first next x) :
    E'.Loadable first next x := by
  cases loadable with
  | held is => exact .held (is.mono h (Nat.le_refl _))
  | imm is => exact .imm (is.mono h)
  | result is => exact .result (is.mono h)
  | slot reserved is => exact .slot (reserved.mono h) (is.mono h)
  | arg param is => exact .arg (h.params param) (is.mono h)

theorem Emission.mono (h : E.Le E') {i : Instruction}
    (emission : E.Emission first next pushed i next' pushed') :
    E'.Emission first next pushed i next' pushed' := by
  cases emission with
  | load target source => exact .load (target.mono h) (source.mono h)
  | store reserved target source =>
    exact .store (reserved.mono h) (target.mono h) (source.mono h (Nat.le_refl _))
  | result target source => exact .result (target.mono h) (source.mono h (Nat.le_refl _))
  | arith target source => exact .arith (target.mono h (Nat.le_refl _)) (source.mono h (Nat.le_refl _))
  | push source => exact .push (source.mono h (Nat.le_refl _))
  | call target known => exact .call (target.mono h) (h.found known)
  | drop stack words => exact .drop (stack.mono h) (words.mono h)

theorem Code.mono (h : E.Le E') {code : List Instruction}
    (made : E.Code first next pushed code next' pushed') :
    E'.Code first next pushed code next' pushed' := by
  induction made with
  | nil => exact .nil
  | cons head _ ih => exact .cons (head.mono h) ih

theorem Closes.mono (h : E.Le E') {targets targets' : List String} (more : targets ⊆ targets')
    {code : List Instruction} (closes : E.Closes targets first next code) :
    E'.Closes targets' first next code := by
  cases closes with
  | jump target known => exact .jump (target.mono h) (more known)
  | test left right target known target' known' =>
    exact .test (left.mono h (Nat.le_refl _)) (right.mono h (Nat.le_refl _)) (target.mono h) (more known)
      (target'.mono h) (more known')

end Mono

/-! ## Code after code -/

theorem Emission.next_le {i : Instruction} (emission : E.Emission first next pushed i next' pushed') :
    next ≤ next' := by
  cases emission <;> omega

theorem Code.next_le {code : List Instruction} (made : E.Code first next pushed code next' pushed') :
    next ≤ next' := by
  induction made with
  | nil => exact Nat.le_refl _
  | cons head _ ih => exact Nat.le_trans head.next_le ih

theorem Code.append {next'' pushed'' : Nat} {code more : List Instruction}
    (made : E.Code first next pushed code next' pushed')
    (made' : E.Code first next' pushed' more next'' pushed'') :
    E.Code first next pushed (code ++ more) next'' pushed'' := by
  induction made with
  | nil => exact made'
  | cons head _ ih => exact .cons head (ih made')

theorem Code.single {i : Instruction} (emission : E.Emission first next pushed i next' pushed') :
    E.Code first next pushed [i] next' pushed' := .cons emission .nil

/-- Every instruction was made at some point, between the first and the last. -/
theorem Code.emission {code : List Instruction} (made : E.Code first next pushed code next' pushed')
    {i : Instruction} (mem : i ∈ code) :
    ∃ n p n' p', next ≤ n ∧ n' ≤ next' ∧ E.Emission first n p i n' p' := by
  induction made with
  | nil => cases mem
  | cons head tail ih =>
    rcases List.mem_cons.mp mem with rfl | mem
    · exact ⟨_, _, _, _, Nat.le_refl _, tail.next_le, head⟩
    · obtain ⟨n, p, n', p', least, most, emission⟩ := ih mem
      exact ⟨n, p, n', p', Nat.le_trans head.next_le least, most, emission⟩

/-- Code is split as its instructions are. -/
theorem Code.split {before after : List Instruction} {i : Instruction}
    (made : E.Code first next pushed (before ++ i :: after) next' pushed') :
    ∃ n p n' p', E.Code first next pushed before n p ∧ E.Emission first n p i n' p' ∧
      E.Code first n' p' after next' pushed' := by
  induction before generalizing next pushed with
  | nil =>
    cases made with
    | cons head tail => exact ⟨_, _, _, _, .nil, head, tail⟩
  | cons j rest ih =>
    cases made with
    | cons head tail =>
      obtain ⟨n, p, n', p', first, emission, last⟩ := ih tail
      exact ⟨n, p, n', p', .cons head first, emission, last⟩

end Site

/-! ## Blocks -/

/-- A block of selected code, whose abstract registers are those from `first` up to `next`. -/
structure Emitted (E : Site) (targets : List String) (first next : Nat) (b : Block) : Prop where
  split : ∃ body closing, b.code = body ++ closing ∧ E.Code first first 0 body next 0 ∧
    E.Closes targets first next closing

/-- Blocks of selected code, which use the abstract registers from `first` up to `next` one after
another. -/
inductive Blocks (E : Site) (targets : List String) : (first next : Nat) → List Block → Prop
  | nil {first : Nat} : Blocks E targets first first []
  | cons {first next last : Nat} {b : Block} {rest : List Block} (head : Emitted E targets first next b)
      (tail : Blocks E targets next last rest) : Blocks E targets first last (b :: rest)

section

variable {E E' : Site} {targets targets' : List String} {first next last : Nat} {b : Block}
  {blocks : List Block}

theorem Emitted.mono (h : E.Le E') (more : targets ⊆ targets') (emitted : Emitted E targets first next b) :
    Emitted E' targets' first next b := by
  obtain ⟨body, closing, split, made, closes⟩ := emitted.split
  exact ⟨body, closing, split, made.mono h, closes.mono h more⟩

theorem Emitted.next_le (emitted : Emitted E targets first next b) : first ≤ next := by
  obtain ⟨body, closing, -, made, -⟩ := emitted.split
  exact made.next_le

namespace Blocks

theorem mono (h : E.Le E') (more : targets ⊆ targets') (made : Blocks E targets first next blocks) :
    Blocks E' targets' first next blocks := by
  induction made with
  | nil => exact .nil
  | cons head _ ih => exact .cons (head.mono h more) ih

theorem next_le (made : Blocks E targets first next blocks) : first ≤ next := by
  induction made with
  | nil => exact Nat.le_refl _
  | cons head _ ih => exact Nat.le_trans head.next_le ih

theorem append {more : List Block} (made : Blocks E targets first next blocks)
    (made' : Blocks E targets next last more) : Blocks E targets first last (blocks ++ more) := by
  induction made with
  | nil => exact made'
  | cons head _ ih => exact .cons head (ih made')

theorem mem (made : Blocks E targets first last blocks) (mem : b ∈ blocks) :
    ∃ n m, first ≤ n ∧ m ≤ last ∧ Emitted E targets n m b := by
  induction made with
  | nil => cases mem
  | cons head tail ih =>
    rcases List.mem_cons.mp mem with rfl | mem
    · exact ⟨_, _, Nat.le_refl _, tail.next_le, head⟩
    · obtain ⟨n, m, least, most, emitted⟩ := ih mem
      exact ⟨n, m, Nat.le_trans head.next_le least, most, emitted⟩

end Blocks

end

end Codegen86.Selection
