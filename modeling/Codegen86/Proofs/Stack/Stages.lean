import Codegen86.Proofs.Linking.Program
/-!
# Stages of a frame

A function saves the base pointer, makes it point to where it was saved, and reserves its frame; before it
returns it undoes all this.  `Shifts` says from which stage to which an instruction leads, and `Flow` the
same of code.  Which stage it is can be told from the code alone: at every jump the frame is as large as at
the start of every block but the first (`Balanced`).

The words between the pointers are counted as the machine counts, so that sums wrap.
-/

set_option autoImplicit false

namespace Codegen86.Stack

open Target

/-- How far a function is: just entered, the base pointer saved, or the base pointer at the place where it
was saved and the stack pointer some words below. -/
inductive Stage where
  | entered
  | saved
  | framed (words : Word)

/-- An operand that has a value. -/
def Readable : Operand → Prop
  | .reg (.physical r) => r < Machine.generalRegisters
  | .reg .stackPointer | .reg .basePointer | .imm _ => True
  | .mem base _ => base = .basePointer
  | .reg (.abstract _) | .label _ => False

/-- A general register, or a word below the base pointer. -/
def Writable : Operand → Prop
  | .reg (.physical r) => r < Machine.generalRegisters
  | .mem base offset => base = .basePointer ∧ offset < 0
  | _ => False

/-- An instruction that changes neither pointer, and no word at or above the base pointer. -/
inductive Neutral (get : OperandRef → Operand) : Instruction → Prop
  | nop : Neutral get .nop
  | mov {x y : OperandRef} (target : Writable (get x)) (source : Readable (get y)) :
      Neutral get (.mov x y)
  | arith {op : Arith} {x y : OperandRef} (target : Writable (get x)) (source : Readable (get y)) :
      Neutral get (.arith op x y)
  | cmp {x y : OperandRef} (left : Readable (get x)) (right : Readable (get y)) : Neutral get (.cmp x y)

/-- The instruction leads from one stage to another. -/
inductive Shifts (get : OperandRef → Operand) : Stage → Instruction → Stage → Prop
  | save {x : OperandRef} (base : get x = .reg .basePointer) : Shifts get .entered (.push x) .saved
  | base {x y : OperandRef} (target : get x = .reg .basePointer) (source : get y = .reg .stackPointer) :
      Shifts get .saved (.mov x y) (.framed 0)
  | reserve {x y : OperandRef} {w : Word} (target : get x = .reg .stackPointer)
      (amount : get y = .imm w) (least : 0 ≤ w) : Shifts get (.framed 0) (.arith .sub x y) (.framed w)
  | drop {x y : OperandRef} {u v w : Word} (target : get x = .reg .stackPointer)
      (amount : get y = .imm w) (sum : u = v + w) (least : 0 ≤ v) :
      Shifts get (.framed u) (.arith .add x y) (.framed v)
  | push {x : OperandRef} {w : Word} (source : Readable (get x)) :
      Shifts get (.framed w) (.push x) (.framed (w + 1))
  | neutral {i : Instruction} {w : Word} (neutral : Neutral get i) :
      Shifts get (.framed w) i (.framed w)
  | call {x : OperandRef} {w : Word} : Shifts get (.framed w) (.call x) (.framed w)
  | jump {x : OperandRef} {w : Word} : Shifts get (.framed w) (.jump x) (.framed w)
  | jumpIf {condition : Condition} {x : OperandRef} {w : Word} :
      Shifts get (.framed w) (.jumpIf condition x) (.framed w)
  | restore {x : OperandRef} (base : get x = .reg .basePointer) : Shifts get (.framed 0) (.pop x) .entered
  | ret {k : Stage} : Shifts get .entered .ret k

/-- The code leads from one stage to another; it jumps only at stage `home`. -/
inductive Flow (get : OperandRef → Operand) (home : Stage) : Stage → List Instruction → Stage → Prop
  | nil {k : Stage} : Flow get home k [] k
  | cons {k k' k'' : Stage} {i : Instruction} {code : List Instruction} (head : Shifts get k i k')
      (jumps : i.isJump = true → k = home) (tail : Flow get home k' code k'') :
      Flow get home k (i :: code) k''

/-- A function whose frame has `w` words where it jumps: its first block makes the frame, the others have
it, and nothing jumps to the first. -/
structure Framed (get : OperandRef → Operand) (w : Word) (first : Block) (rest : List Block) : Prop where
  enters : Flow get (.framed w) .entered first.code (.framed w)
  stays : ∀ b ∈ rest, Flow get (.framed w) (.framed w) b.code (.framed w)
  apart : ∀ b ∈ first :: rest, ∀ i ∈ b.code, i.isJump = true → ∀ x ∈ i.operands, ∀ l,
    get x = .label l → l.name ≠ first.name

/-- A function that leaves the stack as it found it. -/
def Balanced (get : OperandRef → Operand) (f : Function) : Prop :=
  ∃ w first rest, f.blocks = first :: rest ∧ Framed get w first rest

/-- All functions leave the stack as they found it. -/
def AllBalanced (p : Program) : Prop := ∀ f ∈ p.functions, Balanced p.pool.get f

variable {get get' : OperandRef → Operand} {home k k' k'' : Stage} {code code' : List Instruction}

theorem Writable.readable {o : Operand} (h : Writable o) : Readable o := by
  cases o with
  | reg r => cases r <;> first | exact h | exact h.elim
  | mem base offset => exact h.1
  | _ => exact h.elim

theorem Neutral.congr {i : Instruction} (h : Neutral get i)
    (same : ∀ x ∈ i.operands, get' x = get x) : Neutral get' i := by
  simp only [Instruction.operands] at same
  cases h with
  | nop => exact .nop
  | mov target source => exact .mov (by rwa [same _ (by simp)]) (by rwa [same _ (by simp)])
  | arith target source => exact .arith (by rwa [same _ (by simp)]) (by rwa [same _ (by simp)])
  | cmp left right => exact .cmp (by rwa [same _ (by simp)]) (by rwa [same _ (by simp)])

theorem Neutral.plain {i : Instruction} (h : Neutral get i) : i.isPlain = true := by
  cases h <;> rfl

/-- What labels stand for does not matter. -/
theorem Shifts.congr {i : Instruction} (h : Shifts get k i k')
    (same : i.isPlain = true → ∀ x ∈ i.operands, get' x = get x) : Shifts get' k i k' := by
  cases h with
  | save base => exact .save ((same rfl _ (by simp [Instruction.operands])).trans base)
  | base target source =>
    exact .base ((same rfl _ (by simp [Instruction.operands])).trans target)
      ((same rfl _ (by simp [Instruction.operands])).trans source)
  | reserve target amount least =>
    exact .reserve ((same rfl _ (by simp [Instruction.operands])).trans target)
      ((same rfl _ (by simp [Instruction.operands])).trans amount) least
  | drop target amount sum least =>
    exact .drop ((same rfl _ (by simp [Instruction.operands])).trans target)
      ((same rfl _ (by simp [Instruction.operands])).trans amount) sum least
  | push source => exact .push (by rwa [same rfl _ (by simp [Instruction.operands])])
  | neutral neutral => exact .neutral (neutral.congr (same neutral.plain))
  | call => exact .call
  | jump => exact .jump
  | jumpIf => exact .jumpIf
  | restore base => exact .restore ((same rfl _ (by simp [Instruction.operands])).trans base)
  | ret => exact .ret

/-- The operands have values. -/
theorem Shifts.readable {i : Instruction} (h : Shifts get k i k') (plain : i.isPlain = true) {x : OperandRef}
    (use : x ∈ i.operands) : Readable (get x) := by
  have pair : ∀ {y z : OperandRef}, Readable (get y) → Readable (get z) → x ∈ [y, z] → Readable (get x) := by
    intro y z first second use
    simp only [List.mem_cons, List.not_mem_nil, or_false] at use
    rcases use with rfl | rfl
    · exact first
    · exact second
  have known : ∀ {o o' : Operand}, o = o' → Readable o' → Readable o := fun same => same ▸ id
  cases h with
  | save base | restore base =>
    obtain rfl := List.mem_singleton.mp use
    exact known base trivial
  | base target source => exact pair (known target trivial) (known source trivial) use
  | reserve target amount => exact pair (known target trivial) (known amount trivial) use
  | drop target amount => exact pair (known target trivial) (known amount trivial) use
  | push source =>
    obtain rfl := List.mem_singleton.mp use
    exact source
  | neutral neutral =>
    cases neutral with
    | nop => cases use
    | mov target source | arith target source => exact pair target.readable source use
    | cmp left right => exact pair left right use
  | call | jump | jumpIf | ret => cases plain

namespace Flow

theorem congr (h : Flow get home k code k')
    (same : ∀ i ∈ code, i.isPlain = true → ∀ x ∈ i.operands, get' x = get x) :
    Flow get' home k code k' := by
  induction h with
  | nil => exact .nil
  | cons head jumps _ ih =>
    exact .cons (head.congr (same _ List.mem_cons_self)) jumps
      (ih fun i mem => same i (List.mem_cons_of_mem _ mem))

theorem append (h : Flow get home k code k') (h' : Flow get home k' code' k'') :
    Flow get home k (code ++ code') k'' := by
  induction h with
  | nil => exact h'
  | cons head jumps _ ih => exact .cons head jumps (ih h')

theorem split (h : Flow get home k (code ++ code') k'') :
    ∃ k', Flow get home k code k' ∧ Flow get home k' code' k'' := by
  induction code generalizing k with
  | nil => exact ⟨k, .nil, h⟩
  | cons i rest ih =>
    cases h with
    | cons head jumps tail =>
      obtain ⟨k', first, second⟩ := ih tail
      exact ⟨k', .cons head jumps first, second⟩

/-- Every instruction leads from one stage to another. -/
theorem shifts {i : Instruction} (h : Flow get home k code k') (mem : i ∈ code) :
    ∃ stage stage', Shifts get stage i stage' ∧ (i.isJump = true → stage = home) := by
  induction h with
  | nil => cases mem
  | cons head jumps _ ih =>
    rcases List.mem_cons.mp mem with rfl | mem
    · exact ⟨_, _, head, jumps⟩
    · exact ih mem

/-- Blocks that have the frame, one after another. -/
theorem blocks {blocks : List Block} (h : ∀ b ∈ blocks, Flow get home home b.code home) :
    Flow get home home (blocks.flatMap (·.code)) home := by
  induction blocks with
  | nil => exact .nil
  | cons b rest ih =>
    rw [List.flatMap_cons]
    exact (h b List.mem_cons_self).append (ih fun c mem => h c (List.mem_cons_of_mem _ mem))

end Flow

/-- The first block of a function makes the frame, so it is not empty. -/
theorem Framed.full {w : Word} {first : Block} {rest : List Block} (h : Framed get w first rest) :
    first.code ≠ [] := by
  intro empty
  have enters := h.enters
  rw [empty] at enters
  cases enters

end Codegen86.Stack
